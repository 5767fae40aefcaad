import Mathlib.Data.List.Dedup
import Mathlib.Data.List.Lex
import Mathlib.Data.List.Sort
import Mathlib.Data.Prod.Lex

/-!
# The elements of sets under `single_value_comp`

`set_sum` and `set_diff` find an element with an ordered set that compares strings with
`single_value_comp`. The comparison ranks a string by its bytes before the first zero byte and then
by its length, so it tells apart two strings of one length only where they differ before a zero
byte. The sum is the union, and the difference the difference, exactly if no element that has to
stay or to come in is confused with another.
-/

namespace Scylla.Alternator

open List

/-- `strncmp`, on as many bytes as both strings have. It stops at a zero byte. -/
def strncmp : ℕ → List UInt8 → List UInt8 → Ordering
  | len + 1, x :: xs, y :: ys =>
    if x ≠ y then compare x y else if x = 0 then .eq else strncmp len xs ys
  | _, _, _ => .eq

/-- `single_value_comp`, for strings. -/
def singleValueComp (r1 r2 : String) : Bool :=
  let b1 := r1.toUTF8.data.toList
  let b2 := r2.toUTF8.data.toList
  match strncmp (min b1.length b2.length) b1 b2 with
  | .lt => true
  | .eq => b1.length < b2.length
  | .gt => false

/-- The elements that a set ordered by `single_value_comp` takes for the same. -/
def sameElement (r1 r2 : String) : Bool := !singleValueComp r1 r2 && !singleValueComp r2 r1

/-- Inserts into a set ordered by `single_value_comp`. -/
def insertElement (x : String) : List String → List String
  | [] => [x]
  | y :: ys =>
    if singleValueComp x y then x :: y :: ys
    else if singleValueComp y x then y :: insertElement x ys
    else y :: ys

/-- The elements of the second set that are not in the first are added to it. -/
def sumElements (set1 set2 : List String) : List String :=
  set1 ++ set2.filter fun a => !set1.any (sameElement a)

/-- The elements of the first set, in their order, without those of the second. -/
def diffElements (set1 set2 : List String) : List String :=
  (set1.foldl (fun raw a => insertElement a raw) []).filter fun a => !set2.any (sameElement a)

/-! ## The order of `single_value_comp` -/

def bytesBeforeZero (bytes : List UInt8) : List ℕ := (bytes.takeWhile (· ≠ 0)).map UInt8.toNat

/-- What the comparison looks at: the bytes before the first zero byte, then the length. -/
def byteRank (bytes : List UInt8) : Lex (List ℕ × ℕ) := toLex (bytesBeforeZero bytes, bytes.length)

/-- The rank of a string in the order of `single_value_comp`. -/
def rank (r : String) : Lex (List ℕ × ℕ) := byteRank r.toUTF8.data.toList

def Confusable (r1 r2 : String) : Prop := rank r1 = rank r2

theorem bytesBeforeZero_cons (x : UInt8) (xs : List UInt8) :
    bytesBeforeZero (x :: xs) = if x = 0 then [] else x.toNat :: bytesBeforeZero xs := by
  by_cases hx : x = 0 <;> simp [bytesBeforeZero, hx]

theorem compare_byte_eq_lt {x y : UInt8} : compare x y = .lt ↔ x.toNat < y.toNat := by
  exact compareOfLessAndEq_eq_lt

theorem strncmp_then_length (b1 b2 : List UInt8) :
    (strncmp (min b1.length b2.length) b1 b2).then (compare b1.length b2.length) = .lt ↔
      byteRank b1 < byteRank b2 := by
  simp only [byteRank, Prod.Lex.toLex_lt_toLex, Ordering.then_eq_lt, Nat.compare_eq_lt]
  induction b1 generalizing b2 with
  | nil =>
    cases b2 with
    | nil => simp [strncmp]
    | cons y ys => by_cases hy : y = 0 <;> simp [strncmp, bytesBeforeZero, hy]
  | cons x xs ih =>
    cases b2 with
    | nil => simp [strncmp, bytesBeforeZero]
    | cons y ys =>
      simp only [length_cons, Nat.add_min_add_right, strncmp, bytesBeforeZero_cons]
      by_cases hxy : x = y
      · by_cases hx : x = 0 <;> simp [← hxy, hx, ih]
      · have hne : compare x y ≠ .eq := fun h => hxy (by simpa using h)
        have hnat : x.toNat ≠ y.toNat := fun h => hxy (UInt8.toNat_inj.mp h)
        simp only [ne_eq, hxy, not_false_eq_true, if_true, compare_byte_eq_lt, hne, false_and,
          or_false]
        by_cases hx : x = 0
        · have hy : y ≠ 0 := fun h => hxy (hx.trans h.symm)
          subst hx
          simpa [hy] using Nat.pos_of_ne_zero hnat.symm
        · by_cases hy : y = 0 <;> simp [hx, hy, hnat, cons_lt_cons_iff]

theorem singleValueComp_iff {r1 r2 : String} : singleValueComp r1 r2 ↔ rank r1 < rank r2 := by
  rw [rank, rank, ← strncmp_then_length, singleValueComp]
  split <;> simp_all [Nat.compare_eq_lt]

theorem sameElement_iff {r1 r2 : String} : sameElement r1 r2 ↔ Confusable r1 r2 := by
  rw [Confusable, le_antisymm_iff (a := rank r1), ← not_lt, ← not_lt, ← singleValueComp_iff,
    ← singleValueComp_iff]
  simp [sameElement, and_comm]

theorem not_any_sameElement_iff {a : String} {l : List String} :
    (!l.any (sameElement a)) = true ↔ ∀ b ∈ l, ¬Confusable a b := by
  simp only [Bool.not_eq_true', any_eq_false, sameElement_iff]

theorem confusable_zero : Confusable "\x00a" "\x00b" := by
  rw [Confusable]
  decide

/-! ## The ordered set -/

/-- Strictly ordered by `single_value_comp`. -/
def Ordered (raw : List String) : Prop := raw.Pairwise fun a b => rank a < rank b

theorem insertElement_spec (x : String) {raw : List String} (h : Ordered raw) :
    Ordered (insertElement x raw) ∧ ∀ y, y ∈ insertElement x raw ↔
      y ∈ raw ∨ y = x ∧ ∀ z ∈ raw, ¬Confusable x z := by
  unfold Ordered Confusable at *
  fun_induction insertElement x raw <;> simp only [singleValueComp_iff, pairwise_cons] at * <;>
    grind

theorem foldl_insertElement_spec {l raw : List String} (h : Ordered raw) :
    Ordered (l.foldl (fun raw a => insertElement a raw) raw) ∧
      (∀ y ∈ l.foldl (fun raw a => insertElement a raw) raw, y ∈ raw ∨ y ∈ l) ∧
      ∀ x, x ∈ raw ∨ x ∈ l →
        ∃ y ∈ l.foldl (fun raw a => insertElement a raw) raw, Confusable x y := by
  induction l generalizing raw with
  | nil => exact ⟨h, fun y hy => .inl hy, fun x hx => ⟨x, hx.resolve_right not_mem_nil, rfl⟩⟩
  | cons a l ih =>
    obtain ⟨hins, hmem⟩ := insertElement_spec a h
    obtain ⟨hordered, hsub, hall⟩ := ih hins
    refine ⟨hordered, by grind, ?_⟩
    unfold Confusable at *
    grind

/-! ## Union and difference -/

/-- The union: the second set's elements that are not in the first follow it. -/
def unionElements (set1 set2 : List String) : List String := set1 ++ set2.filter (· ∉ set1)

/-- The difference, each element once and in the order of the ranks. -/
def differenceElements (set1 set2 : List String) : List String :=
  ((set1.filter (· ∉ set2)).dedup).insertionSort fun a b => rank a ≤ rank b

/-- An element that is to come in is confused with one that is there. -/
def AddConfuses (set1 set2 : List String) : Prop :=
  ∃ a ∈ set2, a ∉ set1 ∧ ∃ b ∈ set1, Confusable a b

/-- An element that is to stay is confused with another one. -/
def DeleteConfuses (set1 set2 : List String) : Prop :=
  ∃ a ∈ set1, a ∉ set2 ∧ ∃ b ∈ set1 ++ set2, Confusable a b ∧ a ≠ b

theorem mem_differenceElements {a : String} {set1 set2 : List String} :
    a ∈ differenceElements set1 set2 ↔ a ∈ set1 ∧ a ∉ set2 := by
  rw [differenceElements, mem_insertionSort, mem_dedup, mem_filter, decide_eq_true_iff]

theorem nodup_differenceElements (set1 set2 : List String) :
    (differenceElements set1 set2).Nodup :=
  (perm_insertionSort _ _).nodup_iff.mpr (nodup_dedup _)

theorem sumElements_eq_iff {set1 set2 : List String} :
    sumElements set1 set2 = unionElements set1 set2 ↔ ¬AddConfuses set1 set2 := by
  rw [sumElements, unionElements, append_right_inj]
  constructor
  · rintro heq ⟨a, ha, hnew, b, hb, hab⟩
    have hmem : a ∈ set2.filter (· ∉ set1) := mem_filter.mpr ⟨ha, decide_eq_true hnew⟩
    rw [← heq, mem_filter, not_any_sameElement_iff] at hmem
    exact hmem.2 b hb hab
  · intro hno
    refine filter_congr fun a ha => ?_
    rw [Bool.eq_iff_iff, not_any_sameElement_iff, decide_eq_true_iff]
    exact ⟨fun hall hmem => hall a hmem rfl, fun hnew b hb hab => hno ⟨a, ha, hnew, b, hb, hab⟩⟩

theorem mem_diffElements {a : String} {set1 set2 : List String} (h : a ∈ diffElements set1 set2) :
    a ∈ set1 ∧ ∀ b ∈ set2, ¬Confusable a b := by
  rw [diffElements, mem_filter, not_any_sameElement_iff] at h
  exact ⟨((foldl_insertElement_spec .nil).2.1 a h.1).resolve_left not_mem_nil, h.2⟩

theorem ordered_diffElements (set1 set2 : List String) : Ordered (diffElements set1 set2) :=
  (foldl_insertElement_spec .nil).1.filter _

theorem diffElements_eq_nil_iff {set1 set2 : List String} :
    diffElements set1 set2 = [] ↔ ∀ x ∈ set1, ∃ y ∈ set2, Confusable x y := by
  obtain ⟨-, hsub, hall⟩ := foldl_insertElement_spec (l := set1) .nil
  rw [diffElements, filter_eq_nil_iff]
  simp only [not_any_sameElement_iff]
  push Not
  constructor
  · intro h x hx
    obtain ⟨z, hz, hxz⟩ := hall x (.inr hx)
    obtain ⟨y, hy, hzy⟩ := h z hz
    exact ⟨y, hy, hxz.trans hzy⟩
  · intro h z hz
    exact h z ((hsub z hz).resolve_left not_mem_nil)

theorem diffElements_eq_iff {set1 set2 : List String} :
    diffElements set1 set2 = differenceElements set1 set2 ↔ ¬DeleteConfuses set1 set2 := by
  have hmem {a : String} : a ∈ diffElements set1 set2 → _ := mem_diffElements
  have hordered := ordered_diffElements set1 set2
  constructor
  · -- both stay in a list in which no two elements have one rank
    rintro heq ⟨a, ha, hnot, b, hb, hab, hne⟩
    have hranks : ((diffElements set1 set2).map rank).Nodup :=
      pairwise_map.mpr (hordered.imp fun h => h.ne)
    have hinj := inj_on_of_nodup_map hranks
    unfold Confusable at *
    grind [mem_differenceElements]
  · intro hno
    have hunique : ∀ a ∈ set1, a ∉ set2 → ∀ b ∈ set1 ++ set2, Confusable a b → a = b :=
      fun a ha hnot b hb hab => by_contra fun hne => hno ⟨a, ha, hnot, b, hb, hab, hne⟩
    have hsame : ∀ a, a ∈ diffElements set1 set2 ↔ a ∈ differenceElements set1 set2 := by
      intro a
      rw [mem_differenceElements]
      refine ⟨fun ha => ⟨(hmem ha).1, fun h => (hmem ha).2 a h rfl⟩, fun ⟨ha, hnot⟩ => ?_⟩
      obtain ⟨-, hsub, hall⟩ := foldl_insertElement_spec (l := set1) .nil
      rw [diffElements, mem_filter, not_any_sameElement_iff]
      grind
    have hperm : (diffElements set1 set2).Perm (differenceElements set1 set2) :=
      (perm_ext_iff_of_nodup (hordered.imp fun h heq => h.ne (congrArg rank heq))
        (nodup_differenceElements set1 set2)).mpr hsame
    refine hperm.eq_of_pairwise (fun a b ha hb hle hge => ?_) (hordered.imp fun h => h.le)
      (pairwise_insertionSort _ _)
    obtain ⟨ha1, ha2⟩ := mem_differenceElements.mp ((hsame a).mp ha)
    exact hunique a ha1 ha2 b (mem_append_left _ (mem_differenceElements.mp hb).1)
      (le_antisymm hle hge)

end Scylla.Alternator
