import Scylla.Mutation.Cell

/-!
# Compound keys in the format of Origin

A legacy view of a key is a sequence of bytes that its iterator makes up on the way: the length of
each component, the component and a zero, or only the component if there can be no others.
`tri_comparator` orders keys by these bytes without making them. Composites are stored in the same
format, with a marker at their end, and static ones behind two bytes that no length has.
-/

namespace Scylla.Keys

open Mutation
open List

private def byte (n : ℕ) : Fin 256 := Fin.ofNat 256 n

/-! ## Legacy views -/

/-- A key serialized by a compound type without prefixes. -/
structure CompoundKey (isSingular : Bool) where
  components : List Bytes
  size_le : ∀ c ∈ components, c.length ≤ 65535
  singular : isSingular = true → components.length = 1

variable {isSingular : Bool}

structure LegacyIterator where
  singular : Bool
  offset : ℤ
  i : List Bytes

namespace LegacyIterator

def ofKey (k : CompoundKey isSingular) : LegacyIterator where
  singular := isSingular
  offset := if isSingular then 0 else -2
  i := if isSingular && (k.components.headD []).isEmpty then [] else k.components

/-- Comparison with the iterator made with `end_tag`. -/
def isEnd (k : CompoundKey isSingular) (it : LegacyIterator) : Bool :=
  it.offset = (if isSingular && (k.components.headD []).isEmpty then 0 else -2) && it.i.isEmpty

/-- `operator*`. -/
def deref (it : LegacyIterator) : Fin 256 :=
  let component := it.i.headD []
  if it.offset = -2 then byte (component.length / 256)
  else if it.offset = -1 then byte component.length
  else if it.offset < component.length then component.getD it.offset.toNat 0
  else 0

/-- `operator++`. -/
def next (it : LegacyIterator) : LegacyIterator :=
  let size : ℤ := (it.i.headD []).length
  if it.offset < size ∧ (it.singular = false ∨ it.offset ≠ size - 1) then
    { it with offset := it.offset + 1 }
  else { it with i := it.i.tail, offset := -2 }

def copy (k : CompoundKey isSingular) : ℕ → LegacyIterator → Bytes
  | 0, _ => []
  | n + 1, it => if it.isEnd k then [] else it.deref :: copy k n it.next

end LegacyIterator

def CompoundKey.legacySize (k : CompoundKey isSingular) : ℕ :=
  if isSingular then (k.components.headD []).length
  else (k.components.map fun c => 2 + c.length + 1).sum

/-- The copy takes one step more than it has bytes, and so sees the end. -/
def toLegacy (k : CompoundKey isSingular) : Bytes :=
  LegacyIterator.copy k (k.legacySize + 1) (.ofKey k)

def compareComponents (c₁ c₂ : Bytes) : Ordering :=
  if c₁.length ≠ c₂.length ∨ c₁.length = 0 then
    if c₁.length < c₂.length then .lt else if c₁.length ≠ 0 then .gt else .eq
  else compareUnsigned c₁ c₂

/-- `tri_comparator`. -/
def legacyTriCompare (k₁ k₂ : CompoundKey isSingular) : Ordering :=
  if isSingular then compareUnsigned (k₁.components.headD []) (k₂.components.headD [])
  else List.compareLex compareComponents k₁.components k₂.components

/-- A component with its length and the byte that ends it. -/
def frame (eoc : Fin 256) (c : Bytes) : Bytes :=
  byte (c.length / 256) :: byte c.length :: (c ++ [eoc])

variable {v : Bytes}

namespace LegacyIterator

private theorem copy_succ (k : CompoundKey isSingular) (n : ℕ) (sing : Bool) (offset : ℤ)
    (v : Bytes) (cs : List Bytes) : copy k (n + 1) ⟨sing, offset, v :: cs⟩ =
      deref ⟨sing, offset, v :: cs⟩ :: copy k n (next ⟨sing, offset, v :: cs⟩) :=
  if_neg (by simp [isEnd])

private theorem copy_value (k : CompoundKey isSingular) (n m : ℕ) (sing : Bool) (v : Bytes)
    (cs : List Bytes) : ∀ j : ℕ, j + m ≤ v.length → (sing = true → j + m < v.length) →
      copy k (n + m) ⟨sing, j, v :: cs⟩ =
        (v.drop j).take m ++ copy k n ⟨sing, (j + m : ℕ), v :: cs⟩ := by
  induction m with
  | zero => simp
  | succ m ih =>
    intro j hle hlt
    have hj : j < v.length := by omega
    have hderef : deref ⟨sing, j, v :: cs⟩ = v[j] := by
      simp [deref, hj, show (j : ℤ) ≠ -2 ∧ (j : ℤ) ≠ -1 by omega]
    have hnext : next ⟨sing, j, v :: cs⟩ = ⟨sing, (j + 1 : ℕ), v :: cs⟩ :=
      if_pos ⟨by simpa using hj, by grind⟩
    rw [← add_assoc, copy_succ, hderef, hnext, ih (j + 1) (by omega) (by grind),
      drop_eq_getElem_cons hj, take_succ_cons, cons_append, add_right_comm j]
    rfl

private theorem copy_frames (k : CompoundKey false) (cs : List Bytes) :
    copy k ((cs.map fun c => 2 + c.length + 1).sum + 1) ⟨false, -2, cs⟩ =
      cs.flatMap (frame 0) := by
  induction cs with
  | nil => rfl
  | cons v cs ih =>
    have hlength (n : ℕ) : 2 + v.length + 1 + n + 1 = n + 1 + 1 + v.length + 1 + 1 := by omega
    have hmsb : next ⟨false, -2, v :: cs⟩ = ⟨false, -1, v :: cs⟩ := by
      simp [next]
      omega
    have hlsb : next ⟨false, -1, v :: cs⟩ = ⟨false, (0 : ℕ), v :: cs⟩ := by
      simp [next]
      omega
    have heoc : next ⟨false, (0 + v.length : ℕ), v :: cs⟩ = ⟨false, -2, cs⟩ := if_neg (by simp)
    rw [map_cons, sum_cons, flatMap_cons, ← ih, hlength, copy_succ, hmsb, copy_succ,
      hlsb, copy_value k _ _ _ _ _ 0 (by omega) (by simp), copy_succ, heoc]
    simp [deref, frame]

private theorem copy_singular (k : CompoundKey true) (hk : k.components = [v])
    (hv : v ≠ []) : copy k (v.length + 1) ⟨true, (0 : ℕ), [v]⟩ = v := by
  obtain ⟨m, hm⟩ := Nat.exists_eq_succ_of_ne_zero (length_pos_of_ne_nil hv).ne'
  have hlast : next ⟨true, (0 + m : ℕ), [v]⟩ = ⟨true, -2, []⟩ := if_neg (by simp [hm])
  rw [hm, show m.succ + 1 = 1 + 1 + m by omega, copy_value k _ _ _ _ _ 0 (by omega) (by omega),
    copy_succ, hlast]
  simp [copy, isEnd, deref, hk, hv, hm]

end LegacyIterator

theorem toLegacy_eq (k : CompoundKey isSingular) :
    toLegacy k = if isSingular then k.components.headD [] else k.components.flatMap (frame 0) := by
  cases isSingular with
  | false => exact LegacyIterator.copy_frames k k.components
  | true =>
    obtain ⟨c, hc⟩ := length_eq_one_iff.mp (k.singular rfl)
    by_cases hne : c = []
    · simp [toLegacy, hc, hne, LegacyIterator.copy, LegacyIterator.ofKey, LegacyIterator.isEnd]
    · have hcopy := LegacyIterator.copy_singular k hc hne
      simpa [toLegacy, CompoundKey.legacySize, hc, LegacyIterator.ofKey, hne] using hcopy

private theorem compareUnsigned_append {a b : Bytes} (h : a.length = b.length) (x y : Bytes) :
    compareUnsigned (a ++ x) (b ++ y) = (compareUnsigned a b).then (compareUnsigned x y) := by
  induction a generalizing b with
  | nil =>
    cases length_eq_zero_iff.mp h.symm
    rfl
  | cons u a ih =>
    cases b with
    | nil => cases h
    | cons v b =>
      simp only [cons_append, compareUnsigned, ih (Nat.succ.inj h)]
      split_ifs <;> rfl

private theorem compareUnsigned_length {m n : ℕ} (hm : m ≤ 65535) (hn : n ≤ 65535) (x y : Bytes) :
    compareUnsigned (byte (m / 256) :: byte m :: x) (byte (n / 256) :: byte n :: y) =
      (compare m n).then (compareUnsigned x y) := by
  simp only [compareUnsigned, byte, Fin.lt_def, Fin.val_ofNat]
  rcases lt_trichotomy m n with h | rfl | h
  · rw [compare_lt_iff_lt.mpr h]
    split_ifs <;> first | rfl | omega
  · simp
  · rw [compare_gt_iff_gt.mpr h]
    split_ifs <;> first | rfl | omega

private theorem compareComponents_eq (c₁ c₂ : Bytes) :
    compareComponents c₁ c₂ = (compare c₁.length c₂.length).then (compareUnsigned c₁ c₂) := by
  rw [compareComponents]
  rcases lt_trichotomy c₁.length c₂.length with h | h | h
  · simp [h, h.ne, compare_lt_iff_lt.mpr h]
  · by_cases h0 : c₁ = []
    · cases length_eq_zero_iff.mp (h.symm.trans (length_eq_zero_iff.mpr h0))
      simp [h0, compareUnsigned]
    · simp [h, show c₂ ≠ [] by rintro rfl; exact h0 (length_eq_zero_iff.mp h)]
  · simp [h.ne', h.not_gt, compare_gt_iff_gt.mpr h, show c₁ ≠ [] by rintro rfl; cases h]

private theorem compareUnsigned_frames {a b : List Bytes} (ha : ∀ c ∈ a, c.length ≤ 65535)
    (hb : ∀ c ∈ b, c.length ≤ 65535) :
    compareUnsigned (a.flatMap (frame 0)) (b.flatMap (frame 0)) =
      List.compareLex compareComponents a b := by
  induction a generalizing b with
  | nil => cases b <;> rfl
  | cons c a ih =>
    cases b with
    | nil => rfl
    | cons d b =>
      have hrest := ih (fun x hx => ha x (.tail _ hx)) fun x hx => hb x (.tail _ hx)
      simp only [List.flatMap_cons, frame, List.cons_append, List.append_assoc]
      rw [compareUnsigned_length (ha c List.mem_cons_self) (hb d List.mem_cons_self),
        List.compareLex_cons_cons, compareComponents_eq, ← hrest]
      cases hlength : compare c.length d.length with
      | lt | gt => rfl
      | eq =>
        rw [compareUnsigned_append (compare_eq_iff_eq.mp hlength)]
        simp [compareUnsigned]

theorem legacyTriCompare_eq (k₁ k₂ : CompoundKey isSingular) :
    legacyTriCompare k₁ k₂ = compareUnsigned (toLegacy k₁) (toLegacy k₂) := by
  rw [toLegacy_eq, toLegacy_eq, legacyTriCompare]
  cases isSingular with
  | false => exact (compareUnsigned_frames k₁.size_le k₂.size_le).symm
  | true => rfl

/-! ## Composites -/

inductive Eoc where
  | start
  | none
  | stop
  deriving DecidableEq

def Eoc.toByte : Eoc → Fin 256
  | start => 255
  | none => 0
  | stop => 1

/-- Bytes from 128 on are negative. -/
def toEoc (eocByte : Fin 256) : Eoc :=
  if eocByte = 0 then .none else if 128 ≤ eocByte then .start else .stop

inductive CompositeError where
  /-- "First component size too large: {:d} > {:d}" -/
  | firstComponentTooLarge (size max : ℕ)
  /-- "Component size too large: {:d} > {:d}" -/
  | componentTooLarge (size max : ℕ)
  /-- "read_simple - not enough bytes (expected {:d}, got {:d})" -/
  | readSimple (expected got : ℕ)
  /-- "composite iterator - not enough bytes, expected {:d}, got {:d}" -/
  | notEnoughBytes (expected got : ℕ)
  /-- "non-zero component divider found ({:#02x}) mid" -/
  | nonZeroDivider (marker : Eoc)

structure Composite where
  bytes : Bytes
  isCompound : Bool

/-- The loop of `serialized_size` over the components after the first one. -/
def serializedSizeLoop : ℕ → List Bytes → Except CompositeError ℕ
  | len, [] => return len
  | len, v :: values =>
    if v.length > 65535 then throw (.componentTooLarge v.length 65535)
    else serializedSizeLoop (len + (2 + v.length + 1)) values

def serializedSize : List Bytes → Bool → Except CompositeError ℕ
  | [], _ => return 0
  | first :: values, isCompound =>
    if first.length > 65535 - isCompound.toNat then
      throw (.firstComponentTooLarge first.length (65535 - isCompound.toNat))
    else if isCompound then serializedSizeLoop (2 + first.length + 1) values
    else return first.length

/-- The marker replaces the last byte, which ends the last component. -/
def serializeValue (values : List Bytes) (isCompound : Bool) (marker : Eoc) :
    Except CompositeError Composite := do
  let _ ← serializedSize values isCompound
  let b := if isCompound then values.flatMap (frame 0) else values.headD []
  return ⟨if isCompound && !b.isEmpty then b.dropLast ++ [marker.toByte] else b, isCompound⟩

def serializeStatic (clusteringKeySize : ℕ) (values : List Bytes) :
    Except CompositeError Composite := do
  let c ← serializeValue (List.replicate clusteringKeySize [] ++ values) true .none
  return ⟨255 :: 255 :: c.bytes, true⟩

namespace Composite

def isStatic (c : Composite) : Bool :=
  c.isCompound && decide (2 < c.bytes.length) && decide (c.bytes.take 2 = [255, 255])

/-- `read_current`: the component that the iterator is at next and what follows it. -/
def readCurrent : Bytes → Except CompositeError (Option ((Bytes × Eoc) × Bytes))
  | [] => return none
  | [_] => throw (.readSimple 2 1)
  | msb :: lsb :: v =>
    let len := 256 * msb.val + lsb.val
    if v.length < len then throw (.notEnoughBytes len v.length)
    else
      match v.drop len with
      | [] => throw (.readSimple 1 0)
      | eoc :: rest => return some ((v.take len, toEoc eoc), rest)

def explodeLoop : ℕ → Option ((Bytes × Eoc) × Bytes) → Except CompositeError (List Bytes)
  | n + 1, some ((value, marker), v) => do
    let it ← readCurrent v
    if it.isSome && marker ≠ .none then throw (.nonZeroDivider marker)
    return value :: (← explodeLoop n it)
  | _, _ => return []

/-- Every step of the loop takes bytes. -/
def explode (c : Composite) : Except CompositeError (List Bytes) := do
  if !c.isCompound then return [c.bytes]
  explodeLoop c.bytes.length (← readCurrent (if c.isStatic then c.bytes.drop 2 else c.bytes))

private theorem readCurrent_frame (hv : v.length ≤ 65535) (marker : Eoc) (rest : Bytes) :
    readCurrent (frame marker.toByte v ++ rest) = .ok (some ((v, marker), rest)) := by
  have hlength : 256 * (byte (v.length / 256)).val + (byte v.length).val = v.length := by
    simp only [byte, Fin.val_ofNat]
    omega
  have hmarker : toEoc marker.toByte = marker := by cases marker <;> rfl
  simp [readCurrent, frame, hlength, hmarker]
  rfl

variable {vs values : List Bytes}

private theorem explodeLoop_frames (marker : Eoc) :
    ∀ n, (vs.flatMap (frame 0)).length < n → (∀ u ∈ vs ++ [v], u.length ≤ 65535) →
      ∃ it, readCurrent (vs.flatMap (frame 0) ++ frame marker.toByte v) = .ok it ∧
        explodeLoop n it = .ok (vs ++ [v]) := by
  induction vs with
  | nil =>
    intro n hn hsize
    obtain ⟨n, rfl⟩ := Nat.exists_eq_succ_of_ne_zero hn.ne'
    have hread := readCurrent_frame (hsize v mem_cons_self) marker []
    rw [append_nil] at hread
    refine ⟨_, hread, ?_⟩
    cases n <;> rfl
  | cons u vs ih =>
    intro n hn hsize
    obtain ⟨n, rfl⟩ := Nat.exists_eq_succ_of_ne_zero (Nat.ne_zero_of_lt hn)
    have hrest : (vs.flatMap (frame 0)).length < n := by
      rw [flatMap_cons, length_append, frame, length_cons] at hn
      omega
    obtain ⟨it, hit, hloop⟩ := ih n hrest fun w hw => hsize w (.tail _ hw)
    rw [flatMap_cons, append_assoc]
    refine ⟨_, readCurrent_frame (hsize u mem_cons_self) .none _, ?_⟩
    simp only [explodeLoop, hit, ne_eq, not_true_eq_false, decide_false, Bool.and_false]
    change List.cons u <$> explodeLoop n it = _
    rw [hloop]
    rfl

private theorem explode_frames {c : Composite} {marker : Eoc}
    (hcompound : c.isCompound = true) (hsize : ∀ u ∈ vs ++ [v], u.length ≤ 65535)
    (hbytes : (if c.isStatic then c.bytes.drop 2 else c.bytes) =
      vs.flatMap (frame 0) ++ frame marker.toByte v) : c.explode = .ok (vs ++ [v]) := by
  have hlength : (vs.flatMap (frame 0)).length < c.bytes.length := by
    have heq := congrArg List.length hbytes
    rw [length_append, frame, length_cons] at heq
    split_ifs at heq
    · rw [length_drop] at heq
      omega
    · omega
  obtain ⟨it, hit, hloop⟩ := explodeLoop_frames marker c.bytes.length hlength hsize
  rw [explode, hcompound, hbytes, hit]
  exact hloop

private theorem size_le_of_serializedSizeLoop {len n : ℕ}
    (h : serializedSizeLoop len values = .ok n) : ∀ v ∈ values, v.length ≤ 65535 := by
  induction values generalizing len with
  | nil => simp
  | cons v values ih =>
    rw [serializedSizeLoop] at h
    split_ifs at h with hv
    exact forall_mem_cons.mpr ⟨not_lt.mp hv, ih h⟩

theorem serializeValue_ok {first : Bytes} {marker : Eoc}
    {c : Composite} (h : serializeValue (first :: values) true marker = .ok c) :
    first.length ≤ 65534 ∧ (∀ v ∈ first :: values, v.length ≤ 65535) ∧
      ∃ vs v, first :: values = vs ++ [v] ∧
        c = ⟨vs.flatMap (frame 0) ++ frame marker.toByte v, true⟩ := by
  cases hsize : serializedSize (first :: values) true with
  | error e =>
    rw [serializeValue, hsize] at h
    cases h
  | ok n =>
    rw [serializeValue, hsize] at h
    simp only [serializedSize, if_true] at hsize
    split_ifs at hsize with hfirst
    have hrest := size_le_of_serializedSizeLoop hsize
    obtain ⟨vs, v, hvs⟩ := (eq_nil_or_concat (first :: values)).resolve_left
      (cons_ne_nil _ _)
    cases h
    refine ⟨not_lt.mp hfirst, forall_mem_cons.mpr ⟨by grind, hrest⟩, vs, v,
      by simpa using hvs, ?_⟩
    simp [hvs, frame, dropLast_cons_of_ne_nil]

end Composite

open Composite
open Nat

/-- `tri_comparator` orders keys as their legacy representations, and composites give back the
components they were serialized from, static ones behind an empty one for each clustering column. -/
theorem legacyTriCompare_explode_spec :
    (∀ (isSingular : Bool) (k₁ k₂ : CompoundKey isSingular),
      legacyTriCompare k₁ k₂ = compareUnsigned (toLegacy k₁) (toLegacy k₂)) ∧
    (∀ (values : List Bytes) (marker : Eoc) (c : Composite),
      serializeValue values true marker = .ok c → c.explode = .ok values) ∧
    (∀ (value : Bytes) (marker : Eoc) (c : Composite),
      serializeValue [value] false marker = .ok c → c.explode = .ok [value]) ∧
    ∀ (clusteringKeySize : ℕ) (values : List Bytes) (c : Composite),
      (clusteringKeySize = 0 → values ≠ []) → serializeStatic clusteringKeySize values = .ok c →
        c.explode = .ok (List.replicate clusteringKeySize [] ++ values) := by
  refine ⟨fun _ => legacyTriCompare_eq, fun values marker c h => ?_, fun value marker c h => ?_,
    fun n values c hne h => ?_⟩
  · cases values with
    | nil =>
      cases h
      rfl
    | cons first values =>
      obtain ⟨hfirst, hsize, vs, v, hvs, rfl⟩ := serializeValue_ok h
      rw [hvs] at hsize ⊢
      refine explode_frames rfl hsize (if_neg ?_)
      have hne : ¬ (byte (first.length / 256) = 255 ∧ byte first.length = 255) := by
        simp only [byte, Fin.ext_iff, Fin.val_ofNat]
        grind
      cases vs <;> cases hvs <;> simpa [isStatic, frame] using hne
  · cases hsize : serializedSize [value] false with
    | error e =>
      rw [serializeValue, hsize] at h
      cases h
    | ok n =>
      rw [serializeValue, hsize] at h
      cases h
      rfl
  · rw [serializeStatic] at h
    cases hall : List.replicate n [] ++ values with
    | nil =>
      obtain ⟨hn, hnil⟩ := append_eq_nil_iff.mp hall
      exact absurd hnil (hne ((replicate_eq_nil_iff _).mp hn))
    | cons first rest =>
      rw [hall] at h
      cases hvalue : serializeValue (first :: rest) true .none with
      | error e =>
        rw [hvalue] at h
        cases h
      | ok c' =>
        rw [hvalue] at h
        obtain ⟨-, hsize, vs, v, hvs, rfl⟩ := serializeValue_ok hvalue
        cases h
        rw [hvs] at hsize ⊢
        exact explode_frames rfl hsize (if_pos (by simp [isStatic, frame]))

/-- A static composite gives back the empty component of the clustering column too, and one with no
components at all is taken for the length of another. -/
theorem not_explode_serializeStatic :
    (∃ c, serializeStatic 1 [[0]] = .ok c ∧ c.explode = .ok [[], [0]]) ∧
      ∃ c, serializeStatic 0 [] = .ok c ∧ c.explode = .error (.notEnoughBytes 65535 0) :=
  ⟨⟨_, rfl, rfl⟩, _, rfl, rfl⟩

end Scylla.Keys
