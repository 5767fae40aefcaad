import Scylla.Core.Merge

/-!
# Merging sorted association lists

Lists sorted by a key comparator, without two entries of one key, stand for finite maps. `mergeInto`
merges the second list into the first in one pass. The comparator is only a total preorder:
different keys may name the same entry. An entry of the second list without counterpart goes through
`miss`, which may drop it; `view` gives the content of an entry, if it has any.
-/

namespace Scylla

open Option
open List
open Std
open TransCmp
open OrientedCmp

variable {α κ β : Type*}

/-- Place the entries of the second list that precede `x`, then go on with `rest`. -/
def mergeBefore (cmp : κ → κ → Ordering) (key : α → κ) (miss : Option α → α → Option α)
    (merge : α → α → α) (x : α) (xs : List α) (rest : List α → List α) : List α → List α
  | [] => x :: xs
  | y :: ys =>
    match cmp (key x) (key y) with
    | .lt => x :: rest (y :: ys)
    | .eq => merge x y :: rest ys
    | .gt => (miss (some x) y).toList ++ mergeBefore cmp key miss merge x xs rest ys

def mergeInto (cmp : κ → κ → Ordering) (key : α → κ) (miss : Option α → α → Option α)
    (merge : α → α → α) : List α → List α → List α
  | [], ys => ys.filterMap (miss none)
  | x :: xs, ys =>
    mergeBefore cmp key miss merge x xs (mergeInto cmp key miss merge xs) ys

def combine (cmp : κ → κ → Ordering) (key : α → κ) (merge : α → α → α) (xs ys : List α) : List α :=
  mergeInto cmp key (fun _ y => some y) merge xs ys

def SortedBy (cmp : κ → κ → Ordering) (key : α → κ) (l : List α) : Prop :=
  l.Pairwise fun a b => cmp (key a) (key b) = .lt

instance (cmp : κ → κ → Ordering) (key : α → κ) (l : List α) : Decidable (SortedBy cmp key l) :=
  inferInstanceAs (Decidable (l.Pairwise _))

def lookupBy (cmp : κ → κ → Ordering) (key : α → κ) (view : α → Option β) (k : κ) :
    List α → Option β
  | [] => none
  | x :: xs => if cmp k (key x) = .eq then view x else lookupBy cmp key view k xs

section

variable {cmp : κ → κ → Ordering} {key : α → κ} {miss : Option α → α → Option α}
  {merge : α → α → α} {view : α → Option β} {m : β → β → β} {r : β → β → Prop}

@[simp] theorem lookupBy_nil (k : κ) : lookupBy cmp key view k [] = none := rfl

theorem lookupBy_cons (k : κ) (x : α) (xs : List α) :
    lookupBy cmp key view k (x :: xs) =
      if cmp k (key x) = .eq then view x else lookupBy cmp key view k xs := rfl

@[simp] theorem mergeInto_nil_right (xs : List α) :
    mergeInto cmp key miss merge xs [] = xs := by
  cases xs <;> rfl

theorem mergeInto_cons_cons (x y : α) (xs ys : List α) :
    mergeInto cmp key miss merge (x :: xs) (y :: ys) =
      match cmp (key x) (key y) with
      | .lt => x :: mergeInto cmp key miss merge xs (y :: ys)
      | .eq => merge x y :: mergeInto cmp key miss merge xs ys
      | .gt => (miss (some x) y).toList ++ mergeInto cmp key miss merge (x :: xs) ys := rfl

theorem mergeInto_induct (cmp : κ → κ → Ordering) (key : α → κ) {motive : List α → List α → Prop}
    (nil_left : ∀ ys, motive [] ys) (nil_right : ∀ x xs, motive (x :: xs) [])
    (lt : ∀ x y xs ys, cmp (key x) (key y) = .lt → motive xs (y :: ys) → motive (x :: xs) (y :: ys))
    (eq : ∀ x y xs ys, cmp (key x) (key y) = .eq → motive xs ys → motive (x :: xs) (y :: ys))
    (gt : ∀ x y xs ys, cmp (key x) (key y) = .gt → motive (x :: xs) ys →
      motive (x :: xs) (y :: ys)) : ∀ xs ys, motive xs ys := by
  intro xs
  induction xs with
  | nil => exact nil_left
  | cons x xs ihx =>
    intro ys
    induction ys with
    | nil => exact nil_right x xs
    | cons y ys ihy =>
      cases h : cmp (key x) (key y) with
      | lt => exact lt x y xs ys h (ihx _)
      | eq => exact eq x y xs ys h (ihx _)
      | gt => exact gt x y xs ys h ihy

theorem lookupBy_bind {γ : Type*} (f : β → Option γ) (k : κ) (l : List α) :
    lookupBy cmp key (fun x => (view x).bind f) k l = (lookupBy cmp key view k l).bind f := by
  induction l with
  | nil => rfl
  | cons x l ih =>
    rw [lookupBy_cons, lookupBy_cons, ih]
    split <;> rfl

theorem lookupBy_eq_bind (view : α → Option β) (k : κ) (l : List α) :
    lookupBy cmp key view k l = (lookupBy cmp key some k l).bind view := by
  rw [← lookupBy_bind]
  rfl

theorem lookupBy_map {f : α → α} (hf : ∀ x, key (f x) = key x) (k : κ) (l : List α) :
    lookupBy cmp key view k (l.map f) = lookupBy cmp key (fun x => view (f x)) k l := by
  induction l with
  | nil => rfl
  | cons x l ih => rw [map_cons, lookupBy_cons, lookupBy_cons, ih, hf]

variable {k : κ} {l xs ys : List α}

theorem lookupBy_rel {γ : Type*} {view' : α → Option γ} {q : Option β → Option γ → Prop}
    (hnone : q none none) (h : ∀ x ∈ l, cmp k (key x) = .eq → q (view x) (view' x)) :
    q (lookupBy cmp key view k l) (lookupBy cmp key view' k l) := by
  induction l with
  | nil => exact hnone
  | cons x l ih =>
    rw [lookupBy_cons, lookupBy_cons]
    split
    · next hk => exact h x mem_cons_self hk
    · exact ih fun y hy => h y (mem_cons_of_mem _ hy)

theorem forall_mem_mergeInto {q : α → Prop} (hmiss : ∀ x y z, z ∈ miss x y → q y → q z)
    (hmerge : ∀ x y, cmp (key x) (key y) = .eq → q x → q y → q (merge x y))
    (hx : ∀ x ∈ xs, q x) (hy : ∀ y ∈ ys, q y) : ∀ z ∈ mergeInto cmp key miss merge xs ys, q z := by
  induction xs, ys using mergeInto_induct cmp key with
  | nil_left ys =>
    intro z hz
    obtain ⟨y, hmem, hz⟩ := mem_filterMap.mp hz
    exact hmiss _ _ _ hz (hy y hmem)
  | nil_right x xs => exact hx
  | lt x y xs ys h ih =>
    rw [forall_mem_cons] at hx
    simp only [mergeInto_cons_cons, h, forall_mem_cons]
    exact ⟨hx.1, ih hx.2 hy⟩
  | eq x y xs ys h ih =>
    rw [forall_mem_cons] at hx hy
    simp only [mergeInto_cons_cons, h, forall_mem_cons]
    exact ⟨hmerge x y h hx.1 hy.1, ih hx.2 hy.2⟩
  | gt x y xs ys h ih =>
    rw [forall_mem_cons] at hy
    simp only [mergeInto_cons_cons, h, forall_mem_append]
    exact ⟨fun z hz => hmiss _ _ _ (mem_toList.mp hz) hy.1, ih hx hy.2⟩

theorem lookupBy_eq_none (h : ∀ x ∈ l, cmp k (key x) = .lt) : lookupBy cmp key view k l = none := by
  induction l with
  | nil => rfl
  | cons x l ih =>
    have hx := h x mem_cons_self
    rw [lookupBy_cons, hx, if_neg (by decide)]
    exact ih fun y hy => h y (mem_cons_of_mem _ hy)

theorem exists_of_lookupBy_eq_some {b : β} (h : lookupBy cmp key view k l = some b) :
    ∃ x ∈ l, cmp k (key x) = .eq ∧ view x = some b := by
  induction l with
  | nil => cases h
  | cons x l ih =>
    rw [lookupBy_cons] at h
    split at h
    · next hk => exact ⟨x, mem_cons_self, hk, h⟩
    · obtain ⟨y, hy, hrest⟩ := ih h
      exact ⟨y, mem_cons_of_mem _ hy, hrest⟩

section Order

variable [TransCmp cmp]

variable {x : α}

theorem lookupBy_of_mem (hs : SortedBy cmp key l) (hx : x ∈ l) :
    lookupBy cmp key view (key x) l = view x := by
  induction l with
  | nil => cases hx
  | cons y l ih =>
    rw [lookupBy_cons]
    rcases mem_cons.mp hx with rfl | hx
    · rw [if_pos ReflCmp.compare_self]
    · have hlt := rel_of_pairwise_cons hs hx
      rw [if_neg (by rw [gt_of_lt hlt]; decide)]
      exact ih hs.of_cons hx

theorem lookupBy_congr {k' : κ} (h : cmp k k' = .eq) (l : List α) :
    lookupBy cmp key view k l = lookupBy cmp key view k' l := by
  induction l with
  | nil => rfl
  | cons x l ih =>
    have hc : cmp k (key x) = cmp k' (key x) := congr_left h
    rw [lookupBy_cons, lookupBy_cons, hc, ih]

section

variable (hs : SortedBy cmp key (x :: l))

include hs

theorem lookupBy_tail_eq_none (hk : cmp k (key x) = .eq) :
    lookupBy cmp key view k l = none :=
  lookupBy_eq_none fun _ hy =>
    lt_of_eq_of_lt hk (rel_of_pairwise_cons hs hy)

theorem lookupBy_eq_none_of_lt (hk : cmp k (key x) = .lt) :
    lookupBy cmp key view k (x :: l) = none := by
  refine lookupBy_eq_none fun y hy => ?_
  rcases mem_cons.mp hy with rfl | hy
  · exact hk
  · exact lt_trans hk (rel_of_pairwise_cons hs hy)

theorem lookupBy_cons_of_view_none (hv : view x = none) :
    lookupBy cmp key view k (x :: l) = lookupBy cmp key view k l := by
  rw [lookupBy_cons]
  split
  · next hk => rw [hv, lookupBy_tail_eq_none hs hk]
  · rfl

end

theorem lookupBy_filter (hs : SortedBy cmp key l) (q : α → Bool) :
    lookupBy cmp key view k (l.filter q) =
      lookupBy cmp key (fun x => if q x then view x else none) k l := by
  induction l with
  | nil => rfl
  | cons x l ih =>
    rw [lookupBy_cons, filter_cons, ← ih hs.of_cons]
    by_cases hq : q x
    · simp only [hq, if_true]
      rw [lookupBy_cons]
    · simp only [hq, if_false, Bool.false_eq_true]
      split
      · next hk =>
        rw [ih hs.of_cons, lookupBy_tail_eq_none hs hk]
      · rfl

end Order

section Merge

variable (hmissKey : ∀ x y z, z ∈ miss x y → key z = key y)
  (hmissView : ∀ x y, (miss x y).bind view = view y)
  (hmergeKey : ∀ x y, cmp (key x) (key y) = .eq → key (merge x y) = key x)
  (hrefl : ∀ b, r b b)

include hmissKey in
include hmissKey hmergeKey in
theorem key_mem_mergeInto {z : α} (hz : z ∈ mergeInto cmp key miss merge xs ys) :
    (∃ x ∈ xs, key z = key x) ∨ ∃ y ∈ ys, key z = key y := by
  induction xs, ys using mergeInto_induct cmp key with
  | nil_left ys =>
    obtain ⟨y, hy, hz⟩ := mem_filterMap.mp hz
    exact .inr ⟨y, hy, hmissKey _ _ _ hz⟩
  | nil_right x xs => exact .inl ⟨z, hz, rfl⟩
  | lt x y xs ys h ih =>
    rw [mergeInto_cons_cons, h] at hz
    rcases mem_cons.mp hz with rfl | hz
    · exact .inl ⟨z, mem_cons_self, rfl⟩
    · exact (ih hz).imp_left fun ⟨w, hw, he⟩ => ⟨w, mem_cons_of_mem _ hw, he⟩
  | eq x y xs ys h ih =>
    rw [mergeInto_cons_cons, h] at hz
    rcases mem_cons.mp hz with rfl | hz
    · exact .inl ⟨x, mem_cons_self, hmergeKey x y h⟩
    · exact (ih hz).imp (fun ⟨w, hw, he⟩ => ⟨w, mem_cons_of_mem _ hw, he⟩)
        fun ⟨w, hw, he⟩ => ⟨w, mem_cons_of_mem _ hw, he⟩
  | gt x y xs ys h ih =>
    rw [mergeInto_cons_cons, h] at hz
    rcases mem_append.mp hz with hz | hz
    · exact .inr ⟨y, mem_cons_self, hmissKey _ _ _ (mem_toList.mp hz)⟩
    · exact (ih hz).imp_right fun ⟨w, hw, he⟩ => ⟨w, mem_cons_of_mem _ hw, he⟩

variable [TransCmp cmp]

include hmissKey hmergeKey in
theorem sortedBy_mergeInto (hx : SortedBy cmp key xs) (hy : SortedBy cmp key ys) :
    SortedBy cmp key (mergeInto cmp key miss merge xs ys) := by
  induction xs, ys using mergeInto_induct cmp key with
  | nil_left ys =>
    refine List.Pairwise.filterMap _ (R := fun a b => cmp (key a) (key b) = .lt) ?_ hy
    intro a a' h b hb b' hb'
    rw [hmissKey _ _ _ hb, hmissKey _ _ _ hb']
    exact h
  | nil_right x xs => exact hx
  | lt x y xs ys h ih =>
    rw [mergeInto_cons_cons, h]
    refine pairwise_cons.mpr ⟨fun z hz => ?_, ih hx.of_cons hy⟩
    rcases key_mem_mergeInto hmissKey hmergeKey hz with ⟨w, hw, he⟩ | ⟨w, hw, he⟩ <;> rw [he]
    · exact rel_of_pairwise_cons hx hw
    · rcases mem_cons.mp hw with rfl | hw
      · exact h
      · exact lt_trans h (rel_of_pairwise_cons hy hw)
  | eq x y xs ys h ih =>
    rw [mergeInto_cons_cons, h]
    refine pairwise_cons.mpr ⟨fun z hz => ?_, ih hx.of_cons hy.of_cons⟩
    rw [hmergeKey x y h]
    rcases key_mem_mergeInto hmissKey hmergeKey hz with ⟨w, hw, he⟩ | ⟨w, hw, he⟩ <;> rw [he]
    · exact rel_of_pairwise_cons hx hw
    · exact lt_of_eq_of_lt h (rel_of_pairwise_cons hy hw)
  | gt x y xs ys h ih =>
    rw [mergeInto_cons_cons, h]
    have hrest := ih hx hy.of_cons
    cases hm : miss (some x) y with
    | none => exact hrest
    | some z =>
      refine pairwise_cons.mpr ⟨fun w hw => ?_, hrest⟩
      rw [hmissKey _ _ _ hm]
      have hyx : cmp (key y) (key x) = .lt := lt_of_gt h
      rcases key_mem_mergeInto hmissKey hmergeKey hw with ⟨v, hv, he⟩ | ⟨v, hv, he⟩ <;> rw [he]
      · rcases mem_cons.mp hv with rfl | hv
        · exact hyx
        · exact lt_trans hyx (rel_of_pairwise_cons hx hv)
      · exact rel_of_pairwise_cons hy hv

include hmissKey hmissView in
private theorem lookupBy_filterMap_miss {x : Option α} (k : κ) (hs : SortedBy cmp key ys) :
    lookupBy cmp key view k (ys.filterMap (miss x)) = lookupBy cmp key view k ys := by
  induction ys with
  | nil => rfl
  | cons y ys ih =>
    have hv := hmissView x y
    cases hm : miss x y with
    | none =>
      rw [hm, bind_none] at hv
      rw [filterMap_cons_none hm, ih hs.of_cons, lookupBy_cons_of_view_none hs hv.symm]
    | some z =>
      rw [hm, bind_some] at hv
      rw [filterMap_cons_some hm, lookupBy_cons, lookupBy_cons, ih hs.of_cons, hv,
        hmissKey _ _ _ hm]

include hmissKey hmissView hmergeKey in
theorem lookupBy_mergeInto_bind (k : κ) (hx : SortedBy cmp key xs) (hy : SortedBy cmp key ys) :
    lookupBy cmp key view k (mergeInto cmp key miss merge xs ys) =
      (Option.merge merge (lookupBy cmp key some k xs) (lookupBy cmp key some k ys)).bind view := by
  induction xs, ys using mergeInto_induct cmp key with
  | nil_left ys =>
    rw [mergeInto, lookupBy_filterMap_miss hmissKey hmissView k hy, lookupBy_nil,
      merge_none_left, lookupBy_eq_bind]
  | nil_right x xs =>
    rw [mergeInto_nil_right, lookupBy_nil, merge_none_right, lookupBy_eq_bind]
  | lt x y xs ys h ih =>
    simp only [mergeInto_cons_cons, h]
    rw [lookupBy_cons, lookupBy_cons k x xs]
    split
    · next hk =>
      rw [lookupBy_eq_none_of_lt hy (lt_of_eq_of_lt hk h), merge_none_right, bind_some]
    · exact ih hx.of_cons hy
  | eq x y xs ys h ih =>
    simp only [mergeInto_cons_cons, h]
    have hc : cmp k (key x) = cmp k (key y) := congr_right h
    rw [lookupBy_cons, lookupBy_cons k x xs, lookupBy_cons k y ys, hmergeKey x y h, ← hc]
    split
    · rw [merge_some_some, bind_some]
    · exact ih hx.of_cons hy.of_cons
  | gt x y xs ys h ih =>
    simp only [mergeInto_cons_cons, h]
    have hv := hmissView (some x) y
    rw [lookupBy_cons (x := y)]
    split
    · next hk =>
      have hlt : cmp k (key x) = .lt := lt_of_eq_of_lt hk (lt_of_gt h)
      have ih' := ih hx hy.of_cons
      rw [lookupBy_eq_none_of_lt hx hlt, merge_none_left] at ih' ⊢
      rw [bind_some, ← hv]
      cases hm : miss (some x) y with
      | none =>
        rw [toList_none, nil_append, ih', lookupBy_tail_eq_none hy hk]
      | some z =>
        rw [toList_some, singleton_append, lookupBy_cons, hmissKey _ _ _ hm, if_pos hk, bind_some]
    · next hk =>
      rw [← ih hx hy.of_cons]
      cases hm : miss (some x) y with
      | none => rfl
      | some z =>
        rw [toList_some, singleton_append, lookupBy_cons, hmissKey _ _ _ hm, if_neg hk]

include hmissKey hmissView hmergeKey hrefl in
theorem lookupBy_mergeInto (k : κ) (hx : SortedBy cmp key xs) (hy : SortedBy cmp key ys)
    (hmergeView : ∀ x ∈ xs, ∀ y ∈ ys, cmp (key x) (key y) = .eq →
      Option.Rel r (view (merge x y)) (Option.merge m (view x) (view y))) :
    Option.Rel r (lookupBy cmp key view k (mergeInto cmp key miss merge xs ys))
      (Option.merge m (lookupBy cmp key view k xs) (lookupBy cmp key view k ys)) := by
  rw [lookupBy_mergeInto_bind hmissKey hmissView hmergeKey k hx hy, lookupBy_eq_bind view k xs,
    lookupBy_eq_bind view k ys]
  cases hxk : lookupBy cmp key some k xs with
  | none =>
    rw [merge_none_left, bind_none, merge_none_left]
    exact optionRel_refl hrefl _
  | some x =>
    cases hyk : lookupBy cmp key some k ys with
    | none =>
      rw [merge_none_right, bind_none, merge_none_right]
      exact optionRel_refl hrefl _
    | some y =>
      obtain ⟨x', hx', hkx, hxe⟩ := exists_of_lookupBy_eq_some hxk
      obtain ⟨y', hy', hky, hye⟩ := exists_of_lookupBy_eq_some hyk
      obtain rfl := Option.some.inj hxe
      obtain rfl := Option.some.inj hye
      exact hmergeView x' hx' y' hy' (eq_trans (eq_symm hkx) hky)

end Merge

section Combine

variable [TransCmp cmp]
  (hmergeKey : ∀ x y, cmp (key x) (key y) = .eq → key (merge x y) = key x)

include hmergeKey in
theorem sortedBy_combine (hx : SortedBy cmp key xs) (hy : SortedBy cmp key ys) :
    SortedBy cmp key (combine cmp key merge xs ys) :=
  sortedBy_mergeInto (fun _ _ _ h => by cases h; rfl) hmergeKey hx hy

include hmergeKey in
theorem lookupBy_combine (hmergeView : ∀ x y, cmp (key x) (key y) = .eq →
      view (merge x y) = Option.merge m (view x) (view y))
    (k : κ) (hx : SortedBy cmp key xs) (hy : SortedBy cmp key ys) :
    lookupBy cmp key view k (combine cmp key merge xs ys) =
      Option.merge m (lookupBy cmp key view k xs) (lookupBy cmp key view k ys) :=
  optionRel_eq.mp <| lookupBy_mergeInto (fun _ _ _ h => by cases h; rfl) (fun _ _ => rfl) hmergeKey
    Eq.refl k hx hy fun x _ y _ h => optionRel_eq.mpr (hmergeView x y h)

end Combine

/-! ## Extensionality -/

variable [TransCmp cmp]

theorem forall₂_iff_lookupBy {r : α → α → Prop} (hx : SortedBy cmp key xs)
    (hy : SortedBy cmp key ys) :
    Forall₂ (fun a b => cmp (key a) (key b) = .eq ∧ r a b) xs ys ↔
      ∀ k, Option.Rel r (lookupBy cmp key some k xs) (lookupBy cmp key some k ys) := by
  constructor
  · intro h k
    induction h with
    | nil => exact .none
    | @cons a b as bs hab _ ih =>
      have hc : cmp k (key a) = cmp k (key b) := congr_right hab.1
      rw [lookupBy_cons, lookupBy_cons, ← hc]
      split
      · exact .some hab.2
      · exact ih hx.of_cons hy.of_cons
  · intro h
    induction xs generalizing ys with
    | nil =>
      cases ys with
      | nil => exact .nil
      | cons y ys =>
        have hk := h (key y)
        rw [lookupBy_nil, lookupBy_cons, if_pos ReflCmp.compare_self] at hk
        cases hk
    | cons x xs ih =>
      cases ys with
      | nil =>
        have hk := h (key x)
        rw [lookupBy_nil, lookupBy_cons, if_pos ReflCmp.compare_self] at hk
        cases hk
      | cons y ys =>
        have hkx := h (key x)
        have hky := h (key y)
        rw [lookupBy_cons, if_pos ReflCmp.compare_self] at hkx
        rw [lookupBy_cons (x := y), if_pos ReflCmp.compare_self] at hky
        have hxy : cmp (key x) (key y) = .eq := by
          cases hc : cmp (key x) (key y) with
          | eq => rfl
          | lt =>
            rw [lookupBy_eq_none_of_lt hy hc] at hkx
            cases hkx
          | gt =>
            rw [lookupBy_eq_none_of_lt hx (lt_of_gt hc)] at hky
            cases hky
        rw [lookupBy_cons, if_pos hxy] at hkx
        cases hkx with
        | some hrel =>
          refine .cons ⟨hxy, hrel⟩ (ih hx.of_cons hy.of_cons fun k => ?_)
          by_cases hk : cmp k (key x) = .eq
          · rw [lookupBy_tail_eq_none hx hk, lookupBy_tail_eq_none hy (eq_trans hk hxy)]
            exact .none
          · have hk' : ¬ cmp k (key y) = .eq := by
              rwa [← congr_right (a := k) hxy]
            have := h k
            rwa [lookupBy_cons, lookupBy_cons, if_neg hk, if_neg hk'] at this

theorem eq_of_lookupBy_eq (hx : SortedBy cmp key xs) (hy : SortedBy cmp key ys)
    (h : ∀ k, lookupBy cmp key some k xs = lookupBy cmp key some k ys) : xs = ys := by
  have hrel : ∀ k, Option.Rel Eq (lookupBy cmp key some k xs) (lookupBy cmp key some k ys) :=
    fun k => optionRel_eq.mpr (h k)
  have hall := (forall₂_iff_lookupBy hx hy).mpr hrel
  exact forall₂_eq_eq_eq ▸ hall.imp fun _ _ hab => hab.2

end

end Scylla
