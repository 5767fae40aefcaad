import Scylla.Core.SortedMerge

/-!
# Differences of sorted lists

`setDifference` walks two lists sorted by a key and keeps what only the first one has.
`differenceBy` does so for association lists and lets `keep` decide what becomes of an entry of the
first one when the second has one with the same key.
-/

namespace Scylla

open List
open Option

section SetDifference

variable {α κ : Type*} [LinearOrder κ]

/-- `std::set_difference` of two lists sorted by `key`. -/
def setDifference (key : α → κ) : List α → List α → List α
  | [], _ => []
  | x :: xs, [] => x :: xs
  | x :: xs, y :: ys =>
    if key x < key y then x :: setDifference key xs (y :: ys)
    else if key y < key x then setDifference key (x :: xs) ys
    else setDifference key xs ys
termination_by xs ys => xs.length + ys.length

theorem mem_setDifference {key : α → κ} {z : α} {xs ys : List α}
    (hxs : xs.Pairwise fun a b => key a < key b) (hys : ys.Pairwise fun a b => key a ≤ key b) :
    z ∈ setDifference key xs ys ↔ z ∈ xs ∧ ∀ y ∈ ys, key y ≠ key z := by
  fun_induction setDifference key xs ys with
  | case1 => simp
  | case2 => simp
  | case3 x xs y ys hlt ih =>
    obtain ⟨hhead, htail⟩ := pairwise_cons.mp hxs
    obtain ⟨hle, -⟩ := pairwise_cons.mp hys
    have habove : ∀ y' ∈ y :: ys, key y' ≠ key x := by
      intro y' hy'
      rcases mem_cons.mp hy' with rfl | hy'
      · exact hlt.ne'
      · exact (hlt.trans_le (hle y' hy')).ne'
    rw [mem_cons, mem_cons, ih htail hys]
    constructor
    · rintro (rfl | ⟨hz, hne⟩)
      · exact ⟨.inl rfl, habove⟩
      · exact ⟨.inr hz, hne⟩
    · rintro ⟨rfl | hz, hne⟩
      · exact .inl rfl
      · exact .inr ⟨hz, hne⟩
  | case4 x xs y ys hlt hgt ih =>
    obtain ⟨hhead, -⟩ := pairwise_cons.mp hxs
    obtain ⟨-, htail⟩ := pairwise_cons.mp hys
    have hbelow : z ∈ x :: xs → key y ≠ key z := by
      intro hz
      rcases mem_cons.mp hz with rfl | hz
      · exact hgt.ne
      · exact (hgt.trans (hhead z hz)).ne
    rw [ih hxs htail, forall_mem_cons]
    exact and_congr_right fun hz => (and_iff_right (hbelow hz)).symm
  | case5 x xs y ys hlt hgt ih =>
    obtain ⟨hhead, htail⟩ := pairwise_cons.mp hxs
    obtain ⟨-, htail'⟩ := pairwise_cons.mp hys
    have heq : key y = key x := le_antisymm (not_lt.mp hlt) (not_lt.mp hgt)
    rw [ih htail htail', forall_mem_cons, mem_cons]
    constructor
    · rintro ⟨hz, hne⟩
      exact ⟨.inr hz, heq.trans_ne (hhead z hz).ne, hne⟩
    · rintro ⟨rfl | hz, hyz, hne⟩
      · exact absurd heq hyz
      · exact ⟨hz, hne⟩

end SetDifference

section DifferenceBy

open Std

variable {α κ : Type*}

/-- What `keep` makes of each entry of the first list and its counterpart in the second. -/
def differenceBy (cmp : κ → κ → Ordering) (key : α → κ) (keep : α → Option α → Option α) :
    List α → List α → List α
  | [], _ => []
  | x :: xs, ys =>
    let it := ys.dropWhile fun y => cmp (key y) (key x) = .lt
    (keep x (it.head?.filter fun y => cmp (key y) (key x) = .eq)).toList ++
      differenceBy cmp key keep xs it

variable {cmp : κ → κ → Ordering} {key : α → κ} {keep : α → Option α → Option α}

private theorem lookupBy_dropWhile [TransCmp cmp] {k k' : κ} (hk : cmp k' k ≠ .gt) (ys : List α) :
    lookupBy cmp key some k (ys.dropWhile fun y => cmp (key y) k' = .lt) =
      lookupBy cmp key some k ys := by
  induction ys with
  | nil => rfl
  | cons y ys ih =>
    rw [dropWhile_cons]
    split
    · next hlt =>
      have hlt : cmp (key y) k = .lt :=
        TransCmp.lt_of_lt_of_isLE (of_decide_eq_true hlt) (Ordering.isLE_iff_ne_gt.mpr hk)
      rw [ih, lookupBy_cons, if_neg (by rw [OrientedCmp.gt_of_lt hlt]; decide)]
    · rfl

variable {ys xs : List α}

private theorem head?_dropWhile_filter [TransCmp cmp] {k : κ} (hys : SortedBy cmp key ys) :
    ((ys.dropWhile fun y => cmp (key y) k = .lt).head?.filter fun y => cmp (key y) k = .eq) =
      lookupBy cmp key some k ys := by
  induction ys with
  | nil => rfl
  | cons y ys ih =>
    rw [dropWhile_cons]
    cases hc : cmp (key y) k with
    | lt =>
      rw [if_pos (by simp), ih hys.of_cons, lookupBy_cons,
        if_neg (by rw [OrientedCmp.gt_of_lt hc]; decide)]
    | eq => simp [lookupBy_cons, hc, OrientedCmp.eq_symm hc]
    | gt => simp [lookupBy_eq_none_of_lt hys (OrientedCmp.lt_of_gt hc), hc]

variable (hkey : ∀ x y, ∀ z ∈ keep x y, key z = key x)

include hkey in
theorem key_mem_differenceBy {z : α}
    (hz : z ∈ differenceBy cmp key keep xs ys) : ∃ x ∈ xs, key z = key x := by
  induction xs generalizing ys with
  | nil => cases hz
  | cons x xs ih =>
    rcases mem_append.mp hz with hz | hz
    · exact ⟨x, mem_cons_self, hkey _ _ _ (mem_toList.mp hz)⟩
    · obtain ⟨w, hw, hzw⟩ := ih hz
      exact ⟨w, mem_cons_of_mem _ hw, hzw⟩

include hkey in
theorem sortedBy_differenceBy (hxs : SortedBy cmp key xs) :
    SortedBy cmp key (differenceBy cmp key keep xs ys) := by
  induction xs generalizing ys with
  | nil => exact .nil
  | cons x xs ih =>
    refine pairwise_append.mpr ⟨?_, ih hxs.of_cons, ?_⟩
    · cases keep x _ <;> simp
    · intro z hz w hw
      obtain ⟨v, hv, hwv⟩ := key_mem_differenceBy hkey hw
      rw [hkey _ _ _ (mem_toList.mp hz), hwv]
      exact rel_of_pairwise_cons hxs hv

include hkey in
theorem lookupBy_differenceBy [TransCmp cmp] (k : κ)
    (hxs : SortedBy cmp key xs) (hys : SortedBy cmp key ys) :
    lookupBy cmp key some k (differenceBy cmp key keep xs ys) =
      (lookupBy cmp key some k xs).bind fun x => keep x (lookupBy cmp key some k ys) := by
  induction xs generalizing ys with
  | nil => rfl
  | cons x xs ih =>
    have hys' : SortedBy cmp key (ys.dropWhile fun y => cmp (key y) (key x) = .lt) :=
      hys.sublist (dropWhile_sublist _)
    -- later entries of the first list have greater keys, so nothing they look for was skipped
    have hrest : lookupBy cmp key some k
          (differenceBy cmp key keep xs (ys.dropWhile fun y => cmp (key y) (key x) = .lt)) =
        (lookupBy cmp key some k xs).bind fun x' => keep x' (lookupBy cmp key some k ys) := by
      rw [ih hxs.of_cons hys']
      cases hx' : lookupBy cmp key some k xs with
      | none => rfl
      | some x' =>
        obtain ⟨w, hw, hkw, -⟩ := exists_of_lookupBy_eq_some hx'
        have hlt : cmp (key x) k = .lt :=
          TransCmp.lt_of_lt_of_eq (rel_of_pairwise_cons hxs hw) (OrientedCmp.eq_symm hkw)
        rw [bind_some, bind_some, lookupBy_dropWhile (by rw [hlt]; decide)]
    rw [differenceBy, head?_dropWhile_filter hys, lookupBy_cons]
    by_cases hk : cmp k (key x) = .eq
    · rw [if_pos hk, bind_some, lookupBy_congr hk ys]
      cases hz : keep x (lookupBy cmp key some (key x) ys) with
      | none => rw [toList_none, nil_append, hrest, lookupBy_tail_eq_none hxs hk, bind_none]
      | some z => rw [toList_some, singleton_append, lookupBy_cons, hkey _ _ _ hz, if_pos hk]
    · rw [if_neg hk, ← hrest]
      cases hz : keep x (lookupBy cmp key some (key x) ys) with
      | none => rfl
      | some z => rw [toList_some, singleton_append, lookupBy_cons, hkey _ _ _ hz, if_neg hk]

/-- Keep an entry unless it has a counterpart over which it is not newer. -/
def keepNewer (newer : α → α → Prop) [DecidableRel newer] (x : α) : Option α → Option α
  | none => some x
  | some y => if newer x y then some x else none

variable {newer : α → α → Prop} [DecidableRel newer]

@[simp] theorem keepNewer_none (x : α) : keepNewer newer x none = some x := rfl

@[simp] theorem keepNewer_some (x y : α) :
    keepNewer newer x (some y) = if newer x y then some x else none := rfl

theorem eq_of_mem_keepNewer {x z : α} {y : Option α} (hz : z ∈ keepNewer newer x y) : z = x := by
  cases y with
  | none => exact (Option.some.inj hz).symm
  | some y =>
    rw [keepNewer_some] at hz
    split at hz
    · exact (Option.some.inj hz).symm
    · cases hz

theorem key_of_keepNewer (x : α) (y : Option α) : ∀ z ∈ keepNewer newer x y, key z = key x :=
  fun _ hz => congrArg key (eq_of_mem_keepNewer hz)

theorem differenceBy_keepNewer [TransCmp cmp] (hxs : SortedBy cmp key xs)
    (hys : SortedBy cmp key ys) :
    differenceBy cmp key (keepNewer newer) xs ys =
      xs.filter fun x => (lookupBy cmp key some (key x) ys).all fun y => newer x y := by
  refine eq_of_lookupBy_eq (sortedBy_differenceBy key_of_keepNewer hxs) (hxs.filter _) fun k => ?_
  rw [lookupBy_differenceBy key_of_keepNewer k hxs hys, lookupBy_filter hxs]
  refine Eq.trans ?_ (lookupBy_eq_bind _ k xs).symm
  cases hx : lookupBy cmp key some k xs with
  | none => rfl
  | some x =>
    obtain ⟨x', -, hk, hxx⟩ := exists_of_lookupBy_eq_some hx
    obtain rfl := Option.some.inj hxx
    rw [bind_some, bind_some, lookupBy_congr hk ys]
    cases lookupBy cmp key some (key x') ys <;> simp

end DifferenceBy

end Scylla
