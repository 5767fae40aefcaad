import Scylla.Mutation.RangeTombstoneList

/-!
# The order of range tombstones does not matter

Inserting a range into a sorted list raises the tombstone of exactly the positions of the range. In
a canonical list adjacent ranges of one tombstone stay joined, so the list does not depend on the
order of insertions. A list with two such ranges that are not joined may.
-/

namespace Scylla.Mutation

namespace RangeTombstone

variable {P : Type*} [LinearOrder P] {l : List (RangeTombstone P)}

theorem sorted_applyRange (hl : Sorted l) (r : RangeTombstone P) : Sorted (applyRange l r) :=
  sorted_iff_laid.mpr (laid_applyRange (sorted_iff_laid.mp hl) r)

/-! ## Lookups -/

def searchTombstoneCovering (l : List (RangeTombstone P)) (p : P) : Tombstone :=
  match l.find? (p < ·.endPosition) with
  | none => .none
  | some r => if p < r.position then .none else r.tomb

theorem Sorted.searchTombstoneCovering_eq (hl : Sorted l) (p : P) :
    searchTombstoneCovering l p = (cover p l).getD .none := by
  unfold searchTombstoneCovering
  induction l with
  | nil => rfl
  | cons r l ih =>
    rw [List.find?_cons, cover_cons]
    by_cases hend : p < r.endPosition
    · rw [decide_eq_true hend]
      dsimp only
      by_cases hstart : p < r.position
      · rw [if_pos hstart, if_neg fun h => hstart.not_ge h.1, hl.cover_tail hend]
        rfl
      · rw [if_neg hstart, if_pos ⟨not_lt.mp hstart, hend⟩]
        rfl
    · rw [decide_eq_false hend, if_neg fun h => hend h.2]
      exact ih hl.of_cons

theorem searchTombstoneCovering_applyRange (hl : Sorted l) (r : RangeTombstone P) (p : P) :
    searchTombstoneCovering (applyRange l r) p =
      if r.position ≤ p ∧ p < r.endPosition then max (searchTombstoneCovering l p) r.tomb
      else searchTombstoneCovering l p := by
  rw [(sorted_applyRange hl r).searchTombstoneCovering_eq, hl.searchTombstoneCovering_eq,
    cover_applyRange hl, inRange]
  split
  · cases cover p l with
    | none => exact (max_eq_right (Tombstone.none_le r.tomb)).symm
    | some t => rfl
  · rw [Option.merge_none_right]

/-! ## Any order -/

theorem canonical_foldl_applyRange (hl : Canonical l) (rs : List (RangeTombstone P)) :
    Canonical (rs.foldl applyRange l) := by
  induction rs generalizing l with
  | nil => exact hl
  | cons r rs ih => exact ih (canonical_applyRange hl r)

theorem cover_foldl_applyRange (hl : Canonical l) (rs : List (RangeTombstone P)) (p : P) :
    cover p (rs.foldl applyRange l) =
      rs.foldl (fun t r => Option.merge max t (inRange r.position r.endPosition r.tomb p))
        (cover p l) := by
  induction rs generalizing l with
  | nil => rfl
  | cons r rs ih =>
    rw [List.foldl_cons, List.foldl_cons, ih (canonical_applyRange hl r),
      cover_applyRange hl.sorted]

private theorem merge_max_right_comm (a b c : Option Tombstone) :
    Option.merge max (Option.merge max a b) c = Option.merge max (Option.merge max a c) b := by
  cases a with
  | none => cases b <;> cases c <;> simp [max_comm]
  | some a => cases b <;> cases c <;> simp [max_right_comm]

theorem foldl_applyRange_perm (hl : Canonical l) {rs rs' : List (RangeTombstone P)}
    (h : rs.Perm rs') : rs.foldl applyRange l = rs'.foldl applyRange l := by
  refine (canonical_foldl_applyRange hl rs).ext (canonical_foldl_applyRange hl rs') fun p => ?_
  rw [cover_foldl_applyRange hl, cover_foldl_applyRange hl]
  refine h.foldl_eq' (fun x _ y _ t => ?_) _
  exact merge_max_right_comm t _ _

/-- Inserting a range keeps a list sorted, and canonical if it was; it raises the tombstones of the
positions in the range and no others; and into a canonical list the order of insertion does not
matter. -/
theorem applyRange_semantics (hl : Sorted l) (r : RangeTombstone P) :
    Sorted (applyRange l r) ∧ (Canonical l → Canonical (applyRange l r)) ∧
      (∀ p, searchTombstoneCovering (applyRange l r) p =
        if r.position ≤ p ∧ p < r.endPosition then max (searchTombstoneCovering l p) r.tomb
        else searchTombstoneCovering l p) ∧
      (Canonical l → ∀ rs rs' : List (RangeTombstone P), rs.Perm rs' →
        rs.foldl applyRange l = rs'.foldl applyRange l) :=
  ⟨sorted_applyRange hl r, fun hc => canonical_applyRange hc r,
    searchTombstoneCovering_applyRange hl r, fun hc _ _ hperm => foldl_applyRange_perm hc hperm⟩

def tombstoneAt (timestamp : I64) (h : timestamp ≠ missingTimestamp) : Tombstone :=
  .written timestamp 0 h

/-- Two ranges of one tombstone that touch and are not joined. -/
def unjoined : List (RangeTombstone ℕ) :=
  [⟨0, 10, tombstoneAt 1 (by decide)⟩, ⟨10, 20, tombstoneAt 1 (by decide)⟩]

theorem sorted_unjoined : Sorted unjoined :=
  ⟨by decide, by decide⟩

theorem applyRange_semantics_unjoined :
    Sorted unjoined ∧ Sorted (applyRange unjoined ⟨5, 7, tombstoneAt 2 (by decide)⟩) ∧
      searchTombstoneCovering (applyRange unjoined ⟨5, 7, tombstoneAt 2 (by decide)⟩) 6 =
        max (searchTombstoneCovering unjoined 6) (tombstoneAt 2 (by decide)) := by
  obtain ⟨hsorted, -, hsearch, -⟩ :=
    applyRange_semantics sorted_unjoined ⟨5, 7, tombstoneAt 2 (by decide)⟩
  exact ⟨sorted_unjoined, hsorted, (hsearch 6).trans (if_pos (by decide))⟩

/-- An equal tombstone joins the two ranges through the first, unless a newer one was inserted in
between before. -/
theorem applyRange_order_matters_unjoined :
    Sorted unjoined ∧ ∃ rs rs' : List (RangeTombstone ℕ), rs.Perm rs' ∧
      rs.foldl applyRange unjoined ≠ rs'.foldl applyRange unjoined := by
  refine ⟨sorted_unjoined, [⟨0, 5, tombstoneAt 1 (by decide)⟩, ⟨5, 7, tombstoneAt 2 (by decide)⟩],
    [⟨5, 7, tombstoneAt 2 (by decide)⟩, ⟨0, 5, tombstoneAt 1 (by decide)⟩],
    List.Perm.swap _ _ _, ?_⟩
  decide

end RangeTombstone

end Scylla.Mutation
