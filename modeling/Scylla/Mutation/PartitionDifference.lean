import Scylla.Mutation.Difference
import Scylla.Mutation.RangeTombstoneDifference

/-!
# Differences of partitions

A read repair sends to a replica that has `b` the difference `a.difference b` of the reconciled
partition `a`. Applying it should leave the replica in the state in which applying all of `a`
leaves it, with both parts of every row tombstone. That is so exactly when it is for every two rows
at one position and for the static row.
-/

namespace Scylla.Mutation

open RowsEntry
open Option

namespace RowsEntry

variable {columns : List ColumnKind} {P : Type*}

/-- The entry that `insert_row` makes. -/
def ofRow (position : P) (row : DeletableRow columns) : RowsEntry columns P where
  position
  row
  dummy := false
  continuous := true
  dummy_empty h := by cases h

def difference (r : RowsEntry columns P) :
    Option (RowsEntry columns P) → Option (RowsEntry columns P)
  | none => some (ofRow r.position r.row)
  | some it =>
    let dr := r.row.difference it.row
    if dr.isEmpty then none else some (ofRow r.position dr)

theorem position_of_difference (r : RowsEntry columns P) (it : Option (RowsEntry columns P)) :
    ∀ z ∈ r.difference it, z.position = r.position := by
  intro z hz
  cases it with
  | none =>
    cases hz
    rfl
  | some it =>
    rw [difference] at hz
    split at hz <;> cases hz
    rfl

variable {it r : RowsEntry columns P}

theorem rel_content_of_not_dummy (hit : it.dummy = false) :
    Option.Rel DeletableRow.SameState
      ((Option.merge merge (some it) (r.difference (some it))).bind content)
      (it.merge r).content ↔ r.row.Recoverable it.row := by
  have hright : (it.merge r).content = some (it.row.apply r.row) := by
    simp [content, merge, hit]
  have hleft : (Option.merge merge (some it) (r.difference (some it))).bind
      content = some (if (r.row.difference it.row).isEmpty then it.row
        else it.row.apply (r.row.difference it.row)) := by
    rw [difference]
    split <;> simp [content, merge, ofRow, hit]
  rw [hleft, hright, rel_some_some, DeletableRow.sameState_difference_iff]

theorem rel_content_of_dummy (hr : r.dummy = true) (hit : it.dummy = false) :
    Option.Rel DeletableRow.SameState it.content (it.merge r).content ↔
      r.row.Recoverable it.row := by
  have hright : (it.merge r).content = some (it.row.apply r.row) := by
    simp [content, merge, hit]
  have hleft : it.content = some it.row := by simp [content, hit]
  have hempty : (r.row.difference it.row).isEmpty = true := by
    rw [r.dummy_empty hr]
    exact DeletableRow.isEmpty_empty_difference it.row
  rw [hleft, hright, rel_some_some, ← DeletableRow.sameState_difference_iff, if_pos hempty]

theorem rel_content_difference_iff (e e' : Option (RowsEntry columns P)) :
    Option.Rel DeletableRow.SameState
      ((Option.merge merge e' ((e.filter fun e => !e.dummy).bind fun r =>
        r.difference (e'.filter fun e => !e.dummy))).bind content)
      ((Option.merge merge e' e).bind content) ↔
    ∀ r ∈ e, ∀ it ∈ e', it.dummy = false → r.row.Recoverable it.row := by
  have hrefl : ∀ {o o' : Option (DeletableRow columns)}, o = o' →
      Option.Rel DeletableRow.SameState o o' := by
    rintro o _ rfl
    exact optionRel_refl (fun r => ⟨rfl, RowMarker.mergeLaws.refl _, rfl⟩) o
  have hfilter : ∀ e : RowsEntry columns P,
      (some e).filter (fun e => !e.dummy) = if e.dummy then none else some e := by
    intro e
    cases hd : e.dummy <;> simp [Option.filter, hd]
  cases e with
  | none => exact iff_of_true (hrefl rfl) (by simp)
  | some r =>
    cases e' with
    | none =>
      refine iff_of_true (hrefl ?_) (by simp)
      cases hr : r.dummy <;>
        simp [hfilter, content, difference, ofRow, hr]
    | some it =>
      cases hit : it.dummy with
      | true =>
        refine iff_of_true (hrefl ?_) ?_
        · cases hr : r.dummy <;>
            simp [hfilter, content, merge, difference, ofRow, hr, hit]
        · intro r _ it' hit' hnot
          cases hit'
          rw [hit] at hnot
          cases hnot
      | false =>
        cases hr : r.dummy with
        | true => simpa [hfilter, hr, hit] using rel_content_of_dummy hr hit
        | false => simpa [hfilter, hr, hit] using rel_content_of_not_dummy hit

end RowsEntry

namespace MutationPartition

variable {s : Schema} {P : Type*} [LinearOrder P]

/-- `mutation_partition::difference`. Dummy entries are skipped in both partitions. -/
def difference (a b : MutationPartition s P) : MutationPartition s P where
  tombstone := if b.tombstone < a.tombstone then Tombstone.none.apply a.tombstone
    else Tombstone.none
  staticRow := a.staticRow.difference b.staticRow
  staticRowContinuous := true
  rows := differenceBy compare RowsEntry.position RowsEntry.difference a.nonDummyRows b.nonDummyRows
  rows_sorted := sortedBy_differenceBy position_of_difference a.nonDummyRows_sorted
  rowTombstones := a.rowTombstones.difference b.rowTombstones

variable (a b : MutationPartition s P)

/-- What `equal` compares, and both parts of every row tombstone. -/
structure SameState : Prop where
  equal : a.Equal b
  deletedAt : ∀ x, (a.rowAt x).map DeletableRow.deletedAt = (b.rowAt x).map DeletableRow.deletedAt

/-- The difference of two partitions has the effect of the whole partition. -/
structure Recoverable : Prop where
  staticRow : a.staticRow.Recoverable b.staticRow
  rows : ∀ e ∈ a.rows, ∀ e' ∈ b.rows, e.position = e'.position → e'.dummy = false →
    e.row.Recoverable e'.row

def entryAt (p : MutationPartition s P) (x : P) : Option (RowsEntry s.regularColumns P) :=
  lookupBy compare RowsEntry.position some x p.rows

variable {e : RowsEntry s.regularColumns P} {p : MutationPartition s P}

theorem entryAt_of_mem (h : e ∈ p.rows) : p.entryAt e.position = some e :=
  lookupBy_of_mem p.rows_sorted h

theorem mem_of_entryAt {x : P} (h : p.entryAt x = some e) : e ∈ p.rows ∧ x = e.position := by
  obtain ⟨e', he, hx, hee⟩ := exists_of_lookupBy_eq_some h
  cases hee
  exact ⟨he, compare_eq_iff_eq.mp hx⟩

theorem rowAt_apply_bind (x : P) :
    (a.apply b).rowAt x =
      (Option.merge RowsEntry.merge (a.entryAt x) (b.entryAt x)).bind RowsEntry.content :=
  lookupBy_mergeInto_bind position_of_insertBefore content_insertBefore
    (fun i src _ => merge_position i src) x a.rows_sorted b.rows_sorted

theorem entryAt_difference (x : P) :
    (a.difference b).entryAt x = ((a.entryAt x).filter fun e => !e.dummy).bind fun r =>
      r.difference ((b.entryAt x).filter fun e => !e.dummy) := by
  have hfilter : ∀ p : MutationPartition s P,
      lookupBy compare RowsEntry.position some x p.nonDummyRows =
        (p.entryAt x).filter fun e => !e.dummy := by
    intro p
    rw [nonDummyRows, lookupBy_filter p.rows_sorted, lookupBy_eq_bind, entryAt]
    cases lookupBy compare RowsEntry.position some x p.rows <;> simp [Option.filter]
  rw [← hfilter, ← hfilter]
  exact lookupBy_differenceBy position_of_difference x a.nonDummyRows_sorted
    b.nonDummyRows_sorted

theorem sameState_iff {a b : MutationPartition s P} : a.SameState b ↔
    (a.tombstone = b.tombstone ∧ ∀ x, Option.Rel DeletableRow.SameState (a.rowAt x) (b.rowAt x)) ∧
    a.rowTombstones = b.rowTombstones ∧ a.staticRow = b.staticRow := by
  have hcells : ∀ {columns : List ColumnKind} {r r' : Row columns},
      r.EqualBy (fun _ => Eq) r' ↔ r = r' := by
    simp only [Row.EqualBy, optionRel_eq]
    exact ⟨fun h => funext h, fun h i => congrFun h i⟩
  have hrow : ∀ x, Option.Rel DeletableRow.SameState (a.rowAt x) (b.rowAt x) ↔
      Option.Rel (DeletableRow.EqualBy fun _ => Eq) (a.rowAt x) (b.rowAt x) ∧
        (a.rowAt x).map DeletableRow.deletedAt = (b.rowAt x).map DeletableRow.deletedAt := by
    intro x
    cases a.rowAt x with
    | none => cases b.rowAt x <;> simp
    | some r =>
      cases b.rowAt x with
      | none => simp
      | some r' =>
        simp only [rel_some_some, map_some, Option.some.injEq, DeletableRow.EqualBy, hcells]
        refine ⟨fun h => ⟨⟨?_, h.marker, h.cells⟩, h.deletedAt⟩, fun h => ⟨h.2, h.1.2.1, h.1.2.2⟩⟩
        rw [h.deletedAt]
  constructor
  · intro h
    obtain ⟨⟨htomb, hrows⟩, hranges, hstatic⟩ := equalBy_iff.mp h.equal
    exact ⟨⟨htomb, fun x => (hrow x).mpr ⟨hrows x, h.deletedAt x⟩⟩, hranges, hcells.mp hstatic⟩
  · rintro ⟨⟨htomb, hrows⟩, hranges, hstatic⟩
    exact ⟨equalBy_iff.mpr ⟨⟨htomb, fun x => ((hrow x).mp (hrows x)).1⟩, hranges,
      hcells.mpr hstatic⟩, fun x => ((hrow x).mp (hrows x)).2⟩

/-- Applying the difference has the effect of applying the partition exactly under this
condition. -/
theorem difference_complete_iff (a b : MutationPartition s P) :
    (b.apply (a.difference b)).SameState (b.apply a) ↔ a.Recoverable b := by
  have htomb : (b.apply (a.difference b)).tombstone = (b.apply a).tombstone := by
    change b.tombstone.apply (if b.tombstone < a.tombstone then Tombstone.none.apply a.tombstone
      else Tombstone.none) = b.tombstone.apply a.tombstone
    split
    · rw [Tombstone.none_apply]
    · next h => rw [Tombstone.apply_none, Tombstone.apply_eq_max, max_eq_left (not_lt.mp h)]
  have hranges : (b.apply (a.difference b)).rowTombstones = (b.apply a).rowTombstones :=
    RangeTombstoneList.apply_difference a.rowTombstones b.rowTombstones
  have hrows : (∀ x, Option.Rel DeletableRow.SameState ((b.apply (a.difference b)).rowAt x)
      ((b.apply a).rowAt x)) ↔ ∀ x, ∀ e ∈ a.entryAt x, ∀ e' ∈ b.entryAt x, e'.dummy = false →
        e.row.Recoverable e'.row := by
    simp only [rowAt_apply_bind, entryAt_difference, rel_content_difference_iff]
  rw [sameState_iff, and_iff_right htomb, and_iff_right hranges, hrows]
  constructor
  · rintro ⟨h, hstatic⟩
    refine ⟨Row.apply_difference_iff.mp hstatic, fun e he e' he' hpos => ?_⟩
    exact h e.position e (entryAt_of_mem he) e' (hpos ▸ entryAt_of_mem he')
  · intro h
    refine ⟨fun x e he e' he' => ?_, Row.apply_difference_iff.mpr h.staticRow⟩
    obtain ⟨hmem, rfl⟩ := mem_of_entryAt he
    obtain ⟨hmem', hpos⟩ := mem_of_entryAt he'
    exact h.rows e hmem e' hmem' hpos

/-- A view row deleted by a regular tombstone of some age and by a newer shadowable one. -/
def deletedRow (regular : I64) (h : regular ≠ missingTimestamp ∧ regular ≤ 10) :
    MutationPartition ⟨[], [], true⟩ ℕ where
  tombstone := Tombstone.none
  staticRow := Row.empty
  staticRowContinuous := true
  rows := [RowsEntry.ofRow 1
    { deletedAt :=
        { regular := .written regular 0 h.1
          shadowable := ⟨10, 0, by decide⟩
          regular_le := by
            rcases h.2.lt_or_eq with hlt | heq
            · exact Tombstone.le_iff.mpr (.inl hlt)
            · exact Tombstone.le_iff.mpr (.inr ⟨heq, le_rfl⟩) }
      marker := {}
      cells := Row.empty }]
  rows_sorted := List.pairwise_singleton _ _
  rowTombstones := .empty

/-- Only the regular tombstones of two rows differ: the difference is empty, and the newer one never
reaches the replica. -/
theorem not_sameState_deletedRow :
    ¬ ((deletedRow 3 (by decide)).apply
        ((deletedRow 5 (by decide)).difference (deletedRow 3 (by decide)))).SameState
      ((deletedRow 3 (by decide)).apply (deletedRow 5 (by decide))) := by
  intro h
  exact absurd (h.deletedAt 1) (by decide)

end MutationPartition

end Scylla.Mutation
