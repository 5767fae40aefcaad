import Scylla.Mutation.Collection
import Scylla.Mutation.Counter
import Scylla.Mutation.RangeTombstoneList

/-!
# Rows and partitions

A partition has a tombstone, a static row, clustered rows in position order and range tombstones.
`apply` merges two partitions without compaction, in one pass over the rows; dummy entries only mark
the ends of continuous ranges and do not count for equality. Positions are taken modulo the
comparator of the schema.
-/

namespace Scylla.Mutation

open Option

inductive ColumnKind where
  | atomic
  | counter
  | collection (kt : KeyType)

structure Schema where
  /-- Static columns in column id order. -/
  staticColumns : List ColumnKind
  regularColumns : List ColumnKind
  /-- Whether the table is a view whose primary key has regular columns of the base table. -/
  hasBaseNonPkColumnsInViewPk : Bool := false

/-- `atomic_cell_or_collection`, read with the definition of its column. -/
def CellOf : ColumnKind → Type
  | .atomic => AtomicCell
  | .counter => CounterCell
  | .collection kt => CollectionMutation kt

namespace CellOf

def apply : {k : ColumnKind} → CellOf k → CellOf k → CellOf k
  | .atomic => AtomicCell.apply
  | .counter => CounterCell.apply
  | .collection _ => CollectionMutation.merge

instance : {k : ColumnKind} → DecidableEq (CellOf k)
  | .atomic => inferInstanceAs (DecidableEq AtomicCell)
  | .counter => inferInstanceAs (DecidableEq CounterCell)
  | .collection kt => inferInstanceAs (DecidableEq (CollectionMutation kt))

def EqualByKey : (k : ColumnKind) → CellOf k → CellOf k → Prop
  | .atomic => Eq
  | .counter => Eq
  | .collection _ => CollectionMutation.EqualByKey

def Valid (history : ℕ → I64 → I64) : (k : ColumnKind) → CellOf k → Prop
  | .atomic => fun _ => True
  | .counter => CounterCell.IsFrom history
  | .collection _ => CollectionMutation.Uncovered

theorem mergeLaws (history : ℕ → I64 → I64) :
    (k : ColumnKind) → MergeLaws (Valid history k) (EqualByKey k) apply
  | .atomic => AtomicCell.mergeLaws
  | .counter => CounterCell.mergeLaws history
  | .collection kt => CollectionMutation.mergeLaws kt

end CellOf

/-- A row: for each column a value, if it has one. -/
def Row (columns : List ColumnKind) : Type :=
  (i : Fin columns.length) → Option (CellOf (columns.get i))

namespace Row

variable {columns : List ColumnKind}

def empty : Row columns := fun _ => none

/-- No cell is present. -/
def isEmpty (r : Row columns) : Bool := decide (∀ i, (r i).isNone)

/-- A row with one cell. -/
def single (i : Fin columns.length) (c : CellOf (columns.get i)) : Row columns :=
  Function.update empty i (some c)

theorem single_self (i : Fin columns.length) (c : CellOf (columns.get i)) :
    single i c i = some c := Function.update_self ..

theorem single_of_ne {i j : Fin columns.length} (h : j ≠ i) (c : CellOf (columns.get i)) :
    single i c j = none := Function.update_of_ne h ..

instance : DecidableEq (Row columns) :=
  inferInstanceAs (DecidableEq ((i : Fin columns.length) → Option (CellOf (columns.get i))))

def apply (a b : Row columns) : Row columns := fun i => Option.merge CellOf.apply (a i) (b i)

def EqualBy (rel : (k : ColumnKind) → CellOf k → CellOf k → Prop) (a b : Row columns) : Prop :=
  ∀ i, Option.Rel (rel _) (a i) (b i)

/-- All cells are valid, each with its own history. -/
def Valid (history : ℕ → ℕ → I64 → I64) (a : Row columns) : Prop :=
  ∀ i, ∀ c ∈ a i, CellOf.Valid (history i) _ c

theorem mergeLaws (columns : List ColumnKind) (history : ℕ → ℕ → I64 → I64) :
    MergeLaws (α := Row columns) (Valid history) (EqualBy CellOf.EqualByKey) apply :=
  MergeLaws.pi fun i : Fin columns.length => (CellOf.mergeLaws (history i) (columns.get i)).option

@[simp] theorem empty_apply (a : Row columns) : empty.apply a = a :=
  funext fun _ => merge_none_left

@[simp] theorem apply_empty (a : Row columns) : a.apply empty = a :=
  funext fun _ => merge_none_right

end Row

/-- The deletion of a row: a regular tombstone and a shadowable one. -/
structure RowTombstone where
  regular : Tombstone
  /-- Deletes the row as long as no newer live marker is written. -/
  shadowable : Tombstone
  regular_le : regular ≤ shadowable
  deriving DecidableEq

namespace RowTombstone

def none : RowTombstone := ⟨Tombstone.none, Tombstone.none, le_rfl⟩

def ofRegular (t : Tombstone) : RowTombstone := ⟨t, t, le_rfl⟩

def tomb (t : RowTombstone) : Tombstone := t.shadowable

def isShadowable (t : RowTombstone) : Bool := t.regular < t.shadowable

/-- `row_tombstone::maybe_shadow`: a newer live marker removes the shadowable part. -/
def maybeShadow (t : RowTombstone) (marker : RowMarker) : RowTombstone :=
  if marker.isLive ∧ t.shadowable.timestamp < marker.timestamp then ofRegular t.regular else t

def apply (a b : RowTombstone) (marker : RowMarker) : RowTombstone :=
  maybeShadow
    { regular := a.regular.apply b.regular
      shadowable := a.shadowable.apply b.shadowable
      regular_le := by
        rw [Tombstone.apply_eq_max, Tombstone.apply_eq_max]
        exact max_le_max a.regular_le b.regular_le } marker

def IsRegular (t : RowTombstone) : Prop := t.regular = t.shadowable

theorem isRegular_none : none.IsRegular := rfl

section

variable {a b : RowTombstone} (ha : a.IsRegular) (hb : b.IsRegular) (marker : RowMarker)

include ha hb

theorem shadowable_apply : (a.apply b marker).shadowable = a.shadowable.apply b.shadowable := by
  unfold apply maybeShadow
  split
  · simp only [ofRegular]
    rw [ha, hb]
  · rfl

theorem isRegular_apply : (a.apply b marker).IsRegular := by
  unfold apply maybeShadow
  split
  · rfl
  · simp only [IsRegular]
    rw [ha, hb]

end

end RowTombstone

structure DeletableRow (columns : List ColumnKind) where
  deletedAt : RowTombstone
  marker : RowMarker
  cells : Row columns
  deriving DecidableEq

namespace DeletableRow

variable {columns : List ColumnKind}

def empty : DeletableRow columns := ⟨RowTombstone.none, {}, Row.empty⟩

/-- `deletable_row::apply_monotonically`. -/
def apply (a b : DeletableRow columns) : DeletableRow columns :=
  let marker := a.marker.apply b.marker
  { cells := a.cells.apply b.cells
    marker
    deletedAt := a.deletedAt.apply b.deletedAt marker }

def EqualBy (rel : (k : ColumnKind) → CellOf k → CellOf k → Prop) (a b : DeletableRow columns) :
    Prop :=
  a.deletedAt.shadowable = b.deletedAt.shadowable ∧ a.marker.equal b.marker ∧
    a.cells.EqualBy rel b.cells

/-- The row has no shadowable tombstone and its cells are valid. -/
structure Valid (history : ℕ → ℕ → I64 → I64) (a : DeletableRow columns) : Prop where
  regular : a.deletedAt.IsRegular
  cells : a.cells.Valid history

theorem mergeLaws (columns : List ColumnKind) (history : ℕ → ℕ → I64 → I64) :
    MergeLaws (α := DeletableRow columns) (Valid history) (EqualBy CellOf.EqualByKey) apply := by
  have hcells := Row.mergeLaws columns history
  have h := Tombstone.mergeLaws.prod (RowMarker.mergeLaws.prod hcells)
  refine h.comap (fun a : DeletableRow columns => (a.deletedAt.shadowable, a.marker, a.cells)) ?_ ?_ ?_
  · intro a b ha hb
    exact ⟨RowTombstone.isRegular_apply ha.regular hb.regular _, hcells.closed ha.cells hb.cells⟩
  · intro a ha
    exact ⟨trivial, trivial, ha.cells⟩
  · intro a b ha hb
    exact ⟨RowTombstone.shadowable_apply ha.regular hb.regular _, h.refl _ |>.2⟩

variable {rel : (k : ColumnKind) → CellOf k → CellOf k → Prop} {a : DeletableRow columns}

theorem equalBy_empty_apply (hrel : ∀ k c, rel k c c)
    (ha : a.deletedAt.IsRegular) : (empty.apply a).EqualBy rel a := by
  refine ⟨?_, ?_, ?_⟩
  · exact (RowTombstone.shadowable_apply RowTombstone.isRegular_none ha _).trans
      (Tombstone.none_apply _)
  · rw [RowMarker.equal_iff_toCell]
    exact (RowMarker.toCell_apply _ _).trans merge_none_left
  · intro i
    change Option.Rel (rel _) (Row.empty.apply a.cells i) (a.cells i)
    rw [Row.empty_apply]
    exact optionRel_refl (hrel _) _

theorem equalBy_apply_empty (hrel : ∀ k c, rel k c c)
    (ha : a.deletedAt.IsRegular) : (a.apply empty).EqualBy rel a := by
  refine ⟨?_, ?_, ?_⟩
  · exact (RowTombstone.shadowable_apply ha RowTombstone.isRegular_none _).trans
      (Tombstone.apply_none _)
  · rw [RowMarker.equal_iff_toCell]
    exact (RowMarker.toCell_apply _ _).trans merge_none_right
  · intro i
    change Option.Rel (rel _) (a.cells.apply Row.empty i) (a.cells i)
    rw [Row.apply_empty]
    exact optionRel_refl (hrel _) _

@[simp] theorem empty_apply_empty : (empty : DeletableRow columns).apply empty = empty := rfl

end DeletableRow

/-- `rows_entry`: a row, or a dummy that marks the end of a continuous range. -/
structure RowsEntry (columns : List ColumnKind) (P : Type*) where
  position : P
  row : DeletableRow columns
  dummy : Bool
  /-- Whether the range up to this entry, from the one before it, is complete. -/
  continuous : Bool
  dummy_empty : dummy = true → row = DeletableRow.empty

namespace RowsEntry

variable {columns : List ColumnKind} {P : Type*}

def content (e : RowsEntry columns P) : Option (DeletableRow columns) :=
  if e.dummy then none else some e.row

def insertBefore (next : Option (RowsEntry columns P)) (src : RowsEntry columns P) :
    Option (RowsEntry columns P) :=
  match next with
  | none => some src
  | some i =>
    if i.continuous then
      if src.dummy then none else some { src with continuous := true }
    else some src

/-- Merge an entry into the one at the same position. -/
def merge (i src : RowsEntry columns P) : RowsEntry columns P where
  position := i.position
  row := i.row.apply src.row
  dummy := i.dummy && src.dummy
  continuous := i.continuous || src.continuous
  dummy_empty h := by
    rw [Bool.and_eq_true] at h
    rw [i.dummy_empty h.1, src.dummy_empty h.2, DeletableRow.empty_apply_empty]

theorem merge_position (i src : RowsEntry columns P) : (i.merge src).position = i.position := rfl

theorem position_of_insertBefore (next : Option (RowsEntry columns P))
    (src e : RowsEntry columns P) (h : e ∈ insertBefore next src) : e.position = src.position := by
  unfold insertBefore at h
  split at h
  · cases h
    rfl
  · split_ifs at h <;> cases h <;> rfl

theorem row_of_insertBefore {next : Option (RowsEntry columns P)}
    {src e : RowsEntry columns P} (h : e ∈ insertBefore next src) : e.row = src.row := by
  unfold insertBefore at h
  split at h
  · cases h
    rfl
  · split_ifs at h <;> cases h <;> rfl

theorem content_insertBefore (next : Option (RowsEntry columns P)) (src : RowsEntry columns P) :
    (insertBefore next src).bind content = src.content := by
  unfold insertBefore
  split
  · rfl
  · split_ifs with hc hd
    · simp [content, hd]
    · rfl
    · rfl

theorem content_merge {rel : (k : ColumnKind) → CellOf k → CellOf k → Prop}
    (hrel : ∀ k c, rel k c c) {i src : RowsEntry columns P}
    (hi : i.row.deletedAt.IsRegular) (hsrc : src.row.deletedAt.IsRegular) :
    Option.Rel (DeletableRow.EqualBy rel) (i.merge src).content
      (Option.merge DeletableRow.apply i.content src.content) := by
  have hself : ∀ a : DeletableRow columns, a.EqualBy rel a := fun a =>
    ⟨rfl, RowMarker.mergeLaws.refl _, fun j => optionRel_refl (hrel _) _⟩
  have hmerge : (i.merge src).content =
      if i.dummy && src.dummy then none else some (i.row.apply src.row) := rfl
  rw [hmerge, content, content]
  cases hdi : i.dummy <;> cases hds : src.dummy
  · exact .some (hself _)
  · refine .some ?_
    rw [src.dummy_empty hds]
    exact DeletableRow.equalBy_apply_empty hrel hi
  · refine .some ?_
    rw [i.dummy_empty hdi]
    exact DeletableRow.equalBy_empty_apply hrel hsrc
  · exact .none

end RowsEntry

structure MutationPartition (s : Schema) (P : Type*) [LinearOrder P] where
  tombstone : Tombstone
  staticRow : Row s.staticColumns
  staticRowContinuous : Bool
  rows : List (RowsEntry s.regularColumns P)
  rows_sorted : SortedBy compare RowsEntry.position rows
  rowTombstones : RangeTombstoneList P

namespace MutationPartition

variable {s : Schema} {P : Type*} [LinearOrder P]

def apply (a p : MutationPartition s P) : MutationPartition s P where
  tombstone := a.tombstone.apply p.tombstone
  staticRow := a.staticRow.apply p.staticRow
  staticRowContinuous := a.staticRowContinuous || p.staticRowContinuous
  rowTombstones := a.rowTombstones.apply p.rowTombstones
  rows := mergeInto compare RowsEntry.position RowsEntry.insertBefore RowsEntry.merge a.rows p.rows
  rows_sorted := sortedBy_mergeInto RowsEntry.position_of_insertBefore
    (fun i src _ => RowsEntry.merge_position i src) a.rows_sorted p.rows_sorted

def nonDummyRows (p : MutationPartition s P) : List (RowsEntry s.regularColumns P) :=
  p.rows.filter fun e => !e.dummy

/-- `mutation_partition::equal` for a given equality of cells. -/
structure EqualBy (rel : (k : ColumnKind) → CellOf k → CellOf k → Prop)
    (a b : MutationPartition s P) : Prop where
  tombstone : a.tombstone = b.tombstone
  rows : List.Forall₂ (fun e e' => compare e.position e'.position = .eq ∧ e.row.EqualBy rel e'.row)
    a.nonDummyRows b.nonDummyRows
  rowTombstones : a.rowTombstones = b.rowTombstones
  staticRow : a.staticRow.EqualBy rel b.staticRow

/-- `mutation_partition::equal`: cells are equal when all their bytes are. -/
def Equal (a b : MutationPartition s P) : Prop := a.EqualBy (fun _ => Eq) b

/-- Equality of partitions with collection keys compared by their type. -/
def EqualByKey (a b : MutationPartition s P) : Prop := a.EqualBy CellOf.EqualByKey b

structure Valid (history : Option P → ℕ → ℕ → I64 → I64) (p : MutationPartition s P) : Prop where
  staticRow : p.staticRow.Valid (history none)
  rows : ∀ e ∈ p.rows, e.row.Valid (history (some e.position))

def rowAt (p : MutationPartition s P) (x : P) : Option (DeletableRow s.regularColumns) :=
  lookupBy compare RowsEntry.position RowsEntry.content x p.rows

variable {rel : (k : ColumnKind) → CellOf k → CellOf k → Prop} {a b : MutationPartition s P}
  {history : Option P → ℕ → ℕ → I64 → I64}

theorem rowAt_apply (hrel : ∀ k c, rel k c c) (ha : ∀ e ∈ a.rows, e.row.deletedAt.IsRegular)
    (hb : ∀ e ∈ b.rows, e.row.deletedAt.IsRegular) (x : P) :
    Option.Rel (DeletableRow.EqualBy rel) ((a.apply b).rowAt x)
      (Option.merge DeletableRow.apply (a.rowAt x) (b.rowAt x)) := by
  refine lookupBy_mergeInto RowsEntry.position_of_insertBefore RowsEntry.content_insertBefore
    (fun i src _ => RowsEntry.merge_position i src) ?_ x a.rows_sorted b.rows_sorted ?_
  · exact fun r => ⟨rfl, RowMarker.mergeLaws.refl _, fun _ => optionRel_refl (hrel _) _⟩
  · exact fun i hi src hsrc _ => RowsEntry.content_merge hrel (ha i hi) (hb src hsrc)

theorem rowAt_eq (p : MutationPartition s P) (x : P) :
    p.rowAt x = (lookupBy compare RowsEntry.position some x p.nonDummyRows).map RowsEntry.row := by
  rw [nonDummyRows, lookupBy_filter p.rows_sorted, map_eq_bind, ← lookupBy_bind, rowAt]
  congr 1
  funext e
  cases hd : e.dummy <;> simp [RowsEntry.content, hd]

theorem nonDummyRows_sorted (p : MutationPartition s P) :
    SortedBy compare RowsEntry.position p.nonDummyRows :=
  p.rows_sorted.filter _

theorem forall₂_nonDummyRows_iff :
    List.Forall₂ (fun e e' => compare e.position e'.position = .eq ∧ e.row.EqualBy rel e'.row)
      a.nonDummyRows b.nonDummyRows ↔
    ∀ x, Option.Rel (DeletableRow.EqualBy rel) (a.rowAt x) (b.rowAt x) := by
  rw [forall₂_iff_lookupBy (r := fun e e' => e.row.EqualBy rel e'.row) a.nonDummyRows_sorted
    b.nonDummyRows_sorted]
  refine forall_congr' fun x => ?_
  rw [rowAt_eq, rowAt_eq]
  cases lookupBy compare RowsEntry.position some x a.nonDummyRows <;>
    cases lookupBy compare RowsEntry.position some x b.nonDummyRows <;> simp

theorem equalBy_iff : a.EqualBy rel b ↔
      (a.tombstone = b.tombstone ∧
        ∀ x, Option.Rel (DeletableRow.EqualBy rel) (a.rowAt x) (b.rowAt x)) ∧
      a.rowTombstones = b.rowTombstones ∧ a.staticRow.EqualBy rel b.staticRow :=
  ⟨fun h => ⟨⟨h.tombstone, forall₂_nonDummyRows_iff.mp h.rows⟩, h.rowTombstones, h.staticRow⟩,
    fun h => ⟨h.1.1, forall₂_nonDummyRows_iff.mpr h.1.2, h.2.1, h.2.2⟩⟩

theorem Valid.rowAt {p : MutationPartition s P} (h : p.Valid history) {x : P}
    {r : DeletableRow s.regularColumns} (hr : r ∈ p.rowAt x) : r.Valid (history (some x)) := by
  obtain ⟨e, he, hx, hcontent⟩ := exists_of_lookupBy_eq_some hr
  cases compare_eq_iff_eq.mp hx
  unfold RowsEntry.content at hcontent
  split at hcontent
  · cases hcontent
  · cases hcontent
    exact h.rows e he

theorem Valid.apply (ha : a.Valid history) (hb : b.Valid history) : (a.apply b).Valid history := by
  refine ⟨(Row.mergeLaws _ _).closed ha.staticRow hb.staticRow, ?_⟩
  refine forall_mem_mergeInto
    (q := fun e : RowsEntry s.regularColumns P => e.row.Valid (history (some e.position)))
    (fun next src e h hsrc => ?_) (fun i src hpos hi hsrc => ?_) ha.rows hb.rows
  · rwa [RowsEntry.row_of_insertBefore h, RowsEntry.position_of_insertBefore next src e h]
  · rw [← compare_eq_iff_eq.mp hpos] at hsrc
    exact (DeletableRow.mergeLaws _ _).closed hi hsrc

theorem mergeLaws (s : Schema) (P : Type*) [LinearOrder P]
    (history : Option P → ℕ → ℕ → I64 → I64) :
    MergeLaws (α := MutationPartition s P) (Valid history) EqualByKey apply := by
  have hrow (x : P) := DeletableRow.mergeLaws s.regularColumns (history (some x))
  have hstatic := Row.mergeLaws s.staticColumns (history none)
  have hall := (Tombstone.mergeLaws.prod (MergeLaws.pi fun x : P => (hrow x).option)).prod
    ((RangeTombstoneList.mergeLaws P).prod hstatic)
  have hrefl : ∀ k c, CellOf.EqualByKey k c c := fun k => (CellOf.mergeLaws (fun _ _ => 0) k).refl
  have h : MergeLaws (α := MutationPartition s P) (Valid history) (fun a b =>
      (a.tombstone = b.tombstone ∧
        ∀ x, Option.Rel (DeletableRow.EqualBy CellOf.EqualByKey) (a.rowAt x) (b.rowAt x)) ∧
      a.rowTombstones = b.rowTombstones ∧ a.staticRow.EqualBy CellOf.EqualByKey b.staticRow)
      apply := by
    refine hall.comap (fun p : MutationPartition s P =>
      ((p.tombstone, p.rowAt), p.rowTombstones, p.staticRow)) Valid.apply ?_ ?_
    · intro p hp
      exact ⟨⟨trivial, fun _ _ hr => hp.rowAt hr⟩, trivial, hp.staticRow⟩
    · intro a b ha hb
      exact ⟨⟨rfl, rowAt_apply hrefl (fun e he => (ha.rows e he).regular)
        fun e he => (hb.rows e he).regular⟩, rfl, hstatic.refl _⟩
  simp only [← equalBy_iff] at h
  exact h

end MutationPartition

end Scylla.Mutation
