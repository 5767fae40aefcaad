import Scylla.Mutation.Difference
import Scylla.Mutation.EarlyCompaction

/-!
# The updates of one view

`view_updates` turns a base row before and after a write into writes to the rows of one view. A view
row is identified by the base key and, for a view with a regular base column in its key, the value
of that column. A view mutation is the list of the row writes made to it and its partition
tombstone.
-/

namespace Scylla.Mutation

/-! ## Parts of rows -/

def Row.atomicCell {columns : List ColumnKind} (r : Row columns) (i : Fin columns.length) :
    Option AtomicCell :=
  (r i).bind (go (columns.get i))
where
  /-- Only atomic columns have such a cell. -/
  go : (k : ColumnKind) → CellOf k → Option AtomicCell
    | .atomic, c => some c
    | .counter, _ => none
    | .collection _, _ => none

/-- A shadowable tombstone without a regular part. -/
def RowTombstone.ofShadowable (t : Tombstone) : RowTombstone :=
  ⟨Tombstone.none, t, Tombstone.none_le t⟩

end Scylla.Mutation

namespace Scylla.View

open Mutation

inductive ClusteringOrStaticRow (s : Schema) (P : Type*) where
  | staticRow (cells : Row s.staticColumns)
  | clusteringRow (position : P) (row : DeletableRow s.regularColumns)

structure Generator (s : Schema) (PK P W : Type*) where
  /-- Whether the view's partition key is a permutation of the base table's. -/
  isPartitionKeyPermutation : Bool
  /-- `view_updates::generate_update` with the partition tombstone so far: the writes and the
  operations counted. -/
  generateUpdate : Tombstone → PK → ClusteringOrStaticRow s P →
    Option (ClusteringOrStaticRow s P) → List W × ℕ
  /-- Whether a write adds nothing to a partition tombstone. -/
  covered : Tombstone → W → Bool
  /-- A partition tombstone can only make the view leave out writes. -/
  sublist : ∀ t key row existing,
    (generateUpdate t key row existing).1.Sublist (generateUpdate Tombstone.none key row existing).1

/-! ## Materialized views -/

/-- What a regular column of the base table is in the view. -/
inductive ViewColumn where
  | selected
  /-- A virtual column, which keeps the liveness of an unselected one; sets and user types keep
  their values as well. -/
  | viewVirtual (keepsValues : Bool)
  | unselected
  deriving DecidableEq

structure ViewInfo (s : Schema) (PK P : Type*) where
  /-- The regular base column in the view's primary key, if there is one. -/
  keyColumn : Option (Fin s.regularColumns.length)
  column : Fin s.regularColumns.length → ViewColumn
  isPartitionKeyPermutation : Bool
  matchesViewFilter : PK → P → DeletableRow s.regularColumns → I64 → Bool

structure RowWrite (s : Schema) (PK P : Type*) where
  key : PK
  position : P
  value : Option Bytes
  row : DeletableRow s.regularColumns
  deriving DecidableEq

def makeEmpty : AtomicCell → AtomicCell
  | .expiring t _ e l => .expiring t [] e l
  | .live t _ => .live t []
  | .dead t d => .dead t d

def makeEmptyCollection {kt : KeyType} (c : CollectionMutation kt) : CollectionMutation kt where
  tomb := c.tomb
  cells := c.cells.map (Prod.map id makeEmpty)
  sorted := List.pairwise_map.mpr (c.sorted.imp id)

/-- `maybe_make_virtual` for a virtual column. -/
def makeVirtual (keepsValues : Bool) : {k : ColumnKind} → CellOf k → CellOf k
  | .atomic, c => makeEmpty c
  | .counter, c => c
  | .collection _, c => if keepsValues then c else makeEmptyCollection c

/-- The row written by applying a marker, a tombstone and cells in this order. -/
def entryRow {columns : List ColumnKind} (marker : RowMarker) (tomb : RowTombstone)
    (cells : Row columns) : DeletableRow columns :=
  let r : DeletableRow columns := (DeletableRow.empty.applyMarker marker).applyTombstone tomb
  { r with cells }

namespace ViewInfo

variable {s : Schema} {PK P : Type*} (v : ViewInfo s PK P)

def addCellsToView (cells : Row s.regularColumns) : Row s.regularColumns := fun i =>
  if v.keyColumn = some i then none
  else match v.column i with
    | .selected => cells i
    | .viewVirtual keepsValues => (cells i).map (makeVirtual keepsValues)
    | .unselected => none

/-- The cell of the base column in the view's key. -/
def keyCell (r : DeletableRow s.regularColumns) : Option AtomicCell :=
  v.keyColumn.bind r.cells.atomicCell

def computeRowMarker (baseRow : DeletableRow s.regularColumns) : RowMarker :=
  match v.keyCell baseRow with
  | some (.expiring t _ e l) => ⟨t, l, e⟩
  | some c => { timestamp := c.timestamp }
  | none => baseRow.marker

def createEntry (now : I64) (key : PK) (p : P) (update : DeletableRow s.regularColumns) :
    List (RowWrite s PK P) :=
  if v.matchesViewFilter key p update now then
    [{ key
       position := p
       value := (v.keyCell update).map AtomicCell.value
       row := entryRow (v.computeRowMarker update) update.deletedAt
         (v.addCellsToView update.cells) }]
  else []

def deletion (now : I64) (existing update : DeletableRow s.regularColumns) :
    DeletableRow s.regularColumns :=
  match v.keyColumn, v.keyCell existing with
  | none, _ => entryRow update.marker update.deletedAt
      (v.addCellsToView (update.cells.difference existing.cells))
  | some _, some c =>
    let r : DeletableRow s.regularColumns :=
      if c.isLive then
        DeletableRow.empty.applyTombstone (RowTombstone.ofShadowable (Tombstone.of c.timestamp now))
      else DeletableRow.empty
    r.applyTombstone update.deletedAt
  | some _, none => DeletableRow.empty.applyTombstone update.deletedAt

def doDeleteOldEntry (now : I64) (written : Tombstone) (key : PK) (p : P)
    (existing update : DeletableRow s.regularColumns) : List (RowWrite s PK P) :=
  if written.isSet && written = update.deletedAt.tomb then []
  else [{ key
          position := p
          value := (v.keyCell existing).map AtomicCell.value
          row := v.deletion now existing update }]

def deleteOldEntry (now : I64) (written : Tombstone) (key : PK) (p : P)
    (existing update : DeletableRow s.regularColumns) : List (RowWrite s PK P) :=
  if v.matchesViewFilter key p existing now then
    v.doDeleteOldEntry now written key p existing update
  else []

def atomicCellsLivenessEqual (left right : AtomicCell) : Bool :=
  if left.isLive ≠ right.isLive then false
  else if left.isLive then
    if left.isLiveAndHasTtl ≠ right.isLiveAndHasTtl then false
    else !(left.isLiveAndHasTtl && left.expiry ≠ right.expiry)
  else true

/-- The test `view_updates::can_skip_view_updates` makes for one column. -/
def canSkipColumn (baseHasNonexpiringMarker : Bool) (i : Fin s.regularColumns.length)
    (existing update : Row s.regularColumns) : Bool :=
  let selected := v.keyColumn = some i || v.column i ≠ .unselected
  if s.regularColumns.get i matches .collection _ then false
  else match existing.atomicCell i, update.atomicCell i with
    | none, none => true
    | none, some _ | some _, none => !selected && baseHasNonexpiringMarker
    | some e, some u =>
      if selected then
        if v.keyColumn ≠ some i && v.column i matches .viewVirtual _ then
          atomicCellsLivenessEqual e u
        else compareAtomicCellForMerge e u = .eq
      else if baseHasNonexpiringMarker then true
      else if e.isLive ≠ u.isLive then false
      else if e.isLiveAndHasTtl || u.isLiveAndHasTtl then
        e.isLiveAndHasTtl = u.isLiveAndHasTtl && e.expiry = u.expiry
      else true

def canSkipViewUpdates (update existing : DeletableRow s.regularColumns) : Bool :=
  let baseHasNonexpiringMarker := update.marker.isLive && !update.marker.isExpiring
  (List.finRange s.regularColumns.length).all fun i =>
    v.canSkipColumn baseHasNonexpiringMarker i existing.cells update.cells

def updateEntry (now : I64) (written : Tombstone) (key : PK) (p : P)
    (update existing : DeletableRow s.regularColumns) : List (RowWrite s PK P) :=
  if !v.matchesViewFilter key p existing now then v.createEntry now key p update
  else if !v.matchesViewFilter key p update now then
    v.doDeleteOldEntry now written key p existing update
  else if v.canSkipViewUpdates update existing then []
  else
    [{ key
       position := p
       value := (v.keyCell update).map AtomicCell.value
       row := entryRow (v.computeRowMarker update) update.deletedAt
         (v.addCellsToView (update.cells.difference existing.cells)) }]

/-- `view_updates::generate_update` for a view whose key has base key columns only. -/
def generateForBaseKey (now : I64) (written : Tombstone) (key : PK) (p : P)
    (update : DeletableRow s.regularColumns) (existing : Option (DeletableRow s.regularColumns)) :
    List (RowWrite s PK P) :=
  match existing.filter DeletableRow.isLive with
  | some e =>
    if update.isLive then v.updateEntry now written key p update e
    else v.deleteOldEntry now written key p e update
  | none => if update.isLive then v.createEntry now key p update else []

/-- `view_updates::generate_update` for a view with a regular base column in its key. -/
def generateForKeyColumn (now : I64) (written : Tombstone) (key : PK) (p : P)
    (update : DeletableRow s.regularColumns) (existing : Option (DeletableRow s.regularColumns)) :
    List (RowWrite s PK P) :=
  let liveCell (r : DeletableRow s.regularColumns) := (v.keyCell r).filter AtomicCell.isLive
  match existing, existing.bind liveCell, liveCell update with
  | some e, some before, some after =>
    if compareUnsigned before.value after.value = .eq then v.updateEntry now written key p update e
    else v.deleteOldEntry now written key p e update ++ v.createEntry now key p update
  | some e, some _, none => v.deleteOldEntry now written key p e update
  | _, _, some _ => v.createEntry now key p update
  | _, _, _ => []

/-- `view_updates::generate_update`. A static row changes no materialized view. -/
def generateUpdate (now : I64) (written : Tombstone) (key : PK) :
    ClusteringOrStaticRow s P → Option (ClusteringOrStaticRow s P) → List (RowWrite s PK P)
  | .staticRow _, _ => []
  | .clusteringRow p update, existing =>
    let existing := existing.bind fun
      | .clusteringRow _ e => some e
      | .staticRow _ => none
    match v.keyColumn with
    | none => v.generateForBaseKey now written key p update existing
    | some _ => v.generateForKeyColumn now written key p update existing

/-- Whether a row write adds nothing to a tombstone of its partition. -/
def covered (t : Tombstone) (w : RowWrite s PK P) : Bool :=
  w.row.marker.isMissing && w.row.cells = Row.empty && w.row.deletedAt.tomb ≤ t

/-! ## Only deletions are left out -/

section

variable (now : I64) (t : Tombstone) (key : PK) (p : P)
  (existing update : DeletableRow s.regularColumns) (old : Option (DeletableRow s.regularColumns))

theorem doDeleteOldEntry_sublist :
    (v.doDeleteOldEntry now t key p existing update).Sublist
      (v.doDeleteOldEntry now Tombstone.none key p existing update) := by
  have hnone : Tombstone.none.isSet = false := by decide
  unfold doDeleteOldEntry
  split
  · exact List.nil_sublist _
  · exact List.Sublist.refl _

theorem deleteOldEntry_sublist :
    (v.deleteOldEntry now t key p existing update).Sublist
      (v.deleteOldEntry now Tombstone.none key p existing update) := by
  unfold deleteOldEntry
  split
  · exact v.doDeleteOldEntry_sublist now t key p existing update
  · exact List.Sublist.refl _

theorem updateEntry_sublist :
    (v.updateEntry now t key p update existing).Sublist
      (v.updateEntry now Tombstone.none key p update existing) := by
  unfold updateEntry
  split
  · exact List.Sublist.refl _
  split
  · exact v.doDeleteOldEntry_sublist now t key p existing update
  · exact List.Sublist.refl _

theorem generateForBaseKey_sublist :
    (v.generateForBaseKey now t key p update old).Sublist
      (v.generateForBaseKey now Tombstone.none key p update old) := by
  unfold generateForBaseKey
  split
  · split
    · exact v.updateEntry_sublist now t key p _ update
    · exact v.deleteOldEntry_sublist now t key p _ update
  · exact List.Sublist.refl _

theorem generateForKeyColumn_sublist :
    (v.generateForKeyColumn now t key p update old).Sublist
      (v.generateForKeyColumn now Tombstone.none key p update old) := by
  unfold generateForKeyColumn
  dsimp only
  split
  · split
    · exact v.updateEntry_sublist now t key p _ update
    · exact (v.deleteOldEntry_sublist now t key p _ update).append_right _
  · exact v.deleteOldEntry_sublist now t key p _ update
  · exact List.Sublist.refl _
  · exact List.Sublist.refl _

theorem generateUpdate_sublist (row : ClusteringOrStaticRow s P)
    (existing : Option (ClusteringOrStaticRow s P)) :
    (v.generateUpdate now t key row existing).Sublist
      (v.generateUpdate now Tombstone.none key row existing) := by
  unfold generateUpdate
  split
  · exact List.Sublist.refl _
  split
  · exact v.generateForBaseKey_sublist now t key _ _ _
  · exact v.generateForKeyColumn_sublist now t key _ _ _

end

/-- The view as the builder sees it: every row written counts as one operation. -/
def toGenerator (now : I64) : Generator s PK P (RowWrite s PK P) where
  isPartitionKeyPermutation := v.isPartitionKeyPermutation
  generateUpdate t key row existing :=
    let writes := v.generateUpdate now t key row existing
    (writes, writes.length)
  covered := covered
  sublist t key row existing := v.generateUpdate_sublist now t key row existing

end ViewInfo

end Scylla.View
