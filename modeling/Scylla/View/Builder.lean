import Scylla.View.Updates

/-!
# Building view updates in batches

`view_update_builder` walks the update and the data that exists already in position order, and
passes every base row that changes to the views. A call of `build_some` ends when both streams are
through or when the views have counted enough operations. A ghost list in the state remembers which
fragments were handled, and under which tombstones.
-/

namespace Scylla.View

open Mutation

section

variable (s : Schema) (PK P : Type*)

/-- The fragments between the start and the end of a partition. -/
inductive Fragment where
  | staticRow (cells : Row s.staticColumns)
  | clusteringRow (position : P) (row : DeletableRow s.regularColumns)
  /-- From its position on, the given tombstone is in effect. -/
  | rangeTombstoneChange (position : P) (tombstone : Tombstone)

inductive MutationFragment where
  | partitionStart (key : PK) (tombstone : Tombstone)
  | content (f : Fragment s P)
  | endOfPartition

structure PartitionStream where
  key : PK
  tombstone : Tombstone
  fragments : List (Fragment s P)

/-- A stream that is being read: the last fragment read and those not read yet. -/
structure Reader where
  /-- The last fragment read; nothing at first and after the end of the stream. -/
  current : Option (MutationFragment s PK P) := none
  rest : List (MutationFragment s PK P)

end

variable {s : Schema} {PK P W ι : Type*}

/-- The position of a fragment; the static row is before all clustered positions. -/
def Fragment.position : Fragment s P → WithBot P
  | staticRow _ => ⊥
  | clusteringRow p _ | rangeTombstoneChange p _ => (p : WithBot P)

/-- The row or range tombstone change, if the fragment is one. -/
def MutationFragment.content? : MutationFragment s PK P → Option (Fragment s P)
  | content f => some f
  | partitionStart .. | endOfPartition => none

def PartitionStream.toList (p : PartitionStream s PK P) : List (MutationFragment s PK P) :=
  .partitionStart p.key p.tombstone :: (p.fragments.map .content ++ [.endOfPartition])

namespace Reader

def advance (r : Reader s PK P) : Reader s PK P := ⟨r.rest.head?, r.rest.tail⟩

/-- The current fragment, unless the stream has reached its end. -/
def live (r : Reader s PK P) : Option (Fragment s P) := r.current.bind MutationFragment.content?

/-- The rows and range tombstone changes that have not been read past. -/
def fragments (r : Reader s PK P) : List (Fragment s P) :=
  r.live.toList ++ r.rest.filterMap MutationFragment.content?

end Reader

/-! ## What is passed to the views -/

/-- The tombstones in effect at the current position. -/
structure Tombstones where
  /-- `_update_partition_tombstone`. -/
  updatePartition : Tombstone := Tombstone.none
  /-- `_update_current_tombstone`. -/
  updateCurrent : Tombstone := Tombstone.none
  /-- `_existing_partition_tombstone`. -/
  existingPartition : Tombstone := Tombstone.none
  /-- `_existing_current_tombstone`. -/
  existingCurrent : Tombstone := Tombstone.none
  deriving DecidableEq

namespace Tombstones

def update (t : Tombstones) : Tombstone := max t.updatePartition t.updateCurrent

def existing (t : Tombstones) : Tombstone := max t.existingPartition t.existingCurrent

end Tombstones

/-- The views of the base table and the times of the update. -/
structure Config (s : Schema) (PK P W ι : Type*) where
  views : ι → Generator s PK P W
  now : I64
  /-- `get_gc_before_for_key`. -/
  gcBefore : PK → I64

/-- A base row after the update and before it, if it existed. -/
abbrev RowChange (s : Schema) (P : Type*) : Type _ :=
  ClusteringOrStaticRow s P × Option (ClusteringOrStaticRow s P)

def alwaysGc : Tombstone → Bool → Id Bool := fun _ _ => pure true

namespace Config

variable (cfg : Config s PK P W ι) (key : PK)

/-- Compact and expire the marker and the cells of a clustering row under its own tombstone. -/
def compactRow (r : DeletableRow s.regularColumns) : DeletableRow s.regularColumns :=
  let marker := (r.marker.compactAndExpire alwaysGc r.deletedAt.tomb cfg.now (cfg.gcBefore key)).run
  { r with
    marker
    cells := (r.cells.compactAndExpire alwaysGc (cellTombstone s marker r.deletedAt) cfg.now
      (cfg.gcBefore key)).run }

/-- Compact and expire the static row under a partition tombstone. -/
def compactStaticRow (t : Tombstone) (r : Row s.staticColumns) : Row s.staticColumns :=
  (r.compactAndExpire alwaysGc (RowTombstone.ofRegular t) cfg.now (cfg.gcBefore key)).run

/-- `view_update_builder::generate_update` for a clustering row. -/
def generateRow (p : P) (update : DeletableRow s.regularColumns)
    (existing : Option (DeletableRow s.regularColumns)) : Option (RowChange s P) :=
  if update.isEmpty then none
  else
    let existing := existing.map (cfg.compactRow key)
    let update := cfg.compactRow key (existing.elim update update.apply)
    some (.clusteringRow p update, existing.map (.clusteringRow p))

def generateStaticRow (update : Row s.staticColumns) (updateTomb : Tombstone)
    (existing : Option (Row s.staticColumns)) (existingTomb : Tombstone) :
    Option (RowChange s P) :=
  if !updateTomb.isSet && update = Row.empty then none
  else
    let existing := existing.map (cfg.compactStaticRow key existingTomb)
    let update := cfg.compactStaticRow key updateTomb (existing.elim update update.apply)
    some (.staticRow update, existing.map .staticRow)

end Config

def tombstoneRow {columns : List ColumnKind} (t : Tombstone) : DeletableRow columns :=
  ⟨RowTombstone.ofRegular t, {}, Row.empty⟩

/-- A row that holds only a tombstone, if it is set. -/
def tombstoneRow? {columns : List ColumnKind} (t : Tombstone) : Option (DeletableRow columns) :=
  if t.isSet then some (tombstoneRow t) else none

inductive Turn where
  /-- `advance_updates`. -/
  | updates
  /-- `advance_existings`. -/
  | existings
  /-- `advance_all`. -/
  | all
  deriving DecidableEq

/-- What `on_results` does with the current fragments. -/
structure Handling (s : Schema) (P : Type*) where
  tombstones : Tombstones
  rows : Option (RowChange s P) := none
  /-- The streams whose fragments are handled. -/
  turn : Turn

namespace Config

variable (cfg : Config s PK P W ι) (key : PK) (t : Tombstones)

/-- The update is at a position where nothing exists. -/
def onUpdate : Fragment s P → Handling s P
  | .rangeTombstoneChange _ tomb => { tombstones := { t with updateCurrent := tomb }, turn := .updates }
  | .clusteringRow p r =>
    { tombstones := t
      rows := cfg.generateRow key p (r.applyTombstone (RowTombstone.ofRegular t.update))
        (tombstoneRow? t.existing)
      turn := .updates }
  | .staticRow r =>
    { tombstones := t
      rows := cfg.generateStaticRow key r t.updatePartition
        (if t.existingPartition.isSet then some Row.empty else none) t.existingPartition
      turn := .updates }

/-- Something exists at a position without an update. -/
def onExisting : Fragment s P → Handling s P
  | .rangeTombstoneChange _ tomb =>
    { tombstones := { t with existingCurrent := tomb }, turn := .existings }
  | .clusteringRow p r =>
    { tombstones := t
      rows := if t.update.isSet then
          cfg.generateRow key p (tombstoneRow t.update)
            (some (r.applyTombstone (RowTombstone.ofRegular t.existing)))
        else none
      turn := .existings }
  | .staticRow r =>
    { tombstones := t
      rows := if t.updatePartition.isSet then
          cfg.generateStaticRow key Row.empty t.updatePartition (some r) t.existingPartition
        else none
      turn := .existings }

def onBoth : Fragment s P → Fragment s P → Handling s P
  | .rangeTombstoneChange _ tomb, .rangeTombstoneChange _ tomb' =>
    { tombstones := { t with updateCurrent := tomb, existingCurrent := tomb' }, turn := .all }
  | .clusteringRow p r, .clusteringRow _ r' =>
    { tombstones := t
      rows := cfg.generateRow key p (r.applyTombstone (RowTombstone.ofRegular t.update))
        (some (r'.applyTombstone (RowTombstone.ofRegular t.existing)))
      turn := .all }
  | .staticRow r, .staticRow r' =>
    { tombstones := t
      rows := cfg.generateStaticRow key r t.updatePartition (some r') t.existingPartition
      turn := .all }
  | _, _ => { tombstones := t, turn := .all }

def onExistingOnly : Fragment s P → Handling s P
  | .rangeTombstoneChange .. => { tombstones := t, turn := .existings }
  | .clusteringRow p r =>
    { tombstones := t
      rows := cfg.generateRow key p (tombstoneRow t.update) (some r)
      turn := .existings }
  | .staticRow r =>
    { tombstones := t
      rows := cfg.generateStaticRow key Row.empty t.updatePartition (some r) t.existingPartition
      turn := .existings }

/-- The existing data has ended. Range tombstone changes are passed over. -/
def onUpdateOnly : Fragment s P → Handling s P
  | .rangeTombstoneChange .. => { tombstones := t, turn := .updates }
  | f => cfg.onUpdate key t f

/-- The branches of `on_results`: `none` when it stops without handling anything. -/
def handling [LinearOrder P] (u e : Option (Fragment s P)) : Option (Handling s P) :=
  match u, e with
  | some u, some e =>
    match compare u.position e.position with
    | .lt => some (cfg.onUpdate key t u)
    | .gt => some (cfg.onExisting key t e)
    | .eq => some (cfg.onBoth key t u e)
  | none, some e => if t.update.isSet then some (cfg.onExistingOnly key t e) else none
  | some u, none => some (cfg.onUpdateOnly key t u)
  | none, none => none

end Config

/-! ## The builder -/

structure ViewUpdates (W : Type*) where
  partitionTombstone : Tombstone := Tombstone.none
  writes : List W := []
  opCount : ℕ := 0

namespace ViewUpdates

def generateUpdate (v : Generator s PK P W) (key : PK) (rows : Option (RowChange s P))
    (u : ViewUpdates W) : ViewUpdates W :=
  match rows with
  | none => u
  | some (update, existing) =>
    let r := v.generateUpdate u.partitionTombstone key update existing
    { u with writes := u.writes ++ r.1, opCount := u.opCount + r.2 }

def generatePartitionTombstoneUpdate (v : Generator s PK P W) (t : Tombstone) (u : ViewUpdates W) :
    ViewUpdates W :=
  if v.isPartitionKeyPermutation && t.isSet then
    { u with partitionTombstone := u.partitionTombstone.apply t, opCount := u.opCount + 1 }
  else u

end ViewUpdates

structure Handled (s : Schema) (P : Type*) where
  update : Option (Fragment s P)
  existing : Option (Fragment s P)
  tombstones : Tombstones
  rows : Option (RowChange s P)

/-- What a turn has done when the given fragments are current. -/
def Handling.handled (h : Handling s P) (u e : Option (Fragment s P)) : Handled s P where
  update := if h.turn = .existings then none else u
  existing := if h.turn = .updates then none else e
  tombstones := h.tombstones
  rows := h.rows

structure Builder (s : Schema) (PK P W ι : Type*) where
  /-- `_updates` and `_update`. -/
  updates : Reader s PK P
  /-- `_existings` and `_existing`. -/
  existings : Reader s PK P
  key : PK
  tombstones : Tombstones := {}
  skipRowUpdates : Bool := false
  viewUpdates : ι → ViewUpdates W := fun _ => {}
  /-- Everything `on_results` has done so far. -/
  handled : List (Handled s P) := []

inductive Outcome where
  | stop
  /-- The batch is full; the streams of the turn have not been advanced. -/
  | full (turn : Turn)
  /-- The streams have been advanced. -/
  | again

namespace Builder

def advance (turn : Turn) (b : Builder s PK P W ι) : Builder s PK P W ι :=
  match turn with
  | .updates => { b with updates := b.updates.advance }
  | .existings => { b with existings := b.existings.advance }
  | .all => { b with updates := b.updates.advance, existings := b.existings.advance }

def handle (cfg : Config s PK P W ι) (h : Handling s P) (b : Builder s PK P W ι) :
    Builder s PK P W ι :=
  { b with
    tombstones := h.tombstones
    viewUpdates := fun i => (b.viewUpdates i).generateUpdate (cfg.views i) b.key h.rows
    handled := b.handled ++ [h.handled b.updates.live b.existings.live] }

/-- `should_stop_updates`; without a bound a batch is never full. -/
def shouldStopUpdates [Fintype ι] (bound : Option ℕ) (b : Builder s PK P W ι) : Bool :=
  bound.any fun n => n ≤ ∑ i, (b.viewUpdates i).opCount

def onResults [Fintype ι] [LinearOrder P] (cfg : Config s PK P W ι) (bound : Option ℕ)
    (b : Builder s PK P W ι) : Outcome × Builder s PK P W ι :=
  match cfg.handling b.key b.tombstones b.updates.live b.existings.live with
  | none => (.stop, b)
  | some h =>
    let b := b.handle cfg h
    if b.shouldStopUpdates bound then (.full h.turn, b) else (.again, b.advance h.turn)

/-- The loop of `build_some`, and the turn that filled the batch. -/
def loop [Fintype ι] [LinearOrder P] (cfg : Config s PK P W ι) (bound : Option ℕ) :
    ℕ → Builder s PK P W ι → Option Turn × Builder s PK P W ι
  | 0, b => (none, b)
  | n + 1, b =>
    match b.onResults cfg bound with
    | (.stop, b) => (none, b)
    | (.full turn, b) => (some turn, b)
    | (.again, b) => b.loop cfg bound n

/-- Every further turn of the loop handles one of these fragments. -/
def remaining (b : Builder s PK P W ι) : ℕ :=
  b.updates.fragments.length + b.existings.fragments.length

def startUpdate (cfg : Config s PK P W ι) (b : Builder s PK P W ι) : Builder s PK P W ι :=
  match b.updates.current with
  | some (.partitionStart key t) =>
    { b with
      key
      updates := b.updates.advance
      tombstones := { b.tombstones with updatePartition := t }
      viewUpdates := fun i =>
        (b.viewUpdates i).generatePartitionTombstoneUpdate (cfg.views i) t }
  | _ => b

/-- The start of the existing partition in `build_some`. -/
def startExisting (b : Builder s PK P W ι) : Builder s PK P W ι :=
  match b.existings.current with
  | some (.partitionStart _ t) =>
    { b with
      existings := b.existings.advance
      tombstones := { b.tombstones with existingPartition := t } }
  | _ => b

def coveredByPartitionTombstone [Fintype ι] (cfg : Config s PK P W ι) (b : Builder s PK P W ι) :
    Bool :=
  match b.updates.current, b.updates.rest.head? with
  | some (.partitionStart _ t), some .endOfPartition =>
    t.isSet && decide (∀ i, (cfg.views i).isPartitionKeyPermutation)
  | _, _ => false

/-- The part of `build_some` before its loop, after both streams have been advanced. -/
def start [Fintype ι] (cfg : Config s PK P W ι) (b : Builder s PK P W ι) : Builder s PK P W ι :=
  { (b.startUpdate cfg).startExisting with
    skipRowUpdates := b.skipRowUpdates || b.coveredByPartitionTombstone cfg }

def begin [Fintype ι] (cfg : Config s PK P W ι) (b : Builder s PK P W ι) : Builder s PK P W ι :=
  (b.advance .all).start cfg

end Builder

structure Call (s : Schema) (PK P W ι : Type*) where
  output : ι → ViewUpdates W
  /-- The turn after which the batch was full. -/
  full : Option Turn
  handled : List (Handled s P)
  after : Builder s PK P W ι

namespace Builder

def buildSome [Fintype ι] [LinearOrder P] (cfg : Config s PK P W ι) (bound : Option ℕ)
    (b : Builder s PK P W ι) : Option (Call s PK P W ι) :=
  if (b.advance .all).updates.current.isNone && (b.advance .all).existings.current.isNone then none
  else
    let b := b.begin cfg
    let r := if b.skipRowUpdates then (none, b) else b.loop cfg bound (b.remaining + 1)
    some
      { output := r.2.viewUpdates
        full := r.1
        handled := r.2.handled.drop b.handled.length
        after := { r.2 with viewUpdates := fun _ => {} } }

/-- Calls of `build_some` until it returns nothing. -/
def buildAll [Fintype ι] [LinearOrder P] (cfg : Config s PK P W ι) (bound : Option ℕ) :
    ℕ → Builder s PK P W ι → List (Call s PK P W ι)
  | 0, _ => []
  | n + 1, b =>
    match b.buildSome cfg bound with
    | none => []
    | some c => c :: c.after.buildAll cfg bound n

def init (update : PartitionStream s PK P) (existing : Option (PartitionStream s PK P)) :
    Builder s PK P W ι where
  updates := { rest := update.toList }
  existings := { rest := existing.elim [] PartitionStream.toList }
  key := update.key

end Builder

end Scylla.View
