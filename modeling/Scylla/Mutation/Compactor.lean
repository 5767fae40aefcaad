import Scylla.Core.Triple
import Scylla.Mutation.EarlyCompaction

/-!
# The compactor of sstable compaction

`compact_mutation_state` consumes the fragments of a partition and passes what remains to the
regular consumer. Tombstones older than `gc_before` and than the bound `max_purgeable` are withheld.
The bound is asked for at most once per partition, whatever the shadowability of the tombstone that
asked first.
-/

namespace Scylla.Mutation

/-- What follows the header and the static row of a partition. -/
inductive Fragment (s : Schema) (P : Type) where
  | clusteringRow (position : P) (row : DeletableRow s.regularColumns)
  /-- The range tombstone that is active from a position on. -/
  | rangeTombstoneChange (position : P) (tomb : Tombstone)

structure PartitionStream (s : Schema) (P : Type) where
  /-- The partition tombstone; without one the header has none. -/
  tombstone : Tombstone
  staticRow : Row s.staticColumns
  fragments : List (Fragment s P)

inductive Emitted (s : Schema) (P : Type) where
  | newPartition
  | partitionTombstone (tomb : Tombstone)
  | staticRow (row : Row s.staticColumns)
  | clusteringRow (position : P) (row : DeletableRow s.regularColumns)
  | rangeTombstoneChange (position : P) (tomb : Tombstone)

/-- The members of `compact_mutation_state` that sstable compaction uses. -/
structure CompactMutationState where
  /-- The remembered bound; missing before the first question. -/
  maxPurgeable : I64 := missingTimestamp
  partitionTombstone : Tombstone := Tombstone.none
  /-- The active range tombstone, also when it is withheld. -/
  effectiveTombstone : Tombstone := Tombstone.none
  /-- The range tombstone that the consumer takes for active. -/
  currentEmittedTombstone : Tombstone := Tombstone.none
  /-- Whether the consumer has not seen the partition yet. -/
  emptyPartition : Bool := false

structure GcParameters where
  /-- `_get_max_purgeable` for the key of the partition, by shadowability. -/
  getMaxPurgeable : Bool → I64
  /-- `get_gc_before` for the key of the partition. -/
  gcBefore : I64
  /-- Whether the grace period is tested before the bound. -/
  cheapToGetGcBefore : Bool
  queryTime : I64

namespace CompactMutationState

variable {s : Schema} {P : Type} (g : GcParameters)

def canGc (t : Tombstone) (isShadowable : Bool) : StateM CompactMutationState Bool := do
  if !t.isSet then return false
  if (← get).maxPurgeable = missingTimestamp then
    modify fun st => { st with maxPurgeable := g.getMaxPurgeable isShadowable }
  return t.timestamp < (← get).maxPurgeable

def canPurgeTombstone (t : Tombstone) (isShadowable : Bool) (deletionTime : I64) :
    StateM CompactMutationState Bool := do
  if g.cheapToGetGcBefore then
    if deletionTime < g.gcBefore then canGc g t isShadowable else pure false
  else
    let ok ← canGc g t isShadowable
    pure (ok && deletionTime < g.gcBefore)

/-- `can_purge_tombstone` of a tombstone that is not a row tombstone. -/
def canPurgeRegular (t : Tombstone) : StateM CompactMutationState Bool :=
  canPurgeTombstone g t false t.deletionTime

/-- `can_purge_tombstone` of a row tombstone. -/
def canPurgeRowTombstone (t : RowTombstone) : StateM CompactMutationState Bool :=
  canPurgeTombstone g t.tomb t.isShadowable
    (max t.regular.deletionTime t.shadowable.deletionTime)

def consumeNewPartition : StateM CompactMutationState Unit :=
  set ({ emptyPartition := true } : CompactMutationState)

def partitionIsNotEmpty : StateM CompactMutationState (List (Emitted s P)) := do
  if (← get).emptyPartition then
    modify fun st => { st with emptyPartition := false }
    let pt := (← get).partitionTombstone
    if pt.isSet then
      if ← canPurgeRegular g pt then pure [.newPartition]
      else pure [.newPartition, .partitionTombstone pt]
    else pure [.newPartition]
  else pure []

def consumeTombstone (t : Tombstone) : StateM CompactMutationState (List (Emitted s P)) := do
  modify fun st => { st with partitionTombstone := t }
  if ← canPurgeRegular g t then pure [] else partitionIsNotEmpty g

def consumeStaticRow (sr : Row s.staticColumns) :
    StateM CompactMutationState (List (Emitted s P)) := do
  let currentTombstone := (← get).partitionTombstone
  let sr ← sr.compactAndExpire (canGc g) (RowTombstone.ofRegular currentTombstone) g.queryTime
    g.gcBefore
  if sr.isEmpty then pure [] else
    let header ← partitionIsNotEmpty g
    pure (header ++ [.staticRow sr])

def applyRegular (t : RowTombstone) (regular : Tombstone) : RowTombstone where
  regular := t.regular.apply regular
  shadowable := t.shadowable.apply regular
  regular_le := by
    rw [Tombstone.apply_eq_max, Tombstone.apply_eq_max]
    exact max_le_max_right _ t.regular_le

/-- What `consume` leaves of a clustering row. -/
def compactRow (currentTombstone : Tombstone) (cr : DeletableRow s.regularColumns) :
    StateM CompactMutationState (DeletableRow s.regularColumns) := do
  let t := applyRegular cr.deletedAt currentTombstone
  let remove ← if cr.deletedAt.tomb ≤ currentTombstone then pure true
    else canPurgeRowTombstone g cr.deletedAt
  let marker ← cr.marker.compactAndExpire (canGc g) t.tomb g.queryTime g.gcBefore
  let cells ← cr.cells.compactAndExpire (canGc g) (cellTombstone s marker t) g.queryTime g.gcBefore
  pure ⟨if remove then RowTombstone.none else cr.deletedAt, marker, cells⟩

def consumeClusteringRow (position : P) (cr : DeletableRow s.regularColumns) :
    StateM CompactMutationState (List (Emitted s P)) := do
  let st ← get
  let cr ← compactRow g (max st.partitionTombstone st.effectiveTombstone) cr
  if cr.isEmpty then pure [] else
    let header ← partitionIsNotEmpty g
    pure (header ++ [.clusteringRow position cr])

def consumeRangeTombstoneChange (position : P) (t : Tombstone) :
    StateM CompactMutationState (List (Emitted s P)) := do
  let tomb := if t ≤ (← get).partitionTombstone then Tombstone.none else t
  modify fun st => { st with effectiveTombstone := tomb }
  let canPurge ← if tomb.isSet then canPurgeRegular g tomb else pure false
  let tomb := if canPurge then Tombstone.none else tomb
  if (← get).currentEmittedTombstone.isSet || tomb.isSet then
    let header ← partitionIsNotEmpty g
    modify fun st => { st with currentEmittedTombstone := tomb }
    pure (header ++ [.rangeTombstoneChange position tomb])
  else pure []

def consume : Fragment s P → StateM CompactMutationState (List (Emitted s P))
  | .clusteringRow position row => consumeClusteringRow g position row
  | .rangeTombstoneChange position tomb => consumeRangeTombstoneChange g position tomb

/-- What the consumer is given for the header, the static row and each fragment. -/
structure Compacted (s : Schema) (P : Type) where
  header : List (Emitted s P)
  staticRow : List (Emitted s P)
  fragments : List (List (Emitted s P))

/-- Compact one partition; a header without tombstone has none to consume. -/
def compactPartition (p : PartitionStream s P) : StateM CompactMutationState (Compacted s P) := do
  consumeNewPartition
  let header ← if p.tombstone.isSet then consumeTombstone g p.tombstone else pure []
  let staticRow ← consumeStaticRow g p.staticRow
  let fragments ← p.fragments.mapM (consume g)
  pure ⟨header, staticRow, fragments⟩

end CompactMutationState

end Scylla.Mutation
