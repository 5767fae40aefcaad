import Scylla.Mutation.Partition

/-!
# Live and empty rows

Whether a row has anything live, for rows that have been compacted and expired before (expiry is
not looked at), whether it has anything at all, and the operations that set one of its parts.
-/

namespace Scylla.Mutation

/-- Whether a column value is live under a tombstone, whatever its expiry. -/
def CellOf.isLive (t : Tombstone) : {k : ColumnKind} → CellOf k → Bool
  | .atomic, c => AtomicCell.isLive c && !AtomicCell.isCoveredBy c t false
  | .counter, c => CounterCell.isLive c && t.timestamp < CounterCell.timestamp c && !t.isSet
  | .collection _, c => (CollectionMutation.cells c).any fun e =>
      e.2.isLive && !e.2.isCoveredBy (t.apply (CollectionMutation.tomb c)) false

def DeletableRow.isLive {columns : List ColumnKind} (r : DeletableRow columns) : Bool :=
  (r.marker.isLive && r.deletedAt.tomb.timestamp < r.marker.timestamp) ||
    (List.finRange columns.length).any fun i => (r.cells i).any (CellOf.isLive r.deletedAt.tomb)

def DeletableRow.isEmpty {columns : List ColumnKind} (r : DeletableRow columns) : Bool :=
  !r.deletedAt.tomb.isSet && r.marker.isMissing && decide (∀ i, (r.cells i).isNone = true)

def DeletableRow.applyTombstone {columns : List ColumnKind} (r : DeletableRow columns)
    (t : RowTombstone) : DeletableRow columns :=
  { r with deletedAt := r.deletedAt.apply t r.marker }

def DeletableRow.applyMarker {columns : List ColumnKind} (r : DeletableRow columns)
    (m : RowMarker) : DeletableRow columns :=
  { r with marker := r.marker.apply m, deletedAt := r.deletedAt.maybeShadow (r.marker.apply m) }

end Scylla.Mutation
