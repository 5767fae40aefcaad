import Scylla.Core.Traverse
import Scylla.Mutation.Partition

/-!
# Compacting and expiring rows

`compact_and_expire` removes what a tombstone deletes, turns expired cells and markers into dead
ones, and purges dead ones that are old enough and that the garbage collection test `canGc` allows
to purge. A compaction remembers the first answer of the test, so the functions run in an arbitrary
monad.
-/

namespace Scylla.Mutation

open List

/-- A tombstone with the given timestamp; without one it is unset. -/
def Tombstone.of (timestamp deletionTime : I64) : Tombstone :=
  if h : timestamp = missingTimestamp then Tombstone.none
  else ⟨timestamp, deletionTime, fun h' => absurd h' h⟩

def Tombstone.highest : Tombstone := ⟨I64.highest, I64.highest, by decide⟩

theorem Tombstone.le_highest (t : Tombstone) : t ≤ highest := by
  rw [le_iff]
  exact (lt_or_eq_of_le (I64.le_highest t.timestamp)).imp_right
    fun h => ⟨h, I64.le_highest t.deletionTime⟩

section

variable {m : Type → Type} [Monad m] (canGc : Tombstone → Bool → m Bool)

def canPurge (gcBefore timestamp deletionTime : I64) : m Bool :=
  if deletionTime < gcBefore then canGc (Tombstone.of timestamp deletionTime) false else pure false

/-- What remains of a cell that no tombstone deletes. -/
def expireCell (queryTime gcBefore : I64) (c : AtomicCell) : m (Option AtomicCell) :=
  if c.hasExpired queryTime then do
    if ← canPurge canGc gcBefore c.timestamp c.deletionTime then pure none
    else pure (some (.dead c.timestamp c.deletionTime))
  else if !c.isLive then do
    if ← canPurge canGc gcBefore c.timestamp c.deletionTime then pure none else pure (some c)
  else pure (some c)

/-- The case of an atomic column in `row::compact_and_expire`. -/
def AtomicCell.compactAndExpire (tomb : RowTombstone) (queryTime gcBefore : I64) (c : AtomicCell) :
    m (Option AtomicCell) :=
  if c.isCoveredBy tomb.regular false then pure none
  else if c.isCoveredBy tomb.shadowable false then pure none
  else expireCell canGc queryTime gcBefore c

def CounterCell.compactAndExpire (tomb : RowTombstone) (gcBefore : I64) (c : CounterCell) :
    m (Option CounterCell) :=
  if c.timestamp ≤ tomb.regular.timestamp ∨ tomb.regular.isSet then pure none
  else if c.timestamp ≤ tomb.shadowable.timestamp ∨ tomb.shadowable.isSet then pure none
  else match c with
    | .dead t d => do if ← canPurge canGc gcBefore t d then pure none else pure (some c)
    | .live .. => pure (some c)

namespace CollectionMutation

variable {kt : KeyType}

/-- Keep the cells that have a verdict, in their order. -/
def keepSurvivors : List (Bytes × AtomicCell) → List (Option AtomicCell) → List (Bytes × AtomicCell)
  | e :: cells, v :: verdicts => (v.map (e.1, ·)).toList ++ keepSurvivors cells verdicts
  | _, _ => []

variable {cells : List (Bytes × AtomicCell)}

theorem fst_mem_keepSurvivors {verdicts : List (Option AtomicCell)} {x : Bytes × AtomicCell}
    (hx : x ∈ keepSurvivors cells verdicts) : ∃ e ∈ cells, x.1 = e.1 := by
  induction cells generalizing verdicts with
  | nil => cases hx
  | cons e cells ih =>
    cases verdicts with
    | nil => cases hx
    | cons v verdicts =>
      rcases mem_append.mp hx with hx | hx
      · obtain ⟨c, -, rfl⟩ := Option.map_eq_some_iff.mp (Option.mem_toList.mp hx)
        exact ⟨e, mem_cons_self, rfl⟩
      · obtain ⟨e', he', hfst⟩ := ih hx
        exact ⟨e', mem_cons_of_mem _ he', hfst⟩

theorem sorted_keepSurvivors
    (h : SortedBy kt.cmp Prod.fst cells) (verdicts : List (Option AtomicCell)) :
    SortedBy kt.cmp Prod.fst (keepSurvivors cells verdicts) := by
  induction cells generalizing verdicts with
  | nil => exact .nil
  | cons e cells ih =>
    cases verdicts with
    | nil => exact .nil
    | cons v verdicts =>
      cases v with
      | none => exact ih h.of_cons verdicts
      | some c =>
        refine pairwise_cons.mpr ⟨fun x hx => ?_, ih h.of_cons verdicts⟩
        obtain ⟨e', he', hfst⟩ := fst_mem_keepSurvivors hx
        rw [hfst]
        exact rel_of_pairwise_cons h he'

def compactElement (tomb shadowable : Tombstone) (queryTime gcBefore : I64)
    (e : Bytes × AtomicCell) : m (Option AtomicCell) :=
  if e.2.isCoveredBy tomb false || e.2.isCoveredBy shadowable false then pure none
  else expireCell canGc queryTime gcBefore e.2

def compactAndExpire (base : RowTombstone) (queryTime gcBefore : I64) (c : CollectionMutation kt) :
    m (CollectionMutation kt) := do
  let tomb ←
    if c.tomb ≤ base.regular then pure Tombstone.none
    else do
      if ← canPurge canGc gcBefore c.tomb.timestamp c.tomb.deletionTime then pure Tombstone.none
      else pure c.tomb
  let verdicts ← c.cells.mapM
    (compactElement canGc (c.tomb.apply base.regular) base.shadowable queryTime gcBefore)
  pure ⟨tomb, keepSurvivors c.cells verdicts, sorted_keepSurvivors c.sorted verdicts⟩

def compactColumn (base : RowTombstone) (queryTime gcBefore : I64) (c : CollectionMutation kt) :
    m (Option (CollectionMutation kt)) := do
  let c' ← c.compactAndExpire canGc base queryTime gcBefore
  if c'.cells.isEmpty && c'.tomb ≤ base.tomb then pure none else pure (some c')

end CollectionMutation

/-- What `row::compact_and_expire` leaves of the value of a column. -/
def CellOf.compactAndExpire (tomb : RowTombstone) (queryTime gcBefore : I64) :
    (k : ColumnKind) → CellOf k → m (Option (CellOf k))
  | .atomic, c => AtomicCell.compactAndExpire canGc tomb queryTime gcBefore c
  | .counter, c => CounterCell.compactAndExpire canGc tomb gcBefore c
  | .collection _, c => CollectionMutation.compactColumn canGc tomb queryTime gcBefore c

/-- `row::compact_and_expire`, for rows that their marker does not shadow. -/
def Row.compactAndExpire {columns : List ColumnKind} (tomb : RowTombstone)
    (queryTime gcBefore : I64) (r : Row columns) : m (Row columns) :=
  finTraverse fun i =>
    match r i with
    | none => pure none
    | some c => CellOf.compactAndExpire canGc tomb queryTime gcBefore _ c

def RowMarker.compactAndExpire (tomb : Tombstone) (now gcBefore : I64) (r : RowMarker) :
    m RowMarker := do
  if r.isMissing then return r
  if r.timestamp ≤ tomb.timestamp then return { r with timestamp := missingTimestamp }
  let r := if RowMarker.noTtl < r.ttl && r.expiry ≤ now then
    { r with expiry := r.expiry - r.ttl, ttl := RowMarker.deadTtl } else r
  if r.ttl = RowMarker.deadTtl then
    if ← canPurge canGc gcBefore r.timestamp r.expiry then
      return { r with timestamp := missingTimestamp }
  return r

def deadMarkerShadowsRow (s : Schema) (marker : RowMarker) : Bool :=
  s.hasBaseNonPkColumnsInViewPk && !marker.isLive

/-- The tombstone that applies to the cells of a row. -/
def cellTombstone (s : Schema) (marker : RowMarker) (tomb : RowTombstone) : RowTombstone :=
  if deadMarkerShadowsRow s marker then
    tomb.apply ⟨Tombstone.none, Tombstone.highest, Tombstone.none_le _⟩ {}
  else tomb

def DeletableRow.compactAndExpire (s : Schema) (tomb : Tombstone) (queryTime gcBefore : I64)
    (r : DeletableRow s.regularColumns) : m (DeletableRow s.regularColumns) := do
  let deletedAt := (r.deletedAt.apply (RowTombstone.ofRegular tomb) r.marker)
  let marker ← r.marker.compactAndExpire canGc deletedAt.tomb queryTime gcBefore
  let cells ← r.cells.compactAndExpire canGc (cellTombstone s marker deletedAt) queryTime gcBefore
  let drop ←
    if deletedAt.tomb ≤ tomb then pure true
    else if max deletedAt.regular.deletionTime deletedAt.shadowable.deletionTime < gcBefore then
      canGc deletedAt.tomb deletedAt.isShadowable
    else pure false
  pure ⟨if drop then RowTombstone.none else deletedAt, marker, cells⟩

end

end Scylla.Mutation
