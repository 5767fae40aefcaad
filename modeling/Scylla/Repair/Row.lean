import Mathlib

/-!
# The rows of row-level repair and how they travel

Repair looks at a row only through its partition key, its position, its hash and its size; two rows
at one position are merged into one fragment when the fragments are of a mergeable kind. What repair
assumes of the hashes is `Identifies`. Rows are sent grouped by partition, either as the argument of
a verb or as a stream of commands.
-/

namespace Scylla.Repair

open List

/-- What repair reads of a row, and the two operations on hashes. -/
structure Table (Row K P H : Type) where
  key : Row → K
  pos : Row → P
  /-- `do_hash_for_mf`: the hash of the key and of the contents. -/
  hash : Row → H
  /-- `repair_row::size`, which counts at least the key. -/
  size : Row → ℕ
  size_pos : ∀ r, 0 < size r
  mergeableWith : Row → Row → Bool
  /-- The default `repair_hash()`. -/
  zero : H
  add : H → H → H

variable {Row K P H : Type}

namespace Table

/-- `repair_row::boundary`: the order of boundaries is by key, then by position. -/
def boundary (t : Table Row K P H) (r : Row) : K ×ₗ P := toLex (t.key r, t.pos r)

def combinedHash (t : Table Row K P H) (rows : List Row) : H :=
  rows.foldl (fun combined r => t.add combined (t.hash r)) t.zero

def rowsSize (t : Table Row K P H) (rows : List Row) : ℕ := (rows.map t.size).sum

def Identifies (t : Table Row K P H) (domain : Set Row) : Prop :=
  ∀ rows rows' : List Row, rows.Nodup → rows'.Nodup → (∀ r ∈ rows, r ∈ domain) →
    (∀ r ∈ rows', r ∈ domain) → t.combinedHash rows = t.combinedHash rows' →
      ∀ r, r ∈ rows ↔ r ∈ rows'

@[simp] theorem combinedHash_nil (t : Table Row K P H) : t.combinedHash [] = t.zero := rfl

theorem rowsSize_pos (t : Table Row K P H) {rows : List Row} (hrows : rows ≠ []) :
    0 < t.rowsSize rows := by
  obtain ⟨r, rest, rfl⟩ := exists_cons_of_ne_nil hrows
  have hpos := t.size_pos r
  simp only [rowsSize, map_cons, sum_cons]
  omega

variable {t : Table Row K P H} {domain : Set Row}

theorem Identifies.hash_inj (hid : t.Identifies domain) {r r' : Row} (hr : r ∈ domain)
    (hr' : r' ∈ domain) (hhash : t.hash r = t.hash r') : r = r' := by
  have hcombined : t.combinedHash [r] = t.combinedHash [r'] := by
    simp [combinedHash, hhash]
  have hmem := hid [r] [r'] (nodup_singleton r) (nodup_singleton r') (by simpa using hr)
    (by simpa using hr') hcombined r
  simpa using hmem

theorem Identifies.eq_nil (hid : t.Identifies domain) {rows : List Row} (hnodup : rows.Nodup)
    (hrows : ∀ r ∈ rows, r ∈ domain) (hzero : t.combinedHash rows = t.zero) : rows = [] := by
  have hmem := hid rows [] hnodup nodup_nil hrows (by simp) (by simpa using hzero)
  exact eq_nil_iff_forall_not_mem.mpr fun r hr => by simpa using (hmem r).mp hr

end Table

/-! ## Merged fragments -/

structure Fragment (Row : Type) where
  first : Row
  applied : List Row
  deriving DecidableEq

namespace Fragment

/-- The rows whose contents a fragment holds. -/
def rows (f : Fragment Row) : List Row := f.first :: f.applied

def apply (f : Fragment Row) (r : Row) : Fragment Row := { f with applied := f.applied ++ [r] }

@[simp] theorem rows_apply (f : Fragment Row) (r : Row) : (f.apply r).rows = f.rows ++ [r] := rfl

end Fragment

def mergeFragments (belongs : Row → Row → Bool) : List Row → Option (Fragment Row) →
    List (Fragment Row)
  | [], last => last.toList
  | r :: rows, none => mergeFragments belongs rows (some ⟨r, []⟩)
  | r :: rows, some f =>
    if belongs f.first r then mergeFragments belongs rows (some (f.apply r))
    else f :: mergeFragments belongs rows (some ⟨r, []⟩)

theorem flatMap_mergeFragments (belongs : Row → Row → Bool) (rows : List Row)
    (last : Option (Fragment Row)) :
    (mergeFragments belongs rows last).flatMap Fragment.rows =
      last.toList.flatMap Fragment.rows ++ rows := by
  fun_induction mergeFragments belongs rows last with
  | case1 last => simp
  | case2 r rows ih => simp [ih, Fragment.rows]
  | case3 r rows f hbelongs ih => simp [ih]
  | case4 r rows f hbelongs ih => simp [ih, Fragment.rows]

/-! ## Rows on the wire -/

structure RepairRow (Row : Type) where
  row : Row
  dirtyOnMaster : Bool
  deriving DecidableEq

/-- A `repair_row_on_wire`: consecutive rows of one partition. -/
structure RowOnWire (Row K : Type) where
  key : K
  fragments : List Row
  deriving DecidableEq

def wireRows (wire : List (RowOnWire Row K)) : List Row := wire.flatMap RowOnWire.fragments

/-- `to_repair_rows_list` on the master: every row is kept apart and marked dirty. -/
def toRepairRowsListOnMaster (wire : List (RowOnWire Row K)) : List (RepairRow Row) :=
  wire.flatMap fun x => x.fragments.map fun r => ⟨r, true⟩

theorem map_row_toRepairRowsListOnMaster (wire : List (RowOnWire Row K)) :
    (toRepairRowsListOnMaster wire).map RepairRow.row = wireRows wire := by
  have hrow : (RepairRow.row ∘ fun r : Row => ⟨r, true⟩) = id := rfl
  simp [toRepairRowsListOnMaster, wireRows, map_flatMap, hrow]

theorem dirty_of_mem_toRepairRowsListOnMaster {wire : List (RowOnWire Row K)}
    {x : RepairRow Row} (hx : x ∈ toRepairRowsListOnMaster wire) : x.dirtyOnMaster = true := by
  obtain ⟨_, -, hx⟩ := mem_flatMap.mp hx
  obtain ⟨r, -, rfl⟩ := mem_map.mp hx
  rfl

namespace Table

section Wire

variable [DecidableEq K] (t : Table Row K P H)

/-- Append one row: to the last group if that is of the row's partition. -/
def pushOnWire (wire : List (RowOnWire Row K)) (r : Row) : List (RowOnWire Row K) :=
  match wire.getLast? with
  | none => [⟨t.key r, [r]⟩]
  | some last =>
    if t.key r = last.key then
      wire.dropLast ++ [{ last with fragments := last.fragments ++ [r] }]
    else wire ++ [⟨t.key r, [r]⟩]

def toRepairRowsOnWire (rows : List Row) : List (RowOnWire Row K) :=
  rows.foldl t.pushOnWire []

theorem wireRows_pushOnWire (wire : List (RowOnWire Row K)) (r : Row) :
    wireRows (t.pushOnWire wire r) = wireRows wire ++ [r] := by
  unfold pushOnWire
  split
  case h_1 hlast =>
    obtain rfl := List.getLast?_eq_none_iff.mp hlast
    simp [wireRows]
  case h_2 last hlast =>
    obtain ⟨front, rfl⟩ := List.getLast?_eq_some_iff.mp hlast
    split
    · simp [wireRows]
    · simp [wireRows]

@[simp] theorem wireRows_toRepairRowsOnWire (rows : List Row) :
    wireRows (t.toRepairRowsOnWire rows) = rows := by
  have hfold : ∀ wire, wireRows (rows.foldl t.pushOnWire wire) = wireRows wire ++ rows := by
    induction rows with
    | nil => simp
    | cons r rows ih =>
      intro wire
      rw [foldl_cons, ih, wireRows_pushOnWire, append_assoc, singleton_append]
  exact hfold []

theorem toRepairRowsOnWire_eq_nil {rows : List Row} (hnil : t.toRepairRowsOnWire rows = []) :
    rows = [] := by
  rw [← t.wireRows_toRepairRowsOnWire rows, hnil]
  rfl

end Wire

section Writer

variable [DecidableEq P] (t : Table Row K P H)

/-- `to_repair_rows_list` on a follower: within a group, rows at one position are merged. -/
def toRepairRowsListOnFollower (wire : List (RowOnWire Row K)) : List (Fragment Row) :=
  wire.flatMap fun x =>
    mergeFragments (fun last r => decide (t.pos last = t.pos r) && t.mergeableWith last r)
      x.fragments none

theorem flatMap_toRepairRowsListOnFollower (wire : List (RowOnWire Row K)) :
    (t.toRepairRowsListOnFollower wire).flatMap Fragment.rows = wireRows wire := by
  simp [toRepairRowsListOnFollower, wireRows, flatMap_assoc, flatMap_mergeFragments]

variable [DecidableEq K]

/-- `flush_rows`: write the dirty rows of a buffer, merging those of one key and position. -/
def flushRows (rows : List (RepairRow Row)) : List (Fragment Row) :=
  mergeFragments
    (fun last r => decide (t.pos last = t.pos r) && decide (t.key r = t.key last) &&
      t.mergeableWith last r)
    ((rows.filter RepairRow.dirtyOnMaster).map RepairRow.row) none

end Writer

end Table

/-! ## The two transports -/

/-- `use_rpc_stream`: one verb per request, or a stream of commands. -/
inductive Transport
  | verbs
  | streams
  deriving DecidableEq

inductive RowCmd (Row K : Type)
  | rowData (row : RowOnWire Row K)
  | endOfCurrentRows

def rowCmds (wire : List (RowOnWire Row K)) : List (RowCmd Row K) :=
  wire.map .rowData ++ [.endOfCurrentRows]

/-- The receiving loop; `none` is the unexpected end of the stream. -/
def receiveRows : List (RowCmd Row K) → List (RowOnWire Row K) → Option (List (RowOnWire Row K))
  | [], _ => none
  | .rowData row :: cmds, current => receiveRows cmds (current ++ [row])
  | .endOfCurrentRows :: _, current => some current

theorem receiveRows_rowCmds (wire current : List (RowOnWire Row K)) :
    receiveRows (rowCmds wire) current = some (current ++ wire) := by
  induction wire generalizing current with
  | nil => simp [rowCmds, receiveRows]
  | cons row wire ih =>
    have hrest : receiveRows (rowCmds (row :: wire)) current =
        receiveRows (rowCmds wire) (current ++ [row]) := rfl
    rw [hrest, ih, append_assoc, singleton_append]

/-- What the other side has in hand once the rows are sent. -/
def Transport.sendRows (transport : Transport) (wire : List (RowOnWire Row K)) :
    Option (List (RowOnWire Row K)) :=
  match transport with
  | .verbs => some wire
  | .streams => receiveRows (rowCmds wire) []

inductive HashCmd (H : Type)
  | hashData (hash : H)
  | endOfCurrentHashSet
  | needsAllRows

section HashSets

variable [LinearOrder H]

abbrev inOrder (hashes : Finset H) : List H := hashes.sort (· ≤ ·)

def hashCmds (hashes : Finset H) : List (HashCmd H) :=
  (inOrder hashes).map .hashData ++ [.endOfCurrentHashSet]

/-- The commands of a request for rows: the wanted hashes, or that all rows are wanted. -/
def rowDiffCmds (setDiff : Finset H) (needsAllRows : Bool) : List (HashCmd H) :=
  if needsAllRows then [.needsAllRows] else hashCmds setDiff

/-- The receiving loop for hashes: the set, and whether all rows are wanted. -/
def receiveHashes : List (HashCmd H) → Finset H → Option (Finset H × Bool)
  | [], _ => none
  | .hashData hash :: cmds, current => receiveHashes cmds (insert hash current)
  | .endOfCurrentHashSet :: _, current => some (current, false)
  | .needsAllRows :: _, current => some (current, true)

theorem receiveHashes_hashData (hashes : List H) (current : Finset H) :
    receiveHashes (hashes.map .hashData ++ [.endOfCurrentHashSet]) current =
      some (current ∪ hashes.toFinset, false) := by
  induction hashes generalizing current with
  | nil => simp [receiveHashes]
  | cons hash hashes ih =>
    have hrest : receiveHashes ((hash :: hashes).map .hashData ++ [.endOfCurrentHashSet]) current =
        receiveHashes (hashes.map .hashData ++ [.endOfCurrentHashSet]) (insert hash current) := rfl
    rw [hrest, ih]
    simp

theorem receiveHashes_hashCmds (hashes : Finset H) :
    receiveHashes (hashCmds hashes) ∅ = some (hashes, false) := by
  rw [hashCmds, receiveHashes_hashData, Finset.sort_toFinset, Finset.empty_union]

/-- The hashes the master has in hand after asking for all hashes of a working buffer. -/
def Transport.sendHashes (transport : Transport) (hashes : Finset H) : Option (Finset H) :=
  match transport with
  | .verbs => some hashes
  | .streams => (receiveHashes (hashCmds hashes) ∅).map Prod.fst

/-- The request a follower has in hand. -/
def Transport.sendRowDiffRequest (transport : Transport) (setDiff : Finset H)
    (needsAllRows : Bool) : Option (Finset H × Bool) :=
  -- the set is not sent along with the demand for all rows
  let setDiff := if needsAllRows then ∅ else setDiff
  match transport with
  | .verbs => some (setDiff, needsAllRows)
  | .streams => receiveHashes (rowDiffCmds setDiff needsAllRows) ∅

@[simp] theorem sendRows_eq (transport : Transport) (wire : List (RowOnWire Row K)) :
    transport.sendRows wire = some wire := by
  cases transport with
  | verbs => rfl
  | streams => simp [Transport.sendRows, receiveRows_rowCmds]

@[simp] theorem sendHashes_eq (transport : Transport) (hashes : Finset H) :
    transport.sendHashes hashes = some hashes := by
  cases transport with
  | verbs => rfl
  | streams => simp [Transport.sendHashes, receiveHashes_hashCmds]

@[simp] theorem sendRowDiffRequest_eq (transport : Transport) (setDiff : Finset H)
    (needsAllRows : Bool) :
    transport.sendRowDiffRequest setDiff needsAllRows =
      some (if needsAllRows then ∅ else setDiff, needsAllRows) := by
  cases transport with
  | verbs => rfl
  | streams =>
    cases needsAllRows with
    | true => rfl
    | false => simp [Transport.sendRowDiffRequest, rowDiffCmds, receiveHashes_hashCmds]

end HashSets

end Scylla.Repair
