import Scylla.Repair.Row

/-!
# The repair state of one node

A `repair_meta` reads the rows of its node in order into a row buffer, moves those up to the common
boundary of a round to a working buffer, and writes the rows it is given. Kept beside the buffers
are the rows on disk at the start, the fragments written, the hashes asked for and the rows that
came in.
-/

namespace Scylla.Repair

open List

variable {Row K P H : Type}

/-- A node taking part in a repair. -/
structure RepairMeta (Row K P H : Type) where
  /-- The node's rows in the repaired range when the repair starts. -/
  disk : List Row
  /-- What the reader has not returned yet. -/
  reader : List Row
  rowBuf : List (RepairRow Row)
  workingRowBuf : List (RepairRow Row)
  workingRowBufCombinedHash : H
  lastSyncBoundary : Option (K ×ₗ P)
  currentSyncBoundary : Option (K ×ₗ P)
  /-- `_dirty_on_master`: the working buffer holds rows to write. -/
  dirtyOnMaster : Bool
  /-- The fragments given to the writer. -/
  written : List (Fragment Row)
  /-- The hashes of the rows asked for. -/
  requested : List H
  /-- The rows that came from other nodes. -/
  received : List Row

structure SyncBoundaryResponse (K P H : Type) where
  boundary : Option (K ×ₗ P)
  rowBufCombinedCsum : H
  rowBufSize : ℕ

namespace RepairMeta

def start (t : Table Row K P H) (disk : List Row) : RepairMeta Row K P H where
  disk := disk
  reader := disk
  rowBuf := []
  workingRowBuf := []
  workingRowBufCombinedHash := t.zero
  lastSyncBoundary := none
  currentSyncBoundary := none
  dirtyOnMaster := false
  written := []
  requested := []
  received := []

def bufRows (m : RepairMeta Row K P H) : List Row := m.rowBuf.map RepairRow.row

def workingRows (m : RepairMeta Row K P H) : List Row := m.workingRowBuf.map RepairRow.row

def dirtyRows (m : RepairMeta Row K P H) : List Row :=
  (m.workingRowBuf.filter RepairRow.dirtyOnMaster).map RepairRow.row

def pending (skippedSyncBoundary : Option (K ×ₗ P)) (m : RepairMeta Row K P H) : List Row :=
  (if skippedSyncBoundary.isSome then [] else m.bufRows) ++ m.reader

/-- The rows the rounds so far have looked at. -/
def passed (skippedSyncBoundary : Option (K ×ₗ P)) (m : RepairMeta Row K P H) : List Row :=
  m.disk.take (m.disk.length - (m.pending skippedSyncBoundary).length)

def writtenRows (m : RepairMeta Row K P H) : List Row := m.written.flatMap Fragment.rows

theorem passed_eq {skipped : Option (K ×ₗ P)} {m : RepairMeta Row K P H} {rows : List Row}
    (hdisk : m.disk = rows ++ m.pending skipped) : m.passed skipped = rows := by
  rw [passed, hdisk, length_append, Nat.add_sub_cancel, take_left' rfl]

theorem pending_none (m : RepairMeta Row K P H) : m.pending none = m.bufRows ++ m.reader := rfl

end RepairMeta

open RepairMeta

namespace Table

variable (t : Table Row K P H)

/-! ## Reading -/

def readRowsFromDisk (maxRowBufSize : ℕ) : ℕ → List Row → List Row × List Row
  | _, [] => ([], [])
  | curSize, r :: rest =>
    if curSize < maxRowBufSize then
      let read := readRowsFromDisk maxRowBufSize (curSize + t.size r) rest
      (r :: read.1, read.2)
    else ([], r :: rest)

section

variable (maxRowBufSize curSize : ℕ) (reader : List Row)

theorem readRowsFromDisk_append :
    (t.readRowsFromDisk maxRowBufSize curSize reader).1 ++
      (t.readRowsFromDisk maxRowBufSize curSize reader).2 = reader := by
  fun_induction t.readRowsFromDisk maxRowBufSize curSize reader with
  | case1 => rfl
  | case2 curSize r rest hlt read ih => rw [cons_append, ih]
  | case3 curSize r rest hlt => rfl

theorem readRowsFromDisk_full (hleft : (t.readRowsFromDisk maxRowBufSize curSize reader).2 ≠ []) :
    maxRowBufSize ≤ curSize + t.rowsSize (t.readRowsFromDisk maxRowBufSize curSize reader).1 := by
  fun_induction t.readRowsFromDisk maxRowBufSize curSize reader with
  | case1 => simp at hleft
  | case2 curSize r rest hlt read ih =>
    have hrest : maxRowBufSize ≤ curSize + t.size r + t.rowsSize read.1 := ih hleft
    simp only [rowsSize, map_cons, sum_cons] at hrest ⊢
    omega
  | case3 curSize r rest hlt =>
    omega

end

/-- `get_sync_boundary`: drop the buffer if the round before was skipped, and fill it. -/
def getSyncBoundary (maxRowBufSize : ℕ) (skippedSyncBoundary : Option (K ×ₗ P))
    (m : RepairMeta Row K P H) : RepairMeta Row K P H × SyncBoundaryResponse K P H :=
  let current := if skippedSyncBoundary.isSome then skippedSyncBoundary else m.currentSyncBoundary
  let kept := if skippedSyncBoundary.isSome then [] else m.rowBuf
  let read := t.readRowsFromDisk maxRowBufSize (t.rowsSize (kept.map RepairRow.row)) m.reader
  let rowBuf := kept ++ read.1.map fun r => ⟨r, false⟩
  ({ m with
      reader := read.2, rowBuf := rowBuf, workingRowBuf := []
      workingRowBufCombinedHash := t.zero
      lastSyncBoundary := current, currentSyncBoundary := current },
    { boundary := rowBuf.getLast?.map fun r => t.boundary r.row
      rowBufCombinedCsum := t.combinedHash (rowBuf.map RepairRow.row)
      rowBufSize := t.rowsSize (rowBuf.map RepairRow.row) })

section Filled

variable (maxRowBufSize : ℕ) (skipped : Option (K ×ₗ P)) (m : RepairMeta Row K P H)

theorem pending_getSyncBoundary :
    (t.getSyncBoundary maxRowBufSize skipped m).1.pending none = m.pending skipped := by
  cases skipped with
  | none =>
    simp [getSyncBoundary, pending, bufRows, Function.comp_def, readRowsFromDisk_append]
  | some b =>
    simp [getSyncBoundary, pending, bufRows, Function.comp_def, readRowsFromDisk_append]

theorem getSyncBoundary_response :
    (t.getSyncBoundary maxRowBufSize skipped m).2 =
      { boundary := (t.getSyncBoundary maxRowBufSize skipped m).1.bufRows.getLast?.map t.boundary
        rowBufCombinedCsum := t.combinedHash (t.getSyncBoundary maxRowBufSize skipped m).1.bufRows
        rowBufSize := t.rowsSize (t.getSyncBoundary maxRowBufSize skipped m).1.bufRows } := by
  simp only [getSyncBoundary, bufRows, getLast?_map, Option.map_map, Function.comp_def]

theorem reader_getSyncBoundary (hlimit : 0 < maxRowBufSize)
    (hempty : (t.getSyncBoundary maxRowBufSize skipped m).1.bufRows = []) :
    (t.getSyncBoundary maxRowBufSize skipped m).1.reader = [] := by
  by_contra hleft
  have hfull := t.readRowsFromDisk_full _ _ _ hleft
  simp only [getSyncBoundary, bufRows, map_append, append_eq_nil_iff, map_eq_nil_iff] at hempty
  obtain ⟨hkept, hread⟩ := hempty
  rw [hread, hkept] at hfull
  simp only [rowsSize, map_nil, sum_nil] at hfull
  omega

end Filled

/-! ## The working buffer -/

section Boundaries

variable [LinearOrder K] [LinearOrder P]

def moveRowBufToWorkingRowBuf (current : K ×ₗ P) (m : RepairMeta Row K P H) :
    RepairMeta Row K P H :=
  match m.rowBuf.getLast? with
  | none => m
  | some last =>
    if t.boundary last.row ≤ current then
      { m with workingRowBuf := m.rowBuf, rowBuf := m.workingRowBuf }
    else
      let above := m.rowBuf.rtakeWhile fun r => decide (current < t.boundary r.row)
      let working := above ++ m.workingRowBuf
      { m with
        rowBuf := working, workingRowBuf := m.rowBuf.take (m.rowBuf.length - working.length) }

/-- `request_row_hashes`: cut the row buffer at the common boundary. -/
def requestRowHashes (commonSyncBoundary : K ×ₗ P) (m : RepairMeta Row K P H) :
    RepairMeta Row K P H × H :=
  let m :=
    { m with
      currentSyncBoundary := some commonSyncBoundary, workingRowBuf := []
      workingRowBufCombinedHash := t.zero }
  if m.rowBuf.isEmpty then (m, t.zero)
  else
    let m := t.moveRowBufToWorkingRowBuf commonSyncBoundary m
    let combined := t.combinedHash m.workingRows
    ({ m with workingRowBufCombinedHash := combined }, combined)

/-- What cutting at a boundary does: the buffer is split there, nothing else moves. -/
structure Cut (b : K ×ₗ P) (m m' : RepairMeta Row K P H) : Prop where
  rowBuf : m.rowBuf = m'.workingRowBuf ++ m'.rowBuf
  below : ∀ r ∈ m'.workingRows, t.boundary r ≤ b
  above : ∀ r ∈ m'.bufRows, b < t.boundary r
  combined : m'.workingRowBufCombinedHash = t.combinedHash m'.workingRows
  disk : m'.disk = m.disk
  reader : m'.reader = m.reader
  dirtyOnMaster : m'.dirtyOnMaster = m.dirtyOnMaster
  written : m'.written = m.written
  requested : m'.requested = m.requested
  received : m'.received = m.received

variable {t} in
theorem Cut.bufRows_eq {b : K ×ₗ P} {m m' : RepairMeta Row K P H} (h : t.Cut b m m') :
    m.bufRows = m'.workingRows ++ m'.bufRows := by
  rw [bufRows, h.rowBuf, map_append]
  rfl

variable {t} in
theorem le_of_mem_rdropWhile {b : K ×ₗ P} {rows : List (RepairRow Row)}
    (hsorted : (rows.map RepairRow.row).Pairwise fun r r' => t.boundary r < t.boundary r') :
    ∀ r ∈ rows.rdropWhile (fun r => decide (b < t.boundary r.row)), t.boundary r.row ≤ b := by
  intro r hr
  set kept := rows.rdropWhile fun r => decide (b < t.boundary r.row) with hkept
  have hne : kept ≠ [] := ne_nil_of_mem hr
  have hlast : ¬ b < t.boundary (kept.getLast hne).row := by
    simpa using rdropWhile_last_not _ _ hne
  have hsub : (kept.map RepairRow.row).Pairwise fun r r' => t.boundary r < t.boundary r' :=
    hsorted.sublist ((List.rdropWhile_prefix _ _).sublist.map _)
  obtain ⟨front, hfront⟩ : ∃ front, kept = front ++ [kept.getLast hne] :=
    ⟨kept.dropLast, (dropLast_append_getLast hne).symm⟩
  rw [hfront] at hr
  rcases mem_append.mp hr with hr | hr
  · rw [hfront, map_append, pairwise_append] at hsub
    have hlt := hsub.2.2 r.row (mem_map_of_mem hr) (kept.getLast hne).row (by simp)
    exact hlt.le.trans (not_lt.mp hlast)
  · obtain rfl := mem_singleton.mp hr
    exact not_lt.mp hlast

theorem moveRowBufToWorkingRowBuf_eq (b : K ×ₗ P) {m : RepairMeta Row K P H}
    (hworking : m.workingRowBuf = []) :
    t.moveRowBufToWorkingRowBuf b m =
      { m with
        rowBuf := m.rowBuf.rtakeWhile fun r => decide (b < t.boundary r.row)
        workingRowBuf := m.rowBuf.rdropWhile fun r => decide (b < t.boundary r.row) } := by
  unfold moveRowBufToWorkingRowBuf
  split
  case h_1 hlast =>
    cases m
    simp_all
  case h_2 last hlast =>
    obtain ⟨front, hfront⟩ := getLast?_eq_some_iff.mp hlast
    split
    case isTrue hle =>
      have hnot : ¬ decide (b < t.boundary last.row) = true := by simpa using hle
      have habove : (front ++ [last]).rtakeWhile (fun r => decide (b < t.boundary r.row)) = [] :=
        rtakeWhile_concat_neg _ _ _ hnot
      have hbelow : (front ++ [last]).rdropWhile (fun r => decide (b < t.boundary r.row)) =
          front ++ [last] :=
        rdropWhile_concat_neg _ _ _ hnot
      rw [hworking, hfront, habove, hbelow]
    case isFalse hle =>
      have hsplit : m.rowBuf.rdropWhile (fun r => decide (b < t.boundary r.row)) ++
          m.rowBuf.rtakeWhile (fun r => decide (b < t.boundary r.row)) = m.rowBuf :=
        rdropWhile_append_rtakeWhile
      have htake := congrArg (take (m.rowBuf.length -
        (m.rowBuf.rtakeWhile fun r => decide (b < t.boundary r.row)).length)) hsplit
      rw [take_left' (by rw [← congrArg length hsplit, length_append,
        Nat.add_sub_cancel])] at htake
      simp only [hworking, append_nil, htake]

theorem cut_requestRowHashes (b : K ×ₗ P) {m : RepairMeta Row K P H}
    (hsorted : m.bufRows.Pairwise fun r r' => t.boundary r < t.boundary r') :
    t.Cut b m (t.requestRowHashes b m).1 ∧
      (t.requestRowHashes b m).2 = t.combinedHash (t.requestRowHashes b m).1.workingRows := by
  have heq : t.requestRowHashes b m =
      ({ m with
          currentSyncBoundary := some b
          rowBuf := m.rowBuf.rtakeWhile fun r => decide (b < t.boundary r.row)
          workingRowBuf := m.rowBuf.rdropWhile fun r => decide (b < t.boundary r.row)
          workingRowBufCombinedHash := t.combinedHash
            ((m.rowBuf.rdropWhile fun r => decide (b < t.boundary r.row)).map RepairRow.row) },
        t.combinedHash
          ((m.rowBuf.rdropWhile fun r => decide (b < t.boundary r.row)).map RepairRow.row)) := by
    by_cases hempty : m.rowBuf = []
    · simp [requestRowHashes, hempty]
    · simp [requestRowHashes, hempty, moveRowBufToWorkingRowBuf_eq, workingRows]
  rw [heq]
  refine ⟨⟨rdropWhile_append_rtakeWhile.symm, ?_, ?_, rfl, rfl, rfl, rfl, rfl, rfl, rfl⟩, rfl⟩
  · intro r hr
    obtain ⟨x, hx, rfl⟩ := mem_map.mp hr
    exact le_of_mem_rdropWhile hsorted x hx
  · intro r hr
    obtain ⟨x, hx, rfl⟩ := mem_map.mp hr
    simpa using mem_rtakeWhile_imp hx

end Boundaries

section HashSets

variable [DecidableEq H]

/-- `working_row_hashes`, which also answers `get_full_row_hashes`. -/
def workingRowHashes (m : RepairMeta Row K P H) : Finset H := (m.workingRows.map t.hash).toFinset

def getSetDiff (x y : Finset H) : Finset H := x.filter fun item => item ∉ y

def getRowDiff (repairMaster : Bool) (nrPeerNodes : ℕ) (setDiff : Finset H) (needsAllRows : Bool)
    (m : RepairMeta Row K P H) : List Row × RepairMeta Row K P H :=
  if needsAllRows then
    if !repairMaster || nrPeerNodes == 1 then (m.workingRows, { m with workingRowBuf := [] })
    else (m.workingRows, m)
  else (m.workingRows.filter fun r => t.hash r ∈ setDiff, m)

end HashSets

/-! ## Applying rows -/

section Apply

variable [LinearOrder K] [LinearOrder P] [DecidableEq H]

def applyRowsOnMaster (wire : List (RowOnWire Row K)) (updatePeerRowHashSets : Bool)
    (peerRowHashSet : Finset H) (m : RepairMeta Row K P H) : RepairMeta Row K P H × Finset H :=
  if wire.isEmpty then (m, peerRowHashSet)
  else
    let rowDiff := toRepairRowsListOnMaster wire
    ({ m with
        workingRowBuf := m.workingRowBuf.merge rowDiff fun x y =>
          decide (t.boundary x.row ≤ t.boundary y.row)
        workingRowBufCombinedHash :=
          rowDiff.foldl (fun combined r => t.add combined (t.hash r.row))
            m.workingRowBufCombinedHash
        dirtyOnMaster := true
        received := m.received ++ wireRows wire },
      if updatePeerRowHashSets then (rowDiff.map fun r => t.hash r.row).toFinset
      else peerRowHashSet)

def flushRowsInWorkingRowBuf (m : RepairMeta Row K P H) : RepairMeta Row K P H :=
  if m.dirtyOnMaster then
    { m with dirtyOnMaster := false, written := m.written ++ t.flushRows m.workingRowBuf }
  else m

def applyRowsOnFollower (wire : List (RowOnWire Row K)) (m : RepairMeta Row K P H) :
    RepairMeta Row K P H :=
  if wire.isEmpty then m
  else
    { m with
      written := m.written ++ t.toRepairRowsListOnFollower wire
      received := m.received ++ wireRows wire }

end Apply

end Table

end Scylla.Repair
