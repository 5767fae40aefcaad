import Scylla.Repair.Exchange

/-!
# The rounds of a repair

A round fills the row buffers and takes the smallest of the last boundaries read; if the buffers are
the same everywhere it skips them, else every node cuts its buffer there, and unless the cut rows
are the same everywhere the master gathers them and sends each follower what it misses. The repair
is over when no node has rows left.
-/

namespace Scylla.Repair

open RepairMeta
open List

variable {Row K P H : Type}

/-- The nodes of a repair and the boundaries the master keeps. -/
structure RowLevelRepair (Row K P H : Type) where
  master : RepairMeta Row K P H
  /-- `_all_live_peer_nodes`. -/
  followers : List (RepairMeta Row K P H)
  skippedSyncBoundary : Option (K ×ₗ P)
  commonSyncBoundary : Option (K ×ₗ P)
  roundNr : ℕ

def RowLevelRepair.nodes (s : RowLevelRepair Row K P H) : List (RepairMeta Row K P H) :=
  s.master :: s.followers

/-- What a repair is run with. The answers to a parallel request arrive in any order. -/
structure Config (K P H : Type) where
  maxRowBufSize : ℕ
  maxRowBufSize_pos : 0 < maxRowBufSize
  transport : Transport
  /-- The order of arrival in each round. -/
  arrival : ℕ → List (SyncBoundaryResponse K P H) → List (SyncBoundaryResponse K P H)
  arrival_perm : ∀ n responses, (arrival n responses).Perm responses

inductive OpStatus
  | nextRound
  | nextStep
  | allDone
  deriving DecidableEq

/-- `adjacent_find` with `not_equal_to` finds nothing. -/
def allAdjacentEqual {α : Type} [DecidableEq α] : List α → Bool
  | x :: y :: rest => decide (x = y) && allAdjacentEqual (y :: rest)
  | _ => true

/-- The boundary and combined hash of a node that has rows. -/
def SyncBoundaryResponse.reported (r : SyncBoundaryResponse K P H) : Option ((K ×ₗ P) × H) :=
  if 0 < r.rowBufSize then r.boundary.map fun b => (b, r.rowBufCombinedCsum) else none

section

variable [LinearOrder K] [LinearOrder P] [DecidableEq H]

/-- `get_common_sync_boundary`: the smallest boundary, and whether all nodes are in sync. -/
def getCommonSyncBoundary (zeroRows : Bool) (syncBoundaries : List (K ×ₗ P))
    (combinedHashes : List H) : Option (K ×ₗ P) × Bool :=
  let sorted := syncBoundaries.mergeSort fun a b => decide (a ≤ b)
  (sorted.head?, allAdjacentEqual combinedHashes && allAdjacentEqual sorted && !zeroRows)

end

namespace Table

variable [LinearOrder K] [LinearOrder P] [LinearOrder H] (t : Table Row K P H)

def startRepair (master : List Row) (followers : List (List Row)) : RowLevelRepair Row K P H where
  master := RepairMeta.start t master
  followers := followers.map (RepairMeta.start t)
  skippedSyncBoundary := none
  commonSyncBoundary := none
  roundNr := 0

def negotiateSyncBoundary (c : Config K P H) (s : RowLevelRepair Row K P H) :
    RowLevelRepair Row K P H × OpStatus :=
  let master := t.getSyncBoundary c.maxRowBufSize s.skippedSyncBoundary s.master
  let followers := s.followers.map (t.getSyncBoundary c.maxRowBufSize s.skippedSyncBoundary)
  let responses := c.arrival s.roundNr (master.2 :: followers.map Prod.snd)
  let reported := responses.filterMap SyncBoundaryResponse.reported
  let zeroRows := responses.any fun r => r.reported.isNone
  let s :=
    { s with
      master := master.1, followers := followers.map Prod.fst, roundNr := s.roundNr + 1 }
  if reported.isEmpty then (s, .allDone)
  else
    let common :=
      getCommonSyncBoundary zeroRows (reported.map Prod.fst) (reported.map Prod.snd)
    if common.2 then
      ({ s with commonSyncBoundary := common.1, skippedSyncBoundary := common.1 }, .nextRound)
    else ({ s with commonSyncBoundary := common.1, skippedSyncBoundary := none }, .nextStep)

def getMissingRows (transport : Transport) : RepairMeta Row K P H → List (RepairMeta Row K P H × H) →
    Option (RepairMeta Row K P H × List (RepairMeta Row K P H × Finset H))
  | master, [] => some (master, [])
  | master, (follower, combined) :: rest => do
    let one ← t.getMissingRowsFromFollower transport combined master follower
    let others ← getMissingRows transport one.1 rest
    some (others.1, one.2 :: others.2)

def getMissingRowsFromFollowerNodes (c : Config K P H) (s : RowLevelRepair Row K P H) :
    Option (RowLevelRepair Row K P H × List (Finset H) × OpStatus) := do
  let common ← s.commonSyncBoundary
  let master := t.requestRowHashes common s.master
  let followers := s.followers.map (t.requestRowHashes common)
  if allAdjacentEqual (master.2 :: followers.map Prod.snd) then
    some ({ s with master := master.1, followers := followers.map Prod.fst }, [], .nextRound)
  else do
    let got ← t.getMissingRows c.transport master.1 followers
    some ({ s with
        master := t.flushRowsInWorkingRowBuf got.1, followers := got.2.map Prod.fst },
      got.2.map Prod.snd, .nextStep)

def putMissingRows (transport : Transport) (nrPeerNodes : ℕ) (localRowHashSets : Finset H) :
    RepairMeta Row K P H → List (RepairMeta Row K P H × Finset H) →
    Option (RepairMeta Row K P H × List (RepairMeta Row K P H))
  | master, [] => some (master, [])
  | master, (follower, peerRowHashSet) :: rest => do
    let one ← t.putRowDiff transport nrPeerNodes (getSetDiff localRowHashSets peerRowHashSet)
      (decide (peerRowHashSet = ∅)) master follower
    let others ← putMissingRows transport nrPeerNodes localRowHashSets one.1 rest
    some (others.1, one.2 :: others.2)

def sendMissingRowsToFollowerNodes (c : Config K P H) (peerRowHashSets : List (Finset H))
    (s : RowLevelRepair Row K P H) : Option (RowLevelRepair Row K P H) := do
  let sent ← t.putMissingRows c.transport s.followers.length (t.workingRowHashes s.master) s.master
    (s.followers.zip peerRowHashSets)
  some { s with master := sent.1, followers := sent.2 }

/-- The steps of a turn after the negotiation. -/
def exchangeRows (c : Config K P H) (s : RowLevelRepair Row K P H) :
    Option (RowLevelRepair Row K P H) := do
  let got ← t.getMissingRowsFromFollowerNodes c s
  if got.2.2 = .nextRound then some got.1
  else t.sendMissingRowsToFollowerNodes c got.2.1 got.1

/-- One turn of the loop of `row_level_repair::run`. -/
def round (c : Config K P H) (s : RowLevelRepair Row K P H) :
    Option (RowLevelRepair Row K P H × OpStatus) :=
  let negotiated := t.negotiateSyncBoundary c s
  match negotiated.2 with
  | .nextRound => some (negotiated.1, .nextRound)
  | .allDone => some (negotiated.1, .allDone)
  | .nextStep => (t.exchangeRows c negotiated.1).map fun s => (s, .nextRound)

def run (c : Config K P H) : ℕ → RowLevelRepair Row K P H → Option (RowLevelRepair Row K P H)
  | 0, _ => none
  | turns + 1, s => do
    let next ← t.round c s
    if next.2 = .allDone then some next.1 else run c turns next.1

theorem run_of_le (c : Config K P H) {turns turns' : ℕ} (hle : turns ≤ turns')
    {s s' : RowLevelRepair Row K P H} (hrun : t.run c turns s = some s') :
    t.run c turns' s = some s' := by
  induction turns generalizing turns' s with
  | zero => simp [run] at hrun
  | succ turns ih =>
    obtain ⟨more, rfl⟩ : ∃ more, turns' = more + 1 := ⟨turns' - 1, by omega⟩
    rw [run, Option.bind_eq_bind, Option.bind_eq_some_iff] at hrun ⊢
    obtain ⟨next, hround, hrun⟩ := hrun
    refine ⟨next, hround, ?_⟩
    split at hrun
    case isTrue hdone => rwa [if_pos hdone]
    case isFalse hdone =>
      rw [if_neg hdone]
      exact ih (by omega) hrun

end Table

/-! ## Comparing the answers -/

theorem eq_of_allAdjacentEqual {α : Type} [DecidableEq α] {l : List α}
    (hall : allAdjacentEqual l = true) {x y : α} (hx : x ∈ l) (hy : y ∈ l) : x = y := by
  have hhead : ∀ {a : α} {rest : List α}, allAdjacentEqual (a :: rest) = true →
      ∀ z ∈ a :: rest, z = a := by
    intro a rest
    induction rest generalizing a with
    | nil => simp
    | cons b rest ih =>
      intro hall z hz
      rw [allAdjacentEqual, Bool.and_eq_true, decide_eq_true_eq] at hall
      obtain ⟨rfl, hrest⟩ := hall
      rcases mem_cons.mp hz with rfl | hz
      · rfl
      · exact ih hrest z hz
  cases l with
  | nil => simp at hx
  | cons a rest => rw [hhead hall x hx, hhead hall y hy]

section

variable [LinearOrder K] [LinearOrder P] [DecidableEq H] {boundaries : List (K ×ₗ P)}

theorem getCommonSyncBoundary_min (zeroRows : Bool) (hashes : List H) (hne : boundaries ≠ []) :
    ∃ b ∈ boundaries, (getCommonSyncBoundary zeroRows boundaries hashes).1 = some b ∧
      ∀ b' ∈ boundaries, b ≤ b' := by
  set sorted := boundaries.mergeSort fun a b => decide (a ≤ b) with hsorted
  have hperm : sorted.Perm boundaries := mergeSort_perm _ _
  have hpair : sorted.Pairwise fun a b => decide (a ≤ b) = true :=
    pairwise_mergeSort (fun a b c => by simpa using le_trans)
      (fun a b => by simpa using le_total a b) boundaries
  obtain ⟨b, rest, hcons⟩ : ∃ b rest, sorted = b :: rest := by
    refine exists_cons_of_ne_nil fun hnil => hne ?_
    exact List.Perm.eq_nil (hnil ▸ hperm.symm)
  refine ⟨b, hperm.mem_iff.mp (by simp [hcons]), by
    simp only [getCommonSyncBoundary, ← hsorted, hcons, head?_cons], fun b' hb' => ?_⟩
  have hmem := hperm.mem_iff.mpr hb'
  rw [hcons] at hmem hpair
  rcases mem_cons.mp hmem with rfl | hmem
  · exact le_rfl
  · simpa using (pairwise_cons.mp hpair).1 b' hmem

theorem eq_of_getCommonSyncBoundary_synced {zeroRows : Bool}
    {hashes : List H} (hsynced : (getCommonSyncBoundary zeroRows boundaries hashes).2 = true) :
    (∀ b ∈ boundaries, ∀ b' ∈ boundaries, b = b') ∧ (∀ h ∈ hashes, ∀ h' ∈ hashes, h = h') ∧
      zeroRows = false := by
  simp only [getCommonSyncBoundary, Bool.and_eq_true, Bool.not_eq_true'] at hsynced
  obtain ⟨⟨hhashes, hboundaries⟩, hzero⟩ := hsynced
  refine ⟨fun b hb b' hb' => ?_, fun h hh h' hh' => eq_of_allAdjacentEqual hhashes hh hh', hzero⟩
  exact eq_of_allAdjacentEqual hboundaries (mem_mergeSort.mpr hb) (mem_mergeSort.mpr hb')

end

end Scylla.Repair
