import Scylla.Read.Completeness

/-!
# Retries of a reconciliation

If the replies to a command do not reconcile to what was asked for, `reconcile` sends it again with
limits extrapolated from the live rows and partitions that were left. Merging can leave more live
rows than the command allowed each replica to send, and the limits then do not grow: the read is
retried for ever. A limit is unset at the maximum of its type, and no replica has that many rows.
-/

namespace Scylla.Read

open Nat

/-- `query::max_rows`. -/
def maxRows : ℕ := 2 ^ 64 - 1

/-- `query::max_rows_if_set`. -/
def maxRowsIfSet : ℕ := 2 ^ 32 - 1

/-- `query::max_partitions`. -/
def maxPartitions : ℕ := 2 ^ 32 - 1

/-- The limits of a `read_command`. -/
@[ext] structure CommandLimits where
  rowLimit : ℕ
  partitionRowLimit : ℕ
  partitionLimit : ℕ
  deriving DecidableEq

/-- A `read_command` that can be sent. -/
structure ReadCommand extends CommandLimits where
  rowLimit_pos : 0 < rowLimit
  partitionRowLimit_pos : 0 < partitionRowLimit
  partitionLimit_pos : 0 < partitionLimit
  rowLimit_le : rowLimit ≤ maxRows
  partitionRowLimit_le : partitionRowLimit ≤ maxRows
  partitionLimit_le : partitionLimit ≤ maxPartitions

/-- The limits as a replica reads them, or with another value for a limit that is not set. -/
def ReadCommand.limits (cmd : ReadCommand) (unset : ℕ) : Limits where
  rows := cmd.rowLimit
  perPartition := (some cmd.partitionRowLimit).filter (· < unset)
  partitions := (some cmd.partitionLimit).filter (· < maxPartitions)
  rows_pos := cmd.rowLimit_pos
  perPartition_pos n hn := by
    obtain ⟨hn, -⟩ := Option.mem_filter_iff.mp hn
    exact Option.some.inj hn ▸ cmd.partitionRowLimit_pos
  partitions_pos n hn := by
    obtain ⟨hn, -⟩ := Option.mem_filter_iff.mp hn
    exact Option.some.inj hn ▸ cmd.partitionLimit_pos

namespace CommandLimits

/-- The limit to ask for when `t` was asked for and `l` were live; `t + 1` is 64 bits wide. -/
def extrapolate (t l : ℕ) : ℕ := min maxRows (if l = 0 then (t + 1) % 2 ^ 64 else t * t / l + 1)

/-- The retry when rows were bounded by the limit of a partition. -/
def raisePerPartition (cmd : CommandLimits) (live partitions : ℕ) : CommandLimits :=
  let limit := extrapolate cmd.partitionRowLimit live
  { cmd with
    partitionRowLimit := limit
    rowLimit := max cmd.rowLimit (min maxRows (limit * partitions)) }

/-- The retry when rows were bounded by the limits in total. -/
def raiseTotals (cmd : CommandLimits) (live livePartitions : ℕ) : CommandLimits :=
  { cmd with
    partitionLimit :=
      if cmd.partitionLimit ≠ maxPartitions then
        min maxPartitions (extrapolate cmd.partitionLimit livePartitions)
      else cmd.partitionLimit
    rowLimit :=
      if cmd.rowLimit ≠ maxRows then extrapolate cmd.rowLimit live else cmd.rowLimit }

end CommandLimits

/-- What the resolver reports when a retry is needed. -/
inductive Shortage where
  /-- Rows were bounded by the limit of a partition: `max_per_partition_live_count` and
  `partition_count`. -/
  | perPartition (live partitions : ℕ)
  /-- Rows were bounded in total: `total_live_count` and `live_partition_count`. -/
  | totals (live livePartitions : ℕ)
  deriving DecidableEq

/-- The limits of the next command. -/
def CommandLimits.raise (cmd : CommandLimits) : Shortage → CommandLimits
  | .perPartition live partitions => cmd.raisePerPartition live partitions
  | .totals live livePartitions => cmd.raiseTotals live livePartitions

section

variable {K P R : Type*} [LinearOrder K] [LinearOrder P] (ops : RowOps R)

/-- `register_live_count`: `_short_read_diff`, which has 32 bits, and
`_max_per_partition_live_count`. -/
def registerLiveCount (cmd : Limits) (limit : ℕ) (m : Reconciled K P R) (short : ℕ × ℕ) : ℕ × ℕ :=
  let rows := liveRowCount ops m.content
  let anyNotAtEnd := m.versions.any fun v => v.any fun p => !reachedPartitionEnd cmd p
  if anyNotAtEnd && rows < limit && short.1 < limit - rows then ((limit - rows) % 2 ^ 32, rows)
  else short

/-- `find_short_partitions`. -/
def findShortPartitions (cmd : Limits) (limit : ℕ) :
    ℕ → ℕ → List (Reconciled K P R) → ℕ × ℕ → ℕ × ℕ
  | _, _, [], short => short
  | rowsLeft, partitionsLeft, m :: rest, short =>
    let rowCount := liveRowCount ops m.content
    if rowCount < rowsLeft && 0 < partitionsLeft then
      findShortPartitions cmd limit (rowsLeft - rowCount)
        (partitionsLeft - if 0 < rowCount then 1 else 0) rest
        (registerLiveCount ops cmd limit m short)
    else short

/-- Whether a replica was stopped before the last row to be returned. -/
def anyStopped (cmd orig : Limits) (reversed : Bool) (replies : List (List (Sent K P R)))
    (rp : List (Reconciled K P R)) : Bool :=
  (lastReconciledRow reversed rp (scan ops cmd orig reversed orig.rows orig.partitions rp)).any
    fun last => !(stoppedBefore cmd reversed replies last).isEmpty

/-- Whether `reconcile` retries after `data_read_resolver::resolve`, and why. -/
def shortage [DecidableEq R] (otherDiffers : Content P R → Option (Content P R) → Bool)
    (cmd orig : ReadCommand) (reversed shortReads : Bool) (replies : List (List (Sent K P R))) :
    Option Shortage :=
  let limits := cmd.limits maxRows
  let original := orig.limits maxRowsIfSet
  let rp := reconcile ops replies
  let diff := hasDiff otherDiffers rp
  let result :=
    if diff then gotIncompleteInformation ops limits original reversed shortReads replies rp
    else some rp
  -- a single reply is returned as it is
  if replies.length = 1 then none
  else
    match result with
    | none =>
      if scan ops limits original reversed original.rows original.partitions rp = .incomplete then
        some (.perPartition 0 rp.length)
      else some (.totals (totalLiveCount ops rp) (livePartitionCount ops rp))
    | some left =>
      let short := findShortPartitions ops limits orig.partitionRowLimit orig.rowLimit
        orig.partitionLimit left (0, 0)
      let live := totalLiveCount ops left
      let isShortRead := shortReads &&
        ((diff && anyStopped ops limits original reversed replies rp) ||
          (replies.any (orig.rowLimit ≤ totalRows ·) && live < orig.rowLimit && 0 < live))
      if 0 < short.1 then some (.perPartition (short.2 % 2 ^ 32) rp.length)
      else if isShortRead || replies.all (reachedEnd limits) || orig.rowLimit ≤ live ||
          orig.partitionLimit ≤ livePartitionCount ops left then none
      else some (.totals live (livePartitionCount ops left))

variable (K) in
/-- The commands that a read sends one after the other, whatever the replies. -/
inductive Retried [DecidableEq R] (otherDiffers : Content P R → Option (Content P R) → Bool)
    (reversed : Bool) (orig : ReadCommand) : ReadCommand → Prop
  | original : Retried otherDiffers reversed orig orig
  | retry {cmd next : ReadCommand} (h : Retried otherDiffers reversed orig cmd)
      (shortReads : Bool) (replies : List (List (Sent K P R))) {why : Shortage}
      (hwhy : shortage ops otherDiffers cmd orig reversed shortReads replies = some why)
      (hnext : cmd.raise why = next.toCommandLimits) : Retried otherDiffers reversed orig next

end

/-- No limit has become smaller, and one has grown unless all of them are at their maximum. -/
structure Progress (cmd next : CommandLimits) : Prop where
  rowLimit : cmd.rowLimit ≤ next.rowLimit
  partitionRowLimit : cmd.partitionRowLimit ≤ next.partitionRowLimit
  partitionLimit : cmd.partitionLimit ≤ next.partitionLimit
  grows : next = cmd → cmd = ⟨maxRows, maxRows, maxPartitions⟩

/-- At most one row or partition more is live than was asked for, or more for the smallest limits. -/
def AboutAsMany (limit live : ℕ) : Prop :=
  live ≤ limit + 1 ∨ limit = 1 ∨ limit = 2 ∧ live = 4

/-- Merging leaves about as many live rows and partitions as the command allowed a replica, and not
more than one of the limits that are set. -/
structure WithinLimits (cmd : CommandLimits) (live livePartitions : ℕ) : Prop where
  rows : cmd.rowLimit < maxRows → AboutAsMany cmd.rowLimit live
  partitions : cmd.partitionLimit < maxPartitions → AboutAsMany cmd.partitionLimit livePartitions
  one : cmd.rowLimit < maxRows ∧ live ≤ cmd.rowLimit ∨
    cmd.partitionLimit < maxPartitions ∧ livePartitions ≤ cmd.partitionLimit ∨
    cmd = ⟨maxRows, maxRows, maxPartitions⟩

/-- The merged replies are within the limits of the command. -/
def MergedWithin {K P R : Type*} [LinearOrder K] [LinearOrder P] (ops : RowOps R)
    (cmd : ReadCommand) (replies : List (List (Sent K P R))) : Prop :=
  WithinLimits cmd.toCommandLimits (totalLiveCount ops (reconcile ops replies))
    (livePartitionCount ops (reconcile ops replies))

/-! ## Extrapolation -/

section

variable {t l : ℕ}

theorem extrapolate_eq (hmax : t < maxRows) :
    CommandLimits.extrapolate t l = min maxRows (if l = 0 then t + 1 else t * t / l + 1) := by
  have hwide : t + 1 < 2 ^ 64 := add_lt_of_lt_sub hmax
  rw [CommandLimits.extrapolate, mod_eq_of_lt hwide]

theorem aboutAsMany_iff (ht : 0 < t) : AboutAsMany t l ↔ (t - 1) * l ≤ t * t := by
  obtain ⟨s, rfl⟩ : ∃ s, t = s + 1 := ⟨t - 1, by omega⟩
  rw [AboutAsMany, Nat.add_sub_cancel]
  constructor
  · rintro (h | h | ⟨h, rfl⟩)
    · calc s * l ≤ s * (s + 1 + 1) := Nat.mul_le_mul_left s h
        _ ≤ (s + 1) * (s + 1) := by linarith
    · obtain rfl : s = 0 := by omega
      omega
    · obtain rfl : s = 1 := by omega
      decide
  · intro h
    by_contra hmore
    push Not at hmore
    obtain ⟨hl, hs, hfour⟩ := hmore
    have hmul : s * (s + 3) ≤ s * l := Nat.mul_le_mul_left s hl
    obtain rfl : s = 1 := by nlinarith [show 0 < s by omega]
    omega

theorem le_extrapolate_iff (ht : 0 < t) (hmax : t < maxRows) :
    t ≤ CommandLimits.extrapolate t l ↔ AboutAsMany t l := by
  rw [extrapolate_eq hmax, le_min_iff, and_iff_right hmax.le, aboutAsMany_iff ht]
  split
  · next hl =>
    rw [hl, mul_zero]
    exact iff_of_true (le_succ t) (zero_le _)
  · next hl => rw [← Nat.sub_le_iff_le_add, Nat.le_div_iff_mul_le (Nat.pos_of_ne_zero hl)]

theorem lt_extrapolate_iff (ht : 0 < t) (hmax : t < maxRows) :
    t < CommandLimits.extrapolate t l ↔ l ≤ t := by
  rw [extrapolate_eq hmax, lt_min_iff, and_iff_right hmax]
  split
  · next hl =>
    rw [hl]
    exact iff_of_true (lt_succ_self t) (zero_le _)
  · next hl =>
    rw [Nat.lt_succ_iff, Nat.le_div_iff_mul_le (Nat.pos_of_ne_zero hl)]
    exact Nat.mul_le_mul_left_iff ht

/-- The count `l` decides whether `raised` is at least the limit `t` and whether it is greater. -/
def Raises (t most l raised : ℕ) : Prop :=
  (t ≤ raised ↔ (t < most → AboutAsMany t l)) ∧ (t < raised ↔ t < most ∧ l ≤ t)

theorem raises_extrapolate {most : ℕ} (ht : 0 < t) (hle : t ≤ most) (hmost : most ≤ maxRows) :
    Raises t most l (if t ≠ most then min most (CommandLimits.extrapolate t l) else t) := by
  unfold Raises
  rcases hle.lt_or_eq with hmax | rfl
  · have hrows := hmax.trans_le hmost
    rw [if_pos hmax.ne, le_min_iff, lt_min_iff, le_extrapolate_iff ht hrows,
      lt_extrapolate_iff ht hrows, and_iff_right hmax.le]
    exact ⟨⟨fun h _ => h, fun h => h hmax⟩, Iff.rfl⟩
  · simp

end

namespace ReadCommand

variable (cmd : ReadCommand) (live livePartitions : ℕ)

theorem rowLimit_raiseTotals :
    Raises cmd.rowLimit maxRows live (cmd.raiseTotals live livePartitions).rowLimit := by
  have hmin : min maxRows (CommandLimits.extrapolate cmd.rowLimit live) =
      CommandLimits.extrapolate cmd.rowLimit live := min_eq_right (min_le_left _ _)
  have hraised := raises_extrapolate cmd.rowLimit_pos cmd.rowLimit_le le_rfl (l := live)
  rwa [hmin] at hraised

theorem progress_raiseTotals_iff :
    Progress cmd.toCommandLimits (cmd.raiseTotals live livePartitions) ↔
      WithinLimits cmd.toCommandLimits live livePartitions := by
  obtain ⟨hrows, hrowsLt⟩ := cmd.rowLimit_raiseTotals live livePartitions
  obtain ⟨hpartitions, hpartitionsLt⟩ : Raises _ _ livePartitions
      (cmd.raiseTotals live livePartitions).partitionLimit :=
    raises_extrapolate cmd.partitionLimit_pos cmd.partitionLimit_le (by decide)
  constructor
  · intro h
    refine ⟨hrows.mp h.rowLimit, hpartitions.mp h.partitionLimit, ?_⟩
    rw [← hrowsLt, ← hpartitionsLt]
    by_contra hnone
    push Not at hnone
    have hsame : cmd.raiseTotals live livePartitions = cmd.toCommandLimits := by
      ext
      · exact le_antisymm hnone.1 h.rowLimit
      · rfl
      · exact le_antisymm hnone.2.1 h.partitionLimit
    exact hnone.2.2 (h.grows hsame)
  · intro h
    refine ⟨hrows.mpr h.rows, le_rfl, hpartitions.mpr h.partitions, fun heq => ?_⟩
    rcases h.one with hone | hone | hmax
    · exact absurd (hrowsLt.mpr hone) (by rw [heq]; exact lt_irrefl _)
    · exact absurd (hpartitionsLt.mpr hone) (by rw [heq]; exact lt_irrefl _)
    · exact hmax

theorem progress_raisePerPartition (hmax : cmd.partitionRowLimit < maxRows)
    (hlive : live ≤ cmd.partitionRowLimit) (partitions : ℕ) :
    Progress cmd.toCommandLimits (cmd.raisePerPartition live partitions) := by
  have hlt : cmd.partitionRowLimit < (cmd.raisePerPartition live partitions).partitionRowLimit :=
    (lt_extrapolate_iff cmd.partitionRowLimit_pos hmax).mpr hlive
  exact ⟨le_max_left _ _, hlt.le, le_rfl, fun heq => absurd hlt (by rw [heq]; exact lt_irrefl _)⟩

theorem lt_of_perPartition_ne_none {unset : ℕ} (h : (cmd.limits unset).perPartition ≠ none) :
    cmd.partitionRowLimit < unset := by
  by_contra hlt
  exact h (by simp [limits, Option.filter_some, hlt])

end ReadCommand

/-! ## Partitions that are too short -/

section

variable {K P R : Type*} [LinearOrder K] [LinearOrder P] {ops : RowOps R} {cmd orig : Limits}

omit [LinearOrder K] [LinearOrder P] in
theorem perPartition_ne_none {versions : List (Option (Sent K P R))} {q : Sent K P R → Bool}
    (h : (versions.any fun v => v.any fun p => !reachedPartitionEnd cmd p && q p) = true) :
    cmd.perPartition ≠ none := by
  obtain ⟨v, -, hv⟩ := List.any_eq_true.mp h
  obtain ⟨p, -, hp⟩ := (Option.any_eq_true _ _).mp hv
  intro hnone
  simp [reachedPartitionEnd, hnone] at hp

omit [LinearOrder K] in
theorem scan_incomplete {reversed : Bool} {rowsLeft : ℕ} {partitionsLeft : Option ℕ}
    {rp : List (Reconciled K P R)}
    (h : scan ops cmd orig reversed rowsLeft partitionsLeft rp = .incomplete) :
    cmd.perPartition ≠ none := by
  fun_induction scan ops cmd orig reversed rowsLeft partitionsLeft rp with
  | case1 => cases h
  | case2 rowsLeft partitionsLeft m rest rowCount live hleft incomplete hincomplete =>
    obtain ⟨n, -, hn⟩ := (Option.any_eq_true _ _).mp hincomplete
    exact perPartition_ne_none hn
  | case3 rowsLeft partitionsLeft m rest rowCount live hleft incomplete hincomplete ih => exact ih h
  | case4 => cases h

section

omit [LinearOrder K] [LinearOrder P]

theorem registerLiveCount_spec (ops : RowOps R) (cmd : Limits) {limit : ℕ} {short : ℕ × ℕ}
    (m : Reconciled K P R) (hlive : short.2 < limit)
    (hshort : 0 < short.1 → cmd.perPartition ≠ none) :
    (registerLiveCount ops cmd limit m short).2 < limit ∧
      (0 < (registerLiveCount ops cmd limit m short).1 → cmd.perPartition ≠ none) := by
  unfold registerLiveCount
  dsimp only
  split
  · next h =>
    simp only [Bool.and_eq_true, decide_eq_true_eq] at h
    obtain ⟨⟨hany, hrows⟩, -⟩ := h
    have hstopped : (m.versions.any fun v => v.any fun p =>
        !reachedPartitionEnd cmd p && true) = true := by simpa using hany
    exact ⟨hrows, fun _ => perPartition_ne_none hstopped⟩
  · exact ⟨hlive, hshort⟩

theorem findShortPartitions_spec (ops : RowOps R) (cmd : Limits) {limit : ℕ}
    (rowsLeft partitionsLeft : ℕ) (short : ℕ × ℕ) (rp : List (Reconciled K P R))
    (hlive : short.2 < limit) (hshort : 0 < short.1 → cmd.perPartition ≠ none) :
    (findShortPartitions ops cmd limit rowsLeft partitionsLeft rp short).2 < limit ∧
      (0 < (findShortPartitions ops cmd limit rowsLeft partitionsLeft rp short).1 →
        cmd.perPartition ≠ none) := by
  fun_induction findShortPartitions ops cmd limit rowsLeft partitionsLeft rp short with
  | case1 => exact ⟨hlive, hshort⟩
  | case2 rowsLeft partitionsLeft m rest short rowCount hleft ih =>
    obtain ⟨hlive', hshort'⟩ := registerLiveCount_spec ops cmd m hlive hshort
    exact ih hlive' hshort'
  | case3 => exact ⟨hlive, hshort⟩

end

variable {reversed shortReads : Bool} {replies : List (List (Sent K P R))}

/-- Where information is found missing across partitions, a replica was stopped. -/
theorem exists_not_reachedEnd {rp : List (Reconciled K P R)}
    (h : gotIncompleteInformation ops cmd orig reversed shortReads replies rp = none)
    (hscan : scan ops cmd orig reversed orig.rows orig.partitions rp ≠ .incomplete) :
    ∃ reply ∈ replies, reachedEnd cmd reply = false := by
  by_contra hall
  push Not at hall
  have hstopped (last : K × Option P) : stoppedBefore cmd reversed replies last = [] := by
    rw [stoppedBefore, List.filter_eq_nil_iff.mpr, List.filterMap_nil]
    simpa using hall
  unfold gotIncompleteInformation at h
  simp only [if_neg hscan, hstopped, shortestRead] at h
  split at h <;> cases h

variable [DecidableEq R] {otherDiffers : Content P R → Option (Content P R) → Bool}

/-- A retry because of the limit of a partition is asked for where one is set, and the live rows
that it reports are fewer than the original limit. Otherwise those of all merged replies are
reported, and a replica was stopped. -/
def Shortage.Reported (ops : RowOps R) (cmd orig : ReadCommand)
    (replies : List (List (Sent K P R))) : Shortage → Prop
  | .perPartition live _ => cmd.partitionRowLimit < maxRows ∧ live < orig.partitionRowLimit
  | .totals live livePartitions => live = totalLiveCount ops (reconcile ops replies) ∧
      livePartitions = livePartitionCount ops (reconcile ops replies) ∧
      ∃ reply ∈ replies, reachedEnd (cmd.limits maxRows) reply = false

theorem shortage_spec {cmd orig : ReadCommand} {why : Shortage}
    (h : shortage ops otherDiffers cmd orig reversed shortReads replies = some why) :
    why.Reported ops cmd orig replies := by
  unfold shortage at h
  dsimp only at h
  obtain ⟨-, h⟩ := Option.ite_none_left_eq_some.mp h
  split at h
  next hnone =>
    split at h
    next hscan =>
      cases h
      exact ⟨cmd.lt_of_perPartition_ne_none (scan_incomplete hscan), orig.partitionRowLimit_pos⟩
    next hscan =>
      cases h
      refine ⟨rfl, rfl, ?_⟩
      split at hnone
      · exact exists_not_reachedEnd hnone hscan
      · cases hnone
  next left hleft =>
    obtain ⟨hlive, hset⟩ := findShortPartitions_spec ops (cmd.limits maxRows) orig.rowLimit
      orig.partitionLimit (0, 0) left orig.partitionRowLimit_pos fun h => absurd h (lt_irrefl 0)
    split at h
    next hshort =>
      cases h
      exact ⟨cmd.lt_of_perPartition_ne_none (hset hshort), (mod_le _ _).trans_lt hlive⟩
    next =>
      obtain ⟨hnot, h⟩ := Option.ite_none_left_eq_some.mp h
      cases h
      have hstopped : ∃ reply ∈ replies, reachedEnd (cmd.limits maxRows) reply = false := by
        simp only [Bool.or_eq_true, not_or] at hnot
        simpa using hnot.1.1.2
      suffices hall : left = reconcile ops replies by rw [hall]; exact ⟨rfl, rfl, hstopped⟩
      split at hleft
      next hdiff =>
        obtain ⟨-, ⟨hall, -⟩ | ⟨last, hlast, s, hs, hshort, -⟩⟩ :=
          gotIncompleteInformation_eq_some hleft
        · exact hall
        · have hne : stoppedBefore (cmd.limits maxRows) reversed replies last ≠ [] := by
            rintro hnil
            rw [hnil] at hs
            cases hs
          refine absurd ?_ hnot
          simp [hshort, hdiff, anyStopped, Option.mem_def.mp hlast, hne]
      next => exact (Option.some.inj hleft).symm

theorem Retried.partitionRowLimit_le {cmd orig : ReadCommand}
    (h : Retried K ops otherDiffers reversed orig cmd) :
    orig.partitionRowLimit ≤ cmd.partitionRowLimit := by
  induction h with
  | original => exact le_rfl
  | @retry cmd next h shortReads replies why hwhy hnext ih =>
    cases why with
    | totals live livePartitions =>
      have hsame : (cmd.raiseTotals live livePartitions).partitionRowLimit =
          next.partitionRowLimit := congrArg CommandLimits.partitionRowLimit hnext
      exact ih.trans_eq hsame
    | perPartition live partitions =>
      obtain ⟨hmax, hlive⟩ := shortage_spec hwhy
      have hprogress := cmd.progress_raisePerPartition live hmax (hlive.le.trans ih) partitions
      exact ih.trans (hprogress.partitionRowLimit.trans_eq
        (congrArg CommandLimits.partitionRowLimit hnext))

/-- A retry makes progress if the merged replies are within the limits of the command, and only then
if no limit on the rows of a partition is set. -/
theorem Retried.progress {cmd orig : ReadCommand}
    (h : Retried K ops otherDiffers reversed orig cmd) {why : Shortage}
    (hwhy : shortage ops otherDiffers cmd orig reversed shortReads replies = some why) :
    (MergedWithin ops cmd replies → Progress cmd.toCommandLimits (cmd.raise why)) ∧
      (cmd.partitionRowLimit = maxRows → Progress cmd.toCommandLimits (cmd.raise why) →
        MergedWithin ops cmd replies) := by
  cases why with
  | totals live livePartitions =>
    obtain ⟨rfl, rfl, -⟩ := shortage_spec hwhy
    have hiff := cmd.progress_raiseTotals_iff (totalLiveCount ops (reconcile ops replies))
      (livePartitionCount ops (reconcile ops replies))
    exact ⟨hiff.mpr, fun _ => hiff.mp⟩
  | perPartition live partitions =>
    obtain ⟨hmax, hlive⟩ := shortage_spec hwhy
    have hle := hlive.le.trans h.partitionRowLimit_le
    exact ⟨fun _ => cmd.progress_raisePerPartition live hmax hle partitions,
      fun hunset => absurd hunset hmax.ne⟩

/-! ## Runs -/

end

namespace Incomplete

end Incomplete

end Scylla.Read
