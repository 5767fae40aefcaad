import Mathlib

/-!
# The group 0 state machine

Commands of group 0 carry the state id that they produce and, if they are guarded, the one that
their creator observed. `apply` skips a guarded command whose observed state id is not the last one,
merges the others into batches and writes each batch to the tables, the change first and the history
of state ids after it.
-/

namespace Scylla.Group0

open List
open Nat

/-! ## State ids -/

structure UUID where
  timestamp : ℕ
  leastSigBits : BitVec 64
  deriving DecidableEq

namespace UUID

def null : UUID := ⟨0, 0⟩

def compareKey (u : UUID) : ℕ ×ₗ ℕ :=
  toLex (u.timestamp, (u.leastSigBits ^^^ 0x8080808080808080#64).toNat)

theorem compareKey_injective : Function.Injective compareKey := by
  rintro ⟨t, l⟩ ⟨t', l'⟩ h
  obtain ⟨rfl, hbits⟩ := Prod.mk.inj (toLex.injective h)
  have hxor : l ^^^ 0x8080808080808080#64 = l' ^^^ 0x8080808080808080#64 :=
    BitVec.eq_of_toNat_eq hbits
  have hl : l = l' := by
    have h := congrArg (· ^^^ 0x8080808080808080#64) hxor
    simpa [BitVec.xor_assoc] using h
  rw [hl]

/-- The order of `timeuuid_tri_compare`, which is that of the clustering keys of the history. -/
instance : LinearOrder UUID := LinearOrder.lift' compareKey compareKey_injective

/-- `START_EPOCH`, from 1582 to 1970, in units of 100 ns. -/
def startEpoch : ℕ := 122192928000000000

def microsTimestamp (u : UUID) : ℕ := (u.timestamp - startEpoch) / 10

def getRandomTimeUUIDFromMicros (micros : ℕ) (random : BitVec 64) : UUID :=
  ⟨micros * 10 + startEpoch, random⟩

/-- `min_time_UUID`; `MIN_CLOCK_SEQ_AND_NODE` is the least in the order of the comparison. -/
def minTimeUUID (micros : ℕ) : UUID := ⟨micros * 10 + startEpoch, 0x8080808080808080#64⟩

theorem lt_iff (u v : UUID) : u < v ↔ u.compareKey < v.compareKey := Iff.rfl

variable {u v : UUID}

theorem lt_of_timestamp_lt (h : u.timestamp < v.timestamp) : u < v :=
  (lt_iff u v).mpr (Prod.Lex.toLex_lt_toLex.mpr (.inl h))

theorem timestamp_le_of_le (h : u ≤ v) : u.timestamp ≤ v.timestamp := by
  by_contra hlt
  exact absurd h (not_le.mpr (lt_of_timestamp_lt (not_le.mp hlt)))

theorem microsTimestamp_mono (h : u ≤ v) : u.microsTimestamp ≤ v.microsTimestamp :=
  Nat.div_le_div_right (Nat.sub_le_sub_right (timestamp_le_of_le h) _)

theorem lt_of_microsTimestamp_lt (h : u.microsTimestamp < v.microsTimestamp) : u < v := by
  by_contra hle
  exact absurd (microsTimestamp_mono (not_lt.mp hle)) (not_le.mpr h)

@[simp]
theorem microsTimestamp_getRandomTimeUUIDFromMicros (micros : ℕ) (random : BitVec 64) :
    (getRandomTimeUUIDFromMicros micros random).microsTimestamp = micros := by
  simp [getRandomTimeUUIDFromMicros, microsTimestamp]

theorem null_lt_getRandomTimeUUIDFromMicros (micros : ℕ) (random : BitVec 64) :
    null < getRandomTimeUUIDFromMicros micros random :=
  lt_of_timestamp_lt (by simp [null, getRandomTimeUUIDFromMicros, startEpoch])

theorem lt_minTimeUUID_iff {micros : ℕ} :
    u < minTimeUUID micros ↔ u.timestamp < micros * 10 + startEpoch := by
  rw [lt_iff]
  simp [compareKey, minTimeUUID, Prod.Lex.toLex_lt_toLex]

end UUID

/-! ## The history -/

/-- A row of the history together with the deletion of the rows before it. -/
structure HistoryMutation where
  stateId : UUID
  tombUpperBound : Option UUID
  deriving DecidableEq

def makeGroup0HistoryStateIdMutation (stateId : UUID) (gcOlderThan : Option ℕ) :
    Option HistoryMutation :=
  match gcOlderThan with
  | none => some ⟨stateId, none⟩
  | some micros =>
    if micros < stateId.microsTimestamp then
      some ⟨stateId, some (UUID.minTimeUUID (stateId.microsTimestamp - micros))⟩
    else none

/-- The deletion covers the row of the state id. -/
def HistoryMutation.Deletes (m : HistoryMutation) (id : UUID) : Prop :=
  (∃ bound ∈ m.tombUpperBound, id < bound) ∧ id.microsTimestamp ≤ m.stateId.microsTimestamp

instance (m : HistoryMutation) (id : UUID) : Decidable (m.Deletes id) :=
  inferInstanceAs (Decidable (_ ∧ _))

/-- The history table, as the mutations that were merged into it. -/
abbrev History := Finset HistoryMutation

/-- The rows that a read of the history returns. -/
def History.rows (h : History) : Finset UUID :=
  (h.image HistoryMutation.stateId).filter fun id => ∀ m ∈ h, ¬m.Deletes id

def History.getLastGroup0StateId (h : History) : UUID := h.rows.max.unbotD UUID.null

def History.group0HistoryContains (h : History) (id : UUID) : Bool := decide (id ∈ h.rows)

/-! ## Commands -/

/-- The alternatives of `group0_command::change`. -/
inductive ChangeKind where
  | schemaChange
  | broadcastTableQuery
  | topologyChange
  | writeMutations
  | mixedChange
  deriving DecidableEq

/-- A change, with the size of the representation of its mutations. -/
structure Change where
  kind : ChangeKind
  mutationsSize : ℕ
  deriving DecidableEq

structure Group0Command where
  change : Change
  historyAppend : HistoryMutation
  prevStateId : Option UUID
  newStateId : UUID
  deriving DecidableEq

def cmdSize (cmd : Group0Command) : ℕ :=
  if cmd.change.kind = .broadcastTableQuery then 0 else cmd.change.mutationsSize

def Group0Command.takesEffect (cmd : Group0Command) (last : UUID) : Bool :=
  match cmd.prevStateId with
  | some prev => decide (prev = last)
  | none => true

/-! ## Merging and applying -/

abbrev Entry := Group0Command × ℕ

/-- What `merge` hands over to be written. -/
structure Batch where
  commands : List Entry
  history : History

structure Merger where
  cmdToMerge : List Entry
  mergedHistoryMutation : History
  lastGroup0StateId : UUID
  size : ℕ

namespace Merger

def canMerge (maxCommandSize : ℕ) (m : Merger) (cmd : Group0Command) (s : ℕ) : Bool :=
  (match m.cmdToMerge with
    | [] => true
    | first :: _ =>
      first.1.change.kind = cmd.change.kind && cmd.change.kind ≠ .broadcastTableQuery) &&
  !(m.size ≠ 0 && m.size + s > maxCommandSize)

def add (m : Merger) (e : Entry) (addedSize : ℕ) : Merger where
  cmdToMerge := m.cmdToMerge ++ [e]
  mergedHistoryMutation := insert e.1.historyAppend m.mergedHistoryMutation
  lastGroup0StateId :=
    if m.lastGroup0StateId < e.1.newStateId then e.1.newStateId else m.lastGroup0StateId
  size := m.size + addedSize

/-- `group0_state_machine_merger::merge`; the size is not reset. -/
def merge (m : Merger) : Batch × Merger :=
  (⟨m.cmdToMerge, m.mergedHistoryMutation⟩,
    { m with cmdToMerge := [], mergedHistoryMutation := ∅ })

end Merger

/-- The loop of `group0_state_machine::apply`: the batches as given to `merge_and_apply`. -/
def applyLoop (maxCommandSize : ℕ) : Merger → List Entry → List Batch
  | m, [] => if m.cmdToMerge.isEmpty then [] else [m.merge.1]
  | m, e :: es =>
    if e.1.takesEffect m.lastGroup0StateId then
      if m.canMerge maxCommandSize e.1 (cmdSize e.1) then
        applyLoop maxCommandSize (m.add e (cmdSize e.1)) es
      else m.merge.1 :: applyLoop maxCommandSize (m.merge.2.add e (cmdSize e.1)) es
    else applyLoop maxCommandSize m es

structure Tables where
  written : Finset ℕ
  history : History

namespace Tables

/-- `merge_and_apply`: the change is written before the history. -/
def mergeAndApply (t : Tables) (b : Batch) : Tables :=
  ⟨t.written ∪ (b.commands.map Prod.snd).toFinset, t.history ∪ b.history⟩

def batches (t : Tables) (maxCommandSize : ℕ) (entries : List Entry) : List Batch :=
  applyLoop maxCommandSize ⟨[], ∅, t.history.getLastGroup0StateId, 0⟩ entries

def apply (t : Tables) (maxCommandSize : ℕ) (entries : List Entry) : Tables :=
  (t.batches maxCommandSize entries).foldl mergeAndApply t

def applyUntil (t : Tables) (maxCommandSize : ℕ) (entries : List Entry) (count : ℕ)
    (part : Finset ℕ) : Tables :=
  let done := ((t.batches maxCommandSize entries).take count).foldl mergeAndApply t
  match (t.batches maxCommandSize entries)[count]? with
  | some next =>
    { done with written := done.written ∪ (next.commands.map Prod.snd).toFinset ∩ part }
  | none => done

end Tables

/-! ## What is applied does not depend on the batches -/

def taken : UUID → List Entry → List Entry
  | _, [] => []
  | last, e :: es =>
    if e.1.takesEffect last then e :: taken (max last e.1.newStateId) es else taken last es

theorem Merger.add_lastGroup0StateId (m : Merger) (e : Entry) (n : ℕ) :
    (m.add e n).lastGroup0StateId = max m.lastGroup0StateId e.1.newStateId := by
  change (if _ < _ then _ else _) = _
  split
  · next h => exact (max_eq_right h.le).symm
  · next h => exact (max_eq_left (not_lt.mp h)).symm

theorem flatMap_applyLoop (maxCommandSize : ℕ) (m : Merger) (es : List Entry) :
    (applyLoop maxCommandSize m es).flatMap Batch.commands =
      m.cmdToMerge ++ taken m.lastGroup0StateId es := by
  induction es generalizing m with
  | nil =>
    rw [applyLoop, taken, append_nil]
    split
    · next h => rw [isEmpty_iff.mp h]; rfl
    · simp [Merger.merge]
  | cons e es ih =>
    rw [applyLoop, taken]
    split
    · split
      · rw [ih, Merger.add_lastGroup0StateId]
        simp [Merger.add]
      · rw [flatMap_cons, ih, Merger.add_lastGroup0StateId]
        simp [Merger.add, Merger.merge]
    · exact ih m

/-- The merged history mutation is that of the merged commands. -/
def Batch.Complete (b : Batch) : Prop :=
  ∀ h, h ∈ b.history ↔ ∃ e ∈ b.commands, e.1.historyAppend = h

theorem Batch.Complete.add {m : Merger} (h : m.merge.1.Complete) (e : Entry) (n : ℕ) :
    (m.add e n).merge.1.Complete := by
  intro hm
  change hm ∈ insert _ _ ↔ ∃ e' ∈ m.cmdToMerge ++ [e], _
  have hmem := h hm
  change hm ∈ m.mergedHistoryMutation ↔ ∃ e' ∈ m.cmdToMerge, _ at hmem
  simp only [Finset.mem_insert, hmem, mem_append, mem_singleton, or_and_right,
    exists_or, exists_eq_left]
  rw [or_comm, eq_comm]

variable {maxCommandSize : ℕ}

theorem complete_of_mem_applyLoop {m : Merger} (hm : m.merge.1.Complete) (es : List Entry) :
    ∀ b ∈ applyLoop maxCommandSize m es, b.Complete := by
  induction es generalizing m with
  | nil =>
    intro b hb
    rw [applyLoop] at hb
    split at hb
    · cases hb
    · rw [mem_singleton.mp hb]
      exact hm
  | cons e es ih =>
    intro b hb
    rw [applyLoop] at hb
    split at hb
    · split at hb
      · exact ih (hm.add e _) b hb
      · rcases mem_cons.mp hb with rfl | hb
        · exact hm
        · have hmerged : m.merge.2.merge.1.Complete := fun h => by simp [Merger.merge]
          exact ih (hmerged.add e _) b hb
    · exact ih hm b hb

theorem Tables.complete_of_mem_batches {t : Tables} {es : List Entry} :
    ∀ b ∈ t.batches maxCommandSize es, b.Complete :=
  complete_of_mem_applyLoop (by intro h; simp [Merger.merge]) es

theorem Tables.flatMap_batches (t : Tables) (maxCommandSize : ℕ) (es : List Entry) :
    (t.batches maxCommandSize es).flatMap Batch.commands =
      taken t.history.getLastGroup0StateId es :=
  flatMap_applyLoop maxCommandSize _ es

/-- The tables after the commands of some entries were written with their history. -/
structure Tables.Wrote (t : Tables) (es : List Entry) (t' : Tables) : Prop where
  written : ∀ i, i ∈ t'.written ↔ i ∈ t.written ∨ ∃ e ∈ es, e.2 = i
  history : ∀ h, h ∈ t'.history ↔ h ∈ t.history ∨ ∃ e ∈ es, e.1.historyAppend = h

theorem Tables.wrote_foldl (t : Tables) {bs : List Batch} (hbs : ∀ b ∈ bs, b.Complete) :
    t.Wrote (bs.flatMap Batch.commands) (bs.foldl mergeAndApply t) := by
  induction bs generalizing t with
  | nil => exact ⟨by simp, by simp⟩
  | cons b bs ih =>
    have hrest := ih (t.mergeAndApply b) fun b' hb' => hbs b' (mem_cons_of_mem b hb')
    have hb := hbs b mem_cons_self
    constructor
    · intro i
      rw [foldl_cons, hrest.written]
      simp [mergeAndApply, or_and_right, exists_or, or_assoc]
    · intro h
      rw [foldl_cons, hrest.history]
      simp [mergeAndApply, hb h, or_and_right, exists_or, or_assoc]

theorem exists_taken_eq_of_prefix {l : List Entry} {last : UUID} {es : List Entry}
    (h : l <+: taken last es) : ∃ n ≤ es.length, l = taken last (es.take n) := by
  induction es generalizing last l with
  | nil => exact ⟨0, le_rfl, prefix_nil.mp h⟩
  | cons e es ih =>
    rw [taken] at h
    split at h
    · next heffect =>
      rcases prefix_cons_iff.mp h with rfl | ⟨l', rfl, hl'⟩
      · exact ⟨0, zero_le _, rfl⟩
      · obtain ⟨n, hn, rfl⟩ := ih hl'
        refine ⟨n + 1, succ_le_succ hn, ?_⟩
        rw [take_succ_cons, taken, if_pos heffect]
    · next heffect =>
      obtain ⟨n, hn, rfl⟩ := ih h
      refine ⟨n + 1, succ_le_succ hn, ?_⟩
      rw [take_succ_cons, taken, if_neg heffect]

section

variable (t : Tables) (maxCommandSize : ℕ) (es : List Entry)

theorem Tables.wrote_apply :
    t.Wrote (taken t.history.getLastGroup0StateId es) (t.apply maxCommandSize es) := by
  rw [← t.flatMap_batches maxCommandSize es]
  exact t.wrote_foldl complete_of_mem_batches

theorem Tables.exists_wrote_applyUntil (count : ℕ) (part : Finset ℕ) :
    ∃ n ≤ es.length, ∃ t', t.Wrote (taken t.history.getLastGroup0StateId (es.take n)) t' ∧
      (t.applyUntil maxCommandSize es count part).history = t'.history ∧
      t'.written ⊆ (t.applyUntil maxCommandSize es count part).written ∧
      ∀ i ∈ (t.applyUntil maxCommandSize es count part).written, i ∈ t'.written ∨
        ∃ e ∈ taken t.history.getLastGroup0StateId es, e.2 = i := by
  have hflat := t.flatMap_batches maxCommandSize es
  have hprefix : ((t.batches maxCommandSize es).take count).flatMap Batch.commands <+:
      taken t.history.getLastGroup0StateId es := by
    rw [← hflat]
    nth_rewrite 2 [← take_append_drop count (t.batches maxCommandSize es)]
    rw [flatMap_append]
    exact prefix_append _ _
  obtain ⟨n, hn, htaken⟩ := exists_taken_eq_of_prefix hprefix
  have hcomplete : ∀ b ∈ (t.batches maxCommandSize es).take count, b.Complete :=
    fun b hb => complete_of_mem_batches b (mem_of_mem_take hb)
  have hwrote := t.wrote_foldl hcomplete
  rw [htaken] at hwrote
  refine ⟨n, hn, _, hwrote, ?_⟩
  rw [applyUntil]
  split
  · next next hnext =>
    refine ⟨rfl, Finset.subset_union_left, fun i hi => ?_⟩
    refine (Finset.mem_union.mp hi).imp id fun hi => ?_
    obtain ⟨e, he, rfl⟩ := mem_map.mp (mem_toFinset.mp (Finset.mem_inter.mp hi).1)
    refine ⟨e, ?_, rfl⟩
    rw [← hflat]
    exact mem_flatMap.mpr ⟨next, mem_of_getElem? hnext, he⟩
  · exact ⟨rfl, subset_rfl, fun i hi => .inl hi⟩

end

end Scylla.Group0
