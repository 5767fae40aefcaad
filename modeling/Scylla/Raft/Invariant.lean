import Scylla.Raft.Growth

/-!
# Invariants of one server

The indexes of a server are ordered: the snapshot before what is committed, that within the log, and
what was handed out before both. A snapshot past what was handed out is one of another server, and
waits for the next output. As long as requests do not replace committed entries, every operation
keeps this order.
-/

namespace Scylla.Raft

open List
open Option
open Nat

namespace Log

variable {l l' : Log}

theorem Valid.emplaceBack (h : l.Valid) {e : LogEntry} (he : e.idx = l.nextIdx) :
    (l.emplaceBack e).Valid where
  idx_eq n e' hn := by
    rw [entries_emplaceBack, List.getElem?_append] at hn
    rw [firstIdx_emplaceBack]
    split at hn
    · exact h.idx_eq n e' hn
    · obtain ⟨hlt, rfl⟩ := List.getElem?_eq_some_iff.mp hn
      rw [length_singleton] at hlt
      rw [getElem_singleton, he, nextIdx_eq h.firstIdx_pos]
      omega
  firstIdx_pos := by simpa using h.firstIdx_pos
  firstIdx_le := by simpa using h.firstIdx_le
  snapshot_le := by simpa using h.snapshot_le
  stable_le := by
    rw [stableIdx_emplaceBack, lastIdx_emplaceBack h.firstIdx_pos]
    exact h.stable_le.trans (le_succ _)

theorem Valid.pushed (h : l.Valid) (hp : l.Pushed l') : l'.Valid := by
  induction hp with
  | refl => exact h
  | push _ he ih => exact ih.emplaceBack he

variable {i bound : ℕ} {es : List LogEntry}

theorem Valid.truncateUncommitted (h : l.Valid) (hsnap : l.snapshot.idx < i)
    (hlast : i ≤ l.nextIdx) : (l.truncateUncommitted i).Valid := by
  have hfirst : l.firstIdx ≤ i := by
    have := h.firstIdx_le
    omega
  have hlastIdx := lastIdx_truncateUncommitted h.firstIdx_pos hfirst hlast
  have hstable := stableIdx_truncateUncommitted h.firstIdx_pos hfirst hlast
  have hle := h.snapshot_le
  refine ⟨fun n e hn => ?_, ?_, ?_, ?_, ?_⟩
  · rw [entries_truncateUncommitted, List.getElem?_take] at hn
    rw [firstIdx_truncateUncommitted]
    exact h.idx_eq n e (ite_none_right_eq_some.mp hn).2
  · simpa using h.firstIdx_pos
  · simpa using h.firstIdx_le
  · rw [snapshot_truncateUncommitted, hstable]
    omega
  · rw [hstable, hlastIdx]
    exact min_le_right _ _

theorem Valid.extended (h : l.Valid) (he : l.Extended bound l') : l'.Valid := by
  cases he with
  | pushed hp => exact h.pushed hp
  | replaced hbound hsnap hfirst hlast hp =>
    have hnext := hlast.trans (le_succ l.lastIdx)
    have hidx := nextIdx_truncateUncommitted h.firstIdx_pos hfirst hnext
    exact ((h.truncateUncommitted hsnap hnext).emplaceBack hidx.symm).pushed hp

section

variable (h : l.Extended bound l')

include h

theorem Extended.snapshot_eq : l'.snapshot = l.snapshot := by
  cases h with
  | pushed hp => exact hp.snapshot_eq
  | replaced _ _ _ _ hp =>
    rw [hp.snapshot_eq, snapshot_emplaceBack, snapshot_truncateUncommitted]

theorem Extended.firstIdx_eq : l'.firstIdx = l.firstIdx := by
  cases h with
  | pushed hp => exact hp.firstIdx_eq
  | replaced _ _ _ _ hp =>
    rw [hp.firstIdx_eq, firstIdx_emplaceBack, firstIdx_truncateUncommitted]

theorem Extended.le_lastIdx (hpos : 0 < l.firstIdx) (hi : i ≤ bound) (hi' : i ≤ l.lastIdx) :
    i ≤ l'.lastIdx := by
  cases h with
  | pushed hp => exact hi'.trans (hp.lastIdx_le hpos)
  | replaced hbound _ hfirst hlast hp =>
    have hpos' (j : ℕ) : 0 < (l.truncateUncommitted j).firstIdx :=
      (firstIdx_truncateUncommitted l j).symm ▸ hpos
    have hle := hp.lastIdx_le ((firstIdx_emplaceBack _ _).symm ▸ hpos' _)
    rw [lastIdx_emplaceBack (hpos' _),
      lastIdx_truncateUncommitted hpos hfirst (hlast.trans (le_succ _))] at hle
    omega

theorem Extended.le_stableIdx (hpos : 0 < l.firstIdx) (hi : i ≤ bound) (hi' : i ≤ l.stableIdx) :
    i ≤ l'.stableIdx := by
  cases h with
  | pushed hp => rwa [hp.stableIdx_eq]
  | replaced hbound _ hfirst hlast hp =>
    rw [hp.stableIdx_eq, stableIdx_emplaceBack,
      stableIdx_truncateUncommitted hpos hfirst (hlast.trans (le_succ _))]
    omega

end

theorem Pushed.mem_or_lt (h : l.Pushed l') (hpos : 0 < l.firstIdx) {e : LogEntry}
    (he : e ∈ l'.entries) : e ∈ l.entries ∨ l.lastIdx < e.idx := by
  induction h with
  | refl => exact .inl he
  | @push l' e' h hidx ih =>
    rw [entries_emplaceBack, mem_append, mem_singleton] at he
    rcases he with he | rfl
    · exact ih he
    · exact .inr (hidx ▸ lt_succ_of_le (h.lastIdx_le hpos))

theorem Extended.mem_of_le (h : l.Extended bound l') (hpos : 0 < l.firstIdx)
    (hbound : bound ≤ l.lastIdx) {e : LogEntry} (he : e ∈ l'.entries) (hle : e.idx ≤ bound) :
    e ∈ l.entries := by
  cases h with
  | pushed hp => exact (hp.mem_or_lt hpos he).resolve_right (hle.trans hbound).not_gt
  | replaced hlt _ hfirst hlast hp =>
    have hlast' := lastIdx_truncateUncommitted hpos hfirst (hlast.trans (le_succ _))
    rw [← firstIdx_truncateUncommitted] at hpos
    rcases hp.mem_or_lt (by rwa [firstIdx_emplaceBack]) he with he | hgt
    · rw [entries_emplaceBack, entries_truncateUncommitted, mem_append, mem_singleton] at he
      rcases he with he | rfl
      · exact mem_of_mem_take he
      · exact absurd hle hlt.not_ge
    · rw [lastIdx_emplaceBack hpos, hlast'] at hgt
      omega

/-! ## Snapshots -/

section

variable (usage : LogEntry → ℕ)

include usage

theorem entriesToRemove_le (maxBytes n bytes : ℕ) (es : List LogEntry) :
    entriesToRemove usage maxBytes n bytes es ≤ es.length := by
  induction es generalizing n bytes with
  | nil => cases n <;> exact le_rfl
  | cons e es ih =>
    cases n with
    | zero => exact le_rfl
    | succ n =>
      rw [entriesToRemove]
      split
      · exact le_rfl
      · exact (ih _ _).trans (le_succ _)

theorem dropCovered_spec (h : l.Valid) {idx : ℕ} (hsnap : l.snapshot.idx < idx) (n bytes : ℕ) :
    (l.dropCovered usage idx n bytes).firstIdx ≤ idx + 1 ∧
      l.firstIdx ≤ (l.dropCovered usage idx n bytes).firstIdx ∧
      (l.dropCovered usage idx n bytes).entries =
        l.entries.drop ((l.dropCovered usage idx n bytes).firstIdx - l.firstIdx) ∧
      (l.dropCovered usage idx n bytes).lastIdx = max l.lastIdx idx ∧
      (n = 0 → (l.dropCovered usage idx n bytes).firstIdx = idx + 1) := by
  have hfirst := h.firstIdx_le
  have hlast : l.lastIdx = l.entries.length + l.firstIdx - 1 := rfl
  unfold dropCovered
  split
  next hlt =>
    refine ⟨le_rfl, by dsimp only; omega, ?_, ?_, fun _ => rfl⟩
    · rw [drop_eq_nil_of_le (by dsimp only; omega)]
    · unfold lastIdx
      dsimp only [length_nil]
      omega
  next hge =>
    dsimp only
    generalize hcovered : (l.entries.take (l.entries.length - (l.lastIdx - idx))).reverse = covered
    have hlength : covered.length = idx + 1 - l.firstIdx := by
      rw [← hcovered, length_reverse, length_take]
      omega
    have hle := entriesToRemove_le usage bytes n 0 covered
    refine ⟨by omega, by omega, by rw [Nat.add_sub_cancel_left], ?_, ?_⟩
    · unfold lastIdx
      dsimp only
      rw [length_drop]
      omega
    · rintro rfl
      have hall : entriesToRemove usage bytes 0 0 covered = covered.length := by
        cases covered <;> rfl
      omega

variable (snp : SnapshotDescriptor)

@[simp] theorem firstIdx_applySnapshot (n bytes : ℕ) :
    (l.applySnapshot usage snp n bytes).firstIdx =
      (l.dropCovered usage snp.idx n bytes).firstIdx := rfl

@[simp] theorem entries_applySnapshot (n bytes : ℕ) :
    (l.applySnapshot usage snp n bytes).entries =
      (l.dropCovered usage snp.idx n bytes).entries := rfl

@[simp] theorem snapshot_applySnapshot (n bytes : ℕ) :
    (l.applySnapshot usage snp n bytes).snapshot = snp := rfl

theorem lastIdx_applySnapshot (h : l.Valid) {snp : SnapshotDescriptor}
    (hsnap : l.snapshot.idx < snp.idx) (n bytes : ℕ) :
    (l.applySnapshot usage snp n bytes).lastIdx = max l.lastIdx snp.idx :=
  (dropCovered_spec usage h hsnap n bytes).2.2.2.1

@[simp] theorem stableIdx_applySnapshot (n bytes : ℕ) :
    (l.applySnapshot usage snp n bytes).stableIdx = max snp.idx l.stableIdx := rfl

theorem Valid.applySnapshot (h : l.Valid) {snp : SnapshotDescriptor}
    (hsnap : l.snapshot.idx < snp.idx) (n bytes : ℕ) :
    (l.applySnapshot usage snp n bytes).Valid := by
  obtain ⟨hfirst, hle, hentries, -, -⟩ := dropCovered_spec usage h hsnap n bytes
  refine ⟨fun k e hk => ?_, h.firstIdx_pos.trans_le hle, hfirst, le_max_left _ _, ?_⟩
  · rw [entries_applySnapshot, hentries, List.getElem?_drop] at hk
    have hidx := h.idx_eq _ e hk
    rw [firstIdx_applySnapshot]
    omega
  · rw [stableIdx_applySnapshot, lastIdx_applySnapshot usage h hsnap, max_comm]
    exact max_le_max h.stable_le le_rfl

end

/-! ## Slices of the log -/

theorem entriesAt_eq {first count : ℕ} (hfirst : l.firstIdx ≤ first)
    (h : Fsm.entriesAt l first count = some es) :
    es = (l.entries.drop (first - l.firstIdx)).take count ∧ es.length = count := by
  induction count generalizing first es with
  | zero =>
    cases h
    exact ⟨rfl, rfl⟩
  | succ n ih =>
    unfold Fsm.entriesAt at h
    rw [List.range'_succ, mapM_cons] at h
    obtain ⟨e, he, h⟩ := bind_eq_some_iff.mp h
    obtain ⟨es', hes, h⟩ := bind_eq_some_iff.mp h
    cases h
    obtain ⟨hslice, hlength⟩ := ih (hfirst.trans (le_succ first)) hes
    have hget := (ite_none_right_eq_some.mp he).2
    obtain ⟨hlt, rfl⟩ := List.getElem?_eq_some_iff.mp hget
    refine ⟨?_, by rw [length_cons, hlength]⟩
    rw [drop_eq_getElem_cons hlt, take_succ_cons, hslice, succ_sub hfirst]

theorem Valid.idx_entriesAt (h : l.Valid) {first count : ℕ}
    (hes : Fsm.entriesAt l first count = some es) :
    es.map LogEntry.idx = List.range' first count := by
  induction count generalizing first es with
  | zero =>
    cases hes
    rfl
  | succ n ih =>
    unfold Fsm.entriesAt at hes
    rw [List.range'_succ, mapM_cons] at hes
    obtain ⟨e, he, hes⟩ := bind_eq_some_iff.mp hes
    obtain ⟨es', hes', hes⟩ := bind_eq_some_iff.mp hes
    cases hes
    rw [map_cons, ih hes', h.getEntry_idx he, List.range'_succ]

theorem Valid.lastIdx_entriesAt (h : l.Valid)
    (hes : Fsm.entriesAt l (l.stableIdx + 1) (l.lastIdx - l.stableIdx) = some es) :
    (es.getLast?.map LogEntry.idx).getD l.stableIdx = l.lastIdx := by
  have hstable := h.stable_le
  rw [← List.getLast?_map, h.idx_entriesAt hes, List.getLast?_range']
  split
  · exact (Nat.le_antisymm hstable (Nat.sub_eq_zero_iff_le.mp ‹_›))
  · rw [getD_some]
    omega

end Log

/-! ## Sound states -/

/-- The order of the indexes of a server. -/
structure Core.Sound (c : Core) : Prop where
  valid : c.log.Valid
  snapshot_le : c.log.snapshot.idx ≤ c.commitIdx
  commit_le : c.commitIdx ≤ c.log.lastIdx
  observed_le : c.observedIdx ≤ c.commitIdx
  observed_stable : c.observedIdx ≤ c.log.stableIdx
  /-- The snapshot for the next output is the one of the log. -/
  snp_eq : ∀ a ∈ c.snp, a.snp = c.log.snapshot ∧
    a.preservedLogEntries = c.log.snapshot.idx + 1 - c.log.firstIdx
  /-- It is of another server exactly when it is past what was handed out. -/
  remote_iff : ∀ a ∈ c.snp, a.isLocal = false ↔ c.observedIdx < c.log.snapshot.idx
  /-- A snapshot past what was handed out waits for the next output. -/
  pending : c.observedIdx < c.log.snapshot.idx → c.snp.isSome

namespace Core.Sound

variable {c c' : Core} {usage : LogEntry → ℕ} {bound : ℕ}

theorem extended (h : c.Sound) (hbound : c.commitIdx ≤ bound) (hlog : c.log.Extended bound c'.log)
    (hle : c.commitIdx ≤ c'.commitIdx) (hle' : c'.commitIdx ≤ max c.commitIdx c'.log.lastIdx)
    (hobserved : c'.observedIdx = c.observedIdx) (hsnp : c'.snp = c.snp) : c'.Sound := by
  have hpos := h.valid.firstIdx_pos
  have hlast := hlog.le_lastIdx hpos hbound h.commit_le
  refine ⟨h.valid.extended hlog, ?_, hle'.trans (max_le hlast le_rfl), ?_, ?_, ?_, ?_, ?_⟩
  · exact hlog.snapshot_eq ▸ h.snapshot_le.trans hle
  · exact hobserved ▸ h.observed_le.trans hle
  · rw [hobserved]
    exact hlog.le_stableIdx hpos (h.observed_le.trans hbound) h.observed_stable
  · rw [hsnp, hlog.snapshot_eq, hlog.firstIdx_eq]
    exact h.snp_eq
  · rw [hsnp, hlog.snapshot_eq, hobserved]
    exact h.remote_iff
  · rw [hsnp, hlog.snapshot_eq, hobserved]
    exact h.pending

theorem pushes (h : c.Sound) (hp : c.Pushes c') : c'.Sound :=
  h.extended le_rfl (.pushed hp.log) hp.commitIdx_le hp.le_lastIdx hp.observedIdx_eq hp.snp_eq

theorem applySnapshot (h : c.Sound) {snp : SnapshotDescriptor} {n bytes : ℕ} {isLocal : Bool}
    (hsnap : c.log.snapshot.idx < snp.idx) (hremote : isLocal = false ↔ c.observedIdx < snp.idx) :
    Core.Sound ⟨c.log.applySnapshot usage snp n bytes, max c.commitIdx snp.idx, c.observedIdx,
      some ⟨snp, isLocal, snp.idx + 1 - (c.log.applySnapshot usage snp n bytes).firstIdx⟩⟩ := by
  refine ⟨h.valid.applySnapshot usage hsnap n bytes, le_max_right _ _, ?_,
    h.observed_le.trans (le_max_left _ _), h.observed_stable.trans (le_max_right _ _), ?_, ?_,
    fun _ => rfl⟩
  · dsimp only
    rw [Log.lastIdx_applySnapshot usage h.valid hsnap]
    exact max_le_max h.commit_le le_rfl
  · rintro a ⟨⟩
    exact ⟨rfl, rfl⟩
  · rintro a ⟨⟩
    exact hremote

theorem changes (h : c.Sound) (hbound : c.commitIdx ≤ bound) {installs : SnapshotDescriptor → Prop}
    (hc : c.Changes usage bound installs c') : c'.Sound := by
  cases hc with
  | pushes hp => exact h.pushes hp
  | «extends» hlog hle hle' => exact h.extended hbound hlog hle hle' rfl rfl
  | localSnapshot hsnap hle hlog =>
    subst hlog
    exact h.applySnapshot hsnap (iff_of_false nofun hle.not_gt)
  | remoteSnapshot _ hsnap hlt hlog =>
    subst hlog
    exact h.applySnapshot hsnap (iff_of_true rfl (h.observed_le.trans_lt hlt))

end Core.Sound

namespace Fsm

variable {cfg : FsmConfig} {s s' : Fsm} {o : FsmOutput}

structure Outputs (s : Fsm) (o : FsmOutput) (s' : Fsm) : Prop where
  snp_eq : o.snp = s.output.snp
  logEntries_eq : o.logEntries = s.log.entries.drop (s.log.stableIdx + 1 - s.log.firstIdx)
  committed_eq : o.committed.map LogEntry.idx =
    List.range' (max s.observed.commitIdx s.log.snapshot.idx + 1)
      (s.commitIdx - max s.observed.commitIdx s.log.snapshot.idx)
  pushes : Core.Pushes ⟨s.log.stableTo s.log.lastIdx, s.commitIdx, s.commitIdx, none⟩ s'.core

theorem outputs_of_getOutput (hs : s.core.Sound) (h : s.getOutput cfg = some (o, s')) :
    s.Outputs o s' := by
  have hpos := hs.valid.firstIdx_pos
  obtain ⟨hsnp, hentries, hcommitted, hpushes⟩ := getOutput_spec hpos h
  have hfirst : s.log.firstIdx ≤ s.log.stableIdx + 1 :=
    hs.valid.firstIdx_le.trans (succ_le_succ hs.valid.snapshot_le)
  have hlast := hs.valid.lastIdx_entriesAt hentries
  refine ⟨hsnp, ?_, hs.valid.idx_entriesAt hcommitted, hlast ▸ hpushes⟩
  obtain ⟨hslice, -⟩ := Log.entriesAt_eq hfirst hentries
  rw [hslice, take_of_length_le]
  rw [length_drop]
  unfold Log.lastIdx
  omega

end Fsm

theorem Core.Sound.taken {c : Core} (h : c.Sound) :
    (⟨c.log.stableTo c.log.lastIdx, c.commitIdx, c.commitIdx, none⟩ : Core).Sound := by
  have hvalid := h.valid
  refine ⟨⟨hvalid.idx_eq, hvalid.firstIdx_pos, hvalid.firstIdx_le,
    hvalid.snapshot_le.trans hvalid.stable_le, le_rfl⟩, h.snapshot_le, h.commit_le, le_rfl,
    h.commit_le, ?_, ?_, fun hlt => absurd h.snapshot_le hlt.not_ge⟩
  · rintro a ⟨⟩
  · rintro a ⟨⟩

theorem Fsm.Outputs.sound {s s' : Fsm} {o : FsmOutput} (hs : s.core.Sound) (h : s.Outputs o s') :
    s'.core.Sound :=
  hs.taken.pushes h.pushes

/-! ## The start -/

theorem Log.load_spec {snp : SnapshotDescriptor} {entries : List LogEntry} {log : Log}
    (h : Log.load snp entries = some log) :
    log.snapshot = snp ∧ log.entries = entries ∧ log.stableIdx = log.lastIdx := by
  obtain ⟨-, rfl⟩ := ite_some_none_eq_some.mp h
  exact ⟨rfl, rfl, rfl⟩

def Persistence.Valid (disk : Persistence) : Prop :=
  ∀ log ∈ Log.load disk.snapshot disk.entries, log.Valid

theorem Fsm.pushes_init (cfg : FsmConfig) (myId : ServerId) (term : ℕ) (vote : Option ServerId)
    (log : Log) (commitIdx timeout : ℕ) :
    Core.Pushes ⟨log, max log.snapshot.idx commitIdx, log.snapshot.idx, none⟩
      (Fsm.init cfg myId term vote log commitIdx timeout).core := by
  unfold init
  dsimp only
  split
  · exact (pushes_becomeCandidate _ _ _ _).congr_left rfl
  · exact .refl _

theorem Server.exists_of_start {cfg : FsmConfig} {myId : ServerId} {disk : Persistence}
    {timeout : ℕ} {s : Server} (hdisk : disk.Valid)
    (h : Server.start cfg myId disk timeout = some s) :
    ∃ log, Log.load disk.snapshot disk.entries = some log ∧ log.Valid ∧
      (⟨log, max log.snapshot.idx disk.commitIdx, log.snapshot.idx, none⟩ : Core).Sound ∧
      Core.Pushes ⟨log, max log.snapshot.idx disk.commitIdx, log.snapshot.idx, none⟩ s.fsm.core ∧
      s.disk = disk ∧ s.lastStable = log.stableIdx ∧ s.outputs = [] ∧
      s.settled = s.fsm.log.settledConf := by
  obtain ⟨log, hlog, h⟩ := bind_eq_some_iff.mp h
  obtain ⟨hcommit, h⟩ := ite_none_left_eq_some.mp h
  cases h
  have hvalid := hdisk log hlog
  have hstable := (Log.load_spec hlog).2.2
  refine ⟨log, hlog, hvalid, ⟨hvalid, le_max_left _ _, ?_, le_max_left _ _, hvalid.snapshot_le, ?_, ?_,
    fun hlt => absurd hlt (lt_irrefl _)⟩, Fsm.pushes_init cfg _ _ _ _ _ _, rfl, rfl, rfl, ?_⟩
  · exact hstable ▸ max_le hvalid.snapshot_le (not_lt.mp hcommit)
  · rintro a ⟨⟩
  · rintro a ⟨⟩
  · exact zero_max _

end Scylla.Raft
