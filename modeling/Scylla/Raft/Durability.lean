import Scylla.Raft.ConfIdx
import Scylla.Raft.Delivery

/-!
# What is on disk

After an output was processed, the disk holds the snapshot and the persisted entries of the log, and
a server that starts from it has the same last entry and the same configuration. Truncation is only
written with entries that start at or below the last one written. A snapshot of another server that
replaces a truncated log before therefore leaves old entries behind it on disk.
-/

namespace Scylla.Raft

open List
open Nat

/-! ## Writing an output -/

namespace Persistence

variable (p : Persistence) (lastStable : ℕ) (batch : FsmOutput)

/-- The entries that stay when the snapshot of an output is written. -/
def kept : List LogEntry :=
  batch.snp.elim p.entries fun s =>
    p.entries.filter (s.snp.idx - s.preservedLogEntries < ·.idx)

theorem snapshot_process :
    (p.process lastStable batch).1.snapshot =
      batch.snp.elim p.snapshot AppliedSnapshot.snp := by
  unfold process
  cases batch.termAndVote <;> cases batch.snp <;> cases batch.logEntries <;>
    cases batch.committed.getLast? <;> (dsimp only [Option.elim]; try split) <;> rfl

theorem entries_process :
    (p.process lastStable batch).1.entries =
      match batch.logEntries with
      | [] => p.kept batch
      | e :: es =>
        (if e.idx ≤ lastStable then (p.kept batch).filter (·.idx < e.idx) else p.kept batch) ++
          e :: es := by
  unfold process kept
  cases batch.termAndVote <;> cases batch.snp <;> cases batch.logEntries <;>
    cases batch.committed.getLast? <;> (dsimp only [Option.elim]; try split) <;> rfl

theorem lastStable_process :
    (p.process lastStable batch).2 =
      (batch.logEntries.getLast?.map LogEntry.idx).getD lastStable := by
  unfold process
  cases batch.logEntries with
  | nil => rfl
  | cons e es =>
    rfl

end Persistence

/-! ## The entries on disk -/

theorem Log.Valid.getLast_idx {l : Log} (h : l.Valid) (hne : l.entries ≠ []) :
    (l.entries.getLast hne).idx = l.lastIdx := by
  have hlength := length_pos_iff.mpr hne
  rw [getLast_eq_getElem, h.idx_eq _ _ (getElem?_eq_getElem (sub_lt hlength one_pos))]
  unfold lastIdx
  omega

structure Log.StoredIn (l : Log) (entries : List LogEntry) (lastStable : ℕ) : Prop where
  agree : entries.filter (fun e => l.firstIdx ≤ e.idx && e.idx ≤ l.stableIdx) =
    l.entries.filter (·.idx ≤ l.stableIdx)
  le_lastStable : ∀ e ∈ entries, e.idx ≤ lastStable
  replaced : l.stableIdx < lastStable → l.stableIdx < l.lastIdx

variable {e : LogEntry}

namespace Log.StoredIn

variable {l l' : Log} {entries : List LogEntry} {lastStable : ℕ}

section

variable (h : l.StoredIn entries lastStable) (hv : l.Valid)

include h hv

theorem emplaceBack (he : e.idx = l.nextIdx) :
    (l.emplaceBack e).StoredIn entries lastStable := by
  have hgt : ¬ e.idx ≤ l.stableIdx := by
    rw [he]
    exact (lt_succ_of_le hv.stable_le).not_ge
  refine ⟨?_, h.le_lastStable, fun hlt => ?_⟩
  · rw [firstIdx_emplaceBack, stableIdx_emplaceBack, entries_emplaceBack, filter_append, h.agree]
    simp [hgt]
  · rw [stableIdx_emplaceBack] at hlt ⊢
    rw [lastIdx_emplaceBack hv.firstIdx_pos]
    exact (h.replaced hlt).trans (lt_succ_self _)

theorem pushed (hp : l.Pushed l') : l'.StoredIn entries lastStable := by
  induction hp with
  | refl => exact h
  | push hp he ih => exact ih.emplaceBack (hv.pushed hp) he

theorem replace (hfirst : l.firstIdx ≤ e.idx) (hlast : e.idx ≤ l.lastIdx) :
    ((l.truncateUncommitted e.idx).emplaceBack e).StoredIn entries lastStable := by
  have hpos := hv.firstIdx_pos
  have hnext := hlast.trans (le_succ l.lastIdx)
  have hstable := stableIdx_truncateUncommitted hpos hfirst hnext
  have hgt : ¬ e.idx ≤ min l.stableIdx (e.idx - 1) := by omega
  refine ⟨?_, h.le_lastStable, fun _ => ?_⟩
  · rw [firstIdx_emplaceBack, firstIdx_truncateUncommitted, stableIdx_emplaceBack, hstable,
      entries_emplaceBack, entries_truncateUncommitted, hv.take_eq_filter, filter_append,
      filter_filter]
    have hagree := congrArg (filter (·.idx ≤ min l.stableIdx (e.idx - 1))) h.agree
    rw [filter_filter, filter_filter] at hagree
    have hnil : [e].filter (·.idx ≤ min l.stableIdx (e.idx - 1)) = [] := by
      rw [filter_eq_nil_iff]
      intro e' he'
      rw [mem_singleton.mp he', decide_eq_true_iff]
      exact hgt
    rw [hnil, append_nil]
    refine Eq.trans (filter_congr fun e' _ => ?_)
      (hagree.trans (filter_congr fun e' _ => ?_))
    · rw [Bool.eq_iff_iff]
      simp only [Bool.and_eq_true, decide_eq_true_eq]
      omega
    · rw [Bool.eq_iff_iff]
      simp only [Bool.and_eq_true, decide_eq_true_eq]
      omega
  · rw [stableIdx_emplaceBack, hstable, lastIdx_emplaceBack (by rwa [firstIdx_truncateUncommitted]),
      lastIdx_truncateUncommitted hpos hfirst hnext]
    omega

theorem extended {bound : ℕ} (he : l.Extended bound l') : l'.StoredIn entries lastStable := by
  cases he with
  | pushed hp => exact h.pushed hv hp
  | @replaced e _ hsnap hfirst hlast hp =>
    have hnext := hlast.trans (le_succ l.lastIdx)
    have he := nextIdx_truncateUncommitted hv.firstIdx_pos hfirst hnext
    exact (h.replace hv hfirst hlast).pushed
      ((hv.truncateUncommitted hsnap hnext).emplaceBack he.symm) hp

end

theorem applySnapshot (usage : LogEntry → ℕ) (h : l.StoredIn entries lastStable) (hv : l.Valid)
    {snp : SnapshotDescriptor} (hsnap : l.snapshot.idx < snp.idx) {n bytes : ℕ}
    (hcase : snp.idx ≤ l.stableIdx ∨ n = 0 ∧ (l.lastIdx ≤ snp.idx → lastStable ≤ snp.idx)) :
    (l.applySnapshot usage snp n bytes).StoredIn entries lastStable := by
  obtain ⟨-, hle, hentries, hlastIdx, hzero⟩ := dropCovered_spec usage hv hsnap n bytes
  have hsub := hv.drop_eq_filter (l.dropCovered usage snp.idx n bytes).firstIdx
  refine ⟨?_, h.le_lastStable, fun hlt => ?_⟩
  · rw [firstIdx_applySnapshot, stableIdx_applySnapshot, entries_applySnapshot, hentries, hsub,
      filter_filter]
    rcases le_or_gt snp.idx l.stableIdx with hcov | hgt
    · rw [max_eq_right hcov]
      have hagree := congrArg
        (filter ((l.dropCovered usage snp.idx n bytes).firstIdx ≤ ·.idx)) h.agree
      rw [filter_filter, filter_filter] at hagree
      refine Eq.trans (filter_congr fun e _ => ?_)
        (hagree.trans (filter_congr fun e _ => ?_))
      · rw [Bool.eq_iff_iff]
        simp only [Bool.and_eq_true, decide_eq_true_eq]
        omega
      · rw [Bool.and_comm]
    · -- no entry is both after the snapshot and persisted
      have hfirst := hzero (hcase.resolve_left hgt.not_ge).1
      rw [max_eq_left hgt.le, hfirst]
      have hnone (es : List LogEntry) (p : LogEntry → Bool)
          (hp : ∀ e, p e = true → snp.idx + 1 ≤ e.idx ∧ e.idx ≤ snp.idx) : es.filter p = [] :=
        filter_eq_nil_iff.mpr fun e _ he => by
          have := hp e he
          omega
      rw [hnone, hnone]
      · intro e he
        simpa [and_comm] using he
      · intro e he
        simpa using he
  · rw [stableIdx_applySnapshot] at hlt ⊢
    rw [lastIdx_applySnapshot usage hv hsnap]
    have hreplaced := h.replaced
    omega

end Log.StoredIn

/-! ## Outputs -/

structure Core.Durable (disk : Persistence) (lastStable settled : ℕ) (c : Core) : Prop where
  sound : c.Sound
  tracks : c.log.Tracks settled
  stored : c.log.StoredIn disk.entries lastStable
  /-- Unless a snapshot waits for the next output, the one of the log is on disk. -/
  written : c.snp = none → disk.snapshot = c.log.snapshot ∧
    ∀ e ∈ disk.entries, c.log.firstIdx ≤ e.idx

variable {o : FsmOutput} {a : Action}

namespace Core.Durable

variable {disk : Persistence} {lastStable settled : ℕ} {c c' : Core} {usage : LogEntry → ℕ}

theorem of_entries (hsound : c.Sound) (htracks : c.log.Tracks settled)
    (hsnap : disk.snapshot = c.log.snapshot) (hentries : disk.entries = c.log.entries)
    (hle : lastStable ≤ c.log.stableIdx) (hwritten : ∀ e ∈ c.log.entries, e.idx ≤ lastStable) :
    c.Durable disk lastStable settled := by
  have hmem := fun e he => (hsound.valid.mem_idx (e := e) he).1
  refine ⟨hsound, htracks, ⟨?_, hentries ▸ hwritten, fun hlt => absurd hle hlt.not_ge⟩,
    fun _ => ⟨hsnap, hentries ▸ hmem⟩⟩
  rw [hentries]
  exact filter_congr fun e he =>
    Bool.and_eq_right_iff_imp.mpr fun _ => decide_eq_true (hmem e he)

section

variable (h : c.Durable disk lastStable settled)

include h

theorem pushes (hp : c.Pushes c') :
    c'.Durable disk lastStable (max settled c'.log.settledConf) where
  sound := h.sound.pushes hp
  tracks := h.tracks.pushed h.sound.valid hp.log
  stored := h.stored.pushed h.sound.valid hp.log
  written := by
    rw [hp.snp_eq, hp.log.snapshot_eq, hp.log.firstIdx_eq]
    exact h.written

theorem changes {bound : ℕ} (hcommit : c.commitIdx ≤ bound) (hsettled : settled ≤ bound)
    {installs : SnapshotDescriptor → Prop}
    (hcovers : ∀ snp, installs snp → c.commitIdx < snp.idx → c.log.lastIdx ≤ snp.idx →
      lastStable ≤ snp.idx) (hc : c.Changes usage bound installs c') :
    c'.Durable disk lastStable (max settled c'.log.settledConf) := by
  have hsound := h.sound.changes hcommit hc
  have hv := h.sound.valid
  cases hc with
  | pushes hp => exact h.pushes hp
  | @«extends» log i hlog _ _ =>
    refine ⟨hsound, h.tracks.extended hv hsettled hlog, h.stored.extended hv hlog, ?_⟩
    rw [hlog.snapshot_eq, hlog.firstIdx_eq]
    exact h.written
  | @localSnapshot snp log n bytes hsnap hle hlog =>
    subst hlog
    refine ⟨hsound, (h.tracks.applySnapshot usage hv hsnap n bytes).mono (le_max_left _ _),
      h.stored.applySnapshot usage hv hsnap (.inl (hle.trans h.sound.observed_stable)),
      fun hnone => nomatch hnone⟩
  | @remoteSnapshot snp log hinstalls hsnap hcommit hlog =>
    subst hlog
    exact ⟨hsound, (h.tracks.applySnapshot usage hv hsnap 0 0).mono (le_max_left _ _),
      h.stored.applySnapshot usage hv hsnap (.inr ⟨rfl, hcovers snp hinstalls hcommit⟩),
      fun hnone => nomatch hnone⟩

theorem kept_eq (hsnp : o.snp = c.snp) :
    disk.kept o = disk.entries.filter (c.log.firstIdx ≤ ·.idx) := by
  unfold Persistence.kept
  rw [hsnp]
  cases ha : c.snp with
  | none =>
    refine (filter_eq_self.mpr fun e he => ?_).symm
    exact decide_eq_true ((h.written ha).2 e he)
  | some a =>
    obtain ⟨hsnp', hpreserved⟩ := h.sound.snp_eq a ha
    have hpos := h.sound.valid.firstIdx_pos
    have hle := h.sound.valid.firstIdx_le
    dsimp only [Option.elim]
    rw [hsnp', hpreserved]
    refine filter_congr fun e _ => ?_
    rw [decide_eq_decide]
    omega

theorem process (hsnp : o.snp = c.snp)
    (hentries : o.logEntries = c.log.entries.drop (c.log.stableIdx + 1 - c.log.firstIdx)) :
    (disk.process lastStable o).1.snapshot = c.log.snapshot ∧
      (disk.process lastStable o).1.entries = c.log.entries ∧
      (disk.process lastStable o).2 ≤ c.log.lastIdx ∧
      ∀ e ∈ c.log.entries, e.idx ≤ (disk.process lastStable o).2 := by
  have hv := h.sound.valid
  have hstable := hv.stable_le
  have hagree := h.stored.agree
  have hle := h.stored.le_lastStable
  have hreplaced := h.stored.replaced
  have hfirst : c.log.firstIdx ≤ c.log.stableIdx + 1 :=
    hv.firstIdx_le.trans (succ_le_succ hv.snapshot_le)
  refine ⟨?_, ?_⟩
  · rw [disk.snapshot_process, hsnp]
    cases ha : c.snp with
    | none => exact (h.written ha).1
    | some a => exact (h.sound.snp_eq a ha).1
  rw [disk.entries_process, disk.lastStable_process, h.kept_eq hsnp]
  -- what is on disk up to the persisted entries
  have hkept : (disk.entries.filter (c.log.firstIdx ≤ ·.idx)).filter (·.idx ≤ c.log.stableIdx) =
      c.log.entries.filter (·.idx ≤ c.log.stableIdx) := by
    rw [← hagree, filter_filter]
    exact filter_congr fun e _ => Bool.and_comm _ _
  have hsplit := take_append_drop (c.log.stableIdx + 1 - c.log.firstIdx) c.log.entries
  rw [hv.take_eq_filter (c.log.stableIdx + 1), ← hentries] at hsplit
  have htake : c.log.entries.filter (·.idx < c.log.stableIdx + 1) =
      c.log.entries.filter (·.idx ≤ c.log.stableIdx) :=
    filter_congr fun e _ => decide_eq_decide.mpr Nat.lt_succ_iff
  rw [htake, ← hkept] at hsplit
  have hall (hlast : lastStable ≤ c.log.stableIdx) :
      (disk.entries.filter (c.log.firstIdx ≤ ·.idx)).filter (·.idx ≤ c.log.stableIdx) =
        disk.entries.filter (c.log.firstIdx ≤ ·.idx) := by
    rw [filter_eq_self]
    intro e he
    exact decide_eq_true ((hle e (mem_filter.mp he).1).trans hlast)
  cases hnew : o.logEntries with
  | nil =>
    have hend : ¬ c.log.stableIdx < c.log.lastIdx := by
      rw [hnew] at hentries
      have hlength := drop_eq_nil_iff.mp hentries.symm
      unfold Log.lastIdx
      omega
    have hlast : lastStable ≤ c.log.stableIdx := not_lt.mp fun hlt => hend (hreplaced hlt)
    rw [hnew, append_nil, hall hlast] at hsplit
    refine ⟨hsplit, hlast.trans hstable, fun e he => ?_⟩
    rw [← hsplit] at he
    exact hle e (mem_filter.mp he).1
  | cons e es =>
    have hget : c.log.entries[c.log.stableIdx + 1 - c.log.firstIdx]? = some e := by
      rw [← head?_drop, ← hentries, hnew, head?_cons]
    have hidx : e.idx = c.log.stableIdx + 1 := by
      have hidx := hv.idx_eq _ e hget
      omega
    have hlast : ((e :: es).getLast?.map LogEntry.idx).getD lastStable = c.log.lastIdx := by
      have hne : c.log.entries ≠ [] := fun hnil => by
        rw [hnil] at hget
        cases hget
      have hlt := (List.getElem?_eq_some_iff.mp hget).1
      rw [← hnew, hentries, getLast?_drop, if_neg hlt.not_ge,
        getLast?_eq_some_getLast hne, Option.map_some, Option.getD_some]
      exact hv.getLast_idx hne
    rw [hnew] at hsplit
    refine ⟨?_, hlast.le, fun e' he' => hlast ▸ (hv.mem_idx he').2⟩
    dsimp only
    rw [← hsplit]
    congr 1
    split
    next => exact filter_congr fun e' _ => decide_eq_decide.mpr (by omega)
    next hgt => exact (hall (by omega)).symm

end

end Core.Durable

/-! ## Committing when entries are marked as persisted -/

theorem Log.getConfiguration_emplaceBack {l : Log} (h : l.Valid) (term : ℕ) (c : Configuration) :
    (l.emplaceBack ⟨term, l.nextIdx, .configuration c⟩).getConfiguration = c := by
  have hlast := ((confIdx_emplaceBack h.firstIdx_pos
    (e := ⟨term, l.nextIdx, .configuration c⟩) rfl).1 rfl).1
  have hentry : (l.emplaceBack ⟨term, l.nextIdx, .configuration c⟩).getEntry l.nextIdx =
      some ⟨term, l.nextIdx, .configuration c⟩ := by
    unfold getEntry
    rw [firstIdx_emplaceBack, entries_emplaceBack, nextIdx_eq h.firstIdx_pos,
      if_pos (Nat.le_add_right _ _), Nat.add_sub_cancel_left]
    simp
  unfold getConfiguration confAt
  rw [hlast, hentry]
  exact if_pos (succ_ne_zero l.lastIdx)

namespace Fsm

variable {s s' : Fsm} {cfg : FsmConfig}

theorem log_commitOnce {again : Fsm → Option Fsm} (h : commitOnce again s = some s') :
    s'.log = s.log ∨ s.log.getConfiguration.isJoint = true ∧
      ∃ t t' : Fsm, again t = some t' ∧ s'.log = t'.log ∧
        t.log = s.log.emplaceBack ⟨s.currentTerm, s.log.nextIdx,
          .configuration s.log.getConfiguration.leaveJoint⟩ := by
  unfold commitOnce at h
  split at h
  next l hl =>
    dsimp only at h
    split at h
    · exact .inl (congrArg log (Option.some.inj h).symm)
    · obtain ⟨e, -, h⟩ := Option.bind_eq_some_iff.mp h
      split at h
      · exact .inl (congrArg log (Option.some.inj h).symm)
      · split at h
        · obtain ⟨t, ht, rfl⟩ := Option.map_eq_some_iff.mp h
          rw [show t.resendRead.log = t.log from congrArg Core.log (core_resendRead t)]
          split at ht
          next hjoint => exact .inr ⟨hjoint, _, t, ht, rfl, rfl⟩
          next =>
            split at ht
            · cases ht
              exact .inl rfl
            · cases ht
              exact .inl (congrArg Core.log (core_transferLeadership _ _ _))
        · cases h
          exact .inl rfl
  next => exact .inl (congrArg log (Option.some.inj h).symm)

theorem log_maybeCommit (hv : s.log.Valid) (h : s.maybeCommit = some s') :
    s'.log = s.log ∨ ∃ e : LogEntry, e.idx = s.log.nextIdx ∧ s'.log = s.log.emplaceBack e := by
  rcases log_commitOnce h with hlog | ⟨-, t, t', ht, hlog, hpush⟩
  · exact .inl hlog
  · -- the configuration that was added is not joint
    rcases log_commitOnce ht with hlog' | ⟨hjoint, -⟩
    · exact .inr ⟨⟨s.currentTerm, s.log.nextIdx, .configuration s.log.getConfiguration.leaveJoint⟩,
        rfl, (hlog.trans hlog').trans hpush⟩
    · rw [hpush, Log.getConfiguration_emplaceBack hv] at hjoint
      cases hjoint

theorem log_getOutput (hv : s.log.Valid) (h : s.getOutput cfg = some (o, s')) :
    s'.log = s.log.stableTo s.log.lastIdx ∨ ∃ e : LogEntry, e.idx = s.log.nextIdx ∧
      s'.log = (s.log.stableTo s.log.lastIdx).emplaceBack e := by
  obtain ⟨-, hentries, -, t, ht, hs'⟩ := exists_markStable h
  have hlog : t.log = s.log := congrArg Core.log ht
  rw [← hlog] at hv hentries ⊢
  have hlast := hv.lastIdx_entriesAt hentries
  have hv' : (t.log.stableTo t.log.lastIdx).Valid := ⟨hv.idx_eq, hv.firstIdx_pos, hv.firstIdx_le,
    hv.snapshot_le.trans hv.stable_le, le_rfl⟩
  unfold markStable at hs'
  cases hlast' : o.logEntries.getLast? with
  | none =>
    rw [hlast'] at hs' hlast
    rw [← Option.some.inj hs']
    exact .inl (congrArg t.log.stableTo hlast)
  | some e =>
    rw [hlast'] at hs' hlast
    have heq : e.idx = t.log.lastIdx := hlast
    dsimp only at hs'
    rw [heq] at hs'
    unfold advanceStableIdx at hs'
    dsimp only at hs'
    split at hs'
    · split at hs'
      · exact log_maybeCommit hv' hs'
      · cases hs'
        exact .inl rfl
    · cases hs'
      exact .inl rfl

end Fsm

/-! ## Starting again -/

def Log.restrictToStable (l : Log) : Log :=
  if l.stableIdx < l.lastIdx then l.truncateUncommitted (l.stableIdx + 1) else l

structure Server.Mirrors (s : Server) : Prop where
  snapshot_eq : s.disk.snapshot = s.fsm.log.snapshot
  entries_eq : s.disk.entries = s.fsm.log.entries.filter (·.idx ≤ s.fsm.log.stableIdx)
  reload : ∃ log, Log.load s.disk.snapshot s.disk.entries = some log ∧
    log.lastIdx = s.fsm.log.restrictToStable.lastIdx ∧
    log.lastTerm = s.fsm.log.restrictToStable.lastTerm ∧
    log.confIdx = s.fsm.log.restrictToStable.confIdx ∧
    log.getConfiguration = s.fsm.log.restrictToStable.getConfiguration

theorem Log.Tracks.restrictToStable_emplaceBack {l : Log} {settled : ℕ} (h : l.Tracks settled)
    (hv : l.Valid) (hstable : l.stableIdx = l.lastIdx) (he : e.idx = l.nextIdx) :
    ∃ p, (l.emplaceBack e).restrictToStable = { l with prevConfIdx := p } := by
  have hpos := hv.firstIdx_pos
  have hlast := lastIdx_emplaceBack hpos e
  have hconf := confIdx_emplaceBack hpos he
  have hentries : (l.entries ++ [e]).take (l.stableIdx + 1 - l.firstIdx) = l.entries := by
    have hlength : l.stableIdx + 1 - l.firstIdx = l.entries.length := by
      rw [hstable]
      unfold lastIdx
      omega
    rw [hlength, take_left]
  have hstable' : min l.stableIdx (l.entries.length + l.firstIdx - 1) = l.stableIdx :=
    min_eq_left (hstable.le)
  unfold restrictToStable
  rw [stableIdx_emplaceBack, hlast, if_pos (by omega)]
  unfold Log.truncateUncommitted lastIdx
  dsimp only
  rw [entries_emplaceBack, firstIdx_emplaceBack, stableIdx_emplaceBack, snapshot_emplaceBack,
    hentries, hstable']
  cases hc : e.isConf with
  | true =>
    obtain ⟨hlastConf, hprevConf⟩ := hconf.1 hc
    have hlt : l.entries.length + l.firstIdx - 1 < e.idx := by
      rw [he]
      exact lt_succ_self _
    rw [hlastConf, hprevConf, if_pos hlt]
    exact ⟨0, rfl⟩
  | false =>
    obtain ⟨hlastConf, hprevConf⟩ := hconf.2 hc
    have hle : ¬ l.entries.length + l.firstIdx - 1 < l.lastConfIdx :=
      (h.lastConfIdx_le hv).not_gt
    rw [hlastConf, hprevConf, if_neg hle]
    exact ⟨l.prevConfIdx, rfl⟩

namespace Server

variable {cfg : FsmConfig} {s s' : Server}

theorem mirrors_of_eq {l : Log} {settled : ℕ} (hv : l.Valid) (ht : l.Tracks settled)
    (hstable : l.stableIdx = l.lastIdx) (hsnap : s.disk.snapshot = l.snapshot)
    (hentries : s.disk.entries = l.entries)
    (hlog : s.fsm.log = l ∨ ∃ e : LogEntry, e.idx = l.nextIdx ∧ s.fsm.log = l.emplaceBack e) :
    s.Mirrors := by
  have hall : l.entries.filter (·.idx ≤ l.stableIdx) = l.entries := by
    rw [filter_eq_self]
    exact fun e he => decide_eq_true (hstable ▸ (hv.mem_idx he).2)
  have hrestrict : ∃ p, s.fsm.log.restrictToStable = { l with prevConfIdx := p } := by
    rcases hlog with hlog | ⟨e, he, hlog⟩
    · refine ⟨l.prevConfIdx, ?_⟩
      rw [hlog]
      exact if_neg hstable.not_lt
    · rw [hlog]
      exact ht.restrictToStable_emplaceBack hv hstable he
  obtain ⟨p, hp⟩ := hrestrict
  have hinit : l.initLastConfIdx =
      { l with prevConfIdx := l.initLastConfIdx.prevConfIdx } := by
    conv_rhs => rw [← ht.lastConfIdx_initLastConfIdx hv]
    rfl
  refine ⟨?_, ?_, l.initLastConfIdx, ?_, ?_⟩
  · rcases hlog with hlog | ⟨e, -, hlog⟩
    · rw [hsnap, hlog]
    · rw [hsnap, hlog, Log.snapshot_emplaceBack]
  · rcases hlog with hlog | ⟨e, he, hlog⟩
    · rw [hentries, hlog, hall]
    · have hgt : ¬ e.idx ≤ l.stableIdx := by
        rw [he, hstable]
        exact (lt_succ_self _).not_ge
      rw [hentries, hlog, Log.stableIdx_emplaceBack, Log.entries_emplaceBack, filter_append, hall]
      simp [hgt]
  · rw [hsnap, hentries]
    exact hv.load_eq hstable
  · rw [hp, hinit]
    exact ⟨rfl, rfl, rfl, rfl⟩

def Durable (s : Server) : Prop := s.fsm.core.Durable s.disk s.lastStable s.settled

def CoversWritten (s : Server) : Action → Prop
  | .step _ (.installSnapshot term snp) _ =>
    s.fsm.currentTerm ≤ term → s.fsm.commitIdx < snp.idx → s.fsm.log.lastIdx ≤ snp.idx →
      s.lastStable ≤ snp.idx
  | _ => True

def KeepsDurable (s : Server) (a : Action) : Prop :=
  s.fsm.Allowed (max s.fsm.commitIdx s.settled) a ∧ s.CoversWritten a

theorem Durable.perform (h : s.Durable) {fsm : Fsm} (hok : s.KeepsDurable a)
    (hp : perform cfg s.fsm a = some fsm) : (settle { s with fsm }).Durable := by
  have hchanges := Fsm.changes_perform h.sound.valid.firstIdx_pos hok.1 hp
  have hcovers : ∀ snp, s.fsm.Installs a snp → s.fsm.commitIdx < snp.idx →
      s.fsm.log.lastIdx ≤ snp.idx → s.lastStable ≤ snp.idx := by
    rintro snp ⟨src, term, timeout, rfl, hterm⟩
    exact hok.2 hterm
  have hdurable := Core.Durable.changes h (le_max_left _ _) (le_max_right _ _) hcovers hchanges
  exact hdurable

theorem Durable.poll (h : s.Durable) (hp : s.poll cfg = some s') :
    s'.settle.Durable ∧ s'.settle.Mirrors := by
  obtain ⟨⟨o, fsm⟩, ho, hp⟩ := Option.bind_eq_some_iff.mp hp
  cases hp
  have hv := h.sound.valid
  have hout := Fsm.outputs_of_getOutput h.sound ho
  obtain ⟨hsnap, hentries, hle, hwritten⟩ := Core.Durable.process h hout.snp_eq hout.logEntries_eq
  have hlog := Fsm.log_getOutput hv ho
  -- the log with all its entries persisted
  have htaken : Core.Durable (s.disk.process s.lastStable o).1 (s.disk.process s.lastStable o).2
      s.settled ⟨s.fsm.log.stableTo s.fsm.log.lastIdx, s.fsm.commitIdx, s.fsm.commitIdx, none⟩ :=
    .of_entries h.sound.taken ⟨h.tracks.last_eq, h.tracks.prev_eq, h.tracks.prev_unknown,
      h.tracks.le_settled⟩ hsnap hentries hle hwritten
  have hdurable := htaken.pushes hout.pushes
  exact ⟨hdurable, mirrors_of_eq htaken.sound.valid htaken.tracks rfl hsnap hentries hlog⟩

theorem Durable.step (h : s.Durable) (hok : s.KeepsDurable a)
    (hs : Server.step cfg s a = some s') : s'.Durable := by
  unfold Server.step at hs
  split at hs
  · obtain ⟨t, ht, rfl⟩ := Option.map_eq_some_iff.mp hs
    exact (h.poll ht).1
  · obtain ⟨fsm, hfsm, rfl⟩ := Option.map_eq_some_iff.mp hs
    exact h.perform hok hfsm

theorem durable_of_start {myId : ServerId} {disk : Persistence} {timeout : ℕ}
    (hdisk : disk.Valid) (h : Server.start cfg myId disk timeout = some s) : s.Durable := by
  obtain ⟨log, hlog, hv, hsound, hpushes, hdisk', hlast, -, hsettled⟩ := exists_of_start hdisk h
  obtain ⟨hsnap, hentries, hstable⟩ := Log.load_spec hlog
  have hloaded : Core.Durable disk log.stableIdx log.settledConf
      ⟨log, max log.snapshot.idx disk.commitIdx, log.snapshot.idx, none⟩ :=
    .of_entries hsound (Log.tracks_of_load hlog hv) hsnap.symm hentries.symm le_rfl fun e he =>
      hstable ▸ (hv.mem_idx he).2
  have hpushed := hloaded.pushes hpushes
  rw [max_eq_right (Log.Tracks.settledConf_le_pushed hv hpushes.log)] at hpushed
  unfold Durable
  rwa [hdisk', hlast, hsettled]

end Server

/-- In every run in which requests do not replace committed entries or settled configurations, and a
snapshot of another server that reaches the end of the log covers all that was written, the disk
mirrors the log after every output processed. -/
theorem disk_mirrors_log (cfg : FsmConfig) (myId : ServerId) (disk : Persistence)
    (hdisk : disk.Valid) (timeout : ℕ) (s₀ s s' : Server)
    (hstart : Server.start cfg myId disk timeout = some s₀)
    (hrun : Reaches (Server.step cfg) Server.KeepsDurable s₀ s)
    (hpoll : s.step cfg .poll = some s') : s'.Mirrors := by
  have h : s.Durable := hrun.invariant (Server.durable_of_start hdisk hstart)
    fun _ _ _ hs hok hstep => hs.step hok hstep
  obtain ⟨t, ht, rfl⟩ := Option.map_eq_some_iff.mp hpoll
  exact (h.poll ht).2

/-- After a truncation that was not written, the snapshot of the three entries covers the disk. -/
theorem Follower.disk_mirrors_log_follower :
    replaced.disk.entries = [⟨2, 1, .dummy⟩, ⟨2, 2, .dummy⟩] ∧ polledAgain.disk.entries = [] ∧
      polledAgain.Mirrors :=
  ⟨rfl, rfl, disk_mirrors_log cfg 2 disk disk_valid 10 started installed polledAgain
    (Option.some_get _).symm
    (reaches_installed (reaches_refused ⟨allowed_request (by decide), trivial⟩ ⟨trivial, trivial⟩
      ⟨allowed_stale, trivial⟩) ⟨allowed_replacing (by decide), trivial⟩
      ⟨fun _ => trivial, fun _ _ _ => by decide⟩) (Option.some_get _).symm⟩

namespace StaleSuffix

open Follower (cfg config disk disk_valid started)

/-- The next leader replaces them by its first entry. -/
def appended : Server :=
  (started.step cfg (.step 1 (.appendRequest 2 0 0 0 [⟨2, 1, .dummy⟩]) 10)).get rfl

/-- Before the output is fetched, its snapshot of two entries arrives. -/
def installed : Server :=
  (appended.step cfg (.step 1 (.installSnapshot 2 ⟨2, 2, config, 1⟩) 10)).get rfl

def polled : Server := (installed.step cfg .poll).get rfl

theorem reaches_installed : Reaches (Server.step cfg)
    (fun s a => s.fsm.Allowed (max s.fsm.commitIdx s.settled) a) started installed := by
  have happended : started.step cfg (.step 1 (.appendRequest 2 0 0 0 [⟨2, 1, .dummy⟩]) 10) =
      some appended := (Option.some_get _).symm
  have hinstalled : appended.step cfg (.step 1 (.installSnapshot 2 ⟨2, 2, config, 1⟩) 10) =
      some installed := (Option.some_get _).symm
  have hsendable : started.fsm.log.Sendable 0 0 [⟨2, 1, .dummy⟩] := .of_bound_lt rfl (by decide)
  exact .step (.step .init (by exact fun _ => hsendable) happended) (by exact fun _ => trivial)
    hinstalled

/-- The last old entry is still on disk behind the snapshot: the log ends with entry two of term
two, the one loaded again with entry three of term one. -/
theorem old_entry_reloaded : Server.start cfg 2 disk 10 = some started ∧ disk.Valid ∧
    Reaches (Server.step cfg) (fun s a => s.fsm.Allowed (max s.fsm.commitIdx s.settled) a)
      started installed ∧
    installed.step cfg .poll = some polled ∧ ¬ polled.Mirrors ∧
    polled.fsm.log.lastIdx = 2 ∧ polled.fsm.log.lastTerm = 2 ∧
    polled.disk.snapshot.idx = 2 ∧ polled.disk.entries = [⟨1, 3, .dummy⟩] := by
  refine ⟨(Option.some_get _).symm, disk_valid, reaches_installed, (Option.some_get _).symm,
    fun h => ?_, rfl, rfl, rfl, rfl⟩
  obtain ⟨log, hlog, hlast, -⟩ := h.reload
  cases hlog
  exact absurd hlast (by decide)

end StaleSuffix

end Scylla.Raft
