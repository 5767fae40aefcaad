import Scylla.Raft.Server

/-!
# What operations do to the log

Delivery and persistence depend on four things: the log, the commit index, what the last output has
seen, and the snapshot waiting for the next one. Almost all of the state machine leaves them alone
or appends entries; requests of a leader may also replace the end of the log, and snapshots replace
its beginning. Everything else follows from these three cases.
-/

namespace Scylla.Raft

open Option
open List

variable {n prevLogIdx timeout : ℕ}

namespace Log

/-- Entries were added at the end. -/
inductive Pushed (l : Log) : Log → Prop
  | refl : Pushed l l
  | push {l' : Log} {e : LogEntry} : Pushed l l' → e.idx = l'.nextIdx → Pushed l (l'.emplaceBack e)

variable {l l' : Log}

theorem Pushed.trans {l'' : Log} (h : l.Pushed l') (h' : l'.Pushed l'') : l.Pushed l'' := by
  induction h' with
  | refl => exact h
  | push _ he ih => exact .push ih he

inductive Extended (bound : ℕ) (l : Log) : Log → Prop
  | pushed {l' : Log} : Pushed l l' → Extended bound l l'
  | replaced {l' : Log} {e : LogEntry} : bound < e.idx → l.snapshot.idx < e.idx →
      l.firstIdx ≤ e.idx → e.idx ≤ l.lastIdx →
      Pushed ((l.truncateUncommitted e.idx).emplaceBack e) l' → Extended bound l l'

section

variable (l : Log) (e : LogEntry)

@[simp] theorem snapshot_emplaceBack :
    (l.emplaceBack e).snapshot = l.snapshot := by
  unfold emplaceBack
  split <;> rfl

@[simp] theorem firstIdx_emplaceBack :
    (l.emplaceBack e).firstIdx = l.firstIdx := by
  unfold emplaceBack
  split <;> rfl

@[simp] theorem stableIdx_emplaceBack :
    (l.emplaceBack e).stableIdx = l.stableIdx := by
  unfold emplaceBack
  split <;> rfl

@[simp] theorem entries_emplaceBack :
    (l.emplaceBack e).entries = l.entries ++ [e] := by
  unfold emplaceBack
  split <;> rfl

end

theorem lastIdx_emplaceBack (h : 0 < l.firstIdx) (e : LogEntry) :
    (l.emplaceBack e).lastIdx = l.lastIdx + 1 := by
  unfold lastIdx
  rw [entries_emplaceBack, firstIdx_emplaceBack, length_append, length_singleton]
  omega

theorem nextIdx_emplaceBack (h : 0 < l.firstIdx) (e : LogEntry) :
    (l.emplaceBack e).nextIdx = l.nextIdx + 1 := by
  rw [nextIdx, lastIdx_emplaceBack h, nextIdx]

@[simp] theorem snapshot_truncateUncommitted (l : Log) (i : ℕ) :
    (l.truncateUncommitted i).snapshot = l.snapshot := by
  unfold truncateUncommitted
  dsimp only
  split <;> rfl

@[simp] theorem firstIdx_truncateUncommitted (l : Log) (i : ℕ) :
    (l.truncateUncommitted i).firstIdx = l.firstIdx := by
  unfold truncateUncommitted
  dsimp only
  split <;> rfl

@[simp] theorem entries_truncateUncommitted (l : Log) (i : ℕ) :
    (l.truncateUncommitted i).entries = l.entries.take (i - l.firstIdx) := by
  unfold truncateUncommitted
  dsimp only
  split <;> rfl

variable {i : ℕ}

section

variable (h : 0 < l.firstIdx) (hi : l.firstIdx ≤ i) (hi' : i ≤ l.nextIdx)

include h hi hi'

theorem lastIdx_truncateUncommitted : (l.truncateUncommitted i).lastIdx = i - 1 := by
  rw [nextIdx_eq h] at hi'
  unfold lastIdx
  rw [entries_truncateUncommitted, firstIdx_truncateUncommitted, length_take]
  omega

theorem nextIdx_truncateUncommitted : (l.truncateUncommitted i).nextIdx = i := by
  rw [nextIdx, lastIdx_truncateUncommitted h hi hi']
  omega

theorem stableIdx_truncateUncommitted :
    (l.truncateUncommitted i).stableIdx = min l.stableIdx (i - 1) := by
  rw [← lastIdx_truncateUncommitted h hi hi']
  unfold truncateUncommitted
  dsimp only
  split <;> rfl

end

theorem Pushed.eq_of {α : Type} {f : Log → α} (hf : ∀ l e, f (l.emplaceBack e) = f l)
    (h : l.Pushed l') : f l' = f l := by
  induction h with
  | refl => rfl
  | push _ _ ih => rw [hf, ih]

theorem Pushed.firstIdx_eq (h : l.Pushed l') : l'.firstIdx = l.firstIdx :=
  h.eq_of firstIdx_emplaceBack

theorem Pushed.snapshot_eq (h : l.Pushed l') : l'.snapshot = l.snapshot :=
  h.eq_of snapshot_emplaceBack

theorem Pushed.stableIdx_eq (h : l.Pushed l') : l'.stableIdx = l.stableIdx :=
  h.eq_of stableIdx_emplaceBack

theorem Pushed.lastIdx_le (h : l.Pushed l') (hpos : 0 < l.firstIdx) : l.lastIdx ≤ l'.lastIdx := by
  induction h with
  | refl => exact le_rfl
  | push h _ ih =>
    rw [lastIdx_emplaceBack (h.firstIdx_eq ▸ hpos)]
    omega

/-! ## Appended requests -/

structure Sendable (bound : ℕ) (l : Log) (prevLogIdx : ℕ) (entries : List LogEntry) : Prop where
  idx_eq : entries.map LogEntry.idx = List.range' (prevLogIdx + 1) entries.length
  agree : ∀ e ∈ entries, e.idx ≤ bound → ∀ e', l.getEntry e.idx = some e' → e'.term = e.term

theorem Sendable.of_bound_lt {bound : ℕ} {entries : List LogEntry}
    (hidx : entries.map LogEntry.idx = List.range' (prevLogIdx + 1) entries.length)
    (hlt : ∀ e ∈ entries, bound < e.idx) : l.Sendable bound prevLogIdx entries :=
  ⟨hidx, fun e he hle => absurd hle (hlt e he).not_ge⟩

theorem map_idx_cons {e : LogEntry} {es : List LogEntry} :
    (e :: es).map LogEntry.idx = List.range' n (e :: es).length ↔
      e.idx = n ∧ es.map LogEntry.idx = List.range' (n + 1) es.length := by
  rw [map_cons, length_cons, List.range'_succ, List.cons.injEq]

def pushAll (l : Log) (es : List LogEntry) : Log := es.foldl emplaceBack l

/-- Whether a request brings nothing new with an entry: it is before the log, or there. -/
def has (l : Log) (e : LogEntry) : Bool :=
  e.idx < l.firstIdx || (l.getEntry e.idx).map LogEntry.term = some e.term

/-- The entries from the first one on that is not there. -/
def newEntries (l : Log) (es : List LogEntry) : List LogEntry := es.dropWhile l.has

/-- The log without the end that these entries replace. -/
def truncateFor (l : Log) (es : List LogEntry) : Log :=
  match l.newEntries es with
  | [] => l
  | e :: _ => if e.idx ≤ l.lastIdx then l.truncateUncommitted e.idx else l

variable {es : List LogEntry}

theorem maybeAppend_of_next (h : 0 < l.firstIdx)
    (hidx : es.map LogEntry.idx = List.range' l.nextIdx es.length) :
    maybeAppend es l = some (l.pushAll es) ∧ l.Pushed (l.pushAll es) := by
  induction es generalizing l with
  | nil => exact ⟨rfl, .refl⟩
  | cons e es ih =>
    obtain ⟨he, hes⟩ := map_idx_cons.mp hidx
    have hgt : ¬ e.idx ≤ l.lastIdx := by
      rw [he]
      unfold nextIdx
      omega
    obtain ⟨happend, hpushed⟩ := ih (l := l.emplaceBack e) (by rwa [firstIdx_emplaceBack])
      (by rwa [nextIdx_emplaceBack h])
    rw [maybeAppend, if_neg hgt, if_pos he]
    exact ⟨happend, (Pushed.push .refl he).trans hpushed⟩

theorem maybeAppend_eq (hpos : 0 < l.firstIdx) {first : ℕ}
    (hidx : es.map LogEntry.idx = List.range' first es.length)
    (happend : maybeAppend es l = some l') :
    l' = (l.truncateFor es).pushAll (l.newEntries es) ∧
      (l.newEntries es).map LogEntry.idx =
        List.range' (l.truncateFor es).nextIdx (l.newEntries es).length ∧
      ∀ e ∈ (l.newEntries es).head?, l.firstIdx ≤ e.idx ∧ e.idx ≤ l.nextIdx ∧
        (l.getEntry e.idx).map LogEntry.term ≠ some e.term ∧
        (e.idx ≤ l.lastIdx → l.snapshot.idx < e.idx) := by
  induction es generalizing first with
  | nil =>
    cases happend
    exact ⟨rfl, rfl, fun e he => nomatch he⟩
  | cons e es ih =>
    obtain ⟨he, hes⟩ := map_idx_cons.mp hidx
    cases hhas : l.has e with
    | true =>
      have hnew : l.newEntries (e :: es) = l.newEntries es := dropWhile_cons_of_pos hhas
      have htrunc : l.truncateFor (e :: es) = l.truncateFor es := by
        unfold truncateFor
        rw [hnew]
      have hskip : maybeAppend (e :: es) l = maybeAppend es l := by
        rw [has, Bool.or_eq_true, decide_eq_true_iff, decide_eq_true_iff] at hhas
        rw [maybeAppend]
        rcases hhas with hlt | hterm
        · have hle : e.idx ≤ l.lastIdx := by
            unfold lastIdx
            omega
          rw [if_pos hle, if_pos hlt]
        · obtain ⟨e', he', -⟩ := map_eq_some_iff.mp hterm
          obtain ⟨hfirst, hle⟩ := le_of_getEntry he'
          rw [if_pos hle, if_neg hfirst.not_gt, if_pos hterm]
      rw [hnew, htrunc]
      exact ih hes (hskip ▸ happend)
    | false =>
      have hnew : l.newEntries (e :: es) = e :: es :=
        dropWhile_cons_of_neg (by simp [hhas])
      rw [has, Bool.or_eq_false_iff, decide_eq_false_iff_not, decide_eq_false_iff_not,
        not_lt] at hhas
      rw [maybeAppend] at happend
      rcases le_or_gt e.idx l.lastIdx with hle | hgt
      · rw [if_pos hle, if_neg hhas.1.not_gt, if_neg hhas.2] at happend
        obtain ⟨hsnap, happend⟩ := ite_none_right_eq_some.mp happend
        have htrunc : l.truncateFor (e :: es) = l.truncateUncommitted e.idx := by
          unfold truncateFor
          rw [hnew]
          exact if_pos hle
        have hlast := lastIdx_truncateUncommitted hpos hhas.1 (hle.trans (Nat.le_succ _))
        have hnext := nextIdx_truncateUncommitted hpos hhas.1 (hle.trans (Nat.le_succ _))
        have hall : (e :: es).map LogEntry.idx =
            List.range' (l.truncateUncommitted e.idx).nextIdx (e :: es).length :=
          map_idx_cons.mpr ⟨hnext.symm, by rw [hnext, hes, he]⟩
        rw [hnew, htrunc]
        refine ⟨?_, hall, fun e' he' => ?_⟩
        · have hpush := (maybeAppend_of_next (by rwa [firstIdx_truncateUncommitted]) hall).1
          have hgt : ¬ e.idx ≤ (l.truncateUncommitted e.idx).lastIdx := by omega
          rw [maybeAppend, if_neg hgt, if_pos hnext.symm, happend] at hpush
          exact Option.some.inj hpush
        · cases he'
          exact ⟨hhas.1, hle.trans (Nat.le_succ _), hhas.2, fun _ => hsnap⟩
      · rw [if_neg hgt.not_ge] at happend
        obtain ⟨hnext, happend⟩ := ite_none_right_eq_some.mp happend
        have htrunc : l.truncateFor (e :: es) = l := by
          unfold truncateFor
          rw [hnew]
          exact if_neg hgt.not_ge
        have hall : (e :: es).map LogEntry.idx = List.range' l.nextIdx (e :: es).length :=
          map_idx_cons.mpr ⟨hnext, by rw [hes, ← hnext, he]⟩
        rw [hnew, htrunc]
        refine ⟨?_, hall, fun e' he' => ?_⟩
        · have hpush := (maybeAppend_of_next hpos hall).1
          rw [maybeAppend, if_neg hgt.not_ge, if_pos hnext, happend] at hpush
          exact Option.some.inj hpush
        · cases he'
          exact ⟨hhas.1, hnext.le, hhas.2, fun hle => absurd hle hgt.not_ge⟩

theorem extended_of_maybeAppend {bound : ℕ}
    (hpos : 0 < l.firstIdx) (hs : l.Sendable bound prevLogIdx es) (h : maybeAppend es l = some l') :
    l.Extended bound l' := by
  obtain ⟨rfl, hidx, hhead⟩ := maybeAppend_eq hpos hs.idx_eq h
  have hsub : ∀ e ∈ l.newEntries es, e ∈ es := fun e he => (dropWhile_sublist _).subset he
  unfold truncateFor at hidx ⊢
  cases hnew : l.newEntries es with
  | nil => exact .pushed .refl
  | cons e rest =>
    rw [hnew] at hidx hhead hsub
    obtain ⟨hfirst, -, hterm, hsnap⟩ := hhead e rfl
    dsimp only at hidx ⊢
    split
    next hle =>
      rw [if_pos hle] at hidx
      have hlt : e.idx - l.firstIdx < l.entries.length := by
        unfold lastIdx at hle
        omega
      have hentry : l.getEntry e.idx = some (l.entries[e.idx - l.firstIdx]) :=
        (if_pos hfirst).trans (List.getElem?_eq_getElem hlt)
      have hbound : bound < e.idx := by
        by_contra hle'
        refine hterm ?_
        rw [hentry, map_some, hs.agree e (hsub e mem_cons_self) (not_lt.mp hle') _ hentry]
      have hpos' : 0 < (l.truncateUncommitted e.idx).firstIdx := by
        rwa [firstIdx_truncateUncommitted]
      refine .replaced hbound (hsnap hle) hfirst hle (maybeAppend_of_next ?_ ?_).2
      · rwa [firstIdx_emplaceBack]
      · rw [nextIdx_emplaceBack hpos']
        exact (map_idx_cons.mp hidx).2
    next hgt =>
      rw [if_neg hgt] at hidx
      exact .pushed (maybeAppend_of_next hpos hidx).2

end Log

/-! ## The core of a state -/

/-- What delivery and persistence depend on. -/
structure Core where
  log : Log
  /-- The last entry known to be committed. -/
  commitIdx : ℕ
  /-- The last entry that was handed out. -/
  observedIdx : ℕ
  /-- The snapshot for the next output. -/
  snp : Option AppliedSnapshot

def Fsm.core (s : Fsm) : Core := ⟨s.log, s.commitIdx, s.observed.commitIdx, s.output.snp⟩

namespace Core

/-- Entries were added and perhaps committed. -/
structure Pushes (c c' : Core) : Prop where
  log : c.log.Pushed c'.log
  commitIdx_le : c.commitIdx ≤ c'.commitIdx
  le_lastIdx : c'.commitIdx ≤ max c.commitIdx c'.log.lastIdx
  observedIdx_eq : c'.observedIdx = c.observedIdx
  snp_eq : c'.snp = c.snp

theorem Pushes.refl (c : Core) : c.Pushes c := ⟨.refl, le_rfl, le_max_left _ _, rfl, rfl⟩

variable {c c' : Core}

theorem Pushes.of_eq (h : c' = c) : c.Pushes c' := h ▸ .refl c

variable {c'' : Core}

theorem Pushes.congr_left (h : c.Pushes c'') (hc : c = c') : c'.Pushes c'' :=
  hc ▸ h

theorem Pushes.trans (hpos : 0 < c.log.firstIdx) (h : c.Pushes c') (h' : c'.Pushes c'') :
    c.Pushes c'' where
  log := h.log.trans h'.log
  commitIdx_le := h.commitIdx_le.trans h'.commitIdx_le
  le_lastIdx := by
    have hlast := h'.log.lastIdx_le (h.log.firstIdx_eq ▸ hpos)
    have h1 := h.le_lastIdx
    have h2 := h'.le_lastIdx
    omega
  observedIdx_eq := h'.observedIdx_eq.trans h.observedIdx_eq
  snp_eq := h'.snp_eq.trans h.snp_eq

theorem Pushes.push (c : Core) {e : LogEntry} (he : e.idx = c.log.nextIdx) :
    c.Pushes { c with log := c.log.emplaceBack e } :=
  ⟨.push .refl he, le_rfl, le_max_left _ _, rfl, rfl⟩

theorem Pushes.commit (c : Core) {i : ℕ} (hi : c.commitIdx ≤ i)
    (hi' : i ≤ max c.commitIdx c.log.lastIdx) : c.Pushes { c with commitIdx := i } :=
  ⟨.refl, hi, hi', rfl, rfl⟩

end Core

namespace Fsm

variable {cfg : FsmConfig} (s : Fsm)

/-! ## Operations that keep the core -/

@[simp] theorem core_sendTo (dst : ServerId) (m : Message) : (s.sendTo dst m).core = s.core := rfl

variable (l : Leader)

@[simp] theorem core_setLeader : (s.setLeader l).core = s.core := rfl

@[simp] theorem core_setConfiguration : (s.setConfiguration l).core = s.core := rfl

@[simp] theorem core_updateCurrentTerm (t : ℕ) : (s.updateCurrentTerm t).core = s.core := rfl

@[simp] theorem core_becomeFollower (l : Option ServerId) : (s.becomeFollower l).core = s.core := by
  unfold becomeFollower
  split <;> split <;> rfl

@[simp] theorem core_replicate : (s.replicate cfg l).core = s.core := rfl

@[simp] theorem core_replicateToId (id : ServerId) (allowEmpty : Bool) :
    (s.replicateToId cfg l id allowEmpty).core = s.core := by
  unfold replicateToId
  split <;> rfl

@[simp] theorem core_sendTimeoutNow (id : ServerId) :
    (s.sendTimeoutNow l id).core = s.core := by
  unfold sendTimeoutNow
  dsimp only
  split
  · rfl
  · rw [core_becomeFollower, core_setLeader, core_sendTo]

@[simp] theorem core_transferLeadership (timeout : ℕ) :
    (s.transferLeadership l timeout).core = s.core := by
  unfold transferLeadership
  dsimp only
  split
  · rfl
  · split
    · rw [core_sendTimeoutNow]
    · rw [core_setLeader]

@[simp] theorem core_handleReadQuorumReply (id : ServerId) (commitIdx readId : ℕ) :
    (s.handleReadQuorumReply l id commitIdx readId).core = s.core := by
  unfold handleReadQuorumReply
  dsimp only
  split
  · rfl
  · split
    · rfl
    · split <;> rfl

@[simp] theorem core_broadcastReadQuorum (readId : ℕ) :
    (s.broadcastReadQuorum l readId).core = s.core := by
  unfold broadcastReadQuorum
  rw [← core_setLeader s l]
  generalize s.setLeader l = s
  induction l.tracker.progress generalizing s with
  | nil => rfl
  | cons p ps ih =>
    rw [foldl_cons, ih]
    split
    · rfl
    · split
      · split
        · rw [core_handleReadQuorumReply]
        · rfl
      · rw [core_sendTo]

@[simp] theorem core_startReadBarrier (requester : ServerId) :
    (s.startReadBarrier requester).1.core = s.core := by
  unfold startReadBarrier
  split
  · split <;> rfl
  · rfl

@[simp] theorem core_resendRead : s.resendRead.core = s.core := by
  unfold resendRead
  split
  · split
    · rw [core_broadcastReadQuorum]
    · rfl
  · rfl

@[simp] theorem core_tickFollowers : (s.tickFollowers cfg l).core = s.core := rfl

variable (alive : ServerId → Bool)

@[simp] theorem core_noteActivity :
    (s.noteActivity alive).core = s.core := by
  unfold noteActivity
  split
  · dsimp only
    split <;> rfl
  · rfl

@[simp] theorem core_tickStepdown : s.tickStepdown.core = s.core := by
  unfold tickStepdown
  split
  · split
    · rfl
    · split
      · rfl
      · split
        · rfl
        · split <;> rfl
  · rfl

@[simp] theorem core_tickLeader (l : Leader) :
    (s.tickLeader cfg alive l).core = s.core := by
  unfold tickLeader
  split <;> simp

@[simp] theorem core_searchLeader :
    (s.searchLeader alive).core = s.core := by
  unfold searchLeader
  dsimp only
  split <;> rfl

section

variable (src : ServerId)

@[simp] theorem core_requestVote (term lastLogIdx lastLogTerm : ℕ) (isPrevote : Bool) :
    (s.requestVote src term lastLogIdx lastLogTerm isPrevote).core = s.core := by
  unfold requestVote
  dsimp only
  split
  · rw [core_sendTo]
    split <;> rfl
  · rw [core_sendTo]

@[simp] theorem core_stepEarlier (m : Message) :
    (s.stepEarlier src m).core = s.core := by
  cases m with
  | voteRequest _ _ _ isPrevote _ => cases isPrevote <;> rfl
  | _ => rfl

@[simp] theorem core_recogniseLeader :
    (s.recogniseLeader src).core = s.core := by
  unfold recogniseLeader
  split
  · exact core_becomeFollower s _
  · rfl
  · rfl

@[simp] theorem core_installSnapshotReply (success : Bool) :
    (s.installSnapshotReply cfg l src success).core = s.core := by
  unfold installSnapshotReply
  split
  · rfl
  · split
    · rfl
    · split
      · rw [core_replicateToId]
      · rfl

end

@[simp] theorem core_appendRejected (p : Progress) (r : Rejected) :
    (s.appendRejected cfg l p r).core = s.core := by
  unfold appendRejected
  split
  · rw [core_replicateToId]
  · split
    · rfl
    · rw [core_replicateToId]

/-! ## Operations that add entries -/

theorem pushes_pushEntry (data : EntryData) : s.core.Pushes (s.pushEntry data).core :=
  .push s.core rfl

theorem pushes_becomeLeader : s.core.Pushes s.becomeLeader.core := by
  unfold becomeLeader
  rw [core_setConfiguration]
  exact pushes_pushEntry _ _

@[simp] theorem core_startCampaign (isPrevote : Bool) (timeout : ℕ) :
    (s.startCampaign isPrevote timeout).core = s.core := by
  unfold startCampaign
  split <;> rfl

@[simp] theorem core_castVotes (isPrevote isLeadershipTransfer : Bool) (votes : Votes) :
    (s.castVotes isPrevote isLeadershipTransfer votes).core = s.core := by
  cases isPrevote <;> rfl

theorem pushes_campaign {won : Fsm → Fsm} (hwon : ∀ t : Fsm, t.core.Pushes (won t).core)
    (isPrevote isLeadershipTransfer : Bool) (timeout : ℕ) :
    s.core.Pushes (s.campaign won isPrevote isLeadershipTransfer timeout).core := by
  have hcore : ∀ (votes : Votes) (r : Role),
      ({ (s.startCampaign isPrevote timeout).castVotes isPrevote isLeadershipTransfer votes with
        state := r } : Fsm).core = s.core := fun votes r =>
    (core_castVotes _ isPrevote isLeadershipTransfer votes).trans (core_startCampaign s _ _)
  unfold campaign
  dsimp only
  split
  · exact .of_eq (by rw [core_becomeFollower, core_startCampaign])
  · split
    · rw [← hcore (Votes.ofConfiguration s.log.getConfiguration)]
      exact hwon _
    · exact .of_eq (hcore _ _)

theorem pushes_becomeCandidate (isPrevote isLeadershipTransfer : Bool) (timeout : ℕ) :
    s.core.Pushes (s.becomeCandidate isPrevote isLeadershipTransfer timeout).core := by
  unfold becomeCandidate
  split
  · exact pushes_campaign s (fun t => pushes_campaign t pushes_becomeLeader _ _ _) _ _ _
  · exact pushes_campaign s pushes_becomeLeader _ _ _

/-- Calls of an operation add entries. -/
def PushesAll (f : Fsm → Option Fsm) : Prop :=
  ∀ s s', 0 < s.log.firstIdx → f s = some s' → s.core.Pushes s'.core

theorem pushes_of_some {s s' : Fsm} (h : some s = some s') : s.core.Pushes s'.core :=
  .of_eq (congrArg core (Option.some.inj h).symm)

theorem pushesAll_some : PushesAll some := fun _ _ _ h => pushes_of_some h

variable {l : Leader}

variable {again : Fsm → Option Fsm}

theorem pushes_committedConfChange (hagain : PushesAll again) {s s' : Fsm}
    (hpos : 0 < s.log.firstIdx) (h : s.committedConfChange again l = some s') :
    s.core.Pushes s'.core := by
  obtain ⟨t, ht, rfl⟩ := map_eq_some_iff.mp h
  rw [core_resendRead]
  split at ht
  · have hrest := hagain _ _ ((Log.firstIdx_emplaceBack _ _).symm ▸ hpos) ht
    rw [core_setConfiguration] at hrest
    exact (pushes_pushEntry s _).trans hpos hrest
  · split at ht
    · exact pushes_of_some ht
    · exact .of_eq (by rw [← Option.some.inj ht, core_transferLeadership])

theorem pushesAll_commitOnce (hagain : PushesAll again) : PushesAll (commitOnce again) := by
  intro s s' hpos h
  unfold commitOnce at h
  split at h
  next l hl =>
    dsimp only at h
    split at h
    · exact pushes_of_some h
    next hlt =>
      obtain ⟨e, he, h⟩ := bind_eq_some_iff.mp h
      split at h
      · exact pushes_of_some h
      · have hcommit := Core.Pushes.commit s.core (not_le.mp hlt).le
          ((Log.le_of_getEntry he).2.trans (le_max_right _ _))
        split at h
        · exact hcommit.trans hpos ((pushes_committedConfChange hagain (by exact hpos) h).congr_left rfl)
        · cases h
          exact hcommit
  next => exact pushes_of_some h

theorem pushesAll_maybeCommit : PushesAll maybeCommit :=
  pushesAll_commitOnce (pushesAll_commitOnce pushesAll_some)

theorem pushes_advanceStableIdx {s s' : Fsm} (hpos : 0 < s.log.firstIdx) {i : ℕ}
    (h : s.advanceStableIdx i = some s') :
    ({ s.core with log := s.log.stableTo i } : Core).Pushes s'.core := by
  unfold advanceStableIdx at h
  dsimp only at h
  split at h
  · split at h
    · exact (pushesAll_maybeCommit _ _ (by exact hpos) h).congr_left rfl
    · exact pushes_of_some h
  · exact pushes_of_some h

theorem pushes_addEntry (data : EntryData) : s.core.Pushes (s.addEntry data).core := by
  unfold addEntry
  split
  · split
    · exact .refl _
    · split
      · split
        · exact .refl _
        · rw [core_setConfiguration]
          exact pushes_pushEntry s _
      · exact pushes_pushEntry s _
  · exact .refl _

theorem pushes_tickOther (timeout : ℕ) :
    s.core.Pushes (s.tickOther cfg alive timeout).core := by
  unfold tickOther
  dsimp only
  split
  · exact .refl _
  · split
    · exact pushes_becomeCandidate s _ _ _
    · exact .refl _

theorem pushes_tick (timeout : ℕ) :
    s.core.Pushes (s.tick cfg alive timeout).core := by
  unfold tick
  rw [core_searchLeader]
  split
  · exact .of_eq (core_tickLeader _ _ _)
  · exact (pushes_tickOther _ _ _).congr_left rfl

theorem pushes_requestVoteReply (votes : Votes) (campaign : Bool) (src : ServerId)
    (voteGranted isPrevote : Bool) (timeout : ℕ) : s.core.Pushes
      (s.requestVoteReply votes campaign src voteGranted isPrevote timeout).core := by
  unfold requestVoteReply
  dsimp only
  split
  · exact .refl _
  · split
    · exact .refl _
    · split
      · exact (pushes_becomeCandidate _ _ _ _).congr_left rfl
      · exact (pushes_becomeLeader _).congr_left rfl
    · exact .of_eq (core_becomeFollower _ _)

section

variable {s s' : Fsm} (hpos : 0 < s.log.firstIdx)

include hpos

theorem pushes_commitAndReplicate {id : ServerId}
    (h : s.commitAndReplicate cfg id = some s') : s.core.Pushes s'.core := by
  unfold commitAndReplicate at h
  split at h
  · obtain ⟨t, ht, h⟩ := bind_eq_some_iff.mp h
    have hcommit := pushesAll_maybeCommit _ _ hpos ht
    split at h
    · rw [← Option.some.inj h, core_replicateToId]
      exact hcommit
    · rwa [← Option.some.inj h]
  · exact pushes_of_some h

theorem pushes_appendAccepted {p : Progress}
    {lastNewIdx : ℕ} (h : s.appendAccepted cfg l p lastNewIdx = some s') :
    s.core.Pushes s'.core := by
  have hcore (l : Leader) (p : Progress) : (s.maybeHandOver l p).core = s.core := by
    unfold maybeHandOver
    split
    · rw [core_sendTimeoutNow]
    · rw [core_setLeader]
  refine (pushes_commitAndReplicate ?_ h).congr_left (hcore _ _)
  exact (congrArg (fun c => c.log.firstIdx) (hcore _ _)) ▸ hpos

theorem pushes_appendEntriesReply {src : ServerId} {commitIdx : ℕ} {result : AppendResult}
    (h : s.appendEntriesReply cfg l src commitIdx result = some s') : s.core.Pushes s'.core := by
  unfold appendEntriesReply at h
  split at h
  · exact pushes_of_some h
  next p _ =>
    generalize (if p.state = .pipeline then { p with inFlight := p.inFlight - 1 } else p) = p at h
    dsimp only at h
    split at h
    · exact pushes_of_some h
    · split at h
      · exact pushes_appendAccepted hpos h
      · cases h
        exact .of_eq (core_appendRejected _ _ _ _)

end

end Fsm

/-! ## All operations -/

inductive Core.Changes (usage : LogEntry → ℕ) (bound : ℕ) (installs : SnapshotDescriptor → Prop)
    (c : Core) : Core → Prop
  | pushes {c' : Core} : c.Pushes c' → Changes usage bound installs c c'
  | extends {log : Log} {i : ℕ} : c.log.Extended bound log → c.commitIdx ≤ i →
      i ≤ max c.commitIdx log.lastIdx →
      Changes usage bound installs c { c with log, commitIdx := i }
  | localSnapshot {snp : SnapshotDescriptor} {log : Log} {n bytes : ℕ} :
      c.log.snapshot.idx < snp.idx → snp.idx ≤ c.observedIdx →
      log = c.log.applySnapshot usage snp n bytes →
      Changes usage bound installs c ⟨log, max c.commitIdx snp.idx, c.observedIdx,
        some ⟨snp, true, snp.idx + 1 - log.firstIdx⟩⟩
  | remoteSnapshot {snp : SnapshotDescriptor} {log : Log} : installs snp →
      c.log.snapshot.idx < snp.idx → c.commitIdx < snp.idx →
      log = c.log.applySnapshot usage snp 0 0 →
      Changes usage bound installs c ⟨log, max c.commitIdx snp.idx, c.observedIdx,
        some ⟨snp, false, snp.idx + 1 - log.firstIdx⟩⟩

variable {a : Action} {installs : SnapshotDescriptor → Prop}

theorem Core.Changes.observedIdx_eq {usage : LogEntry → ℕ} {bound : ℕ} {c c' : Core}
    (h : c.Changes usage bound installs c') : c'.observedIdx = c.observedIdx := by
  cases h with
  | pushes hp => exact hp.observedIdx_eq
  | «extends» | localSnapshot | remoteSnapshot => rfl

namespace Fsm

variable {cfg : FsmConfig} {bound : ℕ} {s s' : Fsm}

theorem applySnapshot_cases {snp : SnapshotDescriptor} {bytes : ℕ} {isLocal applied : Bool}
    (h : s.applySnapshot cfg snp n bytes isLocal = some (s', applied)) :
    s'.core = s.core ∨
      (s.log.snapshot.idx < snp.idx ∧ (isLocal = true → snp.idx ≤ s.observed.commitIdx) ∧
        (isLocal = false → s.commitIdx < snp.idx) ∧
        ∃ log, log = s.log.applySnapshot cfg.memoryUsageOf snp n bytes ∧
          s'.core = ⟨log, max s.commitIdx snp.idx, s.observed.commitIdx,
            some ⟨snp, isLocal, snp.idx + 1 - log.firstIdx⟩⟩) := by
  obtain ⟨hassert, h⟩ := ite_none_right_eq_some.mp h
  split at h
  · cases h
    exact .inl rfl
  next hnew =>
    cases h
    simp only [Bool.or_eq_true, Bool.and_eq_true, decide_eq_true_eq, not_or, not_and, not_le,
      Bool.not_eq_true'] at hassert hnew
    refine .inr ⟨hnew.1, fun hl => ?_, hnew.2, _, rfl, rfl⟩
    rcases hassert with h | h
    · exact h.2
    · rw [hl] at h
      cases h.1

variable {src : ServerId}

theorem changes_appendEntries (hpos : 0 < s.log.firstIdx)
    {prevLogTerm leaderCommitIdx : ℕ} {entries : List LogEntry}
    (hok : s.log.Sendable bound prevLogIdx entries)
    (h : s.appendEntries src prevLogIdx prevLogTerm leaderCommitIdx entries = some s') :
    s.core.Changes cfg.memoryUsageOf bound installs s'.core := by
  unfold appendEntries at h
  split at h
  · cases h
    exact .pushes (.of_eq (core_sendTo _ _ _))
  · obtain ⟨log, hlog, h⟩ := bind_eq_some_iff.mp h
    cases h
    exact .extends (Log.extended_of_maybeAppend hpos hok hlog) (le_max_left _ _)
      (max_le_max le_rfl (min_le_right _ _))

end Fsm

/-- A message is one that a leader with these entries may send. -/
def Message.SendableTo (bound : ℕ) (log : Log) : Message → Prop
  | .appendRequest _ prevLogIdx _ _ entries => log.Sendable bound prevLogIdx entries
  | _ => True

namespace Fsm

def Allowed (bound : ℕ) (s : Fsm) : Action → Prop
  | .step _ m _ => s.currentTerm ≤ m.currentTerm → m.SendableTo bound s.log
  | _ => True

/-- An operation brings a snapshot of another server that is not refused for its term. -/
def Installs (s : Fsm) (a : Action) (snp : SnapshotDescriptor) : Prop :=
  ∃ src term timeout, a = .step src (.installSnapshot term snp) timeout ∧ s.currentTerm ≤ term

variable {cfg : FsmConfig} {bound : ℕ} {s s' : Fsm} {src : ServerId}

section

variable (hpos : 0 < s.log.firstIdx) {m : Message}

include hpos

theorem changes_stepCurrent (hok : m.SendableTo bound s.log)
    (hinstalls : ∀ term snp, m = .installSnapshot term snp → installs snp)
    (h : s.stepCurrent cfg src m timeout = some s') :
    s.core.Changes cfg.memoryUsageOf bound installs s'.core := by
  unfold stepCurrent at h
  split at h
  · cases h
    exact .pushes (.of_eq (core_requestVote _ _ _ _ _ _))
  · exact .pushes (pushes_appendEntriesReply hpos h)
  · cases h
    exact .pushes (.of_eq (core_installSnapshotReply _ _ _ _))
  · cases h
    exact .pushes (.of_eq (core_handleReadQuorumReply _ _ _ _ _))
  · cases h
    exact .pushes (pushes_requestVoteReply _ _ _ _ _ _ _)
  · exact changes_appendEntries hpos hok h
  · obtain ⟨⟨t, applied⟩, ht, h⟩ := bind_eq_some_iff.mp h
    cases h
    rw [core_sendTo]
    rcases applySnapshot_cases ht with hsame | ⟨hsnap, -, hcommit, log, hlog, hcore⟩
    · exact .pushes (.of_eq hsame)
    · rw [hcore]
      exact .remoteSnapshot (hinstalls _ _ rfl) hsnap (hcommit rfl) hlog
  · cases h
    exact .pushes (pushes_becomeCandidate _ _ _ _)
  · cases h
    exact .pushes ((.commit s.core (le_max_left _ _) (max_le_max le_rfl (min_le_right _ _))))
  · cases h
    exact .pushes (.refl _)
  · cases h
    exact .pushes (.refl _)

theorem changes_step (hok : s.Allowed bound (.step src m timeout))
    (h : s.step cfg src m timeout = some s') :
    s.core.Changes cfg.memoryUsageOf bound (s.Installs (.step src m timeout)) s'.core := by
  -- what comes before the message is handled keeps the core
  have hcore {t : Fsm} (ht : t.core = s.core) (hterm : s.currentTerm ≤ m.currentTerm)
      (h : t.stepCurrent cfg src m timeout = some s') :
      s.core.Changes cfg.memoryUsageOf bound (s.Installs (.step src m timeout)) s'.core := by
    have hlog : t.log = s.log := congrArg Core.log ht
    rw [← ht]
    refine changes_stepCurrent (hlog ▸ hpos) (hlog ▸ hok hterm) ?_ h
    rintro term snp rfl
    exact ⟨src, term, timeout, rfl, hterm⟩
  obtain ⟨-, h⟩ := ite_none_left_eq_some.mp h
  split at h
  next hlt =>
    split at h
    · cases h
      exact .pushes (.refl _)
    · refine hcore ?_ hlt.le h
      split
      · rfl
      · rw [core_updateCurrentTerm, core_becomeFollower]
  next =>
    split at h
    · cases h
      exact .pushes (.of_eq (core_stepEarlier _ _ _))
    next hge =>
      refine hcore ?_ (not_lt.mp hge) h
      split
      · rw [core_recogniseLeader]
      · rfl

end

theorem changes_perform (hpos : 0 < s.log.firstIdx) (hok : s.Allowed bound a)
    (h : Server.perform cfg s a = some s') :
    s.core.Changes cfg.memoryUsageOf bound (s.Installs a) s'.core := by
  cases a with
  | step src m timeout => exact changes_step hpos hok h
  | tick alive timeout =>
    cases h
    exact .pushes (pushes_tick _ _ _)
  | addEntry data =>
    cases h
    exact .pushes (pushes_addEntry _ _)
  | localSnapshot snp n bytes =>
    obtain ⟨⟨t, applied⟩, ht, rfl⟩ := map_eq_some_iff.mp h
    rcases applySnapshot_cases ht with hsame | ⟨hsnap, hlocal, -, log, hlog, hcore⟩
    · exact .pushes (.of_eq hsame)
    · rw [hcore]
      exact .localSnapshot hsnap (hlocal rfl) hlog
  | startReadBarrier requester =>
    cases h
    exact .pushes (.of_eq (core_startReadBarrier _ _))
  | transferLeadership timeout =>
    rw [Server.perform] at h
    split at h
    · cases h
      exact .pushes (.of_eq (core_transferLeadership _ _ _))
    · cases h
      exact .pushes (.refl _)
  | pingLeader =>
    obtain ⟨-, rfl⟩ := ite_some_none_eq_some.mp h
    exact .pushes (.refl _)
  | stop =>
    rw [Server.perform] at h
    split at h
    · cases h
      exact .pushes (.of_eq (core_becomeFollower _ _))
    · cases h
      exact .pushes (.refl _)
  | poll => cases h

/-! ## Fetching the output -/

@[simp] theorem core_sendReads (s : Fsm) : s.sendReads.core = s.core := by
  unfold sendReads
  split
  · split
    · rw [core_broadcastReadQuorum]
    · rfl
  · rfl

@[simp] theorem core_sendEntries (s : Fsm) : (s.sendEntries cfg).core = s.core := by
  unfold sendEntries
  split
  · split
    · rw [core_replicate]
    · rfl
  · rfl

theorem exists_markStable {o : FsmOutput} (h : s.getOutput cfg = some (o, s')) :
    o.snp = s.output.snp ∧
      entriesAt s.log (s.log.stableIdx + 1) (s.log.lastIdx - s.log.stableIdx) =
        some o.logEntries ∧
      entriesAt s.log (max s.observed.commitIdx s.log.snapshot.idx + 1)
        (s.commitIdx - max s.observed.commitIdx s.log.snapshot.idx) = some o.committed ∧
      ∃ t : Fsm, t.core = ⟨s.log, s.commitIdx, s.commitIdx, none⟩ ∧
        t.markStable o.logEntries = some s' := by
  have hcore : (s.sendReads.sendEntries cfg).core = s.core := by
    rw [core_sendEntries, core_sendReads]
  unfold getOutput at h
  dsimp only at h
  generalize s.sendReads.sendEntries cfg = t at h hcore
  have hlog : t.log = s.log := congrArg Core.log hcore
  have hcommit : t.commitIdx = s.commitIdx := congrArg Core.commitIdx hcore
  have hobserved : t.observed.commitIdx = s.observed.commitIdx := congrArg Core.observedIdx hcore
  have hsnp : t.output.snp = s.output.snp := congrArg Core.snp hcore
  rw [hlog, hcommit, hobserved] at h
  obtain ⟨logEntries, hentries, h⟩ := bind_eq_some_iff.mp h
  obtain ⟨committed, hcommitted, h⟩ := bind_eq_some_iff.mp h
  obtain ⟨t', ht', h⟩ := bind_eq_some_iff.mp h
  cases h
  refine ⟨hsnp, hentries, hcommitted, t.outputTaken, ?_, ht'⟩
  rw [← hlog, ← hcommit]
  rfl

theorem getOutput_spec {o : FsmOutput} (hpos : 0 < s.log.firstIdx)
    (h : s.getOutput cfg = some (o, s')) :
    o.snp = s.output.snp ∧
      entriesAt s.log (s.log.stableIdx + 1) (s.log.lastIdx - s.log.stableIdx) =
        some o.logEntries ∧
      entriesAt s.log (max s.observed.commitIdx s.log.snapshot.idx + 1)
        (s.commitIdx - max s.observed.commitIdx s.log.snapshot.idx) = some o.committed ∧
      Core.Pushes ⟨s.log.stableTo ((o.logEntries.getLast?.map LogEntry.idx).getD s.log.stableIdx),
        s.commitIdx, s.commitIdx, none⟩ s'.core := by
  obtain ⟨hsnp, hentries, hcommitted, t, ht, hs'⟩ := exists_markStable h
  refine ⟨hsnp, hentries, hcommitted, ?_⟩
  unfold markStable at hs'
  cases hlast : o.logEntries.getLast? with
  | none =>
    rw [hlast] at hs'
    cases hs'
    exact .of_eq ht
  | some e =>
    rw [hlast] at hs'
    have hlog : t.log = s.log := congrArg Core.log ht
    refine (pushes_advanceStableIdx (hlog ▸ hpos) hs').congr_left ?_
    rw [ht, hlog]
    rfl

end Fsm

end Scylla.Raft
