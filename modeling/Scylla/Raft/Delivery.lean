import Scylla.Raft.Invariant

/-!
# Entries are handed out once and in order

The committed entries in the outputs of a server go on where the outputs before have ended, or right
after a snapshot of another server that is handed out with them. The outputs therefore contain every
index at most once, and leave out only what such a snapshot covers.
-/

namespace Scylla.Raft

open List
open Option

/-- The index of a snapshot of another server in an output. -/
def FsmOutput.remoteIdx (o : FsmOutput) : ℕ :=
  match o.snp with
  | some a => if a.isLocal then 0 else a.snp.idx
  | none => 0

/-- The last index that outputs have handed out, the last output first. -/
def handedOut (start : ℕ) : List FsmOutput → ℕ
  | [] => start
  | o :: os => max (handedOut start os) o.remoteIdx + o.committed.length

def InOrder (start : ℕ) : List FsmOutput → Prop
  | [] => True
  | o :: os => InOrder start os ∧
      (∀ a ∈ o.snp, a.isLocal = false → handedOut start os < a.snp.idx) ∧
      o.committed.map LogEntry.idx =
        List.range' (max (handedOut start os) o.remoteIdx + 1) o.committed.length

section

variable {start : ℕ} {os : List FsmOutput}

theorem InOrder.covered (h : InOrder start os) {i : ℕ} (hi : start < i)
    (hi' : i ≤ handedOut start os) :
    (∃ o ∈ os, ∃ e ∈ o.committed, e.idx = i) ∨ ∃ o ∈ os, i ≤ o.remoteIdx := by
  induction os with
  | nil => exact absurd hi' hi.not_ge
  | cons o os ih =>
    obtain ⟨h, -, hidx⟩ := h
    rw [handedOut] at hi'
    rcases le_or_gt i (handedOut start os) with hle | hgt
    · rcases ih h hle with ⟨o', ho', he⟩ | ⟨o', ho', hle⟩
      · exact .inl ⟨o', mem_cons_of_mem o ho', he⟩
      · exact .inr ⟨o', mem_cons_of_mem o ho', hle⟩
    · rcases le_or_gt i o.remoteIdx with hle | hgt'
      · exact .inr ⟨o, mem_cons_self, hle⟩
      · have hmem : i ∈ o.committed.map LogEntry.idx := by
          rw [hidx, mem_range'_1]
          omega
        obtain ⟨e, he, rfl⟩ := mem_map.mp hmem
        exact .inl ⟨o, mem_cons_self, e, he, rfl⟩

end

/-! ## Runs -/

structure Server.Delivers (start : ℕ) (s : Server) : Prop where
  sound : s.fsm.core.Sound
  inOrder : InOrder start s.outputs
  handedOut_eq : handedOut start s.outputs = s.fsm.observed.commitIdx

namespace Server.Delivers

variable {start : ℕ} {s : Server} {cfg : FsmConfig}

theorem perform (h : s.Delivers start) {a : Action} {fsm : Fsm}
    (hok : s.fsm.Allowed s.fsm.commitIdx a) (hp : perform cfg s.fsm a = some fsm) :
    (settle { s with fsm }).Delivers start := by
  have hchanges := Fsm.changes_perform h.sound.valid.firstIdx_pos hok hp
  exact ⟨h.sound.changes le_rfl hchanges, h.inOrder,
    h.handedOut_eq.trans hchanges.observedIdx_eq.symm⟩

theorem max_remoteIdx {s s' : Fsm} {o : FsmOutput} (hs : s.core.Sound) (ho : s.Outputs o s') :
    max s.observed.commitIdx o.remoteIdx = max s.observed.commitIdx s.log.snapshot.idx := by
  unfold FsmOutput.remoteIdx
  rw [ho.snp_eq]
  cases ha : s.output.snp with
  | none =>
    have hle : s.log.snapshot.idx ≤ s.observed.commitIdx := by
      refine not_lt.mp fun hlt => ?_
      have hsome := hs.pending hlt
      rw [show s.core.snp = none from ha] at hsome
      cases hsome
    rw [max_eq_left hle, Nat.max_zero]
  | some a =>
    have hremote := hs.remote_iff a ha
    dsimp only
    split
    next hlocal =>
      have hle : s.log.snapshot.idx ≤ s.observed.commitIdx := by
        refine not_lt.mp fun hlt => ?_
        rw [hremote.mpr hlt] at hlocal
        cases hlocal
      rw [max_eq_left hle, Nat.max_zero]
    next => rw [(hs.snp_eq a ha).1]
            rfl

theorem poll (h : s.Delivers start) {s' : Server} (hp : s.poll cfg = some s') :
    s'.settle.Delivers start := by
  obtain ⟨⟨o, fsm⟩, ho, hp⟩ := bind_eq_some_iff.mp hp
  cases hp
  have hout := Fsm.outputs_of_getOutput h.sound ho
  have hmax := max_remoteIdx h.sound hout
  have hlength : o.committed.length = s.fsm.commitIdx -
      max s.fsm.observed.commitIdx s.fsm.log.snapshot.idx := by
    rw [← length_map LogEntry.idx, hout.committed_eq, length_range']
  have hle : max s.fsm.observed.commitIdx s.fsm.log.snapshot.idx ≤ s.fsm.commitIdx :=
    max_le h.sound.observed_le h.sound.snapshot_le
  refine ⟨hout.sound h.sound, ⟨h.inOrder, fun a ha hremote => ?_, ?_⟩, ?_⟩
  · rw [h.handedOut_eq]
    rw [hout.snp_eq] at ha
    rw [(h.sound.snp_eq a ha).1]
    exact (h.sound.remote_iff a ha).mp hremote
  · rw [h.handedOut_eq, hmax, hlength]
    exact hout.committed_eq
  · have hobserved : fsm.observed.commitIdx = s.fsm.commitIdx := hout.pushes.observedIdx_eq
    change max (handedOut start s.outputs) o.remoteIdx + o.committed.length = fsm.observed.commitIdx
    rw [h.handedOut_eq, hmax, hlength, hobserved]
    omega

theorem step (h : s.Delivers start) {a : Action} {s' : Server}
    (hok : s.fsm.Allowed s.fsm.commitIdx a) (hs : Server.step cfg s a = some s') :
    s'.Delivers start := by
  unfold Server.step at hs
  split at hs
  · obtain ⟨t, ht, rfl⟩ := map_eq_some_iff.mp hs
    exact h.poll ht
  · obtain ⟨fsm, hfsm, rfl⟩ := map_eq_some_iff.mp hs
    exact h.perform hok hfsm

theorem of_start {myId : ServerId} {disk : Persistence} {timeout : ℕ}
    (hdisk : disk.Valid) (h : Server.start cfg myId disk timeout = some s) :
    s.Delivers disk.snapshot.idx := by
  obtain ⟨log, hlog, -, hsound, hpushes, -, -, houtputs, -⟩ := exists_of_start hdisk h
  refine ⟨hsound.pushes hpushes, houtputs ▸ trivial, ?_⟩
  rw [houtputs]
  change disk.snapshot.idx = s.fsm.core.observedIdx
  rw [hpushes.observedIdx_eq, (Log.load_spec hlog).1]

end Server.Delivers

namespace Follower

/-- A configuration with the limits that the runs below do not reach. -/
def cfg : FsmConfig := ⟨100, false, fun _ => 1, fun _ => 1⟩

theorem config_nodup : ([⟨1, true⟩, ⟨2, true⟩, ⟨3, true⟩].map ConfigMember.id).Nodup := by decide

/-- Three voters. -/
def config : Configuration := ⟨⟨[⟨1, true⟩, ⟨2, true⟩, ⟨3, true⟩], config_nodup⟩, .empty⟩

/-- Three entries of a leader that has committed none of them. -/
def disk : Persistence :=
  ⟨1, none, ⟨0, 0, config, 0⟩, [⟨1, 1, .dummy⟩, ⟨1, 2, .dummy⟩, ⟨1, 3, .dummy⟩], 0⟩

theorem disk_valid : disk.Valid := by
  rintro log ⟨⟩
  refine ⟨fun n e h => ?_, by decide, by decide, by decide, by decide⟩
  match n, h with
  | 0, h | 1, h | 2, h =>
    cases h
    rfl

/-- The second server starts from this disk. -/
def started : Server := (Server.start cfg 2 disk 10).get rfl

/-- The leader of term two replaces all entries and has committed its first. -/
def request : Action := .step 1 (.appendRequest 2 0 0 1 [⟨2, 1, .dummy⟩, ⟨2, 2, .dummy⟩]) 10

/-- The leader of term one is late, and has another first entry. -/
def stale : Action := .step 3 (.appendRequest 1 0 0 1 [⟨1, 1, .dummy⟩]) 10

/-- The leader of term three replaces the entry that is not committed. -/
def replacing : Action := .step 3 (.appendRequest 3 1 2 1 [⟨3, 2, .dummy⟩]) 10

/-- It goes on with a snapshot of three entries. -/
def snapshot : Action := .step 3 (.installSnapshot 3 ⟨3, 3, config, 1⟩) 10

/-- The server after the first request. -/
def requested : Server := (started.step cfg request).get rfl

/-- The first output hands out the first entry. -/
def polled : Server := (requested.step cfg .poll).get rfl

/-- The late request is refused. -/
def refused : Server := (polled.step cfg stale).get rfl

/-- The server after the request that replaces an entry. -/
def replaced : Server := (refused.step cfg replacing).get rfl

/-- The server after the snapshot. -/
def installed : Server := (replaced.step cfg snapshot).get rfl

/-- The second output hands out the snapshot. -/
def polledAgain : Server := (installed.step cfg .poll).get rfl

section

variable {ok : Server → Action → Prop}

theorem reaches_refused (hrequest : ok started request) (hpoll : ok requested .poll)
    (hstale : ok polled stale) : Reaches (Server.step cfg) ok started refused :=
  .step (.step (.step .init hrequest (some_get _).symm) hpoll (some_get _).symm) hstale
    (some_get _).symm

theorem reaches_installed {s : Server} (h : Reaches (Server.step cfg) ok s refused)
    (hreplacing : ok refused replacing) (hsnapshot : ok replaced snapshot) :
    Reaches (Server.step cfg) ok s installed :=
  .step (.step h hreplacing (some_get _).symm) hsnapshot (some_get _).symm

end

section

variable {bound : ℕ}

theorem allowed_request (h : bound < 1) : started.fsm.Allowed bound request :=
  fun _ => .of_bound_lt rfl (by simp; omega)

theorem allowed_stale : polled.fsm.Allowed bound stale := fun h => absurd h (by decide)

theorem allowed_replacing (h : bound < 2) : refused.fsm.Allowed bound replacing :=
  fun _ => .of_bound_lt rfl (by simp; omega)

end

end Follower

/-- No entry up to the commit index was replaced. -/
def Core.Keeps (c c' : Core) : Prop :=
  c.commitIdx ≤ c'.commitIdx ∧ ∀ e ∈ c'.log.entries, e.idx ≤ c.commitIdx → e ∈ c.log.entries

theorem Core.Sound.keeps (usage : LogEntry → ℕ) {installs : SnapshotDescriptor → Prop} {c c' : Core}
    (h : c.Sound) (hc : c.Changes usage c.commitIdx installs c') : c.Keeps c' := by
  have hextended {l : Log} (hlog : c.log.Extended c.commitIdx l) :
      ∀ e ∈ l.entries, e.idx ≤ c.commitIdx → e ∈ c.log.entries :=
    fun _ => hlog.mem_of_le h.valid.firstIdx_pos h.commit_le
  have hdropped {snp : SnapshotDescriptor} (hsnap : c.log.snapshot.idx < snp.idx) (n bytes : ℕ) :
      ∀ e ∈ (c.log.applySnapshot usage snp n bytes).entries, e ∈ c.log.entries := by
    rw [Log.entries_applySnapshot, (Log.dropCovered_spec usage h.valid hsnap n bytes).2.2.1]
    exact fun _ => mem_of_mem_drop
  cases hc with
  | pushes hp => exact ⟨hp.commitIdx_le, hextended (.pushed hp.log)⟩
  | «extends» hlog hle _ => exact ⟨hle, hextended hlog⟩
  | localSnapshot hsnap _ hlog =>
    exact ⟨le_max_left _ _, fun e he _ => hdropped hsnap _ _ e (hlog ▸ he)⟩
  | remoteSnapshot _ hsnap _ hlog =>
    exact ⟨le_max_left _ _, fun e he _ => hdropped hsnap _ _ e (hlog ▸ he)⟩

theorem Server.Delivers.keeps {start : ℕ} {s s' : Server} {cfg : FsmConfig} {a : Action}
    (h : s.Delivers start) (hok : s.fsm.Allowed s.fsm.commitIdx a)
    (hs : Server.step cfg s a = some s') : s.fsm.core.Keeps s'.fsm.core := by
  unfold Server.step at hs
  split at hs
  · obtain ⟨t, ht, rfl⟩ := map_eq_some_iff.mp hs
    obtain ⟨⟨o, fsm⟩, ho, ht⟩ := bind_eq_some_iff.mp ht
    cases ht
    have hchanges : Core.Changes cfg.memoryUsageOf s.fsm.commitIdx (fun _ => False) _ _ :=
      .pushes (Fsm.outputs_of_getOutput h.sound ho).pushes
    exact h.sound.taken.keeps _ hchanges
  · obtain ⟨fsm, hfsm, rfl⟩ := map_eq_some_iff.mp hs
    exact h.sound.keeps _ (Fsm.changes_perform h.sound.valid.firstIdx_pos hok hfsm)

/-- From any state of a run on, the commit index does not go back, and the log has no other entry in
the place of one that was committed. -/
theorem committed_entries_stay (cfg : FsmConfig) (myId : ServerId) (disk : Persistence)
    (hdisk : disk.Valid) (timeout : ℕ) (s₀ s s' : Server)
    (hstart : Server.start cfg myId disk timeout = some s₀)
    (hrun : Reaches (Server.step cfg) (fun s a => s.fsm.Allowed s.fsm.commitIdx a) s₀ s)
    (hrun' : Reaches (Server.step cfg) (fun s a => s.fsm.Allowed s.fsm.commitIdx a) s s') :
    s.fsm.core.Keeps s'.fsm.core := by
  have h : s.Delivers disk.snapshot.idx := hrun.invariant (.of_start hdisk hstart)
    fun _ _ _ hs hok hstep => hs.step hok hstep
  refine (hrun'.invariant (I := fun t => t.Delivers disk.snapshot.idx ∧ s.fsm.core.Keeps t.fsm.core)
    ⟨h, le_rfl, fun _ he _ => he⟩ fun t a t' ht hok hstep => ?_).2
  obtain ⟨hle, hmem⟩ := ht.1.keeps hok hstep
  exact ⟨ht.1.step hok hstep, ht.2.1.trans hle, fun e he hidx =>
    ht.2.2 e (hmem e he (hidx.trans ht.2.1)) hidx⟩

/-- The follower keeps its committed entry when the one behind it is replaced. -/
theorem Follower.committed_entries_stay_follower :
    refused.fsm.commitIdx = 1 ∧ refused.fsm.log.entries = [⟨2, 1, .dummy⟩, ⟨2, 2, .dummy⟩] ∧
      replaced.fsm.log.entries = [⟨2, 1, .dummy⟩, ⟨3, 2, .dummy⟩] ∧
      refused.fsm.core.Keeps replaced.fsm.core :=
  ⟨rfl, rfl, rfl, committed_entries_stay cfg 2 disk disk_valid 10 started refused replaced
    (some_get _).symm (reaches_refused (allowed_request (by decide)) trivial allowed_stale)
    (.step .init (allowed_replacing (by decide)) (some_get _).symm)⟩

end Scylla.Raft
