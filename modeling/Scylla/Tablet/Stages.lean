import Scylla.Core.Quorum
import Scylla.Tablet.Migration

/-!
# The stages that coexist during a migration

Which updates the topology coordinator can make, and which replica sets may therefore be in use
next to those of the current stage: a barrier stands between any two stages whose replica sets must
not meet.
-/

namespace Scylla.Tablet

open TabletInfo
open Function
open Finset

variable {α : Type} [DecidableEq α]

/-! ## The updates of the coordinator -/

/-- The updates of a stage, and whether the barrier of the stage comes before. -/
inductive Follows : Stage → Update → Bool → Prop
  | writeBothReadOld : Follows .allowWriteBothReadOld (.setStage .writeBothReadOld) true
  | streaming : Follows .writeBothReadOld (.setStage .streaming) true
  | writeBothReadNew : Follows .streaming (.setStage .writeBothReadNew) false
  | cleanupTarget : Follows .streaming (.setStage .cleanupTarget) true
  | useNew : Follows .writeBothReadNew (.setStage .useNew) true
  | cleanup : Follows .useNew (.setStage .cleanup) true
  | endMigration : Follows .cleanup (.setStage .endMigration) false
  | revertMigration : Follows .cleanupTarget (.setStage .revertMigration) false
  | delTransition : Follows .revertMigration .delTransition true
  | setReplicas : Follows .endMigration .setReplicas true

/-- What the coordinator may have started when it does not update the tablet. -/
structure Started (stage : Stage) (version : ℕ) (held : ℕ → Bool) (ts ts' : TabletState) :
    Prop where
  other : ∀ stage', stage' ≠ stage → ts'.barriers stage' = ts.barriers stage'
  barrier : ts'.barriers stage = ts.barriers stage ∨ ts'.barriers stage = .running version
  streaming : ts'.streaming = ts.streaming ∨ stage = .streaming ∧ ts'.streaming = .running held

/-- An update changes nothing that the coordinator has in memory. -/
structure Completed (stage : Stage) (update : Update) (ts ts' : TabletState) : Prop where
  barriers : ts'.barriers = ts.barriers
  streaming : ts'.streaming = ts.streaming
  follows : ∃ barrier, Follows stage update barrier ∧
    (barrier = true → ∃ version, ts.barriers stage = .succeeded version)
  copied : update = .setStage .writeBothReadNew → ∃ held, ts.streaming = .succeeded held

inductive Handled (stage : Stage) (version : ℕ) (held : ℕ → Bool) (ts : TabletState) :
    TabletState × Option Update → Prop
  | started {ts' : TabletState} : Started stage version held ts ts' →
      Handled stage version held ts (ts', none)
  | completed {ts' : TabletState} {update : Update} : Completed stage update ts ts' →
      Handled stage version held ts (ts', some update)

section

variable {stage : Stage} {version : ℕ} {held : ℕ → Bool} {ts : TabletState} {update : Update}

theorem handled_withBarrier_of_failed (h : (ts.barriers stage).isFailed = true) :
    Handled stage version held ts (ts.withBarrier stage version update) := by
  unfold TabletState.withBarrier TabletState.doBarrier
  cases hb : ts.barriers stage with
  | failed =>
    refine .started ⟨fun stage' hne => ?_, .inr ?_, .inl rfl⟩
    · exact update_of_ne hne ..
    · exact update_self ..
  | idle => simp [hb, Holder.isFailed] at h
  | running v => simp [hb, Holder.isFailed] at h
  | succeeded v => simp [hb, Holder.isFailed] at h

theorem handled_withBarrier (hfollows : Follows stage update true) :
    Handled stage version held ts (ts.withBarrier stage version update) := by
  unfold TabletState.withBarrier TabletState.doBarrier
  cases hb : ts.barriers stage with
  | succeeded v =>
    refine .completed ⟨?_, rfl, ⟨true, hfollows, fun _ => ⟨v, hb⟩⟩, ?_⟩
    · rw [← hb]
      exact update_eq_self ..
    · rintro rfl
      cases hfollows
  | idle | failed =>
    refine .started ⟨fun stage' hne => ?_, .inr ?_, .inl rfl⟩
    · exact update_of_ne hne ..
    · exact update_self ..
  | running v =>
    refine .started ⟨fun stage' hne => ?_, .inl ?_, .inl rfl⟩
    · exact update_of_ne hne ..
    · exact (update_self ..).trans hb.symm

theorem handled_cleanup (hfollows : Follows stage update false)
    (hne : update ≠ .setStage .writeBothReadNew) :
    Handled stage version held ts
      ({ ts with cleanup := (ts.cleanup.advance ()).1 },
        if (ts.cleanup.advance ()).2 then some update else none) := by
  split
  · exact .completed ⟨rfl, rfl, ⟨false, hfollows, by rintro ⟨⟩⟩, fun h => absurd h hne⟩
  · exact .started ⟨fun _ _ => rfl, .inl rfl, .inl rfl⟩

end

theorem handled_handleTabletMigration (t : TabletInfo α) (info : TransitionInfo α)
    (excluded : Finset α) (version : ℕ) (held : ℕ → Bool) (ts : TabletState) :
    Handled info.stage version held ts
      (handleTabletMigration t info excluded version held ts) := by
  unfold handleTabletMigration
  cases hstage : info.stage with
  | allowWriteBothReadOld =>
    dsimp only
    split
    next h => exact handled_withBarrier_of_failed (Bool.and_eq_true_iff.mp h).1
    next => exact handled_withBarrier .writeBothReadOld
  | writeBothReadOld =>
    dsimp only
    split
    next h => exact handled_withBarrier_of_failed (Bool.and_eq_true_iff.mp h).1
    next => exact handled_withBarrier .streaming
  | streaming =>
    dsimp only
    split
    next => exact handled_withBarrier .cleanupTarget
    next =>
      cases hs : ts.streaming with
      | succeeded h =>
        refine .completed ⟨rfl, hs.symm, ⟨false, .writeBothReadNew, by rintro ⟨⟩⟩, ?_⟩
        exact fun _ => ⟨h, hs⟩
      | idle | failed => exact .started ⟨fun _ _ => rfl, .inl rfl, .inr ⟨rfl, rfl⟩⟩
      | running h => exact .started ⟨fun _ _ => rfl, .inl rfl, .inl hs.symm⟩
  | writeBothReadNew =>
    dsimp only
    split
    next h => exact handled_withBarrier_of_failed (Bool.and_eq_true_iff.mp h).1
    next => exact handled_withBarrier .useNew
  | useNew => exact handled_withBarrier .cleanup
  | cleanup => exact handled_cleanup .endMigration (by rintro ⟨⟩)
  | cleanupTarget => exact handled_cleanup .revertMigration (by rintro ⟨⟩)
  | revertMigration => exact handled_withBarrier .delTransition
  | endMigration => exact handled_withBarrier .setReplicas

/-! ## The replica sets in use -/

/-- The replica is moved from `l` to `p`. -/
structure Moves (t : TabletInfo α) (info : TransitionInfo α) (l p : α) : Prop where
  mem : l ∈ t.replicas
  notMem : p ∉ t.replicas
  next : info.next = insert p (t.replicas.erase l)
  pendingReplica : info.pendingReplica = some p

variable {t : TabletInfo α} {info : TransitionInfo α} {stage stage' : Stage} {barrier : Bool}
  {l p : α}

theorem Moves.card_next (h : Moves t info l p) : info.next.card = t.replicas.card := by
  rw [h.next, card_insert_of_notMem fun hp => h.notMem (mem_of_mem_erase hp),
    card_erase_add_one h.mem]

theorem Moves.ne (h : Moves t info l p) : l ≠ p := fun heq => h.notMem (heq ▸ h.mem)

theorem Moves.leaving (h : Moves t info l p) : t.leaving info = {l} := by
  unfold TabletInfo.leaving
  rw [h.next]
  ext x
  simp only [mem_sdiff, mem_insert, mem_erase, mem_singleton]
  constructor
  · tauto
  · rintro rfl
    exact ⟨h.mem, fun hx => hx.elim h.ne fun hx => hx.1 rfl⟩

/-- The replica sets that the selectors stand for. -/
def TabletInfo.select (t : TabletInfo α) (info : TransitionInfo α) :
    WriteSelector × ReadSelector → View α
  | (w, r) =>
    ⟨if w = .next then info.next else t.replicas,
      if w = .both then info.pendingReplica.toFinset else ∅,
      if r = .next then info.next else t.replicas⟩

omit [DecidableEq α] in
theorem TabletInfo.view_eq_select (h : t.transition = some info) :
    t.view = t.select info (info.stage.selectorForWrites, info.stage.selectorForReads) := by
  unfold view getReplicasForWrite getPendingEndpoints getEndpointsForReading select
  rw [h]
  dsimp only
  cases info.stage.selectorForWrites <;> cases info.stage.selectorForReads <;> rfl

def Stage.selectors : Stage → List (WriteSelector × ReadSelector)
  | allowWriteBothReadOld => [(.previous, .previous)]
  | writeBothReadOld => [(.previous, .previous), (.both, .previous)]
  | streaming => [(.both, .previous)]
  | writeBothReadNew => [(.both, .previous), (.both, .next)]
  | useNew => [(.both, .next), (.next, .next)]
  | cleanup | endMigration => [(.next, .next)]
  | cleanupTarget | revertMigration => [(.previous, .previous), (.both, .previous)]

/-- The replica sets that may be in use. -/
def TabletInfo.Allows (t : TabletInfo α) (v : View α) : Prop :=
  match t.transition with
  | none => v = ⟨t.replicas, ∅, t.replicas⟩
  | some info => ∃ sel ∈ info.stage.selectors, v = t.select info sel

section

omit [DecidableEq α]

theorem TabletInfo.allows_iff_of_none {v : View α} (h : t.transition = none) :
    t.Allows v ↔ v = ⟨t.replicas, ∅, t.replicas⟩ := by
  unfold Allows
  rw [h]

theorem TabletInfo.allows_iff {v : View α} (h : t.transition = some info) :
    t.Allows v ↔ ∃ sel ∈ info.stage.selectors, v = t.select info sel := by
  unfold Allows
  rw [h]

theorem TabletInfo.allows_view (t : TabletInfo α) : t.Allows t.view := by
  cases h : t.transition with
  | none =>
    rw [allows_iff_of_none h, view, getReplicasForWrite, getPendingEndpoints,
      getEndpointsForReading, h]
  | some info =>
    rw [allows_iff h, view_eq_select h]
    refine ⟨_, ?_, rfl⟩
    cases info.stage <;> decide

end

/-- The order in which the stages can be reached. -/
def Stage.rank : Stage → ℕ
  | allowWriteBothReadOld => 0
  | writeBothReadOld => 1
  | streaming => 2
  | writeBothReadNew => 3
  | useNew => 4
  | cleanup => 5
  | endMigration => 6
  | cleanupTarget => 7
  | revertMigration => 8

theorem Follows.rank_lt (h : Follows stage (.setStage stage') barrier) :
    stage.rank < stage'.rank := by
  cases h <;> decide

theorem Follows.of_delTransition (h : Follows stage .delTransition barrier) :
    stage = .revertMigration ∧ barrier = true := by
  cases h
  exact ⟨rfl, rfl⟩

theorem Follows.of_setReplicas (h : Follows stage .setReplicas barrier) :
    stage = .endMigration ∧ barrier = true := by
  cases h
  exact ⟨rfl, rfl⟩

theorem Follows.selector_mem (h : Follows stage (.setStage stage') true) :
    (stage.selectorForWrites, stage.selectorForReads) ∈ stage'.selectors := by
  cases h <;> decide

theorem Follows.selectors_subset (h : Follows stage (.setStage stage') false)
    {sel : WriteSelector × ReadSelector} (hsel : sel ∈ stage.selectors) :
    sel ∈ stage'.selectors := by
  cases h <;> revert sel <;> decide

/-! ## The invariant of the stages -/

/-- What holds of the tablet, of its coordinator and of the versions in use. -/
structure Staged (s : State α) : Prop where
  card : s.tablet.replicas.card = s.replicationFactor
  moves : ∀ info, s.tablet.transition = some info → ∃ l p, Moves s.tablet info l p
  latest : ∀ e ∈ s.inUse, e.1 ≤ s.version ∧ (e.1 = s.version → e.2 = s.tablet.view)
  allowed : ∀ e ∈ s.inUse, s.tablet.Allows e.2
  writes : ∀ w ∈ s.writes, w.progress = .active → (w.version, w.view) ∈ s.inUse
  reads : ∀ r ∈ s.reads, r.progress = .active → (r.version, r.view) ∈ s.inUse
  running : ∀ info version, s.tablet.transition = some info →
    s.tabletState.barriers info.stage = .running version → version = s.version
  /-- After the barrier of a stage nothing but its own replica sets is in use. -/
  succeeded : ∀ info version, s.tablet.transition = some info →
    s.tabletState.barriers info.stage = .succeeded version → ∀ e ∈ s.inUse, e.2 = s.tablet.view
  /-- The barriers of the stages to come have not been started. -/
  idle : ∀ stage, (∀ info, s.tablet.transition = some info → info.stage.rank < stage.rank) →
    s.tabletState.barriers stage = .idle
  /-- Streaming has not been started before its stage. -/
  streaming : (∀ info, s.tablet.transition = some info →
    info.stage.rank < Stage.streaming.rank) → s.tabletState.streaming = .idle

namespace Staged

variable {s : State α}

theorem initial (replicas : Finset α) : Staged (State.initial replicas) where
  card := rfl
  moves := fun _ h => nomatch h
  latest := by
    rintro e he
    rw [List.mem_singleton.mp he]
    exact ⟨le_rfl, fun _ => rfl⟩
  allowed := by
    rintro e he
    rw [List.mem_singleton.mp he]
    exact allows_view _
  writes := fun _ h => nomatch h
  reads := fun _ h => nomatch h
  running := fun _ _ h => nomatch h
  succeeded := fun _ _ h => nomatch h
  idle := fun _ _ => rfl
  streaming := fun _ => rfl

theorem of_requests (h : Staged s) {s' : State α}
    (hfactor : s'.replicationFactor = s.replicationFactor) (htablet : s'.tablet = s.tablet)
    (hstate : s'.tabletState = s.tabletState) (hversion : s'.version = s.version)
    (hinUse : s'.inUse = s.inUse)
    (hwrites : ∀ w ∈ s'.writes, w.progress = .active → (w.version, w.view) ∈ s.inUse)
    (hreads : ∀ r ∈ s'.reads, r.progress = .active → (r.version, r.view) ∈ s.inUse) :
    Staged s' where
  card := by
    rw [htablet, hfactor]
    exact h.card
  moves := htablet ▸ h.moves
  latest := by
    rw [hinUse, hversion, htablet]
    exact h.latest
  allowed := by
    rw [hinUse, htablet]
    exact h.allowed
  writes := hinUse ▸ hwrites
  reads := hinUse ▸ hreads
  running := by
    rw [htablet, hstate, hversion]
    exact h.running
  succeeded := by
    rw [htablet, hstate, hinUse]
    exact h.succeeded
  idle := by
    rw [htablet, hstate]
    exact h.idle
  streaming := by
    rw [htablet, hstate]
    exact h.streaming

theorem of_tabletState (h : Staged s) {ts : TabletState} {inUse : List (ℕ × View α)}
    (hsub : ∀ e ∈ inUse, e ∈ s.inUse)
    (hwrites : ∀ w ∈ s.writes, w.progress = .active → (w.version, w.view) ∈ inUse)
    (hreads : ∀ r ∈ s.reads, r.progress = .active → (r.version, r.view) ∈ inUse)
    (hrunning : ∀ info version, s.tablet.transition = some info →
      ts.barriers info.stage = .running version → version = s.version)
    (hsucceeded : ∀ info version, s.tablet.transition = some info →
      ts.barriers info.stage = .succeeded version → ∀ e ∈ inUse, e.2 = s.tablet.view)
    (hidle : ∀ stage, s.tabletState.barriers stage = .idle →
      (∀ info, s.tablet.transition = some info → info.stage ≠ stage) →
        ts.barriers stage = .idle)
    (hstreaming : s.tabletState.streaming = .idle →
      (∀ info, s.tablet.transition = some info → info.stage ≠ .streaming) →
        ts.streaming = .idle) :
    Staged { s with tabletState := ts, inUse } where
  card := h.card
  moves := h.moves
  latest := fun e he => h.latest e (hsub e he)
  allowed := fun e he => h.allowed e (hsub e he)
  writes := hwrites
  reads := hreads
  running := hrunning
  succeeded := hsucceeded
  idle := by
    intro stage hlater
    refine hidle stage (h.idle stage hlater) fun info hinfo heq => ?_
    have hlt := hlater info hinfo
    rw [heq] at hlt
    exact hlt.false
  streaming := by
    intro hbefore
    refine hstreaming (h.streaming hbefore) fun info hinfo heq => ?_
    have hlt := hbefore info hinfo
    rw [heq] at hlt
    exact hlt.false

theorem setTablet (h : Staged s) (ts : TabletState)
    (hcard : t.replicas.card = s.replicationFactor)
    (hmoves : ∀ info, t.transition = some info → ∃ l p, Moves t info l p)
    (hallowed : ∀ e ∈ s.inUse, t.Allows e.2)
    (hidle : ∀ stage, (∀ info, t.transition = some info → info.stage.rank ≤ stage.rank) →
      ts.barriers stage = .idle)
    (hstreaming : (∀ info, t.transition = some info → info.stage.rank ≤ Stage.streaming.rank) →
      ts.streaming = .idle) :
    Staged { s.setTablet t with tabletState := ts } where
  card := hcard
  moves := hmoves
  latest := by
    intro e he
    obtain rfl | he := List.mem_cons.mp he
    · exact ⟨le_rfl, fun _ => rfl⟩
    · have hle := (h.latest e he).1
      refine ⟨Nat.le_succ_of_le hle, fun heq => ?_⟩
      exact absurd (heq.symm.trans_le hle) (Nat.not_succ_le_self _)
  allowed := by
    intro e he
    obtain rfl | he := List.mem_cons.mp he
    · exact t.allows_view
    · exact hallowed e he
  writes := fun w hw hactive => List.mem_cons_of_mem _ (h.writes w hw hactive)
  reads := fun r hr hactive => List.mem_cons_of_mem _ (h.reads r hr hactive)
  running := by
    intro info version hinfo hrunning
    have hidle := hidle info.stage (by
      intro info' hinfo'
      rw [Option.some.inj (hinfo.symm.trans hinfo')])
    exact absurd (hidle.symm.trans hrunning) (fun h => nomatch h)
  succeeded := by
    intro info version hinfo hsucceeded
    have hidle := hidle info.stage (by
      intro info' hinfo'
      rw [Option.some.inj (hinfo.symm.trans hinfo')])
    exact absurd (hidle.symm.trans hsucceeded) (fun h => nomatch h)
  idle := fun stage hlater => hidle stage fun info hinfo => (hlater info hinfo).le
  streaming := fun hbefore => hstreaming fun info hinfo => (hbefore info hinfo).le

theorem applyUpdate (h : Staged s) {ts : TabletState} {update : Update}
    (hinfo : s.tablet.transition = some info)
    (hcompleted : Completed info.stage update s.tabletState ts) :
    Staged (State.applyUpdate { s with tabletState := ts } info update) := by
  obtain ⟨l, p, hmove⟩ := h.moves info hinfo
  obtain ⟨barrier, hfollows, hbarrier⟩ := hcompleted.follows
  -- After a barrier only the replica sets of the current stage are in use.
  have honly : barrier = true → ∀ e ∈ s.inUse, e.2 = s.tablet.select info
      (info.stage.selectorForWrites, info.stage.selectorForReads) := by
    intro hb e he
    obtain ⟨version, hversion⟩ := hbarrier hb
    rw [h.succeeded info version hinfo hversion e he, view_eq_select hinfo]
  cases update with
  | setStage stage =>
    refine h.setTablet ts h.card ?_ ?_ ?_ ?_
    · intro info' hinfo'
      cases hinfo'
      exact ⟨l, p, hmove.mem, hmove.notMem, hmove.next, hmove.pendingReplica⟩
    · intro e he
      cases barrier with
      | true => exact ⟨_, hfollows.selector_mem, honly rfl e he⟩
      | false =>
        obtain ⟨sel, hsel, heq⟩ := (allows_iff hinfo).mp (h.allowed e he)
        exact ⟨sel, hfollows.selectors_subset hsel, heq⟩
    · intro stage' hle
      rw [hcompleted.barriers]
      refine h.idle stage' fun info' hinfo' => ?_
      cases hinfo.symm.trans hinfo'
      exact hfollows.rank_lt.trans_le (hle _ rfl)
    · intro hle
      rw [hcompleted.streaming]
      refine h.streaming fun info' hinfo' => ?_
      cases hinfo.symm.trans hinfo'
      exact hfollows.rank_lt.trans_le (hle _ rfl)
  | delTransition =>
    obtain ⟨hstage, rfl⟩ := hfollows.of_delTransition
    refine h.setTablet .fresh h.card (fun _ h => nomatch h) (fun e he => ?_)
      (fun _ _ => rfl) (fun _ => rfl)
    rw [allows_iff_of_none rfl, honly rfl e he, hstage]
    rfl
  | setReplicas =>
    obtain ⟨hstage, rfl⟩ := hfollows.of_setReplicas
    refine h.setTablet .fresh ?_ (fun _ h => nomatch h) (fun e he => ?_)
      (fun _ _ => rfl) (fun _ => rfl)
    · rw [← h.card]
      exact hmove.card_next
    · rw [allows_iff_of_none rfl, honly rfl e he, hstage]
      rfl

end Staged

end Scylla.Tablet
