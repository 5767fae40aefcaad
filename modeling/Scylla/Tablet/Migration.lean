import Scylla.Core.Reachable

/-!
# Migration of a tablet replica

The topology coordinator moves a tablet from one of its replicas to another node in stages; for each
stage there is a set of replicas that writes go to, a set of pending replicas and a set that is
read. Coordinators of requests learn of a new stage one after the other, and a barrier waits until
the stages before are no longer in use. The data is modelled by who holds which write.
-/

namespace Scylla.Tablet

/-! ## Stages and replica sets -/

inductive Stage where
  | allowWriteBothReadOld
  | writeBothReadOld
  | streaming
  | writeBothReadNew
  | useNew
  | cleanup
  | cleanupTarget
  | revertMigration
  | endMigration
  deriving DecidableEq

inductive WriteSelector where
  | previous
  | both
  | next
  deriving DecidableEq

inductive ReadSelector where
  | previous
  | next
  deriving DecidableEq

def Stage.selectorForWrites : Stage → WriteSelector
  | allowWriteBothReadOld => .previous
  | writeBothReadOld => .both
  | streaming => .both
  | writeBothReadNew => .both
  | useNew => .next
  | cleanup => .next
  | cleanupTarget => .previous
  | revertMigration => .previous
  | endMigration => .next

def Stage.selectorForReads : Stage → ReadSelector
  | allowWriteBothReadOld => .previous
  | writeBothReadOld => .previous
  | streaming => .previous
  | writeBothReadNew => .next
  | useNew => .next
  | cleanup => .next
  | cleanupTarget => .previous
  | revertMigration => .previous
  | endMigration => .next

structure TransitionInfo (α : Type) where
  stage : Stage
  next : Finset α
  pendingReplica : Option α

/-- `tablet_info`, with the transition of the tablet. -/
structure TabletInfo (α : Type) where
  replicas : Finset α
  transition : Option (TransitionInfo α)

/-- The endpoints that a request coordinator works with. -/
structure View (α : Type) where
  natural : Finset α
  pending : Finset α
  reading : Finset α

section

variable {α : Type} [DecidableEq α]

namespace TabletInfo

def getReplicasForWrite (t : TabletInfo α) : Finset α :=
  match t.transition with
  | none => t.replicas
  | some info =>
    match info.stage.selectorForWrites with
    | .previous | .both => t.replicas
    | .next => info.next

def getPendingEndpoints (t : TabletInfo α) : Finset α :=
  match t.transition with
  | none => ∅
  | some info =>
    match info.stage.selectorForWrites with
    | .previous | .next => ∅
    | .both => info.pendingReplica.toFinset

def getEndpointsForReading (t : TabletInfo α) : Finset α :=
  match t.transition with
  | none => t.replicas
  | some info =>
    match info.stage.selectorForReads with
    | .previous => t.replicas
    | .next => info.next

/-- What a coordinator that knows this stage works with. -/
def view (t : TabletInfo α) : View α :=
  ⟨t.getReplicasForWrite, t.getPendingEndpoints, t.getEndpointsForReading⟩

def getNewReplicas (t : TabletInfo α) (src dst : α) : Finset α := insert dst (t.replicas.erase src)

/-- The replicas that leave: what streaming reads from and cleanup deletes. -/
def leaving (t : TabletInfo α) (info : TransitionInfo α) : Finset α := t.replicas \ info.next

end TabletInfo

def quorumFor (replicationFactor : ℕ) : ℕ :=
  if replicationFactor = 0 then 0 else replicationFactor / 2 + 1

/-! ## The stage machine of the topology coordinator -/

/-- `background_action_holder`, with what the action was started with. -/
inductive Holder (β : Type) where
  | idle
  | running (b : β)
  | failed
  | succeeded (b : β)

/-- `action_failed`. -/
def Holder.isFailed {β : Type} : Holder β → Bool
  | failed => true
  | _ => false

def Holder.advance {β : Type} (start : β) : Holder β → Holder β × Bool
  | idle | failed => (running start, false)
  | running b => (running b, false)
  | succeeded b => (succeeded b, true)

structure TabletState where
  barriers : Stage → Holder ℕ
  streaming : Holder (ℕ → Bool)
  cleanup : Holder Unit

/-- Before the coordinator has started anything. -/
def TabletState.fresh : TabletState := ⟨fun _ => .idle, .idle, .idle⟩

inductive Update where
  | setStage (stage : Stage)
  | delTransition
  /-- `del_transition` and `set_replicas`. -/
  | setReplicas

def TabletState.doBarrier (ts : TabletState) (stage : Stage) (version : ℕ) : TabletState × Bool :=
  let (holder, done) := (ts.barriers stage).advance version
  ({ ts with barriers := Function.update ts.barriers stage holder }, done)

/-- The update, once the barrier of the stage is done. -/
def TabletState.withBarrier (ts : TabletState) (stage : Stage) (version : ℕ) (update : Update) :
    TabletState × Option Update :=
  let (ts, done) := ts.doBarrier stage version
  (ts, if done then some update else none)

def checkExcludedReplicas (t : TabletInfo α) (info : TransitionInfo α) (excluded : Finset α) :
    Bool :=
  decide ((t.leaving info ∩ excluded).Nonempty ∨ ((info.next \ t.replicas) ∩ excluded).Nonempty)

/-- What `handle_tablet_migration` does for a tablet in transition. -/
def handleTabletMigration (t : TabletInfo α) (info : TransitionInfo α) (excluded : Finset α)
    (version : ℕ) (held : ℕ → Bool) (ts : TabletState) : TabletState × Option Update :=
  match info.stage with
  | .allowWriteBothReadOld =>
    if (ts.barriers info.stage).isFailed && checkExcludedReplicas t info excluded then
      ts.withBarrier info.stage version (.setStage .cleanupTarget)
    else ts.withBarrier info.stage version (.setStage .writeBothReadOld)
  | .writeBothReadOld =>
    if (ts.barriers info.stage).isFailed && checkExcludedReplicas t info excluded then
      ts.withBarrier info.stage version (.setStage .cleanupTarget)
    else ts.withBarrier info.stage version (.setStage .streaming)
  | .streaming =>
    if ts.streaming.isFailed && checkExcludedReplicas t info excluded then
      ts.withBarrier info.stage version (.setStage .cleanupTarget)
    else
      let (holder, done) := ts.streaming.advance held
      ({ ts with streaming := holder }, if done then some (.setStage .writeBothReadNew) else none)
  | .writeBothReadNew =>
    if (ts.barriers info.stage).isFailed &&
        decide ((t.replicas ∩ excluded).card < (info.next ∩ excluded).card) then
      ts.withBarrier info.stage version (.setStage .cleanupTarget)
    else ts.withBarrier info.stage version (.setStage .useNew)
  | .useNew => ts.withBarrier info.stage version (.setStage .cleanup)
  | .cleanup =>
    let (holder, done) := ts.cleanup.advance ()
    ({ ts with cleanup := holder }, if done then some (.setStage .endMigration) else none)
  | .cleanupTarget =>
    let (holder, done) := ts.cleanup.advance ()
    ({ ts with cleanup := holder }, if done then some (.setStage .revertMigration) else none)
  | .revertMigration => ts.withBarrier info.stage version .delTransition
  | .endMigration => ts.withBarrier info.stage version .setReplicas

/-! ## Requests -/

inductive Progress where
  | active
  | failed
  | succeeded
  deriving DecidableEq

structure WriteRequest (α : Type) where
  /-- The version of the topology that its coordinator knew. -/
  version : ℕ
  view : View α
  acks : Finset α
  progress : Progress

structure ReadRequest (α : Type) where
  version : ℕ
  view : View α
  /-- The writes that were acknowledged before the read started. -/
  before : ℕ → Bool
  /-- Who has answered, with the writes they held. -/
  replies : List (α × (ℕ → Bool))
  progress : Progress

structure State (α : Type) where
  replicationFactor : ℕ
  tablet : TabletInfo α
  /-- `_tablets[gid]`, lost when another node becomes the topology coordinator. -/
  tabletState : TabletState
  version : ℕ
  /-- The versions that may be in use, with what they mean for the tablet. -/
  inUse : List (ℕ × View α)
  excluded : Finset α
  /-- Who holds the writes, by their numbers. -/
  holders : ℕ → Finset α
  writes : List (WriteRequest α)
  reads : List (ReadRequest α)

namespace State

def setTablet (s : State α) (t : TabletInfo α) : State α :=
  { s with tablet := t, version := s.version + 1, inUse := (s.version + 1, t.view) :: s.inUse }

/-- The updates of the tablet. A tablet without transition is forgotten by the coordinator. -/
def applyUpdate (s : State α) (info : TransitionInfo α) : Update → State α
  | .setStage stage => s.setTablet { s.tablet with transition := some { info with stage } }
  | .delTransition =>
    { s.setTablet { s.tablet with transition := none } with tabletState := .fresh }
  | .setReplicas =>
    { s.setTablet ⟨info.next, none⟩ with tabletState := .fresh }

/-- Whether no request uses a version before the given one. -/
def noneBefore (s : State α) (version : ℕ) : Bool :=
  (s.writes.all fun w => decide (w.progress ≠ .active ∨ version ≤ w.version)) &&
    s.reads.all fun r => decide (r.progress ≠ .active ∨ version ≤ r.version)

def isAcknowledged (s : State α) (i : ℕ) : Bool :=
  (s.writes[i]?).any fun w => decide (w.progress = .succeeded)

def erasable (s : State α) : Finset α :=
  match s.tablet.transition with
  | none => ∅
  | some info =>
    match info.stage with
    | .cleanup | .endMigration => s.tablet.leaving info
    | .cleanupTarget | .revertMigration => info.pendingReplica.toFinset
    | _ => ∅

end State

inductive Action (α : Type) where
  | startMigration (src dst : α)
  /-- The topology coordinator looks at the tablet. -/
  | handle
  /-- Another node becomes the topology coordinator. -/
  | failover
  | barrierDone (stage : Stage)
  | barrierFailed (stage : Stage)
  | streamingDone
  | streamingFailed
  | cleanupDone
  | cleanupFailed
  /-- A replica deletes its data of the tablet. -/
  | erase (x : α)
  | setExcluded (excluded : Finset α)
  /-- A node gets a write late or by repair. -/
  | store (i : ℕ) (x : α)
  /-- A coordinator starts a write with one of the versions in use. -/
  | startWrite (k : ℕ)
  | ackWrite (i : ℕ) (x : α)
  | finishWrite (i : ℕ) (progress : Progress)
  | startRead (k : ℕ)
  | reply (j : ℕ) (x : α)
  | finishRead (j : ℕ) (progress : Progress)

namespace State

def step (s : State α) : Action α → Option (State α)
  | .startMigration src dst =>
    if s.tablet.transition.isNone ∧ src ∈ s.tablet.replicas ∧ dst ∉ s.tablet.replicas then
      some (s.setTablet { s.tablet with
        transition := some ⟨.allowWriteBothReadOld, s.tablet.getNewReplicas src dst, some dst⟩ })
    else none
  | .handle =>
    s.tablet.transition.map fun info =>
      let held i := decide ((s.tablet.leaving info ∩ s.holders i).Nonempty)
      let (ts, update) :=
        handleTabletMigration s.tablet info s.excluded s.version held s.tabletState
      match update with
      | none => { s with tabletState := ts }
      | some update => { s with tabletState := ts }.applyUpdate info update
  | .failover => some { s with tabletState := .fresh }
  | .barrierDone stage =>
    match s.tabletState.barriers stage with
    | .running version =>
      if s.noneBefore version then
        some { s with
          tabletState := { s.tabletState with
            barriers := Function.update s.tabletState.barriers stage (.succeeded version) }
          inUse := s.inUse.filter fun e => decide (version ≤ e.1) }
      else none
    | _ => none
  | .barrierFailed stage =>
    match s.tabletState.barriers stage with
    | .running _ =>
      some { s with tabletState := { s.tabletState with
        barriers := Function.update s.tabletState.barriers stage .failed } }
    | _ => none
  | .streamingDone =>
    match s.tabletState.streaming, s.tablet.transition with
    | .running held, some info =>
      some { s with
        tabletState := { s.tabletState with streaming := .succeeded held }
        holders := fun i =>
          if held i then s.holders i ∪ info.pendingReplica.toFinset else s.holders i }
    | _, _ => none
  | .streamingFailed =>
    match s.tabletState.streaming with
    | .running _ => some { s with tabletState := { s.tabletState with streaming := .failed } }
    | _ => none
  | .cleanupDone =>
    match s.tabletState.cleanup with
    | .running _ => some { s with tabletState := { s.tabletState with cleanup := .succeeded () } }
    | _ => none
  | .cleanupFailed =>
    match s.tabletState.cleanup with
    | .running _ => some { s with tabletState := { s.tabletState with cleanup := .failed } }
    | _ => none
  | .erase x =>
    if x ∈ s.erasable then some { s with holders := fun i => (s.holders i).erase x } else none
  | .setExcluded excluded => some { s with excluded }
  | .store i x =>
    if i < s.writes.length then
      some { s with holders := Function.update s.holders i (insert x (s.holders i)) }
    else none
  | .startWrite k =>
    (s.inUse[k]?).map fun e => { s with writes := s.writes ++ [⟨e.1, e.2, ∅, .active⟩] }
  | .ackWrite i x =>
    (s.writes[i]?).bind fun w =>
      if w.progress = .active ∧ x ∈ w.view.natural ∪ w.view.pending ∧ x ∉ s.excluded then
        some { s with
          holders := Function.update s.holders i (insert x (s.holders i))
          writes := s.writes.set i { w with acks := insert x w.acks } }
      else none
  | .finishWrite i progress =>
    (s.writes[i]?).bind fun w =>
      if w.progress = .active ∧ progress ≠ .active ∧ (progress = .succeeded →
          quorumFor s.replicationFactor + w.view.pending.card ≤ w.acks.card) then
        some { s with writes := s.writes.set i { w with progress } }
      else none
  | .startRead k =>
    (s.inUse[k]?).map fun e =>
      { s with reads := s.reads ++ [⟨e.1, e.2, s.isAcknowledged, [], .active⟩] }
  | .reply j x =>
    (s.reads[j]?).bind fun r =>
      if r.progress = .active ∧ x ∈ r.view.reading ∧ x ∉ r.replies.map Prod.fst ∧
          x ∉ s.excluded then
        let replies := (x, fun i => decide (x ∈ s.holders i)) :: r.replies
        some { s with reads := s.reads.set j { r with replies } }
      else none
  | .finishRead j progress =>
    (s.reads[j]?).bind fun r =>
      if r.progress = .active ∧ progress ≠ .active ∧ (progress = .succeeded →
          quorumFor s.replicationFactor ≤ r.replies.length) then
        some { s with reads := s.reads.set j { r with progress } }
      else none

def initial (replicas : Finset α) : State α where
  replicationFactor := replicas.card
  tablet := ⟨replicas, none⟩
  tabletState := .fresh
  version := 0
  inUse := [(0, TabletInfo.view ⟨replicas, none⟩)]
  excluded := ∅
  holders := fun _ => ∅
  writes := []
  reads := []

end State

end

end Scylla.Tablet
