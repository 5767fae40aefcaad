import Scylla.Paxos.Coordinator

/-!
# Lightweight transactions on one key

The replicas of a key, the coordinators of the CAS requests on it and the messages between them form
one transition system. Messages are delivered by the action that handles them, at any later time and
in any order, or never. A round takes any ballot that no other has; which one the coordinator makes
up plays no part. The data of the key is a join semilattice, with the empty update as its least
element.
-/

namespace Scylla.Paxos

/-- The state a coordinator keeps for one CAS request, `paxos_response_handler`. -/
structure Handler (R : Type) where
  liveEndpoints : List R
  learned : ℕ

def Handler.countLearned {R : Type} [Fintype R] [DecidableEq R] (handler : Handler R) (r : R) :
    Bool × Handler R :=
  if handler.learned < requiredParticipants R ∧ r ∈ handler.liveEndpoints then
    (handler.learned + 1 = requiredParticipants R,
      { handler with learned := handler.learned + 1 })
  else (false, handler)

structure Sent (D : Type) where
  update : D
  origin : Ballot

structure Learn (R D : Type) where
  round : Ballot
  target : R
  decision : Proposal D
  repair : Bool
deriving DecidableEq

/-- The global state. Tables are indexed by ballots, since a round is known by its ballot. -/
structure State (R D : Type) where
  rows : R → Row D
  base : R → D
  handlers : ℕ → Option (Handler R)
  rounds : Ballot → Option ℕ
  promised : R → Ballot → Option (Promise D)
  replied : R → Ballot → Option (PrepareResponse D)
  summaries : Ballot → Option (PrepareSummary R D)
  proceeded : Ballot → Bool
  reads : Ballot → List (R × D)
  evaluated : Ballot → Option D
  sent : Ballot → Option (Sent D)
  accepted : R → Ballot → Bool
  decisions : List (Proposal D)
  repairs : List (Learn R D)
  applied : List (Learn R D)
  learned : List (Learn R D)
  acked : List (Learn R D)
  prunes : List Ballot

inductive Action (R D : Type)
  /-- A CAS request starts, with the replicas that are alive, the closest first. -/
  | start (h : ℕ) (live : List R)
  /-- A request begins a round under a fresh ballot and sends its prepares. -/
  | newBallot (h : ℕ) (b : Ballot)
  /-- A replica handles a prepare, up to the query of the base table. -/
  | prepare (r : R) (b : Ballot) (tie : Column → Bool)
  /-- The query made along with a promise ends and the promise is sent. -/
  | reply (r : R) (b : Ballot) (queryFails : Bool)
  /-- The coordinator has handled the answers of the replicas in `order` and is done. -/
  | finishPrepare (b : Ballot) (order : List R)
  /-- The coordinator sends the proposal in progress under its own ballot. -/
  | replay (b : Ballot)
  /-- The coordinator sends the most recent commit to the replicas that miss it. -/
  | repair (b : Ballot)
  /-- `begin_and_repair_paxos` returns. -/
  | proceed (b : Ballot)
  /-- A replica answers the read of the base table made after that. -/
  | read (r : R) (b : Ballot)
  /-- The coordinator evaluates `request->apply` and sends its own proposal. -/
  | evaluate (b : Ballot) (result : Option D)
  /-- A replica handles an accept. -/
  | accept (r : R) (b : Ballot) (tie : Column → Bool)
  /-- The coordinator has a quorum of accepts and sends its learns. -/
  | decide (b : Ballot)
  /-- A replica applies a decision to the base table. -/
  | learnApply (m : Learn R D)
  /-- A replica saves a decision it has applied, and acknowledges it. -/
  | learnSave (m : Learn R D) (tie : Column → Bool)
  /-- The coordinator handles the acknowledgement of a learn. -/
  | acknowledge (m : Learn R D)
  /-- A replica handles a prune. -/
  | prune (r : R) (b : Ballot) (tie : Column → Bool)
  /-- Any other write to the base table: an ordinary write, a hint, a read repair. -/
  | write (r : R) (d : D)

def set₂ {α β γ : Type} [DecidableEq α] [DecidableEq β] (f : α → β → γ) (a : α) (b : β) (v : γ) :
    α → β → γ :=
  fun x y => if x = a ∧ y = b then v else f x y

namespace State

variable {R D : Type}

def init [Bot D] : State R D where
  rows _ := Row.empty
  base _ := ⊥
  handlers _ := none
  rounds _ := none
  promised _ _ := none
  replied _ _ := none
  summaries _ := none
  proceeded _ := false
  reads _ := []
  evaluated _ := none
  sent _ := none
  accepted _ _ := false
  decisions := []
  repairs := []
  applied := []
  learned := []
  acked := []
  prunes := []

def handlerOf (s : State R D) (b : Ballot) : Option (ℕ × Handler R) :=
  (s.rounds b).bind fun h => (s.handlers h).map fun handler => (h, handler)

def liveEndpoints (s : State R D) (b : Ballot) : List R :=
  match s.handlerOf b with
  | some (_, handler) => handler.liveEndpoints
  | none => []

/-- The update sent under a ballot has this origin. -/
def originOf (s : State R D) (b : Ballot) : Ballot :=
  match s.sent b with
  | some p => p.origin
  | none => b

/-- The learn was sent: as a decision to every replica, or as a repair. -/
def Learns (s : State R D) (m : Learn R D) : Prop :=
  (m.repair = false ∧ m.round = m.decision.ballot ∧ m.decision ∈ s.decisions) ∨ m ∈ s.repairs

instance [DecidableEq R] [DecidableEq D] (s : State R D) (m : Learn R D) :
    Decidable (s.Learns m) :=
  inferInstanceAs (Decidable (_ ∨ _))

/-- The replicas that accepted the proposal sent under a ballot. -/
def acceptors [Fintype R] (s : State R D) (b : Ballot) : Finset R :=
  Finset.univ.filter fun r => s.accepted r b

/-- The proposal sent under the ballot was accepted by a quorum. -/
def Chosen [Fintype R] [DecidableEq R] (s : State R D) (b : Ballot) : Prop :=
  IsMajority Finset.univ (s.acceptors b)

instance [Fintype R] [DecidableEq R] (s : State R D) (b : Ballot) : Decidable (s.Chosen b) :=
  inferInstanceAs (Decidable (IsMajority _ _))

/-- The state of `prepare_ballot` after the answers of the replicas in `order`. -/
def tracker [Fintype R] [DecidableEq R] [DecidableEq D] (s : State R D) (b : Ballot)
    (order : List R) : RequestTracker R D :=
  RequestTracker.prepareBallot (requiredParticipants R) (s.liveEndpoints b).head?
    (order.filterMap fun r => (s.replied r b).map fun answer => (r, answer))

theorem map_fst_answers_sublist (s : State R D) (b : Ballot) (order : List R) :
    ((order.filterMap fun r => (s.replied r b).map fun answer => (r, answer)).map
      Prod.fst).Sublist order := by
  induction order with
  | nil => simp
  | cons r order ih =>
    cases hr : s.replied r b with
    | none => simpa [hr] using ih.cons r
    | some answer => simpa [hr] using ih.cons_cons r

def dataFor [Fintype R] [DecidableEq R] [SemilatticeSup D] [OrderBot D] (s : State R D)
    (b : Ballot) (summary : PrepareSummary R D) : Option D :=
  match summary.data with
  | some d => some d
  | none =>
    if IsMajority Finset.univ ((s.reads b).map Prod.fst).toFinset then
      some (((s.reads b).map Prod.snd).foldr (· ⊔ ·) ⊥)
    else none

def countLearned [Fintype R] [DecidableEq R] (s : State R D) (m : Learn R D) :
    (ℕ → Option (Handler R)) × List Ballot :=
  match s.handlerOf m.round with
  | some (h, handler) =>
    if m.repair then (s.handlers, s.prunes)
    else
      let (isLearned, handler) := handler.countLearned m.target
      (Function.update s.handlers h (some handler),
        if isLearned then m.decision.ballot :: s.prunes else s.prunes)
  | none => (s.handlers, s.prunes)

end State

variable {R D : Type} [Fintype R] [DecidableEq R] [DecidableEq D] [SemilatticeSup D] [OrderBot D]

open State in
/-- One step of the system; an action that is not enabled yields no state. -/
def step (s : State R D) : Action R D → Option (State R D)
  | .start h live =>
    if (s.handlers h).isNone ∧ live.Nodup ∧ requiredParticipants R ≤ live.length then
      some { s with handlers := Function.update s.handlers h (some ⟨live, 0⟩) }
    else none
  | .newBallot h b =>
    (s.handlers h).bind fun _ =>
      if (s.rounds b).isNone then some { s with rounds := Function.update s.rounds b (some h) }
      else none
  | .prepare r b tie =>
    if r ∈ s.liveEndpoints b ∧ (s.promised r b).isNone ∧ (s.replied r b).isNone then
      ((s.rows r).prepare tie b).map fun
        | (.promise p, row) =>
          { s with
            rows := Function.update s.rows r row
            promised := set₂ s.promised r b (some p) }
        | (.ballot b', row) =>
          { s with
            rows := Function.update s.rows r row
            replied := set₂ s.replied r b (some (.ballot b')) }
    else none
  | .reply r b queryFails =>
    (s.promised r b).bind fun p =>
      if (s.replied r b).isNone then
        let data := if queryFails then none else some (s.base r)
        some { s with
          replied := set₂ s.replied r b (some (.promise { p with dataOrDigest := data })) }
      else none
  | .finishPrepare b order =>
    let t := s.tracker b order
    if (s.rounds b).isSome ∧ (s.summaries b).isNone ∧ order.Nodup ∧ t.done then
      some { s with summaries := Function.update s.summaries b (some t.summary) }
    else none
  | .replay b =>
    (s.summaries b).bind fun summary => summary.inProgress.bind fun p =>
      if summary.promised ∧ (s.sent b).isNone then
        some { s with
          sent := Function.update s.sent b (some ⟨p.update, s.originOf p.ballot⟩) }
      else none
  | .repair b =>
    (s.summaries b).bind fun summary => summary.mostRecentCommit.bind fun c =>
      if summary.promised ∧ summary.inProgress.isNone then
        some { s with
          repairs := (summary.replicasMissingMostRecentCommit.map fun r => ⟨b, r, c, true⟩) ++
            s.repairs }
      else none
  | .proceed b =>
    (s.summaries b).bind fun summary =>
      -- the repair waits for one acknowledgement only, as the consistency level ANY does
      if summary.promised ∧ summary.inProgress.isNone ∧ s.proceeded b = false ∧
          (summary.replicasMissingMostRecentCommit.isEmpty ∨
            ∃ m ∈ s.acked, m.repair = true ∧ m.round = b) then
        some { s with proceeded := Function.update s.proceeded b true }
      else none
  | .read r b =>
    (s.summaries b).bind fun summary =>
      if s.proceeded b ∧ summary.data.isNone ∧ (s.sent b).isNone then
        some { s with reads := Function.update s.reads b ((r, s.base r) :: s.reads b) }
      else none
  | .evaluate b result =>
    (s.summaries b).bind fun summary => (s.dataFor b summary).bind fun data =>
      if s.proceeded b ∧ (s.sent b).isNone then
        some { s with
          evaluated := Function.update s.evaluated b (some data)
          -- a condition that is not met proposes the empty update
          sent := Function.update s.sent b (some ⟨result.getD ⊥, b⟩) }
      else none
  | .accept r b tie =>
    (s.sent b).bind fun p =>
      if r ∈ s.liveEndpoints b then
        ((s.rows r).accept tie ⟨b, p.update⟩).map fun (isAccepted, row) =>
          { s with
            rows := Function.update s.rows r row
            accepted := if isAccepted then set₂ s.accepted r b true else s.accepted }
      else none
  | .decide b =>
    (s.sent b).bind fun p =>
      if s.Chosen b then some { s with decisions := ⟨b, p.update⟩ :: s.decisions } else none
  | .learnApply m =>
    if s.Learns m then
      some { s with
        base := Function.update s.base m.target (s.base m.target ⊔ m.decision.update)
        applied := m :: s.applied }
    else none
  | .learnSave m tie =>
    if m ∈ s.applied then
      some { s with
        rows := Function.update s.rows m.target
          ((s.rows m.target).savePaxosDecision tie m.decision)
        learned := m :: s.learned }
    else none
  | .acknowledge m =>
    if m ∈ s.learned ∧ m ∉ s.acked then
      some { s with
        acked := m :: s.acked
        handlers := (s.countLearned m).1
        prunes := (s.countLearned m).2 }
    else none
  | .prune r b tie =>
    if b ∈ s.prunes ∧ r ∈ s.liveEndpoints b then
      some { s with rows := Function.update s.rows r ((s.rows r).deletePaxosDecision tie b) }
    else none
  | .write r d => some { s with base := Function.update s.base r (s.base r ⊔ d) }

def Reachable (s : State R D) : Prop :=
  Reaches step (fun _ _ => True) State.init s

end Scylla.Paxos
