import Scylla.Core.Reachable

/-!
# The Paxos state of a replica

A replica keeps the Paxos state of a key in one row of `system.paxos`, whose columns are written
with the timestamp of a ballot and merged as last-write-wins cells. The functions below are the
replica's side of the protocol: loading and saving the row, and the answers to `prepare` and
`accept`. Learning and pruning are blind writes to the row. Cells do not expire and the table is not
truncated.
-/

namespace Scylla.Paxos

open Option

/-- A ballot is a time UUID: a timestamp and random bits that make it unique. -/
structure Ballot where
  timestamp : ℕ
  random : ℕ
deriving DecidableEq

/-- `UUID_gen::min_time_UUID`, the ballot promised by a replica that has promised none. -/
def Ballot.minTime : Ballot := ⟨0, 0⟩

/-- A proposal: a ballot and the update of the base table it carries. -/
structure Proposal (D : Type) where
  ballot : Ballot
  update : D
deriving DecidableEq

/-- A cell of `system.paxos`; a cell without a value is a tombstone. -/
structure Cell (α : Type) where
  timestamp : ℕ
  value : Option α

def live {α : Type} (column : Option (Cell α)) : Option α :=
  column.bind Cell.value

def write {α : Type} (tie : Bool) (column : Option (Cell α)) (new : Cell α) : Option (Cell α) :=
  match column with
  | none => some new
  | some old =>
    if old.timestamp < new.timestamp then some new
    else if new.timestamp < old.timestamp then some old
    else if new.value.isNone then some new
    else if old.value.isNone then some old
    else some (if tie then new else old)

inductive Column
  | promise
  | proposalBallot
  | proposal
  | mostRecentCommitAt
  | mostRecentCommit

structure Row (D : Type) where
  promise : Option (Cell Ballot)
  proposalBallot : Option (Cell Ballot)
  proposal : Option (Cell D)
  mostRecentCommitAt : Option (Cell Ballot)
  mostRecentCommit : Option (Cell D)

def Row.empty {D : Type} : Row D := ⟨none, none, none, none, none⟩

/-- `paxos_state`: what the row says to the protocol. -/
structure PaxosState (D : Type) where
  promisedBallot : Ballot
  acceptedProposal : Option (Proposal D)
  mostRecentCommit : Option (Proposal D)

structure Promise (D : Type) where
  acceptedProposal : Option (Proposal D)
  mostRecentCommit : Option (Proposal D)
  dataOrDigest : Option D

/-- The answer to `prepare`: a promise, or the ballot promised before. -/
inductive PrepareResponse (D : Type)
  | promise (p : Promise D)
  | ballot (b : Ballot)

namespace Row

variable {D : Type}

/-- The promised ballot, as `load_paxos_state` reads it. -/
def promisedBallot (row : Row D) : Ballot :=
  (live row.promise).getD Ballot.minTime

/-- The most recent commit; a pruned value is read as the empty update. -/
def loadCommit [Bot D] (row : Row D) : Option (Proposal D) :=
  (live row.mostRecentCommitAt).map fun b => ⟨b, (live row.mostRecentCommit).getD ⊥⟩

/-- `load_paxos_state`. Reading an accepted proposal without its ballot throws. -/
def loadPaxosState [Bot D] (row : Row D) : Option (PaxosState D) :=
  match live row.proposal with
  | none => some ⟨row.promisedBallot, none, row.loadCommit⟩
  | some u =>
    match live row.proposalBallot with
    | none => none
    | some b => some ⟨row.promisedBallot, some ⟨b, u⟩, row.loadCommit⟩

variable {state : PaxosState D}

theorem loadPaxosState_promisedBallot [Bot D] {row : Row D} (h : row.loadPaxosState = some state) :
    state.promisedBallot = row.promisedBallot := by
  unfold loadPaxosState at h
  split at h
  · cases h
    rfl
  · split at h
    · cases h
    · cases h
      rfl

theorem loadPaxosState_mostRecentCommit [Bot D] {row : Row D}
    (h : row.loadPaxosState = some state) : state.mostRecentCommit = row.loadCommit := by
  unfold loadPaxosState at h
  split at h
  · cases h
    rfl
  · split at h
    · cases h
    · cases h
      rfl

def savePaxosPromise (tie : Column → Bool) (b : Ballot) (row : Row D) : Row D :=
  { row with promise := write (tie .promise) row.promise ⟨b.timestamp, some b⟩ }

def savePaxosProposal (tie : Column → Bool) (p : Proposal D) (row : Row D) : Row D :=
  { row with
    promise := write (tie .promise) row.promise ⟨p.ballot.timestamp, some p.ballot⟩
    proposalBallot :=
      write (tie .proposalBallot) row.proposalBallot ⟨p.ballot.timestamp, some p.ballot⟩
    proposal := write (tie .proposal) row.proposal ⟨p.ballot.timestamp, some p.update⟩ }

/-- `save_paxos_decision`, which also erases the accepted proposal. -/
def savePaxosDecision (tie : Column → Bool) (p : Proposal D) (row : Row D) : Row D :=
  { row with
    proposalBallot := write (tie .proposalBallot) row.proposalBallot ⟨p.ballot.timestamp, none⟩
    proposal := write (tie .proposal) row.proposal ⟨p.ballot.timestamp, none⟩
    mostRecentCommitAt :=
      write (tie .mostRecentCommitAt) row.mostRecentCommitAt ⟨p.ballot.timestamp, some p.ballot⟩
    mostRecentCommit :=
      write (tie .mostRecentCommit) row.mostRecentCommit ⟨p.ballot.timestamp, some p.update⟩ }

/-- `delete_paxos_decision`: the value of the commit goes, its ballot stays. -/
def deletePaxosDecision (tie : Column → Bool) (b : Ballot) (row : Row D) : Row D :=
  { row with
    mostRecentCommit := write (tie .mostRecentCommit) row.mostRecentCommit ⟨b.timestamp, none⟩ }

def prepare [Bot D] (tie : Column → Bool) (b : Ballot) (row : Row D) :
    Option (PrepareResponse D × Row D) :=
  row.loadPaxosState.map fun state =>
    if state.promisedBallot.timestamp < b.timestamp then
      (.promise ⟨state.acceptedProposal, state.mostRecentCommit, none⟩,
        row.savePaxosPromise tie b)
    else (.ballot state.promisedBallot, row)

def accept [Bot D] (tie : Column → Bool) (p : Proposal D) (row : Row D) :
    Option (Bool × Row D) :=
  row.loadPaxosState.map fun state =>
    if p.ballot = state.promisedBallot ∨
        state.promisedBallot.timestamp < p.ballot.timestamp then
      (true, row.savePaxosProposal tie p)
    else (false, row)

end Row

/-! ## What a write leaves in a column -/

section Write

variable {α : Type} {tie : Bool} {column : Option (Cell α)} {new c : Cell α}

theorem write_cases (tie : Bool) (column : Option (Cell α)) (new : Cell α) :
    (write tie column new = some new ∧ ∀ old, column = some old → old.timestamp < new.timestamp ∨
        old.timestamp = new.timestamp ∧ (old.value = none → new.value = none)) ∨
    (∃ old, column = some old ∧ write tie column new = some old ∧ (new.timestamp < old.timestamp ∨
        new.timestamp = old.timestamp ∧ new.value ≠ none)) := by
  cases column with
  | none => exact .inl ⟨rfl, by simp⟩
  | some old =>
    by_cases hlt : old.timestamp < new.timestamp
    · exact .inl ⟨by simp [write, hlt], by simp [hlt]⟩
    by_cases hgt : new.timestamp < old.timestamp
    · exact .inr ⟨old, rfl, by simp [write, hlt, hgt], .inl hgt⟩
    have heq : new.timestamp = old.timestamp := by omega
    by_cases hdead : new.value = none
    · exact .inl ⟨by simp [write, hdead, heq], by simp [heq, hdead]⟩
    by_cases hold : old.value = none
    · exact .inr ⟨old, rfl, by simp [write, hdead, hold, heq], .inr ⟨heq, hdead⟩⟩
    cases tie with
    | true => exact .inl ⟨by simp [write, hdead, hold, heq], by simp [hold, heq]⟩
    | false => exact .inr ⟨old, rfl, by simp [write, hdead, hold, heq], .inr ⟨heq, hdead⟩⟩

theorem write_eq_some (h : write tie column new = some c) :
    c = new ∨ (column = some c ∧ new.timestamp ≤ c.timestamp) := by
  rcases write_cases tie column new with ⟨hw, -⟩ | ⟨old, hcol, hw, hle⟩
  · exact .inl (Option.some.inj (h.symm.trans hw))
  · cases h.symm.trans hw
    exact .inr ⟨hcol, by omega⟩

theorem exists_write (tie : Bool) (column : Option (Cell α)) (new : Cell α) :
    ∃ c, write tie column new = some c ∧ new.timestamp ≤ c.timestamp ∧
      ∀ old, column = some old → old.timestamp ≤ c.timestamp := by
  rcases write_cases tie column new with ⟨hw, hle⟩ | ⟨old, hcol, hw, hle⟩
  · refine ⟨new, hw, le_rfl, fun old hold => ?_⟩
    rcases hle old hold with h | h <;> omega
  · refine ⟨old, hw, by omega, fun old' hold' => ?_⟩
    rw [hcol] at hold'
    cases hold'
    exact le_rfl

theorem write_of_lt (h : ∀ old, column = some old → old.timestamp < new.timestamp) :
    write tie column new = some new := by
  rcases write_cases tie column new with ⟨hw, -⟩ | ⟨old, hcol, -, hle⟩
  · exact hw
  · have := h old hcol
    omega

theorem write_of_gt {old : Cell α} (hcol : column = some old)
    (h : new.timestamp < old.timestamp) : write tie column new = some old := by
  subst hcol
  simp [write, h, h.not_gt]

theorem write_of_dead {old : Cell α} (hcol : column = some old) (hdead : old.value = none)
    (hle : new.timestamp ≤ old.timestamp) (h : write tie column new = some c) :
    c.value = none := by
  subst hcol
  rcases write_cases tie (some old) new with ⟨hw, hnew⟩ | ⟨old', hcol, hw, -⟩
  · have hc : c = new := Option.some.inj (h.symm.trans hw)
    rcases hnew old rfl with hlt | ⟨-, hnone⟩
    · omega
    · rw [hc]
      exact hnone hdead
  · cases hcol
    cases h.symm.trans hw
    exact hdead

theorem write_dead (hdead : new.value = none) (h : write tie column new = some c) :
    c = new ∨ (column = some c ∧ new.timestamp < c.timestamp) := by
  rcases write_cases tie column new with ⟨hw, -⟩ | ⟨old, hcol, hw, hle⟩
  · exact .inl (Option.some.inj (h.symm.trans hw))
  · cases h.symm.trans hw
    rcases hle with hlt | ⟨-, hne⟩
    · exact .inr ⟨hcol, hlt⟩
    · exact absurd hdead hne

end Write

/-! ## The invariant of a row -/

/-- Two columns hold cells of one timestamp, both with a value or both without. -/
def InStep {α β : Type} (column : Option (Cell α)) (column' : Option (Cell β)) : Prop :=
  column.map (fun c => (c.timestamp, c.value.isSome)) =
    column'.map fun c => (c.timestamp, c.value.isSome)

theorem InStep.write {α β : Type} {column : Option (Cell α)} {column' : Option (Cell β)}
    (h : InStep column column') (tie tie' : Bool) {new : Cell α} {new' : Cell β}
    (htime : new.timestamp = new'.timestamp) (hvalue : new.value.isSome = new'.value.isSome) :
    InStep (write tie column new) (write tie' column' new') := by
  unfold InStep at *
  cases column with
  | none =>
    cases column' with
    | none => simp [Paxos.write, htime, hvalue]
    | some old' => simp at h
  | some old =>
    cases column' with
    | none => simp at h
    | some old' =>
      simp only [map_some, Option.some.injEq, Prod.mk.injEq] at h
      have hnone : new.value.isNone = new'.value.isNone := by
        rw [← not_isSome, ← not_isSome, hvalue]
      have hnone' : old.value.isNone = old'.value.isNone := by
        rw [← not_isSome, ← not_isSome, h.2]
      unfold Paxos.write
      simp only [h.1, htime, hnone, hnone']
      split_ifs <;> simp_all <;> omega

namespace Row

variable {D : Type}

structure Valid (Accepted : Ballot → Prop) (Sent : Proposal D → Prop) (Decided : Ballot → Prop)
    (row : Row D) : Prop where
  promise : ∀ c, row.promise = some c → ∃ b, c = ⟨b.timestamp, some b⟩
  commit : ∀ c, row.mostRecentCommitAt = some c → ∃ b, c = ⟨b.timestamp, some b⟩ ∧ Decided b
  inStep : InStep row.proposalBallot row.proposal
  proposal_live : ∀ c u, row.proposal = some c → c.value = some u → ∃ b,
    row.proposalBallot = some ⟨b.timestamp, some b⟩ ∧ c.timestamp = b.timestamp ∧ Accepted b ∧
      Sent ⟨b, u⟩
  proposal_dead : ∀ c, row.proposal = some c → c.value = none →
    ∃ c', row.mostRecentCommitAt = some c' ∧ c.timestamp ≤ c'.timestamp
  accepted_le : ∀ b, Accepted b → b.timestamp ≤ row.promisedBallot.timestamp
  accepted_proposal : ∀ b, Accepted b → ∃ c, row.proposal = some c ∧ b.timestamp ≤ c.timestamp

namespace Valid

variable {Accepted Accepted' Decided Decided' : Ballot → Prop} {Sent Sent' : Proposal D → Prop}
  {row : Row D}

section

variable (h : row.Valid Accepted Sent Decided)

include h

theorem mono (hsent : ∀ p, Sent p → Sent' p) (hdecided : ∀ b, Decided b → Decided' b) :
    row.Valid Accepted Sent' Decided' where
  promise := h.promise
  commit c hc := by
    obtain ⟨b, hb, hd⟩ := h.commit c hc
    exact ⟨b, hb, hdecided b hd⟩
  inStep := h.inStep
  proposal_live c u hc hu := by
    obtain ⟨b, hb, hts, hacc, hs⟩ := h.proposal_live c u hc hu
    exact ⟨b, hb, hts, hacc, hsent _ hs⟩
  proposal_dead := h.proposal_dead
  accepted_le := h.accepted_le
  accepted_proposal := h.accepted_proposal

theorem promisedBallot_write (row' : Row D) {tie : Bool} {b : Ballot}
    (hrow' : row'.promise = write tie row.promise ⟨b.timestamp, some b⟩) :
    (∀ c, row'.promise = some c → ∃ b, c = ⟨b.timestamp, some b⟩) ∧
      b.timestamp ≤ row'.promisedBallot.timestamp ∧
      row.promisedBallot.timestamp ≤ row'.promisedBallot.timestamp := by
  have hvalid : ∀ c, row'.promise = some c → ∃ b, c = ⟨b.timestamp, some b⟩ := by
    intro c hc
    rw [hrow'] at hc
    rcases write_eq_some hc with rfl | ⟨hold, -⟩
    · exact ⟨b, rfl⟩
    · exact h.promise c hold
  obtain ⟨c, hc, hge, hold⟩ := exists_write tie row.promise ⟨b.timestamp, some b⟩
  obtain ⟨b', rfl⟩ := hvalid c (hrow'.trans hc)
  have hrow : row'.promisedBallot = b' := by simp [promisedBallot, hrow', hc, live]
  refine ⟨hvalid, by rw [hrow]; exact hge, ?_⟩
  cases hp : row.promise with
  | none => simp [promisedBallot, hp, live, Ballot.minTime]
  | some old =>
    obtain ⟨b'', rfl⟩ := h.promise old hp
    rw [hrow]
    simpa [promisedBallot, hp, live] using hold _ hp

theorem savePaxosPromise (tie : Column → Bool) (b : Ballot) :
    (row.savePaxosPromise tie b).Valid Accepted Sent Decided := by
  obtain ⟨hpromise, -, hle⟩ := h.promisedBallot_write (row.savePaxosPromise tie b) rfl
  exact ⟨hpromise, h.commit, h.inStep, h.proposal_live, h.proposal_dead,
    fun b' hb' => (h.accepted_le b' hb').trans hle, h.accepted_proposal⟩

theorem deletePaxosDecision (tie : Column → Bool) (b : Ballot) :
    (row.deletePaxosDecision tie b).Valid Accepted Sent Decided :=
  ⟨h.promise, h.commit, h.inStep, h.proposal_live, h.proposal_dead, h.accepted_le,
    h.accepted_proposal⟩

end

variable {p : Proposal D}

section

variable (h : row.Valid Accepted Sent Decided)

include h

theorem proposal_cases
    (hguard : p.ballot = row.promisedBallot ∨ row.promisedBallot.timestamp < p.ballot.timestamp)
    (hunique : ∀ q, Sent q → q.ballot.timestamp = p.ballot.timestamp → q = p) {c : Cell D}
    (hc : row.proposal = some c) :
    c.timestamp < p.ballot.timestamp ∨
    (p.ballot.timestamp ≤ c.timestamp ∧ c.value = none) ∨
    (c = ⟨p.ballot.timestamp, some p.update⟩ ∧
      row.proposalBallot = some ⟨p.ballot.timestamp, some p.ballot⟩) := by
  by_cases hlt : c.timestamp < p.ballot.timestamp
  · exact .inl hlt
  cases hval : c.value with
  | none => exact .inr (.inl ⟨not_lt.mp hlt, rfl⟩)
  | some u =>
    obtain ⟨b, hb, hts, hacc, hsent⟩ := h.proposal_live c u hc hval
    have hle := h.accepted_le b hacc
    have hple : row.promisedBallot.timestamp ≤ p.ballot.timestamp := by
      rcases hguard with heq | hlt
      · rw [heq]
      · exact hlt.le
    have heq : b.timestamp = p.ballot.timestamp := by omega
    have hp := hunique ⟨b, u⟩ hsent heq
    subst hp
    refine .inr (.inr ⟨?_, hb⟩)
    rw [← hval, ← hts]

theorem savePaxosProposal (tie : Column → Bool)
    (hguard : p.ballot = row.promisedBallot ∨ row.promisedBallot.timestamp < p.ballot.timestamp)
    (hsent : Sent p) (hunique : ∀ q, Sent q → q.ballot.timestamp = p.ballot.timestamp → q = p) :
    (row.savePaxosProposal tie p).Valid (fun b => Accepted b ∨ b = p.ballot) Sent Decided := by
  obtain ⟨hpromise, hle, hle'⟩ :=
    h.promisedBallot_write (row.savePaxosProposal tie p) rfl
  have hballot : ∀ c, row.proposal = some c → c.timestamp < p.ballot.timestamp →
      ∀ old, row.proposalBallot = some old → old.timestamp < p.ballot.timestamp := by
    intro c hc hlt old hold
    have := h.inStep
    simp only [InStep, hc, hold, map_some, Option.some.injEq, Prod.mk.injEq] at this
    omega
  refine ⟨hpromise, h.commit, h.inStep.write _ _ rfl rfl, ?_, ?_, ?_, ?_⟩
  · intro c' u hc' hu
    -- the value left is that of `p`, or an older proposal stays, which `p` would have replaced
    have hnew : c' = ⟨p.ballot.timestamp, some p.update⟩ ∧
        (row.savePaxosProposal tie p).proposalBallot =
          some ⟨p.ballot.timestamp, some p.ballot⟩ := by
      cases hc : row.proposal with
      | none =>
        have hb : row.proposalBallot = none := by simpa [InStep, hc] using h.inStep
        simp only [Row.savePaxosProposal, hc, hb, write] at hc' ⊢
        exact ⟨(Option.some.inj hc').symm, trivial⟩
      | some c =>
        rcases h.proposal_cases hguard hunique hc with hlt | ⟨hge, hdead⟩ | ⟨rfl, hb⟩
        · refine ⟨?_, write_of_lt (hballot c hc hlt)⟩
          have hw : (row.savePaxosProposal tie p).proposal =
              some ⟨p.ballot.timestamp, some p.update⟩ :=
            write_of_lt fun old hold => by cases hc.symm.trans hold; exact hlt
          exact Option.some.inj (hc'.symm.trans hw)
        · have := write_of_dead hc hdead hge hc'
          simp [this] at hu
        · refine ⟨?_, ?_⟩
          · rcases write_eq_some hc' with heq | ⟨heq, -⟩
            · exact heq
            · exact (Option.some.inj (hc.symm.trans heq)).symm
          · obtain ⟨cb, hcb, -⟩ := exists_write (tie .proposalBallot) row.proposalBallot
              ⟨p.ballot.timestamp, some p.ballot⟩
            rcases write_eq_some hcb with heq | ⟨heq, -⟩
            · rw [← heq]
              exact hcb
            · rw [hb] at heq
              rw [Option.some.inj heq]
              exact hcb
    obtain ⟨rfl, hb⟩ := hnew
    cases hu
    exact ⟨p.ballot, hb, rfl, .inr rfl, hsent⟩
  · intro c' hc' hdead
    rcases write_eq_some hc' with rfl | ⟨hold, -⟩
    · cases hdead
    · exact h.proposal_dead c' hold hdead
  · rintro b (hb | rfl)
    · exact (h.accepted_le b hb).trans hle'
    · exact hle
  · rintro b (hb | rfl)
    · obtain ⟨c, hc, hbc⟩ := h.accepted_proposal b hb
      obtain ⟨c', hc', -, hcc'⟩ := exists_write (tie .proposal) row.proposal
        ⟨p.ballot.timestamp, some p.update⟩
      exact ⟨c', hc', hbc.trans (hcc' c hc)⟩
    · obtain ⟨c', hc', hpc', -⟩ := exists_write (tie .proposal) row.proposal
        ⟨p.ballot.timestamp, some p.update⟩
      exact ⟨c', hc', hpc'⟩

theorem savePaxosDecision (tie : Column → Bool)
    (hdecided : Decided p.ballot) : (row.savePaxosDecision tie p).Valid Accepted Sent Decided := by
  obtain ⟨cat, hcat, hpcat, hold⟩ := exists_write (tie .mostRecentCommitAt)
    row.mostRecentCommitAt ⟨p.ballot.timestamp, some p.ballot⟩
  refine ⟨h.promise, ?_, h.inStep.write _ _ rfl rfl, ?_, ?_, h.accepted_le, ?_⟩
  · intro c hc
    rcases write_eq_some hc with rfl | ⟨hc, -⟩
    · exact ⟨p.ballot, rfl, hdecided⟩
    · exact h.commit c hc
  · intro c u hc hu
    rcases write_dead rfl hc with rfl | ⟨hc, hlt⟩
    · cases hu
    · obtain ⟨b, hb, hts, hrest⟩ := h.proposal_live c u hc hu
      have hlt' : p.ballot.timestamp < b.timestamp := by rwa [← hts]
      exact ⟨b, write_of_gt hb hlt', hts, hrest⟩
  · intro c hc hdead
    rcases write_dead rfl hc with rfl | ⟨hc, hlt⟩
    · exact ⟨cat, hcat, hpcat⟩
    · obtain ⟨c', hc', hle⟩ := h.proposal_dead c hc hdead
      exact ⟨cat, hcat, hle.trans (hold c' hc')⟩
  · intro b hb
    obtain ⟨c, hc, hle⟩ := h.accepted_proposal b hb
    obtain ⟨c', hc', -, hcc'⟩ := exists_write (tie .proposal) row.proposal
      ⟨p.ballot.timestamp, (none : Option D)⟩
    exact ⟨c', hc', hle.trans (hcc' c hc)⟩

end

theorem exists_loadPaxosState [Bot D] (h : row.Valid Accepted Sent Decided) :
    ∃ state, row.loadPaxosState = some state := by
  unfold loadPaxosState
  cases hlive : live row.proposal with
  | none => exact ⟨_, rfl⟩
  | some u =>
    obtain ⟨c, hc, hu⟩ := bind_eq_some_iff.mp hlive
    obtain ⟨b, hb, -⟩ := h.proposal_live c u hc hu
    simp [live, hb]

variable {state : PaxosState D}

section

variable [Bot D] (h : row.Valid Accepted Sent Decided) (hload : row.loadPaxosState = some state)

include h hload

theorem loadPaxosState_sent :
    (∀ p, state.acceptedProposal = some p → Sent p ∧ Accepted p.ballot) ∧
      (∀ c, state.mostRecentCommit = some c → Decided c.ballot) := by
  have hcommit : ∀ c, row.loadCommit = some c → Decided c.ballot := by
    intro c hc
    obtain ⟨b, hb, rfl⟩ := map_eq_some_iff.mp hc
    obtain ⟨cell, hcell, hval⟩ := bind_eq_some_iff.mp hb
    obtain ⟨b', rfl, hd⟩ := h.commit cell hcell
    cases hval
    exact hd
  unfold loadPaxosState at hload
  split at hload
  · cases hload
    exact ⟨fun p hp => (by cases hp), hcommit⟩
  · next u hu =>
    split at hload
    · cases hload
    · next b hb =>
      cases hload
      refine ⟨fun p hp => ?_, hcommit⟩
      cases hp
      obtain ⟨c, hc, hcu⟩ := bind_eq_some_iff.mp hu
      obtain ⟨b', hb', -, hacc, hsent⟩ := h.proposal_live c u hc hcu
      have hbb' : b' = b := by simpa [live, hb'] using hb
      subst hbb'
      exact ⟨hsent, hacc⟩

theorem loadPaxosState_ge {b : Ballot} (hacc : Accepted b) :
    (∃ p, state.acceptedProposal = some p ∧ b.timestamp ≤ p.ballot.timestamp) ∨
      ∃ c, state.mostRecentCommit = some c ∧ b.timestamp ≤ c.ballot.timestamp := by
  obtain ⟨c, hc, hle⟩ := h.accepted_proposal b hacc
  unfold loadPaxosState at hload
  cases hval : c.value with
  | none =>
    obtain ⟨c', hc', hle'⟩ := h.proposal_dead c hc hval
    obtain ⟨b', rfl, -⟩ := h.commit c' hc'
    have hlive : live row.proposal = none := by simp [live, hc, hval]
    rw [hlive] at hload
    cases hload
    exact .inr ⟨_, by simp [loadCommit, live, hc']; rfl, hle.trans hle'⟩
  | some u =>
    obtain ⟨b', hb', hts, -⟩ := h.proposal_live c u hc hval
    have hlive : live row.proposal = some u := by simp [live, hc, hval]
    have hliveb : live row.proposalBallot = some b' := by simp [live, hb']
    simp only [hlive, hliveb] at hload
    cases hload
    exact .inl ⟨_, rfl, hle.trans hts.le⟩

end

end Valid

end Row

end Scylla.Paxos
