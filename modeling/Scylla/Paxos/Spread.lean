import Scylla.Paxos.Agreement

/-!
# How decisions spread

A decision is safe to build on once a quorum of base tables holds its update. The commits behind a
coordinator are those its proposal is built on, directly or through earlier decisions. In runs
where a coordinator waits for all the repairs it has sent, and a decision is pruned only after a
quorum has learned it, every commit behind a coordinator that proceeds is held by a quorum.
-/

namespace Scylla.Paxos

open List

/-! ## The commit of a row -/

namespace Row

variable {D : Type}

structure CommitValid (Known : Ballot → Prop) (Right : Ballot → D → Prop) (Pruned : ℕ → Prop)
    (row : Row D) : Prop where
  known : ∀ b, row.mostRecentCommitAt = some ⟨b.timestamp, some b⟩ → Known b
  value_live : ∀ c v, row.mostRecentCommit = some c → c.value = some v → ∃ b,
    row.mostRecentCommitAt = some ⟨b.timestamp, some b⟩ ∧ c.timestamp = b.timestamp ∧ Right b v
  value_dead : ∀ c, row.mostRecentCommit = some c → c.value = none → Pruned c.timestamp
  exists_value : ∀ c, row.mostRecentCommitAt = some c →
    ∃ c', row.mostRecentCommit = some c' ∧ c.timestamp ≤ c'.timestamp

namespace CommitValid

variable {Accepted Decided Known Known' : Ballot → Prop} {Sent : Proposal D → Prop}
  {Right Right' : Ballot → D → Prop} {Pruned Pruned' : ℕ → Prop} {row row' : Row D}

section

variable (h : row.CommitValid Known Right Pruned)

include h

theorem mono (hknown : ∀ b, Known b → Known' b) (hright : ∀ b v, Right b v → Right' b v)
    (hpruned : ∀ t, Pruned t → Pruned' t) :
    row.CommitValid Known' Right' Pruned' where
  known b hb := hknown b (h.known b hb)
  value_live c v hc hv := by
    obtain ⟨b, hb, hts, hr⟩ := h.value_live c v hc hv
    exact ⟨b, hb, hts, hright b v hr⟩
  value_dead c hc hv := hpruned _ (h.value_dead c hc hv)
  exists_value := h.exists_value

theorem congr (hat : row'.mostRecentCommitAt = row.mostRecentCommitAt)
    (hvalue : row'.mostRecentCommit = row.mostRecentCommit) :
    row'.CommitValid Known Right Pruned := by
  constructor
  · rw [hat]
    exact h.known
  · rw [hat, hvalue]
    exact h.value_live
  · rw [hvalue]
    exact h.value_dead
  · rw [hat, hvalue]
    exact h.exists_value

theorem deletePaxosDecision (tie : Column → Bool) {b : Ballot} (hpruned : Pruned b.timestamp) :
    (row.deletePaxosDecision tie b).CommitValid Known Right Pruned where
  known := h.known
  value_live c v hc hv := by
    rcases write_dead rfl hc with rfl | ⟨hc, -⟩
    · cases hv
    · exact h.value_live c v hc hv
  value_dead c hc hv := by
    rcases write_dead rfl hc with rfl | ⟨hc, -⟩
    · exact hpruned
    · exact h.value_dead c hc hv
  exists_value c hc := by
    obtain ⟨c₁, hc₁, hle⟩ := h.exists_value c hc
    obtain ⟨c₂, hc₂, -, hold⟩ :=
      exists_write (tie .mostRecentCommit) row.mostRecentCommit ⟨b.timestamp, (none : Option D)⟩
    exact ⟨c₂, hc₂, hle.trans (hold c₁ hc₁)⟩

end

theorem commitAt_savePaxosDecision (hvalid : row.Valid Accepted Sent Decided)
    (tie : Column → Bool) {p : Proposal D}
    (hunique : ∀ b, Decided b → b.timestamp = p.ballot.timestamp → b = p.ballot)
    (hle : ∀ c, row.mostRecentCommitAt = some c → c.timestamp ≤ p.ballot.timestamp) :
    (row.savePaxosDecision tie p).mostRecentCommitAt =
      some ⟨p.ballot.timestamp, some p.ballot⟩ := by
  obtain ⟨c, hc, hge, -⟩ := exists_write (tie .mostRecentCommitAt) row.mostRecentCommitAt
    ⟨p.ballot.timestamp, some p.ballot⟩
  rcases write_eq_some hc with rfl | ⟨hold, -⟩
  · exact hc
  · obtain ⟨b, rfl, hd⟩ := hvalid.commit c hold
    have hb : b = p.ballot := hunique b hd (le_antisymm (hle _ hold) hge)
    rw [hb] at hc
    exact hc

section

variable (h : row.CommitValid Known Right Pruned) (hvalid : row.Valid Accepted Sent Decided)

include h hvalid

theorem savePaxosDecision (tie : Column → Bool) {p : Proposal D} (hknown : Known p.ballot)
    (hright : Right p.ballot p.update)
    (hunique : ∀ b, Decided b → b.timestamp = p.ballot.timestamp → b = p.ballot) :
    (row.savePaxosDecision tie p).CommitValid Known Right Pruned where
  known b hb := by
    rcases write_eq_some hb with heq | ⟨hold, -⟩
    · have hbp : b = p.ballot := Option.some.inj (congrArg Cell.value heq)
      rw [hbp]
      exact hknown
    · exact h.known b hold
  value_live c v hc hv := by
    rcases write_cases (tie .mostRecentCommit) row.mostRecentCommit
      ⟨p.ballot.timestamp, some p.update⟩ with ⟨hw, hle⟩ | ⟨old, hold, hw, hle⟩
    · cases hc.symm.trans hw
      cases hv
      refine ⟨p.ballot, commitAt_savePaxosDecision hvalid tie hunique fun c hc => ?_, rfl, hright⟩
      obtain ⟨c', hc', hle'⟩ := h.exists_value c hc
      rcases hle c' hc' with hlt | ⟨heq, -⟩
      · exact hle'.trans hlt.le
      · exact hle'.trans heq.le
    · cases hc.symm.trans hw
      obtain ⟨b, hb, hts, hr⟩ := h.value_live c v hold hv
      have hpb : p.ballot.timestamp ≤ b.timestamp := by
        rw [← hts]
        rcases hle with hlt | ⟨heq, -⟩
        · exact hlt.le
        · exact heq.le
      rcases hpb.lt_or_eq with hlt | heq
      · exact ⟨b, write_of_gt hb hlt, hts, hr⟩
      · obtain ⟨b', hb', hd⟩ := hvalid.commit _ hb
        rw [← Option.some.inj (congrArg Cell.value hb')] at hd
        have hbp : b = p.ballot := hunique b hd heq.symm
        subst hbp
        refine ⟨p.ballot, commitAt_savePaxosDecision hvalid tie hunique fun c hc => ?_, hts, hr⟩
        cases hc.symm.trans hb
        exact le_rfl
  value_dead c hc hv := by
    rcases write_eq_some hc with rfl | ⟨hold, -⟩
    · cases hv
    · exact h.value_dead c hold hv
  exists_value c hc := by
    obtain ⟨c₂, hc₂, hnew, hold⟩ := exists_write (tie .mostRecentCommit) row.mostRecentCommit
      ⟨p.ballot.timestamp, some p.update⟩
    refine ⟨c₂, hc₂, ?_⟩
    rcases write_eq_some hc with rfl | ⟨hc, -⟩
    · exact hnew
    · obtain ⟨c₁, hc₁, hle⟩ := h.exists_value c hc
      exact hle.trans (hold c₁ hc₁)

theorem loadCommit [Bot D] {c : Proposal D} (hc : row.loadCommit = some c) :
    Known c.ballot ∧ (Right c.ballot c.update ∨
      c.update = ⊥ ∧ ∃ t, Pruned t ∧ c.ballot.timestamp ≤ t) := by
  obtain ⟨b, hb, rfl⟩ := Option.map_eq_some_iff.mp hc
  obtain ⟨cell, hcell, hval⟩ := Option.bind_eq_some_iff.mp hb
  obtain ⟨b', rfl, -⟩ := hvalid.commit cell hcell
  cases hval
  refine ⟨h.known b hcell, ?_⟩
  obtain ⟨cv, hcv, hle⟩ := h.exists_value _ hcell
  cases hv : cv.value with
  | none => exact .inr ⟨by simp [live, hcv, hv], cv.timestamp, h.value_dead cv hcv hv, hle⟩
  | some v =>
    obtain ⟨b', hb', -, hr⟩ := h.value_live cv v hcv hv
    have hbb' : b = b' := Option.some.inj (congrArg Cell.value
      (Option.some.inj (hcell.symm.trans hb')))
    subst hbb'
    refine .inl ?_
    have hlive : live row.mostRecentCommit = some v := by simp [live, hcv, hv]
    simpa [hlive] using hr

end

end CommitValid

end Row

variable {R D : Type} [Fintype R] [DecidableEq R]

/-! ## The commits behind a coordinator -/

inductive State.Behind (s : State R D) (b : Ballot) : Ballot → Prop
  | commit {c : Proposal D} : s.KnowsCommit b c → Behind s b c.ballot
  | step {c : Ballot} {p : Sent D} {c' : Proposal D} : Behind s b c → s.sent c = some p →
      s.KnowsCommit p.origin c' → Behind s b c'.ballot

namespace Inv

variable {s : State R D}

variable {b : Ballot}

theorem chosen_of_knowsCommit (h : Inv s) {c : Proposal D} (hc : s.KnowsCommit b c) :
    s.Chosen c.ballot := by
  obtain ⟨summary, hsum, hprom, hcommit⟩ := hc
  exact h.chosen_of_commit hsum hprom hcommit

theorem chosen_of_behind (h : Inv s) {c : Ballot} (hc : s.Behind b c) : s.Chosen c := by
  cases hc with
  | commit hc => exact h.chosen_of_knowsCommit hc
  | step _ _ hc => exact h.chosen_of_knowsCommit hc

theorem origin_le (h : Inv s) (b : Ballot) (p : Sent D) (hp : s.sent b = some p) :
    p.origin.timestamp ≤ b.timestamp := by
  induction hn : b.timestamp using Nat.strong_induction_on generalizing b p with
  | _ n ih =>
    subst hn
    rcases h.sent b p hp with ⟨rfl, -⟩ | ⟨summary, q, hsum, hprom, hprog, hq⟩
    · exact le_rfl
    · have hlt := (h.sent_of_proposal hsum hprom (PrepareSummary.inProgress_eq_some hprog).1).1
      exact (ih _ hlt q.ballot p hq rfl).trans hlt.le

theorem origin_proceeded (h : Inv s) {p : Sent D} (hp : s.sent b = some p) :
    s.proceeded p.origin = true := by
  rcases h.sent p.origin p (h.origin b p hp) with ⟨-, hproc⟩ | ⟨summary, q, hsum, hprom, hprog, hq⟩
  · exact hproc
  · -- a replay goes back below its own ballot
    have hlt := (h.sent_of_proposal hsum hprom (PrepareSummary.inProgress_eq_some hprog).1).1
    have hle := h.origin_le q.ballot p hq
    omega

theorem exists_behind (h : Inv s) (hfirst : CommitsFirst s) {b₁ : Ballot} {p₁ : Sent D}
    (hb₁ : s.Chosen b₁) (hp₁ : s.sent b₁ = some p₁) (c : Ballot) (hc : s.Behind b c)
    (hle : b₁.timestamp ≤ c.timestamp) : ∃ c', s.Behind b c' ∧ s.sent c' = some p₁ := by
  induction hn : c.timestamp using Nat.strong_induction_on generalizing c with
  | _ n ih =>
    subst hn
    obtain ⟨p, hp⟩ := h.sent_of_chosen (h.chosen_of_behind hc)
    rcases hle.lt_or_eq with hlt | heq
    · rcases h.sent_above_chosen hb₁ hp₁ c p hp hlt with rfl | ⟨-, c', hc', hle'⟩
      · exact ⟨c, hc, hp⟩
      · have hlt' := h.commit_lt_chosen hfirst (h.chosen_of_behind hc) hp hc'
        exact ih _ hlt' c'.ballot (.step hc hp hc') hle' rfl
    · have hbc := h.sent_unique hp₁ hp heq
      subst hbc
      exact ⟨b₁, hc, hp₁⟩

end Inv

/-! ## Updates held by a quorum -/

variable [SemilatticeSup D]

def State.Held (s : State R D) (x : D) : Prop :=
  ∃ Q : Finset R, IsMajority Finset.univ Q ∧ ∀ r ∈ Q, x ≤ s.base r

/-- A quorum holds the update sent under the ballot. -/
def State.HeldBallot (s : State R D) (b : Ballot) : Prop :=
  ∃ p, s.sent b = some p ∧ s.Held p.update

/-- The replica, or else a quorum, holds the update sent under the ballot. -/
def State.Known (s : State R D) (r : R) (b : Ballot) : Prop :=
  ∃ p, s.sent b = some p ∧ (p.update ≤ s.base r ∨ s.Held p.update)

/-- The proposal carries the update sent under its ballot, or else a quorum holds that. -/
def State.Faithful (s : State R D) (c : Proposal D) : Prop :=
  ∃ p, s.sent c.ballot = some p ∧ (c.update = p.update ∨ s.Held p.update)

variable {summary : PrepareSummary R D}

section Grows

variable {s s' : State R D}

theorem Grows.held (h : Grows s s') {x : D} (hx : s.Held x) : s'.Held x := by
  obtain ⟨Q, hQ, hbase⟩ := hx
  exact ⟨Q, hQ, fun r hr => (hbase r hr).trans (h.base r)⟩

variable {b : Ballot} {c : Proposal D}

theorem Grows.heldBallot (h : Grows s s') (hb : s.HeldBallot b) : s'.HeldBallot b := by
  obtain ⟨p, hp, hx⟩ := hb
  exact ⟨p, h.sent hp, h.held hx⟩

theorem Grows.known (h : Grows s s') {r : R} (hb : s.Known r b) : s'.Known r b := by
  obtain ⟨p, hp, hx⟩ := hb
  exact ⟨p, h.sent hp, hx.imp (fun hle => hle.trans (h.base r)) h.held⟩

theorem Grows.faithful (h : Grows s s') (hc : s.Faithful c) : s'.Faithful c := by
  obtain ⟨p, hp, hx⟩ := hc
  exact ⟨p, h.sent hp, hx.imp id h.held⟩

section

omit [Fintype R] [DecidableEq R]

theorem Grows.knowsCommit (h : Grows s s') (hc : s.KnowsCommit b c) : s'.KnowsCommit b c := by
  obtain ⟨summary, hsum, hrest⟩ := hc
  exact ⟨summary, h.summaries hsum, hrest⟩

theorem Grows.knowsCommit_back (h : Grows s s')
    (hsum : s.summaries b = some summary) (hc : s'.KnowsCommit b c) : s.KnowsCommit b c := by
  obtain ⟨summary', hsum', hrest⟩ := hc
  cases (h.summaries hsum).symm.trans hsum'
  exact ⟨summary, hsum, hrest⟩

end

theorem State.HeldBallot.faithful (h : s.HeldBallot c.ballot) : s.Faithful c := by
  obtain ⟨p, hp, hx⟩ := h
  exact ⟨p, hp, .inr hx⟩

theorem State.Faithful.known (h : s.Faithful c) {r : R} (hle : c.update ≤ s.base r) :
    s.Known r c.ballot := by
  obtain ⟨p, hp, heq | hx⟩ := h
  · exact ⟨p, hp, .inl (heq ▸ hle)⟩
  · exact ⟨p, hp, .inr hx⟩

theorem State.heldBallot_of_known {Q : Finset R} (hQ : IsMajority Finset.univ Q)
    (h : ∀ r ∈ Q, s.Known r b) : s.HeldBallot b := by
  obtain ⟨r, -, hr⟩ := hQ.nonempty
  obtain ⟨p, hp, -⟩ := h r hr
  refine ⟨p, hp, ?_⟩
  by_contra hnot
  refine hnot ⟨Q, hQ, fun r hr => ?_⟩
  obtain ⟨q, hq, hle | hx⟩ := h r hr
  · cases hp.symm.trans hq
    exact hle
  · cases hp.symm.trans hq
    exact absurd hx hnot

end Grows

/-! ## Careful runs -/

/-- The replicas that have acknowledged the decision of a ballot to its coordinator. -/
def State.learners (s : State R D) (b : Ballot) : Finset R :=
  Finset.univ.filter fun r =>
    ∃ m ∈ s.acked, m.repair = false ∧ m.decision.ballot = b ∧ m.target = r

def State.missing (s : State R D) (b : Ballot) : List R :=
  match s.summaries b with
  | some summary => summary.replicasMissingMostRecentCommit
  | none => []

def State.prefetched (s : State R D) (b : Ballot) : Bool :=
  match s.summaries b with
  | some summary => summary.data.isSome
  | none => false

def Careful (s : State R D) : Action R D → Prop
  | .proceed b => ∀ r ∈ s.missing b, ∃ m ∈ s.acked, m.repair = true ∧ m.round = b ∧ m.target = r
  | .evaluate b _ => s.prefetched b = true → s.missing b = []
  | .acknowledge m => m.decision.ballot ∈ (s.countLearned m).2 → m.decision.ballot ∈ s.prunes ∨
      IsMajority Finset.univ (insert m.target (s.learners m.decision.ballot))
  | _ => True

instance (s : State R D) (a : Action R D) : Decidable (Careful s a) :=
  match a with
  | .proceed b => inferInstanceAs (Decidable (∀ r ∈ s.missing b, _))
  | .evaluate _ _ => inferInstanceAs (Decidable (_ → _))
  | .acknowledge _ => inferInstanceAs (Decidable (_ → _))
  | .start _ _ | .newBallot _ _ | .prepare _ _ _ | .reply _ _ _ | .finishPrepare _ _ | .replay _
  | .repair _ | .read _ _ | .accept _ _ _ | .decide _ | .learnApply _ | .learnSave _ _
  | .prune _ _ _ | .write _ _ => inferInstanceAs (Decidable True)

structure SpreadInv (s : State R D) : Prop where
  pos : ∀ r b p, s.promised r b = some p → 0 < b.timestamp
  decisions : ∀ p ∈ s.decisions, s.SentProposal p
  repairs : ∀ m ∈ s.repairs, m.repair = true ∧ s.KnowsCommit m.round m.decision
  learned : ∀ m ∈ s.learned, m ∈ s.applied
  acked : ∀ m ∈ s.acked, m ∈ s.applied
  applied : ∀ m ∈ s.applied, m.decision.update ≤ s.base m.target
  learns : ∀ m, s.Learns m → s.Faithful m.decision
  prunes : ∀ b ∈ s.prunes, s.Chosen b ∧ s.HeldBallot b
  rows : ∀ r, (s.rows r).CommitValid (s.Known r) (fun b v => s.Faithful ⟨b, v⟩)
    fun t => ∃ b ∈ s.prunes, b.timestamp = t
  promised : ∀ r b p c, s.promised r b = some p → p.mostRecentCommit = some c →
    s.Known r c.ballot ∧ s.Faithful c
  proceeded : ∀ b c, s.proceeded b = true → s.KnowsCommit b c → s.HeldBallot c.ballot

namespace SpreadInv

variable {s : State R D}

variable {b : Ballot}

section

variable (h : SpreadInv s) (inv : Inv s)

include h inv

theorem held_of_behind {c : Ballot} (hproc : s.proceeded b = true) (hc : s.Behind b c) :
    s.HeldBallot c := by
  cases hc with
  | commit hc => exact h.proceeded b _ hproc hc
  | step _ hp hc => exact h.proceeded _ _ (inv.origin_proceeded hp) hc

theorem held_below (hfirst : CommitsFirst s) {c : Ballot} (hb : s.Chosen b)
    (hheld : s.HeldBallot b) (hc : s.Chosen c) (hle : c.timestamp ≤ b.timestamp) :
    s.HeldBallot c := by
  obtain ⟨p, hp, hx⟩ := hheld
  obtain ⟨q, hq⟩ := inv.sent_of_chosen hc
  rcases hle.lt_or_eq with hlt | heq
  · rcases inv.sent_above_chosen hc hq b p hp hlt with rfl | ⟨-, c', hc', hle'⟩
    · exact ⟨p, hq, hx⟩
    · obtain ⟨c'', hc'', hsent⟩ := inv.exists_behind hfirst hc hq c'.ballot (.commit hc') hle'
      obtain ⟨q', hq', hx'⟩ := h.held_of_behind inv (inv.origin_proceeded hp) hc''
      cases hsent.symm.trans hq'
      exact ⟨q, hq, hx'⟩
  · have hbc := inv.sent_unique hq hp heq
    subst hbc
    exact ⟨p, hp, hx⟩

theorem decision_le {m : Learn R D} (hm : m ∈ s.applied) (hrep : m.repair = false) :
    s.SentProposal m.decision ∧
      m.decision.update ≤ s.base m.target := by
  refine ⟨?_, h.applied m hm⟩
  rcases inv.applied m hm with ⟨-, -, hdec⟩ | hmem
  · exact h.decisions _ hdec
  · rw [(h.repairs m hmem).1] at hrep
    cases hrep

theorem repair_knowsCommit {m : Learn R D} (hm : m ∈ s.applied) (hrep : m.repair = true) :
    s.KnowsCommit m.round m.decision := by
  rcases inv.applied m hm with ⟨hfalse, -, -⟩ | hmem
  · rw [hrep] at hfalse
    cases hfalse
  · exact (h.repairs m hmem).2

section

variable (hsum : s.summaries b = some summary) (hprom : summary.promised = true) {c : Proposal D}

include hsum hprom

theorem known_of_reported (hc : s.Chosen c.ballot) {e : R × Ballot}
    (he : e ∈ summary.committedBallotsByReplica) (heq : e.2 = c.ballot) :
    ∃ p c', s.promised e.1 b = some p ∧ p.mostRecentCommit = some c' ∧ c'.ballot = c.ballot := by
  obtain ⟨p, hp, hballot⟩ := (inv.summaries b summary hsum hprom).reported e he
  obtain ⟨q, hq, -, hcommit⟩ := inv.replied e.1 b p hp
  rw [heq] at hballot
  unfold Promise.committedBallot at hballot
  cases hpc : p.mostRecentCommit with
  | some c' =>
    rw [hpc] at hballot
    exact ⟨q, c', hq, hcommit.symm.trans hpc, hballot.symm⟩
  | none =>
    -- a replica without a commit is recorded with the least ballot, which no round uses
    rw [hpc] at hballot
    obtain ⟨p', hp'⟩ := inv.sent_of_chosen hc
    obtain ⟨summary', hsum', hprom'⟩ := inv.exists_summary hp'
    obtain ⟨r, -, hr⟩ := (inv.summaries _ summary' hsum' hprom').quorum.nonempty
    obtain ⟨-, q', -, hq', -⟩ := inv.exists_promised hsum' hprom' (mem_toFinset.mp hr)
    have hpos := h.pos r c.ballot q' hq'
    rw [hballot] at hpos
    exact absurd hpos (lt_irrefl 0)

theorem held_of_repaired (hc : summary.mostRecentCommit = some c)
    (hacked : ∀ r ∈ s.missing b, ∃ m ∈ s.acked, m.repair = true ∧ m.round = b ∧ m.target = r) :
    s.HeldBallot c.ballot := by
  have hchosen := inv.chosen_of_commit hsum hprom hc
  refine State.heldBallot_of_known (inv.summaries b summary hsum hprom).quorum fun r hr => ?_
  obtain ⟨e, he, rfl⟩ := mem_map.mp (mem_toFinset.mp hr)
  by_cases heq : e.2 = c.ballot
  · obtain ⟨p, c', hp, hc', hballot⟩ := h.known_of_reported inv hsum hprom hchosen he heq
    rw [← hballot]
    exact (h.promised e.1 b p c' hp hc').1
  · have hmissing : e.1 ∈ s.missing b := by
      simp only [State.missing, hsum, PrepareSummary.replicasMissingMostRecentCommit, hc]
      exact mem_map.mpr ⟨e, mem_filter.mpr ⟨he, by simpa using heq⟩, rfl⟩
    obtain ⟨m, hm, hrep, rfl, htarget⟩ := hacked e.1 hmissing
    have hm' := h.acked m hm
    obtain ⟨summary', hsum', -, hdec⟩ := h.repair_knowsCommit inv hm' hrep
    cases hsum.symm.trans hsum'
    cases hc.symm.trans hdec
    rw [← htarget]
    exact (h.learns m (inv.applied m hm')).known (h.applied m hm')

end

end

end SpreadInv

/-! ## Careful steps keep the invariants -/

variable [DecidableEq D] [OrderBot D] {s s' : State R D} {a : Action R D}

namespace Step

section

variable (h : Step s a s')

include h

theorem spread_pos (spread : SpreadInv s) (r : R) (b : Ballot) (p : Promise D)
    (hp : s'.promised r b = some p) : 0 < b.timestamp := by
  rcases h.promised_new hp with hp | ⟨state, -, -, hlt, -⟩
  · exact spread.pos r b p hp
  · omega

theorem spread_learns (inv : Inv s) (spread : SpreadInv s) (m : Learn R D) (hm : s'.Learns m) :
    s'.Faithful m.decision := by
  refine h.grows.faithful ?_
  rcases h.learns_new hm with hm | ⟨p, hp, hu, -⟩ | ⟨summary, hsum, hprom, hc⟩
  · exact spread.learns m hm
  · exact ⟨p, hp, .inl hu⟩
  · obtain ⟨r, -, p, hp, hpc⟩ := (inv.summaries _ summary hsum hprom).commit_mem _ hc
    obtain ⟨q, hq, -, hcommit⟩ := inv.replied r _ p hp
    exact (spread.promised r _ q _ hq (hcommit.symm.trans hpc)).2

theorem spread_prunes (hcare : Careful s a) (inv : Inv s) (spread : SpreadInv s) (b : Ballot)
    (hb : b ∈ s'.prunes) : s'.Chosen b ∧ s'.HeldBallot b := by
  have hold : ∀ b ∈ s.prunes, s'.Chosen b ∧ s'.HeldBallot b := fun b hb =>
    ⟨h.grows.chosen (spread.prunes b hb).1, h.grows.heldBallot (spread.prunes b hb).2⟩
  rcases h.prunes_new hb with hb | ⟨m, rfl, hm, hrep, rfl, hcount⟩
  · exact hold b hb
  rcases hcare hcount with hb | hquorum
  · exact hold _ hb
  have happlied := spread.learned m hm
  refine ⟨h.grows.chosen (inv.learns m (inv.applied m happlied)), h.grows.heldBallot ?_⟩
  refine State.heldBallot_of_known hquorum fun r hr => ?_
  have hknown : ∀ m' ∈ s.applied, m'.repair = false → s.Known m'.target m'.decision.ballot := by
    intro m' hm' hrep'
    obtain ⟨⟨p, hp, hu⟩, hle⟩ := spread.decision_le inv hm' hrep'
    exact ⟨p, hp, .inl (hu ▸ hle)⟩
  rcases Finset.mem_insert.mp hr with rfl | hr
  · exact hknown m happlied hrep
  · simp only [State.learners, Finset.mem_filter] at hr
    obtain ⟨-, m', hm', hrep', hballot, rfl⟩ := hr
    rw [← hballot]
    exact hknown m' (spread.acked m' hm') hrep'

theorem commitValid (inv : Inv s) {r : R} {Known : Ballot → Prop} {Right : Ballot → D → Prop}
    {Pruned : ℕ → Prop} (hrow : (s.rows r).CommitValid Known Right Pruned)
    (hlearn : ∀ m ∈ s.applied, m.target = r →
      Known m.decision.ballot ∧ Right m.decision.ballot m.decision.update)
    (hprune : ∀ b ∈ s.prunes, Pruned b.timestamp) :
    (s'.rows r).CommitValid Known Right Pruned := by
  cases h
  case promise r' b tie state _ _ _ _ =>
    dsimp only
    rw [Function.update_apply]
    split_ifs with hr
    · subst hr
      exact hrow.congr rfl rfl
    · exact hrow
  case accept r' b tie p _ _ =>
    dsimp only
    rw [Function.update_apply]
    split_ifs with hr
    · subst hr
      exact hrow.congr rfl rfl
    · exact hrow
  case learnSave m tie hm =>
    dsimp only
    rw [Function.update_apply]
    split_ifs with hr
    · subst hr
      have hchosen := inv.learns m (inv.applied m hm)
      obtain ⟨hknown, hright⟩ := hlearn m hm rfl
      refine hrow.savePaxosDecision (inv.rows m.target) tie hknown hright fun b hb hts => ?_
      obtain ⟨p, hp⟩ := inv.sent_of_chosen hb
      obtain ⟨q, hq⟩ := inv.sent_of_chosen hchosen
      exact inv.sent_unique hp hq hts
    · exact hrow
  case prune r' b tie hb =>
    dsimp only
    rw [Function.update_apply]
    split_ifs with hr
    · subst hr
      exact hrow.deletePaxosDecision tie (hprune b hb)
    · exact hrow
  all_goals exact hrow

theorem spread_rows (inv : Inv s) (spread : SpreadInv s) (r : R) :
    (s'.rows r).CommitValid (s'.Known r) (fun b v => s'.Faithful ⟨b, v⟩)
      fun t => ∃ b ∈ s'.prunes, b.timestamp = t := by
  refine h.commitValid inv ((spread.rows r).mono (fun b => h.grows.known)
    (fun b v => h.grows.faithful) fun t ⟨b, hb, ht⟩ => ⟨b, h.prunes_mono hb, ht⟩) ?_ ?_
  · rintro m hm rfl
    have hfaithful := h.grows.faithful (spread.learns m (inv.applied m hm))
    exact ⟨hfaithful.known ((spread.applied m hm).trans (h.grows.base _)), hfaithful⟩
  · exact fun b hb => ⟨b, h.prunes_mono hb, rfl⟩

theorem spread_promised (inv : Inv s) (hfirst : CommitsFirst s) (spread : SpreadInv s) (r : R)
    (b : Ballot) (p : Promise D) (c : Proposal D) (hp : s'.promised r b = some p)
    (hc : p.mostRecentCommit = some c) : s'.Known r c.ballot ∧ s'.Faithful c := by
  suffices hs : s.Known r c.ballot ∧ s.Faithful c from
    ⟨h.grows.known hs.1, h.grows.faithful hs.2⟩
  rcases h.promised_new hp with hp | ⟨state, tie, hload, -, rfl, -, -, -⟩
  · exact spread.promised r b p c hp hc
  · have hchosen := ((inv.rows r).loadPaxosState_sent hload).2 c hc
    rw [Row.loadPaxosState_mostRecentCommit hload] at hc
    obtain ⟨hknown, hfaithful | ⟨-, t, ⟨b', hb', rfl⟩, hle⟩⟩ :=
      (spread.rows r).loadCommit (inv.rows r) hc
    · exact ⟨hknown, hfaithful⟩
    · obtain ⟨hb'chosen, hheld⟩ := spread.prunes b' hb'
      exact ⟨hknown, (spread.held_below inv hfirst hb'chosen hheld hchosen hle).faithful⟩

theorem spread_proceeded (hcare : Careful s a) (inv : Inv s) (spread : SpreadInv s) (b : Ballot)
    (c : Proposal D) (hb : s'.proceeded b = true) (hc : s'.KnowsCommit b c) :
    s'.HeldBallot c.ballot := by
  have hold : ∀ b, s.proceeded b = true → s'.KnowsCommit b c → s'.HeldBallot c.ballot := by
    intro b hb hc
    obtain ⟨summary, hsum, -⟩ := inv.proceeded b hb
    exact h.grows.heldBallot (spread.proceeded b c hb (h.grows.knowsCommit_back hsum hc))
  have hgrows := h.grows
  cases h
  case proceed b' summary hsum hprom _ _ =>
    rcases update_eq_cases hb with ⟨rfl, -⟩ | hb
    · obtain ⟨summary', hsum', -, hcommit⟩ := hc
      cases hsum.symm.trans hsum'
      exact hgrows.heldBallot (spread.held_of_repaired inv hsum hprom hcommit hcare)
    · exact hold b hb hc
  all_goals exact hold b hb hc

theorem spread (hcare : Careful s a) (inv : Inv s) (hfirst : CommitsFirst s)
    (spread : SpreadInv s) : SpreadInv s' where
  pos := h.spread_pos spread
  decisions p hp := by
    rcases h.decisions_new hp with hp | ⟨q, hq, hu⟩
    · exact h.grows.sentProposal (spread.decisions p hp)
    · exact ⟨q, h.grows.sent hq, hu⟩
  repairs m hm := by
    rcases h.repairs_new hm with hm | ⟨hrep, hc⟩
    · exact ⟨(spread.repairs m hm).1, h.grows.knowsCommit (spread.repairs m hm).2⟩
    · exact ⟨hrep, h.grows.knowsCommit hc⟩
  learned m hm := by
    rcases h.learned_new hm with hm | hm
    · exact h.applied_mono (spread.learned m hm)
    · exact h.applied_mono hm
  acked m hm := by
    rcases h.acked_new hm with hm | hm
    · exact h.applied_mono (spread.acked m hm)
    · exact h.applied_mono (spread.learned m hm)
  applied m hm := by
    rcases h.applied_le hm with hm | hle
    · exact (spread.applied m hm).trans (h.grows.base m.target)
    · exact hle
  learns := h.spread_learns inv spread
  prunes := h.spread_prunes hcare inv spread
  rows := h.spread_rows inv spread
  promised := h.spread_promised inv hfirst spread
  proceeded := h.spread_proceeded hcare inv spread

end

end Step

omit [DecidableEq D] in
theorem SpreadInv.init : SpreadInv (State.init : State R D) where
  pos := by simp [State.init]
  decisions := by simp [State.init]
  repairs := by simp [State.init]
  learned := by simp [State.init]
  acked := by simp [State.init]
  applied := by simp [State.init]
  learns := by simp [State.init, State.Learns]
  prunes := by simp [State.init]
  rows r := by constructor <;> simp [State.init, Row.empty]
  promised := by simp [State.init]
  proceeded := by simp [State.init]

end Scylla.Paxos
