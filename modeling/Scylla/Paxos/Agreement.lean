import Scylla.Paxos.Invariants

/-!
# Agreement

Once a proposal is chosen, every proposal sent under a greater ballot carries its update, or an
update that was first proposed by a coordinator that knew of a commit at least as recent. So the
updates chosen form a chain: a commit has at most one successor.
-/

namespace Scylla.Paxos

open Finset

variable {R D : Type} [Fintype R] [DecidableEq R]

section State

variable {s : State R D}

/-- The coordinator has collected its promises, and the newest commit they report is `c`. -/
def State.KnowsCommit (s : State R D) (b : Ballot) (c : Proposal D) : Prop :=
  ∃ summary, s.summaries b = some summary ∧ summary.promised = true ∧
    summary.mostRecentCommit = some c

variable {b b' : Ballot}

theorem Inv.summary_ge (h : Inv s) (hb : s.Chosen b) {summary : PrepareSummary R D}
    (hsum : s.summaries b' = some summary) (hprom : summary.promised = true)
    (hlt : b.timestamp < b'.timestamp) :
    (∃ q, summary.mostRecentProposal = some q ∧ b.timestamp ≤ q.ballot.timestamp) ∨
      ∃ c, summary.mostRecentCommit = some c ∧ b.timestamp ≤ c.ballot.timestamp := by
  have hsound := h.summaries b' summary hsum hprom
  obtain ⟨r, -, hr, hr'⟩ := IsMajority.exists_common hb hsound.quorum
  simp only [State.acceptors, mem_filter, mem_univ, true_and] at hr
  rw [List.mem_toFinset] at hr'
  obtain ⟨p, q, hp, hq, haccepted, hcommit⟩ := h.exists_promised hsum hprom hr'
  rcases h.promised_reports r b' q b hq hr hlt with ⟨a, ha, hle⟩ | ⟨c, hc, hle⟩
  · obtain ⟨a', ha', hle'⟩ := hsound.proposal_ge r hr' p hp a (haccepted.trans ha)
    exact .inl ⟨a', ha', hle.trans hle'⟩
  · obtain ⟨c', hc', hle'⟩ := hsound.commit_ge r hr' p hp c (hcommit.trans hc)
    exact .inr ⟨c', hc', hle.trans hle'⟩

theorem Inv.commit_ge_of_proceeded (h : Inv s) (hb : s.Chosen b) (hproc : s.proceeded b' = true)
    (hlt : b.timestamp < b'.timestamp) :
    ∃ c, s.KnowsCommit b' c ∧ b.timestamp ≤ c.ballot.timestamp := by
  obtain ⟨summary, hsum, hprom, hprog⟩ := h.proceeded b' hproc
  rcases h.summary_ge hb hsum hprom hlt with ⟨q, hq, hle⟩ | ⟨c, hc, hle⟩
  · obtain ⟨c, hc, hle'⟩ := PrepareSummary.inProgress_eq_none hprog hq
    exact ⟨c, ⟨summary, hsum, hprom, hc⟩, hle.trans hle'⟩
  · exact ⟨c, ⟨summary, hsum, hprom, hc⟩, hle⟩

theorem Inv.sent_above_chosen (h : Inv s) {p : Sent D} (hb : s.Chosen b) (hp : s.sent b = some p)
    (b' : Ballot) (p' : Sent D) (hp' : s.sent b' = some p') (hlt : b.timestamp < b'.timestamp) :
    p' = p ∨ (b.timestamp < p'.origin.timestamp ∧
      ∃ c, s.KnowsCommit p'.origin c ∧ b.timestamp ≤ c.ballot.timestamp) := by
  -- strong induction on the greater timestamp: a replay goes back to a smaller ballot
  induction hn : b'.timestamp using Nat.strong_induction_on generalizing b' p' with
  | _ n ih =>
    subst hn
    rcases h.sent b' p' hp' with ⟨horigin, hproc⟩ | ⟨summary, q, hsum, hprom, hprog, hq⟩
    · rw [horigin]
      exact .inr ⟨hlt, h.commit_ge_of_proceeded hb hproc hlt⟩
    · obtain ⟨hmrp, hnewer⟩ := PrepareSummary.inProgress_eq_some hprog
      have hqlt := (h.sent_of_proposal hsum hprom hmrp).1
      have hqge : b.timestamp ≤ q.ballot.timestamp := by
        rcases h.summary_ge hb hsum hprom hlt with ⟨q', hq', hle⟩ | ⟨c, hc, hle⟩
        · cases hmrp.symm.trans hq'
          exact hle
        · exact hle.trans (hnewer c hc).le
      rcases hqge.lt_or_eq with hgt | heq
      · exact ih _ hqlt q.ballot p' hq hgt rfl
      · have hbq := h.sent_unique hp hq heq
        rw [← hbq] at hq
        exact .inl (Option.some.inj (hq.symm.trans hp))

/-! ## Commits precede what is proposed on top of them -/

def CommitsFirst (s : State R D) : Prop :=
  ∀ o c, s.KnowsCommit o c → (∃ p, s.sent c.ballot = some p ∧ p.origin ≠ o) ∧
    ∃ Q, IsMajority Finset.univ Q ∧ ∀ r ∈ Q, s.accepted r c.ballot = true ∧
      ∀ b p, s.sent b = some p → p.origin = o → b.timestamp < c.ballot.timestamp →
        s.accepted r b = false

theorem Inv.commit_lt_chosen (h : Inv s) (hfirst : CommitsFirst s) {p : Sent D} (hb : s.Chosen b)
    (hp : s.sent b = some p) {c : Proposal D} (hc : s.KnowsCommit p.origin c) :
    c.ballot.timestamp < b.timestamp := by
  obtain ⟨⟨p', hp', hne⟩, Q, hQ, hquorum⟩ := hfirst p.origin c hc
  by_contra hle
  rcases (not_lt.mp hle).lt_or_eq with hlt | heq
  · obtain ⟨r, -, hr, hrQ⟩ := IsMajority.exists_common hb hQ
    simp only [State.acceptors, mem_filter, mem_univ, true_and] at hr
    rw [(hquorum r hrQ).2 b p hp rfl hlt] at hr
    cases hr
  · have hbc := h.sent_unique hp hp' heq
    subst hbc
    cases hp.symm.trans hp'
    exact hne rfl

theorem Inv.chosen_successor (h : Inv s) (hfirst : CommitsFirst s) {p p' : Sent D}
    (hb : s.Chosen b) (hp : s.sent b = some p) (hp' : s.sent b' = some p')
    (hcommit : ∀ c, s.KnowsCommit p'.origin c →
      ∃ c', s.KnowsCommit p.origin c' ∧ c'.ballot = c.ballot)
    (hlt : b.timestamp < b'.timestamp) : p' = p := by
  rcases h.sent_above_chosen hb hp b' p' hp' hlt with heq | ⟨-, c, hc, hle⟩
  · exact heq
  · obtain ⟨c', hc', heq⟩ := hcommit c hc
    have := h.commit_lt_chosen hfirst hb hp hc'
    rw [heq] at this
    omega

end State

variable [DecidableEq D] [SemilatticeSup D] [OrderBot D] {s s' : State R D} {a : Action R D}

theorem Step.commitsFirst (h : Step s a s') (inv : Inv s) (hfirst : CommitsFirst s) :
    CommitsFirst s' := by
  rintro o c ⟨summary, hsum, hprom, hc⟩
  have hchosen := (h.inv inv).chosen_of_commit hsum hprom hc
  rcases h.summaries_new hsum with hold | ⟨hnone, hsent, haccepted, -⟩
  · obtain ⟨⟨p, hp, hne⟩, Q, hQ, hquorum⟩ := hfirst o c ⟨summary, hold, hprom, hc⟩
    refine ⟨⟨p, h.grows.sent hp, hne⟩, Q, hQ, fun r hr => ?_⟩
    obtain ⟨hacc, hnot⟩ := hquorum r hr
    refine ⟨h.grows.accepted hacc, fun b p hp ho hlt => ?_⟩
    by_contra hb
    rcases h.accepted_new (Bool.eq_true_of_not_eq_false hb) with hb | ⟨hsent, q, hq, hguard⟩
    · obtain ⟨p', hp'⟩ := inv.accepted_sent r b hb
      cases hp.symm.trans (h.grows.sent hp')
      rw [hnot b p hp' ho hlt] at hb
      cases hb
    · have hle := (inv.rows r).accepted_le c.ballot hacc
      rcases hguard with rfl | hguard <;> omega
  · -- a coordinator that has just collected its promises has sent nothing
    have hfresh : ∀ b p, s'.sent b = some p → p.origin ≠ o := by
      rintro b p hp rfl
      rw [hsent] at hp
      obtain ⟨summary', hsum', -⟩ := inv.exists_summary (inv.origin b p hp)
      rw [hnone] at hsum'
      cases hsum'
    obtain ⟨p, hp⟩ := (h.inv inv).sent_of_chosen hchosen
    refine ⟨⟨p, hp, hfresh _ p hp⟩, s'.acceptors c.ballot, hchosen, fun r hr => ?_⟩
    simp only [State.acceptors, mem_filter, mem_univ, true_and] at hr
    exact ⟨hr, fun b p hp ho => absurd ho (hfresh b p hp)⟩

theorem Reachable.commitsFirst (h : Reachable s) : CommitsFirst s := by
  refine (Reaches.invariant h (I := fun s => Inv s ∧ CommitsFirst s) ⟨Inv.init, ?_⟩ ?_).2
  · rintro o c ⟨summary, hsum, -⟩
    simp [State.init] at hsum
  · intro s a s' hinv _ hstep
    exact ⟨(Step.of_step hstep).inv hinv.1, (Step.of_step hstep).commitsFirst hinv.1 hinv.2⟩

/-- Agreement. Above a chosen proposal, every proposal sent carries its update, or one first
proposed above it by a coordinator whose quorum reported a commit at least as recent; and two
proposals chosen on top of one commit carry the same update. -/
theorem chosen_agreement (h : Reachable s) :
    (∀ b p b' p', s.Chosen b → s.sent b = some p → s.sent b' = some p' →
      b.timestamp < b'.timestamp → p'.update = p.update ∨
        (b.timestamp < p'.origin.timestamp ∧
          ∃ c, s.KnowsCommit p'.origin c ∧ b.timestamp ≤ c.ballot.timestamp)) ∧
    (∀ b p b' p', s.Chosen b → s.Chosen b' → s.sent b = some p → s.sent b' = some p' →
      (∀ c, (∃ q, s.KnowsCommit p.origin q ∧ q.ballot = c) ↔
        ∃ q, s.KnowsCommit p'.origin q ∧ q.ballot = c) →
      p'.update = p.update) := by
  have hinv := h.inv
  have hfirst := h.commitsFirst
  refine ⟨fun b p b' p' hb hp hp' hlt => ?_, fun b p b' p' hb hb' hp hp' hcommit => ?_⟩
  · exact (hinv.sent_above_chosen hb hp b' p' hp' hlt).imp (congrArg Sent.update) id
  · rcases lt_trichotomy b.timestamp b'.timestamp with hlt | heq | hlt
    · exact congrArg Sent.update (hinv.chosen_successor hfirst hb hp hp'
        (fun c hc => (hcommit c.ballot).mpr ⟨c, hc, rfl⟩) hlt)
    · have hbb' := hinv.sent_unique hp hp' heq
      subst hbb'
      cases hp.symm.trans hp'
      rfl
    · exact congrArg Sent.update (hinv.chosen_successor hfirst hb' hp' hp
        (fun c hc => (hcommit c.ballot).mp ⟨c, hc, rfl⟩) hlt).symm

def lateRepairRun : List (Action (Fin 3) ℕ) :=
  let tie := fun _ => true
  let learn : Learn (Fin 3) ℕ := ⟨⟨1, 0⟩, 2, ⟨⟨1, 0⟩, 1⟩, false⟩
  let repair : Learn (Fin 3) ℕ := ⟨⟨2, 0⟩, 0, ⟨⟨1, 0⟩, 1⟩, true⟩
  [.start 0 [0, 1, 2], .newBallot 0 ⟨1, 0⟩,
    .prepare 0 ⟨1, 0⟩ tie, .reply 0 ⟨1, 0⟩ false, .prepare 1 ⟨1, 0⟩ tie, .reply 1 ⟨1, 0⟩ false,
    .finishPrepare ⟨1, 0⟩ [0, 1], .proceed ⟨1, 0⟩, .evaluate ⟨1, 0⟩ (some 1),
    .accept 0 ⟨1, 0⟩ tie, .accept 1 ⟨1, 0⟩ tie, .decide ⟨1, 0⟩, .learnApply learn,
    .learnSave learn tie,
    .start 1 [0, 1, 2], .newBallot 1 ⟨2, 0⟩,
    .prepare 0 ⟨2, 0⟩ tie, .reply 0 ⟨2, 0⟩ false, .prepare 2 ⟨2, 0⟩ tie, .reply 2 ⟨2, 0⟩ false,
    .finishPrepare ⟨2, 0⟩ [0, 2], .repair ⟨2, 0⟩,
    .start 2 [0, 1, 2], .newBallot 2 ⟨3, 0⟩, .prepare 0 ⟨3, 0⟩ tie, .reply 0 ⟨3, 0⟩ false,
    .learnApply repair, .learnSave repair tie, .acknowledge repair, .proceed ⟨2, 0⟩,
    .read 0 ⟨2, 0⟩, .read 1 ⟨2, 0⟩, .evaluate ⟨2, 0⟩ (some 2),
    .accept 1 ⟨2, 0⟩ tie, .accept 2 ⟨2, 0⟩ tie,
    .prepare 1 ⟨3, 0⟩ tie, .reply 1 ⟨3, 0⟩ false, .finishPrepare ⟨3, 0⟩ [0, 1],
    .replay ⟨3, 0⟩]

theorem chosen_agreement_lateRepair : ∃ (s : State (Fin 3) ℕ) (p p' : Sent ℕ),
    Reachable s ∧ s.Chosen ⟨1, 0⟩ ∧ s.sent ⟨1, 0⟩ = some p ∧ s.sent ⟨3, 0⟩ = some p' ∧
      (p'.update = p.update ∨ (1 < p'.origin.timestamp ∧
        ∃ c, s.KnowsCommit p'.origin c ∧ 1 ≤ c.ballot.timestamp)) := by
  have hrun : ∃ s, runSteps step (fun _ _ => True) (State.init : State (Fin 3) ℕ) lateRepairRun =
      some s ∧ s.Chosen ⟨1, 0⟩ ∧ s.sent ⟨1, 0⟩ = some ⟨1, ⟨1, 0⟩⟩ ∧
      s.sent ⟨3, 0⟩ = some ⟨2, ⟨2, 0⟩⟩ := ⟨_, rfl, by decide, rfl, rfl⟩
  obtain ⟨s, hrun, hb, hp, hp'⟩ := hrun
  have hreach : Reachable s := reaches_of_runSteps .init hrun
  exact ⟨s, _, _, hreach, hb, hp, hp', (chosen_agreement hreach).1 _ _ _ _ hb hp hp' (by decide)⟩

/-- Who sends above a chosen proposal need not know of a commit: it may replay a proposal made on
top of it. -/
theorem sent_without_commit_lateRepair : ¬ ∀ s : State (Fin 3) ℕ, Reachable s →
    ∀ b p b' p', s.Chosen b → s.sent b = some p → s.sent b' = some p' →
      b.timestamp < b'.timestamp → p'.update = p.update ∨
        ∃ c, s.KnowsCommit b' c ∧ b.timestamp ≤ c.ballot.timestamp := by
  intro h
  have hrun : ∃ s summary,
      runSteps step (fun _ _ => True) (State.init : State (Fin 3) ℕ) lateRepairRun = some s ∧
      s.Chosen ⟨1, 0⟩ ∧ s.sent ⟨1, 0⟩ = some ⟨1, ⟨1, 0⟩⟩ ∧ s.sent ⟨3, 0⟩ = some ⟨2, ⟨2, 0⟩⟩ ∧
      s.summaries ⟨3, 0⟩ = some summary ∧ summary.mostRecentCommit = none :=
    ⟨_, _, rfl, by decide, rfl, rfl, rfl, rfl⟩
  obtain ⟨s, summary, hrun, hb, hp, hp', hsum, hnone⟩ := hrun
  rcases h s (reaches_of_runSteps .init hrun) _ _ _ _ hb hp hp' (by decide) with
    heq | ⟨c, ⟨summary', hsum', -, hc⟩, -⟩
  · cases heq
  · cases hsum.symm.trans hsum'
    rw [hnone] at hc
    cases hc

end Scylla.Paxos
