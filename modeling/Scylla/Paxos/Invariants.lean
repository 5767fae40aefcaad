import Scylla.Paxos.Steps

/-!
# Invariants of the protocol

The invariants relate the rows of the replicas, the promises they made, the summaries of the
coordinators and the proposals sent. Each is kept by every step, and so holds in every state of
every run.
-/

namespace Scylla.Paxos

open Function

variable {R D : Type} [Fintype R] [DecidableEq R]

def State.SentProposal (s : State R D) (p : Proposal D) : Prop :=
  ∃ q, s.sent p.ballot = some q ∧ q.update = p.update

structure ReplicaInv (s : State R D) : Prop where
  rows : ∀ r, (s.rows r).Valid (fun b => s.accepted r b = true) s.SentProposal s.Chosen
  promised_le : ∀ r b p, s.promised r b = some p →
    b.timestamp ≤ (s.rows r).promisedBallot.timestamp
  promised_unique : ∀ r b b' p p', s.promised r b = some p → s.promised r b' = some p' →
    b.timestamp = b'.timestamp → b = b'
  promised_accepted : ∀ r b p q, s.promised r b = some p → p.acceptedProposal = some q →
    q.ballot.timestamp < b.timestamp ∧ s.SentProposal q
  promised_commit : ∀ r b p c, s.promised r b = some p → p.mostRecentCommit = some c →
    s.Chosen c.ballot
  promised_reports : ∀ r b p b₀, s.promised r b = some p → s.accepted r b₀ = true →
    b₀.timestamp < b.timestamp →
    (∃ q, p.acceptedProposal = some q ∧ b₀.timestamp ≤ q.ballot.timestamp) ∨
      ∃ c, p.mostRecentCommit = some c ∧ b₀.timestamp ≤ c.ballot.timestamp
  accepted_sent : ∀ r b, s.accepted r b = true → ∃ p, s.sent b = some p
  learns : ∀ m, s.Learns m → s.Chosen m.decision.ballot
  applied : ∀ m ∈ s.applied, s.Learns m

structure CoordinatorInv (s : State R D) : Prop where
  replied : ∀ r b p, s.replied r b = some (.promise p) → ∃ q, s.promised r b = some q ∧
    p.acceptedProposal = q.acceptedProposal ∧ p.mostRecentCommit = q.mostRecentCommit
  summaries : ∀ b summary, s.summaries b = some summary → summary.promised = true →
    summary.Sound fun r => s.replied r b
  proceeded : ∀ b, s.proceeded b = true → ∃ summary, s.summaries b = some summary ∧
    summary.promised = true ∧ summary.inProgress = none
  sent : ∀ b p, s.sent b = some p → (p.origin = b ∧ s.proceeded b = true) ∨
    ∃ summary q, s.summaries b = some summary ∧ summary.promised = true ∧
      summary.inProgress = some q ∧ s.sent q.ballot = some p
  origin : ∀ b p, s.sent b = some p → s.sent p.origin = some p

structure Inv (s : State R D) : Prop extends ReplicaInv s, CoordinatorInv s

variable {s : State R D}

namespace Inv

variable {b : Ballot} {summary : PrepareSummary R D} {q : Proposal D}

section

variable (h : Inv s)

include h

theorem exists_summary {p : Sent D} (hp : s.sent b = some p) :
    ∃ summary, s.summaries b = some summary ∧ summary.promised = true := by
  rcases h.sent b p hp with ⟨-, hproc⟩ | ⟨summary, -, hsum, hprom, -⟩
  · obtain ⟨summary, hsum, hprom, -⟩ := h.proceeded b hproc
    exact ⟨summary, hsum, hprom⟩
  · exact ⟨summary, hsum, hprom⟩

theorem exists_promised (hsum : s.summaries b = some summary) (hprom : summary.promised = true)
    {r : R} (hr : r ∈ summary.replicas) :
    ∃ p q, s.replied r b = some (.promise p) ∧
      s.promised r b = some q ∧ p.acceptedProposal = q.acceptedProposal ∧
      p.mostRecentCommit = q.mostRecentCommit := by
  obtain ⟨p, hp⟩ := (h.summaries b summary hsum hprom).exists_promise hr
  obtain ⟨q, hq, heq⟩ := h.replied r b p hp
  exact ⟨p, q, hp, hq, heq⟩

theorem sent_unique {b' : Ballot} {p p' : Sent D} (hp : s.sent b = some p)
    (hp' : s.sent b' = some p') (heq : b.timestamp = b'.timestamp) : b = b' := by
  obtain ⟨summary, hsum, hprom⟩ := h.exists_summary hp
  obtain ⟨summary', hsum', hprom'⟩ := h.exists_summary hp'
  obtain ⟨r, -, hr, hr'⟩ := (h.summaries b summary hsum hprom).quorum.exists_common
    (h.summaries b' summary' hsum' hprom').quorum
  obtain ⟨-, q, -, hq, -⟩ := h.exists_promised hsum hprom (List.mem_toFinset.mp hr)
  obtain ⟨-, q', -, hq', -⟩ := h.exists_promised hsum' hprom' (List.mem_toFinset.mp hr')
  exact h.promised_unique r b b' q q' hq hq' heq

theorem sentProposal_unique {p : Proposal D} (hp : s.SentProposal p) (hq : s.SentProposal q)
    (heq : p.ballot.timestamp = q.ballot.timestamp) : p = q := by
  obtain ⟨b, u⟩ := p
  obtain ⟨b', u'⟩ := q
  obtain ⟨p', hp', rfl⟩ := hp
  obtain ⟨q', hq', rfl⟩ := hq
  have hb : b = b' := h.sent_unique hp' hq' heq
  subst hb
  cases hp'.symm.trans hq'
  rfl

theorem sent_of_chosen (hb : s.Chosen b) : ∃ p, s.sent b = some p := by
  obtain ⟨r, -, hr⟩ := hb.nonempty
  simp only [State.acceptors, Finset.mem_filter] at hr
  exact h.accepted_sent r b hr.2

section

variable (hsum : s.summaries b = some summary) (hprom : summary.promised = true)

include hsum hprom

theorem chosen_of_commit
    {c : Proposal D} (hc : summary.mostRecentCommit = some c) : s.Chosen c.ballot := by
  obtain ⟨r, -, p, hp, hpc⟩ := (h.summaries b summary hsum hprom).commit_mem c hc
  obtain ⟨q, hq, -, hcommit⟩ := h.replied r b p hp
  exact h.promised_commit r b q c hq (hcommit ▸ hpc)

theorem sent_of_proposal (hq : summary.mostRecentProposal = some q) :
    q.ballot.timestamp < b.timestamp ∧ s.SentProposal q := by
  obtain ⟨r, -, p, hp, hpq⟩ := (h.summaries b summary hsum hprom).proposal_mem q hq
  obtain ⟨p', hp', haccepted, -⟩ := h.replied r b p hp
  exact h.promised_accepted r b p' q hp' (haccepted ▸ hpq)

theorem sent_inProgress (hq : summary.inProgress = some q) :
    s.sent q.ballot = some ⟨q.update, s.originOf q.ballot⟩ := by
  obtain ⟨hmrp, -⟩ := PrepareSummary.inProgress_eq_some hq
  obtain ⟨-, q', hq', hu⟩ := h.sent_of_proposal hsum hprom hmrp
  rw [hq', ← hu]
  simp [State.originOf, hq']

end

end

end Inv

/-! ## Every step keeps the invariants -/

variable [DecidableEq D] [SemilatticeSup D] [OrderBot D] {s' : State R D} {a : Action R D}

omit [DecidableEq D] in
theorem Inv.init : Inv (State.init : State R D) where
  rows r := by constructor <;> simp [State.init, Row.empty, InStep]
  promised_le := by simp [State.init]
  promised_unique := by simp [State.init]
  promised_accepted := by simp [State.init]
  promised_commit := by simp [State.init]
  promised_reports := by simp [State.init]
  accepted_sent := by simp [State.init]
  learns := by simp [State.init, State.Learns]
  applied := by simp [State.init]
  replied := by simp [State.init]
  summaries := by simp [State.init]
  proceeded := by simp [State.init]
  sent := by simp [State.init]
  origin := by simp [State.init]

omit [Fintype R] [DecidableEq R] [DecidableEq D] [OrderBot D] in
theorem Grows.sentProposal (h : Grows s s') {p : Proposal D} (hp : s.SentProposal p) :
    s'.SentProposal p := by
  obtain ⟨q, hq, hu⟩ := hp
  exact ⟨q, h.sent hq, hu⟩

namespace Step

section

variable (h : Step s a s') (inv : Inv s)

include h inv

variable (r : R)

theorem rows :
    (s'.rows r).Valid (fun b => s'.accepted r b = true) s'.SentProposal s'.Chosen := by
  have hmono : (s.rows r).Valid (fun b => s.accepted r b = true) s'.SentProposal s'.Chosen :=
    (inv.rows r).mono (fun p => h.grows.sentProposal) fun b => h.grows.chosen
  cases h
  case promise r' b tie state _ _ _ _ =>
    dsimp only
    rw [update_apply]
    split_ifs with hr
    · subst hr
      exact hmono.savePaxosPromise tie b
    · exact hmono
  case accept r' b tie p hp hguard =>
    dsimp only
    rw [update_apply]
    split_ifs with hr
    · subst hr
      have hacc : (fun b' => set₂ s.accepted r b true r b' = true) =
          fun b' => s.accepted r b' = true ∨ b' = b := by
        funext b'
        by_cases hb : b' = b <;> simp [set₂, hb]
      rw [hacc]
      exact hmono.savePaxosProposal tie (p := ⟨b, p.update⟩) hguard ⟨p, hp, rfl⟩
        fun q hq hts => inv.sentProposal_unique hq ⟨p, hp, rfl⟩ hts
    · have hacc : (fun b' => set₂ s.accepted r' b true r b' = true) =
          fun b' => s.accepted r b' = true := by
        funext b'
        simp [set₂, hr]
      rw [hacc]
      exact hmono
  case learnSave m tie hm =>
    dsimp only
    rw [update_apply]
    split_ifs with hr
    · subst hr
      exact hmono.savePaxosDecision tie (inv.learns m (inv.applied m hm))
    · exact hmono
  case prune r' b tie _ =>
    dsimp only
    rw [update_apply]
    split_ifs with hr
    · subst hr
      exact hmono.deletePaxosDecision tie b
    · exact hmono
  all_goals exact hmono

theorem promisedBallot_le :
    (s.rows r).promisedBallot.timestamp ≤ (s'.rows r).promisedBallot.timestamp := by
  cases h
  case promise r' b tie state _ _ _ _ =>
    dsimp only
    rw [update_apply]
    split_ifs with hr
    · subst hr
      exact ((inv.rows r).promisedBallot_write ((s.rows r).savePaxosPromise tie b) rfl).2.2
    · exact le_rfl
  case accept r' b tie p _ _ =>
    dsimp only
    rw [update_apply]
    split_ifs with hr
    · subst hr
      exact ((inv.rows r).promisedBallot_write
        ((s.rows r).savePaxosProposal tie ⟨b, p.update⟩) rfl).2.2
    · exact le_rfl
  case learnSave m tie hm =>
    dsimp only
    rw [update_apply]
    split_ifs with hr
    · subst hr
      exact le_rfl
    · exact le_rfl
  case prune r' b tie _ =>
    dsimp only
    rw [update_apply]
    split_ifs with hr
    · subst hr
      exact le_rfl
    · exact le_rfl
  all_goals exact le_rfl

theorem promised_le (b : Ballot) (p : Promise D) (hp : s'.promised r b = some p) :
    b.timestamp ≤ (s'.rows r).promisedBallot.timestamp := by
  rcases h.promised_new hp with hp | ⟨state, tie, -, -, -, hrow, -, -⟩
  · exact (inv.promised_le r b p hp).trans (h.promisedBallot_le inv r)
  · rw [hrow]
    exact ((inv.rows r).promisedBallot_write ((s.rows r).savePaxosPromise tie b) rfl).2.1

theorem promised_unique (b b' : Ballot) (p p' : Promise D)
    (hp : s'.promised r b = some p) (hp' : s'.promised r b' = some p')
    (heq : b.timestamp = b'.timestamp) : b = b' := by
  cases h
  case promise r₁ b₁ tie state hload hlt _ _ =>
    rw [Row.loadPaxosState_promisedBallot hload] at hlt
    rcases set₂_eq_cases hp with ⟨rfl, rfl, -⟩ | hold <;>
      rcases set₂_eq_cases hp' with ⟨hr, rfl, -⟩ | hold'
    · rfl
    · have := inv.promised_le r b' p' hold'
      omega
    · subst hr
      have := inv.promised_le r b p hold
      omega
    · exact inv.promised_unique r b b' p p' hold hold' heq
  all_goals exact inv.promised_unique r b b' p p' hp hp' heq

section

variable (b : Ballot) (p : Promise D)

theorem promised_accepted (q : Proposal D)
    (hp : s'.promised r b = some p) (hq : p.acceptedProposal = some q) :
    q.ballot.timestamp < b.timestamp ∧ s'.SentProposal q := by
  rcases h.promised_new hp with hp | ⟨state, tie, hload, hlt, rfl, -, -, -⟩
  · obtain ⟨hts, hsent⟩ := inv.promised_accepted r b p q hp hq
    exact ⟨hts, h.grows.sentProposal hsent⟩
  · obtain ⟨hsent, hacc⟩ := ((inv.rows r).loadPaxosState_sent hload).1 q hq
    have hle := (inv.rows r).accepted_le q.ballot hacc
    rw [Row.loadPaxosState_promisedBallot hload] at hlt
    exact ⟨by omega, h.grows.sentProposal hsent⟩

theorem promised_commit (c : Proposal D)
    (hp : s'.promised r b = some p) (hc : p.mostRecentCommit = some c) : s'.Chosen c.ballot := by
  rcases h.promised_new hp with hp | ⟨state, tie, hload, hlt, rfl, -, -, -⟩
  · exact h.grows.chosen (inv.promised_commit r b p c hp hc)
  · exact h.grows.chosen (((inv.rows r).loadPaxosState_sent hload).2 c hc)

theorem promised_reports (b₀ : Ballot)
    (hp : s'.promised r b = some p) (hacc : s'.accepted r b₀ = true)
    (hlt : b₀.timestamp < b.timestamp) :
    (∃ q, p.acceptedProposal = some q ∧ b₀.timestamp ≤ q.ballot.timestamp) ∨
      ∃ c, p.mostRecentCommit = some c ∧ b₀.timestamp ≤ c.ballot.timestamp := by
  rcases h.promised_new hp with hp | ⟨state, tie, hload, -, rfl, -, haccepted, -⟩
  · rcases h.accepted_new hacc with hacc | ⟨-, q, -, hguard⟩
    · exact inv.promised_reports r b p b₀ hp hacc hlt
    · have hle := inv.promised_le r b p hp
      rcases hguard with rfl | hguard <;> omega
  · rw [haccepted] at hacc
    exact (inv.rows r).loadPaxosState_ge hload hacc

end

theorem accepted_sent (b : Ballot) (hacc : s'.accepted r b = true) :
    ∃ p, s'.sent b = some p := by
  rcases h.accepted_new hacc with hacc | ⟨hsent, p, hp, -⟩
  · obtain ⟨p, hp⟩ := inv.accepted_sent r b hacc
    exact ⟨p, h.grows.sent hp⟩
  · exact ⟨p, hsent ▸ hp⟩

theorem learns (m : Learn R D) (hm : s'.Learns m) : s'.Chosen m.decision.ballot := by
  rcases h.learns_new hm with hm | ⟨p, -, -, hc⟩ | ⟨summary, hsum, hprom, hc⟩
  · exact h.grows.chosen (inv.learns m hm)
  · exact h.grows.chosen hc
  · exact h.grows.chosen (inv.chosen_of_commit hsum hprom hc)

theorem applied (m : Learn R D) (hm : m ∈ s'.applied) : s'.Learns m := by
  rcases h.applied_new hm with hm | hm
  · exact h.learns_mono (inv.applied m hm)
  · exact h.learns_mono hm

section

variable (b : Ballot)

theorem replied (p : Promise D) (hp : s'.replied r b = some (.promise p)) :
    ∃ q, s'.promised r b = some q ∧
      p.acceptedProposal = q.acceptedProposal ∧ p.mostRecentCommit = q.mostRecentCommit := by
  rcases h.replied_new hp with hp | ⟨q, hq, hacc, hcommit, -⟩
  · obtain ⟨q, hq, heq⟩ := inv.replied r b p hp
    exact ⟨q, h.grows.promised hq, heq⟩
  · exact ⟨q, h.grows.promised hq, hacc, hcommit⟩

theorem summaries (summary : PrepareSummary R D)
    (hsum : s'.summaries b = some summary) (hprom : summary.promised = true) :
    summary.Sound fun r => s'.replied r b := by
  rcases h.summaries_new hsum with hsum | ⟨-, -, -, order, hnodup, hdone, rfl⟩
  · exact (inv.summaries b summary hsum hprom).mono h.grows.replied
  · refine (RequestTracker.prepareBallot_sound _ ?_ ?_ hdone hprom).mono h.grows.replied
    · intro e he
      obtain ⟨r, -, hr⟩ := List.mem_filterMap.mp he
      obtain ⟨answer, hans, rfl⟩ := Option.map_eq_some_iff.mp hr
      exact hans
    · refine List.Nodup.sublist ?_ hnodup
      exact State.map_fst_answers_sublist s b order

theorem proceeded (hb : s'.proceeded b = true) :
    ∃ summary, s'.summaries b = some summary ∧ summary.promised = true ∧
      summary.inProgress = none := by
  rcases h.proceeded_new hb with hb | ⟨summary, hsum, hrest⟩
  · obtain ⟨summary, hsum, hrest⟩ := inv.proceeded b hb
    exact ⟨summary, h.grows.summaries hsum, hrest⟩
  · exact ⟨summary, h.grows.summaries hsum, hrest⟩

theorem sent (p : Sent D) (hp : s'.sent b = some p) :
    (p.origin = b ∧ s'.proceeded b = true) ∨
      ∃ summary q, s'.summaries b = some summary ∧ summary.promised = true ∧
        summary.inProgress = some q ∧ s'.sent q.ballot = some p := by
  rcases h.sent_new hp with hp | ⟨-, -, ⟨hb, hproc⟩ | ⟨summary, q, hsum, hprom, hq, rfl⟩⟩
  · rcases inv.sent b p hp with ⟨hb, hproc⟩ | ⟨summary, q, hsum, hprom, hq, hsent⟩
    · exact .inl ⟨hb, h.grows.proceeded hproc⟩
    · exact .inr ⟨summary, q, h.grows.summaries hsum, hprom, hq, h.grows.sent hsent⟩
  · exact .inl ⟨hb, h.grows.proceeded hproc⟩
  · exact .inr ⟨summary, q, h.grows.summaries hsum, hprom, hq,
      h.grows.sent (inv.sent_inProgress hsum hprom hq)⟩

theorem origin (p : Sent D) (hp : s'.sent b = some p) : s'.sent p.origin = some p := by
  rcases h.sent_new hp with hold | ⟨-, -, ⟨rfl, -⟩ | ⟨summary, q, hsum, hprom, hq, rfl⟩⟩
  · exact h.grows.sent (inv.origin b p hold)
  · exact hp
  · exact h.grows.sent (inv.origin _ _ (inv.sent_inProgress hsum hprom hq))

end

end

theorem inv (h : Step s a s') (inv : Inv s) : Inv s' where
  rows := h.rows inv
  promised_le := h.promised_le inv
  promised_unique := h.promised_unique inv
  promised_accepted := h.promised_accepted inv
  promised_commit := h.promised_commit inv
  promised_reports := h.promised_reports inv
  accepted_sent := h.accepted_sent inv
  learns := h.learns inv
  applied := h.applied inv
  replied := h.replied inv
  summaries := h.summaries inv
  proceeded := h.proceeded inv
  sent := h.sent inv
  origin := h.origin inv

end Step

theorem Reachable.inv (h : Reachable s) : Inv s :=
  Reaches.invariant h Inv.init fun _ _ _ hinv _ hstep => (Step.of_step hstep).inv hinv

end Scylla.Paxos
