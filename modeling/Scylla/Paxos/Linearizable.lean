import Scylla.Paxos.Spread

/-!
# Reads of a transaction

In careful runs the data a coordinator evaluates its condition on, prefetched with the promises or
read from a quorum afterwards, contains every update chosen below its ballot. Without that care
the repair of one replica is enough to go on, and a chosen update can be missed.
-/

namespace Scylla.Paxos

open List

variable {R D : Type} [Fintype R] [DecidableEq R]

section State

variable {s : State R D}

/-- The commit `c` is `c₀` or behind it. -/
def State.Upto (s : State R D) (c₀ c : Ballot) : Prop :=
  c = c₀ ∨ ∃ p, s.sent c₀ = some p ∧ s.Behind p.origin c

/-- The replica has promised the ballot and reported the commit. -/
def State.Reports (s : State R D) (r : R) (b c₀ : Ballot) : Prop :=
  ∃ p c, s.promised r b = some p ∧ p.mostRecentCommit = some c ∧ c.ballot = c₀

/-- The replica has returned the data with its promise. -/
def State.Returned (s : State R D) (r : R) (b : Ballot) (d : D) : Prop :=
  ∃ p, s.replied r b = some (.promise p) ∧ p.dataOrDigest = some d

omit [Fintype R] [DecidableEq R] in
theorem State.Behind.upto {b c : Ballot} (h : s.Behind b c) :
    ∃ c₀, s.KnowsCommit b c₀ ∧ s.Upto c₀.ballot c := by
  induction h with
  | commit hc => exact ⟨_, hc, .inl rfl⟩
  | step _ hp hc' ih =>
    obtain ⟨c₀, hc₀, rfl | ⟨p₀, hp₀, hbehind⟩⟩ := ih
    · exact ⟨c₀, hc₀, .inr ⟨_, hp, .commit hc'⟩⟩
    · exact ⟨c₀, hc₀, .inr ⟨p₀, hp₀, .step hbehind hp hc'⟩⟩

theorem Inv.chosen_of_upto (h : Inv s) {c₀ c : Ballot} (hc₀ : s.Chosen c₀)
    (hc : s.Upto c₀ c) : s.Chosen c := by
  obtain rfl | ⟨p, -, hbehind⟩ := hc
  · exact hc₀
  · exact h.chosen_of_behind hbehind

end State

variable [SemilatticeSup D] {s s' : State R D} {p : Sent D} {summary : PrepareSummary R D}

section Back

variable {c : Ballot}

theorem Grows.behind_back (h : Grows s s') (inv : Inv s) {b : Ballot}
    (hsum : s.summaries b = some summary) (hc : s'.Behind b c) : s.Behind b c := by
  induction hc with
  | commit hc => exact .commit (h.knowsCommit_back hsum hc)
  | step _ hp hc' ih =>
    obtain ⟨p, hp₀⟩ := inv.sent_of_chosen (inv.chosen_of_behind ih)
    cases (h.sent hp₀).symm.trans hp
    obtain ⟨summary', hsum', -⟩ := inv.exists_summary (inv.origin _ _ hp₀)
    exact .step ih hp₀ (h.knowsCommit_back hsum' hc')

theorem Grows.upto_back (h : Grows s s') (inv : Inv s) {c₀ : Ballot} (hc₀ : s.Chosen c₀)
    (hc : s'.Upto c₀ c) : s.Upto c₀ c := by
  obtain rfl | ⟨p, hp, hbehind⟩ := hc
  · exact .inl rfl
  · obtain ⟨p₀, hp₀⟩ := inv.sent_of_chosen hc₀
    cases (h.sent hp₀).symm.trans hp
    obtain ⟨summary, hsum, -⟩ := inv.exists_summary (inv.origin _ _ hp₀)
    exact .inr ⟨p, hp₀, h.behind_back inv hsum hbehind⟩

theorem Grows.sent_back (h : Grows s s') (inv : Inv s) (hc : s.Chosen c)
    (hp : s'.sent c = some p) : s.sent c = some p := by
  obtain ⟨p₀, hp₀⟩ := inv.sent_of_chosen hc
  cases (h.sent hp₀).symm.trans hp
  exact hp₀

end Back

structure ReadInv (s : State R D) : Prop where
  reads : ∀ b r d, (r, d) ∈ s.reads b → s.proceeded b = true
  held : ∀ b c p, s.proceeded b = true → s.Behind b c → s.sent c = some p →
    ∃ Q : Finset R, IsMajority Finset.univ Q ∧ ∀ r ∈ Q, p.update ≤ s.base r ∧
      ∀ d, (r, d) ∈ s.reads b → p.update ≤ d
  returned : ∀ b c₀ c p, s.Upto c₀ c → s.sent c = some p →
    (∀ r, s.Reports r b c₀ → p.update ≤ s.base r ∧ ∀ d, s.Returned r b d → p.update ≤ d) ∨
    ∃ Q : Finset R, IsMajority Finset.univ Q ∧ ∀ r ∈ Q, p.update ≤ s.base r ∧
      (s.Reports r b c₀ → ∀ d, s.Returned r b d → p.update ≤ d)
  evaluated : ∀ b d, s.evaluated b = some d → s.proceeded b = true ∧
    ∀ c p, s.Behind b c → s.sent c = some p → p.update ≤ d

namespace ReadInv

variable {b c : Ballot}

theorem prefetched_ge (h : ReadInv s) (inv : Inv s) (spread : SpreadInv s)
    (hsum : s.summaries b = some summary)
    (hprom : summary.promised = true) {d : D} (hd : summary.data = some d)
    (hmissing : s.missing b = []) (hc : s.Behind b c) (hp : s.sent c = some p) : p.update ≤ d := by
  obtain ⟨c₀, hc₀, hupto⟩ := hc.upto
  have hchosen := inv.chosen_of_knowsCommit hc₀
  obtain ⟨summary', hsum', -, hcommit⟩ := hc₀
  cases hsum.symm.trans hsum'
  have hsound := inv.summaries b summary hsum hprom
  -- every replica of the summary has reported `c₀` and returned `d`
  have hreports : ∀ r ∈ summary.replicas, s.Reports r b c₀.ballot ∧ s.Returned r b d := by
    intro r hr
    obtain ⟨q, hq, hqd⟩ := hsound.data_eq d hd r hr
    obtain ⟨e, he, rfl⟩ := mem_map.mp hr
    have heq : e.2 = c₀.ballot := by
      by_contra hne
      have hmem : e.1 ∈ s.missing b := by
        simp only [State.missing, hsum, PrepareSummary.replicasMissingMostRecentCommit, hcommit]
        exact mem_map.mpr ⟨e, mem_filter.mpr ⟨he, by simpa using hne⟩, rfl⟩
      rw [hmissing] at hmem
      cases hmem
    exact ⟨spread.known_of_reported inv hsum hprom hchosen he heq, q, hq, hqd⟩
  rcases h.returned b c₀.ballot c p hupto hp with hall | ⟨Q, hQ, hquorum⟩
  · obtain ⟨r, -, hr⟩ := hsound.quorum.nonempty
    obtain ⟨hrep, hret⟩ := hreports r (mem_toFinset.mp hr)
    exact (hall r hrep).2 d hret
  · obtain ⟨r, -, hrQ, hr⟩ := hQ.exists_common hsound.quorum
    obtain ⟨hrep, hret⟩ := hreports r (mem_toFinset.mp hr)
    exact (hquorum r hrQ).2 hrep d hret

variable [OrderBot D]

omit [Fintype R] [DecidableEq R] in
private theorem le_foldr_sup {d : D} : ∀ {ds : List D}, d ∈ ds → d ≤ ds.foldr (· ⊔ ·) ⊥
  | d' :: ds, hd => by
    rcases List.mem_cons.mp hd with rfl | hd
    · exact le_sup_left
    · exact (le_foldr_sup hd).trans le_sup_right

theorem read_ge (h : ReadInv s) (hproc : s.proceeded b = true)
    (hc : s.Behind b c) (hp : s.sent c = some p)
    (hquorum : IsMajority Finset.univ ((s.reads b).map Prod.fst).toFinset) :
    p.update ≤ ((s.reads b).map Prod.snd).foldr (· ⊔ ·) ⊥ := by
  obtain ⟨Q, hQ, hheld⟩ := h.held b c p hproc hc hp
  obtain ⟨r, -, hrQ, hr⟩ := hQ.exists_common hquorum
  obtain ⟨⟨r', d⟩, hmem, rfl⟩ := mem_map.mp (mem_toFinset.mp hr)
  exact ((hheld r' hrQ).2 d hmem).trans (le_foldr_sup (mem_map.mpr ⟨_, hmem, rfl⟩))

end ReadInv

/-! ## Careful steps keep the invariant -/

variable [OrderBot D] [DecidableEq D] {a : Action R D}

namespace Step

variable {r : R} {b c₀ : Ballot}

theorem reports_new (h : Step s a s') (hr : s'.Reports r b c₀) :
    s.Reports r b c₀ ∨ s'.replied r b = none := by
  obtain ⟨p, c, hp, hc, hballot⟩ := hr
  rcases h.promised_new hp with hp | ⟨-, -, -, -, -, -, -, hnone⟩
  · exact .inl ⟨p, c, hp, hc, hballot⟩
  · exact .inr hnone

theorem returned_new (h : Step s a s') {d : D} (hr : s'.Returned r b d) :
    s.Returned r b d ∨ d = s.base r := by
  obtain ⟨p, hp, hd⟩ := hr
  rcases h.replied_new hp with hp | ⟨-, -, -, -, hbase⟩
  · exact .inl ⟨p, hp, hd⟩
  · exact .inr (hbase d hd)

theorem chosen_of_reports (h : Step s a s') (inv : Inv s) (hr : s'.Reports r b c₀) :
    s.Chosen c₀ := by
  obtain ⟨p, c, hp, hc, rfl⟩ := hr
  rcases h.promised_new hp with hp | ⟨state, -, hload, -, rfl, -⟩
  · exact inv.promised_commit r b p c hp hc
  · exact ((inv.rows r).loadPaxosState_sent hload).2 c hc

theorem read_held (h : Step s a s') (inv : Inv s) (inv' : Inv s') (spread' : SpreadInv s')
    (read : ReadInv s) (b c : Ballot) (p : Sent D) (hproc : s'.proceeded b = true)
    (hc : s'.Behind b c) (hp : s'.sent c = some p) :
    ∃ Q : Finset R, IsMajority Finset.univ Q ∧ ∀ r ∈ Q, p.update ≤ s'.base r ∧
      ∀ d, (r, d) ∈ s'.reads b → p.update ≤ d := by
  by_cases hold : s.proceeded b = true
  · obtain ⟨summary, hsum, -⟩ := inv.proceeded b hold
    have hcs := h.grows.behind_back inv hsum hc
    have hps := h.grows.sent_back inv (inv.chosen_of_behind hcs) hp
    obtain ⟨Q, hQ, hheld⟩ := read.held b c p hold hcs hps
    refine ⟨Q, hQ, fun r hr => ⟨(hheld r hr).1.trans (h.grows.base r), fun d hd => ?_⟩⟩
    rcases h.reads_new hd with hd | ⟨rfl, -⟩
    · exact (hheld r hr).2 d hd
    · exact (hheld r hr).1
  · -- nothing was read yet for a coordinator that proceeds with this step
    obtain ⟨q, hq, Q, hQ, hheld⟩ := spread'.held_of_behind inv' hproc hc
    cases hp.symm.trans hq
    refine ⟨Q, hQ, fun r hr => ⟨hheld r hr, fun d hd => ?_⟩⟩
    rcases h.reads_new hd with hd | ⟨-, hb⟩
    · exact absurd (read.reads b r d hd) hold
    · exact absurd hb hold

omit [OrderBot D] [DecidableEq D] in
theorem upto_held (inv : Inv s) (spread : SpreadInv s) {c : Ballot}
    (hr : s.Reports r b c₀) (hc : s.Upto c₀ c) (hp : s.sent c = some p) :
    p.update ≤ s.base r ∨ s.Held p.update := by
  obtain ⟨q, c', hq, hc', rfl⟩ := hr
  obtain rfl | ⟨p₀, hp₀, hbehind⟩ := hc
  · obtain ⟨p', hp', hknown⟩ := (spread.promised r b q c' hq hc').1
    cases hp.symm.trans hp'
    exact hknown
  · obtain ⟨p', hp', hheld⟩ := spread.held_of_behind inv (inv.origin_proceeded hp₀) hbehind
    cases hp.symm.trans hp'
    exact .inr hheld

theorem read_returned (h : Step s a s') (inv : Inv s) (inv' : Inv s') (spread' : SpreadInv s')
    (read : ReadInv s) (b c₀ c : Ballot) (p : Sent D) (hc : s'.Upto c₀ c)
    (hp : s'.sent c = some p) :
    (∀ r, s'.Reports r b c₀ → p.update ≤ s'.base r ∧ ∀ d, s'.Returned r b d → p.update ≤ d) ∨
    ∃ Q : Finset R, IsMajority Finset.univ Q ∧ ∀ r ∈ Q, p.update ≤ s'.base r ∧
      (s'.Reports r b c₀ → ∀ d, s'.Returned r b d → p.update ≤ d) := by
  by_cases hany : ∃ r, s'.Reports r b c₀
  swap
  · exact .inl fun r hr => absurd ⟨r, hr⟩ hany
  obtain ⟨r₀, hr₀⟩ := hany
  have hchosen := h.chosen_of_reports inv hr₀
  have hcs := h.grows.upto_back inv hchosen hc
  have hps := h.grows.sent_back inv (inv.chosen_of_upto hchosen hcs) hp
  have hnone : ∀ {r d}, s'.replied r b = none → ¬ s'.Returned r b d := by
    rintro r d hnone ⟨q, hq, -⟩
    rw [hnone] at hq
    cases hq
  rcases read.returned b c₀ c p hcs hps with hall | ⟨Q, hQ, hquorum⟩
  · have hold : ∀ r, s.Reports r b c₀ →
        p.update ≤ s'.base r ∧ ∀ d, s'.Returned r b d → p.update ≤ d := by
      intro r hr
      refine ⟨(hall r hr).1.trans (h.grows.base r), fun d hd => ?_⟩
      rcases h.returned_new hd with hd | rfl
      · exact (hall r hr).2 d hd
      · exact (hall r hr).1
    -- a replica that reports with this step has the update, or a quorum has it by now
    by_cases hnew : ∀ r, s'.Reports r b c₀ → s.Reports r b c₀ ∨ p.update ≤ s'.base r
    · refine .inl fun r hr => ?_
      rcases h.reports_new hr with hrs | hnone'
      · exact hold r hrs
      · refine ⟨?_, fun d hd => absurd hd (hnone hnone')⟩
        rcases hnew r hr with hrs | hle
        · exact (hold r hrs).1
        · exact hle
    · push Not at hnew
      obtain ⟨r, hr, -, hlt⟩ := hnew
      rcases upto_held inv' spread' hr hc hp with hle | ⟨Q, hQ, hheld⟩
      · exact absurd hle hlt
      · refine .inr ⟨Q, hQ, fun r hr => ⟨hheld r hr, fun hrep d hd => ?_⟩⟩
        rcases h.reports_new hrep with hrs | hnone'
        · exact (hold r hrs).2 d hd
        · exact absurd hd (hnone hnone')
  · refine .inr ⟨Q, hQ, fun r hr => ⟨(hquorum r hr).1.trans (h.grows.base r), ?_⟩⟩
    intro hrep d hd
    rcases h.reports_new hrep with hrs | hnone'
    · rcases h.returned_new hd with hd | rfl
      · exact (hquorum r hr).2 hrs d hd
      · exact (hquorum r hr).1
    · exact absurd hd (hnone hnone')

theorem read_evaluated (h : Step s a s') (hcare : Careful s a) (inv : Inv s)
    (spread : SpreadInv s) (read : ReadInv s) (b : Ballot) (d : D)
    (hd : s'.evaluated b = some d) : s'.proceeded b = true ∧
      ∀ c p, s'.Behind b c → s'.sent c = some p → p.update ≤ d := by
  suffices hs : s.proceeded b = true ∧
      ∀ c p, s.Behind b c → s.sent c = some p → p.update ≤ d by
    refine ⟨h.grows.proceeded hs.1, fun c p hc hp => ?_⟩
    obtain ⟨summary, hsum, -⟩ := inv.proceeded b hs.1
    have hcs := h.grows.behind_back inv hsum hc
    exact hs.2 c p hcs (h.grows.sent_back inv (inv.chosen_of_behind hcs) hp)
  rcases h.evaluated_new hd with hd | ⟨result, summary, rfl, hsum, hdata, hproc⟩
  · exact read.evaluated b d hd
  refine ⟨hproc, fun c p hc hp => ?_⟩
  obtain ⟨summary', hsum', hprom, -⟩ := inv.proceeded b hproc
  cases hsum.symm.trans hsum'
  unfold State.dataFor at hdata
  split at hdata
  · next d' hd' =>
    cases hdata
    have hpre : s.prefetched b = true := by simp [State.prefetched, hsum, hd']
    exact read.prefetched_ge inv spread hsum hprom hd' (hcare hpre) hc hp
  · obtain ⟨hquorum, rfl⟩ := Option.ite_some_none_eq_some.mp hdata
    exact read.read_ge hproc hc hp hquorum

theorem read_inv (h : Step s a s') (hcare : Careful s a) (inv : Inv s) (inv' : Inv s')
    (spread : SpreadInv s) (spread' : SpreadInv s') (read : ReadInv s) : ReadInv s' where
  reads b r d hd := by
    rcases h.reads_new hd with hd | ⟨-, hb⟩
    · exact h.grows.proceeded (read.reads b r d hd)
    · exact h.grows.proceeded hb
  held := h.read_held inv inv' spread' read
  returned := h.read_returned inv inv' spread' read
  evaluated := h.read_evaluated hcare inv spread read

end Step

omit [DecidableEq D] in
theorem ReadInv.init : ReadInv (State.init : State R D) where
  reads := by simp [State.init]
  held := by simp [State.init]
  returned := by simp [State.init]
  evaluated := by simp [State.init]

theorem careful_invariants (h : Reaches step Careful (State.init : State R D) s) :
    Inv s ∧ CommitsFirst s ∧ SpreadInv s ∧ ReadInv s := by
  refine Reaches.invariant h (I := fun s => Inv s ∧ CommitsFirst s ∧ SpreadInv s ∧ ReadInv s)
    ⟨Inv.init, ?_, SpreadInv.init, ReadInv.init⟩ ?_
  · rintro o c ⟨summary, hsum, -⟩
    simp [State.init] at hsum
  · rintro s a s' ⟨inv, first, spread, read⟩ hcare hstep
    have hs := Step.of_step hstep
    have inv' := hs.inv inv
    have spread' := hs.spread hcare inv first spread
    exact ⟨inv', hs.commitsFirst inv first, spread', hs.read_inv hcare inv inv' spread spread' read⟩

/-- In every state of a careful run, the data evaluated at a ballot contains every update chosen
below the ballot. -/
theorem evaluated_contains_chosen (h : Reaches step Careful (State.init : State R D) s) :
    ∀ b d b₁ p₁, s.evaluated b = some d → s.Chosen b₁ → s.sent b₁ = some p₁ →
      b₁.timestamp < b.timestamp → p₁.update ≤ d := by
  intro b d b₁ p₁ hd hb₁ hp₁ hlt
  obtain ⟨inv, first, -, read⟩ := careful_invariants h
  obtain ⟨hproc, hcontains⟩ := read.evaluated b d hd
  obtain ⟨c, hc, hle⟩ := inv.commit_ge_of_proceeded hb₁ hproc hlt
  obtain ⟨c', hc', hp'⟩ := inv.exists_behind first hb₁ hp₁ c.ballot (.commit hc) hle
  exact hcontains c' p₁ hc' hp'

def missedCommitRun : List (Action (Fin 5) ℕ) :=
  let tie := fun _ => true
  let learn : Learn (Fin 5) ℕ := ⟨⟨1, 0⟩, 0, ⟨⟨1, 0⟩, 1⟩, false⟩
  [.start 0 [0, 1, 2, 3, 4], .newBallot 0 ⟨1, 0⟩,
    .prepare 0 ⟨1, 0⟩ tie, .reply 0 ⟨1, 0⟩ false, .prepare 1 ⟨1, 0⟩ tie, .reply 1 ⟨1, 0⟩ false,
    .prepare 2 ⟨1, 0⟩ tie, .reply 2 ⟨1, 0⟩ false, .finishPrepare ⟨1, 0⟩ [0, 1, 2],
    .proceed ⟨1, 0⟩, .evaluate ⟨1, 0⟩ (some 1),
    .accept 0 ⟨1, 0⟩ tie, .accept 1 ⟨1, 0⟩ tie, .accept 2 ⟨1, 0⟩ tie, .decide ⟨1, 0⟩,
    .learnApply learn, .learnSave learn tie,
    .start 1 [0, 1, 2, 3, 4], .newBallot 1 ⟨2, 0⟩,
    .prepare 0 ⟨2, 0⟩ tie, .reply 0 ⟨2, 0⟩ false, .prepare 3 ⟨2, 0⟩ tie, .reply 3 ⟨2, 0⟩ false,
    .prepare 4 ⟨2, 0⟩ tie, .reply 4 ⟨2, 0⟩ false, .finishPrepare ⟨2, 0⟩ [0, 3, 4],
    .repair ⟨2, 0⟩]

def repairRun (r : Fin 5) : List (Action (Fin 5) ℕ) :=
  let repair : Learn (Fin 5) ℕ := ⟨⟨2, 0⟩, r, ⟨⟨1, 0⟩, 1⟩, true⟩
  [.learnApply repair, .learnSave repair fun _ => true, .acknowledge repair]

/-- The coordinator goes on with a read that is answered by replicas 1, 2 and 4. -/
def readRun : List (Action (Fin 5) ℕ) :=
  [.proceed ⟨2, 0⟩, .read 1 ⟨2, 0⟩, .read 2 ⟨2, 0⟩, .read 4 ⟨2, 0⟩, .evaluate ⟨2, 0⟩ (some 2)]

/-- A careful coordinator has repaired both replicas and sees the update. -/
theorem evaluated_contains_chosen_repaired : ∃ (s : State (Fin 5) ℕ) (d : ℕ),
    Reaches step Careful State.init s ∧ s.evaluated ⟨2, 0⟩ = some d ∧ s.Chosen ⟨1, 0⟩ ∧
      s.sent ⟨1, 0⟩ = some ⟨1, ⟨1, 0⟩⟩ ∧ 1 ≤ d := by
  have hrun : ∃ s, runSteps step Careful (State.init : State (Fin 5) ℕ)
      (missedCommitRun ++ repairRun 3 ++ repairRun 4 ++ readRun) = some s ∧
      s.evaluated ⟨2, 0⟩ = some 1 ∧ s.Chosen ⟨1, 0⟩ ∧ s.sent ⟨1, 0⟩ = some ⟨1, ⟨1, 0⟩⟩ :=
    ⟨_, rfl, rfl, by decide, rfl⟩
  obtain ⟨s, hrun, hd, hb, hp⟩ := hrun
  have hreach : Reaches step Careful State.init s := reaches_of_runSteps .init hrun
  exact ⟨s, 1, hreach, hd, hb, hp, evaluated_contains_chosen hreach _ _ _ _ hd hb hp (by decide)⟩

/-- A coordinator that has repaired one replica only goes on, and misses the update. -/
theorem evaluated_misses_chosen : ¬ ∀ s : State (Fin 5) ℕ, Reachable s →
    ∀ b d b₁ p₁, s.evaluated b = some d → s.Chosen b₁ → s.sent b₁ = some p₁ →
      b₁.timestamp < b.timestamp → p₁.update ≤ d := by
  intro h
  have hrun : ∃ s, runSteps step (fun _ _ => True) (State.init : State (Fin 5) ℕ)
      (missedCommitRun ++ repairRun 3 ++ readRun) = some s ∧
      s.evaluated ⟨2, 0⟩ = some 0 ∧ s.Chosen ⟨1, 0⟩ ∧ s.sent ⟨1, 0⟩ = some ⟨1, ⟨1, 0⟩⟩ :=
    ⟨_, rfl, rfl, by decide, rfl⟩
  obtain ⟨s, hrun, hd, hb, hp⟩ := hrun
  have hle := h s (reaches_of_runSteps .init hrun) _ _ _ _ hd hb hp (by decide)
  exact absurd hle (by decide)

/-! ## What is left of a chosen proposal -/

def State.Carries (s : State R D) (c : Proposal D) : Prop :=
  ∃ p, s.sent c.ballot = some p ∧ (c.update = p.update ∨ c.update = ⊥)

omit [Fintype R] [DecidableEq R] [DecidableEq D] in
theorem Grows.carries (h : Grows s s') {c : Proposal D} (hc : s.Carries c) : s'.Carries c := by
  obtain ⟨p, hp, hu⟩ := hc
  exact ⟨p, h.sent hp, hu⟩

/-- Commits in rows, promises and learn messages carry what was sent. -/
structure CommitInv (s : State R D) : Prop where
  rows : ∀ r, (s.rows r).CommitValid (fun _ => True) (fun b v => s.Carries ⟨b, v⟩) fun _ => True
  promised : ∀ r b p c, s.promised r b = some p → p.mostRecentCommit = some c → s.Carries c
  learns : ∀ m, s.Learns m → s.Carries m.decision

omit [DecidableEq D] in
theorem CommitInv.loadCommit (h : CommitInv s) (inv : Inv s) {r : R} {c : Proposal D}
    (hc : (s.rows r).loadCommit = some c) : s.Carries c := by
  obtain ⟨-, hright | ⟨hbot, -⟩⟩ := (h.rows r).loadCommit (inv.rows r) hc
  · exact hright
  · obtain ⟨state, hload⟩ := (inv.rows r).exists_loadPaxosState
    rw [← Row.loadPaxosState_mostRecentCommit hload] at hc
    obtain ⟨p, hp⟩ := inv.sent_of_chosen (((inv.rows r).loadPaxosState_sent hload).2 c hc)
    exact ⟨p, hp, .inr hbot⟩

theorem Step.commitInv (h : Step s a s') (inv : Inv s) (commit : CommitInv s) : CommitInv s' where
  rows r := by
    refine h.commitValid inv ((commit.rows r).mono (fun _ => id) (fun b v => h.grows.carries)
      fun _ => id) ?_ fun _ _ => trivial
    exact fun m hm _ => ⟨trivial, h.grows.carries (commit.learns m (inv.applied m hm))⟩
  promised r b p c hp hc := by
    refine h.grows.carries ?_
    rcases h.promised_new hp with hp | ⟨state, tie, hload, -, rfl, -, -, -⟩
    · exact commit.promised r b p c hp hc
    · exact commit.loadCommit inv (Row.loadPaxosState_mostRecentCommit hload ▸ hc)
  learns m hm := by
    refine h.grows.carries ?_
    rcases h.learns_new hm with hm | ⟨p, hp, hu, -⟩ | ⟨summary, hsum, hprom, hc⟩
    · exact commit.learns m hm
    · exact ⟨p, hp, .inl hu⟩
    · obtain ⟨r, -, p, hp, hpc⟩ := (inv.summaries _ summary hsum hprom).commit_mem _ hc
      obtain ⟨q, hq, -, hcommit⟩ := inv.replied r _ p hp
      exact commit.promised r _ q _ hq (hcommit.symm.trans hpc)

theorem Reachable.commitInv (h : Reachable s) : CommitInv s := by
  refine (Reaches.invariant h (I := fun s => Inv s ∧ CommitInv s) ⟨Inv.init, ?_⟩ ?_).2
  · constructor
    · exact fun r => by constructor <;> simp [State.init, Row.empty]
    · simp [State.init]
    · simp [State.init, State.Learns]
  · intro s a s' hinv _ hstep
    exact ⟨(Step.of_step hstep).inv hinv.1, (Step.of_step hstep).commitInv hinv.1 hinv.2⟩

/-- Whatever happens after a proposal was chosen, also when decisions are learned and pruned, the
rows of a quorum report it or something newer: their promise is not older, and they have an accepted
proposal or a chosen commit that is not older, and of its timestamp only itself. -/
theorem chosen_stays (h : Reachable s) (hrun : Reaches step (fun _ _ => True) s s') {b : Ballot}
    (hb : s.Chosen b) (hp : s.sent b = some p) :
    ∃ Q : Finset R, IsMajority Finset.univ Q ∧ ∀ r ∈ Q, ∃ state,
      (s'.rows r).loadPaxosState = some state ∧
      b.timestamp ≤ state.promisedBallot.timestamp ∧
      ((∃ q, state.acceptedProposal = some q ∧ b.timestamp ≤ q.ballot.timestamp ∧
          s'.SentProposal q ∧ (q.ballot.timestamp = b.timestamp → q = ⟨b, p.update⟩)) ∨
        ∃ c, state.mostRecentCommit = some c ∧ b.timestamp ≤ c.ballot.timestamp ∧
          s'.Chosen c.ballot ∧ (c.ballot.timestamp = b.timestamp →
            c.ballot = b ∧ (c.update = p.update ∨ c.update = ⊥))) := by
  obtain ⟨h', hlater, hp'⟩ : Reachable s' ∧
      (∀ r, s.accepted r b = true → s'.accepted r b = true) ∧ s'.sent b = some p := by
    refine hrun.invariant (I := fun t => Reachable t ∧
      (∀ r, s.accepted r b = true → t.accepted r b = true) ∧ t.sent b = some p)
      ⟨h, fun _ => id, hp⟩ ?_
    rintro t a t' ⟨ht, hlater, hsent⟩ _ hstep
    have hgrows := (Step.of_step hstep).grows
    exact ⟨.step ht trivial hstep, fun r hr => hgrows.accepted (hlater r hr), hgrows.sent hsent⟩
  have inv := h'.inv
  refine ⟨s.acceptors b, hb, fun r hr => ?_⟩
  simp only [State.acceptors, Finset.mem_filter, Finset.mem_univ, true_and] at hr
  have hacc := hlater r hr
  obtain ⟨state, hload⟩ := (inv.rows r).exists_loadPaxosState
  refine ⟨state, hload, ?_, ?_⟩
  · rw [Row.loadPaxosState_promisedBallot hload]
    exact (inv.rows r).accepted_le b hacc
  · rcases (inv.rows r).loadPaxosState_ge hload hacc with ⟨q, hq, hle⟩ | ⟨c, hc, hle⟩
    · have hsent := (((inv.rows r).loadPaxosState_sent hload).1 q hq).1
      exact .inl ⟨q, hq, hle, hsent, fun heq =>
        inv.sentProposal_unique hsent ⟨p, hp', rfl⟩ heq⟩
    · refine .inr ⟨c, hc, hle, ((inv.rows r).loadPaxosState_sent hload).2 c hc, fun heq => ?_⟩
      obtain ⟨q, hq, hu⟩ := h'.commitInv.loadCommit inv
        (Row.loadPaxosState_mostRecentCommit hload ▸ hc)
      have hcb := inv.sent_unique hq hp' heq
      rw [hcb, hp'] at hq
      exact ⟨hcb, Option.some.inj hq ▸ hu⟩

theorem chosen_stays_lateRepair : ∃ s s' : State (Fin 3) ℕ, Reachable s ∧
    Reaches step (fun _ _ => True) s s' ∧ s.Chosen ⟨1, 0⟩ ∧ s.sent ⟨1, 0⟩ = some ⟨1, ⟨1, 0⟩⟩ ∧
    ∃ Q : Finset (Fin 3), IsMajority Finset.univ Q ∧ ∀ r ∈ Q, ∃ state,
      (s'.rows r).loadPaxosState = some state ∧ 1 ≤ state.promisedBallot.timestamp := by
  have hrun : ∃ s s', runSteps step (fun _ _ => True) (State.init : State (Fin 3) ℕ)
      (lateRepairRun.take 12) = some s ∧ s.Chosen ⟨1, 0⟩ ∧ s.sent ⟨1, 0⟩ = some ⟨1, ⟨1, 0⟩⟩ ∧
      runSteps step (fun _ _ => True) s (lateRepairRun.drop 12) = some s' :=
    ⟨_, _, rfl, by decide, rfl, rfl⟩
  obtain ⟨s, s', hrun, hb, hp, hrun'⟩ := hrun
  have hreach : Reachable s := reaches_of_runSteps .init hrun
  have hreach' := reaches_of_runSteps .init hrun'
  obtain ⟨Q, hQ, hrows⟩ := chosen_stays hreach hreach' hb hp
  refine ⟨s, s', hreach, hreach', hb, hp, Q, hQ, fun r hr => ?_⟩
  obtain ⟨state, hload, hle, -⟩ := hrows r hr
  exact ⟨state, hload, hle⟩

/-- Whatever a replica applies was accepted by a quorum under the only ballot of its timestamp that
was proposed. Its update is the one sent under that ballot, or empty where that was pruned, and goes
back to a coordinator that sent it as its own and found no proposal in progress. -/
theorem applied_was_chosen (h : Reachable s) {m : Learn R D} (hm : m ∈ s.applied) :
    s.Chosen m.decision.ballot ∧
      (∀ b q, s.sent b = some q → b.timestamp = m.decision.ballot.timestamp →
        b = m.decision.ballot) ∧
      ∃ p, s.sent m.decision.ballot = some p ∧
        (m.decision.update = p.update ∨ m.decision.update = ⊥) ∧
        s.sent p.origin = some p ∧ s.proceeded p.origin = true ∧
        p.origin.timestamp ≤ m.decision.ballot.timestamp := by
  have inv := h.inv
  have hlearns := inv.applied m hm
  obtain ⟨p, hp, hu⟩ := h.commitInv.learns m hlearns
  exact ⟨inv.learns m hlearns, fun b q hq heq => inv.sent_unique hq hp heq, p, hp, hu,
    inv.origin _ p hp, inv.origin_proceeded hp, inv.origin_le _ _ hp⟩

theorem applied_was_chosen_lateRepair : ∃ (s : State (Fin 3) ℕ) (m : Learn (Fin 3) ℕ),
    Reachable s ∧ m ∈ s.applied ∧ m.repair = true ∧ s.Chosen m.decision.ballot ∧
      ∃ p, s.sent m.decision.ballot = some p ∧
        (m.decision.update = p.update ∨ m.decision.update = 0) := by
  have hrun : ∃ s m, runSteps step (fun _ _ => True) (State.init : State (Fin 3) ℕ)
      lateRepairRun = some s ∧ m ∈ s.applied ∧ m.repair = true :=
    ⟨_, _, rfl, List.mem_cons_self, rfl⟩
  obtain ⟨s, m, hrun, hm, hrep⟩ := hrun
  have hreach : Reachable s := reaches_of_runSteps .init hrun
  obtain ⟨hb, -, p, hp, hu, -⟩ := applied_was_chosen hreach hm
  exact ⟨s, m, hreach, hm, hrep, hb, p, hp, hu⟩

end Scylla.Paxos
