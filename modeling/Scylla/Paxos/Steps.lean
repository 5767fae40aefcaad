import Scylla.Paxos.System

/-!
# What a step can do

The step function as a relation: for every action, the conditions under which it is enabled and
the state it leads to. Bookkeeping of the requests that no property depends on is left open. A
step never takes anything back: what was sent, promised, accepted or summarised stays, and the
base tables only grow.
-/

namespace Scylla.Paxos

open Option
open Function
open List

variable {R D : Type} [Fintype R] [DecidableEq R] [DecidableEq D] [SemilatticeSup D] [OrderBot D]

variable {α γ : Type} {a x : α} {w : γ}

theorem set₂_eq_cases {β : Type} [DecidableEq α] [DecidableEq β] {f : α → β → γ} {b y : β} {v : γ}
    (h : set₂ f a b v x y = w) : (x = a ∧ y = b ∧ v = w) ∨ f x y = w := by
  unfold set₂ at h
  split_ifs at h with hc
  · exact .inl ⟨hc.1, hc.2, h⟩
  · exact .inr h

theorem set₂_of_none {β : Type} [DecidableEq α] [DecidableEq β] {f : α → β → Option γ} {b y : β}
    {v : Option γ} (hnone : f a b = none) (h : f x y = some w) : set₂ f a b v x y = some w := by
  unfold set₂
  split_ifs with hc
  · rw [hc.1, hc.2, hnone] at h
    cases h
  · exact h

theorem update_of_none [DecidableEq α] {f : α → Option γ} {v : Option γ} (hnone : f a = none)
    (h : f x = some w) : update f a v x = some w := by
  rw [update_of_ne (fun hx => by simp [hx, hnone] at h)]
  exact h

theorem update_eq_cases [DecidableEq α] {f : α → γ} {v : γ} (h : update f a v x = w) :
    (x = a ∧ v = w) ∨ f x = w := by
  by_cases hx : x = a
  · subst hx
    exact .inl ⟨rfl, by simpa using h⟩
  · rw [update_of_ne hx] at h
    exact .inr h

/-- The steps of the system, with what enables them. -/
inductive Step (s : State R D) : Action R D → State R D → Prop
  | handlers {a : Action R D} {handlers : ℕ → Option (Handler R)} {rounds : Ballot → Option ℕ} :
      Step s a { s with handlers := handlers, rounds := rounds }
  | promise {r : R} {b : Ballot} {tie : Column → Bool} {state : PaxosState D} :
      (s.rows r).loadPaxosState = some state →
      state.promisedBallot.timestamp < b.timestamp →
      s.promised r b = none → s.replied r b = none →
      Step s (.prepare r b tie)
        { s with
          rows := update s.rows r ((s.rows r).savePaxosPromise tie b)
          promised := set₂ s.promised r b
            (some ⟨state.acceptedProposal, state.mostRecentCommit, none⟩) }
  | reject {r : R} {b b' : Ballot} {tie : Column → Bool} :
      s.replied r b = none →
      Step s (.prepare r b tie) { s with replied := set₂ s.replied r b (some (.ballot b')) }
  | reply {r : R} {b : Ballot} {fails : Bool} {p : Promise D} :
      s.promised r b = some p → s.replied r b = none →
      Step s (.reply r b fails)
        { s with
          replied := set₂ s.replied r b (some (.promise
            { p with dataOrDigest := if fails then none else some (s.base r) })) }
  | finishPrepare {b : Ballot} {order : List R} :
      s.summaries b = none → order.Nodup → (s.tracker b order).done = true →
      Step s (.finishPrepare b order)
        { s with summaries := update s.summaries b (some (s.tracker b order).summary) }
  | replay {b : Ballot} {summary : PrepareSummary R D} {p : Proposal D} :
      s.summaries b = some summary → summary.promised = true → summary.inProgress = some p →
      s.sent b = none →
      Step s (.replay b)
        { s with sent := update s.sent b (some ⟨p.update, s.originOf p.ballot⟩) }
  | repair {b : Ballot} {summary : PrepareSummary R D} {c : Proposal D} :
      s.summaries b = some summary → summary.promised = true →
      summary.mostRecentCommit = some c →
      Step s (.repair b)
        { s with
          repairs := (summary.replicasMissingMostRecentCommit.map fun r => ⟨b, r, c, true⟩) ++
            s.repairs }
  | proceed {b : Ballot} {summary : PrepareSummary R D} :
      s.summaries b = some summary → summary.promised = true → summary.inProgress = none →
      s.proceeded b = false →
      Step s (.proceed b) { s with proceeded := update s.proceeded b true }
  | read {r : R} {b : Ballot} :
      s.proceeded b = true →
      Step s (.read r b)
        { s with reads := update s.reads b ((r, s.base r) :: s.reads b) }
  | evaluate {b : Ballot} {result : Option D} {summary : PrepareSummary R D} {data : D} :
      s.summaries b = some summary → s.dataFor b summary = some data → s.proceeded b = true →
      s.sent b = none →
      Step s (.evaluate b result)
        { s with
          evaluated := update s.evaluated b (some data)
          sent := update s.sent b (some ⟨result.getD ⊥, b⟩) }
  | accept {r : R} {b : Ballot} {tie : Column → Bool} {p : Sent D} :
      s.sent b = some p →
      b = (s.rows r).promisedBallot ∨ (s.rows r).promisedBallot.timestamp < b.timestamp →
      Step s (.accept r b tie)
        { s with
          rows := update s.rows r ((s.rows r).savePaxosProposal tie ⟨b, p.update⟩)
          accepted := set₂ s.accepted r b true }
  | decide {b : Ballot} {p : Sent D} :
      s.sent b = some p → s.Chosen b →
      Step s (.decide b) { s with decisions := ⟨b, p.update⟩ :: s.decisions }
  | learnApply {m : Learn R D} :
      s.Learns m →
      Step s (.learnApply m)
        { s with
          base := update s.base m.target (s.base m.target ⊔ m.decision.update)
          applied := m :: s.applied }
  | learnSave {m : Learn R D} {tie : Column → Bool} :
      m ∈ s.applied →
      Step s (.learnSave m tie)
        { s with
          rows := update s.rows m.target
            ((s.rows m.target).savePaxosDecision tie m.decision)
          learned := m :: s.learned }
  | acknowledge {m : Learn R D} {handlers : ℕ → Option (Handler R)} :
      m ∈ s.learned →
      Step s (.acknowledge m)
        { s with acked := m :: s.acked, handlers := handlers, prunes := (s.countLearned m).2 }
  | prune {r : R} {b : Ballot} {tie : Column → Bool} :
      b ∈ s.prunes →
      Step s (.prune r b tie)
        { s with rows := update s.rows r ((s.rows r).deletePaxosDecision tie b) }
  | write {r : R} {d : D} :
      Step s (.write r d) { s with base := update s.base r (s.base r ⊔ d) }

variable {s s' : State R D} {a : Action R D}

theorem Step.of_step (h : step s a = some s') : Step s a s' := by
  cases a with
  | start i live =>
    obtain ⟨-, rfl⟩ := ite_some_none_eq_some.mp h
    exact .handlers
  | newBallot i b =>
    obtain ⟨handler, -, h⟩ := bind_eq_some_iff.mp h
    obtain ⟨-, rfl⟩ := ite_some_none_eq_some.mp h
    exact .handlers
  | prepare r b tie =>
    obtain ⟨hc, h⟩ := ite_none_right_eq_some.mp h
    obtain ⟨⟨answer, row⟩, hrow, h⟩ := map_eq_some_iff.mp h
    obtain ⟨state, hstate, hans⟩ := map_eq_some_iff.mp hrow
    simp only [isNone_iff_eq_none] at hc
    split_ifs at hans with hlt <;> cases hans <;> cases h
    · exact .promise hstate hlt hc.2.1 hc.2.2
    · dsimp only
      rw [update_eq_self]
      exact .reject hc.2.2
  | reply r b fails =>
    obtain ⟨p, hp, h⟩ := bind_eq_some_iff.mp h
    obtain ⟨hc, rfl⟩ := ite_some_none_eq_some.mp h
    exact .reply hp (isNone_iff_eq_none.mp hc)
  | finishPrepare b order =>
    obtain ⟨hc, rfl⟩ := ite_some_none_eq_some.mp h
    exact .finishPrepare (isNone_iff_eq_none.mp hc.2.1) hc.2.2.1 hc.2.2.2
  | replay b =>
    obtain ⟨summary, hsum, h⟩ := bind_eq_some_iff.mp h
    obtain ⟨p, hp, h⟩ := bind_eq_some_iff.mp h
    obtain ⟨hc, rfl⟩ := ite_some_none_eq_some.mp h
    exact .replay hsum hc.1 hp (isNone_iff_eq_none.mp hc.2)
  | repair b =>
    obtain ⟨summary, hsum, h⟩ := bind_eq_some_iff.mp h
    obtain ⟨c, hcommit, h⟩ := bind_eq_some_iff.mp h
    obtain ⟨hc, rfl⟩ := ite_some_none_eq_some.mp h
    exact .repair hsum hc.1 hcommit
  | proceed b =>
    obtain ⟨summary, hsum, h⟩ := bind_eq_some_iff.mp h
    obtain ⟨hc, rfl⟩ := ite_some_none_eq_some.mp h
    exact .proceed hsum hc.1 (isNone_iff_eq_none.mp hc.2.1) hc.2.2.1
  | read r b =>
    obtain ⟨summary, hsum, h⟩ := bind_eq_some_iff.mp h
    obtain ⟨hc, rfl⟩ := ite_some_none_eq_some.mp h
    exact .read hc.1
  | evaluate b result =>
    obtain ⟨summary, hsum, h⟩ := bind_eq_some_iff.mp h
    obtain ⟨data, hdata, h⟩ := bind_eq_some_iff.mp h
    obtain ⟨hc, rfl⟩ := ite_some_none_eq_some.mp h
    exact .evaluate hsum hdata hc.1 (isNone_iff_eq_none.mp hc.2)
  | accept r b tie =>
    obtain ⟨p, hp, h⟩ := bind_eq_some_iff.mp h
    obtain ⟨hc, h⟩ := ite_none_right_eq_some.mp h
    obtain ⟨⟨isAccepted, row⟩, hrow, h⟩ := map_eq_some_iff.mp h
    obtain ⟨state, hstate, hans⟩ := map_eq_some_iff.mp hrow
    rw [Row.loadPaxosState_promisedBallot hstate] at hans
    split_ifs at hans with hle <;> cases hans <;> cases h
    · exact .accept hp hle
    · dsimp only
      rw [update_eq_self]
      exact .handlers
  | decide b =>
    obtain ⟨p, hp, h⟩ := bind_eq_some_iff.mp h
    obtain ⟨hc, rfl⟩ := ite_some_none_eq_some.mp h
    exact .decide hp hc
  | learnApply m =>
    obtain ⟨hc, rfl⟩ := ite_some_none_eq_some.mp h
    exact .learnApply hc
  | learnSave m tie =>
    obtain ⟨hc, rfl⟩ := ite_some_none_eq_some.mp h
    exact .learnSave hc
  | acknowledge m =>
    obtain ⟨hc, rfl⟩ := ite_some_none_eq_some.mp h
    exact .acknowledge hc.1
  | prune r b tie =>
    obtain ⟨hc, rfl⟩ := ite_some_none_eq_some.mp h
    exact .prune hc.1
  | write r d =>
    cases h
    exact .write

/-! ## Nothing is taken back -/

/-- What every later state keeps of an earlier one. -/
structure Grows (s s' : State R D) : Prop where
  promised : ∀ {r b p}, s.promised r b = some p → s'.promised r b = some p
  replied : ∀ {r b p}, s.replied r b = some p → s'.replied r b = some p
  summaries : ∀ {b p}, s.summaries b = some p → s'.summaries b = some p
  sent : ∀ {b p}, s.sent b = some p → s'.sent b = some p
  accepted : ∀ {r b}, s.accepted r b = true → s'.accepted r b = true
  proceeded : ∀ {b}, s.proceeded b = true → s'.proceeded b = true
  base : ∀ r, s.base r ≤ s'.base r

omit [Fintype R] [DecidableEq R] [DecidableEq D] [OrderBot D] in
theorem Grows.refl (s : State R D) : Grows s s :=
  ⟨id, id, id, id, id, id, fun _ => le_rfl⟩

omit [Fintype R] [DecidableEq D] [OrderBot D] in
private theorem base_le_update (base : R → D) (r x : R) (d : D) :
    base x ≤ update base r (base r ⊔ d) x := by
  by_cases hx : x = r
  · subst hx
    simp
  · rw [update_of_ne hx]

theorem Step.grows (h : Step s a s') : Grows s s' := by
  have hs := Grows.refl s
  cases h with
  | handlers | repair | read | decide | learnSave | acknowledge | prune =>
    exact ⟨id, id, id, id, id, id, fun _ => le_rfl⟩
  | promise hload hlt hnone hnone' => exact { hs with promised := set₂_of_none hnone }
  | reject hnone | reply hp hnone => exact { hs with replied := set₂_of_none hnone }
  | finishPrepare hnone => exact { hs with summaries := update_of_none hnone }
  | replay hsum hprom hp hnone => exact { hs with sent := update_of_none hnone }
  | evaluate hsum hdata hproc hnone => exact { hs with sent := update_of_none hnone }
  | accept hsent hguard =>
    refine { hs with accepted := fun {r' b'} hacc => ?_ }
    simp only [set₂]
    split_ifs
    · rfl
    · exact hacc
  | proceed hsum hprom hprog hproc =>
    refine { hs with proceeded := fun {b'} hb' => ?_ }
    dsimp only
    rw [update_apply]
    split_ifs
    · rfl
    · exact hb'
  | learnApply | write => exact { hs with base := fun x => base_le_update _ _ _ _ }

omit [DecidableEq D] [OrderBot D] in
theorem Grows.chosen (h : Grows s s') {b : Ballot} (hb : s.Chosen b) : s'.Chosen b := by
  refine IsMajority.mono hb fun r hr => ?_
  simp only [State.acceptors, Finset.mem_inter, Finset.mem_filter] at hr ⊢
  exact ⟨Finset.mem_univ r, h.accepted hr.2.2⟩

/-! ## What is new after a step -/

section New

variable {r : R} {b : Ballot}

section

variable (h : Step s a s')

include h

theorem Step.promised_new {p : Promise D} (hp : s'.promised r b = some p) :
    s.promised r b = some p ∨ ∃ state tie, (s.rows r).loadPaxosState = some state ∧
      state.promisedBallot.timestamp < b.timestamp ∧
      p = ⟨state.acceptedProposal, state.mostRecentCommit, none⟩ ∧
      s'.rows r = (s.rows r).savePaxosPromise tie b ∧ s'.accepted = s.accepted ∧
      s'.replied r b = none := by
  cases h
  case promise tie state hload hlt _ hnone =>
    rcases set₂_eq_cases hp with ⟨rfl, rfl, hv⟩ | hp
    · exact .inr ⟨state, tie, hload, hlt, (Option.some.inj hv).symm, update_self .., rfl, hnone⟩
    · exact .inl hp
  all_goals exact .inl hp

theorem Step.replied_new {p : Promise D} (hp : s'.replied r b = some (.promise p)) :
    s.replied r b = some (.promise p) ∨ ∃ q, s.promised r b = some q ∧
      p.acceptedProposal = q.acceptedProposal ∧ p.mostRecentCommit = q.mostRecentCommit ∧
      ∀ d, p.dataOrDigest = some d → d = s.base r := by
  cases h
  case reject =>
    rcases set₂_eq_cases hp with ⟨rfl, rfl, hv⟩ | hp
    · cases hv
    · exact .inl hp
  case reply fails q hq _ =>
    rcases set₂_eq_cases hp with ⟨rfl, rfl, hv⟩ | hp
    · cases hv
      refine .inr ⟨q, hq, rfl, rfl, fun d hd => ?_⟩
      split_ifs at hd
      exact (Option.some.inj hd).symm
    · exact .inl hp
  all_goals exact .inl hp

theorem Step.summaries_new {summary : PrepareSummary R D} (hs : s'.summaries b = some summary) :
    s.summaries b = some summary ∨ (s.summaries b = none ∧ s'.sent = s.sent ∧
      s'.accepted = s.accepted ∧ ∃ order : List R, order.Nodup ∧
        (s.tracker b order).done = true ∧ summary = (s.tracker b order).summary) := by
  cases h
  case finishPrepare order hnone hnodup hdone =>
    rcases update_eq_cases hs with ⟨rfl, hv⟩ | hs
    · exact .inr ⟨hnone, rfl, rfl, order, hnodup, hdone, (Option.some.inj hv).symm⟩
    · exact .inl hs
  all_goals exact .inl hs

theorem Step.sent_new {p : Sent D} (hp : s'.sent b = some p) :
    s.sent b = some p ∨ (s.sent b = none ∧ s'.accepted = s.accepted ∧
      ((p.origin = b ∧ s.proceeded b = true) ∨
        ∃ summary q, s.summaries b = some summary ∧ summary.promised = true ∧
          summary.inProgress = some q ∧ p = ⟨q.update, s.originOf q.ballot⟩)) := by
  cases h
  case replay summary q hsum hprom hprog hnone =>
    rcases update_eq_cases hp with ⟨rfl, hv⟩ | hp
    · exact .inr ⟨hnone, rfl, .inr ⟨summary, q, hsum, hprom, hprog, (Option.some.inj hv).symm⟩⟩
    · exact .inl hp
  case evaluate hproc hnone =>
    rcases update_eq_cases hp with ⟨rfl, hv⟩ | hp
    · cases hv
      exact .inr ⟨hnone, rfl, .inl ⟨rfl, hproc⟩⟩
    · exact .inl hp
  all_goals exact .inl hp

theorem Step.accepted_new (hacc : s'.accepted r b = true) :
    s.accepted r b = true ∨ (s'.sent = s.sent ∧ ∃ p, s.sent b = some p ∧
      (b = (s.rows r).promisedBallot ∨ (s.rows r).promisedBallot.timestamp < b.timestamp)) := by
  cases h
  case accept p hp hguard =>
    rcases set₂_eq_cases hacc with ⟨rfl, rfl, -⟩ | hacc
    · exact .inr ⟨rfl, p, hp, hguard⟩
    · exact .inl hacc
  all_goals exact .inl hacc

theorem Step.proceeded_new (hb : s'.proceeded b = true) :
    s.proceeded b = true ∨ ∃ summary, s.summaries b = some summary ∧
      summary.promised = true ∧ summary.inProgress = none := by
  cases h
  case proceed summary hsum hprom hprog _ =>
    rcases update_eq_cases hb with ⟨rfl, -⟩ | hb
    · exact .inr ⟨summary, hsum, hprom, hprog⟩
    · exact .inl hb
  all_goals exact .inl hb

end

variable {m : Learn R D}

section

variable (h : Step s a s')

include h

theorem Step.learns_new (hm : s'.Learns m) :
    s.Learns m ∨ (∃ p, s.sent m.decision.ballot = some p ∧ m.decision.update = p.update ∧
        s.Chosen m.decision.ballot) ∨
      ∃ summary, s.summaries m.round = some summary ∧ summary.promised = true ∧
        summary.mostRecentCommit = some m.decision := by
  cases h
  case decide p hp hc =>
    rcases hm with ⟨hrep, hround, hmem⟩ | hm
    · rcases mem_cons.mp hmem with heq | hmem
      · rw [heq]
        exact .inr (.inl ⟨p, hp, rfl, hc⟩)
      · exact .inl (.inl ⟨hrep, hround, hmem⟩)
    · exact .inl (.inr hm)
  case repair summary c hsum hprom hcommit =>
    rcases hm with hm | hm
    · exact .inl (.inl hm)
    · rcases mem_append.mp hm with hm | hm
      · obtain ⟨r, -, rfl⟩ := mem_map.mp hm
        exact .inr (.inr ⟨summary, hsum, hprom, hcommit⟩)
      · exact .inl (.inr hm)
  all_goals exact .inl hm

theorem Step.learns_mono (hm : s.Learns m) : s'.Learns m := by
  cases h
  case decide => exact hm.imp (fun h => ⟨h.1, h.2.1, mem_cons_of_mem _ h.2.2⟩) id
  case repair => exact hm.imp id (mem_append_right _)
  all_goals exact hm

theorem Step.applied_new (hm : m ∈ s'.applied) : m ∈ s.applied ∨ s.Learns m := by
  cases h
  case learnApply m' hm' =>
    rcases mem_cons.mp hm with rfl | hm
    · exact .inr hm'
    · exact .inl hm
  all_goals exact .inl hm

theorem Step.decisions_new {p : Proposal D} (hp : p ∈ s'.decisions) :
    p ∈ s.decisions ∨ ∃ q, s.sent p.ballot = some q ∧ q.update = p.update := by
  cases h
  case decide q hq _ =>
    rcases mem_cons.mp hp with rfl | hp
    · exact .inr ⟨q, hq, rfl⟩
    · exact .inl hp
  all_goals exact .inl hp

theorem Step.repairs_new (hm : m ∈ s'.repairs) :
    m ∈ s.repairs ∨ (m.repair = true ∧ ∃ summary, s.summaries m.round = some summary ∧
      summary.promised = true ∧ summary.mostRecentCommit = some m.decision) := by
  cases h
  case repair summary c hsum hprom hc =>
    rcases mem_append.mp hm with hm | hm
    · obtain ⟨r, -, rfl⟩ := mem_map.mp hm
      exact .inr ⟨rfl, summary, hsum, hprom, hc⟩
    · exact .inl hm
  all_goals exact .inl hm

theorem Step.applied_le (hm : m ∈ s'.applied) :
    m ∈ s.applied ∨ m.decision.update ≤ s'.base m.target := by
  cases h
  case learnApply m' _ =>
    rcases mem_cons.mp hm with rfl | hm
    · refine .inr ?_
      dsimp only
      rw [update_self]
      exact le_sup_right
    · exact .inl hm
  all_goals exact .inl hm

theorem Step.reads_new {d : D} (hd : (r, d) ∈ s'.reads b) :
    (r, d) ∈ s.reads b ∨ (d = s.base r ∧ s.proceeded b = true) := by
  cases h
  case read r' b' hproc =>
    dsimp only at hd
    by_cases hb : b = b'
    · subst hb
      rw [update_self] at hd
      rcases mem_cons.mp hd with heq | hd
      · cases heq
        exact .inr ⟨rfl, hproc⟩
      · exact .inl hd
    · rw [update_of_ne hb] at hd
      exact .inl hd
  all_goals exact .inl hd

theorem Step.evaluated_new {d : D} (hd : s'.evaluated b = some d) :
    s.evaluated b = some d ∨ ∃ result summary, a = .evaluate b result ∧
      s.summaries b = some summary ∧ s.dataFor b summary = some d ∧ s.proceeded b = true := by
  cases h
  case evaluate result summary data hsum hdata hproc _ =>
    rcases update_eq_cases hd with ⟨rfl, hv⟩ | hd
    · cases hv
      exact .inr ⟨result, summary, rfl, hsum, hdata, hproc⟩
    · exact .inl hd
  all_goals exact .inl hd

theorem Step.applied_mono (hm : m ∈ s.applied) : m ∈ s'.applied := by
  cases h
  case learnApply => exact mem_cons_of_mem _ hm
  all_goals exact hm

theorem Step.learned_new (hm : m ∈ s'.learned) : m ∈ s.learned ∨ m ∈ s.applied := by
  cases h
  case learnSave m' _ hm' =>
    rcases mem_cons.mp hm with rfl | hm
    · exact .inr hm'
    · exact .inl hm
  all_goals exact .inl hm

theorem Step.acked_new (hm : m ∈ s'.acked) : m ∈ s.acked ∨ m ∈ s.learned := by
  cases h
  case acknowledge m' _ hm' =>
    rcases mem_cons.mp hm with rfl | hm
    · exact .inr hm'
    · exact .inl hm
  all_goals exact .inl hm

end

section

omit [DecidableEq D] [SemilatticeSup D] [OrderBot D]

theorem State.mem_countLearned (hb : b ∈ (s.countLearned m).2) :
    b ∈ s.prunes ∨ (b = m.decision.ballot ∧ m.repair = false) := by
  unfold State.countLearned at hb
  split at hb
  · split_ifs at hb with hrep
    · exact .inl hb
    · dsimp only at hb
      split_ifs at hb
      · rcases mem_cons.mp hb with rfl | hb
        · exact .inr ⟨rfl, Bool.eq_false_of_not_eq_true hrep⟩
        · exact .inl hb
      · exact .inl hb
  · exact .inl hb

theorem State.prunes_subset_countLearned (hb : b ∈ s.prunes) :
    b ∈ (s.countLearned m).2 := by
  unfold State.countLearned
  split
  · split_ifs
    · exact hb
    · dsimp only
      split_ifs
      · exact mem_cons_of_mem _ hb
      · exact hb
  · exact hb

end

theorem Step.prunes_mono (h : Step s a s') (hb : b ∈ s.prunes) : b ∈ s'.prunes := by
  cases h
  case acknowledge => exact State.prunes_subset_countLearned hb
  all_goals exact hb

theorem Step.prunes_new (h : Step s a s') (hb : b ∈ s'.prunes) :
    b ∈ s.prunes ∨ ∃ m, a = .acknowledge m ∧ m ∈ s.learned ∧ m.repair = false ∧
      b = m.decision.ballot ∧ b ∈ (s.countLearned m).2 := by
  cases h
  case acknowledge m _ hm =>
    rcases State.mem_countLearned hb with hold | ⟨rfl, hrep⟩
    · exact .inl hold
    · exact .inr ⟨m, rfl, hm, hrep, rfl, hb⟩
  all_goals exact .inl hb

end New

end Scylla.Paxos
