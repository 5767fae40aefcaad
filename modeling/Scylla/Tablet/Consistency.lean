import Scylla.Tablet.Stages

/-!
# Quorum consistency during a migration

An acknowledged write is lacked by fewer than a quorum of every replica set that may be read.
Streaming carries this from the old replicas to the new ones, and cleanup only deletes what is in no
replica set in use. So a read that starts after the acknowledgement finds the write.
-/

namespace Scylla.Tablet

open TabletInfo
open Function
open List
open Stage

variable {α : Type} [DecidableEq α]

theorem card_lt_two_mul_quorumFor {n : ℕ} (h : n ≠ 0) : n < 2 * quorumFor n := by
  rw [quorumFor, if_neg h]
  omega

/-! ## Acknowledged writes -/

def Stage.keepsOld : Stage → Bool
  | useNew | cleanup | endMigration => false
  | _ => true

def Stage.usesNew : Stage → Bool
  | writeBothReadNew | useNew | cleanup | endMigration => true
  | _ => false

/-- What the replicas have of an acknowledged write. -/
structure Secured (s : State α) (i : ℕ) : Prop where
  old : (∀ info, s.tablet.transition = some info → info.stage.keepsOld = true) →
    Covers (quorumFor s.replicationFactor) s.tablet.replicas (s.holders i)
  new : ∀ info, s.tablet.transition = some info → info.stage.usesNew = true →
    Covers (quorumFor s.replicationFactor) info.next (s.holders i)
  /-- What the new replicas lack is being streamed. -/
  streamed : ∀ info held, s.tablet.transition = some info → info.stage = .streaming →
    s.tabletState.streaming = .running held → held i = true ∨
      Covers (quorumFor s.replicationFactor) info.next (s.holders i)
  copied : ∀ info held, s.tablet.transition = some info → info.stage = .streaming →
    s.tabletState.streaming = .succeeded held →
      Covers (quorumFor s.replicationFactor) info.next (s.holders i)

variable {stage : Stage} {sel : WriteSelector × ReadSelector} {w : WriteRequest α}
  {r : ReadRequest α} {s' : State α} {x : α} {info : TransitionInfo α} {ts : TabletState}
  {version : ℕ} {holders : ℕ → Finset α}

theorem Stage.keepsOld_of_selector (h : sel ∈ stage.selectors) (hread : sel.2 = .previous) :
    stage.keepsOld = true := by
  revert sel
  cases stage <;> decide

theorem Stage.usesNew_of_selector (h : sel ∈ stage.selectors) (hread : sel.2 = .next) :
    stage.usesNew = true := by
  revert sel
  cases stage <;> decide

variable {s : State α} {i : ℕ}

theorem Secured.covers_reading (h : Secured s i) {v : View α} (hv : s.tablet.Allows v) :
    Covers (quorumFor s.replicationFactor) v.reading (s.holders i) := by
  cases htr : s.tablet.transition with
  | none =>
    rw [(allows_iff_of_none htr).mp hv]
    exact h.old fun info hinfo => nomatch htr.symm.trans hinfo
  | some info =>
    obtain ⟨sel, hsel, rfl⟩ := (allows_iff htr).mp hv
    cases hread : sel.2 with
    | previous =>
      have hold := h.old fun info' hinfo' => by
        cases htr.symm.trans hinfo'
        exact keepsOld_of_selector hsel hread
      simpa [select, hread] using hold
    | next =>
      have hnew := h.new info htr (usesNew_of_selector hsel hread)
      simpa [select, hread] using hnew

section

variable {l p : α}

section

variable (htr : s.tablet.transition = some info) (hmove : Moves s.tablet info l p)

include htr hmove

theorem erasable_of_keepsOld (hstage : info.stage.keepsOld = true)
    (hx : x ∈ s.erasable) : x = p := by
  rw [State.erasable, htr] at hx
  dsimp only at hx
  rw [hmove.pendingReplica, hmove.leaving] at hx
  cases hs : info.stage <;> rw [hs] at hx hstage <;> first
    | exact absurd hstage Bool.false_ne_true
    | (simp at hx; done)
    | simpa using hx

theorem erasable_of_usesNew (hstage : info.stage.usesNew = true ∨ info.stage = .streaming)
    (hx : x ∈ s.erasable) : x = l := by
  rw [State.erasable, htr] at hx
  dsimp only at hx
  rw [hmove.pendingReplica, hmove.leaving] at hx
  cases hs : info.stage <;> rw [hs] at hx hstage <;> first
    | (simp at hx; done)
    | (simp [Stage.usesNew] at hstage; done)
    | simpa using hx

end

theorem covers_of_acks {V : Finset α} {y : α} (hV : V.card = s.replicationFactor)
    (hpos : s.replicationFactor ≠ 0) (hmem : ∀ x ∈ w.view.natural ∪ w.view.pending, x ≠ y → x ∈ V)
    (hpending : y ∈ w.view.natural ∪ w.view.pending → 0 < w.view.pending.card)
    (herasable : ∀ x ∈ s.erasable, x = y)
    (hacks : ∀ x ∈ w.acks, x ∈ w.view.natural ∪ w.view.pending ∧ (x ∈ s.holders i ∨ x ∈ s.erasable))
    (hquorum : quorumFor s.replicationFactor + w.view.pending.card ≤ w.acks.card) :
    Covers (quorumFor s.replicationFactor) V (s.holders i) := by
  refine Covers.of_card (A := w.acks.erase y)
    (by rw [hV]; exact card_lt_two_mul_quorumFor hpos) (fun x hx => ?_) ?_
  · obtain ⟨hne, hx⟩ := Finset.mem_erase.mp hx
    obtain ⟨hin, hheld⟩ := hacks x hx
    exact Finset.mem_inter.mpr ⟨hmem x hin hne, hheld.resolve_right fun he =>
      hne (herasable x he)⟩
  · by_cases hy : y ∈ w.acks
    · have hone := hpending (hacks y hy).1
      rw [Finset.card_erase_of_mem hy]
      omega
    · rw [Finset.erase_eq_of_notMem hy]
      omega

section

variable (hmove : Moves s.tablet info l p) (hview : w.view = s.tablet.select info sel)

include hmove hview

theorem written_old (hsel : sel.1 ≠ .next) :
    (∀ x ∈ w.view.natural ∪ w.view.pending, x ≠ p → x ∈ s.tablet.replicas) ∧
      (p ∈ w.view.natural ∪ w.view.pending → 0 < w.view.pending.card) := by
  have hnotMem := hmove.notMem
  rw [hview, select, if_neg hsel, hmove.pendingReplica]
  by_cases hboth : sel.1 = .both <;> simp [hboth, hnotMem] <;> tauto

theorem written_new (hsel : sel.1 ≠ .previous) :
    (∀ x ∈ w.view.natural ∪ w.view.pending, x ≠ l → x ∈ info.next) ∧
      (l ∈ w.view.natural ∪ w.view.pending → 0 < w.view.pending.card) := by
  have hne := hmove.ne
  rw [hview, select, hmove.pendingReplica, hmove.next]
  cases hw : sel.1 with
  | previous => exact absurd hw hsel
  | both => simp; tauto
  | next => simp [hne]; tauto

end

end

theorem Stage.writes_old (h : sel ∈ stage.selectors) (hstage : stage.keepsOld = true) :
    sel.1 ≠ .next := by
  revert sel
  cases stage <;> revert hstage <;> decide

theorem Stage.writes_new (h : sel ∈ stage.selectors)
    (hstage : stage.usesNew = true ∨ stage = .streaming) : sel.1 ≠ .previous := by
  revert sel
  cases stage <;> revert hstage <;> decide

theorem secured_of_acks (h : Staged s) (hpos : s.replicationFactor ≠ 0)
    (hview : s.tablet.Allows w.view)
    (hacks : ∀ x ∈ w.acks, x ∈ w.view.natural ∪ w.view.pending ∧ (x ∈ s.holders i ∨ x ∈ s.erasable))
    (hquorum : quorumFor s.replicationFactor + w.view.pending.card ≤ w.acks.card) :
    Secured s i := by
  cases htr : s.tablet.transition with
  | none =>
    rw [(allows_iff_of_none htr).mp hview] at hacks hquorum
    refine ⟨fun _ => ?_, ?_, ?_, ?_⟩
    · refine Covers.of_card (A := w.acks) ?_ (fun x hx => ?_) (by simpa using hquorum)
      · rw [h.card]
        exact card_lt_two_mul_quorumFor hpos
      · have hx := hacks x hx
        simpa [State.erasable, htr] using hx
    · exact fun info hinfo => nomatch htr.symm.trans hinfo
    · exact fun info _ hinfo => nomatch htr.symm.trans hinfo
    · exact fun info _ hinfo => nomatch htr.symm.trans hinfo
  | some info =>
    obtain ⟨l, p, hmove⟩ := h.moves info htr
    obtain ⟨sel, hsel, hview⟩ := (allows_iff htr).mp hview
    have hold := fun hstage : info.stage.keepsOld = true =>
      have hwritten := written_old hmove hview (writes_old hsel hstage)
      covers_of_acks h.card hpos hwritten.1 hwritten.2
        (fun _ => erasable_of_keepsOld htr hmove hstage) hacks hquorum
    have hnew := fun hstage : info.stage.usesNew = true ∨ info.stage = .streaming =>
      have hwritten := written_new hmove hview (writes_new hsel hstage)
      covers_of_acks (hmove.card_next.trans h.card) hpos hwritten.1 hwritten.2
        (fun _ => erasable_of_usesNew htr hmove hstage) hacks hquorum
    refine ⟨fun hstage => hold (hstage info htr), ?_, ?_, ?_⟩
    · intro info' hinfo' hstage
      cases htr.symm.trans hinfo'
      exact hnew (.inl hstage)
    · intro info' held hinfo' hstage _
      cases htr.symm.trans hinfo'
      exact .inr (hnew (.inr hstage))
    · intro info' held hinfo' hstage _
      cases htr.symm.trans hinfo'
      exact hnew (.inr hstage)

/-! ## Reads -/

def ReadRequest.missed (r : ReadRequest α) (i : ℕ) : Finset α :=
  ((r.replies.filter fun e => !e.2 i).map Prod.fst).toFinset

/-- What the answers to a read have of the writes acknowledged before it. -/
structure Answered (s : State α) (r : ReadRequest α) : Prop where
  distinct : (r.replies.map Prod.fst).Nodup
  asked : ∀ e ∈ r.replies, e.1 ∈ r.view.reading
  /-- Fewer than a quorum have answered without the write or may still do so. -/
  active : r.progress = .active → ∀ i, r.before i = true →
    (r.missed i ∪ (r.view.reading \ s.holders i)).card < quorumFor s.replicationFactor
  succeeded : r.progress = .succeeded → ∀ i, r.before i = true → ∃ e ∈ r.replies, e.2 i = true

structure Consistent (s : State α) : Prop where
  acks : ∀ i w, s.writes[i]? = some w → w.progress = .active → ∀ x ∈ w.acks,
    x ∈ w.view.natural ∪ w.view.pending ∧ (x ∈ s.holders i ∨ x ∈ s.erasable)
  secured : ∀ i, s.isAcknowledged i = true → Secured s i
  answered : ∀ r ∈ s.reads, Answered s r

theorem consistent_initial (replicas : Finset α) : Consistent (State.initial replicas) where
  acks := fun i w h => by
    cases h
  secured := fun i h => by
    have h : (([] : List (WriteRequest α))[i]?).any
      (fun w => decide (w.progress = .succeeded)) = true := h
    cases h
  answered := fun _ h => nomatch h

theorem Answered.of_holders (h : Answered s r)
    (hfactor : s'.replicationFactor = s.replicationFactor)
    (hsub : r.progress = .active → ∀ i, r.view.reading \ s'.holders i ⊆ r.view.reading \ s.holders
      i) :
    Answered s' r where
  distinct := h.distinct
  asked := h.asked
  active := fun hactive i hi => by
    rw [hfactor]
    refine lt_of_le_of_lt (Finset.card_le_card ?_) (h.active hactive i hi)
    exact Finset.union_subset_union_right (hsub hactive i)
  succeeded := h.succeeded

theorem Secured.of_covers (h : Secured s i) (htablet : s'.tablet = s.tablet)
    (hstate : s'.tabletState.streaming = s.tabletState.streaming)
    (hold : (∀ info, s.tablet.transition = some info → info.stage.keepsOld = true) →
      Covers (quorumFor s.replicationFactor) s.tablet.replicas (s.holders i) →
        Covers (quorumFor s'.replicationFactor) s.tablet.replicas (s'.holders i))
    (hnew : ∀ info, s.tablet.transition = some info →
      info.stage.usesNew = true ∨ info.stage = .streaming →
      Covers (quorumFor s.replicationFactor) info.next (s.holders i) →
        Covers (quorumFor s'.replicationFactor) info.next (s'.holders i)) : Secured s' i := by
  refine ⟨?_, ?_, ?_, ?_⟩ <;> rw [htablet]
  · exact fun hkeeps => hold hkeeps (h.old hkeeps)
  · exact fun info hinfo hused => hnew info hinfo (.inl hused) (h.new info hinfo hused)
  · rw [hstate]
    exact fun info held hinfo hstage hrun =>
      (h.streamed info held hinfo hstage hrun).imp_right (hnew info hinfo (.inr hstage))
  · rw [hstate]
    exact fun info held hinfo hstage hdone =>
      hnew info hinfo (.inr hstage) (h.copied info held hinfo hstage hdone)

theorem Consistent.of_grow (h : Consistent s) (hfactor : s'.replicationFactor = s.replicationFactor)
    (htablet : s'.tablet = s.tablet) (hstate : s'.tabletState.streaming = s.tabletState.streaming)
    (hwrites : s'.writes = s.writes) (hreads : s'.reads = s.reads)
    (hgrow : ∀ i, s.holders i ⊆ s'.holders i) : Consistent s' where
  acks := by
    intro i w hw hactive x hx
    rw [hwrites] at hw
    obtain ⟨hmem, hheld⟩ := h.acks i w hw hactive x hx
    refine ⟨hmem, hheld.imp (fun hx => hgrow i hx) ?_⟩
    rw [State.erasable, State.erasable, htablet]
    exact id
  secured := by
    intro i hi
    have hsec := h.secured i (by rwa [State.isAcknowledged, hwrites] at hi)
    have hmono : ∀ {V : Finset α}, Covers (quorumFor s.replicationFactor) V (s.holders i) →
        Covers (quorumFor s'.replicationFactor) V (s'.holders i) := by
      intro V hV
      rw [hfactor]
      exact hV.mono (Finset.inter_subset_right.trans (hgrow i))
    exact hsec.of_covers htablet hstate (fun _ => hmono) fun _ _ _ => hmono
  answered := by
    rw [hreads]
    intro r hr
    refine (h.answered r hr).of_holders hfactor fun _ i => ?_
    exact Finset.sdiff_subset_sdiff le_rfl (hgrow i)

theorem Consistent.erase (h : Consistent s) (hstaged : Staged s) (hx : x ∈ s.erasable) :
    Consistent { s with holders := fun i => (s.holders i).erase x } := by
  cases htr : s.tablet.transition with
  | none => simp [State.erasable, htr] at hx
  | some info =>
    obtain ⟨l, p, hmove⟩ := hstaged.moves info htr
    have hlnext : l ∉ info.next := by
      rw [hmove.next]
      simp [hmove.ne]
    have hkeep : ∀ {q : ℕ} {V H : Finset α}, x ∉ V → Covers q V H → Covers q V (H.erase x) := by
      intro q V H hV hH
      refine hH.mono fun y hy => Finset.mem_erase.mpr ⟨?_, (Finset.mem_inter.mp hy).2⟩
      rintro rfl
      exact hV (Finset.mem_inter.mp hy).1
    -- The stage decides which replica sets are in use, and whose data is deleted.
    have hcases : (info.stage.keepsOld = true → x ∉ s.tablet.replicas) ∧
        (info.stage.usesNew = true ∨ info.stage = .streaming → x ∉ info.next) := by
      refine ⟨fun hold => ?_, fun hnew => ?_⟩
      · rw [erasable_of_keepsOld htr hmove hold hx]
        exact hmove.notMem
      · rw [erasable_of_usesNew htr hmove hnew hx]
        exact hlnext
    refine ⟨?_, ?_, ?_⟩
    · intro i w hw hactive y hy
      obtain ⟨hmem, hheld⟩ := h.acks i w hw hactive y hy
      refine ⟨hmem, ?_⟩
      by_cases hyx : y = x
      · exact .inr (hyx ▸ hx)
      · exact hheld.imp_left fun hheld => Finset.mem_erase.mpr ⟨hyx, hheld⟩
    · intro i hi
      refine (h.secured i hi).of_covers rfl rfl (fun hold => hkeep (hcases.1 (hold info htr))) ?_
      intro info' hinfo' hnew
      cases htr.symm.trans hinfo'
      exact hkeep (hcases.2 hnew)
    · intro r hr
      refine (h.answered r hr).of_holders rfl fun hactive i y hy => ?_
      obtain ⟨hyV, hyH⟩ := Finset.mem_sdiff.mp hy
      refine Finset.mem_sdiff.mpr ⟨hyV, fun hheld => hyH (Finset.mem_erase.mpr ⟨?_, hheld⟩)⟩
      rintro rfl
      obtain ⟨sel, hsel, hview⟩ := (allows_iff htr).mp
        (hstaged.allowed _ (hstaged.reads r hr hactive))
      have hview : r.view = s.tablet.select info sel := hview
      rw [hview] at hyV
      cases hread : sel.2 with
      | previous =>
        refine hcases.1 (keepsOld_of_selector hsel hread) ?_
        simpa [select, hread] using hyV
      | next =>
        refine hcases.2 (.inl (usesNew_of_selector hsel hread)) ?_
        simpa [select, hread] using hyV

/-! ## Updates of the tablet -/

theorem Consistent.of_tablet (h : Consistent s)
    (hfactor : s'.replicationFactor = s.replicationFactor) (hholders : s'.holders = s.holders)
    (hwrites : s'.writes = s.writes) (hreads : s'.reads = s.reads)
    (herasable : ∀ w ∈ s.writes, w.progress = .active → ∀ x ∈ w.view.natural ∪ w.view.pending,
      x ∈ s.erasable → x ∈ s'.erasable)
    (hsecured : ∀ i, Secured s i → Secured s' i) : Consistent s' where
  acks := by
    rw [hwrites, hholders]
    intro i w hw hactive x hx
    obtain ⟨hmem, hheld⟩ := h.acks i w hw hactive x hx
    exact ⟨hmem, hheld.imp_right (herasable w (mem_of_getElem? hw) hactive x hmem)⟩
  secured := by
    intro i hi
    rw [State.isAcknowledged, hwrites] at hi
    exact hsecured i (h.secured i hi)
  answered := by
    rw [hreads]
    intro r hr
    refine (h.answered r hr).of_holders hfactor fun _ i => ?_
    rw [hholders]

section

variable {stage' : Stage} {barrier : Bool} (h : Follows stage (.setStage stage') barrier)

include h

theorem Follows.keepsOld (hold : stage'.keepsOld = true) :
    stage.keepsOld = true := by
  cases h <;> first | rfl | exact hold

theorem Follows.usesNew (hnew : stage'.usesNew = true) :
    stage.usesNew = true ∨ stage = .streaming ∧ stage' = .writeBothReadNew := by
  cases h <;> first | exact .inl rfl | exact .inr ⟨rfl, rfl⟩ | cases hnew

end

section

variable (h : Consistent s) (hstaged : Staged s) (hinfo : s.tablet.transition = some info)

include h hstaged hinfo

theorem Consistent.applyUpdate {update : Update}
    (hcompleted : Completed info.stage update s.tabletState ts) :
    Consistent (State.applyUpdate { s with tabletState := ts } info update) := by
  obtain ⟨l, p, hmove⟩ := hstaged.moves info hinfo
  obtain ⟨barrier, hfollows, hbarrier⟩ := hcompleted.follows
  have honly : barrier = true → ∀ w ∈ s.writes, w.progress = .active →
      w.view = s.tablet.select info
        (info.stage.selectorForWrites, info.stage.selectorForReads) := by
    intro hb w hw hactive
    obtain ⟨version, hversion⟩ := hbarrier hb
    have hview := hstaged.succeeded info version hinfo hversion _ (hstaged.writes w hw hactive)
    rw [← view_eq_select hinfo]
    exact hview
  cases update with
  | setStage stage =>
    refine h.of_tablet rfl rfl rfl rfl ?_ fun i hsec => ?_
    · intro w _ _ x _ hx
      rw [State.erasable, hinfo] at hx
      rw [State.erasable]
      revert hx
      dsimp only [State.applyUpdate, State.setTablet]
      generalize info.stage = stage' at hfollows
      cases hfollows <;> first | exact id | simp
    · refine ⟨fun hold => ?_, ?_, ?_, ?_⟩
      · refine hsec.old fun info' hinfo' => ?_
        cases hinfo.symm.trans hinfo'
        exact hfollows.keepsOld (hold _ rfl)
      · intro info' hinfo' hnew
        cases hinfo'
        obtain hused | ⟨hstage, hnew⟩ := hfollows.usesNew hnew
        · exact hsec.new info hinfo hused
        · obtain ⟨held, hheld⟩ := hcompleted.copied (congrArg Update.setStage hnew)
          exact hsec.copied info held hinfo hstage hheld
      all_goals
        intro info' held hinfo' hstage hrunning
        cases hinfo'
        have hidle : ts.streaming = .idle := by
          rw [hcompleted.streaming]
          refine hstaged.streaming fun info' hinfo' => ?_
          rw [← Option.some.inj (hinfo.symm.trans hinfo'), ← hstage]
          exact hfollows.rank_lt
        cases hidle.symm.trans hrunning
  | delTransition =>
    obtain ⟨hstage, rfl⟩ := hfollows.of_delTransition
    refine h.of_tablet rfl rfl rfl rfl ?_ fun i hsec => ?_
    · intro w hw hactive x hmem hx
      have hxp := erasable_of_keepsOld hinfo hmove (by rw [hstage]; rfl) hx
      rw [honly rfl w hw hactive, hstage, hxp] at hmem
      simp [select, Stage.selectorForWrites, hmove.notMem] at hmem
    · refine ⟨fun _ => hsec.old fun info' hinfo' => ?_, by rintro _ ⟨⟩, by rintro _ _ ⟨⟩,
        by rintro _ _ ⟨⟩⟩
      rw [← Option.some.inj (hinfo.symm.trans hinfo'), hstage]
      rfl
  | setReplicas =>
    obtain ⟨hstage, rfl⟩ := hfollows.of_setReplicas
    refine h.of_tablet rfl rfl rfl rfl ?_ fun i hsec => ?_
    · intro w hw hactive x hmem hx
      have hxl := erasable_of_usesNew hinfo hmove (.inl (by rw [hstage]; rfl)) hx
      rw [honly rfl w hw hactive, hstage, hxl] at hmem
      simp [select, Stage.selectorForWrites, hmove.next, hmove.ne] at hmem
    · exact ⟨fun _ => hsec.new info hinfo (by rw [hstage]; rfl), by rintro _ ⟨⟩,
        by rintro _ _ ⟨⟩, by rintro _ _ ⟨⟩⟩

theorem Consistent.started (hstarted : Started info.stage s.version
      (fun i => decide ((s.tablet.leaving info ∩ s.holders i).Nonempty)) s.tabletState ts) :
    Consistent { s with tabletState := ts } := by
  obtain ⟨l, p, hmove⟩ := hstaged.moves info hinfo
  refine h.of_tablet rfl rfl rfl rfl (fun _ _ _ _ _ hx => hx) fun i hsec => ?_
  obtain hsame | ⟨hstage, hrunning⟩ := hstarted.streaming
  · refine ⟨hsec.old, hsec.new, ?_, ?_⟩
    · intro info' held hinfo' hstage hrun
      exact hsec.streamed info' held hinfo' hstage (hsame.symm.trans hrun)
    · intro info' held hinfo' hstage hdone
      exact hsec.copied info' held hinfo' hstage (hsame.symm.trans hdone)
  · refine ⟨hsec.old, hsec.new, ?_, ?_⟩
    · intro info' held hinfo' _ hrun
      cases hinfo.symm.trans hinfo'
      cases hrunning.symm.trans hrun
      by_cases hl : l ∈ s.holders i
      · refine .inl (decide_eq_true ⟨l, ?_⟩)
        rw [hmove.leaving]
        exact Finset.mem_inter.mpr ⟨Finset.mem_singleton_self l, hl⟩
      · refine .inr ?_
        rw [hmove.next]
        refine Covers.replace (hsec.old fun info' hinfo' => ?_) hmove.mem hl
        rw [← Option.some.inj (hinfo.symm.trans hinfo'), hstage]
        rfl
    · intro info' held _ _ hdone
      exact absurd (hrunning.symm.trans hdone) (fun h => nomatch h)

end

variable {held : ℕ → Bool}

theorem Consistent.streamingDone (h : Consistent s) (hstaged : Staged s)
    (hinfo : s.tablet.transition = some info) (hrunning : s.tabletState.streaming = .running held) :
    Consistent { s with
      tabletState := { s.tabletState with streaming := .succeeded held }
      holders := fun i =>
        if held i then s.holders i ∪ info.pendingReplica.toFinset else s.holders i } := by
  obtain ⟨l, p, hmove⟩ := hstaged.moves info hinfo
  have hgrow : ∀ i, s.holders i ⊆
      if held i then s.holders i ∪ info.pendingReplica.toFinset else s.holders i := by
    intro i
    split
    · exact Finset.subset_union_left
    · exact le_rfl
  have hdone : Consistent { s with
      holders := fun i =>
        if held i then s.holders i ∪ info.pendingReplica.toFinset else s.holders i } :=
    h.of_grow rfl rfl rfl rfl rfl hgrow
  refine hdone.of_tablet rfl rfl rfl rfl (fun _ _ _ _ _ hx => hx) fun i hsec => ?_
  refine ⟨hsec.old, hsec.new, (fun _ _ _ _ h => nomatch h), ?_⟩
  intro info' held' hinfo' hstage _
  cases hinfo.symm.trans hinfo'
  obtain hheld | hnew := hsec.streamed info held hinfo hstage hrunning
  · have hold := hsec.old fun info' hinfo' => by
      rw [← Option.some.inj (hinfo.symm.trans hinfo'), hstage]
      rfl
    rw [hmove.next]
    refine hold.copy le_rfl ?_
    change p ∈ if held i then s.holders i ∪ info.pendingReplica.toFinset else s.holders i
    rw [if_pos hheld, hmove.pendingReplica]
    simp
  · exact hnew

/-! ## Requests -/

theorem Consistent.setWrite (h : Consistent s)
    (hacks : w.progress = .active → ∀ x ∈ w.acks, x ∈ w.view.natural ∪ w.view.pending ∧
      (x ∈ s.holders i ∨ x ∈ s.erasable)) (hsecured : w.progress = .succeeded → Secured s i) :
    Consistent { s with writes := s.writes.set i w } where
  acks := by
    intro j w' hw' hactive x hx
    rw [getElem?_set] at hw'
    split at hw'
    next hij =>
      subst hij
      split at hw'
      · cases hw'
        exact hacks hactive x hx
      · cases hw'
    next => exact h.acks j w' hw' hactive x hx
  secured := by
    intro j hj
    refine Secured.of_covers (s := s) ?_ rfl rfl (fun _ => id) fun _ _ _ => id
    rw [State.isAcknowledged, getElem?_set] at hj
    split at hj
    next hij =>
      subst hij
      split at hj
      · exact hsecured (by simpa using hj)
      · cases hj
    next => exact h.secured j hj
  answered := fun r hr => (h.answered r hr).of_holders rfl fun _ _ => le_rfl

theorem Consistent.startWrite (h : Consistent s) {v : View α} :
    Consistent { s with writes := s.writes ++ [⟨version, v, ∅, .active⟩] } where
  acks := by
    intro j w hw hactive x hx
    rw [getElem?_append] at hw
    split at hw
    · exact h.acks j w hw hactive x hx
    · rw [mem_singleton.mp (mem_of_getElem? hw)] at hx
      cases hx
  secured := by
    intro j hj
    refine Secured.of_covers (s := s) (h.secured j ?_) rfl rfl (fun _ => id) fun _ _ _ => id
    rw [State.isAcknowledged, getElem?_append] at hj
    split at hj
    · exact hj
    · obtain ⟨w, hw, hprogress⟩ := (Option.any_eq_true _ _).mp hj
      rw [mem_singleton.mp (mem_of_getElem? hw)] at hprogress
      cases hprogress
  answered := fun r hr => (h.answered r hr).of_holders rfl fun _ _ => le_rfl

theorem Consistent.of_reads (h : Consistent s) {reads : List (ReadRequest α)}
    (hreads : ∀ r ∈ reads, r ∈ s.reads ∨ Answered s r) : Consistent { s with reads } where
  acks := h.acks
  secured := fun i hi => (h.secured i hi).of_covers rfl rfl (fun _ => id) fun _ _ _ => id
  answered := fun r hr =>
    ((hreads r hr).elim (h.answered r) id).of_holders rfl fun _ _ => le_rfl

variable {e : ℕ × View α}

theorem Answered.start (h : Consistent s) (hstaged : Staged s) (he : e ∈ s.inUse) :
    Answered s ⟨e.1, e.2, s.isAcknowledged, [], .active⟩ where
  distinct := nodup_nil
  asked := fun _ h => nomatch h
  active := fun _ i hi => by
    have hcovers := (h.secured i hi).covers_reading (hstaged.allowed e he)
    rw [show ReadRequest.missed ⟨e.1, e.2, s.isAcknowledged, [], .active⟩ i = ∅ from rfl,
      Finset.empty_union]
    exact hcovers
  succeeded := fun h => nomatch h

theorem Answered.reply (h : Answered s r) (hactive : r.progress = .active) (hx : x ∈ r.view.reading)
    (hnew : x ∉ r.replies.map Prod.fst) :
    Answered s { r with replies := (x, fun i => decide (x ∈ s.holders i)) :: r.replies } where
  distinct := nodup_cons.mpr ⟨hnew, h.distinct⟩
  asked := forall_mem_cons.mpr ⟨hx, h.asked⟩
  active := fun _ i hi => by
    refine lt_of_le_of_lt (Finset.card_le_card fun y hy => ?_) (h.active hactive i hi)
    obtain hy | hy := Finset.mem_union.mp hy
    · unfold ReadRequest.missed at hy
      by_cases hheld : x ∈ s.holders i
      · rw [filter_cons_of_neg (by simp [hheld])] at hy
        exact Finset.mem_union_left _ hy
      · rw [filter_cons_of_pos (by simp [hheld]), map_cons, toFinset_cons] at hy
        obtain rfl | hy := Finset.mem_insert.mp hy
        · exact Finset.mem_union_right _ (Finset.mem_sdiff.mpr ⟨hx, hheld⟩)
        · exact Finset.mem_union_left _ hy
    · exact Finset.mem_union_right _ hy
  succeeded := fun hdone => by
    cases hactive.symm.trans hdone

variable {progress : Progress}

theorem Answered.finish (h : Answered s r) (hactive : r.progress = .active)
    (hne : progress ≠ .active)
    (hquorum : progress = .succeeded → quorumFor s.replicationFactor ≤ r.replies.length) :
    Answered s { r with progress } where
  distinct := h.distinct
  asked := h.asked
  active := fun hstill => absurd hstill hne
  succeeded := fun hdone i hi => by
    by_contra hnone
    push Not at hnone
    have hall : r.replies.filter (fun e => !e.2 i) = r.replies := by
      rw [filter_eq_self]
      intro e he
      simpa using hnone e he
    have hmissed : (r.missed i).card = r.replies.length := by
      rw [ReadRequest.missed, hall, toFinset_card_of_nodup h.distinct, length_map]
    have hlt := h.active hactive i hi
    have hle := Finset.card_le_card
      (show r.missed i ⊆ r.missed i ∪ (r.view.reading \ s.holders i) from
        Finset.subset_union_left)
    have hquorum := hquorum hdone
    omega

/-! ## Whole runs -/

structure Invariant (s : State α) : Prop where
  pos : s.replicationFactor ≠ 0
  staged : Staged s
  consistent : Consistent s

theorem staged_setBarrier (h : Staged s) {holder : Holder ℕ} {inUse : List (ℕ × View α)}
    (hrunning : s.tabletState.barriers stage = .running version)
    (hended : ∀ version', holder ≠ .running version') (hsub : ∀ e ∈ inUse, e ∈ s.inUse)
    (hwrites : ∀ w ∈ s.writes, w.progress = .active → (w.version, w.view) ∈ inUse)
    (hreads : ∀ r ∈ s.reads, r.progress = .active → (r.version, r.view) ∈ inUse)
    (hsucceeded : ∀ info version', s.tablet.transition = some info → info.stage = stage →
      holder = .succeeded version' → ∀ e ∈ inUse, e.2 = s.tablet.view) :
    Staged { s with
      tabletState := { s.tabletState with
        barriers := Function.update s.tabletState.barriers stage holder }
      inUse } := by
  refine h.of_tabletState hsub hwrites hreads ?_ ?_ ?_ (fun h _ => h)
  · intro info version' hinfo hrun
    dsimp only at hrun
    by_cases hstage : info.stage = stage
    · rw [hstage, update_self] at hrun
      exact absurd hrun (hended version')
    · rw [update_of_ne hstage] at hrun
      exact h.running info version' hinfo hrun
  · intro info version' hinfo hdone e he
    dsimp only at hdone
    by_cases hstage : info.stage = stage
    · rw [hstage, update_self] at hdone
      exact hsucceeded info version' hinfo hstage hdone e he
    · rw [update_of_ne hstage] at hdone
      exact h.succeeded info version' hinfo hdone e (hsub e he)
  · intro stage' hidle _
    have hne : stage' ≠ stage := by
      rintro rfl
      cases hrunning.symm.trans hidle
    exact (update_of_ne hne ..).trans hidle

theorem staged_barrierDone (h : Staged s)
    (hrunning : s.tabletState.barriers stage = .running version)
    (hnone : s.noneBefore version = true) :
    Staged { s with
      tabletState := { s.tabletState with
        barriers := Function.update s.tabletState.barriers stage (.succeeded version) }
      inUse := s.inUse.filter fun e => decide (version ≤ e.1) } := by
  obtain ⟨hwrites, hreads⟩ := Bool.and_eq_true_iff.mp hnone
  rw [all_eq_true] at hwrites hreads
  refine staged_setBarrier h hrunning (fun _ h => nomatch h)
    (fun e he => mem_of_mem_filter he) ?_ ?_ ?_
  · intro w hw hactive
    refine mem_filter.mpr ⟨h.writes w hw hactive, decide_eq_true ?_⟩
    exact (of_decide_eq_true (hwrites w hw)).resolve_left fun hne => hne hactive
  · intro r hr hactive
    refine mem_filter.mpr ⟨h.reads r hr hactive, decide_eq_true ?_⟩
    exact (of_decide_eq_true (hreads r hr)).resolve_left fun hne => hne hactive
  · intro info version' hinfo hstage _ e he
    obtain ⟨he, hle⟩ := mem_filter.mp he
    have hversion := h.running info version hinfo (hstage ▸ hrunning)
    obtain ⟨hlatest, hview⟩ := h.latest e he
    refine hview (le_antisymm hlatest ?_)
    rw [← hversion]
    exact of_decide_eq_true hle

theorem staged_started (h : Staged s) (hinfo : s.tablet.transition = some info)
    (hstarted : Started info.stage s.version held s.tabletState ts) :
    Staged { s with tabletState := ts } := by
  have hcurrent : ∀ info', s.tablet.transition = some info' → info' = info := fun info' hinfo' =>
    Option.some.inj (hinfo'.symm.trans hinfo)
  refine h.of_tabletState (fun e he => he) h.writes h.reads ?_ ?_ ?_ ?_
  · intro info' version hinfo' hrun
    rw [hcurrent info' hinfo'] at hrun
    obtain hsame | hnew := hstarted.barrier
    · exact h.running info version hinfo (hsame.symm.trans hrun)
    · cases hnew.symm.trans hrun
      rfl
  · intro info' version hinfo' hdone
    rw [hcurrent info' hinfo'] at hdone
    obtain hsame | hnew := hstarted.barrier
    · exact h.succeeded info version hinfo (hsame.symm.trans hdone)
    · cases hnew.symm.trans hdone
  · intro stage hidle hne
    rw [hstarted.other stage fun heq => hne info hinfo heq.symm]
    exact hidle
  · intro hidle hne
    obtain hsame | ⟨hstage, -⟩ := hstarted.streaming
    · exact hsame.trans hidle
    · exact absurd hstage (hne info hinfo)

theorem invariant_failover (h : Invariant s) : Invariant { s with tabletState := .fresh } where
  pos := h.pos
  staged := h.staged.of_tabletState (fun _ he => he) h.staged.writes h.staged.reads
    (fun _ _ _ h => nomatch h) (fun _ _ _ h => nomatch h) (fun _ _ _ => rfl) (fun _ _ => rfl)
  consistent := h.consistent.of_tablet rfl rfl rfl rfl (fun _ _ _ _ _ hx => hx) fun _ hsec =>
    ⟨hsec.old, hsec.new, (fun _ _ _ _ h => nomatch h), (fun _ _ _ _ h => nomatch h)⟩

theorem invariant_startMigration (h : Invariant s) {src dst : α}
    (hnone : s.tablet.transition = none) (hsrc : src ∈ s.tablet.replicas)
    (hdst : dst ∉ s.tablet.replicas) :
    Invariant (s.setTablet { s.tablet with
      transition :=
        some ⟨.allowWriteBothReadOld, s.tablet.getNewReplicas src dst, some dst⟩ }) where
  pos := h.pos
  staged := by
    have hno : ∀ info, s.tablet.transition ≠ some info := fun info hinfo =>
      nomatch hnone.symm.trans hinfo
    refine h.staged.setTablet s.tabletState h.staged.card ?_ ?_ ?_ ?_
    · intro info hinfo
      cases hinfo
      exact ⟨src, dst, hsrc, hdst, rfl, rfl⟩
    · intro e he
      refine ⟨(.previous, .previous), mem_singleton_self _, ?_⟩
      exact (allows_iff_of_none hnone).mp (h.staged.allowed e he)
    · exact fun stage _ => h.staged.idle stage fun info hinfo => absurd hinfo (hno info)
    · exact fun _ => h.staged.streaming fun info hinfo => absurd hinfo (hno info)
  consistent := by
    refine h.consistent.of_tablet rfl rfl rfl rfl ?_ fun i hsec => ?_
    · intro w _ _ x _ hx
      rw [State.erasable, hnone] at hx
      cases hx
    · refine ⟨fun _ => hsec.old fun info hinfo => ?_, ?_, ?_, ?_⟩
      · cases hnone.symm.trans hinfo
      all_goals
        intro info
      · intro hinfo hnew
        cases hinfo
        cases hnew
      · intro held hinfo hstage
        cases hinfo
        cases hstage
      · intro held hinfo hstage
        cases hinfo
        cases hstage

theorem invariant_handle (h : Invariant s) (hinfo : s.tablet.transition = some info)
    (hs' : s.step .handle = some s') : Invariant s' := by
  have hhandled := handled_handleTabletMigration s.tablet info s.excluded s.version
    (fun i => decide ((s.tablet.leaving info ∩ s.holders i).Nonempty)) s.tabletState
  rw [State.step, hinfo, Option.map_some] at hs'
  cases hs'
  dsimp only
  generalize handleTabletMigration s.tablet info s.excluded s.version
    (fun i => decide ((s.tablet.leaving info ∩ s.holders i).Nonempty)) s.tabletState = out
    at hhandled
  cases hhandled with
  | started hstarted =>
    exact ⟨h.pos, staged_started h.staged hinfo hstarted,
      h.consistent.started h.staged hinfo hstarted⟩
  | @completed ts update hcompleted =>
    refine ⟨?_, h.staged.applyUpdate hinfo hcompleted,
      h.consistent.applyUpdate h.staged hinfo hcompleted⟩
    cases update <;> exact h.pos

theorem staged_background (h : Staged s) (hbarriers : ts.barriers = s.tabletState.barriers)
    (hstreaming : s.tabletState.streaming = .idle → ts.streaming = .idle) :
    Staged { s with tabletState := ts, holders } := by
  have hstate : Staged { s with tabletState := ts } := by
    refine h.of_tabletState (fun _ he => he) h.writes h.reads ?_ ?_ ?_ fun hidle _ =>
      hstreaming hidle
    · rw [hbarriers]
      exact h.running
    · rw [hbarriers]
      exact h.succeeded
    · rw [hbarriers]
      exact fun _ hidle _ => hidle
  exact hstate.of_requests rfl rfl rfl rfl rfl h.writes h.reads

theorem staged_setWrite (h : Staged s) {w' : WriteRequest α} (hw : s.writes[i]? = some w)
    (hactive : w.progress = .active) (hversion : w'.version = w.version)
    (hview : w'.view = w.view) : Staged { s with holders, writes := s.writes.set i w' } := by
  refine h.of_requests rfl rfl rfl rfl rfl (fun x hx hprogress => ?_) h.reads
  obtain hx | rfl := mem_or_eq_of_mem_set hx
  · exact h.writes x hx hprogress
  · rw [hversion, hview]
    exact h.writes w (mem_of_getElem? hw) hactive

variable {r' : ReadRequest α}

theorem staged_setRead (h : Staged s) (hr : s.reads[i]? = some r)
    (hactive : r.progress = .active) (hversion : r'.version = r.version)
    (hview : r'.view = r.view) : Staged { s with reads := s.reads.set i r' } := by
  refine h.of_requests rfl rfl rfl rfl rfl h.writes fun x hx hprogress => ?_
  obtain hx | rfl := mem_or_eq_of_mem_set hx
  · exact h.reads x hx hprogress
  · rw [hversion, hview]
    exact h.reads r (mem_of_getElem? hr) hactive

theorem Invariant.of_grow (h : Invariant s) (hgrow : ∀ i, s.holders i ⊆ holders i) :
    Invariant { s with holders } where
  pos := h.pos
  staged := h.staged.of_requests rfl rfl rfl rfl rfl h.staged.writes h.staged.reads
  consistent := h.consistent.of_grow rfl rfl rfl rfl rfl hgrow

theorem subset_update_insert (holders : ℕ → Finset α) (i : ℕ) (x : α) (j : ℕ) :
    holders j ⊆ Function.update holders i (insert x (holders i)) j := by
  by_cases hij : j = i
  · rw [hij, update_self]
    exact Finset.subset_insert _ _
  · rw [update_of_ne hij]

section

variable (h : Invariant s)

include h

theorem invariant_ackWrite (hw : s.writes[i]? = some w)
    (hactive : w.progress = .active) (hx : x ∈ w.view.natural ∪ w.view.pending) :
    Invariant { s with
      holders := Function.update s.holders i (insert x (s.holders i))
      writes := s.writes.set i { w with acks := insert x w.acks } } := by
  refine ⟨h.pos, staged_setWrite h.staged hw hactive (by rfl) (by rfl), ?_⟩
  have hgrow := h.of_grow (subset_update_insert s.holders i x)
  refine hgrow.consistent.setWrite (fun _ y hy => ?_) fun hdone => ?_
  · obtain rfl | hy := Finset.mem_insert.mp hy
    · refine ⟨hx, .inl ?_⟩
      dsimp only
      rw [update_self]
      exact Finset.mem_insert_self _ _
    · exact hgrow.consistent.acks i w hw hactive y hy
  · cases hactive.symm.trans hdone

theorem invariant_finishWrite (hw : s.writes[i]? = some w)
    (hactive : w.progress = .active) (hne : progress ≠ .active)
    (hquorum : progress = .succeeded → quorumFor s.replicationFactor + w.view.pending.card ≤
      w.acks.card) : Invariant { s with writes := s.writes.set i { w with progress } } := by
  refine ⟨h.pos, staged_setWrite h.staged hw hactive (by rfl) (by rfl), ?_⟩
  refine h.consistent.setWrite (fun hstill => absurd hstill hne) fun hdone => ?_
  exact secured_of_acks h.staged h.pos
    (h.staged.allowed _ (h.staged.writes w (mem_of_getElem? hw) hactive))
    (h.consistent.acks i w hw hactive) (hquorum hdone)

theorem invariant_startRead (he : e ∈ s.inUse) :
    Invariant { s with reads := s.reads ++ [⟨e.1, e.2, s.isAcknowledged, [], .active⟩] } := by
  refine ⟨h.pos, ?_, h.consistent.of_reads fun r hr => ?_⟩
  · refine h.staged.of_requests rfl rfl rfl rfl rfl h.staged.writes fun r hr hactive => ?_
    obtain hr | hr := mem_append.mp hr
    · exact h.staged.reads r hr hactive
    · rw [mem_singleton.mp hr]
      exact he
  · refine (mem_append.mp hr).imp_right fun hr => ?_
    rw [mem_singleton.mp hr]
    exact .start h.consistent h.staged he

theorem invariant_setRead (hr : s.reads[i]? = some r)
    (hactive : r.progress = .active) (hversion : r'.version = r.version)
    (hview : r'.view = r.view) (hanswered : Answered s r → Answered s r') :
    Invariant { s with reads := s.reads.set i r' } := by
  refine ⟨h.pos, staged_setRead h.staged hr hactive hversion hview,
    h.consistent.of_reads fun x hx => ?_⟩
  obtain hx | rfl := mem_or_eq_of_mem_set hx
  · exact .inl hx
  · exact .inr (hanswered (h.consistent.answered r (mem_of_getElem? hr)))

theorem Invariant.step {a : Action α} (hs' : s.step a = some s') :
    Invariant s' := by
  cases a with
  | startMigration src dst =>
    obtain ⟨⟨hnone, hsrc, hdst⟩, rfl⟩ := Option.ite_some_none_eq_some.mp hs'
    exact invariant_startMigration h (Option.isNone_iff_eq_none.mp hnone) hsrc hdst
  | handle =>
    cases hinfo : s.tablet.transition with
    | none =>
      rw [State.step, hinfo] at hs'
      cases hs'
    | some info => exact invariant_handle h hinfo hs'
  | failover =>
    cases hs'
    exact invariant_failover h
  | barrierDone stage =>
    rw [State.step] at hs'
    split at hs'
    next version hrunning =>
      obtain ⟨hnone, rfl⟩ := Option.ite_some_none_eq_some.mp hs'
      exact ⟨h.pos, staged_barrierDone h.staged hrunning hnone,
        h.consistent.of_grow rfl rfl rfl rfl rfl fun _ => le_rfl⟩
    next => cases hs'
  | barrierFailed stage =>
    rw [State.step] at hs'
    split at hs'
    next version hrunning =>
      cases hs'
      refine ⟨h.pos, ?_, h.consistent.of_grow rfl rfl rfl rfl rfl fun _ => le_rfl⟩
      exact staged_setBarrier h.staged hrunning (fun _ h => nomatch h) (fun _ he => he)
        h.staged.writes h.staged.reads fun _ _ _ _ h => nomatch h
    next => cases hs'
  | streamingDone =>
    rw [State.step] at hs'
    split at hs'
    next held info hrunning hinfo =>
      cases hs'
      refine ⟨h.pos, staged_background h.staged (by rfl) fun hidle => ?_,
        h.consistent.streamingDone h.staged hinfo hrunning⟩
      cases hrunning.symm.trans hidle
    next => cases hs'
  | streamingFailed =>
    rw [State.step] at hs'
    split at hs'
    next held hrunning =>
      cases hs'
      refine ⟨h.pos, staged_background h.staged (by rfl) fun hidle => ?_, ?_⟩
      · cases hrunning.symm.trans hidle
      · exact h.consistent.of_tablet rfl rfl rfl rfl (fun _ _ _ _ _ hx => hx) fun _ hsec =>
          ⟨hsec.old, hsec.new, (fun _ _ _ _ h => nomatch h), (fun _ _ _ _ h => nomatch h)⟩
    next => cases hs'
  | cleanupDone | cleanupFailed =>
    rw [State.step] at hs'
    split at hs'
    next =>
      cases hs'
      exact ⟨h.pos, staged_background h.staged (by rfl) (fun hidle => hidle),
        h.consistent.of_grow rfl rfl rfl rfl rfl fun _ => le_rfl⟩
    next => cases hs'
  | erase x =>
    obtain ⟨hx, rfl⟩ := Option.ite_some_none_eq_some.mp hs'
    exact ⟨h.pos, h.staged.of_requests rfl rfl rfl rfl rfl h.staged.writes h.staged.reads,
      h.consistent.erase h.staged hx⟩
  | setExcluded excluded =>
    cases hs'
    exact ⟨h.pos, h.staged.of_requests rfl rfl rfl rfl rfl h.staged.writes h.staged.reads,
      h.consistent.of_grow rfl rfl rfl rfl rfl fun _ => le_rfl⟩
  | store j x =>
    obtain ⟨-, rfl⟩ := Option.ite_some_none_eq_some.mp hs'
    exact h.of_grow (subset_update_insert s.holders j x)
  | startWrite k =>
    obtain ⟨e, he, rfl⟩ := Option.map_eq_some_iff.mp hs'
    refine ⟨h.pos, ?_, h.consistent.startWrite⟩
    refine h.staged.of_requests rfl rfl rfl rfl rfl (fun w hw hactive => ?_) h.staged.reads
    obtain hw | hw := mem_append.mp hw
    · exact h.staged.writes w hw hactive
    · rw [mem_singleton.mp hw]
      exact mem_of_getElem? he
  | ackWrite j x =>
    obtain ⟨w, hw, hs'⟩ := Option.bind_eq_some_iff.mp hs'
    obtain ⟨⟨hactive, hx, -⟩, rfl⟩ := Option.ite_some_none_eq_some.mp hs'
    exact invariant_ackWrite h hw hactive hx
  | finishWrite j progress =>
    obtain ⟨w, hw, hs'⟩ := Option.bind_eq_some_iff.mp hs'
    obtain ⟨⟨hactive, hne, hquorum⟩, rfl⟩ := Option.ite_some_none_eq_some.mp hs'
    exact invariant_finishWrite h hw hactive hne hquorum
  | startRead k =>
    obtain ⟨e, he, rfl⟩ := Option.map_eq_some_iff.mp hs'
    exact invariant_startRead h (mem_of_getElem? he)
  | reply j x =>
    obtain ⟨r, hr, hs'⟩ := Option.bind_eq_some_iff.mp hs'
    obtain ⟨⟨hactive, hx, hnew, -⟩, rfl⟩ := Option.ite_some_none_eq_some.mp hs'
    exact invariant_setRead h hr hactive rfl rfl fun hr => hr.reply hactive hx hnew
  | finishRead j progress =>
    obtain ⟨r, hr, hs'⟩ := Option.bind_eq_some_iff.mp hs'
    obtain ⟨⟨hactive, hne, hquorum⟩, rfl⟩ := Option.ite_some_none_eq_some.mp hs'
    exact invariant_setRead h hr hactive rfl rfl fun hr => hr.finish hactive hne hquorum

end

/-- Every write acknowledged at `QUORUM` is seen by every read at `QUORUM` that starts later,
whatever stages of the migration their coordinators know. -/
theorem quorum_read_sees_acknowledged_write {replicas : Finset α} (hn : 1 ≤ replicas.card)
    (hreach : Reaches State.step (fun _ _ => True) (State.initial replicas) s)
    {r : ReadRequest α} (hr : r ∈ s.reads) (hdone : r.progress = .succeeded)
    (hi : r.before i = true) : ∃ e ∈ r.replies, e.2 i = true := by
  have hinv : Invariant s := hreach.invariant
    ⟨Nat.one_le_iff_ne_zero.mp hn, .initial replicas, consistent_initial replicas⟩
    fun s a s' h _ hs' => h.step hs'
  exact (hinv.consistent.answered r hr).succeeded hdone i hi

section

variable {replicas : Finset α} (hn : 1 ≤ replicas.card)
  (hreach : Reaches State.step (fun _ _ => True) (State.initial replicas) s) (he : e ∈ s.inUse)

include hn hreach

theorem invariant_of_reaches : Invariant s :=
  hreach.invariant ⟨Nat.one_le_iff_ne_zero.mp hn, .initial replicas, consistent_initial replicas⟩
    fun _ _ _ h _ hs' => h.step hs'

include he

/-- Whatever stages two coordinators know, those that acknowledge a write at `QUORUM` to one and
those that answer a read at `QUORUM` of the other have a node in common. -/
theorem quorums_in_use_meet {e' : ℕ × View α} (he' : e' ∈ s.inUse) {A B : Finset α}
    (hA : A ⊆ e.2.natural ∪ e.2.pending) (hB : B ⊆ e'.2.reading)
    (hquorum : quorumFor s.replicationFactor + e.2.pending.card ≤ A.card)
    (hquorum' : quorumFor s.replicationFactor ≤ B.card) : (A ∩ B).Nonempty := by
  obtain ⟨hpos, h, -⟩ := invariant_of_reaches hn hreach
  -- a write that only the nodes of `A` have
  have hsecured : Secured { s with holders := fun _ => A } 0 :=
    secured_of_acks (w := ⟨e.1, e.2, A, .active⟩) (staged_background h rfl id) hpos
      (h.allowed e he) (fun x hx => ⟨hA hx, .inl hx⟩) hquorum
  have hcovers := hsecured.covers_reading (h.allowed e' he')
  refine Finset.not_disjoint_iff_nonempty_inter.mp fun hdisjoint => ?_
  have hsub := Finset.subset_sdiff.mpr ⟨hB, hdisjoint.symm⟩
  exact absurd (hquorum'.trans (Finset.card_le_card hsub)) hcovers.not_ge

/-- Cleanup deletes no data of a node that some coordinator may still read from. -/
theorem erasable_not_read : Disjoint s.erasable e.2.reading := by
  have h := (invariant_of_reaches hn hreach).staged
  refine Finset.disjoint_left.mpr fun x hx hread => ?_
  cases htr : s.tablet.transition with
  | none => simp [State.erasable, htr] at hx
  | some info =>
    obtain ⟨l, p, hmove⟩ := h.moves info htr
    obtain ⟨sel, hsel, hview⟩ := (allows_iff htr).mp (h.allowed e he)
    rw [hview] at hread
    cases hsel' : sel.2 with
    | previous =>
      rw [erasable_of_keepsOld htr hmove (keepsOld_of_selector hsel hsel') hx] at hread
      simp [select, hsel', hmove.notMem] at hread
    | next =>
      rw [erasable_of_usesNew htr hmove (.inl (usesNew_of_selector hsel hsel')) hx] at hread
      simp [select, hsel', hmove.next, hmove.ne] at hread

end

/-! ## A read from the new replica -/

namespace Moved

def actions : List (Action ℕ) :=
  [.startWrite 0, .ackWrite 0 0, .ackWrite 0 1, .finishWrite 0 .succeeded, .startMigration 0 3,
    .handle, .barrierDone .allowWriteBothReadOld, .handle,
    .handle, .barrierDone .writeBothReadOld, .handle,
    .handle, .streamingDone, .handle,
    .startRead 0, .reply 0 2, .reply 0 3, .finishRead 0 .succeeded]

def state : State ℕ :=
  (runSteps State.step (fun _ _ => True) (State.initial {0, 1, 2}) actions).get rfl

theorem reaches_state : Reaches State.step (fun _ _ => True) (State.initial {0, 1, 2}) state :=
  reaches_of_runSteps .init (Option.some_get _).symm

def read : ReadRequest ℕ := (state.reads[0]?).get rfl

theorem read_mem : read ∈ state.reads :=
  mem_of_getElem? (i := 0) (Option.some_get _).symm

/-- The new replica was asked, and has the write. -/
theorem read_sees_write_moved :
    read.replies.map Prod.fst = [3, 2] ∧ ∃ e ∈ read.replies, e.2 0 = true :=
  ⟨rfl, quorum_read_sees_acknowledged_write (by decide) reaches_state read_mem rfl rfl⟩

theorem quorums_in_use_meet_moved :
    state.inUse.map Prod.fst = [4, 3, 2] ∧ (({0, 1, 3} : Finset ℕ) ∩ {2, 3}).Nonempty :=
  ⟨rfl, quorums_in_use_meet (by decide) reaches_state (mem_of_getElem? (i := 1) rfl)
    (mem_of_getElem? (i := 0) rfl) (by decide) (by decide) (by decide) (by decide)⟩

def cleaning : State ℕ :=
  (runSteps State.step (fun _ _ => True) state [.handle, .barrierDone .writeBothReadNew, .handle,
    .handle, .barrierDone .useNew, .handle]).get rfl

theorem erasable_not_read_cleaning :
    cleaning.erasable = {0} ∧ Disjoint cleaning.erasable {3, 1, 2} := by
  have hreach : Reaches State.step (fun _ _ => True) (State.initial {0, 1, 2}) cleaning :=
    reaches_of_runSteps reaches_state (Option.some_get _).symm
  exact ⟨rfl, erasable_not_read (by decide) hreach (mem_of_getElem? (i := 0) rfl)⟩

end Moved

end Scylla.Tablet
