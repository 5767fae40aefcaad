import Scylla.Group0.Serializable

/-!
# Careless commands

Every commit that is not careful can be followed by steps that lead to a state that is not
serializable. Together with the serializability of careful runs this says exactly what group 0
depends on.
-/

namespace Scylla.Group0

open List
open Option
open Nat

variable {α : Type} {s : State α}

theorem Invariant.begun_le (h : Invariant s) (n : α) : (s.nodes n).begun ≤ s.log.length :=
  (h.nodes n).choose_spec.begun_le

theorem Invariant.applied_le_begun (h : Invariant s) (n : α) :
    (s.nodes n).applied ≤ (s.nodes n).begun :=
  (h.nodes n).choose_spec.applied_le.trans (h.nodes n).choose_spec.le_begun

variable [DecidableEq α] (gc : ℕ)

theorem step_apply_upTo {n : α} {e : ℕ} (happlied : (s.nodes n).applied ≤ e)
    (hbegun : (s.nodes n).begun ≤ e) (he : e ≤ s.log.length) :
    ∃ tables, step gc s (.apply n 0 (e - (s.nodes n).applied)) =
      some { s with nodes := Function.update s.nodes n ⟨tables, e, e⟩ } := by
  have hsum : (s.nodes n).applied + (e - (s.nodes n).applied) = e := Nat.add_sub_cancel' happlied
  refine ⟨(s.nodes n).tables.apply 0 (segment s.log (s.nodes n).applied
    (e - (s.nodes n).applied)), ?_⟩
  rw [step, hsum, if_pos he, max_eq_right hbegun]

theorem exists_prepareCommand {gc : ℕ} (change : Change) (observed : Option UUID) {id : UUID}
    (h : gc < id.microsTimestamp) : ∃ cmd, prepareCommand gc change observed id = some cmd := by
  rw [prepareCommand, makeGroup0HistoryStateIdMutation, if_pos h]
  exact ⟨_, rfl⟩

omit [DecidableEq α] in
theorem exists_startOperation {n : α} (hbarrier : (s.nodes n).begun ≤ (s.nodes n).applied) :
    ∃ now op, s.startOperation gc n now 0 ⟨.writeMutations, 0⟩ = some op ∧
      op.observedAt = (s.nodes n).applied := by
  -- a time after all state ids in use and after the horizon
  let used := s.log.map (fun cmd => cmd.newStateId.microsTimestamp) ++
    s.operations.map Operation.writeTimestamp
  let observed := (s.nodes n).tables.history.getLastGroup0StateId
  let now := used.sum + observed.microsTimestamp + gc + 1
  have hgen : generateGroup0StateId observed now 0 = UUID.getRandomTimeUUIDFromMicros now 0 := by
    have hlater : ¬(observed ≠ UUID.null ∧ now ≤ observed.microsTimestamp) := by
      omega
    rw [generateGroup0StateId]
    simp only [if_neg hlater]
  have hmicros : (generateGroup0StateId observed now 0).microsTimestamp = now := by
    rw [hgen, UUID.microsTimestamp_getRandomTimeUUIDFromMicros]
  have hfresh : ∀ m ∈ used, m ≠ now := by
    intro m hm heq
    have := le_sum_of_mem hm
    omega
  have hunused : s.Unused (generateGroup0StateId observed now 0) := by
    constructor
    · intro cmd hcmd hid
      refine hfresh cmd.newStateId.microsTimestamp ?_ (hid ▸ hmicros)
      exact mem_append_left _
        (mem_map_of_mem (f := fun c : Group0Command => c.newStateId.microsTimestamp) hcmd)
    · intro op hop hid
      refine hfresh op.writeTimestamp ?_ ?_
      · exact mem_append_right _ (mem_map_of_mem hop)
      · rw [Operation.writeTimestamp, hid, hmicros]
  have hassert : gc < (generateGroup0StateId observed now 0).microsTimestamp := by
    omega
  obtain ⟨cmd, hcmd⟩ := exists_prepareCommand ⟨.writeMutations, 0⟩ (some observed) hassert
  refine ⟨now, ⟨n, (s.nodes n).applied, cmd, .running⟩, ?_, rfl⟩
  rw [State.startOperation, if_pos ⟨hbarrier, hunused⟩, hcmd]
  rfl

variable {cmd : Group0Command}

theorem exists_not_serializable_of_unguarded (h : Invariant s) (n : α)
    (hinv : Invariant { s with log := s.log ++ [cmd] }) (hprev : cmd.prevStateId = none)
    (hle : cmd.newStateId ≤ lastStateId s.log) :
    ∃ s', Reaches (step gc) (fun _ _ => True) { s with log := s.log ++ [cmd] } s' ∧
      ¬Serializable s' := by
  set s₀ : State α := { s with log := s.log ++ [cmd] }
  -- the node applies everything before the command
  have hlen₀ : s.log.length ≤ s₀.log.length := by simp [s₀]
  obtain ⟨tables, happly⟩ := step_apply_upTo gc (s := s₀) (n := n)
    ((h.applied_le_begun n).trans (h.begun_le n)) (h.begun_le n) hlen₀
  set s₁ : State α := { s₀ with nodes := Function.update s₀.nodes n ⟨tables, s.log.length,
    s.log.length⟩ }
  have hinv₁ : Invariant s₁ := hinv.step happly
  have hnode₁ : s₁.nodes n = ⟨tables, s.log.length, s.log.length⟩ := Function.update_self _ _ _
  -- and starts an operation there
  obtain ⟨now, op, hop, hobservedAt⟩ :=
    exists_startOperation gc (s := s₁) (n := n) (by rw [hnode₁])
  rw [hnode₁] at hobservedAt
  obtain ⟨hinv₂, -, -⟩ := hinv₁.started hop
  set s₂ : State α := { s₁ with operations := s₁.operations ++ [op] }
  have hstart : step gc s₁ (.startOperation n now 0 ⟨.writeMutations, 0⟩) = some s₂ := by
    rw [step, hop]
    rfl
  have hmem₂ : op ∈ s₂.operations := mem_append_right _ mem_cons_self
  -- whose command is committed next
  set s₃ : State α := { s₂ with log := s₂.log ++ [op.cmd] }
  have hcommit : step gc s₂ (.commitGuarded s.operations.length) = some s₃ := by
    have hget : s₂.operations[s.operations.length]? = some op := List.getElem?_concat_length
    rw [step, State.commits, hget]
    rfl
  have hinv₃ : Invariant s₃ := hinv₂.step hcommit
  have hnode₃ : s₃.nodes n = ⟨tables, s.log.length, s.log.length⟩ := hnode₁
  have hlen₃ : s₃.log.length = s.log.length + 2 := by simp [s₃, s₂, s₁, s₀]
  obtain ⟨tables', happly'⟩ := step_apply_upTo gc (s := s₃) (n := n) (e := s₃.log.length)
    (by rw [hnode₃, hlen₃]; exact le_add_right _ _)
    (by rw [hnode₃, hlen₃]; exact le_add_right _ _) le_rfl
  set s₄ : State α := { s₃ with nodes := Function.update s₃.nodes n ⟨tables', s₃.log.length,
    s₃.log.length⟩ }
  have hinv₄ : Invariant s₄ := hinv₃.step happly'
  have hnode₄ : s₄.nodes n = ⟨tables', s₃.log.length, s₃.log.length⟩ :=
    Function.update_self _ _ _
  -- both commands take effect
  have hcmdat : s₄.log[s.log.length]? = some cmd := by
    simp [s₄, s₃, s₂, s₁, s₀]
  have hlen : s.log.length + 1 = (s.log ++ [cmd]).length := by simp
  have hopat : s₄.log[s.log.length + 1]? = some op.cmd := by
    rw [hlen]
    exact List.getElem?_concat_length
  have hlast : lastStateId (s.log ++ [cmd]) = lastStateId s.log := by
    have htake : cmd.takesEffect (lastStateId s.log) = true := by
      rw [Group0Command.takesEffect, hprev]
    rw [lastStateId_concat, nextStateId, if_pos htake, max_eq_left hle]
  have hsound := hinv₄.sound op hmem₂
  have htake₄ : s₄.log.take (s.log.length + 1) = s.log ++ [cmd] := by
    rw [hlen]
    exact take_left
  have htake₄' : s₄.log.take s.log.length = s.log := by
    simp [s₄, s₃, s₂, s₁, s₀]
  have hopeffective : effective s₄.log (s.log.length + 1) = true := by
    refine (effective_iff_of_guarded hopat hsound.observed).mpr ?_
    rw [hobservedAt, htake₄, htake₄', hlast]
  have htook : ∀ i, i < s₃.log.length → effective s₄.log i = true → s₄.TookEffect i := by
    intro i hi heffective
    exact ⟨n, (hinv₄.mem_written_iff (by rw [hnode₄]; exact hi)).mpr heffective⟩
  refine ⟨s₄, ?_, fun hserial => ?_⟩
  · exact .step (.step (.step (.step .init trivial happly) trivial hstart) trivial hcommit) trivial
      happly'
  · refine hserial.undisturbed op hmem₂ (s.log.length + 1) hopat
      (htook _ (by omega) hopeffective) s.log.length hobservedAt.le (lt_succ_self _) ?_
    exact htook _ (by omega) (effective_of_unguarded hcmdat hprev)

theorem exists_not_serializable_of_deletes {op : Operation α}
    (hinv : Invariant { s with log := s.log ++ [cmd] }) (hop : op ∈ s.operations)
    (hrunning : op.status = .running) (hin : InEffect s.log op.cmd)
    (heffect : cmd.takesEffect (lastStateId s.log) = true)
    (hdeletes : cmd.historyAppend.Deletes op.cmd.newStateId) :
    ∃ s', Reaches (step gc) (fun _ _ => True) { s with log := s.log ++ [cmd] } s' ∧
      ¬Serializable s' := by
  set s₀ : State α := { s with log := s.log ++ [cmd] }
  -- the node of the operation applies the whole log
  obtain ⟨tables, happly⟩ := step_apply_upTo gc (s := s₀) (n := op.node)
    ((hinv.applied_le_begun op.node).trans (hinv.begun_le op.node)) (hinv.begun_le op.node) le_rfl
  set s₁ : State α := { s₀ with nodes := Function.update s₀.nodes op.node ⟨tables, s₀.log.length,
    s₀.log.length⟩ }
  have hinv₁ : Invariant s₁ := hinv.step happly
  have hnode₁ : s₁.nodes op.node = ⟨tables, s₀.log.length, s₀.log.length⟩ :=
    Function.update_self _ _ _
  have hlen₀ : s₀.log.length = s.log.length + 1 := by simp [s₀]
  obtain ⟨i, hi, hiat, hieffective⟩ := hin
  have hiat₁ : s₁.log[i]? = some op.cmd := (getElem?_concat_of_lt hi).trans hiat
  have hieffective₁ : effective s₁.log i = true := (effective_concat_of_lt hi).trans hieffective
  have hmissing : ¬(s₁.nodes op.node).tables.history.group0HistoryContains op.cmd.newStateId
      = true := by
    intro hcontains
    obtain ⟨p, hp⟩ := hinv₁.nodes op.node
    obtain ⟨-, hkept⟩ :=
      (hp.tables.history.mem_rows_iff hinv₁.proper _).mp (of_decide_eq_true hcontains)
    have hlt : s.log.length < p := by
      have happlied := hp.applied_le
      rw [hnode₁, hlen₀] at happlied
      exact happlied
    exact hkept s.log.length hlt cmd List.getElem?_concat_length
      (effective_concat_length.trans heffect) hdeletes
  have houtcome : s₁.addEntryOutcome op = some .concurrentModification := by
    have happlied : i < (s₁.nodes op.node).applied := by
      rw [hnode₁, hlen₀]
      exact lt_succ_of_lt hi
    rw [State.addEntryOutcome, if_pos ⟨hrunning, i, happlied, hiat₁⟩, if_neg hmissing]
  obtain ⟨k, hk⟩ := mem_iff_getElem?.mp hop
  have hk₁ : s₁.operations[k]? = some op := hk
  set returned : Operation α := { op with status := .returned .concurrentModification }
  have hreturn : step gc s₁ (.returnFrom k) =
      some { s₁ with operations := s₁.operations.set k returned } := by
    rw [step, hk₁, bind_some, houtcome]
    rfl
  refine ⟨_, .step (.step .init trivial happly) trivial hreturn, fun hserial => ?_⟩
  have hmem : returned ∈ s₁.operations.set k returned :=
    mem_set (List.getElem?_eq_some_iff.mp hk₁).1 _
  refine hserial.rejected returned hmem rfl i hiat₁ ⟨op.node, ?_⟩
  refine (hinv₁.mem_written_iff ?_).mpr hieffective₁
  rw [hnode₁, hlen₀]
  exact lt_succ_of_lt hi

theorem step_of_commits {a : Action α} (h : s.commits gc a = some cmd) :
    step gc s a = some { s with log := s.log ++ [cmd] } := by
  cases a with
  | commitGuarded k => rw [step, h, map_some]
  | commitUnguarded now random change => rw [step, h, map_some]
  | _ => cases h

/-- Group 0 is serializable in every run whose commits are careful; after any other commit a state
can be reached where it is not. -/
theorem serializable_of_careful [Nonempty α] :
    (∀ s : State α, Reaches (step gc) (Careful gc) State.initial s → Serializable s) ∧
    ∀ (s : State α) (a : Action α) (s' : State α),
      Reaches (step gc) (fun _ _ => True) State.initial s → step gc s a = some s' →
      ¬Careful gc s a →
      ∃ s'', Reaches (step gc) (fun _ _ => True) s' s'' ∧ ¬Serializable s'' := by
  constructor
  · intro s h
    have hall : Invariant s ∧ s.Succeeded ∧ CarefulInvariant s := by
      refine h.invariant (I := fun s => Invariant s ∧ s.Succeeded ∧ CarefulInvariant s)
        ⟨.initial, by rintro op ⟨⟩, .initial⟩ ?_
      rintro s a s' ⟨hinv, hsucceeded, hcareful⟩ hok hs
      exact ⟨hinv.step hs, hsucceeded.step hinv hs, hcareful.step hinv hok hs⟩
    exact hall.2.2.serializable hall.1 hall.2.1
  · intro s a s' h hs hcareless
    have hinv := Invariant.of_reaches h
    have hinv' := hinv.step hs
    simp only [Careful, not_forall, exists_prop] at hcareless
    obtain ⟨cmd, hcmd, hbad⟩ := hcareless
    cases hs.symm.trans (step_of_commits gc hcmd)
    rcases not_and_or.mp hbad with hbad | hbad
    · obtain ⟨hprev, hle⟩ := Classical.not_imp.mp hbad
      exact exists_not_serializable_of_unguarded gc hinv (Classical.arbitrary α) hinv' hprev
        (not_lt.mp hle)
    · obtain ⟨heffect, hspares⟩ := Classical.not_imp.mp hbad
      simp only [State.Spares, not_forall, not_not, exists_prop] at hspares
      obtain ⟨op, hop, hrunning, hin, hdeletes⟩ := hspares
      exact exists_not_serializable_of_deletes gc hinv' hop hrunning hin heffect hdeletes

/-- The default of `_history_gc_duration`, one week. -/
def week : ℕ := 604800000000

namespace Ordered

def actions : List (Action Bool) :=
  [.startOperation true 1700000000000000 1 ⟨.schemaChange, 100⟩, .commitGuarded 0,
    .commitGuarded 0, .apply true 1000 2, .returnFrom 0,
    .startOperation true 1700000001000000 2 ⟨.topologyChange, 100⟩,
    .commitUnguarded 1700000002000000 3 ⟨.writeMutations, 50⟩, .commitGuarded 1,
    .crash false 1000 3 1 {2} 0, .apply false 1000 2, .apply false 1000 2, .apply true 1000 2,
    .returnFrom 1]

def state : State Bool :=
  (runSteps (step week) (Careful week) State.initial actions).get rfl

theorem reaches_state : Reaches (step week) (Careful week) State.initial state :=
  reaches_of_runSteps .init (some_get _).symm

theorem serializable_state :
    state.operations.map Operation.status =
      [.returned .done, .returned .concurrentModification] ∧ Serializable state :=
  ⟨by decide, (serializable_of_careful week).1 state reaches_state⟩

end Ordered

namespace Skewed

def change : Change := ⟨.writeMutations, 100⟩

def actions : List (Action Unit) :=
  [.startOperation () 1700000000000000 1 change, .commitGuarded 0, .apply () 1000 1, .returnFrom 0,
    .startOperation () 1700000001000000 2 change, .commitUnguarded 1699999999000000 3 change,
    .commitGuarded 1, .apply () 1000 2, .returnFrom 1]

def state : State Unit :=
  (runSteps (step week) (fun _ _ => True) State.initial actions).get rfl

theorem reaches_state : Reaches (step week) (fun _ _ => True) State.initial state :=
  reaches_of_runSteps .init (some_get _).symm

/-- Both succeed, although the unguarded command took effect between what the second observed and
its command. -/
theorem not_serializable : ∃ s : State Unit,
    Reaches (step week) (fun _ _ => True) State.initial s ∧ ¬Serializable s := by
  refine ⟨state, reaches_state, fun h => ?_⟩
  have hop : state.operations[1]? = some (state.operations.get ⟨1, by decide⟩) := rfl
  refine h.undisturbed _ (mem_of_getElem? hop) 2 rfl ⟨(), by decide⟩ 1 (by decide)
    (by decide) ⟨(), by decide⟩

end Skewed

/-- Whatever is committed, nodes agree on what took effect in what both have applied, guarded
commands take effect at most once and in the order of their write timestamps, and `add_entry`
succeeds only if the command took effect. -/
theorem guarded_commands_ordered (h : Reaches (step gc) (fun _ _ => True) State.initial s) :
    (∀ a b i, i < (s.nodes a).applied → i < (s.nodes b).applied →
      (i ∈ (s.nodes a).tables.written ↔ i ∈ (s.nodes b).tables.written)) ∧
    (∀ op ∈ s.operations, ∀ op' ∈ s.operations, ∀ i j, s.log[i]? = some op.cmd →
      s.log[j]? = some op'.cmd → s.TookEffect i → s.TookEffect j →
      (i < j ↔ op.writeTimestamp < op'.writeTimestamp)) ∧ s.Succeeded := by
  obtain ⟨hinv, hsucceeded⟩ := h.invariant (I := fun s => Invariant s ∧ s.Succeeded)
    ⟨.initial, by rintro op ⟨⟩⟩ fun _ _ _ hs _ hstep => ⟨hs.1.step hstep, hs.2.step hs.1 hstep⟩
  refine ⟨fun a b i ha hb => (hinv.mem_written_iff ha).trans (hinv.mem_written_iff hb).symm,
    fun op hop op' hop' i j hi hj htook htook' => ?_, hsucceeded⟩
  have hi' := hinv.effective_of_tookEffect htook
  have hj' := hinv.effective_of_tookEffect htook'
  refine ⟨fun hij => hinv.writeTimestamp_lt hop hop' hij hi hj hi' hj', fun hlt => ?_⟩
  rcases lt_trichotomy i j with hij | rfl | hji
  · exact hij
  · have hcmd := Option.some.inj (hi.symm.trans hj)
    rw [Operation.writeTimestamp, hcmd] at hlt
    exact absurd hlt (lt_irrefl _)
  · exact absurd (hinv.writeTimestamp_lt hop' hop hji hj hi hj' hi') hlt.not_gt

theorem Skewed.guarded_commands_succeeded :
    Skewed.state.operations.map Operation.status = [.returned .done, .returned .done] ∧
      Skewed.state.Succeeded :=
  ⟨by decide, (guarded_commands_ordered week Skewed.reaches_state).2.2⟩

end Scylla.Group0
