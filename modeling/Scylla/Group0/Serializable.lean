import Scylla.Group0.Invariant

/-!
# When group 0 is serializable

An unguarded command whose state id does not exceed the last one leaves no trace in the last state
id, so a guarded command that has not seen it still takes effect; and the deletion of old rows of
the history can remove the row that `add_entry` looks for. Without either group 0 is serializable.
-/

namespace Scylla.Group0

open List

variable {α : Type} {s : State α}

/-! ## What took effect -/

variable {n : α} {i j : ℕ} {log : List Group0Command} {op : Operation α}

theorem Invariant.mem_written_iff (h : Invariant s) (hi : i < (s.nodes n).applied) :
    i ∈ (s.nodes n).tables.written ↔ effective s.log i = true := by
  obtain ⟨p, hp⟩ := h.nodes n
  exact ⟨hp.tables.effective_of_written i,
    hp.tables.written_of_effective i (hi.trans_le hp.applied_le)⟩

theorem Invariant.effective_of_tookEffect (h : Invariant s) (hi : s.TookEffect i) :
    effective s.log i = true := by
  obtain ⟨n, hn⟩ := hi
  obtain ⟨p, hp⟩ := h.nodes n
  exact hp.tables.effective_of_written i hn

theorem Operation.Sound.observed_eq (h : op.Sound log) (hi : log[i]? = some op.cmd)
    (heffective : effective log i = true) :
    lastStateId (log.take op.observedAt) = lastStateId (log.take i) :=
  (effective_iff_of_guarded hi h.observed).mp heffective

theorem Operation.Sound.le_of_effective (h : op.Sound log) (hover : Overtaken log)
    (hi : log[i]? = some op.cmd) (hj : log[j]? = some op.cmd)
    (heffective : effective log i = true) : i ≤ j := by
  by_contra hlt
  have hlast := hover j op.cmd _ hj h.observed
  rw [h.observed_eq hi heffective] at hlast
  exact absurd (lastStateId_take_mono (Nat.succ_le_of_lt (not_le.mp hlt))) (not_le.mpr hlast)

theorem Invariant.tookEffect_of_contains (h : Invariant s) (hop : op ∈ s.operations)
    (hcontains : (s.nodes n).tables.history.group0HistoryContains op.cmd.newStateId = true) :
    ∃ i, s.log[i]? = some op.cmd ∧ s.TookEffect i := by
  obtain ⟨p, hp⟩ := h.nodes n
  obtain ⟨⟨i, hi, cmd, hcmd, heffective, hid⟩, -⟩ :=
    (hp.tables.history.mem_rows_iff h.proper _).mp (of_decide_eq_true hcontains)
  have hunique := h.unique op hop cmd (.inl (mem_of_getElem? hcmd)) hid
  rw [hunique] at hcmd
  exact ⟨i, hcmd, n, hp.tables.written_of_effective i hi heffective⟩

/-! ## Successful operations -/

/-- Operations that returned successfully took effect. -/
def State.Succeeded (s : State α) : Prop :=
  ∀ op ∈ s.operations, op.status = .returned .done →
    ∃ i, s.log[i]? = some op.cmd ∧ s.TookEffect i

theorem State.Succeeded.of_nodes {nodes : α → Node} (h : s.Succeeded)
    (hnodes : ∀ n, (s.nodes n).tables.written ⊆ (nodes n).tables.written) :
    State.Succeeded { s with nodes := nodes } := by
  intro op hop hstatus
  obtain ⟨i, hi, n, hn⟩ := h op hop hstatus
  exact ⟨i, hi, n, hnodes n hn⟩

section

variable [DecidableEq α]

theorem written_subset_update {node : Node}
    (hnode : (s.nodes n).tables.written ⊆ node.tables.written) (m : α) :
    (s.nodes m).tables.written ⊆ (Function.update s.nodes n node m).tables.written := by
  by_cases hm : m = n
  · subst hm
    simpa using hnode
  · simp [hm]

theorem Operation.afterCrash_eq_of_status {status : Status}
    (hstatus : (op.afterCrash n).status = status) (hlost : status ≠ .lost) :
    op.afterCrash n = op := by
  rw [afterCrash] at hstatus ⊢
  split
  · next h =>
    rw [if_pos h] at hstatus
    exact absurd hstatus.symm hlost
  · rfl

theorem State.Succeeded.step {gc : ℕ} {s' : State α} {a : Action α} (h : s.Succeeded)
    (hinv : Invariant s) (hs : Group0.step gc s a = some s') : s'.Succeeded := by
  cases stepped_of_step hs with
  | started n now random change op hop hs' =>
    rw [hs']
    intro op' hop' hstatus
    rcases mem_append.mp hop' with hop' | hop'
    · exact h op' hop' hstatus
    · rw [mem_singleton.mp hop', (hinv.started hop).2.1] at hstatus
      cases hstatus
  | committed cmd hcmd hs' =>
    rw [hs']
    intro op hop hstatus
    obtain ⟨i, hi, htook⟩ := h op hop hstatus
    exact ⟨i, (getElem?_concat_of_lt (List.getElem?_eq_some_iff.mp hi).1).trans hi, htook⟩
  | applied n maxCommandSize count hlen hs' =>
    rw [hs']
    refine h.of_nodes (written_subset_update fun i hi => ?_)
    exact (((s.nodes n).tables.wrote_apply _ _).written i).mpr (.inl hi)
  | crashed n maxCommandSize count batches part index hlen hindex hs' =>
    rw [hs']
    intro op' hop' hstatus
    obtain ⟨op, hop, rfl⟩ := mem_map.mp hop'
    have hsame := Operation.afterCrash_eq_of_status hstatus nofun
    rw [hsame] at hstatus ⊢
    refine h.of_nodes (written_subset_update fun i hi => ?_) op hop hstatus
    obtain ⟨q, -, t', hwrote, -, hsubset, -⟩ := (s.nodes n).tables.exists_wrote_applyUntil
      maxCommandSize (segment s.log (s.nodes n).applied count) batches part
    exact hsubset ((hwrote.written i).mpr (.inl hi))
  | returned k op outcome hop houtcome hs' =>
    rw [hs']
    intro op' hop' hstatus
    rcases mem_or_eq_of_mem_set hop' with hop' | rfl
    · exact h op' hop' hstatus
    · obtain ⟨-, houtcome⟩ := Option.ite_none_right_eq_some.mp houtcome
      cases hstatus
      split at houtcome
      · next hcontains =>
        have htook := hinv.tookEffect_of_contains (mem_of_getElem? hop) hcontains
        exact htook
      · cases houtcome

end

/-! ## Careful runs -/

/-- What holds if every committed command is careful. -/
structure CarefulInvariant (s : State α) : Prop where
  /-- Unguarded commands advance the last state id. -/
  advanced : ∀ i cmd, s.log[i]? = some cmd → cmd.prevStateId = none →
    lastStateId (s.log.take i) < cmd.newStateId
  /-- Nothing deletes the row of an operation in effect that still waits. -/
  kept : ∀ op ∈ s.operations, op.status = .running → InEffect s.log op.cmd →
    ∀ i cmd, s.log[i]? = some cmd → effective s.log i = true →
      ¬cmd.historyAppend.Deletes op.cmd.newStateId
  /-- Operations that reported a concurrent modification are not in effect. -/
  rejected : ∀ op ∈ s.operations, op.status = .returned .concurrentModification →
    op.cmd ∈ s.log ∧ ¬InEffect s.log op.cmd

theorem CarefulInvariant.initial : CarefulInvariant (State.initial : State α) where
  advanced := by rintro i cmd ⟨⟩
  kept := by rintro op ⟨⟩
  rejected := by rintro op ⟨⟩

theorem inEffect_concat_iff {cmd cmd' : Group0Command} :
    InEffect (log ++ [cmd]) cmd' ↔
      InEffect log cmd' ∨ cmd' = cmd ∧ cmd.takesEffect (lastStateId log) = true := by
  constructor
  · rintro ⟨i, hi, hcmd', heffective⟩
    rcases lt_or_ge i log.length with hlt | hge
    · rw [getElem?_concat_of_lt hlt] at hcmd'
      rw [effective_concat_of_lt hlt] at heffective
      exact .inl ⟨i, hlt, hcmd', heffective⟩
    · rw [length_append, length_singleton] at hi
      obtain rfl : i = log.length := by omega
      rw [List.getElem?_concat_length] at hcmd'
      rw [effective_concat_length] at heffective
      exact .inr ⟨(Option.some.inj hcmd').symm, heffective⟩
  · rintro (⟨i, hi, hcmd', heffective⟩ | ⟨rfl, heffective⟩)
    · refine ⟨i, by rw [length_append]; omega, ?_, ?_⟩
      · rw [getElem?_concat_of_lt hi, hcmd']
      · rw [effective_concat_of_lt hi, heffective]
    · refine ⟨log.length, by simp, List.getElem?_concat_length, ?_⟩
      rw [effective_concat_length, heffective]

theorem CarefulInvariant.committed {cmd : Group0Command} (h : CarefulInvariant s)
    (hinv : Invariant s) (hproper : Proper cmd)
    (hadvance : cmd.prevStateId = none → lastStateId s.log < cmd.newStateId)
    (hspare : cmd.takesEffect (lastStateId s.log) = true → s.Spares cmd) :
    CarefulInvariant { s with log := s.log ++ [cmd] } := by
  -- an index of the longer log is one of the log or the last one
  have hcases : ∀ i cmd', (s.log ++ [cmd])[i]? = some cmd' →
      (i < s.log.length ∧ s.log[i]? = some cmd') ∨ (i = s.log.length ∧ cmd' = cmd) := by
    intro i cmd' hcmd'
    rcases lt_or_ge i s.log.length with hlt | hge
    · exact .inl ⟨hlt, getElem?_concat_of_lt hlt ▸ hcmd'⟩
    · have hi := (List.getElem?_eq_some_iff.mp hcmd').1
      rw [length_append, length_singleton] at hi
      obtain rfl : i = s.log.length := by omega
      rw [List.getElem?_concat_length] at hcmd'
      exact .inr ⟨rfl, (Option.some.inj hcmd').symm⟩
  constructor
  · intro i cmd' hcmd' hprev
    rcases hcases i cmd' hcmd' with ⟨hlt, hcmd'⟩ | ⟨rfl, rfl⟩
    · rw [take_concat_of_le hlt.le]
      exact h.advanced i cmd' hcmd' hprev
    · rw [take_left]
      exact hadvance hprev
  · intro op hop hstatus hin i cmd' hcmd' heffective
    rcases inEffect_concat_iff.mp hin with hbefore | ⟨hcmd, heffect⟩
    · rcases hcases i cmd' hcmd' with ⟨hlt, hcmd'⟩ | ⟨rfl, rfl⟩
      · rw [effective_concat_of_lt hlt] at heffective
        exact h.kept op hop hstatus hbefore i cmd' hcmd' heffective
      · rw [effective_concat_length] at heffective
        exact hspare heffective op hop hstatus hbefore
    · -- the operation has just taken effect: its state id is above all before it
      rcases hcases i cmd' hcmd' with ⟨hlt, hcmd'⟩ | ⟨rfl, rfl⟩
      · rw [effective_concat_of_lt hlt] at heffective
        have hle := newStateId_le_lastStateId hcmd' heffective hlt
        rw [take_length] at hle
        have hsound := hinv.sound op hop
        have hobserved : lastStateId (s.log.take op.observedAt) = lastStateId s.log := by
          rw [← hcmd, Group0Command.takesEffect, hsound.observed, decide_eq_true_iff] at heffect
          exact heffect
        exact (hinv.proper cmd' (mem_of_getElem? hcmd')).not_deletes _
          (hle.trans (hobserved ▸ hsound.observed_lt).le)
      · exact hproper.not_deletes _ (hcmd ▸ le_rfl)
  · intro op hop hstatus
    obtain ⟨hmem, hnot⟩ := h.rejected op hop hstatus
    refine ⟨mem_append_left _ hmem, fun hin => ?_⟩
    rcases inEffect_concat_iff.mp hin with hin | ⟨hcmd, heffect⟩
    · exact hnot hin
    · -- a copy stands in the log already, so that the last state id is above the observed one
      obtain ⟨j, hj⟩ := mem_iff_getElem?.mp hmem
      have hsound := hinv.sound op hop
      have hlast := hinv.overtaken j op.cmd _ hj hsound.observed
      rw [← hcmd, Group0Command.takesEffect, hsound.observed, decide_eq_true_iff] at heffect
      rw [heffect] at hlast
      exact absurd (lastStateId_take_le _ _) (not_le.mpr hlast)

theorem CarefulInvariant.contains_of_inEffect (h : CarefulInvariant s) (hinv : Invariant s)
    (hop : op ∈ s.operations) (hstatus : op.status = .running) (hi : i < (s.nodes n).applied)
    (hcmd : s.log[i]? = some op.cmd) (hin : InEffect s.log op.cmd) :
    (s.nodes n).tables.history.group0HistoryContains op.cmd.newStateId = true := by
  obtain ⟨p, hp⟩ := hinv.nodes n
  obtain ⟨j, -, hj, heffective⟩ := hin
  have hji := (hinv.sound op hop).le_of_effective hinv.overtaken hj hcmd heffective
  have hjp : j < p := hji.trans_lt (hi.trans_le hp.applied_le)
  refine decide_eq_true ((hp.tables.history.mem_rows_iff hinv.proper _).mpr
    ⟨⟨j, hjp, op.cmd, hj, heffective, rfl⟩, fun k _ cmd hk hkeffective => ?_⟩)
  exact h.kept op hop hstatus ⟨j, lt_length_of_effective heffective, hj, heffective⟩ k cmd hk
    hkeffective

section

variable [DecidableEq α]

theorem CarefulInvariant.step {gc : ℕ} {s' : State α} {a : Action α} (h : CarefulInvariant s)
    (hinv : Invariant s) (hcareful : Careful gc s a) (hs : Group0.step gc s a = some s') :
    CarefulInvariant s' := by
  cases stepped_of_step hs with
  | started n now random change op hop hs' =>
    rw [hs']
    obtain ⟨-, hrunning, hfresh⟩ := hinv.started hop
    refine ⟨h.advanced, fun op' hop' hstatus hin => ?_, fun op' hop' hstatus => ?_⟩
    · rcases mem_append.mp hop' with hop' | hop'
      · exact h.kept op' hop' hstatus hin
      · obtain ⟨i, -, hi, -⟩ := hin
        rw [mem_singleton.mp hop'] at hi
        exact absurd (mem_of_getElem? hi) hfresh
    · rcases mem_append.mp hop' with hop' | hop'
      · exact h.rejected op' hop' hstatus
      · rw [mem_singleton.mp hop', hrunning] at hstatus
        cases hstatus
  | committed cmd hcmd hs' =>
    rw [hs']
    obtain ⟨hadvance, hspare⟩ := hcareful cmd hcmd
    refine h.committed hinv ?_ hadvance hspare
    rcases State.exists_of_commits hcmd with hmem | ⟨-, hproper, -⟩
    · obtain ⟨op, hop, rfl⟩ := mem_map.mp hmem
      exact (hinv.sound op hop).proper
    · exact hproper
  | applied n maxCommandSize count hlen hs' =>
    rw [hs']
    exact ⟨h.advanced, h.kept, h.rejected⟩
  | crashed n maxCommandSize count batches part index hlen hindex hs' =>
    rw [hs']
    refine ⟨h.advanced, fun op' hop' hstatus hin => ?_, fun op' hop' hstatus => ?_⟩
    · obtain ⟨op, hop, rfl⟩ := mem_map.mp hop'
      have hsame := Operation.afterCrash_eq_of_status hstatus nofun
      rw [hsame] at hstatus hin ⊢
      exact h.kept op hop hstatus hin
    · obtain ⟨op, hop, rfl⟩ := mem_map.mp hop'
      have hsame := Operation.afterCrash_eq_of_status hstatus nofun
      rw [hsame] at hstatus ⊢
      exact h.rejected op hop hstatus
  | returned k op outcome hop houtcome hs' =>
    rw [hs']
    have hmem := mem_of_getElem? hop
    refine ⟨h.advanced, fun op' hop' hstatus hin => ?_, fun op' hop' hstatus => ?_⟩
    · rcases mem_or_eq_of_mem_set hop' with hop' | rfl
      · exact h.kept op' hop' hstatus hin
      · cases hstatus
    · rcases mem_or_eq_of_mem_set hop' with hop' | rfl
      · exact h.rejected op' hop' hstatus
      · obtain ⟨⟨hrunning, i, hi, hcmd⟩, houtcome⟩ := Option.ite_none_right_eq_some.mp houtcome
        cases hstatus
        split at houtcome
        · cases houtcome
        · next hcontains =>
          exact ⟨mem_of_getElem? hcmd, fun hin => hcontains
            (h.contains_of_inEffect hinv hmem hrunning hi hcmd hin)⟩

end

/-! ## Serializability -/

theorem CarefulInvariant.not_effective_between (h : CarefulInvariant s) (hinv : Invariant s)
    (hop : op ∈ s.operations) (hi : s.log[i]? = some op.cmd)
    (hieffective : effective s.log i = true) (hj : op.observedAt ≤ j) (hji : j < i) :
    ¬effective s.log j = true := by
  intro heffective
  have hlast := (hinv.sound op hop).observed_eq hi hieffective
  -- the last state id is the same before and after the command at `j`
  have hstill : lastStateId (s.log.take (j + 1)) ≤ lastStateId (s.log.take j) :=
    calc lastStateId (s.log.take (j + 1)) ≤ lastStateId (s.log.take i) :=
          lastStateId_take_mono (Nat.succ_le_of_lt hji)
      _ = lastStateId (s.log.take op.observedAt) := hlast.symm
      _ ≤ lastStateId (s.log.take j) := lastStateId_take_mono hj
  obtain ⟨cmd, hcmd⟩ := exists_getElem?_of_effective heffective
  have hadvance : lastStateId (s.log.take j) < lastStateId (s.log.take (j + 1)) := by
    cases hprev : cmd.prevStateId with
    | none =>
      exact (h.advanced j cmd hcmd hprev).trans_le
        (newStateId_le_lastStateId hcmd heffective (Nat.lt_succ_self j))
    | some prev =>
      rw [← (effective_iff_of_guarded hcmd hprev).mp heffective]
      exact hinv.overtaken j cmd prev hcmd hprev
  exact absurd hstill (not_le.mpr hadvance)

theorem Invariant.writeTimestamp_lt (h : Invariant s) {op' : Operation α} (hop : op ∈ s.operations)
    (hop' : op' ∈ s.operations) (hij : i < j) (hi : s.log[i]? = some op.cmd)
    (hj : s.log[j]? = some op'.cmd) (hieffective : effective s.log i = true)
    (hjeffective : effective s.log j = true) : op.writeTimestamp < op'.writeTimestamp := by
  have hsound := h.sound op' hop'
  have hle : op.cmd.newStateId ≤ lastStateId (s.log.take op'.observedAt) := by
    rw [hsound.observed_eq hj hjeffective]
    exact newStateId_le_lastStateId hi hieffective hij
  rcases hsound.timestamp with hnull | hlt
  · rw [hnull] at hle
    exact absurd hle (not_le.mpr (h.sound op hop).proper.null_lt)
  · exact (UUID.microsTimestamp_mono hle).trans_lt hlt

theorem CarefulInvariant.serializable (h : CarefulInvariant s) (hinv : Invariant s)
    (hsucceeded : s.Succeeded) : Serializable s where
  agree a b i ha hb := (hinv.mem_written_iff ha).trans (hinv.mem_written_iff hb).symm
  once op hop i j hi hj htook htook' := by
    have hsound := hinv.sound op hop
    exact le_antisymm
      (hsound.le_of_effective hinv.overtaken hi hj (hinv.effective_of_tookEffect htook))
      (hsound.le_of_effective hinv.overtaken hj hi (hinv.effective_of_tookEffect htook'))
  undisturbed op hop i hi htook j hj hji htook' :=
    h.not_effective_between hinv hop hi (hinv.effective_of_tookEffect htook) hj hji
      (hinv.effective_of_tookEffect htook')
  timestamps op hop op' hop' i j hij hi hj htook htook' :=
    hinv.writeTimestamp_lt hop hop' hij hi hj (hinv.effective_of_tookEffect htook)
      (hinv.effective_of_tookEffect htook')
  succeeded := hsucceeded
  rejected op hop hstatus i hi htook := by
    have heffective := hinv.effective_of_tookEffect htook
    exact (h.rejected op hop hstatus).2 ⟨i, lt_length_of_effective heffective, hi, heffective⟩

end Scylla.Group0
