import Scylla.Group0.System

/-!
# Invariants of group 0

In every run the tables of a node hold the effective commands of a prefix of the log, and every
guarded command was made from the last state id of an earlier prefix.
-/

namespace Scylla.Group0

open List
open Nat

/-! ## Tables that hold a prefix of the log -/

structure Tables.Holds (log : List Group0Command) (t : Tables) (p : ℕ) : Prop where
  history : HistoryOf log p t.history
  written_of_effective : ∀ i < p, effective log i = true → i ∈ t.written
  effective_of_written : ∀ i ∈ t.written, effective log i = true

section

variable {log : List Group0Command} {cmd : Group0Command} {t t' : Tables} {p start count : ℕ}

theorem mem_filter_replayed {e : Entry} :
    e ∈ (segment log start count).filter (replayed log p) ↔
      (log[e.2]? = some e.1 ∧ start ≤ e.2 ∧ e.2 < start + count) ∧ effective log e.2 = true ∧
        (p ≤ e.2 ∨ e.1.prevStateId = none) := by
  rw [mem_filter, mem_segment, replayed, Bool.and_eq_true, Bool.or_eq_true,
    decide_eq_true_iff, Option.isNone_iff_eq_none]

section

variable (h : t.Holds log p) (hover : Overtaken log) (hproper : ∀ cmd ∈ log, Proper cmd)
  (hstart : start ≤ p)

include h hover hproper hstart

theorem Tables.Holds.wrote
    (hwrote : t.Wrote (taken t.history.getLastGroup0StateId (segment log start count)) t') :
    t'.Holds log (max p (start + count)) := by
  have htaken := taken_segment hover p start count
  rw [max_eq_right hstart, ← h.history.getLastGroup0StateId_eq hproper] at htaken
  rw [htaken] at hwrote
  constructor
  · intro m
    rw [hwrote.history, h.history]
    constructor
    · rintro (⟨i, hi, hrest⟩ | ⟨e, he, rfl⟩)
      · exact ⟨i, lt_max_of_lt_left hi, hrest⟩
      · obtain ⟨⟨hcmd, -, hlt⟩, heffective, -⟩ := mem_filter_replayed.mp he
        exact ⟨e.2, lt_max_of_lt_right hlt, e.1, hcmd, heffective, rfl⟩
    · rintro ⟨i, hi, cmd, hcmd, heffective, rfl⟩
      rcases lt_or_ge i p with hlt | hge
      · exact .inl ⟨i, hlt, cmd, hcmd, heffective, rfl⟩
      · have hmem : (cmd, i) ∈ (segment log start count).filter (replayed log p) := by
          refine mem_filter_replayed.mpr ⟨⟨hcmd, hstart.trans hge, ?_⟩, heffective, .inl hge⟩
          exact (lt_max_iff.mp hi).resolve_left (not_lt.mpr hge)
        exact .inr ⟨(cmd, i), hmem, rfl⟩
  · intro i hi heffective
    rw [hwrote.written]
    rcases lt_or_ge i p with hlt | hge
    · exact .inl (h.written_of_effective i hlt heffective)
    · obtain ⟨cmd, hcmd⟩ := exists_getElem?_of_effective heffective
      have hmem : (cmd, i) ∈ (segment log start count).filter (replayed log p) := by
        refine mem_filter_replayed.mpr ⟨⟨hcmd, hstart.trans hge, ?_⟩, heffective, .inl hge⟩
        exact (lt_max_iff.mp hi).resolve_left (not_lt.mpr hge)
      exact .inr ⟨(cmd, i), hmem, rfl⟩
  · intro i hi
    rcases (hwrote.written i).mp hi with hi | ⟨e, he, rfl⟩
    · exact h.effective_of_written i hi
    · exact (mem_filter_replayed.mp he).2.1

theorem Tables.Holds.apply (maxCommandSize : ℕ) :
    (t.apply maxCommandSize (segment log start count)).Holds log (max p (start + count)) :=
  h.wrote hover hproper hstart (t.wrote_apply maxCommandSize _)

theorem Tables.Holds.applyUntil (maxCommandSize count batches : ℕ) (part : Finset ℕ) :
    ∃ n ≤ count, (t.applyUntil maxCommandSize (segment log start count) batches part).Holds log
      (max p (start + n)) := by
  obtain ⟨n, hn, t', hwrote, hhistory, hsubset, hpart⟩ :=
    t.exists_wrote_applyUntil maxCommandSize (segment log start count) batches part
  have hcount : n ≤ count := hn.trans (length_take_le _ _)
  rw [take_segment log hcount] at hwrote
  have ht' := h.wrote hover hproper hstart hwrote
  refine ⟨n, hcount, hhistory ▸ ht'.history, ?_, ?_⟩
  · exact fun i hi heffective => hsubset (ht'.written_of_effective i hi heffective)
  · intro i hi
    rcases hpart i hi with hi | ⟨e, he, rfl⟩
    · exact ht'.effective_of_written i hi
    · have htaken := taken_segment hover p start count
      rw [max_eq_right hstart, ← h.history.getLastGroup0StateId_eq hproper] at htaken
      rw [htaken] at he
      exact (mem_filter_replayed.mp he).2.1

end

theorem HistoryOf.concat {h : History} (hh : HistoryOf log p h) (hp : p ≤ log.length) :
    HistoryOf (log ++ [cmd]) p h := by
  intro m
  rw [hh m]
  refine exists_congr fun i => and_congr_right fun hi => ?_
  rw [getElem?_concat_of_lt (hi.trans_le hp), effective_concat_of_lt (hi.trans_le hp)]

theorem Tables.Holds.concat (h : t.Holds log p) (hp : p ≤ log.length) :
    t.Holds (log ++ [cmd]) p := by
  refine ⟨h.history.concat hp, fun i hi heffective => ?_, fun i hi => ?_⟩
  · rw [effective_concat_of_lt (hi.trans_le hp)] at heffective
    exact h.written_of_effective i hi heffective
  · have heffective := h.effective_of_written i hi
    rw [effective_concat_of_lt (lt_length_of_effective heffective)]
    exact heffective

end

/-! ## Operations and nodes -/

section

variable {α : Type}

structure Operation.Sound (log : List Group0Command) (op : Operation α) : Prop where
  proper : Proper op.cmd
  observedAt_le : op.observedAt ≤ log.length
  observed : op.cmd.prevStateId = some (lastStateId (log.take op.observedAt))
  timestamp : lastStateId (log.take op.observedAt) = UUID.null ∨
    (lastStateId (log.take op.observedAt)).microsTimestamp < op.writeTimestamp
  after : ∀ i, log[i]? = some op.cmd → op.observedAt ≤ i

variable {log : List Group0Command} {op : Operation α} {s : State α} {cmd : Group0Command} {gc : ℕ}

theorem Operation.Sound.observed_lt (h : op.Sound log) :
    lastStateId (log.take op.observedAt) < op.cmd.newStateId := by
  rcases h.timestamp with hnull | hlt
  · rw [hnull]
    exact h.proper.null_lt
  · exact UUID.lt_of_microsTimestamp_lt hlt

theorem Operation.Sound.concat (h : op.Sound log) (cmd : Group0Command) :
    op.Sound (log ++ [cmd]) := by
  have htake : (log ++ [cmd]).take op.observedAt = log.take op.observedAt :=
    take_concat_of_le h.observedAt_le
  refine ⟨h.proper, ?_, htake ▸ h.observed, htake ▸ h.timestamp, fun i hi => ?_⟩
  · rw [length_append]
    exact h.observedAt_le.trans (le_add_right _ _)
  · rcases lt_or_ge i log.length with hlt | hge
    · exact h.after i (getElem?_concat_of_lt hlt ▸ hi)
    · exact h.observedAt_le.trans hge

def Operation.creation (op : Operation α) : α × ℕ × Group0Command :=
  (op.node, op.observedAt, op.cmd)

theorem Operation.Sound.congr {op' : Operation α} (h : op.Sound log)
    (hcreation : op.creation = op'.creation) : op'.Sound log := by
  obtain ⟨node', observedAt', cmd', status'⟩ := op'
  cases hcreation
  exact ⟨h.proper, h.observedAt_le, h.observed, h.timestamp, h.after⟩

structure Node.Holds (log : List Group0Command) (node : Node) (p : ℕ) : Prop where
  tables : node.tables.Holds log p
  applied_le : node.applied ≤ p
  le_begun : p ≤ node.begun
  begun_le : node.begun ≤ log.length

theorem Node.Holds.concat {node : Node} {p : ℕ} (h : node.Holds log p) (cmd : Group0Command) :
    node.Holds (log ++ [cmd]) p where
  tables := h.tables.concat (h.le_begun.trans h.begun_le)
  applied_le := h.applied_le
  le_begun := h.le_begun
  begun_le := by
    rw [length_append]
    exact h.begun_le.trans (le_add_right _ _)

structure Invariant (s : State α) : Prop where
  proper : ∀ cmd ∈ s.log, Proper cmd
  overtaken : Overtaken s.log
  sound : ∀ op ∈ s.operations, op.Sound s.log
  unique : ∀ op ∈ s.operations, ∀ cmd, cmd ∈ s.log ∨ cmd ∈ s.operations.map Operation.cmd →
    cmd.newStateId = op.cmd.newStateId → cmd = op.cmd
  guarded : ∀ cmd ∈ s.log, cmd.prevStateId = none ∨ cmd ∈ s.operations.map Operation.cmd
  nodes : ∀ n, ∃ p, (s.nodes n).Holds s.log p

theorem Invariant.initial : Invariant (State.initial : State α) where
  proper := by rintro cmd ⟨⟩
  overtaken := by rintro i cmd prev ⟨⟩
  sound := by rintro op ⟨⟩
  unique := by rintro op ⟨⟩
  guarded := by rintro cmd ⟨⟩
  nodes n := by
    refine ⟨0, ⟨fun m => ?_, fun i hi => absurd hi (not_lt_zero i), ?_⟩, le_rfl, le_rfl, le_rfl⟩
    · constructor
      · rintro ⟨⟩
      · rintro ⟨i, hi, -⟩
        exact absurd hi (not_lt_zero i)
    · rintro i ⟨⟩

theorem Invariant.of_creation {ops : List (Operation α)} (h : Invariant s)
    (hops : ops.map Operation.creation = s.operations.map Operation.creation) :
    Invariant { s with operations := ops } := by
  have hcmds : ops.map Operation.cmd = s.operations.map Operation.cmd := by
    have hmap := congrArg (map fun c : α × ℕ × Group0Command => c.2.2) hops
    rwa [map_map, map_map] at hmap
  have hexists : ∀ op ∈ ops, ∃ op' ∈ s.operations, op'.creation = op.creation := fun op hop =>
    mem_map.mp (hops ▸ mem_map_of_mem hop)
  refine ⟨h.proper, h.overtaken, fun op hop => ?_, fun op hop cmd hcmd hid => ?_, ?_, h.nodes⟩
  · obtain ⟨op', hop', hcreation⟩ := hexists op hop
    exact (h.sound op' hop').congr hcreation
  · obtain ⟨op', hop', hcreation⟩ := hexists op hop
    have hcmd' : op'.cmd = op.cmd := congrArg (fun c => c.2.2) hcreation
    rw [← hcmd']
    exact h.unique op' hop' cmd (hcmds ▸ hcmd) (hcmd' ▸ hid)
  · intro cmd hcmd
    exact (h.guarded cmd hcmd).imp_right fun hmem => hcmds ▸ hmem

theorem Overtaken.concat (h : Overtaken log)
    (hcmd : ∀ prev, cmd.prevStateId = some prev → prev ≤ lastStateId log ∧ prev < cmd.newStateId) :
    Overtaken (log ++ [cmd]) := by
  intro i cmd' prev hcmd' hprev
  rcases lt_or_ge i log.length with hlt | hge
  · rw [getElem?_concat_of_lt hlt] at hcmd'
    rw [take_concat_of_le (succ_le_of_lt hlt)]
    exact h i cmd' prev hcmd' hprev
  · have hi : i = log.length := by
      have hlt := (List.getElem?_eq_some_iff.mp hcmd').1
      rw [length_append, length_singleton] at hlt
      omega
    subst hi
    rw [getElem?_concat_length] at hcmd'
    cases hcmd'
    rw [take_of_length_le (by simp), lastStateId_concat, nextStateId]
    obtain ⟨hle, hlt⟩ := hcmd prev hprev
    split
    · exact lt_max_of_lt_right hlt
    · next hskip =>
      rw [Group0Command.takesEffect, hprev, decide_eq_true_iff] at hskip
      exact lt_of_le_of_ne hle hskip

theorem Invariant.committed (h : Invariant s)
    (hcmd : (cmd ∈ s.operations.map Operation.cmd) ∨ (cmd.prevStateId = none ∧ Proper cmd ∧
      s.Unused cmd.newStateId)) :
    Invariant { s with log := s.log ++ [cmd] } := by
  have hproper : Proper cmd := by
    rcases hcmd with hmem | ⟨-, hproper, -⟩
    · obtain ⟨op, hop, rfl⟩ := mem_map.mp hmem
      exact (h.sound op hop).proper
    · exact hproper
  constructor
  · intro cmd' hcmd'
    rcases mem_append.mp hcmd' with hcmd' | hcmd'
    · exact h.proper cmd' hcmd'
    · rw [mem_singleton.mp hcmd']
      exact hproper
  · refine h.overtaken.concat fun prev hprev => ?_
    rcases hcmd with hmem | ⟨hnone, -⟩
    · obtain ⟨op, hop, rfl⟩ := mem_map.mp hmem
      have hsound := h.sound op hop
      cases hsound.observed.symm.trans hprev
      exact ⟨lastStateId_take_le _ _, hsound.observed_lt⟩
    · rw [hnone] at hprev
      cases hprev
  · exact fun op hop => (h.sound op hop).concat cmd
  · intro op hop cmd' hcmd' hid
    rcases hcmd' with hcmd' | hcmd'
    · rcases mem_append.mp hcmd' with hcmd' | hcmd'
      · exact h.unique op hop cmd' (.inl hcmd') hid
      · obtain rfl := mem_singleton.mp hcmd'
        rcases hcmd with hmem | ⟨-, -, hunused⟩
        · exact h.unique op hop cmd' (.inr hmem) hid
        · exact absurd hid.symm (hunused.2 op hop)
    · exact h.unique op hop cmd' (.inr hcmd') hid
  · intro cmd' hcmd'
    rcases mem_append.mp hcmd' with hcmd' | hcmd'
    · exact h.guarded cmd' hcmd'
    · rw [mem_singleton.mp hcmd']
      exact hcmd.symm.imp And.left id
  · intro n
    obtain ⟨p, hp⟩ := h.nodes n
    exact ⟨p, hp.concat cmd⟩

theorem Invariant.started {n : α} {now : ℕ} {random : BitVec 64} {change : Change} (h : Invariant s)
    (hop : s.startOperation gc n now random change = some op) :
    Invariant { s with operations := s.operations ++ [op] } ∧ op.status = .running ∧
      op.cmd ∉ s.log := by
  obtain ⟨⟨hbarrier, hunused⟩, hop⟩ := Option.ite_none_right_eq_some.mp hop
  obtain ⟨cmd, hcmd, rfl⟩ := Option.map_eq_some_iff.mp hop
  obtain ⟨hproper, hprev, hid⟩ :=
    Proper.of_prepareCommand (null_lt_generateGroup0StateId _ _ _) hcmd
  obtain ⟨p, hp⟩ := h.nodes n
  -- after the barrier, the tables hold exactly what the node has applied
  have hpeq : p = (s.nodes n).applied :=
    le_antisymm (hp.le_begun.trans hbarrier) hp.applied_le
  have hlast := hp.tables.history.getLastGroup0StateId_eq h.proper
  have hle : (s.nodes n).applied ≤ s.log.length := hpeq ▸ hp.le_begun.trans hp.begun_le
  rw [hpeq] at hlast
  have hfresh : cmd ∉ s.log := fun hmem => hunused.1 cmd hmem hid
  have hsound : Operation.Sound s.log ⟨n, (s.nodes n).applied, cmd, .running⟩ := by
    refine ⟨hproper, hle, ?_, ?_, fun i hi => ?_⟩
    · rw [hprev, hlast]
    · change _ ∨ _ < cmd.newStateId.microsTimestamp
      rw [hid, ← hlast]
      exact (eq_or_ne _ _).imp_right fun hne => lt_generateGroup0StateId hne now random
    · exact absurd (mem_of_getElem? hi) hfresh
  refine ⟨⟨h.proper, h.overtaken, ?_, ?_, ?_, h.nodes⟩, rfl, hfresh⟩
  · intro op' hop'
    rcases mem_append.mp hop' with hop' | hop'
    · exact h.sound op' hop'
    · rw [mem_singleton.mp hop']
      exact hsound
  · intro op' hop' cmd' hcmd' hid'
    simp only [map_append, map_singleton, mem_append, mem_singleton] at hcmd'
    rcases mem_append.mp hop' with hold | hnew
    · rcases hcmd' with hcmd' | hcmd' | rfl
      · exact h.unique op' hold cmd' (.inl hcmd') hid'
      · exact h.unique op' hold cmd' (.inr hcmd') hid'
      · exact absurd (hid'.symm.trans hid) (hunused.2 op' hold)
    · rw [mem_singleton.mp hnew] at hid' ⊢
      rcases hcmd' with hcmd' | hcmd' | rfl
      · exact absurd (hid'.trans hid) (hunused.1 cmd' hcmd')
      · obtain ⟨op'', hop'', rfl⟩ := mem_map.mp hcmd'
        exact absurd (hid'.trans hid) (hunused.2 op'' hop'')
      · rfl
  · intro cmd' hcmd'
    refine (h.guarded cmd' hcmd').imp_right fun hmem => ?_
    rw [map_append]
    exact mem_append_left _ hmem

theorem State.exists_of_commits {a : Action α} (h : s.commits gc a = some cmd) :
    cmd ∈ s.operations.map Operation.cmd ∨
      (cmd.prevStateId = none ∧ Proper cmd ∧ s.Unused cmd.newStateId) := by
  cases a with
  | commitGuarded k =>
    obtain ⟨op, hop, rfl⟩ := Option.map_eq_some_iff.mp h
    exact .inl (mem_map_of_mem (mem_of_getElem? hop))
  | commitUnguarded now random change =>
    obtain ⟨hunused, hcmd⟩ := Option.ite_none_right_eq_some.mp h
    obtain ⟨hproper, hprev, hid⟩ :=
      Proper.of_prepareCommand (null_lt_generateGroup0StateId _ _ _) hcmd
    exact .inr ⟨hprev, hproper, hid ▸ hunused⟩
  | _ => cases h

theorem map_creation_set {k : ℕ} (st : Status) (hop : s.operations[k]? = some op) :
    (s.operations.set k { op with status := st }).map Operation.creation =
      s.operations.map Operation.creation := by
  rw [map_set]
  refine ext_getElem? fun i => ?_
  rw [getElem?_set]
  split
  · next hk =>
    subst hk
    rw [getElem?_map, hop, length_map, if_pos (List.getElem?_eq_some_iff.mp hop).1]
    rfl
  · rfl

variable [DecidableEq α]

theorem Invariant.update (h : Invariant s) {n : α} {node : Node} (hnode : ∃ p, node.Holds s.log p) :
    Invariant { s with nodes := Function.update s.nodes n node } where
  proper := h.proper
  overtaken := h.overtaken
  sound := h.sound
  unique := h.unique
  guarded := h.guarded
  nodes m := by
    by_cases hm : m = n
    · subst hm
      simpa using hnode
    · simpa [hm] using h.nodes m

theorem Invariant.step {s' : State α} {a : Action α} (h : Invariant s)
    (hs : Group0.step gc s a = some s') : Invariant s' := by
  cases stepped_of_step hs with
  | started n now random change op hop hs' =>
    rw [hs']
    exact (h.started hop).1
  | committed cmd hcmd hs' =>
    rw [hs']
    exact h.committed (State.exists_of_commits hcmd)
  | applied n maxCommandSize count hlen hs' =>
    rw [hs']
    obtain ⟨p, hp⟩ := h.nodes n
    refine h.update ⟨max p ((s.nodes n).applied + count), ?_, ?_, ?_, ?_⟩
    · exact hp.tables.apply h.overtaken h.proper hp.applied_le maxCommandSize
    · exact le_max_right _ _
    · exact max_le_max_right _ hp.le_begun
    · exact max_le hp.begun_le hlen
  | crashed n maxCommandSize count batches part index hlen hindex hs' =>
    rw [hs']
    obtain ⟨p, hp⟩ := h.nodes n
    obtain ⟨q, hq, htables⟩ := hp.tables.applyUntil h.overtaken h.proper hp.applied_le
      maxCommandSize count batches part
    refine Invariant.of_creation (s := { s with nodes := _ }) (h.update ⟨max p
      ((s.nodes n).applied + q), htables, ?_, ?_, max_le hp.begun_le hlen⟩) ?_
    · exact (hindex.trans hp.applied_le).trans (le_max_left _ _)
    · exact max_le_max hp.le_begun (Nat.add_le_add_left hq _)
    · rw [map_map]
      exact map_congr_left fun op _ => by
        rw [Function.comp_apply, Operation.afterCrash]
        split <;> rfl
  | returned k op outcome hop houtcome hs' =>
    rw [hs']
    exact h.of_creation (map_creation_set _ hop)

theorem Invariant.of_reaches {ok : State α → Action α → Prop}
    (h : Reaches (Group0.step gc) ok State.initial s) : Invariant s :=
  h.invariant .initial fun _ _ _ hs _ hstep => hs.step hstep

end

end Scylla.Group0
