import Scylla.Group0.StateMachine

/-!
# Replaying the log

Which commands of the committed log take effect is determined by the log alone. A node that applies
entries again, on tables that already hold a longer prefix of the log, repeats unguarded commands
and skips guarded ones, and reaches the same tables as one that applied every entry once.
-/

namespace Scylla.Group0

open List
open Nat

/-! ## The log as a whole -/

def nextStateId (last : UUID) (cmd : Group0Command) : UUID :=
  if cmd.takesEffect last then max last cmd.newStateId else last

def lastStateId (log : List Group0Command) : UUID := log.foldl nextStateId UUID.null

/-- The command at the index takes effect when the log is applied in order. -/
def effective (log : List Group0Command) (i : ℕ) : Bool :=
  match log[i]? with
  | some cmd => cmd.takesEffect (lastStateId (log.take i))
  | none => false

theorem le_nextStateId (last : UUID) (cmd : Group0Command) : last ≤ nextStateId last cmd := by
  rw [nextStateId]
  split
  · exact le_max_left _ _
  · exact le_rfl

theorem lastStateId_concat (log : List Group0Command) (cmd : Group0Command) :
    lastStateId (log ++ [cmd]) = nextStateId (lastStateId log) cmd := by
  rw [lastStateId, foldl_append]
  rfl

variable {log : List Group0Command} {cmd : Group0Command} {i j : ℕ}

theorem lastStateId_take_succ (h : log[i]? = some cmd) :
    lastStateId (log.take (i + 1)) = nextStateId (lastStateId (log.take i)) cmd := by
  rw [take_add_one, h]
  exact lastStateId_concat _ _

theorem effective_of_getElem? (h : log[i]? = some cmd) :
    effective log i = cmd.takesEffect (lastStateId (log.take i)) := by
  rw [effective, h]

theorem exists_getElem?_of_effective (h : effective log i = true) : ∃ cmd, log[i]? = some cmd := by
  rw [effective] at h
  split at h
  · next cmd hcmd => exact ⟨cmd, hcmd⟩
  · cases h

theorem effective_of_unguarded (h : log[i]? = some cmd) (hprev : cmd.prevStateId = none) :
    effective log i = true := by
  rw [effective_of_getElem? h, Group0Command.takesEffect, hprev]

theorem effective_iff_of_guarded {prev : UUID} (h : log[i]? = some cmd)
    (hprev : cmd.prevStateId = some prev) :
    effective log i = true ↔ prev = lastStateId (log.take i) := by
  rw [effective_of_getElem? h, Group0Command.takesEffect, hprev]
  exact decide_eq_true_iff

theorem lastStateId_take_mono (hij : i ≤ j) :
    lastStateId (log.take i) ≤ lastStateId (log.take j) := by
  induction j, hij using le_induction with
  | base => exact le_rfl
  | succ j _ ih =>
    refine ih.trans ?_
    cases h : log[j]? with
    | none =>
      have hlen := List.getElem?_eq_none_iff.mp h
      rw [take_of_length_le hlen, take_of_length_le (hlen.trans (le_succ j))]
    | some cmd =>
      rw [lastStateId_take_succ h]
      exact le_nextStateId _ _

theorem lastStateId_take_le (log : List Group0Command) (i : ℕ) :
    lastStateId (log.take i) ≤ lastStateId log := by
  rcases le_total i log.length with hle | hle
  · nth_rewrite 2 [← log.take_length]
    exact lastStateId_take_mono hle
  · rw [take_of_length_le hle]

theorem newStateId_le_lastStateId (h : log[i]? = some cmd) (heffective : effective log i = true)
    (hij : i < j) : cmd.newStateId ≤ lastStateId (log.take j) := by
  refine le_trans ?_ (lastStateId_take_mono (succ_le_of_lt hij))
  rw [effective_of_getElem? h] at heffective
  rw [succ_eq_add_one, lastStateId_take_succ h, nextStateId, if_pos heffective]
  exact le_max_right _ _

theorem lastStateId_take_cases (log : List Group0Command) (n : ℕ) :
    lastStateId (log.take n) = UUID.null ∨
    ∃ i < n, ∃ cmd, log[i]? = some cmd ∧ effective log i = true ∧
      lastStateId (log.take n) = cmd.newStateId := by
  induction n with
  | zero => exact .inl rfl
  | succ n ih =>
    have hkeep : lastStateId (log.take (n + 1)) = lastStateId (log.take n) →
        lastStateId (log.take (n + 1)) = UUID.null ∨
        ∃ i < n + 1, ∃ cmd, log[i]? = some cmd ∧ effective log i = true ∧
          lastStateId (log.take (n + 1)) = cmd.newStateId := by
      intro heq
      rw [heq]
      exact ih.imp_right fun ⟨i, hi, h⟩ => ⟨i, lt_succ_of_lt hi, h⟩
    cases h : log[n]? with
    | none =>
      have hlen := List.getElem?_eq_none_iff.mp h
      apply hkeep
      rw [take_of_length_le hlen, take_of_length_le (hlen.trans (le_succ n))]
    | some cmd =>
      have hsucc := lastStateId_take_succ h
      rw [nextStateId, ← effective_of_getElem? h] at hsucc
      by_cases heffective : effective log n = true
      · rw [if_pos heffective] at hsucc
        rcases le_total cmd.newStateId (lastStateId (log.take n)) with hle | hle
        · exact hkeep (hsucc.trans (max_eq_left hle))
        · exact .inr ⟨n, lt_succ_self n, cmd, h, heffective, hsucc.trans (max_eq_right hle)⟩
      · rw [if_neg heffective] at hsucc
        exact hkeep hsucc

/-! ## Appending to the log -/

theorem getElem?_concat_of_lt (hi : i < log.length) : (log ++ [cmd])[i]? = log[i]? :=
  List.getElem?_append_left hi

theorem take_concat_of_le (hi : i ≤ log.length) : (log ++ [cmd]).take i = log.take i :=
  take_append_of_le_length hi

theorem effective_concat_of_lt (hi : i < log.length) :
    effective (log ++ [cmd]) i = effective log i := by
  rw [effective, effective, getElem?_concat_of_lt hi, take_concat_of_le hi.le]

theorem effective_concat_length :
    effective (log ++ [cmd]) log.length = cmd.takesEffect (lastStateId log) := by
  rw [effective_of_getElem? List.getElem?_concat_length, take_left]

theorem lt_length_of_effective (h : effective log i = true) : i < log.length := by
  obtain ⟨cmd, hcmd⟩ := exists_getElem?_of_effective h
  exact (List.getElem?_eq_some_iff.mp hcmd).1

/-! ## Segments of the log -/

/-- The entries from an index on that are given to `apply`. -/
def segment (log : List Group0Command) (start count : ℕ) : List Entry :=
  (log.zipIdx.drop start).take count

def Overtaken (log : List Group0Command) : Prop :=
  ∀ i cmd prev, log[i]? = some cmd → cmd.prevStateId = some prev →
    prev < lastStateId (log.take (i + 1))

variable {count start : ℕ}

theorem segment_succ_of_getElem? (h : log[start]? = some cmd) :
    segment log start (count + 1) = (cmd, start) :: segment log (start + 1) count := by
  have hlt : start < log.zipIdx.length := by
    rw [length_zipIdx]
    exact (List.getElem?_eq_some_iff.mp h).1
  rw [segment, drop_eq_getElem_cons hlt, take_succ_cons]
  congr 1
  rw [getElem_zipIdx, zero_add, (List.getElem?_eq_some_iff.mp h).2]

theorem segment_eq_nil_of_none (h : log[start]? = none) : segment log start count = [] := by
  rw [segment, drop_eq_nil_of_le, take_nil]
  rw [length_zipIdx]
  exact List.getElem?_eq_none_iff.mp h

theorem take_segment (log : List Group0Command) {n : ℕ} (hn : n ≤ count) :
    (segment log start count).take n = segment log start n := by
  rw [segment, take_take, min_eq_left hn, segment]

theorem mem_segment {e : Entry} :
    e ∈ segment log start count ↔
      log[e.2]? = some e.1 ∧ start ≤ e.2 ∧ e.2 < start + count := by
  rw [mem_iff_getElem?]
  simp only [segment, List.getElem?_take, List.getElem?_drop, List.getElem?_zipIdx, zero_add]
  constructor
  · rintro ⟨n, hn⟩
    obtain ⟨hlt, hn⟩ := Option.ite_none_right_eq_some.mp hn
    obtain ⟨cmd, hcmd, rfl⟩ := Option.map_eq_some_iff.mp hn
    exact ⟨hcmd, by omega, by omega⟩
  · rintro ⟨he, hle, hlt⟩
    refine ⟨e.2 - start, ?_⟩
    rw [if_pos (by omega), Nat.add_sub_cancel' hle, he]
    rfl

theorem taken_cons (last : UUID) (e : Entry) (es : List Entry) :
    taken last (e :: es) =
      (if e.1.takesEffect last then [e] else []) ++ taken (nextStateId last e.1) es := by
  rw [taken, nextStateId]
  split <;> rfl

def replayed (log : List Group0Command) (p : ℕ) (e : Entry) : Bool :=
  effective log e.2 && (decide (p ≤ e.2) || e.1.prevStateId.isNone)

theorem takesEffect_replay (hover : Overtaken log) (h : log[i]? = some cmd) (p : ℕ) :
    cmd.takesEffect (lastStateId (log.take (max i p))) = replayed log p (cmd, i) := by
  rcases lt_or_ge i p with hlt | hge
  · rw [max_eq_right hlt.le]
    cases hprev : cmd.prevStateId with
    | some prev =>
      have hprevlt := (hover i cmd prev h hprev).trans_le
        (lastStateId_take_mono (succ_le_of_lt hlt))
      simp [Group0Command.takesEffect, replayed, hprev, hprevlt.ne, hlt]
    | none =>
      have heffective := effective_of_unguarded h hprev
      simp [Group0Command.takesEffect, replayed, hprev, heffective]
  · rw [max_eq_left hge, replayed, effective_of_getElem? h]
    simp [hge]

theorem nextStateId_replay (hover : Overtaken log) (h : log[i]? = some cmd) (p : ℕ) :
    nextStateId (lastStateId (log.take (max i p))) cmd =
      lastStateId (log.take (max (i + 1) p)) := by
  rcases lt_or_ge i p with hlt | hge
  · rw [max_eq_right (succ_le_of_lt hlt), nextStateId, takesEffect_replay hover h,
      max_eq_right hlt.le]
    split
    · next hreplayed =>
      have heffective := (Bool.and_eq_true_iff.mp hreplayed).1
      exact max_eq_left (newStateId_le_lastStateId h heffective hlt)
    · rfl
  · rw [max_eq_left hge, max_eq_left (hge.trans (le_succ i)), lastStateId_take_succ h]

theorem taken_segment (hover : Overtaken log) (p start count : ℕ) :
    taken (lastStateId (log.take (max start p))) (segment log start count) =
      (segment log start count).filter (replayed log p) := by
  induction count generalizing start with
  | zero => rw [segment, take_zero, taken, filter_nil]
  | succ count ih =>
    cases h : log[start]? with
    | none => rw [segment_eq_nil_of_none h, taken, filter_nil]
    | some cmd =>
      rw [segment_succ_of_getElem? h, taken_cons, takesEffect_replay hover h,
        nextStateId_replay hover h, ih, filter_cons]
      split <;> rfl

/-! ## The history of a prefix of the log -/

structure Proper (cmd : Group0Command) : Prop where
  stateId : cmd.historyAppend.stateId = cmd.newStateId
  null_lt : UUID.null < cmd.newStateId
  not_deletes : ∀ id, cmd.newStateId ≤ id → ¬cmd.historyAppend.Deletes id

/-- The history is that of the effective commands among the first `p`. -/
def HistoryOf (log : List Group0Command) (p : ℕ) (h : History) : Prop :=
  ∀ m, m ∈ h ↔ ∃ i < p, ∃ cmd, log[i]? = some cmd ∧ effective log i = true ∧
    cmd.historyAppend = m

section

variable {p : ℕ} {h : History}

theorem HistoryOf.mem_rows_iff (hh : HistoryOf log p h) (hproper : ∀ cmd ∈ log, Proper cmd)
    (id : UUID) :
    id ∈ h.rows ↔
      (∃ i < p, ∃ cmd, log[i]? = some cmd ∧ effective log i = true ∧ cmd.newStateId = id) ∧
      ∀ i < p, ∀ cmd, log[i]? = some cmd → effective log i = true →
        ¬cmd.historyAppend.Deletes id := by
  rw [History.rows, Finset.mem_filter, Finset.mem_image]
  refine and_congr ?_ ?_
  · constructor
    · rintro ⟨m, hm, rfl⟩
      obtain ⟨i, hi, cmd, hcmd, heffective, rfl⟩ := (hh m).mp hm
      exact ⟨i, hi, cmd, hcmd, heffective, (hproper cmd (mem_of_getElem? hcmd)).stateId.symm⟩
    · rintro ⟨i, hi, cmd, hcmd, heffective, rfl⟩
      exact ⟨cmd.historyAppend, (hh _).mpr ⟨i, hi, cmd, hcmd, heffective, rfl⟩,
        (hproper cmd (mem_of_getElem? hcmd)).stateId⟩
  · constructor
    · exact fun hall i hi cmd hcmd heffective =>
        hall _ ((hh _).mpr ⟨i, hi, cmd, hcmd, heffective, rfl⟩)
    · intro hall m hm
      obtain ⟨i, hi, cmd, hcmd, heffective, rfl⟩ := (hh m).mp hm
      exact hall i hi cmd hcmd heffective

theorem HistoryOf.getLastGroup0StateId_eq (hh : HistoryOf log p h)
    (hproper : ∀ cmd ∈ log, Proper cmd) :
    h.getLastGroup0StateId = lastStateId (log.take p) := by
  have hle : ∀ id ∈ h.rows, id ≤ lastStateId (log.take p) := by
    intro id hid
    obtain ⟨⟨i, hi, cmd, hcmd, heffective, rfl⟩, -⟩ := (hh.mem_rows_iff hproper id).mp hid
    exact newStateId_le_lastStateId hcmd heffective hi
  rcases lastStateId_take_cases log p with hnull | ⟨i, hi, cmd, hcmd, heffective, hlast⟩
  · have hempty : h.rows = ∅ := by
      refine Finset.eq_empty_iff_forall_notMem.mpr fun id hid => ?_
      obtain ⟨⟨i, hi, cmd, hcmd, heffective, rfl⟩, -⟩ := (hh.mem_rows_iff hproper id).mp hid
      have hpos := (hproper cmd (mem_of_getElem? hcmd)).null_lt
      have hle := newStateId_le_lastStateId hcmd heffective hi
      rw [hnull] at hle
      exact absurd hle (not_le.mpr hpos)
    rw [History.getLastGroup0StateId, hempty, hnull]
    rfl
  · have hmem : lastStateId (log.take p) ∈ h.rows := by
      refine (hh.mem_rows_iff hproper _).mpr ⟨⟨i, hi, cmd, hcmd, heffective, hlast.symm⟩, ?_⟩
      intro j hj cmd' hcmd' heffective'
      exact (hproper cmd' (mem_of_getElem? hcmd')).not_deletes _
        (newStateId_le_lastStateId hcmd' heffective' hj)
    have hmax : h.rows.max = (lastStateId (log.take p) : UUID) := by
      refine le_antisymm (Finset.max_le fun id hid => ?_) (Finset.le_max hmem)
      exact WithBot.coe_le_coe.mpr (hle id hid)
    rw [History.getLastGroup0StateId, hmax]
    rfl

end

end Scylla.Group0
