import Scylla.Core.Reachable
import Scylla.Group0.Replay

/-!
# Clients of group 0

Nodes start operations on the state that they have applied, and add commands to the log until they
learn that one of the copies was applied. Commands are committed in one order, and every node
applies the log in pieces of its own, crashing and starting again from an earlier index.
-/

namespace Scylla.Group0

open Option

/-! ## Creating commands -/

/-- `generate_group0_state_id`; the time is that of the clock of the node. -/
def generateGroup0StateId (prevStateId : UUID) (now : ℕ) (random : BitVec 64) : UUID :=
  let lowerBound := prevStateId.microsTimestamp
  let ts := if prevStateId ≠ UUID.null ∧ now ≤ lowerBound then lowerBound + 1 else now
  UUID.getRandomTimeUUIDFromMicros ts random

/-- `prepare_command`, with the state id that a guard observed or without a guard. -/
def prepareCommand (historyGcDuration : ℕ) (change : Change) (observed : Option UUID)
    (newStateId : UUID) : Option Group0Command :=
  (makeGroup0HistoryStateIdMutation newStateId (some historyGcDuration)).map fun historyAppend =>
    ⟨change, historyAppend, observed, newStateId⟩

/-! ## The system -/

inductive Outcome where
  | done
  | concurrentModification
  deriving DecidableEq

/-- An operation runs until `add_entry` returns or its node crashes. -/
inductive Status where
  | running
  | lost
  | returned (outcome : Outcome)
  deriving DecidableEq

structure Operation (α : Type) where
  node : α
  observedAt : ℕ
  cmd : Group0Command
  status : Status

def Operation.writeTimestamp {α : Type} (op : Operation α) : ℕ := op.cmd.newStateId.microsTimestamp

structure Node where
  tables : Tables
  applied : ℕ
  begun : ℕ

structure State (α : Type) where
  log : List Group0Command
  nodes : α → Node
  operations : List (Operation α)

inductive Action (α : Type) where
  | startOperation (n : α) (now : ℕ) (random : BitVec 64) (change : Change)
  /-- The command of an operation is committed, which happens again when it is retried. -/
  | commitGuarded (k : ℕ)
  /-- A command of `add_entry_unguarded` is committed. -/
  | commitUnguarded (now : ℕ) (random : BitVec 64) (change : Change)
  | apply (n : α) (maxCommandSize count : ℕ)
  /-- A node crashes while it applies commands, after some batches and a part of the next, and
  starts again from the index. -/
  | crash (n : α) (maxCommandSize count batches : ℕ) (part : Finset ℕ) (index : ℕ)
  | returnFrom (k : ℕ)

section

variable {α : Type}

/-- The state id is not in use yet: state ids are taken to be unique. -/
def State.Unused (s : State α) (id : UUID) : Prop :=
  (∀ cmd ∈ s.log, cmd.newStateId ≠ id) ∧ ∀ op ∈ s.operations, op.cmd.newStateId ≠ id

instance (s : State α) (id : UUID) : Decidable (s.Unused id) :=
  inferInstanceAs (Decidable (_ ∧ _))

def State.commits (historyGcDuration : ℕ) (s : State α) : Action α → Option Group0Command
  | .commitGuarded k => s.operations[k]?.map Operation.cmd
  | .commitUnguarded now random change =>
    let newStateId := generateGroup0StateId UUID.null now random
    if s.Unused newStateId then prepareCommand historyGcDuration change none newStateId else none
  | _ => none

def State.startOperation (historyGcDuration : ℕ) (s : State α) (n : α) (now : ℕ)
    (random : BitVec 64) (change : Change) : Option (Operation α) :=
  let node := s.nodes n
  let observed := node.tables.history.getLastGroup0StateId
  let newStateId := generateGroup0StateId observed now random
  if node.begun ≤ node.applied ∧ s.Unused newStateId then
    (prepareCommand historyGcDuration change (some observed) newStateId).map fun cmd =>
      ⟨n, node.applied, cmd, .running⟩
  else none

/-- The end of `add_entry`, when a copy of the command was applied on the node. -/
def State.addEntryOutcome (s : State α) (op : Operation α) : Option Outcome :=
  if op.status = .running ∧ ∃ i < (s.nodes op.node).applied, s.log[i]? = some op.cmd then
    if (s.nodes op.node).tables.history.group0HistoryContains op.cmd.newStateId then some .done
    else some .concurrentModification
  else none

variable [DecidableEq α]

def Operation.afterCrash (n : α) (op : Operation α) : Operation α :=
  if op.node = n ∧ op.status = .running then { op with status := .lost } else op

def step (historyGcDuration : ℕ) (s : State α) (a : Action α) : Option (State α) :=
  match a with
  | .startOperation n now random change =>
    (s.startOperation historyGcDuration n now random change).map fun op =>
      { s with operations := s.operations ++ [op] }
  | .commitGuarded _ | .commitUnguarded _ _ _ =>
    (s.commits historyGcDuration a).map fun cmd => { s with log := s.log ++ [cmd] }
  | .apply n maxCommandSize count =>
    let node := s.nodes n
    if node.applied + count ≤ s.log.length then
      some { s with
        nodes := Function.update s.nodes n
          ⟨node.tables.apply maxCommandSize (segment s.log node.applied count),
            node.applied + count, max node.begun (node.applied + count)⟩ }
    else none
  | .crash n maxCommandSize count batches part index =>
    let node := s.nodes n
    if node.applied + count ≤ s.log.length ∧ index ≤ node.applied then
      some { s with
        nodes := Function.update s.nodes n
          ⟨node.tables.applyUntil maxCommandSize (segment s.log node.applied count) batches part,
            index, max node.begun (node.applied + count)⟩
        operations := s.operations.map (Operation.afterCrash n) }
    else none
  | .returnFrom k =>
    s.operations[k]?.bind fun op => (s.addEntryOutcome op).map fun outcome =>
      { s with operations := s.operations.set k { op with status := .returned outcome } }

def State.initial : State α := ⟨[], fun _ => ⟨⟨∅, ∅⟩, 0, 0⟩, []⟩

end

/-! ## Serializability -/

section

variable {α : Type}

/-- The change of the command at the index was written by some node. -/
def State.TookEffect (s : State α) (i : ℕ) : Prop := ∃ n, i ∈ (s.nodes n).tables.written

structure Serializable (s : State α) : Prop where
  /-- Nodes agree on what took effect in what both have applied. -/
  agree : ∀ a b i, i < (s.nodes a).applied → i < (s.nodes b).applied →
    (i ∈ (s.nodes a).tables.written ↔ i ∈ (s.nodes b).tables.written)
  /-- A guarded command takes effect at most once. -/
  once : ∀ op ∈ s.operations, ∀ i j, s.log[i]? = some op.cmd → s.log[j]? = some op.cmd →
    s.TookEffect i → s.TookEffect j → i = j
  /-- Nothing takes effect between what was observed and the command. -/
  undisturbed : ∀ op ∈ s.operations, ∀ i, s.log[i]? = some op.cmd → s.TookEffect i →
    ∀ j, op.observedAt ≤ j → j < i → ¬s.TookEffect j
  /-- Write timestamps increase in the order of the log. -/
  timestamps : ∀ op ∈ s.operations, ∀ op' ∈ s.operations, ∀ i j, i < j →
    s.log[i]? = some op.cmd → s.log[j]? = some op'.cmd → s.TookEffect i → s.TookEffect j →
    op.writeTimestamp < op'.writeTimestamp
  /-- `add_entry` succeeds only if the command took effect. -/
  succeeded : ∀ op ∈ s.operations, op.status = .returned .done →
    ∃ i, s.log[i]? = some op.cmd ∧ s.TookEffect i
  /-- `add_entry` reports a concurrent modification only if the command never takes effect in the
  run. -/
  rejected : ∀ op ∈ s.operations, op.status = .returned .concurrentModification →
    ∀ i, s.log[i]? = some op.cmd → ¬s.TookEffect i

/-- The command is in the log where it takes effect. -/
def InEffect (log : List Group0Command) (cmd : Group0Command) : Prop :=
  ∃ i < log.length, log[i]? = some cmd ∧ effective log i = true

instance (log : List Group0Command) (cmd : Group0Command) : Decidable (InEffect log cmd) :=
  inferInstanceAs (Decidable (∃ i < log.length, _))

/-- The deletion of the command spares the operations in effect that still wait. -/
def State.Spares (s : State α) (cmd : Group0Command) : Prop :=
  ∀ op ∈ s.operations, op.status = .running → InEffect s.log op.cmd →
    ¬cmd.historyAppend.Deletes op.cmd.newStateId

instance (s : State α) (cmd : Group0Command) : Decidable (s.Spares cmd) :=
  inferInstanceAs (Decidable (∀ op ∈ s.operations, _))

def Careful (historyGcDuration : ℕ) (s : State α) (a : Action α) : Prop :=
  ∀ cmd ∈ s.commits historyGcDuration a,
    (cmd.prevStateId = none → lastStateId s.log < cmd.newStateId) ∧
    (cmd.takesEffect (lastStateId s.log) = true → s.Spares cmd)

instance (historyGcDuration : ℕ) (s : State α) (a : Action α) :
    Decidable (Careful historyGcDuration s a) :=
  inferInstanceAs (Decidable (∀ cmd ∈ s.commits historyGcDuration a, _))

end

/-! ## What a step can do -/

section

variable {α : Type} [DecidableEq α] {gc : ℕ} {s s' : State α} {a : Action α}

inductive Stepped (gc : ℕ) (s : State α) (a : Action α) (s' : State α) : Prop
  | started (n : α) (now : ℕ) (random : BitVec 64) (change : Change) (op : Operation α)
      (hop : s.startOperation gc n now random change = some op)
      (hs' : s' = { s with operations := s.operations ++ [op] })
  | committed (cmd : Group0Command) (hcmd : s.commits gc a = some cmd)
      (hs' : s' = { s with log := s.log ++ [cmd] })
  | applied (n : α) (maxCommandSize count : ℕ)
      (hlen : (s.nodes n).applied + count ≤ s.log.length)
      (hs' : s' = { s with
        nodes := Function.update s.nodes n
          ⟨(s.nodes n).tables.apply maxCommandSize (segment s.log (s.nodes n).applied count),
            (s.nodes n).applied + count, max (s.nodes n).begun ((s.nodes n).applied + count)⟩ })
  | crashed (n : α) (maxCommandSize count batches : ℕ) (part : Finset ℕ) (index : ℕ)
      (hlen : (s.nodes n).applied + count ≤ s.log.length) (hindex : index ≤ (s.nodes n).applied)
      (hs' : s' = { s with
        nodes := Function.update s.nodes n
          ⟨(s.nodes n).tables.applyUntil maxCommandSize
              (segment s.log (s.nodes n).applied count) batches part,
            index, max (s.nodes n).begun ((s.nodes n).applied + count)⟩
        operations := s.operations.map (Operation.afterCrash n) })
  | returned (k : ℕ) (op : Operation α) (outcome : Outcome) (hop : s.operations[k]? = some op)
      (houtcome : s.addEntryOutcome op = some outcome)
      (hs' : s' = { s with
        operations := s.operations.set k { op with status := .returned outcome } })

theorem stepped_of_step (h : step gc s a = some s') : Stepped gc s a s' := by
  cases a with
  | startOperation n now random change =>
    obtain ⟨op, hop, hs'⟩ := map_eq_some_iff.mp h
    exact .started n now random change op hop hs'.symm
  | commitGuarded k =>
    obtain ⟨cmd, hcmd, hs'⟩ := map_eq_some_iff.mp h
    exact .committed cmd hcmd hs'.symm
  | commitUnguarded now random change =>
    obtain ⟨cmd, hcmd, hs'⟩ := map_eq_some_iff.mp h
    exact .committed cmd hcmd hs'.symm
  | apply n maxCommandSize count =>
    obtain ⟨hlen, hs'⟩ := ite_none_right_eq_some.mp h
    exact .applied n maxCommandSize count hlen (Option.some.inj hs').symm
  | crash n maxCommandSize count batches part index =>
    obtain ⟨⟨hlen, hindex⟩, hs'⟩ := ite_none_right_eq_some.mp h
    exact .crashed n maxCommandSize count batches part index hlen hindex (Option.some.inj hs').symm
  | returnFrom k =>
    obtain ⟨op, hop, hbind⟩ := bind_eq_some_iff.mp h
    obtain ⟨outcome, houtcome, hs'⟩ := map_eq_some_iff.mp hbind
    exact .returned k op outcome hop houtcome hs'.symm

end

/-! ## The commands that are prepared -/

theorem Proper.of_prepareCommand {gc : ℕ} {change : Change} {observed : Option UUID} {id : UUID}
    {cmd : Group0Command} (hid : UUID.null < id)
    (h : prepareCommand gc change observed id = some cmd) :
    Proper cmd ∧ cmd.prevStateId = observed ∧ cmd.newStateId = id := by
  obtain ⟨history, hhistory, rfl⟩ := map_eq_some_iff.mp h
  obtain ⟨hassert, rfl⟩ := ite_some_none_eq_some.mp hhistory
  refine ⟨⟨rfl, hid, ?_⟩, rfl, rfl⟩
  rintro id' hle ⟨⟨bound, hbound, hlt⟩, -⟩
  obtain rfl := mem_some_iff.mp hbound
  -- the bound lies at or before the microsecond of the state id
  have htimestamp := UUID.lt_minTimeUUID_iff.mp hlt
  have hmono : id.timestamp ≤ id'.timestamp := UUID.timestamp_le_of_le hle
  have hmicros : id.microsTimestamp = (id.timestamp - UUID.startEpoch) / 10 := rfl
  omega

theorem null_lt_generateGroup0StateId (prev : UUID) (now : ℕ) (random : BitVec 64) :
    UUID.null < generateGroup0StateId prev now random :=
  UUID.null_lt_getRandomTimeUUIDFromMicros _ _

theorem lt_generateGroup0StateId {prev : UUID} (hprev : prev ≠ UUID.null) (now : ℕ)
    (random : BitVec 64) :
    prev.microsTimestamp < (generateGroup0StateId prev now random).microsTimestamp := by
  rw [generateGroup0StateId, UUID.microsTimestamp_getRandomTimeUUIDFromMicros]
  split
  · exact Nat.lt_succ_self _
  · next h => exact not_le.mp fun hle => h ⟨hprev, hle⟩

end Scylla.Group0
