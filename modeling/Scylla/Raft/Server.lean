import Scylla.Core.Reachable
import Scylla.Raft.Fsm

/-!
# One server over time

A server takes messages, ticks and requests, and every now and then its output is fetched and
processed: `process_fsm_output` writes term and vote, snapshot and log entries to disk before it
sends messages and applies entries. Batches hold copies of what they need, so fetching and
processing an output is one step here. For the statements about runs, a server also remembers all
its outputs, and the last configuration that was seen to be followed by another one.
-/

namespace Scylla.Raft

structure Persistence where
  term : ℕ
  vote : Option ServerId
  snapshot : SnapshotDescriptor
  entries : List LogEntry
  commitIdx : ℕ
  deriving DecidableEq

namespace Persistence

def storeTermAndVote (p : Persistence) (term : ℕ) (vote : Option ServerId) : Persistence :=
  { p with term, vote }

def storeSnapshotDescriptor (p : Persistence) (snp : SnapshotDescriptor)
    (preserveLogEntries : ℕ) : Persistence :=
  { p with
    snapshot := snp
    entries := p.entries.filter (snp.idx - preserveLogEntries < ·.idx) }

def truncateLog (p : Persistence) (idx : ℕ) : Persistence :=
  { p with entries := p.entries.filter (·.idx < idx) }

def storeLogEntries (p : Persistence) (entries : List LogEntry) : Persistence :=
  { p with entries := p.entries ++ entries }

def storeCommitIdx (p : Persistence) (idx : ℕ) : Persistence := { p with commitIdx := idx }

/-- What `process_fsm_output` writes, and the new value of `last_stable`. -/
def process (p : Persistence) (lastStable : ℕ) (batch : FsmOutput) : Persistence × ℕ :=
  let p := batch.termAndVote.elim p fun tv => p.storeTermAndVote tv.1 tv.2
  let p := batch.snp.elim p fun s => p.storeSnapshotDescriptor s.snp s.preservedLogEntries
  let (p, lastStable) :=
    match batch.logEntries with
    | [] => (p, lastStable)
    | e :: es =>
      let p := if e.idx ≤ lastStable then p.truncateLog e.idx else p
      (p.storeLogEntries (e :: es), ((e :: es).getLast (List.cons_ne_nil e es)).idx)
  (batch.committed.getLast?.elim p fun e => p.storeCommitIdx e.idx, lastStable)

end Persistence

/-- The indexes of the configurations after the snapshot. -/
def Log.confs (l : Log) : List ℕ :=
  ((l.entries.filter (l.snapshot.idx < ·.idx)).filter LogEntry.isConf).map LogEntry.idx

/-- The last configuration that is followed by another one. -/
def Log.settledConf (l : Log) : ℕ := l.confs.dropLast.getLast?.getD 0

structure Server where
  fsm : Fsm
  disk : Persistence
  lastStable : ℕ
  /-- The outputs so far, the last one first. -/
  outputs : List FsmOutput
  /-- The last configuration that was seen to be followed by another one. -/
  settled : ℕ

inductive Action where
  | step (src : ServerId) (m : Message) (timeout : ℕ)
  /-- The clock advances; some servers are alive. -/
  | tick (alive : ServerId → Bool) (timeout : ℕ)
  | addEntry (data : EntryData)
  | localSnapshot (snp : SnapshotDescriptor) (maxTrailingEntries maxTrailingBytes : ℕ)
  | startReadBarrier (requester : ServerId)
  | transferLeadership (timeout : ℕ)
  | pingLeader
  | stop
  | poll

namespace Server

variable (cfg : FsmConfig)

/-- What an action other than fetching the output does to the state machine. -/
def perform (s : Fsm) : Action → Option Fsm
  | .step src m timeout => s.step cfg src m timeout
  | .tick alive timeout => some (s.tick cfg alive timeout)
  | .addEntry data => some (s.addEntry data)
  | .localSnapshot snp n bytes => (s.applySnapshot cfg snp n bytes true).map Prod.fst
  | .startReadBarrier requester => some (s.startReadBarrier requester).1
  | .transferLeadership timeout =>
    match s.state with
    | .leader l => some (s.transferLeadership l timeout)
    | _ => some s
  | .pingLeader => if s.currentLeader.isNone then some { s with pingLeader := true } else none
  | .stop => if s.isLeader then some (s.becomeFollower none) else some s
  | .poll => none

/-- Remember the configurations that are followed by another one. -/
def settle (s : Server) : Server := { s with settled := max s.settled s.fsm.log.settledConf }

def poll (s : Server) : Option Server := do
  let (batch, fsm) ← s.fsm.getOutput cfg
  let (disk, lastStable) := s.disk.process s.lastStable batch
  some { s with fsm, disk, lastStable, outputs := batch :: s.outputs }

def step (s : Server) (a : Action) : Option Server :=
  match a with
  | .poll => (s.poll cfg).map settle
  | a => (perform cfg s.fsm a).map fun fsm => settle { s with fsm }

def start (myId : ServerId) (disk : Persistence) (timeout : ℕ) : Option Server := do
  let log ← Log.load disk.snapshot disk.entries
  if log.stableIdx < disk.commitIdx then none
  else
    let fsm := Fsm.init cfg myId disk.term disk.vote log disk.commitIdx timeout
    some (settle { fsm, disk, lastStable := log.stableIdx, outputs := [], settled := 0 })

end Server

end Scylla.Raft
