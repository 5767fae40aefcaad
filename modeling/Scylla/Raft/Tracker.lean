import Scylla.Raft.Log
import Mathlib.Data.List.Dedup
import Mathlib.Data.List.Sort

/-!
# Counting votes and replicas

The leader's view of its followers, the commit index it derives from the replies of a majority of
the voters, of both configurations during a change, and the votes a candidate has collected.
-/

namespace Scylla.Raft

/-- `follower_progress::state`. -/
inductive ProgressState where
  /-- One entry is sent at a time until the logs match. -/
  | probe
  /-- Entries are sent optimistically. -/
  | pipeline
  | snapshot
  deriving DecidableEq

structure Rejected where
  nonMatchingIdx : ℕ
  lastIdx : ℕ
  deriving DecidableEq

/-- `follower_progress`. -/
structure Progress where
  id : ServerId
  nextIdx : ℕ
  matchIdx : ℕ := 0
  commitIdx : ℕ := 0
  maxAckedRead : ℕ := 0
  canVote : Bool := true
  state : ProgressState := .probe
  probeSent : Bool := false
  inFlight : ℕ := 0
  deriving DecidableEq

namespace Progress

def maxInFlight : ℕ := 10

def accepted (p : Progress) (idx : ℕ) : Progress :=
  { p with matchIdx := max idx p.matchIdx, nextIdx := max (idx + 1) p.nextIdx }

def isStrayReject (p : Progress) (r : Rejected) : Bool :=
  if r.nonMatchingIdx ≤ p.matchIdx then true
  else if r.lastIdx < p.matchIdx then true
  else
    match p.state with
    | .pipeline => false
    | .probe => r.nonMatchingIdx ≠ p.nextIdx - 1
    | .snapshot => true

def becomeProbe (p : Progress) : Progress := { p with state := .probe, probeSent := false }

def becomePipeline (p : Progress) : Progress :=
  if p.state ≠ .pipeline then { p with state := .pipeline, inFlight := 0 } else p

def becomeSnapshot (p : Progress) (snpIdx : ℕ) : Progress :=
  { p with state := .snapshot, nextIdx := snpIdx + 1 }

def canSendTo (p : Progress) : Bool :=
  match p.state with
  | .probe => !p.probeSent
  | .pipeline => p.inFlight < maxInFlight
  | .snapshot => false

end Progress

structure Tracker where
  /-- One entry per member of the configuration. -/
  progress : List Progress
  currentVoters : List ServerId
  /-- The voters of the previous configuration during a change. -/
  previousVoters : List ServerId
  deriving DecidableEq

namespace Tracker

def empty : Tracker := ⟨[], [], []⟩

def find (t : Tracker) (id : ServerId) : Option Progress := t.progress.find? (·.id = id)

def update (t : Tracker) (id : ServerId) (f : Progress → Progress) : Tracker :=
  { t with progress := t.progress.map fun p => if p.id = id then f p else p }

/-- One step of `set_configuration` adds the member unless it is there. -/
def emplace (t : Tracker) (nextIdx : ℕ) (new : List Progress) (s : ConfigMember) : List Progress :=
  if new.any (·.id = s.id) then new
  else new ++ [{ (t.find s.id).getD { id := s.id, nextIdx } with canVote := s.canVote }]

/-- `set_configuration`: members keep their progress. -/
def setConfiguration (t : Tracker) (c : Configuration) (nextIdx : ℕ) : Tracker where
  progress := (c.current.members ++ c.previous.members).foldl (t.emplace nextIdx) []
  currentVoters := c.current.voters
  previousVoters := c.previous.voters

/-- `match_vector`: the indexes of voters, counted when they are past the last commit. -/
def committedIn (indexes : List ℕ) (prev : ℕ) : Option ℕ :=
  if indexes.length / 2 + 1 ≤ indexes.countP (prev < ·) then
    (indexes.insertionSort (· ≤ ·))[(indexes.length - 1) / 2]?
  else none

/-- `committed`, for the index of entries or of reads. -/
def committed (t : Tracker) (index : Progress → ℕ) (prev : ℕ) : ℕ :=
  let of (voters : List ServerId) := (t.progress.filter (·.id ∈ voters)).map index
  if t.previousVoters ≠ [] then
    match committedIn (of t.currentVoters) prev, committedIn (of t.previousVoters) prev with
    | some i, some j => min i j
    | _, _ => prev
  else (committedIn (of t.currentVoters) prev).getD prev

/-- `activity_tracker`: whether the active servers are a majority. -/
def isActive (t : Tracker) (active : List ServerId) : Bool :=
  let of (voters : List ServerId) := voters.length / 2 + 1 ≤ active.countP (· ∈ voters)
  of t.currentVoters && (t.previousVoters = [] || of t.previousVoters)

end Tracker

/-! ## Votes -/

inductive VoteResult where
  | unknown
  | won
  | lost
  deriving DecidableEq

structure ElectionTracker where
  suffrage : List ServerId
  responded : List ServerId
  granted : ℕ
  deriving DecidableEq

namespace ElectionTracker

def ofConfiguration (c : ConfigMemberSet) : ElectionTracker := ⟨c.voters, [], 0⟩

/-- `register_vote`: only the first vote of a voter counts. -/
def registerVote (t : ElectionTracker) (id : ServerId) (granted : Bool) : ElectionTracker :=
  if id ∈ t.suffrage ∧ id ∉ t.responded then
    { t with responded := id :: t.responded, granted := t.granted + granted.toNat }
  else t

def tallyVotes (t : ElectionTracker) : VoteResult :=
  let quorum := t.suffrage.length / 2 + 1
  if quorum ≤ t.granted then .won
  else if quorum ≤ t.granted + (t.suffrage.length - t.responded.length) then .unknown
  else .lost

end ElectionTracker

structure Votes where
  voters : List ServerId
  current : ElectionTracker
  previous : Option ElectionTracker
  deriving DecidableEq

namespace Votes

def ofConfiguration (c : Configuration) : Votes where
  voters := (c.previous.voters ++ c.current.voters).dedup
  current := .ofConfiguration c.current
  previous := if c.isJoint then some (.ofConfiguration c.previous) else none

def registerVote (v : Votes) (id : ServerId) (granted : Bool) : Votes :=
  { v with
    current := v.current.registerVote id granted
    previous := v.previous.map (·.registerVote id granted) }

def tallyVotes (v : Votes) : VoteResult :=
  match v.previous with
  | some p => if p.tallyVotes ≠ .won then p.tallyVotes else v.current.tallyVotes
  | none => v.current.tallyVotes

end Votes

end Scylla.Raft
