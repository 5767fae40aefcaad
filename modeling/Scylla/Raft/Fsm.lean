import Scylla.Raft.Tracker

/-!
# The Raft state machine

`fsm` is one server: messages, ticks and requests go in, and `get_output` collects what has to be
persisted, sent and applied. A failed assertion ends the process, for which functions return
nothing; a function that throws leaves the state as it was. The random election timeout and the
failure detector are inputs of the operations.
-/

namespace Scylla.Raft

inductive AppendResult where
  | rejected (r : Rejected)
  | accepted (lastNewIdx : ℕ)
  deriving DecidableEq

/-- `rpc_message`; all messages start with the term of the sender. -/
inductive Message where
  | appendRequest (currentTerm prevLogIdx prevLogTerm leaderCommitIdx : ℕ) (entries : List LogEntry)
  | appendReply (currentTerm commitIdx : ℕ) (result : AppendResult)
  | voteRequest (currentTerm lastLogIdx lastLogTerm : ℕ) (isPrevote force : Bool)
  | voteReply (currentTerm : ℕ) (voteGranted isPrevote : Bool)
  | installSnapshot (currentTerm : ℕ) (snp : SnapshotDescriptor)
  | snapshotReply (currentTerm : ℕ) (success : Bool)
  | timeoutNow (currentTerm : ℕ)
  | readQuorum (currentTerm leaderCommitIdx id : ℕ)
  | readQuorumReply (currentTerm commitIdx id : ℕ)
  deriving DecidableEq

def Message.currentTerm : Message → ℕ
  | appendRequest t .. | appendReply t .. | voteRequest t .. | voteReply t .. | installSnapshot t ..
  | snapshotReply t .. | timeoutNow t | readQuorum t .. | readQuorumReply t .. => t

/-- Messages that only a leader sends. -/
def Message.isFromLeader : Message → Bool
  | appendRequest .. | installSnapshot .. | readQuorum .. => true
  | _ => false

structure FsmConfig where
  appendRequestThreshold : ℕ
  enablePrevoting : Bool
  entrySize : LogEntry → ℕ
  memoryUsageOf : LogEntry → ℕ

structure Leader where
  tracker : Tracker
  /-- When a leadership transfer ends. -/
  stepdown : Option ℕ := none
  /-- The follower that was told to start an election. -/
  timeoutNowSent : Option ServerId := none
  lastReadId : ℕ := 0
  lastReadIdChanged : Bool := false
  maxReadIdWithQuorum : ℕ := 0
  deriving DecidableEq

inductive Role where
  | follower (currentLeader : Option ServerId)
  | candidate (votes : Votes) (isPrevote : Bool)
  | leader (l : Leader)
  deriving DecidableEq

structure AppliedSnapshot where
  snp : SnapshotDescriptor
  isLocal : Bool
  preservedLogEntries : ℕ
  deriving DecidableEq

structure FsmOutput where
  termAndVote : Option (ℕ × Option ServerId) := none
  logEntries : List LogEntry := []
  messages : List (ServerId × Message) := []
  committed : List LogEntry := []
  snp : Option AppliedSnapshot := none
  snpsToDrop : List ℕ := []
  maxReadIdWithQuorum : Option ℕ := none
  stateChanged : Bool := false
  abortLeadershipTransfer : Bool := false
  deriving DecidableEq

/-- `last_observed_state`. -/
structure Observed where
  currentTerm : ℕ
  votedFor : Option ServerId
  commitIdx : ℕ
  lastConfIdx : ℕ
  lastTerm : ℕ
  abortLeadershipTransfer : Bool
  deriving DecidableEq

structure Fsm where
  myId : ServerId
  state : Role
  currentTerm : ℕ
  votedFor : Option ServerId
  commitIdx : ℕ
  log : Log
  abortLeadershipTransfer : Bool
  pingLeader : Bool
  /-- What the last output has seen. -/
  observed : Observed
  /-- What the next output will contain. -/
  output : FsmOutput
  clock : ℕ
  lastElectionTime : ℕ
  randomizedElectionTimeout : ℕ
  messages : List (ServerId × Message)
  deriving DecidableEq

def electionTimeout : ℕ := 10

namespace Fsm

variable (cfg : FsmConfig)

/-! ## Roles -/

def isFollower (s : Fsm) : Bool := match s.state with | .follower _ => true | _ => false

def isCandidate (s : Fsm) : Bool := match s.state with | .candidate .. => true | _ => false

def isLeader (s : Fsm) : Bool := match s.state with | .leader _ => true | _ => false

def currentLeader (s : Fsm) : Option ServerId :=
  match s.state with
  | .leader _ => some s.myId
  | .candidate .. => none
  | .follower l => l

def sendTo (s : Fsm) (dst : ServerId) (m : Message) : Fsm :=
  { s with messages := s.messages ++ [(dst, m)] }

/-- `last_observed_state::advance`. -/
def observe (s : Fsm) : Observed :=
  ⟨s.currentTerm, s.votedFor, s.commitIdx, s.log.confIdx, s.log.lastTerm, s.abortLeadershipTransfer⟩

def updateCurrentTerm (s : Fsm) (term : ℕ) : Fsm := { s with currentTerm := term, votedFor := none }

def becomeFollower (s : Fsm) (leader : Option ServerId) : Fsm :=
  let s := if s.isFollower then s else { s with output.stateChanged := true }
  let s := { s with state := .follower leader }
  if leader.isSome then { s with pingLeader := false, lastElectionTime := s.clock } else s

/-- `add_entry`, for a leader that may add entries. -/
def pushEntry (s : Fsm) (data : EntryData) : Fsm :=
  { s with log := s.log.emplaceBack ⟨s.currentTerm, s.log.nextIdx, data⟩ }

def setLeader (s : Fsm) (l : Leader) : Fsm := { s with state := .leader l }

def setConfiguration (s : Fsm) (l : Leader) : Fsm :=
  s.setLeader { l with tracker := l.tracker.setConfiguration s.log.getConfiguration s.log.lastIdx }

/-- `become_leader`: a new leader adds a dummy entry. -/
def becomeLeader (s : Fsm) : Fsm :=
  let s := { s with output.stateChanged := true, lastElectionTime := s.clock, pingLeader := false }
  (s.pushEntry .dummy).setConfiguration { tracker := .empty }

def requestVotes (isPrevote isLeadershipTransfer : Bool) (s : Fsm) (term : ℕ)
    (voters : List ServerId) : List (ServerId × Message) :=
  (voters.filter (· ≠ s.myId)).map fun id =>
    (id, .voteRequest term s.log.lastIdx s.log.lastTerm isPrevote isLeadershipTransfer)

def mayCampaign (s : Fsm) (votes : Votes) : Bool :=
  s.myId ∈ votes.voters ||
    (s.commitIdx < s.log.confIdx && s.log.getPrevConfiguration.any (·.canVote s.myId))

def startCampaign (isPrevote : Bool) (timeout : ℕ) (s : Fsm) : Fsm :=
  let s := if s.isCandidate then s else { s with output.stateChanged := true }
  { s with
    state := .candidate (.ofConfiguration s.log.getConfiguration) isPrevote
    randomizedElectionTimeout := timeout
    lastElectionTime := s.clock }

def castVotes (isPrevote isLeadershipTransfer : Bool) (votes : Votes) (s : Fsm) : Fsm :=
  let term := s.currentTerm + 1
  let s := if isPrevote then s else s.updateCurrentTerm term
  { s with
    votedFor := if s.myId ∈ votes.voters && !isPrevote then some s.myId else s.votedFor
    messages := s.messages ++ s.requestVotes isPrevote isLeadershipTransfer term votes.voters }

def ownVote (s : Fsm) (votes : Votes) : Votes :=
  if s.myId ∈ votes.voters then votes.registerVote s.myId true else votes

/-- `become_candidate`, with what follows when the vote is won at once. -/
def campaign (won : Fsm → Fsm) (isPrevote isLeadershipTransfer : Bool) (timeout : ℕ) (s : Fsm) :
    Fsm :=
  let votes := Votes.ofConfiguration s.log.getConfiguration
  let s := s.startCampaign isPrevote timeout
  if !s.mayCampaign votes then s.becomeFollower none
  else
    let s : Fsm := { s.castVotes isPrevote isLeadershipTransfer votes with
      state := .candidate (s.ownVote votes) isPrevote }
    if (s.ownVote votes).tallyVotes = .won then won s else s

def becomeCandidate (isPrevote isLeadershipTransfer : Bool) (timeout : ℕ) (s : Fsm) : Fsm :=
  if isPrevote then
    campaign (campaign becomeLeader false false timeout) true isLeadershipTransfer timeout s
  else campaign becomeLeader false isLeadershipTransfer timeout s

/-! ## Replication -/

def takeBatch (entrySize : LogEntry → ℕ) (threshold : ℕ) : ℕ → List LogEntry → List LogEntry
  | _, [] => []
  | size, e :: es =>
    if size < threshold then e :: takeBatch entrySize threshold (size + entrySize e) es else []

def requestEntries (log : Log) (p : Progress) : List LogEntry :=
  let rest := log.entries.drop (p.nextIdx - log.firstIdx)
  let batch := takeBatch cfg.entrySize cfg.appendRequestThreshold 0 rest
  if p.state = .probe then batch.take 1 else batch

def requestSent (p : Progress) (entries : List LogEntry) : Progress :=
  match p.state with
  | .probe => { p with probeSent := true }
  | .pipeline => { p with inFlight := p.inFlight + 1, nextIdx := p.nextIdx + entries.length }
  | .snapshot => p

/-- The loop of `replicate_to`: the progress afterwards and the messages. -/
def replicateLoop (log : Log) (term commitIdx : ℕ) :
    ℕ → Bool → Progress → Progress × List Message
  | 0, _, p => (p, [])
  | n + 1, allowEmpty, p =>
    if !p.canSendTo then (p, [])
    else if log.lastIdx < p.nextIdx && !allowEmpty then (p, [])
    else
      match log.termFor (p.nextIdx - 1) with
      | none => (p.becomeSnapshot log.snapshot.idx, [.installSnapshot term log.snapshot])
      | some prevTerm =>
        let past := log.lastIdx < p.nextIdx
        let entries := if past then [] else requestEntries cfg log p
        -- an empty request is not counted as in flight
        let p' :=
          if past then (if p.state = .probe then { p with probeSent := true } else p)
          else requestSent p entries
        let (q, ms) := replicateLoop log term commitIdx n false p'
        (q, .appendRequest term (p.nextIdx - 1) prevTerm commitIdx entries :: ms)

/-- `replicate_to`; no more messages are sent than may be in flight, and an empty one. -/
def replicateTo (s : Fsm) (p : Progress) (allowEmpty : Bool) : Progress × List (ServerId × Message) :=
  let (q, ms) := replicateLoop cfg s.log s.currentTerm s.commitIdx (Progress.maxInFlight + 2)
    allowEmpty p
  (q, ms.map fun m => (p.id, m))

def replicateToId (s : Fsm) (l : Leader) (id : ServerId) (allowEmpty : Bool) : Fsm :=
  match l.tracker.find id with
  | none => s.setLeader l
  | some p =>
    let (q, ms) := s.replicateTo cfg p allowEmpty
    { s.setLeader { l with tracker := l.tracker.update id fun _ => q } with
      messages := s.messages ++ ms }

def replicate (s : Fsm) (l : Leader) : Fsm :=
  let sent := l.tracker.progress.map fun p =>
    if p.id ≠ s.myId then s.replicateTo cfg p false else (p, [])
  { s.setLeader { l with tracker := { l.tracker with progress := sent.map Prod.fst } } with
    messages := s.messages ++ sent.flatMap Prod.snd }

/-! ## Leadership transfer -/

def sendTimeoutNow (s : Fsm) (l : Leader) (id : ServerId) : Fsm :=
  let s := (s.sendTo id (.timeoutNow s.currentTerm)).setLeader { l with timeoutNowSent := some id }
  if (l.tracker.find s.myId).any Progress.canVote then s else s.becomeFollower none

/-- `transfer_leadership`; it throws when there is no other voter. -/
def transferLeadership (s : Fsm) (l : Leader) (timeout : ℕ) : Fsm :=
  if s.log.getConfiguration.current.voters.length = 1 &&
      (l.tracker.find s.myId).any Progress.canVote then s
  else
    let l := { l with stepdown := some (s.clock + timeout) }
    match l.tracker.progress.find? fun p =>
        p.id ≠ s.myId && p.canVote && p.matchIdx = s.log.lastIdx with
    | some p => s.sendTimeoutNow l p.id
    | none => s.setLeader l

/-! ## Reads -/

def handleReadQuorumReply (s : Fsm) (l : Leader) (id : ServerId) (commitIdx readId : ℕ) :
    Fsm :=
  match l.tracker.find id with
  | none => s.setLeader l
  | some _ =>
    let l := { l with tracker := l.tracker.update id fun p =>
      { p with commitIdx := max p.commitIdx commitIdx, maxAckedRead := max p.maxAckedRead readId } }
    if readId ≤ l.maxReadIdWithQuorum then s.setLeader l
    else
      let read := l.tracker.committed Progress.maxAckedRead l.maxReadIdWithQuorum
      if read ≤ l.maxReadIdWithQuorum then s.setLeader l
      else
        { s.setLeader { l with maxReadIdWithQuorum := read } with
          output.maxReadIdWithQuorum := some read }

def broadcastReadQuorum (s : Fsm) (l : Leader) (readId : ℕ) : Fsm :=
  l.tracker.progress.foldl (fun s p =>
    if !p.canVote then s
    else if p.id = s.myId then
      match s.state with
      | .leader l => s.handleReadQuorumReply l s.myId s.commitIdx readId
      | _ => s
    else s.sendTo p.id (.readQuorum s.currentTerm (min p.matchIdx s.commitIdx) readId))
    (s.setLeader l)

/-- Send the last read again, if it is not acknowledged. -/
def resendRead (s : Fsm) : Fsm :=
  match s.state with
  | .leader l =>
    if l.lastReadId ≠ l.maxReadIdWithQuorum then s.broadcastReadQuorum l l.lastReadId else s
  | _ => s

def startReadBarrier (s : Fsm) (requester : ServerId) : Fsm × Option (ℕ × ℕ) :=
  match s.state with
  | .leader l =>
    if (requester = s.myId || (l.tracker.find requester).isSome) &&
        s.log.termFor s.commitIdx = some s.currentTerm then
      (s.setLeader { l with lastReadId := l.lastReadId + 1, lastReadIdChanged := true },
        some (l.lastReadId + 1, s.commitIdx))
    else (s, none)
  | _ => (s, none)

/-! ## Committing -/

def committedConfChange (again : Fsm → Option Fsm) (s : Fsm) (l : Leader) : Option Fsm :=
  let s :=
    if s.log.getConfiguration.isJoint then
      again ((s.pushEntry (.configuration s.log.getConfiguration.leaveJoint)).setConfiguration l)
    else if (l.tracker.find s.myId).any Progress.canVote then some s
    else some (s.transferLeadership l 0)
  s.map resendRead

def commitOnce (again : Fsm → Option Fsm) (s : Fsm) : Option Fsm :=
  match s.state with
  | .leader l =>
    let newCommitIdx := l.tracker.committed Progress.matchIdx s.commitIdx
    if newCommitIdx ≤ s.commitIdx then some s
    else do
      let e ← s.log.getEntry newCommitIdx
      if e.term ≠ s.currentTerm then some s
      else
        let confChange := s.commitIdx < s.log.confIdx && s.log.confIdx ≤ newCommitIdx
        let s := { s with commitIdx := newCommitIdx }
        if confChange then s.committedConfChange again l else some s
  | _ => some s

def maybeCommit : Fsm → Option Fsm := commitOnce (commitOnce some)

def advanceCommitIdx (s : Fsm) (leaderCommitIdx : ℕ) : Fsm :=
  { s with commitIdx := max s.commitIdx (min leaderCommitIdx s.log.lastIdx) }

def advanceStableIdx (s : Fsm) (idx : ℕ) : Option Fsm :=
  let s := { s with log := s.log.stableTo idx }
  match s.state with
  | .leader l =>
    if (l.tracker.find s.myId).isSome then
      (s.setLeader { l with tracker := l.tracker.update s.myId (·.accepted idx) }).maybeCommit
    else some s
  | _ => some s

/-! ## Requests -/

def addEntry (s : Fsm) (data : EntryData) : Fsm :=
  match s.state with
  | .leader l =>
    if l.stepdown.isSome then s
    else
      match data with
      | .configuration c =>
        if !Configuration.check c.current || s.commitIdx < s.log.confIdx ||
            s.log.getConfiguration.isJoint then s
        else
          (s.pushEntry (.configuration (s.log.getConfiguration.enterJoint c.current))).setConfiguration
            l
      | _ => s.pushEntry data
  | _ => s

def applySnapshot (s : Fsm) (snp : SnapshotDescriptor)
    (maxTrailingEntries maxTrailingBytes : ℕ) (isLocal : Bool) : Option (Fsm × Bool) :=
  if (isLocal && snp.idx ≤ s.observed.commitIdx) || (!isLocal && s.isFollower) then
    if snp.idx ≤ s.log.snapshot.idx || (!isLocal && snp.idx ≤ s.commitIdx) then
      some ({ s with output.snpsToDrop := s.output.snpsToDrop ++ [snp.id] }, false)
    else
      let log := s.log.applySnapshot cfg.memoryUsageOf snp maxTrailingEntries maxTrailingBytes
      some ({ s with
        commitIdx := max s.commitIdx snp.idx
        log
        output.snpsToDrop := s.output.snpsToDrop ++ [s.log.snapshot.id]
        output.snp := some ⟨snp, isLocal, snp.idx + 1 - log.firstIdx⟩ }, true)
  else none

/-! ## Ticks -/

def tickProgress (s : Fsm) (p : Progress) : Progress × List (ServerId × Message) :=
  let send (p : Progress) :=
    if p.matchIdx < s.log.lastIdx || p.commitIdx < s.commitIdx then s.replicateTo cfg p true
    else (p, [])
  if p.id = s.myId then (p, [])
  else
    match p.state with
    | .probe => send { p with probeSent := false }
    | .pipeline =>
      send (if p.inFlight = Progress.maxInFlight then { p with inFlight := p.inFlight - 1 } else p)
    | .snapshot => (p, [])

def tickFollowers (s : Fsm) (l : Leader) : Fsm :=
  let sent := l.tracker.progress.map (s.tickProgress cfg)
  { s.setLeader { l with tracker := { l.tracker with progress := sent.map Prod.fst } } with
    messages := s.messages ++ sent.flatMap Prod.snd }

/-- A leader that has heard of a majority stays one. -/
def noteActivity (alive : ServerId → Bool) (s : Fsm) : Fsm :=
  match s.state with
  | .leader l =>
    let others := (l.tracker.progress.map Progress.id).filter fun id => id ≠ s.myId && alive id
    if l.tracker.isActive (s.myId :: others) then { s with lastElectionTime := s.clock } else s
  | _ => s

def tickStepdown (s : Fsm) : Fsm :=
  match s.state with
  | .leader l =>
    match l.stepdown with
    | none => s
    | some deadline =>
      if !(l.tracker.find s.myId).any Progress.canVote then s
      else if deadline ≤ s.clock then
        { s.setLeader { l with stepdown := none, timeoutNowSent := none } with
          abortLeadershipTransfer := true }
      else
        match l.timeoutNowSent with
        | some id => s.sendTo id (.timeoutNow s.currentTerm)
        | none => s
  | _ => s

def tickLeader (alive : ServerId → Bool) (s : Fsm) (l : Leader) : Fsm :=
  if electionTimeout ≤ s.clock - s.lastElectionTime then s.becomeFollower none
  else (((s.tickFollowers cfg l).resendRead).noteActivity alive).tickStepdown

/-- Ask the other voters whether they know a leader. -/
def searchLeader (alive : ServerId → Bool) (s : Fsm) : Fsm :=
  let c := s.log.getConfiguration
  if s.isFollower && s.currentLeader.isNone && s.pingLeader && !c.isJoint &&
      (c.current.find s.myId).isSome then
    { s with messages := s.messages ++
        (c.current.voters.filter fun id => id ≠ s.myId && alive id).map fun id =>
          (id, .appendReply s.currentTerm s.commitIdx (.rejected ⟨0, 0⟩)) }
  else s

def tickOther (alive : ServerId → Bool) (timeout : ℕ) (s : Fsm) : Fsm :=
  let hasStableLeader := s.currentLeader.any fun id =>
    s.log.getConfiguration.canVote id && alive id
  if hasStableLeader then { s with lastElectionTime := s.clock }
  else if s.randomizedElectionTimeout ≤ s.clock - s.lastElectionTime then
    s.becomeCandidate cfg.enablePrevoting false timeout
  else s

def tick (alive : ServerId → Bool) (timeout : ℕ) (s : Fsm) : Fsm :=
  let s := { s with clock := s.clock + 1 }
  let s :=
    match s.state with
    | .leader l => s.tickLeader cfg alive l
    | _ => s.tickOther cfg alive timeout
  s.searchLeader alive

/-! ## Messages -/

def appendEntries (s : Fsm) (src : ServerId) (prevLogIdx prevLogTerm leaderCommitIdx : ℕ)
    (entries : List LogEntry) : Option Fsm :=
  if !s.log.matchTerm prevLogIdx prevLogTerm then
    some (s.sendTo src (.appendReply s.currentTerm s.commitIdx
      (.rejected ⟨prevLogIdx, s.log.lastIdx⟩)))
  else do
    let lastNewIdx := (entries.getLast?.map LogEntry.idx).getD prevLogIdx
    let log ← s.log.maybeAppend entries
    let s := { s with log }.advanceCommitIdx (min leaderCommitIdx lastNewIdx)
    some (s.sendTo src (.appendReply s.currentTerm s.commitIdx (.accepted lastNewIdx)))

/-- A leader that is stepping down hands over to a voter with the whole log. -/
def maybeHandOver (s : Fsm) (l : Leader) (p : Progress) : Fsm :=
  if l.stepdown.isSome && l.timeoutNowSent.isNone && p.canVote && p.matchIdx = s.log.lastIdx then
    s.sendTimeoutNow l p.id
  else s.setLeader l

/-- Commit what a majority has, and send more entries to a follower. -/
def commitAndReplicate (s : Fsm) (id : ServerId) : Option Fsm :=
  if s.isLeader then do
    let s ← s.maybeCommit
    match s.state with
    | .leader l => some (s.replicateToId cfg l id false)
    | _ => some s
  else some s

def appendAccepted (s : Fsm) (l : Leader) (p : Progress) (lastNewIdx : ℕ) : Option Fsm :=
  let p := (p.accepted lastNewIdx).becomePipeline
  let l := { l with tracker := l.tracker.update p.id fun _ => p }
  (s.maybeHandOver l p).commitAndReplicate cfg p.id

def appendRejected (s : Fsm) (l : Leader) (p : Progress) (r : Rejected) : Fsm :=
  let l := { l with tracker := l.tracker.update p.id fun _ => p }
  if r.nonMatchingIdx = 0 && r.lastIdx = 0 then s.replicateToId cfg l p.id true
  else if p.isStrayReject r then s.setLeader l
  else
    let p := { p with nextIdx := min r.nonMatchingIdx (r.lastIdx + 1) }.becomeProbe
    s.replicateToId cfg { l with tracker := l.tracker.update p.id fun _ => p } p.id false

def appendEntriesReply (s : Fsm) (l : Leader) (src : ServerId) (commitIdx : ℕ)
    (result : AppendResult) : Option Fsm :=
  match l.tracker.find src with
  | none => some s
  | some p =>
    let p := if p.state = .pipeline then { p with inFlight := p.inFlight - 1 } else p
    if p.state = .snapshot then some s
    else
      let p := { p with commitIdx := max p.commitIdx commitIdx }
      match result with
      | .accepted lastNewIdx => s.appendAccepted cfg l p lastNewIdx
      | .rejected r => some (s.appendRejected cfg l p r)

def requestVote (s : Fsm) (src : ServerId) (term lastLogIdx lastLogTerm : ℕ) (isPrevote : Bool) :
    Fsm :=
  let canVote := s.votedFor = some src ||
    (s.votedFor.isNone && s.currentLeader.isNone) ||
    (isPrevote && s.currentTerm < term)
  if canVote && s.log.isUpToDate lastLogIdx lastLogTerm then
    let s :=
      if isPrevote then s else { s with lastElectionTime := s.clock, votedFor := some src }
    s.sendTo src (.voteReply term true isPrevote)
  else s.sendTo src (.voteReply s.currentTerm false isPrevote)

def requestVoteReply (s : Fsm) (votes : Votes) (campaign : Bool) (src : ServerId)
    (voteGranted isPrevote : Bool) (timeout : ℕ) : Fsm :=
  if campaign ≠ isPrevote then s
  else
    let votes := votes.registerVote src voteGranted
    let s := { s with state := .candidate votes campaign }
    match votes.tallyVotes with
    | .unknown => s
    | .won => if campaign then s.becomeCandidate false false timeout else s.becomeLeader
    | .lost => s.becomeFollower none

def installSnapshotReply (s : Fsm) (l : Leader) (src : ServerId) (success : Bool) : Fsm :=
  match l.tracker.find src with
  | none => s
  | some p =>
    if p.state ≠ .snapshot then s
    else
      let l := { l with tracker := l.tracker.update src fun _ => p.becomeProbe }
      if success then s.replicateToId cfg l src false else s.setLeader l

/-- `step` of a message of the current term, and of prevotes of later terms. -/
def stepCurrent (s : Fsm) (src : ServerId) (m : Message) (timeout : ℕ) : Option Fsm :=
  match s.state, m with
  | _, .voteRequest term lastLogIdx lastLogTerm isPrevote _ =>
    some (s.requestVote src term lastLogIdx lastLogTerm isPrevote)
  | .leader l, .appendReply _ commitIdx result => s.appendEntriesReply cfg l src commitIdx result
  | .leader l, .snapshotReply _ success => some (s.installSnapshotReply cfg l src success)
  | .leader l, .readQuorumReply _ commitIdx id =>
    some (s.handleReadQuorumReply l src commitIdx id)
  | .candidate votes campaign, .voteReply _ voteGranted isPrevote =>
    some (s.requestVoteReply votes campaign src voteGranted isPrevote timeout)
  | .follower _, .appendRequest _ prevLogIdx prevLogTerm leaderCommitIdx entries =>
    s.appendEntries src prevLogIdx prevLogTerm leaderCommitIdx entries
  | .follower _, .installSnapshot _ snp => do
    let (s', success) ← s.applySnapshot cfg snp 0 0 false
    some (s'.sendTo src (.snapshotReply s'.currentTerm success))
  | .follower _, .timeoutNow _ => some (s.becomeCandidate false true timeout)
  | .follower _, .readQuorum _ leaderCommitIdx id =>
    let s := s.advanceCommitIdx leaderCommitIdx
    some (s.sendTo src (.readQuorumReply s.currentTerm s.commitIdx id))
  | _, .installSnapshot .. => some (s.sendTo src (.snapshotReply s.currentTerm false))
  | _, _ => some s

/-- Whether a message of a later term leaves the term as it is. -/
def ignoresTerm : Message → Bool
  | .voteRequest _ _ _ isPrevote _ => isPrevote
  | .voteReply _ voteGranted isPrevote => isPrevote && voteGranted
  | _ => false

def stepEarlier (s : Fsm) (src : ServerId) : Message → Fsm
  | .appendRequest .. | .readQuorum .. =>
    s.sendTo src (.appendReply s.currentTerm s.commitIdx (.rejected ⟨0, s.log.lastIdx⟩))
  | .installSnapshot .. => s.sendTo src (.snapshotReply s.currentTerm false)
  | .voteRequest _ _ _ isPrevote _ =>
    if isPrevote then s.sendTo src (.voteReply s.currentTerm false true) else s
  | _ => s

/-- A message of the current term that only a leader sends makes a candidate a follower. -/
def recogniseLeader (s : Fsm) (src : ServerId) : Fsm :=
  let s :=
    match s.state with
    | .candidate .. => s.becomeFollower (some src)
    | .follower none => { s with state := .follower (some src), pingLeader := false }
    | _ => s
  { s with lastElectionTime := s.clock }

/-- `step`. A server does not get messages from itself. -/
def step (s : Fsm) (src : ServerId) (m : Message) (timeout : ℕ) : Option Fsm :=
  if src = s.myId then none
  else if s.currentTerm < m.currentTerm then
    match m with
    | .readQuorumReply .. => some s
    | m =>
      let s :=
        if ignoresTerm m then s
        else (s.becomeFollower (if m.isFromLeader then some src else none)).updateCurrentTerm
          m.currentTerm
      s.stepCurrent cfg src m timeout
  else if m.currentTerm < s.currentTerm then some (s.stepEarlier src m)
  else
    let s := if m.isFromLeader then s.recogniseLeader src else s
    s.stepCurrent cfg src m timeout

/-! ## Output -/

/-- The entries with the given indexes, all of which have to be in the log. -/
def entriesAt (log : Log) (first count : ℕ) : Option (List LogEntry) :=
  (List.range' first count).mapM log.getEntry

def sendReads (s : Fsm) : Fsm :=
  match s.state with
  | .leader l =>
    if l.lastReadIdChanged then
      s.broadcastReadQuorum { l with lastReadIdChanged := false } l.lastReadId
    else s
  | _ => s

def sendEntries (s : Fsm) : Fsm :=
  match s.state with
  | .leader l => if s.log.stableIdx < s.log.lastIdx then s.replicate cfg l else s
  | _ => s

def makeOutput (s : Fsm) (logEntries committed : List LogEntry) : FsmOutput :=
  { s.output with
    logEntries
    termAndVote :=
      if s.observed.currentTerm ≠ s.currentTerm ∨ s.observed.votedFor ≠ s.votedFor then
        some (s.currentTerm, s.votedFor)
      else none
    committed
    messages := s.messages
    abortLeadershipTransfer := s.abortLeadershipTransfer }

def outputTaken (s : Fsm) : Fsm :=
  let s := { s with output := {}, messages := [], abortLeadershipTransfer := false }
  { s with observed := s.observe }

/-- Entries count as persisted once they are handed out. -/
def markStable (s : Fsm) (logEntries : List LogEntry) : Option Fsm :=
  match logEntries.getLast? with
  | some e => s.advanceStableIdx e.idx
  | none => some s

def getOutput (s : Fsm) : Option (FsmOutput × Fsm) := do
  let s := s.sendReads.sendEntries cfg
  let logEntries ← entriesAt s.log (s.log.stableIdx + 1) (s.log.lastIdx - s.log.stableIdx)
  let observedIdx := max s.observed.commitIdx s.log.snapshot.idx
  let committed ← entriesAt s.log (observedIdx + 1) (s.commitIdx - observedIdx)
  let s' ← s.outputTaken.markStable logEntries
  some (s.makeOutput logEntries committed, s')

def init (myId : ServerId) (currentTerm : ℕ) (votedFor : Option ServerId) (log : Log)
    (commitIdx timeout : ℕ) : Fsm :=
  let s : Fsm := {
    myId, state := .follower none, currentTerm, votedFor, commitIdx := log.snapshot.idx, log
    abortLeadershipTransfer := false, pingLeader := false
    observed := ⟨currentTerm, votedFor, log.snapshot.idx, log.confIdx, log.lastTerm, false⟩
    output := {}, clock := 0, lastElectionTime := 0
    randomizedElectionTimeout := electionTimeout + 1, messages := [] }
  let s := { s with commitIdx := max s.commitIdx commitIdx }
  let c := log.getConfiguration
  if c.current.members.length = 1 && c.canVote myId then
    s.becomeCandidate cfg.enablePrevoting false timeout
  else { s with randomizedElectionTimeout := timeout }

end Fsm

end Scylla.Raft
