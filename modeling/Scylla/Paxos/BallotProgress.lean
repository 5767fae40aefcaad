import Scylla.Paxos.Coordinator

/-!
# The ballots of one coordinator

A coordinator retries its prepare until it has a ballot that it can propose with. The timestamp of
the next ballot is the clock, but at least what was learnt from accepted proposals in promises, and
more than the last one of the client. The ballot with which a replica rejects a prepare is recorded
as well, but the loop goes on before it looks there: only a faster clock gets past it.
-/

namespace Scylla.Paxos

open List
open Option

variable {R D : Type}

structure ClientState where
  lastTimestampMicros : ℕ
  deriving DecidableEq

def ClientState.getTimestampForPaxos (cs : ClientState) (now minTimestampToUse : ℕ) : ClientState :=
  let current := max now minTimestampToUse
  ⟨if current ≤ cs.lastTimestampMicros then cs.lastTimestampMicros + 1 else current⟩

def Ballot.micros (b : Ballot) : ℕ := b.timestamp / 10

/-- The beginning of time UUIDs before the Unix epoch, in their units. -/
def startEpoch : ℕ := 122192928000000000

/-- `get_random_time_UUID_from_micros`; the time must fit in 60 bits. -/
def randomTimeUuidFromMicros (micros random : ℕ) : Option Ballot :=
  if 10 * micros + startEpoch < 2 ^ 60 then some ⟨10 * micros, random⟩ else none

/-- The ballot that an answer to a prepare reports. -/
def PrepareResponse.reported : PrepareResponse D → Option Ballot
  | .ballot b => some b
  | .promise p => p.acceptedProposal.map Proposal.ballot

def reportedBallots (answers : List (R × PrepareResponse D)) : List Ballot :=
  answers.filterMap fun a => a.2.reported

namespace RequestTracker

variable [DecidableEq R] [DecidableEq D] {required : ℕ} {closest : Option R}

def late (required : ℕ) (closest : Option R) :
    RequestTracker R D → List (R × PrepareResponse D) → List (R × PrepareResponse D)
  | _, [] => []
  | t, a :: answers =>
    if t.done then a :: answers
    else late required closest (onPrepareResponse required closest t a) answers

def unrecorded (required : ℕ) (closest : Option R) (answers : List (R × PrepareResponse D)) :
    List Ballot :=
  if (prepareBallot required closest answers).summary.promised then
    reportedBallots (late required closest init answers)
  else reportedBallots answers

end RequestTracker

structure Iteration (R D : Type) where
  now : ℕ
  random : ℕ
  /-- The answers to the prepare, in the order of their arrival. -/
  answers : List (R × PrepareResponse D)
  /-- Whether the proposal to finish is accepted, if it does not fail. -/
  accepted : Option Bool
  /-- Whether the accepted proposal is learnt in time. -/
  learned : Bool
  /-- Whether the most recent commit has expired. -/
  expired : Bool
  /-- Whether replicas without the most recent commit are repaired. -/
  repaired : Bool
  /-- How far the client has gone on when the next iteration begins. -/
  elapsed : ℕ

/-- The state of `begin_and_repair_paxos` at the beginning of an iteration. -/
structure Session where
  minTimestampMicrosToUse : ℕ
  client : ClientState
  reported : List Ballot
  /-- Those among them that did not reach the loop. -/
  unrecorded : List Ballot
  deriving DecidableEq

namespace Session

variable [DecidableEq R] [DecidableEq D] {required : ℕ} {closest : Option R} {s s' : Session}

def start (client : ClientState) : Session := ⟨0, client, [], []⟩

/-- The client after it has been asked for a timestamp. -/
def nextClient (s : Session) (now : ℕ) : ClientState :=
  s.client.getTimestampForPaxos now s.minTimestampMicrosToUse

def nextBallot (s : Session) (now random : ℕ) : Option Ballot :=
  randomTimeUuidFromMicros (s.nextClient now).lastTimestampMicros random

/-- Whether the loop goes on after a quorum has promised the ballot. -/
def retries (summary : PrepareSummary R D) (i : Iteration R D) : Bool :=
  if summary.inProgress.isSome then
    match i.accepted with
    | some true => i.learned
    | some false => true
    | none => false
  else
    let missing := if i.expired then [] else summary.replicasMissingMostRecentCommit
    !missing.isEmpty && !i.repaired

/-- One iteration; no next state if the call ends. -/
def iterate (required : ℕ) (closest : Option R) (s : Session) (i : Iteration R D) :
    Option Session :=
  (s.nextBallot i.now i.random).bind fun _ =>
    let tracker := RequestTracker.prepareBallot required closest i.answers
    let next : Session :=
      { minTimestampMicrosToUse := s.minTimestampMicrosToUse
        client := ⟨(s.nextClient i.now).lastTimestampMicros + i.elapsed⟩
        reported := reportedBallots i.answers ++ s.reported
        unrecorded := RequestTracker.unrecorded required closest i.answers ++ s.unrecorded }
    if !tracker.done then none
    else if !tracker.summary.promised then some next
    else if retries tracker.summary i then
      some { next with
        minTimestampMicrosToUse := tracker.summary.mostRecentPromisedBallot.micros + 1 }
    else none

def Reached (required : ℕ) (closest : Option R) (client : ClientState) (s : Session) : Prop :=
  Reaches (iterate (D := D) required closest) (fun _ _ => True) (start client) s

/-- The ballot is newer than all that were reported to the call before. -/
def Newer (s : Session) (b : Ballot) : Prop := ∀ r ∈ s.reported, r.timestamp < b.timestamp

end Session

/-! ## What the summary records -/

theorem updateMostRecentPromisedBallot_timestamp (old b : Ballot) :
    (updateMostRecentPromisedBallot old b).timestamp = max old.timestamp b.timestamp := by
  unfold updateMostRecentPromisedBallot
  split
  next h => exact (max_eq_right h.le).symm
  next h => exact (max_eq_left (not_lt.mp h)).symm

namespace RequestTracker

variable [DecidableEq R] [DecidableEq D] {required : ℕ} {closest : Option R}

theorem mostRecentPromisedBallot_addData (t : RequestTracker R D) (r : R) (data : Option D) :
    (addData closest t r data).summary.mostRecentPromisedBallot =
      t.summary.mostRecentPromisedBallot := by
  unfold addData
  split
  · split
    · rfl
    · split <;> rfl
  · rfl

theorem timestamp_le_onPrepareResponse (t : RequestTracker R D) (a : R × PrepareResponse D) :
    t.summary.mostRecentPromisedBallot.timestamp ≤
      (onPrepareResponse required closest t a).summary.mostRecentPromisedBallot.timestamp := by
  unfold onPrepareResponse
  split
  · exact le_rfl
  · split
    · dsimp only
      rw [updateMostRecentPromisedBallot_timestamp]
      exact le_max_left _ _
    next p _ =>
      dsimp only [addPromise]
      rw [mostRecentPromisedBallot_addData]
      dsimp only [PrepareSummary.add]
      split
      · rw [updateMostRecentPromisedBallot_timestamp]
        exact le_max_left _ _
      · exact le_rfl

variable {b : Ballot} {t : RequestTracker R D}

theorem reported_le_onPrepareResponse {a : R × PrepareResponse D} (hdone : t.done = false)
    (hb : a.2.reported = some b) :
    b.timestamp ≤
      (onPrepareResponse required closest t a).summary.mostRecentPromisedBallot.timestamp := by
  obtain ⟨r, response⟩ := a
  unfold onPrepareResponse
  rw [if_neg (by simp [hdone])]
  cases response with
  | ballot b' =>
    cases hb
    rw [updateMostRecentPromisedBallot_timestamp]
    exact le_max_right _ _
  | promise p =>
    obtain ⟨q, hq, rfl⟩ := map_eq_some_iff.mp hb
    dsimp only [addPromise]
    rw [mostRecentPromisedBallot_addData]
    dsimp only [PrepareSummary.add]
    rw [hq]
    rw [updateMostRecentPromisedBallot_timestamp]
    exact le_max_right _ _

theorem timestamp_le_foldl (t : RequestTracker R D) (answers : List (R × PrepareResponse D)) :
    t.summary.mostRecentPromisedBallot.timestamp ≤
      (answers.foldl (onPrepareResponse required closest)
        t).summary.mostRecentPromisedBallot.timestamp := by
  induction answers generalizing t with
  | nil => exact le_rfl
  | cons a answers ih => exact (timestamp_le_onPrepareResponse t a).trans (ih _)

variable {answers : List (R × PrepareResponse D)}

theorem reported_cases (hb : b ∈ reportedBallots answers) :
    b ∈ reportedBallots (late required closest t answers) ∨
      b.timestamp ≤ (answers.foldl (onPrepareResponse required closest)
        t).summary.mostRecentPromisedBallot.timestamp := by
  induction answers generalizing t with
  | nil => cases hb
  | cons a answers ih =>
    rw [late]
    cases hdone : t.done with
    | true =>
      exact .inl hb
    | false =>
      obtain ⟨a', ha', hrep⟩ := mem_filterMap.mp hb
      rcases mem_cons.mp ha' with rfl | ha'
      · exact .inr ((reported_le_onPrepareResponse hdone hrep).trans (timestamp_le_foldl _ answers))
      · exact ih (mem_filterMap.mpr ⟨a', ha', hrep⟩)

theorem late_subset (t : RequestTracker R D) (answers : List (R × PrepareResponse D)) :
    late required closest t answers ⊆ answers := by
  induction answers generalizing t with
  | nil => exact nil_subset _
  | cons a answers ih =>
    rw [late]
    split
    · exact List.Subset.refl _
    · exact subset_cons_of_subset a (ih _)

theorem unrecorded_subset (answers : List (R × PrepareResponse D)) :
    unrecorded required closest answers ⊆ reportedBallots answers := by
  unfold unrecorded
  split
  · exact filterMap_subset _ (late_subset _ _)
  · exact List.Subset.refl _

theorem reported_of_promised (hb : b ∈ reportedBallots answers) :
    b ∈ unrecorded required closest answers ∨
      (prepareBallot required closest answers).summary.promised = true ∧
        b.timestamp ≤
          (prepareBallot required closest answers).summary.mostRecentPromisedBallot.timestamp := by
  unfold unrecorded
  cases hpromised : (prepareBallot required closest answers).summary.promised with
  | true =>
    exact (reported_cases hb).imp_right fun hle => ⟨rfl, hle⟩
  | false =>
    exact .inl hb

end RequestTracker

/-! ## The ballots of a run -/

theorem ClientState.lastTimestampMicros_getTimestampForPaxos (cs : ClientState)
    (now minTimestampToUse : ℕ) :
    (cs.getTimestampForPaxos now minTimestampToUse).lastTimestampMicros =
      max (max now minTimestampToUse) (cs.lastTimestampMicros + 1) := by
  unfold getTimestampForPaxos
  dsimp only
  split <;> omega

theorem Ballot.timestamp_lt_micros (b : Ballot) : b.timestamp < 10 * (b.micros + 1) := by
  unfold micros
  omega

namespace Session

variable [DecidableEq R] [DecidableEq D] {required : ℕ} {closest : Option R} {s s' : Session}

theorem timestamp_of_nextBallot {now random : ℕ} {b : Ballot}
    (h : s.nextBallot now random = some b) :
    b.timestamp =
      10 * max (max now s.minTimestampMicrosToUse) (s.client.lastTimestampMicros + 1) := by
  unfold nextBallot randomTimeUuidFromMicros at h
  obtain ⟨-, rfl⟩ := ite_some_none_eq_some.mp h
  rw [nextClient, ClientState.lastTimestampMicros_getTimestampForPaxos]

/-- Ballots that reached the loop are older than the next ballot at any clock. -/
def Recorded (s : Session) : Prop :=
  ∀ r ∈ s.reported, r ∈ s.unrecorded ∨
    r.timestamp < 10 * max s.minTimestampMicrosToUse (s.client.lastTimestampMicros + 1)

theorem Recorded.iterate (hs : s.Recorded) {i : Iteration R D}
    (h : s.iterate required closest i = some s') : s'.Recorded := by
  obtain ⟨b, -, h⟩ := bind_eq_some_iff.mp h
  obtain ⟨-, h⟩ := ite_none_left_eq_some.mp h
  have hclient : (s.nextClient i.now).lastTimestampMicros =
      max (max i.now s.minTimestampMicrosToUse) (s.client.lastTimestampMicros + 1) :=
    ClientState.lastTimestampMicros_getTimestampForPaxos _ _ _
  have hold (r : Ballot) (hr : r ∈ s.reported) : r ∈ s.unrecorded ∨
      r.timestamp < 10 * ((s.nextClient i.now).lastTimestampMicros + i.elapsed + 1) := by
    refine (hs r hr).imp_right fun hlt => hlt.trans_le ?_
    omega
  split at h
  next hrejected =>
    cases h
    intro r hr
    rcases mem_append.mp hr with hr | hr
    · rcases RequestTracker.reported_of_promised hr with hun | ⟨hpromised, -⟩
      · exact .inl (mem_append_left _ hun)
      · rw [hpromised] at hrejected
        cases hrejected
    · refine (hold r hr).imp (mem_append_right _) fun hlt => hlt.trans_le ?_
      exact Nat.mul_le_mul_left 10 (le_max_right _ _)
  next =>
    obtain ⟨-, rfl⟩ := ite_some_none_eq_some.mp h
    intro r hr
    rcases mem_append.mp hr with hr | hr
    · rcases RequestTracker.reported_of_promised hr with hun | ⟨-, hle⟩
      · exact .inl (mem_append_left _ hun)
      · refine .inr (hle.trans_lt ((Ballot.timestamp_lt_micros _).trans_le ?_))
        exact Nat.mul_le_mul_left 10 (le_max_left _ _)
    · refine (hold r hr).imp (mem_append_right _) fun hlt => hlt.trans_le ?_
      exact Nat.mul_le_mul_left 10 (le_max_right _ _)

theorem unrecorded_subset_of_iterate (hs : s.unrecorded ⊆ s.reported) {i : Iteration R D}
    (h : s.iterate required closest i = some s') : s'.unrecorded ⊆ s'.reported := by
  obtain ⟨b, -, h⟩ := bind_eq_some_iff.mp h
  obtain ⟨-, h⟩ := ite_none_left_eq_some.mp h
  have hsub : RequestTracker.unrecorded required closest i.answers ++ s.unrecorded ⊆
      reportedBallots i.answers ++ s.reported :=
    append_subset.mpr
      ⟨subset_append_of_subset_left _ (RequestTracker.unrecorded_subset i.answers),
        subset_append_of_subset_right _ hs⟩
  split at h
  · cases h
    exact hsub
  · obtain ⟨-, rfl⟩ := ite_some_none_eq_some.mp h
    exact hsub

/-- The ballot of an iteration is newer than all reported before exactly if those that did not reach
the loop are older than the clock, or than a timestamp the coordinator would not use any more. -/
theorem nextBallot_newer_iff {client : ClientState} {now random : ℕ} {b : Ballot}
    (h : Reached (D := D) required closest client s) (hb : s.nextBallot now random = some b) :
    s.Newer b ↔ ∀ r ∈ s.unrecorded, r.timestamp < 10 * now ∨
      r.timestamp < 10 * s.minTimestampMicrosToUse ∨
      r.timestamp < 10 * (s.client.lastTimestampMicros + 1) := by
  have hrecorded : s.Recorded :=
    h.invariant (fun r hr => nomatch hr) fun _ _ _ hs _ hi => hs.iterate hi
  have hsub : s.unrecorded ⊆ s.reported :=
    h.invariant (nil_subset _) fun _ _ _ hs _ hi => unrecorded_subset_of_iterate hs hi
  have htimestamp := timestamp_of_nextBallot hb
  constructor
  · intro hnewer r hr
    have hlt := hnewer r (hsub hr)
    omega
  · intro hold r hr
    rcases hrecorded r hr with hun | hlt
    · have hlt := hold r hun
      omega
    · omega

/-! ## A rejected prepare -/

/-- At 10 µs a prepare is rejected by a replica that has promised a ballot of 100 µs. -/
def rejectedPrepare : Iteration Unit Unit where
  now := 10
  random := 1
  answers := [((), .ballot ⟨1000, 2⟩)]
  accepted := none
  learned := false
  expired := false
  repaired := false
  elapsed := 0

def rejectedOnce : Session := ⟨0, ⟨10⟩, [⟨1000, 2⟩], [⟨1000, 2⟩]⟩

theorem reached_rejectedOnce : Reached (R := Unit) (D := Unit) 1 none ⟨0⟩ rejectedOnce := by
  have hstep : iterate 1 none (start ⟨0⟩) rejectedPrepare = some rejectedOnce := by decide
  exact .step .init trivial hstep

/-- The next ballot is older than the one promised and reported: the clock has not got there yet. -/
theorem not_newer_after_rejection :
    ∃ s b, Reached (R := Unit) (D := Unit) 1 none ⟨0⟩ s ∧ s.nextBallot 11 3 = some b ∧
      ¬ s.Newer b := by
  have hballot : rejectedOnce.nextBallot 11 3 = some ⟨110, 3⟩ := by decide
  refine ⟨rejectedOnce, ⟨110, 3⟩, reached_rejectedOnce, hballot, fun h => ?_⟩
  exact absurd (h ⟨1000, 2⟩ (by decide)) (by decide)

/-- Once the clock is past it, the next ballot is newer. -/
theorem newer_iff_after_rejection :
    rejectedOnce.nextBallot 101 3 = some ⟨1010, 3⟩ ∧ (rejectedOnce.Newer ⟨1010, 3⟩ ↔
      ∀ r ∈ rejectedOnce.unrecorded, r.timestamp < 10 * 101 ∨
        r.timestamp < 10 * rejectedOnce.minTimestampMicrosToUse ∨
        r.timestamp < 10 * (rejectedOnce.client.lastTimestampMicros + 1)) := by
  have hballot : rejectedOnce.nextBallot 101 3 = some ⟨1010, 3⟩ := by decide
  exact ⟨hballot, nextBallot_newer_iff reached_rejectedOnce hballot⟩

end Session

end Scylla.Paxos
