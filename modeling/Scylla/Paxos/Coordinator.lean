import Scylla.Core.Quorum
import Scylla.Paxos.Replica

/-!
# The prepare summary of a coordinator

A coordinator collects the answers to a prepare in the order of their arrival, until one of them
rejects the ballot or a quorum has promised it. The summary it ends with is sound: it speaks for a
quorum of replicas, knows the newest commit and the newest accepted proposal any of them reported,
and holds prefetched data only if all of them returned the same.
-/

namespace Scylla.Paxos

open List

variable {R D : Type}

/-- `_required_participants`: the size of a quorum of the replicas. -/
def requiredParticipants (R : Type) [Fintype R] : ℕ :=
  majoritySize (Finset.univ : Finset R)

structure PrepareSummary (R D : Type) where
  committedBallotsByReplica : List (R × Ballot)
  promised : Bool
  mostRecentPromisedBallot : Ballot
  mostRecentCommit : Option (Proposal D)
  mostRecentProposal : Option (Proposal D)
  data : Option D

structure RequestTracker (R D : Type) where
  summary : PrepareSummary R D
  digestsMatch : Bool
  digest : Option D
  done : Bool

def RequestTracker.init : RequestTracker R D where
  summary := ⟨[], true, Ballot.minTime, none, none, none⟩
  digestsMatch := true
  digest := none
  done := false

/-- The ballot recorded for a replica: that of the commit it reported. -/
def Promise.committedBallot (p : Promise D) : Ballot :=
  match p.mostRecentCommit with
  | some c => c.ballot
  | none => Ballot.minTime

def newest (old new : Option (Proposal D)) : Option (Proposal D) :=
  match old, new with
  | old, none => old
  | none, some p => some p
  | some q, some p => if q.ballot.timestamp < p.ballot.timestamp then some p else some q

def updateMostRecentPromisedBallot (old b : Ballot) : Ballot :=
  if old.timestamp < b.timestamp then b else old

/-- What a promise adds to the summary, except for the data. -/
def PrepareSummary.add (summary : PrepareSummary R D) (r : R) (p : Promise D) :
    PrepareSummary R D :=
  { summary with
    committedBallotsByReplica := summary.committedBallotsByReplica ++ [(r, p.committedBallot)]
    mostRecentPromisedBallot :=
      match p.acceptedProposal with
      | some a => updateMostRecentPromisedBallot summary.mostRecentPromisedBallot a.ballot
      | none => summary.mostRecentPromisedBallot
    mostRecentCommit := newest summary.mostRecentCommit p.mostRecentCommit
    mostRecentProposal := newest summary.mostRecentProposal p.acceptedProposal }

namespace RequestTracker

/-- Compares the query result of one answer with those before it. -/
def addData [DecidableEq R] [DecidableEq D] (closest : Option R) (t : RequestTracker R D) (r : R)
    (dataOrDigest : Option D) : RequestTracker R D :=
  if t.digestsMatch then
    match dataOrDigest with
    | none => { t with digestsMatch := false, digest := none, summary.data := none }
    | some d =>
      if t.digest = none ∨ t.digest = some d then
        -- only the closest replica sends the data, the others send digests
        let data := if t.summary.data = none ∧ closest = some r then some d else t.summary.data
        { t with digest := some d, summary.data := data }
      else { t with digestsMatch := false, digest := none, summary.data := none }
  else t

/-- What `on_prepare_response` does with a promise. -/
def addPromise [DecidableEq R] [DecidableEq D] (required : ℕ) (closest : Option R)
    (t : RequestTracker R D) (r : R) (p : Promise D) : RequestTracker R D :=
  { addData closest { t with summary := t.summary.add r p } r p.dataOrDigest with
    done := decide ((t.summary.add r p).committedBallotsByReplica.length = required) }

def onPrepareResponse [DecidableEq R] [DecidableEq D] (required : ℕ) (closest : Option R)
    (t : RequestTracker R D) (answer : R × PrepareResponse D) : RequestTracker R D :=
  if t.done then t
  else
    match answer.2 with
    | .ballot b =>
      { t with
        summary := { t.summary with
          promised := false
          mostRecentPromisedBallot :=
            updateMostRecentPromisedBallot t.summary.mostRecentPromisedBallot b }
        done := true }
    | .promise p => addPromise required closest t answer.1 p

/-- `prepare_ballot`: the answers in the order of their arrival. -/
def prepareBallot [DecidableEq R] [DecidableEq D] (required : ℕ) (closest : Option R)
    (answers : List (R × PrepareResponse D)) : RequestTracker R D :=
  answers.foldl (onPrepareResponse required closest) init

end RequestTracker

namespace PrepareSummary

def replicas (summary : PrepareSummary R D) : List R :=
  summary.committedBallotsByReplica.map Prod.fst

/-- The accepted proposal that must be completed: it is newer than the newest commit. -/
def inProgress (summary : PrepareSummary R D) : Option (Proposal D) :=
  match summary.mostRecentProposal, summary.mostRecentCommit with
  | some p, none => some p
  | some p, some c => if c.ballot.timestamp < p.ballot.timestamp then some p else none
  | none, _ => none

def replicasMissingMostRecentCommit (summary : PrepareSummary R D) : List R :=
  match summary.mostRecentCommit with
  | none => []
  | some c => (summary.committedBallotsByReplica.filter fun e => e.2 ≠ c.ballot).map Prod.fst

variable {summary : PrepareSummary R D}

theorem inProgress_eq_some {q : Proposal D}
    (h : summary.inProgress = some q) : summary.mostRecentProposal = some q ∧
      ∀ c, summary.mostRecentCommit = some c → c.ballot.timestamp < q.ballot.timestamp := by
  unfold inProgress at h
  split at h
  · next hp hc => simp_all
  · next hp hc =>
    split_ifs at h with hlt
    cases h
    refine ⟨hp, fun c' hc' => ?_⟩
    cases hc.symm.trans hc'
    exact hlt
  · cases h

theorem inProgress_eq_none {q : Proposal D}
    (h : summary.inProgress = none) (hq : summary.mostRecentProposal = some q) :
    ∃ c, summary.mostRecentCommit = some c ∧ q.ballot.timestamp ≤ c.ballot.timestamp := by
  unfold inProgress at h
  cases hc : summary.mostRecentCommit with
  | none => simp [hq, hc] at h
  | some c => exact ⟨c, rfl, by simpa [hq, hc] using h⟩

end PrepareSummary

/-! ## What the summary says about the answers -/

theorem newest_eq_some {old new : Option (Proposal D)} {p : Proposal D}
    (h : newest old new = some p) : old = some p ∨ new = some p := by
  unfold newest at h
  split at h
  · exact .inl h
  · exact .inr h
  · split_ifs at h
    · exact .inr h
    · exact .inl h

theorem newest_ge_left (new : Option (Proposal D)) (q : Proposal D) :
    ∃ p, newest (some q) new = some p ∧ q.ballot.timestamp ≤ p.ballot.timestamp := by
  cases new with
  | none => exact ⟨q, rfl, le_rfl⟩
  | some p =>
    by_cases h : q.ballot.timestamp < p.ballot.timestamp
    · exact ⟨p, by simp [newest, h], h.le⟩
    · exact ⟨q, by simp [newest, h], le_rfl⟩

theorem newest_ge_right (old : Option (Proposal D)) (q : Proposal D) :
    ∃ p, newest old (some q) = some p ∧ q.ballot.timestamp ≤ p.ballot.timestamp := by
  cases old with
  | none => exact ⟨q, rfl, le_rfl⟩
  | some p =>
    by_cases h : p.ballot.timestamp < q.ballot.timestamp
    · exact ⟨q, by simp [newest, h], le_rfl⟩
    · exact ⟨p, by simp [newest, h], not_lt.mp h⟩

namespace PrepareSummary

structure Collected (answer : R → Option (PrepareResponse D)) (summary : PrepareSummary R D) :
    Prop where
  nodup : summary.replicas.Nodup
  reported : ∀ e ∈ summary.committedBallotsByReplica, ∃ p,
    answer e.1 = some (.promise p) ∧ e.2 = p.committedBallot
  commit_ge : ∀ r ∈ summary.replicas, ∀ p, answer r = some (.promise p) →
    ∀ c, p.mostRecentCommit = some c →
      ∃ c', summary.mostRecentCommit = some c' ∧ c.ballot.timestamp ≤ c'.ballot.timestamp
  proposal_ge : ∀ r ∈ summary.replicas, ∀ p, answer r = some (.promise p) →
    ∀ a, p.acceptedProposal = some a →
      ∃ a', summary.mostRecentProposal = some a' ∧ a.ballot.timestamp ≤ a'.ballot.timestamp
  commit_mem : ∀ c, summary.mostRecentCommit = some c → ∃ r ∈ summary.replicas, ∃ p,
    answer r = some (.promise p) ∧ p.mostRecentCommit = some c
  proposal_mem : ∀ a, summary.mostRecentProposal = some a → ∃ r ∈ summary.replicas, ∃ p,
    answer r = some (.promise p) ∧ p.acceptedProposal = some a

structure Sound [Fintype R] [DecidableEq R] (answer : R → Option (PrepareResponse D))
    (summary : PrepareSummary R D) : Prop extends Collected answer summary where
  quorum : IsMajority Finset.univ summary.replicas.toFinset
  data_eq : ∀ d, summary.data = some d → ∀ r ∈ summary.replicas, ∃ p,
    answer r = some (.promise p) ∧ p.dataOrDigest = some d

variable {answer : R → Option (PrepareResponse D)} {summary : PrepareSummary R D}

theorem Collected.exists_promise (h : summary.Collected answer) {r : R}
    (hr : r ∈ summary.replicas) : ∃ p, answer r = some (.promise p) := by
  obtain ⟨e, he, rfl⟩ := mem_map.mp hr
  obtain ⟨p, hp, -⟩ := h.reported e he
  exact ⟨p, hp⟩

theorem Sound.mono [Fintype R] [DecidableEq R] {answer' : R → Option (PrepareResponse D)}
    (h : summary.Sound answer) (hle : ∀ {r x}, answer r = some x → answer' r = some x) :
    summary.Sound answer' := by
  have hback : ∀ r ∈ summary.replicas, ∀ p, answer' r = some (.promise p) →
      answer r = some (.promise p) := by
    intro r hr p hp
    obtain ⟨q, hq⟩ := h.exists_promise hr
    cases (hle hq).symm.trans hp
    exact hq
  refine ⟨⟨h.nodup, ?_, ?_, ?_, ?_, ?_⟩, h.quorum, ?_⟩
  · intro e he
    obtain ⟨p, hp, heq⟩ := h.reported e he
    exact ⟨p, hle hp, heq⟩
  · exact fun r hr p hp => h.commit_ge r hr p (hback r hr p hp)
  · exact fun r hr p hp => h.proposal_ge r hr p (hback r hr p hp)
  · intro c hc
    obtain ⟨r, hr, p, hp, hpc⟩ := h.commit_mem c hc
    exact ⟨r, hr, p, hle hp, hpc⟩
  · intro a ha
    obtain ⟨r, hr, p, hp, hpa⟩ := h.proposal_mem a ha
    exact ⟨r, hr, p, hle hp, hpa⟩
  · intro d hd r hr
    obtain ⟨p, hp, hpd⟩ := h.data_eq d hd r hr
    exact ⟨p, hle hp, hpd⟩

theorem replicas_add (summary : PrepareSummary R D) (r : R) (p : Promise D) :
    (summary.add r p).replicas = summary.replicas ++ [r] := by
  simp [replicas, add]

theorem Collected.add (h : summary.Collected answer) {r : R} (hnew : r ∉ summary.replicas)
    {p : Promise D} (hr : answer r = some (.promise p)) : (summary.add r p).Collected answer where
  nodup := by
    rw [replicas_add]
    refine nodup_append.mpr ⟨h.nodup, by simp, fun a ha b hb hab => ?_⟩
    rw [hab, mem_singleton.mp hb] at ha
    exact hnew ha
  reported := by
    intro e he
    rcases mem_append.mp he with he | he
    · exact h.reported e he
    · rw [mem_singleton.mp he]
      exact ⟨p, hr, rfl⟩
  commit_ge := by
    intro r' hr' q hq c hc
    rw [replicas_add] at hr'
    rcases mem_append.mp hr' with hr' | hr'
    · obtain ⟨c', hc', hle⟩ := h.commit_ge r' hr' q hq c hc
      obtain ⟨c'', hc'', hle'⟩ := newest_ge_left p.mostRecentCommit c'
      exact ⟨c'', by rw [← hc'', ← hc']; rfl, hle.trans hle'⟩
    · rw [mem_singleton.mp hr'] at hq
      cases hr.symm.trans hq
      obtain ⟨c', hc', hle⟩ := newest_ge_right summary.mostRecentCommit c
      exact ⟨c', by rw [← hc', ← hc]; rfl, hle⟩
  proposal_ge := by
    intro r' hr' q hq a ha
    rw [replicas_add] at hr'
    rcases mem_append.mp hr' with hr' | hr'
    · obtain ⟨a', ha', hle⟩ := h.proposal_ge r' hr' q hq a ha
      obtain ⟨a'', ha'', hle'⟩ := newest_ge_left p.acceptedProposal a'
      exact ⟨a'', by rw [← ha'', ← ha']; rfl, hle.trans hle'⟩
    · rw [mem_singleton.mp hr'] at hq
      cases hr.symm.trans hq
      obtain ⟨a', ha', hle⟩ := newest_ge_right summary.mostRecentProposal a
      exact ⟨a', by rw [← ha', ← ha]; rfl, hle⟩
  commit_mem := by
    intro c hc
    rw [replicas_add]
    rcases newest_eq_some hc with hc | hc
    · obtain ⟨r', hr', h'⟩ := h.commit_mem c hc
      exact ⟨r', mem_append_left _ hr', h'⟩
    · exact ⟨r, by simp, p, hr, hc⟩
  proposal_mem := by
    intro a ha
    rw [replicas_add]
    rcases newest_eq_some ha with ha | ha
    · obtain ⟨r', hr', h'⟩ := h.proposal_mem a ha
      exact ⟨r', mem_append_left _ hr', h'⟩
    · exact ⟨r, by simp, p, hr, ha⟩

end PrepareSummary

namespace RequestTracker

variable [DecidableEq R] [DecidableEq D] {required : ℕ} (closest : Option R)
  {answer : R → Option (PrepareResponse D)} {seen : List R} {t : RequestTracker R D} {r : R}
  {p : Promise D}

/-- The invariant of `prepare_ballot` after the answers of the replicas in `seen`. -/
structure Valid (required : ℕ) (answer : R → Option (PrepareResponse D)) (seen : List R)
    (t : RequestTracker R D) : Prop where
  collected : t.summary.Collected answer
  seen : ∀ r ∈ t.summary.replicas, r ∈ seen
  data_eq : ∀ d, t.summary.data = some d → t.digestsMatch = true ∧ t.digest = some d
  digest_eq : t.digestsMatch = true → ∀ r ∈ t.summary.replicas, ∃ p,
    answer r = some (.promise p) ∧ p.dataOrDigest.isSome ∧ p.dataOrDigest = t.digest
  count : t.done = true → t.summary.promised = true → t.summary.replicas.length = required

omit [DecidableEq R] [DecidableEq D] in
theorem valid_init : Valid required answer [] (init : RequestTracker R D) where
  collected := by constructor <;> simp [init, PrepareSummary.replicas]
  seen := by simp [init, PrepareSummary.replicas]
  data_eq := by simp [init]
  digest_eq := by simp [init, PrepareSummary.replicas]
  count := by simp [init]

theorem addData_summary (t : RequestTracker R D) (r : R) (dataOrDigest : Option D) :
    ∃ data, (addData closest t r dataOrDigest).summary = { t.summary with data := data } := by
  unfold addData
  by_cases hm : t.digestsMatch = true
  · cases dataOrDigest with
    | none => exact ⟨none, by simp [hm]⟩
    | some d =>
      by_cases hd : t.digest = none ∨ t.digest = some d
      · refine ⟨if t.summary.data = none ∧ closest = some r then some d else t.summary.data, ?_⟩
        simp only [hm, hd, if_true]
      · exact ⟨none, by simp [hm, hd]⟩
  · exact ⟨t.summary.data, by simp [hm]⟩

theorem addData_spec (hdata : ∀ d, t.summary.data = some d → t.digestsMatch = true ∧
      t.digest = some d) (dataOrDigest : Option D) :
    (∀ d, (addData closest t r dataOrDigest).summary.data = some d →
      (addData closest t r dataOrDigest).digestsMatch = true ∧
        (addData closest t r dataOrDigest).digest = some d) ∧
    ((addData closest t r dataOrDigest).digestsMatch = true →
      t.digestsMatch = true ∧ dataOrDigest.isSome ∧
        (addData closest t r dataOrDigest).digest = dataOrDigest ∧
        (t.digest = none ∨ t.digest = dataOrDigest)) := by
  unfold addData
  by_cases hm : t.digestsMatch = true
  · cases dataOrDigest with
    | none => simp [hm]
    | some d =>
      by_cases hd : t.digest = none ∨ t.digest = some d
      · simp only [hm, hd, if_true]
        refine ⟨fun d' hd' => ⟨trivial, ?_⟩, fun _ => by simp⟩
        split_ifs at hd'
        · exact hd'
        · have := (hdata d' hd').2
          rcases hd with h | h
          · simp_all
          · exact h.symm.trans this
      · simp [hm, hd]
  · rw [if_neg hm]
    exact ⟨hdata, fun h => absurd h hm⟩

section

variable (h : Valid required answer seen t)

include h

theorem Valid.addPromise (hr : answer r = some (.promise p))
    (hnew : r ∉ seen) : Valid required answer (seen ++ [r]) (t.addPromise required closest r p) := by
  have hcol := h.collected.add (fun hmem => hnew (h.seen r hmem)) hr
  obtain ⟨data, hdata⟩ :=
    addData_summary closest { t with summary := t.summary.add r p } r p.dataOrDigest
  have hspec := addData_spec closest (t := { t with summary := t.summary.add r p }) (r := r)
    h.data_eq p.dataOrDigest
  have hreplicas : (t.addPromise required closest r p).summary.replicas =
      t.summary.replicas ++ [r] := by
    simp only [RequestTracker.addPromise, hdata]
    exact t.summary.replicas_add r p
  refine ⟨?_, ?_, hspec.1, ?_, ?_⟩
  · simp only [RequestTracker.addPromise, hdata]
    exact ⟨hcol.nodup, hcol.reported, hcol.commit_ge, hcol.proposal_ge, hcol.commit_mem,
        hcol.proposal_mem⟩
  · intro r' hr'
    rw [hreplicas] at hr'
    rcases mem_append.mp hr' with hr' | hr'
    · exact mem_append_left _ (h.seen r' hr')
    · exact mem_append_right _ hr'
  · intro hm r' hr'
    obtain ⟨hmt, hsome, hdig, hold⟩ := hspec.2 hm
    rw [hreplicas] at hr'
    rcases mem_append.mp hr' with hr' | hr'
    · obtain ⟨q, hq, hqs, hqd⟩ := h.digest_eq hmt r' hr'
      refine ⟨q, hq, hqs, ?_⟩
      rcases hold with hnone | heq
      · simp_all
      · exact hqd.trans (heq.trans hdig.symm)
    · rw [mem_singleton.mp hr']
      exact ⟨p, hr, hsome, hdig.symm⟩
  · intro hdone _
    rw [hreplicas, ← t.summary.replicas_add r p]
    simpa [RequestTracker.addPromise, PrepareSummary.replicas] using hdone

theorem Valid.onPrepareResponse {response : PrepareResponse D}
    (hr : answer r = some response) (hnew : r ∉ seen) :
    Valid required answer (seen ++ [r]) (t.onPrepareResponse required closest (r, response)) := by
  have hseen : ∀ r' ∈ t.summary.replicas, r' ∈ seen ++ [r] :=
    fun r' hr' => mem_append_left _ (h.seen r' hr')
  unfold RequestTracker.onPrepareResponse
  split_ifs with hdone
  · exact ⟨h.collected, hseen, h.data_eq, h.digest_eq, h.count⟩
  · cases response with
    | ballot b =>
      exact ⟨⟨h.collected.nodup, h.collected.reported, h.collected.commit_ge,
        h.collected.proposal_ge, h.collected.commit_mem, h.collected.proposal_mem⟩, hseen,
        h.data_eq, h.digest_eq, fun _ hp => absurd hp (by simp)⟩
    | promise p => exact h.addPromise closest hr hnew

theorem valid_foldl :
    ∀ answers : List (R × PrepareResponse D), (∀ e ∈ answers, answer e.1 = some e.2) →
      (seen ++ answers.map Prod.fst).Nodup → Valid required answer (seen ++ answers.map Prod.fst)
        (answers.foldl (onPrepareResponse required closest) t) := by
  intro answers
  induction answers generalizing seen t with
  | nil =>
    intro _ _
    simpa using h
  | cons e answers ih =>
    intro hans hnodup
    have hnew : e.1 ∉ seen := fun hmem => (nodup_append.mp hnodup).2.2 _ hmem _ (by simp) rfl
    have hstep := h.onPrepareResponse closest (hans e (by simp)) hnew
    have hrest := ih hstep (fun e' he' => hans e' (by simp [he'])) (by simpa using hnodup)
    simpa using hrest

end

theorem prepareBallot_sound [Fintype R] {answers : List (R × PrepareResponse D)}
    (hans : ∀ e ∈ answers, answer e.1 = some e.2) (hnodup : (answers.map Prod.fst).Nodup)
    (hdone : (prepareBallot (requiredParticipants R) closest answers).done = true) (hpromised :
      (prepareBallot (requiredParticipants R) closest answers).summary.promised = true) :
    (prepareBallot (requiredParticipants R) closest answers).summary.Sound answer := by
  have hvalid : Valid _ answer _ (prepareBallot (requiredParticipants R) closest answers) :=
    valid_foldl closest valid_init answers hans (by simpa using hnodup)
  refine ⟨hvalid.collected, ?_, ?_⟩
  · have hcount := hvalid.count hdone hpromised
    rw [IsMajority, Finset.univ_inter, toFinset_card_of_nodup hvalid.collected.nodup]
    exact hcount.ge
  · intro d hd r hr
    obtain ⟨hm, hdig⟩ := hvalid.data_eq d hd
    obtain ⟨p, hp, -, hpd⟩ := hvalid.digest_eq hm r hr
    exact ⟨p, hp, hpd.trans hdig⟩

end RequestTracker

end Scylla.Paxos
