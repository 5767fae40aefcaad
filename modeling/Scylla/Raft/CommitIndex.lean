import Scylla.Core.Selection
import Scylla.Raft.Tracker
import Mathlib.Data.List.Perm.Subperm

/-!
# The commit index

The leader advances its commit index to the greatest index that a majority of the voters has
reached, a majority of both sets of voters during a change. It counts the followers past the last
commit, and if they are a majority takes the pivot of all indexes, the smaller one of the two pivots
during a change. The same function finds the greatest read that a majority has acknowledged.
-/

namespace Scylla.Raft

open List

namespace Tracker

variable {t : Tracker} {c : Configuration} {index : Progress → ℕ} {prev : ℕ}

/-! ## Trackers of a configuration -/

/-- There is one progress for each voter of the configuration. -/
structure Configured (c : Configuration) (t : Tracker) : Prop where
  nodup : (t.progress.map Progress.id).Nodup
  currentVoters_eq : t.currentVoters = c.current.voters
  previousVoters_eq : t.previousVoters = c.previous.voters
  subset_current : c.current.voters ⊆ t.progress.map Progress.id
  subset_previous : c.previous.voters ⊆ t.progress.map Progress.id

inductive InEffect (c : Configuration) : Tracker → Prop
  | setConfiguration (t : Tracker) (nextIdx : ℕ) : InEffect c (t.setConfiguration c nextIdx)
  | update {t : Tracker} (h : InEffect c t) (id : ServerId) (f : Progress → Progress)
      (hf : ∀ p, (f p).id = p.id) : InEffect c (t.update id f)

theorem id_of_find {id : ServerId} {p : Progress} (h : t.find id = some p) : p.id = id := by
  simpa using find?_some h

theorem ids_emplace (t : Tracker) (nextIdx : ℕ) (new : List Progress) (s : ConfigMember) :
    (emplace t nextIdx new s).map Progress.id =
      if s.id ∈ new.map Progress.id then new.map Progress.id
      else new.map Progress.id ++ [s.id] := by
  have hany : new.any (·.id = s.id) ↔ s.id ∈ new.map Progress.id := by simp
  have hid : ((t.find s.id).getD { id := s.id, nextIdx }).id = s.id := by
    cases hfind : t.find s.id with
    | none => rfl
    | some p => exact id_of_find hfind
  unfold emplace
  by_cases hmem : s.id ∈ new.map Progress.id
  · rw [if_pos (hany.mpr hmem), if_pos hmem]
  · rw [if_neg (mt hany.mp hmem), if_neg hmem, map_append, map_singleton, hid]

theorem ids_foldl_emplace (t : Tracker) (nextIdx : ℕ) (members : List ConfigMember)
    (new : List Progress) (hnew : (new.map Progress.id).Nodup) :
    ((members.foldl (emplace t nextIdx) new).map Progress.id).Nodup ∧
      ∀ id, id ∈ (members.foldl (emplace t nextIdx) new).map Progress.id ↔
        id ∈ new.map Progress.id ∨ id ∈ members.map ConfigMember.id := by
  induction members generalizing new with
  | nil => simpa using hnew
  | cons s members ih =>
    have hids := ids_emplace t nextIdx new s
    have hstep : ((emplace t nextIdx new s).map Progress.id).Nodup ∧
        ∀ id, id ∈ (emplace t nextIdx new s).map Progress.id ↔
          id ∈ new.map Progress.id ∨ id = s.id := by
      rw [hids]
      split
      next hmem =>
        refine ⟨hnew, fun id => ⟨Or.inl, ?_⟩⟩
        rintro (hid | rfl)
        · exact hid
        · exact hmem
      next hmem =>
        refine ⟨nodup_append.mpr ⟨hnew, nodup_singleton _, ?_⟩, fun id => ?_⟩
        · rintro id hid _ hs rfl
          exact hmem (mem_singleton.mp hs ▸ hid)
        · rw [mem_append, mem_singleton]
    obtain ⟨hnodup, hmem⟩ := ih _ hstep.1
    refine ⟨hnodup, fun id => ?_⟩
    rw [foldl_cons, hmem, hstep.2, map_cons, mem_cons, or_assoc]

theorem voters_subset (c : ConfigMemberSet) : c.voters ⊆ c.members.map ConfigMember.id :=
  map_subset _ (filter_subset_self _)

theorem configured_setConfiguration (t : Tracker) (c : Configuration) (nextIdx : ℕ) :
    (t.setConfiguration c nextIdx).Configured c := by
  obtain ⟨hnodup, hmem⟩ := ids_foldl_emplace t nextIdx (c.current.members ++ c.previous.members) []
    nodup_nil
  refine ⟨hnodup, rfl, rfl, fun id hid => (hmem id).mpr (.inr ?_), fun id hid =>
    (hmem id).mpr (.inr ?_)⟩ <;> rw [map_append, mem_append]
  · exact .inl (voters_subset _ hid)
  · exact .inr (voters_subset _ hid)

theorem ids_update (t : Tracker) (id : ServerId) {f : Progress → Progress}
    (hf : ∀ p, (f p).id = p.id) :
    (t.update id f).progress.map Progress.id = t.progress.map Progress.id := by
  unfold update
  rw [map_map]
  refine map_congr_left fun p _ => ?_
  rw [Function.comp_apply]
  split
  · exact hf p
  · rfl

theorem InEffect.configured (h : t.InEffect c) : t.Configured c := by
  induction h with
  | setConfiguration t nextIdx => exact configured_setConfiguration t c nextIdx
  | @update t _ id f hf ih =>
    have hids := ids_update t id hf
    exact ⟨hids ▸ ih.nodup, ih.currentVoters_eq, ih.previousVoters_eq, hids ▸ ih.subset_current,
      hids ▸ ih.subset_previous⟩

/-! ## Counting voters -/

def reached (t : Tracker) (index : Progress → ℕ) (i : ℕ) (id : ServerId) : Bool :=
  (t.find id).any (i ≤ index ·)

def Majority (t : Tracker) (voters : List ServerId) (index : Progress → ℕ) (i : ℕ) : Prop :=
  voters.length / 2 + 1 ≤ voters.countP (t.reached index i)

instance (voters : List ServerId) (i : ℕ) : Decidable (t.Majority voters index i) :=
  inferInstanceAs (Decidable (_ ≤ _))

/-- The indexes that `match_vector` is filled with. -/
def indexes (t : Tracker) (voters : List ServerId) (index : Progress → ℕ) : List ℕ :=
  (t.progress.filter (·.id ∈ voters)).map index

section

variable (hnodup : (t.progress.map Progress.id).Nodup)

include hnodup

theorem find_of_mem {p : Progress} (hp : p ∈ t.progress) : t.find p.id = some p := by
  have hsome : (t.find p.id).isSome := find?_isSome.mpr ⟨p, hp, by simp⟩
  obtain ⟨q, hq⟩ := Option.isSome_iff_exists.mp hsome
  have hid : q.id = p.id := id_of_find hq
  rw [hq, inj_on_of_nodup_map hnodup (mem_of_find?_eq_some hq) hp hid]

variable {voters : List ServerId}

section

variable (hvoters : voters.Nodup) (hsub : voters ⊆ t.progress.map Progress.id)

include hvoters hsub

theorem perm_voters :
    ((t.progress.filter (·.id ∈ voters)).map Progress.id).Perm voters := by
  refine (perm_ext_iff_of_nodup ?_ hvoters).mpr fun id => ?_
  · exact hnodup.sublist (filter_sublist.map _)
  · constructor
    · intro hid
      obtain ⟨p, hp, rfl⟩ := mem_map.mp hid
      exact of_decide_eq_true (mem_filter.mp hp).2
    · intro hid
      obtain ⟨p, hp, rfl⟩ := mem_map.mp (hsub hid)
      exact mem_map_of_mem (mem_filter.mpr ⟨hp, decide_eq_true hid⟩)

theorem majority_indexes (i : ℕ) :
    (t.indexes voters index).length / 2 + 1 ≤ (t.indexes voters index).countP (i ≤ ·) ↔
      t.Majority voters index i := by
  have hperm := perm_voters hnodup hvoters hsub
  have hlength : (t.indexes voters index).length = voters.length := by
    rw [← hperm.length_eq, indexes, length_map, length_map]
  have hcount : (t.indexes voters index).countP (i ≤ ·) = voters.countP (t.reached index i) := by
    rw [← hperm.countP_eq, indexes, countP_map, countP_map]
    refine countP_congr fun p hp => ?_
    have hfind := find_of_mem hnodup (mem_of_mem_filter hp)
    simp [reached, hfind]
  unfold Majority
  rw [hlength, hcount]

end

end

/-! ## The pivot -/

theorem committedIn_some {xs : List ℕ} {m : ℕ} (h : committedIn xs prev = some m) :
    prev < m ∧ ∀ i, i ≤ m ↔ xs.length / 2 + 1 ≤ xs.countP (i ≤ ·) := by
  obtain ⟨hcount, hpivot⟩ := Option.ite_none_right_eq_some.mp h
  have hle := le_of_majorityPivot hpivot
  exact ⟨(hle (prev + 1)).mpr hcount, hle⟩

theorem committedIn_none {xs : List ℕ} (h : committedIn xs prev = none) {i : ℕ} (hi : prev < i) :
    ¬ xs.length / 2 + 1 ≤ xs.countP (i ≤ ·) := by
  intro hcount
  have hmono : xs.countP (i ≤ ·) ≤ xs.countP (prev < ·) := by
    refine countP_mono_left fun x _ hx => ?_
    rw [decide_eq_true_iff] at hx ⊢
    exact hi.trans_le hx
  have hne : xs ≠ [] := by
    rintro rfl
    exact absurd hcount (by simp)
  unfold committedIn at h
  rw [if_pos (hcount.trans hmono)] at h
  have hsome := isSome_majorityPivot hne
  rw [majorityPivot, h] at hsome
  cases hsome

def Committable (t : Tracker) (c : Configuration) (index : Progress → ℕ) (prev : ℕ) : Set ℕ :=
  {i | prev < i ∧ t.Majority c.current.voters index i ∧
    (c.previous.voters ≠ [] → t.Majority c.previous.voters index i)}

theorem nodup_voters (c : ConfigMemberSet) : c.voters.Nodup :=
  c.nodup.sublist (filter_sublist.map _)

theorem committed_simple (h : t.previousVoters = []) :
    t.committed index prev = (committedIn (t.indexes t.currentVoters index) prev).getD prev :=
  if_neg (not_not_intro h)

theorem committed_joint (h : t.previousVoters ≠ []) :
    t.committed index prev =
      match committedIn (t.indexes t.currentVoters index) prev,
        committedIn (t.indexes t.previousVoters index) prev with
      | some i, some j => min i j
      | _, _ => prev :=
  if_pos h

/-- `committed` returns the greatest index past the last commit that a majority has reached, a
majority of both sets of voters if there are previous ones, and the last commit if there is none. -/
theorem committed_isGreatest (h : t.InEffect c) (index : Progress → ℕ) (prev : ℕ) :
    IsGreatest (t.Committable c index prev) (t.committed index prev) ∨
      t.Committable c index prev = ∅ ∧ t.committed index prev = prev := by
  have hconf := h.configured
  have hcurrent (i : ℕ) : _ ↔ t.Majority c.current.voters index i :=
    majority_indexes hconf.nodup (nodup_voters _) hconf.subset_current i
  have hprevious (i : ℕ) : _ ↔ t.Majority c.previous.voters index i :=
    majority_indexes hconf.nodup (nodup_voters _) hconf.subset_previous i
  have hempty (hnone : ∀ i, prev < i → ¬ (t.Majority c.current.voters index i ∧
      (c.previous.voters ≠ [] → t.Majority c.previous.voters index i))) :
      t.Committable c index prev = ∅ :=
    Set.eq_empty_of_forall_notMem fun i hi => hnone i hi.1 hi.2
  by_cases hvoters : c.previous.voters = []
  · rw [committed_simple (hconf.previousVoters_eq.trans hvoters), hconf.currentVoters_eq]
    cases hpivot : committedIn (t.indexes c.current.voters index) prev with
    | none =>
      refine .inr ⟨hempty fun i hi hmaj => ?_, rfl⟩
      exact committedIn_none hpivot hi ((hcurrent i).mpr hmaj.1)
    | some m =>
      obtain ⟨hlt, hle⟩ := committedIn_some hpivot
      refine .inl ⟨⟨hlt, (hcurrent m).mp ((hle m).mp le_rfl), fun hne => absurd hvoters hne⟩, ?_⟩
      rintro i ⟨-, hmaj, -⟩
      exact (hle i).mpr ((hcurrent i).mpr hmaj)
  · rw [committed_joint (hconf.previousVoters_eq ▸ hvoters), hconf.currentVoters_eq,
      hconf.previousVoters_eq]
    cases hpivot : committedIn (t.indexes c.current.voters index) prev with
    | none =>
      refine .inr ⟨hempty fun i hi hmaj => ?_, rfl⟩
      exact committedIn_none hpivot hi ((hcurrent i).mpr hmaj.1)
    | some m =>
      obtain ⟨hlt, hle⟩ := committedIn_some hpivot
      cases hpivot' : committedIn (t.indexes c.previous.voters index) prev with
      | none =>
        refine .inr ⟨hempty fun i hi hmaj => ?_, rfl⟩
        exact committedIn_none hpivot' hi ((hprevious i).mpr (hmaj.2 hvoters))
      | some m' =>
        obtain ⟨hlt', hle'⟩ := committedIn_some hpivot'
        -- the smaller pivot is the greatest index that both majorities have reached
        refine .inl ⟨⟨lt_min hlt hlt', (hcurrent _).mp ((hle _).mp (min_le_left m m')),
          fun _ => (hprevious _).mp ((hle' _).mp (min_le_right m m'))⟩, ?_⟩
        rintro i ⟨-, hmaj, hmaj'⟩
        exact le_min ((hle i).mpr ((hcurrent i).mpr hmaj))
          ((hle' i).mpr ((hprevious i).mpr (hmaj' hvoters)))

/-- Voters of both sets, one of them in both, and a server that does not vote. -/
def overlappingChange : Configuration where
  current := ⟨[⟨1, true⟩, ⟨2, true⟩, ⟨3, true⟩], by decide⟩
  previous := ⟨[⟨3, true⟩, ⟨4, true⟩, ⟨5, false⟩], by decide⟩

/-- The tracker of that configuration after some replies. -/
def overlappingTracker : Tracker :=
  (((empty.setConfiguration overlappingChange 1).update 1 (Progress.accepted · 9)).update 3
    (Progress.accepted · 7)).update 4 (Progress.accepted · 6)

theorem committed_isGreatest_overlapping :
    overlappingTracker.InEffect overlappingChange ∧
      (IsGreatest (overlappingTracker.Committable overlappingChange Progress.matchIdx 2)
          (overlappingTracker.committed Progress.matchIdx 2) ∨
        overlappingTracker.Committable overlappingChange Progress.matchIdx 2 = ∅ ∧
          overlappingTracker.committed Progress.matchIdx 2 = 2) := by
  have h : overlappingTracker.InEffect overlappingChange :=
    .update (.update (.update (.setConfiguration empty 1) 1 (Progress.accepted · 9) fun _ => rfl)
      3 (Progress.accepted · 7) fun _ => rfl) 4 (Progress.accepted · 6) fun _ => rfl
  exact ⟨h, committed_isGreatest h Progress.matchIdx 2⟩

example : overlappingTracker.committed Progress.matchIdx 2 = 6 := by decide

/-! ## A change from a set without voters -/

/-- One voter, and a server that does not vote in the set before. -/
def voterlessChange : Configuration where
  current := ⟨[⟨1, true⟩], by decide⟩
  previous := ⟨[⟨2, false⟩], by decide⟩

/-- The tracker of that configuration once the voter has the entry at index `5`. -/
def voterlessTracker : Tracker :=
  (empty.setConfiguration voterlessChange 1).update 1 (Progress.accepted · 5)

theorem inEffect_voterlessTracker : voterlessTracker.InEffect voterlessChange :=
  .update (.setConfiguration empty 1) 1 (Progress.accepted · 5) fun _ => rfl

/-- Where the previous set has no voter, the index advances although no majority of it has reached
it. -/
theorem committed_joint_without_previous_voters :
    ∃ (t : Tracker) (c : Configuration), t.InEffect c ∧ c.isJoint = true ∧
      {i | 0 < i ∧ t.Majority c.current.voters Progress.matchIdx i ∧
        t.Majority c.previous.voters Progress.matchIdx i} = ∅ ∧
      t.committed Progress.matchIdx 0 = 5 := by
  refine ⟨voterlessTracker, voterlessChange, inEffect_voterlessTracker, rfl, ?_, by decide⟩
  refine Set.eq_empty_of_forall_notMem fun i hi => ?_
  have hmaj : 1 ≤ 0 := hi.2.2
  exact absurd hmaj (by decide)

end Tracker

end Scylla.Raft
