import Scylla.Raft.Invariant

/-!
# The indexes of configurations

A log remembers its last two configurations. A truncated log goes back to the one before, and after
that does not know any more what came before it: it will not need to, since a change of the
configuration starts only after the last one is committed. Loading a log from disk finds the same
last configuration by scanning it.
-/

namespace Scylla.Raft

open List
open Nat

namespace Log

variable {l l' : Log}

/-! ## Slices by index -/

variable {e : LogEntry} {i : ℕ}

theorem Valid.idx_lt_of_mem_take (h : l.Valid) (he : e ∈ l.entries.take (i - l.firstIdx)) :
    e.idx < i := by
  obtain ⟨n, hn⟩ := mem_iff_getElem?.mp he
  rw [getElem?_take] at hn
  obtain ⟨hlt, hn⟩ := Option.ite_none_right_eq_some.mp hn
  have hidx := h.idx_eq _ e hn
  omega

theorem Valid.le_idx_of_mem_drop (h : l.Valid) (he : e ∈ l.entries.drop (i - l.firstIdx)) :
    i ≤ e.idx := by
  obtain ⟨n, hn⟩ := mem_iff_getElem?.mp he
  rw [getElem?_drop] at hn
  have hidx := h.idx_eq _ e hn
  omega

theorem Valid.take_eq_filter (h : l.Valid) (i : ℕ) :
    l.entries.take (i - l.firstIdx) = l.entries.filter (·.idx < i) := by
  conv_rhs => rw [← take_append_drop (i - l.firstIdx) l.entries]
  rw [filter_append, filter_eq_self.mpr, filter_eq_nil_iff.mpr, append_nil]
  · simpa using fun e he => h.le_idx_of_mem_drop he
  · simpa using fun e he => h.idx_lt_of_mem_take he

theorem Valid.drop_eq_filter (h : l.Valid) (i : ℕ) :
    l.entries.drop (i - l.firstIdx) = l.entries.filter (i ≤ ·.idx) := by
  conv_rhs => rw [← take_append_drop (i - l.firstIdx) l.entries]
  rw [filter_append, filter_eq_nil_iff.mpr, filter_eq_self.mpr, nil_append]
  · simpa using fun e he => h.le_idx_of_mem_drop he
  · simpa using fun e he => h.idx_lt_of_mem_take he

theorem Valid.pairwise_idx (h : l.Valid) : l.entries.Pairwise (·.idx < ·.idx) := by
  refine pairwise_iff_getElem.mpr fun i j hi hj hij => ?_
  rw [h.idx_eq i _ (getElem?_eq_getElem hi), h.idx_eq j _ (getElem?_eq_getElem hj)]
  omega

/-! ## Configurations after the snapshot -/

theorem Valid.pairwise_confs (h : l.Valid) : l.confs.Pairwise (· < ·) :=
  pairwise_map.mpr ((h.pairwise_idx.filter _).filter _)

theorem mem_confs (hi : i ∈ l.confs) :
    l.snapshot.idx < i ∧ ∃ e ∈ l.entries, e.isConf = true ∧ e.idx = i := by
  obtain ⟨e, he, rfl⟩ := mem_map.mp hi
  obtain ⟨he, hconf⟩ := mem_filter.mp he
  obtain ⟨he, hlt⟩ := mem_filter.mp he
  exact ⟨of_decide_eq_true hlt, e, he, hconf, rfl⟩

theorem Valid.confs_emplaceBack (h : l.Valid) (he : e.idx = l.nextIdx) :
    (l.emplaceBack e).confs = l.confs ++ if e.isConf then [e.idx] else [] := by
  have hlt : l.snapshot.idx < e.idx := by
    rw [he]
    exact lt_succ_of_le (h.snapshot_le.trans h.stable_le)
  unfold confs
  rw [entries_emplaceBack, snapshot_emplaceBack, filter_append, filter_append,
    map_append]
  simp only [filter_cons, filter_nil, hlt, decide_true, if_true]
  split <;> rfl

theorem Valid.confs_truncateUncommitted (h : l.Valid) (i : ℕ) :
    (l.truncateUncommitted i).confs = l.confs.filter (· < i) := by
  unfold confs
  rw [entries_truncateUncommitted, snapshot_truncateUncommitted, h.take_eq_filter, filter_map]
  simp only [filter_filter]
  congr 1
  simp [Bool.and_comm, Bool.and_left_comm, Bool.and_assoc]

variable {snp : SnapshotDescriptor}

theorem Valid.confs_applySnapshot (usage : LogEntry → ℕ) (h : l.Valid)
    (hsnap : l.snapshot.idx < snp.idx) (n bytes : ℕ) :
    (l.applySnapshot usage snp n bytes).confs = l.confs.filter (snp.idx < ·) := by
  obtain ⟨hfirst, -, hentries, -, -⟩ := dropCovered_spec usage h hsnap n bytes
  unfold confs
  rw [entries_applySnapshot, snapshot_applySnapshot, hentries, h.drop_eq_filter, filter_map]
  simp only [filter_filter]
  congr 1
  refine filter_congr fun e _ => ?_
  -- an entry after the new snapshot is after the old one, and is not dropped
  grind

/-! ## What a log knows about them -/

def KnowsLast (l : Log) : Prop := l.lastConfIdx = l.confs.reverse[0]?.getD 0

def KnowsPrev (l : Log) : Prop := l.prevConfIdx = l.confs.reverse[1]?.getD 0

theorem pos_of_mem_confs {k : ℕ} (hk : k ∈ l.confs) : k ≠ 0 :=
  ne_of_gt (zero_lt_of_lt (mem_confs hk).1)

namespace KnowsLast

theorem confs_cases (h : l.KnowsLast) :
    l.confs = [] ∧ l.lastConfIdx = 0 ∨ ∃ init, l.confs = init ++ [l.lastConfIdx] := by
  unfold KnowsLast at h
  rcases eq_nil_or_concat' l.confs with hnil | ⟨init, i, hconfs⟩
  · rw [hnil] at h
    exact .inl ⟨hnil, h⟩
  · rw [hconfs] at h
    rw [hconfs, h]
    simp

theorem le_lastConfIdx (h : l.KnowsLast) (hv : l.Valid) (hi : i ∈ l.confs) :
    i ≤ l.lastConfIdx := by
  rcases h.confs_cases with ⟨hnil, -⟩ | ⟨init, hinit⟩
  · rw [hnil] at hi
    cases hi
  · have hsorted := hv.pairwise_confs
    rw [hinit, pairwise_append] at hsorted
    rw [hinit] at hi
    rcases mem_append.mp hi with hi | hi
    · exact (hsorted.2.2 i hi _ (mem_singleton_self _)).le
    · exact (mem_singleton.mp hi).le

end KnowsLast

theorem known_cases (hlast : l.KnowsLast) (hprev : l.KnowsPrev) :
    l.confs = [] ∧ l.lastConfIdx = 0 ∧ l.prevConfIdx = 0 ∨
      l.confs = [l.lastConfIdx] ∧ l.prevConfIdx = 0 ∨
      ∃ init, l.confs = init ++ [l.prevConfIdx, l.lastConfIdx] := by
  unfold KnowsPrev at hprev
  rcases hlast.confs_cases with ⟨hnil, hzero⟩ | ⟨init, hinit⟩
  · rw [hnil] at hprev
    exact .inl ⟨hnil, hzero, hprev⟩
  · rw [hinit] at hprev
    rcases eq_nil_or_concat' init with rfl | ⟨init', k', rfl⟩
    · exact .inr (.inl ⟨hinit, hprev⟩)
    · refine .inr (.inr ⟨init', ?_⟩)
      rw [hinit, hprev]
      simp

theorem Valid.prevConfIdx_le (h : l.Valid) (hlast : l.KnowsLast) (hprev : l.KnowsPrev) :
    l.prevConfIdx ≤ l.lastConfIdx := by
  rcases known_cases hlast hprev with ⟨-, -, hzero⟩ | ⟨-, hzero⟩ | ⟨init, htwo⟩
  · exact hzero.trans_le (zero_le _)
  · exact hzero.trans_le (zero_le _)
  · exact hlast.le_lastConfIdx h (by simp [htwo])

/-! ### Adding entries -/

section Emplace

theorem confIdx_emplaceBack (hpos : 0 < l.firstIdx) (he : e.idx = l.nextIdx) :
    (e.isConf = true → (l.emplaceBack e).lastConfIdx = e.idx ∧
      (l.emplaceBack e).prevConfIdx = l.lastConfIdx) ∧
    (e.isConf = false → (l.emplaceBack e).lastConfIdx = l.lastConfIdx ∧
      (l.emplaceBack e).prevConfIdx = l.prevConfIdx) := by
  have hlast := lastIdx_emplaceBack hpos e
  refine ⟨fun hconf => ⟨?_, ?_⟩, fun hconf => ⟨?_, ?_⟩⟩
  · rw [he, nextIdx, ← hlast]
    unfold Log.emplaceBack
    rw [if_pos hconf]
    rfl
  all_goals simp [Log.emplaceBack, hconf]

theorem Valid.knowsLast_emplaceBack (h : l.Valid) (he : e.idx = l.nextIdx)
    (hlast : l.KnowsLast ∨ e.isConf = true) : (l.emplaceBack e).KnowsLast := by
  have hconfs := h.confs_emplaceBack he
  obtain ⟨hconf, hother⟩ := confIdx_emplaceBack h.firstIdx_pos he
  unfold KnowsLast at hlast ⊢
  rw [hconfs]
  cases hc : e.isConf with
  | true => simp [(hconf hc).1]
  | false =>
    rw [if_neg Bool.false_ne_true, append_nil, (hother hc).1]
    exact hlast.resolve_right (by simp [hc])

theorem Valid.knowsPrev_emplaceBack (h : l.Valid) (he : e.idx = l.nextIdx)
    (hprev : l.KnowsPrev ∧ e.isConf = false ∨ l.KnowsLast ∧ e.isConf = true) :
    (l.emplaceBack e).KnowsPrev := by
  have hconfs := h.confs_emplaceBack he
  obtain ⟨hconf, hother⟩ := confIdx_emplaceBack h.firstIdx_pos he
  unfold KnowsPrev
  rw [hconfs]
  rcases hprev with ⟨hprev, hc⟩ | ⟨hlast, hc⟩
  · rw [hc, if_neg Bool.false_ne_true, append_nil, (hother hc).2]
    exact hprev
  · rw [(hconf hc).2, hc, if_pos rfl, reverse_append]
    exact hlast

end Emplace

/-! ### Truncation -/

section Truncation

theorem confIdx_truncateUncommitted (hpos : 0 < l.firstIdx) (hfirst : l.firstIdx ≤ i)
    (hlast : i ≤ l.nextIdx) :
    (i ≤ l.lastConfIdx → (l.truncateUncommitted i).lastConfIdx = l.prevConfIdx ∧
      (l.truncateUncommitted i).prevConfIdx = 0) ∧
    (l.lastConfIdx < i → (l.truncateUncommitted i).lastConfIdx = l.lastConfIdx ∧
      (l.truncateUncommitted i).prevConfIdx = l.prevConfIdx) := by
  rw [nextIdx_eq hpos] at hlast
  have hlastIdx : (l.entries.take (i - l.firstIdx)).length + l.firstIdx - 1 = i - 1 := by
    rw [length_take]
    omega
  unfold Log.truncateUncommitted
  dsimp only
  split
  next hlt =>
    change (l.entries.take (i - l.firstIdx)).length + l.firstIdx - 1 < l.lastConfIdx at hlt
    exact ⟨fun _ => ⟨rfl, rfl⟩, fun h => by omega⟩
  next hge =>
    change ¬ (l.entries.take (i - l.firstIdx)).length + l.firstIdx - 1 < l.lastConfIdx at hge
    exact ⟨fun h => by omega, fun _ => ⟨rfl, rfl⟩⟩

theorem Valid.knows_truncateUncommitted_of_lt (h : l.Valid) (hlast : l.KnowsLast)
    (hfirst : l.firstIdx ≤ i) (hnext : i ≤ l.nextIdx) (hcut : ∀ k ∈ l.confs, k < i) :
    (l.truncateUncommitted i).KnowsLast ∧
      (l.KnowsPrev → (l.truncateUncommitted i).KnowsPrev) := by
  have hlt : l.lastConfIdx < i := by
    rw [hlast]
    cases hget : l.confs.reverse[0]? with
    | none => exact h.firstIdx_pos.trans_le hfirst
    | some k => exact hcut k (mem_reverse.mp (mem_of_getElem? hget))
  obtain ⟨hlast', hprev'⟩ :=
    (confIdx_truncateUncommitted h.firstIdx_pos hfirst hnext).2 hlt
  have hconfs : (l.truncateUncommitted i).confs = l.confs := by
    rw [h.confs_truncateUncommitted, filter_eq_self]
    exact fun k hk => decide_eq_true (hcut k hk)
  unfold KnowsPrev KnowsLast
  rw [hconfs, hlast', hprev']
  exact ⟨hlast, id⟩

theorem Valid.knows_truncateUncommitted_of_cut (h : l.Valid) (hlast : l.KnowsLast)
    (hprev : l.KnowsPrev) (hfirst : l.firstIdx ≤ i) (hnext : i ≤ l.nextIdx)
    (hcut : l.confs.countP (i ≤ ·) = 1) :
    (l.truncateUncommitted i).KnowsLast ∧
      (l.confs.countP (· < i) ≤ 1 → (l.truncateUncommitted i).KnowsPrev) := by
  have hsorted := h.pairwise_confs
  have hconfs := h.confs_truncateUncommitted i
  obtain ⟨hshift, -⟩ := confIdx_truncateUncommitted h.firstIdx_pos hfirst hnext
  rcases known_cases hlast hprev with ⟨hnil, -, -⟩ | ⟨hone, hprev0⟩ | ⟨init, htwo⟩
  · rw [hnil] at hcut
    cases hcut
  · have hle : i ≤ l.lastConfIdx := by
      rw [hone, countP_singleton] at hcut
      by_contra hlt
      rw [if_neg (by simpa using hlt)] at hcut
      cases hcut
    obtain ⟨hlast', hprev'⟩ := hshift hle
    have hnil : (l.truncateUncommitted i).confs = [] := by
      rw [hconfs, hone]
      simp [hle]
    unfold KnowsLast KnowsPrev
    rw [hnil, hlast', hprev', hprev0]
    exact ⟨rfl, fun _ => rfl⟩
  · rw [htwo, pairwise_append] at hsorted
    have hlt : l.prevConfIdx < l.lastConfIdx := by simpa using hsorted.2.1
    have hinit (k : ℕ) (hk : k ∈ init) : k < l.prevConfIdx := hsorted.2.2 k hk _ (by simp)
    rw [htwo, countP_append] at hcut
    -- the last one is the one that is cut off
    have hprev_lt : l.prevConfIdx < i := by
      by_contra hge
      rw [not_lt] at hge
      have hle := hge.trans hlt.le
      simp [hge, hle] at hcut
    have hle : i ≤ l.lastConfIdx := by
      by_contra hgt
      have hnone : init.countP (i ≤ ·) = 0 :=
        countP_eq_zero.mpr fun k hk => by simpa using (hinit k hk).trans hprev_lt
      simp [hnone, hprev_lt, hgt] at hcut
    obtain ⟨hlast', hprev'⟩ := hshift hle
    have hkept : (l.truncateUncommitted i).confs = init ++ [l.prevConfIdx] := by
      rw [hconfs, htwo, filter_append, filter_eq_self.mpr]
      · simp [hprev_lt, hle]
      · exact fun k hk => decide_eq_true ((hinit k hk).trans hprev_lt)
    unfold KnowsLast KnowsPrev
    rw [hkept, hlast', hprev']
    refine ⟨by simp, fun hcount => ?_⟩
    have hnil : init = [] := by
      rw [htwo, countP_append, countP_eq_length.mpr] at hcount
      · refine length_eq_zero_iff.mp ?_
        simp [hprev_lt, hle.not_gt] at hcount
        exact length_eq_zero_iff.mpr hcount
      · exact fun k hk => decide_eq_true ((hinit k hk).trans hprev_lt)
    rw [hnil]
    rfl

end Truncation

/-! ### Snapshots -/

section Snapshot

variable (usage : LogEntry → ℕ)

theorem Valid.knowsLast_applySnapshot (h : l.Valid) (hlast : l.KnowsLast)
    (hle : l.prevConfIdx ≤ l.lastConfIdx) (hsnap : l.snapshot.idx < snp.idx) (n bytes : ℕ) :
    (l.applySnapshot usage snp n bytes).KnowsLast := by
  have hlast' : (l.applySnapshot usage snp n bytes).lastConfIdx =
      if l.prevConfIdx ≤ snp.idx && l.lastConfIdx ≤ snp.idx then 0 else l.lastConfIdx := rfl
  unfold KnowsLast
  rw [h.confs_applySnapshot usage hsnap n bytes, hlast']
  rcases le_or_gt l.lastConfIdx snp.idx with hcov | hgt
  · -- the snapshot covers all configurations
    have hnil : l.confs.filter (snp.idx < ·) = [] := by
      refine filter_eq_nil_iff.mpr fun k hk => ?_
      simpa using (hlast.le_lastConfIdx h hk).trans hcov
    simp [hnil, hcov, hle.trans hcov]
  · rcases hlast.confs_cases with ⟨-, hzero⟩ | ⟨init, hinit⟩
    · omega
    · rw [hinit]
      simp [hgt, hgt.not_ge]

theorem Valid.knowsPrev_applySnapshot (h : l.Valid) (hlast : l.KnowsLast)
    (hprev : l.KnowsPrev) (hsnap : l.snapshot.idx < snp.idx) (n bytes : ℕ) :
    (l.applySnapshot usage snp n bytes).KnowsPrev := by
  have hsorted := h.pairwise_confs
  have hprev' : (l.applySnapshot usage snp n bytes).prevConfIdx =
      if l.prevConfIdx ≤ snp.idx then 0 else l.prevConfIdx := rfl
  unfold KnowsPrev
  rw [h.confs_applySnapshot usage hsnap n bytes, hprev']
  rcases known_cases hlast hprev with ⟨hnil, -, hprev0⟩ | ⟨hone, hprev0⟩ | ⟨init, htwo⟩
  · rw [hnil, hprev0]
    simp
  · rw [hone, hprev0]
    rcases le_or_gt l.lastConfIdx snp.idx with hle | hgt
    · simp [hle]
    · simp [hgt]
  · rw [htwo, pairwise_append] at hsorted
    have hlt : l.prevConfIdx < l.lastConfIdx := by simpa using hsorted.2.1
    rw [htwo, filter_append]
    rcases le_or_gt l.prevConfIdx snp.idx with hle | hgt
    · have hinit : init.filter (snp.idx < ·) = [] := by
        refine filter_eq_nil_iff.mpr fun k hk => ?_
        have hk' : k < l.prevConfIdx := hsorted.2.2 k hk _ (by simp)
        simpa using hk'.le.trans hle
      rcases le_or_gt l.lastConfIdx snp.idx with hle' | hgt'
      · simp [hinit, hle, hle']
      · simp [hinit, hle, hle.not_gt, hgt']
    · simp [hgt, hgt.not_ge, hgt.trans hlt]

end Snapshot

/-! ## Configurations that are settled -/

structure Tracks (settled : ℕ) (l : Log) : Prop where
  last_eq : l.lastConfIdx = l.confs.getLast?.getD 0
  prev_eq : l.prevConfIdx ≠ 0 → l.confs.dropLast.getLast? = some l.prevConfIdx
  prev_unknown : l.prevConfIdx = 0 → l.confs.dropLast = [] ∨ l.lastConfIdx ≤ settled
  le_settled : ∀ i ∈ l.confs.dropLast, i ≤ settled

variable {settled : ℕ}

theorem tracks_iff : l.Tracks settled ↔
    l.KnowsLast ∧ (l.KnowsPrev ∨ l.prevConfIdx = 0 ∧ l.lastConfIdx ≤ settled) ∧
      ∀ i ∈ l.confs.dropLast, i ≤ settled := by
  have hlast : l.confs.getLast? = l.confs.reverse[0]? := by
    rw [getLast?_eq_head?_reverse, head?_eq_getElem?]
  have hprev : l.confs.dropLast.getLast? = l.confs.reverse[1]? := by
    rw [getLast?_eq_head?_reverse, ← tail_reverse, head?_tail]
  constructor
  · intro h
    refine ⟨h.last_eq.trans (by rw [hlast]), ?_, h.le_settled⟩
    unfold KnowsPrev
    rw [← hprev]
    rcases eq_or_ne l.prevConfIdx 0 with h0 | h0
    · refine (h.prev_unknown h0).imp (fun hnil => ?_) fun hle => ⟨h0, hle⟩
      rw [hnil, h0]
      rfl
    · rw [h.prev_eq h0]
      exact .inl rfl
  · rintro ⟨hknow, hknow', hle⟩
    unfold KnowsPrev at hknow'
    rw [← hprev] at hknow'
    refine ⟨hknow.trans (by rw [hlast]), fun h0 => ?_, fun h0 => ?_, hle⟩
    · have hknow' := hknow'.resolve_right fun h => h0 h.1
      cases hget : l.confs.dropLast.getLast? with
      | none => exact absurd (hknow'.trans (by rw [hget]; rfl)) h0
      | some k => rw [hknow', hget, Option.getD_some]
    · refine hknow'.imp (fun hknow' => ?_) And.right
      cases hget : l.confs.dropLast.getLast? with
      | none => exact getLast?_eq_none_iff.mp hget
      | some k =>
        -- a configuration after the snapshot has a positive index
        have hmem := mem_of_mem_dropLast (mem_of_getLast? hget)
        rw [hget, h0] at hknow'
        exact absurd hknow'.symm (pos_of_mem_confs hmem)

theorem mem_dropLast_of_sublist {is js : List ℕ} (h : is.Sublist js) (hi : i ∈ is.dropLast) :
    i ∈ js.dropLast := by
  have hsub := h.reverse.tail.subset
  rw [tail_reverse, tail_reverse] at hsub
  exact mem_reverse.mp (hsub (mem_reverse.mpr hi))

theorem Valid.le_settledConf (h : l.Valid) (hi : i ∈ l.confs.dropLast) : i ≤ l.settledConf := by
  have hsorted := h.pairwise_confs.sublist (dropLast_sublist l.confs)
  unfold settledConf
  rcases eq_nil_or_concat' l.confs.dropLast with hnil | ⟨init, j, hinit⟩
  · rw [hnil] at hi
    cases hi
  · rw [hinit, getLast?_concat, Option.getD_some]
    rw [hinit] at hi hsorted
    rcases mem_append.mp hi with hi | hi
    · exact ((pairwise_append.mp hsorted).2.2 i hi j (mem_singleton_self j)).le
    · exact (mem_singleton.mp hi).le

namespace Tracks

theorem mono (h : l.Tracks settled) {n : ℕ} (hle : settled ≤ n) : l.Tracks n :=
  ⟨h.last_eq, h.prev_eq, fun h0 => (h.prev_unknown h0).imp_right (·.trans hle),
    fun i hi => (h.le_settled i hi).trans hle⟩

theorem lastConfIdx_le (h : l.Tracks settled) (hv : l.Valid) : l.lastConfIdx ≤ l.lastIdx := by
  rcases (tracks_iff.mp h).1.confs_cases with ⟨-, hzero⟩ | ⟨init, hinit⟩
  · rw [hzero]
    exact zero_le _
  · have hmem : l.lastConfIdx ∈ l.confs := by simp [hinit]
    obtain ⟨-, e, he, -, hidx⟩ := mem_confs hmem
    exact hidx ▸ (hv.mem_idx he).2

theorem emplaceBack (h : l.Tracks settled) (hv : l.Valid) (he : e.idx = l.nextIdx) :
    (l.emplaceBack e).Tracks (max settled (l.emplaceBack e).settledConf) := by
  obtain ⟨hlast, hprev, -⟩ := tracks_iff.mp h
  refine tracks_iff.mpr ⟨hv.knowsLast_emplaceBack he (.inl hlast), ?_, fun i hi =>
    le_max_of_le_right ((hv.emplaceBack he).le_settledConf hi)⟩
  cases hc : e.isConf with
  | true => exact .inl (hv.knowsPrev_emplaceBack he (.inr ⟨hlast, hc⟩))
  | false =>
    obtain ⟨hlast', hprev'⟩ := (confIdx_emplaceBack hv.firstIdx_pos he).2 hc
    rw [hlast', hprev']
    refine hprev.imp (fun hknow => hv.knowsPrev_emplaceBack he (.inl ⟨hknow, hc⟩)) ?_
    exact And.imp_right fun hle => le_max_of_le_left hle

theorem settledConf_le_emplaceBack (hv : l.Valid) (he : e.idx = l.nextIdx) :
    l.settledConf ≤ (l.emplaceBack e).settledConf := by
  have hsub : l.confs.Sublist (l.emplaceBack e).confs := by
    rw [hv.confs_emplaceBack he]
    exact sublist_append_left _ _
  rw [settledConf]
  cases hlast : l.confs.dropLast.getLast? with
  | none => exact zero_le _
  | some k =>
    have hmem := mem_dropLast_of_sublist hsub (mem_of_getLast? hlast)
    exact (hv.emplaceBack he).le_settledConf hmem

theorem settledConf_le_pushed (hv : l.Valid) (hp : l.Pushed l') :
    l.settledConf ≤ l'.settledConf := by
  induction hp with
  | refl => exact le_rfl
  | push hp he ih => exact ih.trans (settledConf_le_emplaceBack (hv.pushed hp) he)

section

variable (h : l.Tracks settled) (hv : l.Valid)

include h hv

theorem pushed (hp : l.Pushed l') :
    l'.Tracks (max settled l'.settledConf) := by
  induction hp with
  | refl => exact h.mono (le_max_left _ _)
  | push hp he ih =>
    have hv' := hv.pushed hp
    have hle := settledConf_le_emplaceBack hv' he
    exact (ih.emplaceBack hv' he).mono (by omega)

theorem truncateUncommitted (hi : settled < i)
    (hfirst : l.firstIdx ≤ i) (hlast : i ≤ l.nextIdx) :
    (l.truncateUncommitted i).Tracks settled := by
  obtain ⟨hknow, hprev, hle⟩ := tracks_iff.mp h
  have hsub : (l.truncateUncommitted i).confs.Sublist l.confs := by
    rw [hv.confs_truncateUncommitted]
    exact filter_sublist
  have hsettled := fun j hj => hle j (mem_dropLast_of_sublist hsub hj)
  obtain ⟨hcut, hkept⟩ := confIdx_truncateUncommitted hv.firstIdx_pos hfirst hlast
  rcases le_or_gt i l.lastConfIdx with hge | hlt
  · -- the configuration before is known, for the last one is not settled
    have hprev := hprev.resolve_right fun h => by omega
    have hcount : l.confs.countP (i ≤ ·) = 1 := by
      rcases hknow.confs_cases with ⟨-, hzero⟩ | ⟨init, hinit⟩
      · omega
      · rw [hinit, dropLast_concat] at hle
        have hnone : init.countP (i ≤ ·) = 0 :=
          countP_eq_zero.mpr fun j hj => by simpa using (hle j hj).trans_lt hi
        rw [hinit, countP_append, hnone]
        simp [hge]
    obtain ⟨hlast', hprev'⟩ := hcut hge
    refine tracks_iff.mpr ⟨(hv.knows_truncateUncommitted_of_cut hknow hprev hfirst hlast hcount).1,
      .inr ⟨hprev', ?_⟩, hsettled⟩
    rw [hlast']
    rcases eq_or_ne l.prevConfIdx 0 with h0 | h0
    · omega
    · exact h.le_settled _ (mem_of_getLast? (h.prev_eq h0))
  · obtain ⟨hlast', hprev'⟩ := hkept hlt
    obtain ⟨hknow', himp⟩ := hv.knows_truncateUncommitted_of_lt hknow hfirst hlast fun k hk =>
      (hknow.le_lastConfIdx hv hk).trans_lt hlt
    refine tracks_iff.mpr ⟨hknow', ?_, hsettled⟩
    rw [hlast', hprev']
    exact hprev.imp_left himp

theorem extended {bound : ℕ} (hbound : settled ≤ bound)
    (he : l.Extended bound l') : l'.Tracks (max settled l'.settledConf) := by
  cases he with
  | pushed hp => exact h.pushed hv hp
  | @replaced e hlt hsnap hfirst hlast hp =>
    have hnext := hlast.trans (le_succ l.lastIdx)
    have hv' := hv.truncateUncommitted hsnap hnext
    have he := nextIdx_truncateUncommitted hv.firstIdx_pos hfirst hnext
    have hpush : (l.truncateUncommitted e.idx).Pushed l' := (Pushed.push .refl he.symm).trans hp
    exact (h.truncateUncommitted hv (hbound.trans_lt hlt) hfirst hnext).pushed hv' hpush

end

theorem applySnapshot (usage : LogEntry → ℕ) (h : l.Tracks settled) (hv : l.Valid)
    (hsnap : l.snapshot.idx < snp.idx) (n bytes : ℕ) :
    (l.applySnapshot usage snp n bytes).Tracks settled := by
  obtain ⟨hlast, hprev, hle⟩ := tracks_iff.mp h
  have hsub : (l.applySnapshot usage snp n bytes).confs.Sublist l.confs := by
    rw [hv.confs_applySnapshot usage hsnap]
    exact filter_sublist
  have hprev_le : l.prevConfIdx ≤ l.lastConfIdx := by
    rcases hprev with hknow | ⟨h0, -⟩
    · exact hv.prevConfIdx_le hlast hknow
    · omega
  refine tracks_iff.mpr ⟨hv.knowsLast_applySnapshot usage hlast hprev_le hsnap n bytes, ?_,
    fun j hj => hle j (mem_dropLast_of_sublist hsub hj)⟩
  rcases hprev with hknow | ⟨h0, hle⟩
  · exact .inl (hv.knowsPrev_applySnapshot usage hlast hknow hsnap n bytes)
  · refine .inr ⟨if_pos (h0.trans_le (zero_le _)), ?_⟩
    change (if _ then 0 else l.lastConfIdx) ≤ settled
    split <;> omega

end Tracks

/-! ## Loading a log -/

theorem Valid.takeWhile_reverse (h : l.Valid) :
    l.entries.reverse.takeWhile (·.idx ≠ l.snapshot.idx) =
      (l.entries.filter (l.snapshot.idx < ·.idx)).reverse := by
  have hslice := h.drop_eq_filter (l.snapshot.idx + 1)
  have hfilter : l.entries.filter (l.snapshot.idx < ·.idx) =
      l.entries.drop (l.snapshot.idx + 1 - l.firstIdx) := hslice.symm
  conv_lhs => rw [← take_append_drop (l.snapshot.idx + 1 - l.firstIdx) l.entries]
  rw [reverse_append, hfilter, takeWhile_append_of_pos]
  · rw [append_right_eq_self]
    rcases eq_nil_or_concat' (l.entries.take (l.snapshot.idx + 1 - l.firstIdx)) with
      hnil | ⟨init, e, hinit⟩
    · rw [hnil]
      rfl
    · -- the last entry before the slice is the one of the snapshot
      have hlength := congrArg length hinit
      have hlast : l.entries[init.length]? = some e := by
        have hget := getElem?_take_of_lt (l := l.entries) (i := init.length)
          (j := l.snapshot.idx + 1 - l.firstIdx) (by
            rw [length_take, length_append, length_singleton] at hlength
            omega)
        rw [← hget, hinit]
        simp
      have hidx := h.idx_eq _ e hlast
      have hle : l.snapshot.idx ≤ l.lastIdx := h.snapshot_le.trans h.stable_le
      rw [length_take, length_append, length_singleton] at hlength
      unfold lastIdx at hle
      have heq : e.idx = l.snapshot.idx := by omega
      rw [hinit, reverse_append, reverse_singleton, singleton_append,
        takeWhile_cons_of_neg]
      simp [heq]
  · intro e he
    rw [mem_reverse, ← hfilter, mem_filter, decide_eq_true_iff] at he
    exact decide_eq_true he.2.ne'

theorem Valid.confs_initLastConfIdx (h : l.Valid) :
    l.initLastConfIdx.lastConfIdx = l.confs.reverse[0]?.getD 0 ∧
      l.initLastConfIdx.prevConfIdx = l.confs.reverse[1]?.getD 0 := by
  have hscan : ((l.entries.reverse.takeWhile (·.idx ≠ l.snapshot.idx)).filter
      LogEntry.isConf).map LogEntry.idx = l.confs.reverse := by
    rw [h.takeWhile_reverse, filter_reverse, map_reverse]
    rfl
  unfold initLastConfIdx
  dsimp only
  rw [hscan]
  exact ⟨rfl, rfl⟩

theorem Tracks.lastConfIdx_initLastConfIdx (h : l.Tracks settled) (hv : l.Valid) :
    l.initLastConfIdx.lastConfIdx = l.lastConfIdx :=
  hv.confs_initLastConfIdx.1.trans (tracks_iff.mp h).1.symm

theorem Valid.tracks_initLastConfIdx (h : l.Valid) :
    l.initLastConfIdx.Tracks l.settledConf := by
  obtain ⟨hlast, hprev⟩ := h.confs_initLastConfIdx
  exact tracks_iff.mpr ⟨hlast, .inl hprev, fun i hi => h.le_settledConf hi⟩

theorem Valid.load_eq (h : l.Valid) (hstable : l.stableIdx = l.lastIdx) :
    load l.snapshot l.entries = some l.initLastConfIdx := by
  have hpos := h.firstIdx_pos
  have hle := h.firstIdx_le
  have hfirst : (l.entries.head?.map LogEntry.idx).getD (l.snapshot.idx + 1) = l.firstIdx := by
    cases hentries : l.entries with
    | nil =>
      have hlast : l.snapshot.idx ≤ l.lastIdx := h.snapshot_le.trans h.stable_le
      unfold lastIdx at hlast
      rw [hentries, length_nil] at hlast
      change l.snapshot.idx + 1 = l.firstIdx
      omega
    | cons e es => exact h.idx_eq 0 e (by rw [hentries]; rfl)
  have hall : l.stableTo l.lastIdx = l := by rw [← hstable]; rfl
  unfold load
  rw [hfirst, if_pos (by simp [hpos, hle]), ← hall]
  rfl

theorem tracks_of_load {entries : List LogEntry} (h : load snp entries = some l) (hv : l.Valid) :
    l.Tracks l.settledConf := by
  have hscan : l.initLastConfIdx = l := by
    obtain ⟨-, rfl⟩ := Option.ite_some_none_eq_some.mp h
    rfl
  have htracks := hv.tracks_initLastConfIdx
  rwa [hscan] at htracks

end Log

end Scylla.Raft
