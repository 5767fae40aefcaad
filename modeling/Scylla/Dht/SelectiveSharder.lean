import Scylla.Dht.RangeSharder

/-!
# Sharding a range to one shard

`selective_token_range_sharder` walks from the start of one run of its shard to the next, and takes
each run to end where a run of the shard with the next number starts. This is right for sharders
that assign the shards in turn, and wrong where another shard comes in between.
-/

namespace Scylla.Dht

open Cql (Bound)
open Cql.Interval (startLess stopReaches)
open WrappingInterval (ofBounds isWrapAround_ofBounds_of_lt mem_points_iff
  intersection_spec)

abbrev TokenRange := WrappingInterval Token

structure SelectiveSharder where
  range : TokenRange
  shard : ℕ
  done : Bool
  nextShard : ℕ
  startToken : Token
  startBoundary : Option (Bound Token)

namespace SelectiveSharder

def rangeStart (range : TokenRange) : Token :=
  match range.start with
  | some s => s.value
  | none => .beforeAllKeys

def make (σ : Sharder) (range : TokenRange) (shard : ℕ) : SelectiveSharder where
  range := range
  shard := shard
  done := false
  nextShard := shardAfter σ.shardCount shard
  startToken := rangeStart range
  startBoundary :=
    if σ.shardForReads (rangeStart range) = shard then range.start
    else some ⟨σ.tokenForNextShardForReads (rangeStart range) shard 1, true⟩

def continues (st : SelectiveSharder) : Bool :=
  st.range.overlaps (ofBounds st.startBoundary none) &&
    !st.startBoundary.any fun b => b.value = .afterAllKeys

def endToken (σ : Sharder) (st : SelectiveSharder) : Token :=
  σ.tokenForNextShardForReads st.startToken st.nextShard 1

def candidate (σ : Sharder) (st : SelectiveSharder) : Option TokenRange :=
  st.range.intersection (ofBounds st.startBoundary (some ⟨st.endToken σ, false⟩))

def advance (σ : Sharder) (st : SelectiveSharder) : SelectiveSharder :=
  { st with
    startToken := σ.tokenForNextShardForReads (st.endToken σ) st.shard 1
    startBoundary := some ⟨σ.tokenForNextShardForReads (st.endToken σ) st.shard 1, true⟩ }

def loop (σ : Sharder) : ℕ → SelectiveSharder → Option (Option TokenRange × SelectiveSharder)
  | 0, _ => none
  | rounds + 1, st =>
    if st.continues then
      match st.candidate σ with
      | some range => some (some range, st.advance σ)
      | none => loop σ rounds (st.advance σ)
    else some (none, { st with done := true })

def next (σ : Sharder) (st : SelectiveSharder) : Option (Option TokenRange × SelectiveSharder) :=
  if st.done then some (none, st) else loop σ (2 ^ 64 + 2) st

variable {st : SelectiveSharder}

theorem next_of_not_continues {σ : Sharder} (hdone : st.done = false) (h : st.continues = false) :
    next σ st = some (none, { st with done := true }) := by
  rw [next, hdone, if_neg Bool.false_ne_true, loop, h, if_neg Bool.false_ne_true]

theorem next_of_candidate {σ : Sharder} (hdone : st.done = false) (h : st.continues = true)
    {range : TokenRange} (hrange : st.candidate σ = some range) :
    next σ st = some (some range, st.advance σ) := by
  rw [next, hdone, if_neg Bool.false_ne_true, loop, if_pos h, hrange]

end SelectiveSharder

/-- Each cell has the shard after the one of the cell before, and another one. -/
def Cells.RoundRobin {σ : Sharder} (c : Cells σ) : Prop :=
  ∀ i, i + 1 < c.count →
    c.shard (i + 1) = shardAfter σ.shardCount (c.shard i) ∧ c.shard (i + 1) ≠ c.shard i

theorem shardAfter_inj {n a b : ℕ} (h : shardAfter n a = shardAfter n b) : a = b := by
  unfold shardAfter at h
  split at h <;> split at h <;> omega

namespace Cells

variable {σ : Sharder} (c : Cells σ) {s i j : ℕ} {t : Token}

def endOf (i : ℕ) : Token := if i + 1 < c.count then c.first (i + 1) else .afterAllKeys

theorem cell_lt_of_lt_endOf (h : t < c.endOf i) : c.cell t ≤ i := by
  by_contra hlt
  have hcount : i + 1 < c.count := Nat.lt_of_le_of_lt (Nat.not_le.mp hlt) (c.cell_lt t)
  rw [endOf, if_pos hcount] at h
  exact absurd ((c.first_le_iff t (Nat.succ_pos i) hcount).mpr (Nat.not_le.mp hlt)) (not_le.mpr h)

theorem lt_endOf_of_cell_le (hkey : t ≠ .afterAllKeys) (h : c.cell t ≤ i) : t < c.endOf i := by
  unfold endOf
  split
  next hcount =>
    exact not_le.mp fun hle =>
      absurd ((c.first_le_iff t (Nat.succ_pos i) hcount).mp hle) (by omega)
  next => exact lt_of_le_of_ne (Token.le_afterAllKeys t) hkey

theorem tokenForNext_of_owned (hrr : c.RoundRobin) (hs : σ.IsShard s)
    (ht : c.shard (c.cell t) = s) :
    σ.tokenForNextShardForReads t (shardAfter σ.shardCount s) 1 = c.endOf (c.cell t) := by
  rcases c.tokenForNext_cases t (.inr ⟨s, hs, rfl⟩) with
    ⟨i, hi, hic, his, hmin, htoken⟩ | ⟨hnone, htoken⟩
  · have hcount : c.cell t + 1 < c.count := by omega
    have hnext : i = c.cell t + 1 := by
      by_contra hne
      exact hmin (c.cell t + 1) (Nat.lt_succ_self _) (by omega) (ht ▸ (hrr _ hcount).1)
    rw [htoken, hnext, endOf, if_pos hcount]
  · have hlast : ¬c.cell t + 1 < c.count := fun hcount =>
      hnone _ (Nat.lt_succ_self _) hcount (ht ▸ (hrr _ hcount).1)
    rw [htoken, endOf, if_neg hlast]

theorem tokenForNext_of_not_owned (hrr : c.RoundRobin) (hs : σ.IsShard s)
    (ht : c.shard (c.cell t) ≠ s) (hj : c.cell t < j) (hjc : j < c.count) (hjs : c.shard j = s)
    (hmin : ∀ i, c.cell t < i → i < j → c.shard i ≠ s) :
    σ.tokenForNextShardForReads t (shardAfter σ.shardCount s) 1 = c.endOf j := by
  rcases c.tokenForNext_cases t (.inr ⟨s, hs, rfl⟩) with
    ⟨k, hk, hkc, hks, hkmin, htoken⟩ | ⟨hnone, htoken⟩
  · -- the cell before `k` is one of `s`
    obtain ⟨i, rfl⟩ := Nat.exists_eq_succ_of_ne_zero (Nat.ne_of_gt (Nat.zero_lt_of_lt hk))
    obtain ⟨hafter, hne⟩ := hrr i hkc
    have his : c.shard i = s := shardAfter_inj (hafter.symm.trans hks)
    have hij : j ≤ i := by
      by_contra hlt
      rcases Nat.lt_or_eq_of_le (Nat.le_of_lt_succ hk) with h | h
      · exact hmin i h (Nat.not_le.mp hlt) his
      · exact ht (h ▸ his)
    have hji : i = j := by
      by_contra hne'
      have hcount : j + 1 < c.count := by omega
      exact hkmin (j + 1) (by omega) (by omega) (hjs ▸ (hrr j hcount).1)
    rw [htoken, ← hji, endOf, if_pos hkc]
  · have hlast : ¬j + 1 < c.count := fun hcount =>
      hnone _ (by omega) hcount (hjs ▸ (hrr j hcount).1)
    rw [htoken, endOf, if_neg hlast]

end Cells

namespace SelectiveSharder

variable {σ : Sharder} {st : SelectiveSharder} {j : ℕ} {t : Token}

/-- The keys of the shard that are still to be yielded. -/
def remaining (σ : Sharder) (st : SelectiveSharder) : Set Token :=
  {t | (∃ data, t = .key data) ∧ t ∈ st.range.points ∧ σ.shardForReads t = st.shard ∧
    t ∈ above st.startBoundary}

structure Ready (c : Cells σ) (st : SelectiveSharder) (j : ℕ) : Prop where
  not_done : st.done = false
  not_wrap : st.range.isWrapAround = false
  nextShard_eq : st.nextShard = shardAfter σ.shardCount st.shard
  isShard : σ.IsShard st.shard
  shard_eq : c.shard j = st.shard
  endToken_eq : st.endToken σ = c.endOf j
  le_cell : ∀ t ∈ above st.startBoundary, j ≤ c.cell t
  not_startLess : startLess compare st.startBoundary st.range.start = false
  value_lt : ∀ b, st.startBoundary = some b → b.value ≠ .afterAllKeys → b.value < c.endOf j

theorem continues_iff (hwrap : st.range.isWrapAround = false) :
    st.continues = true ↔ stopReaches compare st.range.endBound st.startBoundary = true ∧
      ∀ b, st.startBoundary = some b → b.value ≠ .afterAllKeys := by
  have hnone : (ofBounds st.startBoundary none).isWrapAround = false :=
    isWrapAround_ofBounds_of_lt fun _ _ _ h => by cases h
  have hreach (s : Option (Bound Token)) : stopReaches compare none s = true := by cases s <;> rfl
  rw [continues, Bool.and_eq_true, WrappingInterval.overlaps, hwrap, hnone]
  simp only [Bool.and_self, Bool.false_eq_true, if_false,
    WrappingInterval.overlapsUnwrapped_eq, WrappingInterval.start_ofBounds,
    WrappingInterval.endBound_ofBounds, hreach, Bool.and_true]
  cases st.startBoundary with
  | none => simp
  | some b => simp

theorem remaining_of_not_continues (hwrap : st.range.isWrapAround = false)
    (h : st.continues = false) : t ∉ remaining σ st := by
  rintro ⟨⟨data, rfl⟩, hrange, -, habove⟩
  have hstop : ¬(stopReaches compare st.range.endBound st.startBoundary = true ∧
      ∀ b, st.startBoundary = some b → b.value ≠ .afterAllKeys) := by
    rw [← continues_iff hwrap, h]
    exact Bool.false_ne_true
  refine hstop ⟨?_, fun b hb hafter => ?_⟩
  · rw [mem_points_iff hwrap] at hrange
    exact Cql.Interval.stopReaches_of_mem hrange.2 habove
  · rw [hb, mem_above_some, hafter] at habove
    rcases habove with hlt | ⟨heq, -⟩
    · exact absurd hlt (not_lt.mpr (Token.le_afterAllKeys _))
    · cases heq

variable {c : Cells σ}

theorem Ready.exists_candidate (h : Ready c st j) (hcont : st.continues = true) :
    ∃ range, st.candidate σ = some range ∧
      ∀ data, Token.key data ∈ range.points ↔ Token.key data ∈ st.range.points ∧
        Token.key data ∈ above st.startBoundary ∧ c.cell (.key data) ≤ j := by
  obtain ⟨hreach, hkey⟩ := (continues_iff h.not_wrap).mp hcont
  have hwrap : (ofBounds st.startBoundary (some ⟨st.endToken σ, false⟩)).isWrapAround = false :=
    isWrapAround_ofBounds_of_lt fun b hb e he => by
      cases he
      exact h.endToken_eq ▸ h.value_lt b hb (hkey b hb)
  obtain ⟨range, hrange⟩ : ∃ range, st.candidate σ = some range := by
    unfold candidate WrappingInterval.intersection Cql.Interval.intersection
    simp [h.not_startLess, Cql.Interval.intersectOrdered, hreach]
  refine ⟨range, hrange, fun data => ?_⟩
  have hexact : .key data ∈ range.points ↔ .key data ∈ st.range.points ∧
      .key data ∈ (ofBounds st.startBoundary (some ⟨st.endToken σ, false⟩)).points := by
    rw [← (intersection_spec h.not_wrap hwrap).2]
    refine ⟨fun hmem => ⟨range, hrange, hmem⟩, fun ⟨range', hrange', hmem⟩ => ?_⟩
    rwa [Option.some.inj (hrange.symm.trans hrange')]
  rw [hexact, mem_points_iff hwrap, WrappingInterval.start_ofBounds,
    WrappingInterval.endBound_ofBounds, mem_below_some, h.endToken_eq]
  simp only [Bool.false_eq_true, and_false, or_false]
  refine and_congr_right fun _ => and_congr_right fun _ => ?_
  exact ⟨c.cell_lt_of_lt_endOf, c.lt_endOf_of_cell_le nofun⟩

theorem cell_afterAllKeys (c : Cells σ) : c.cell .afterAllKeys + 1 = c.count := by
  have hlt := c.cell_lt .afterAllKeys
  rcases Nat.eq_zero_or_pos (c.count - 1) with hzero | hpos
  · omega
  · have := (c.first_le_iff .afterAllKeys hpos (by omega)).mp (Token.le_afterAllKeys _)
    omega

theorem boundary_cases {s : ℕ} (hs : σ.IsShard s) (t : Token) :
    (∃ k, c.cell t < k ∧ k < c.count ∧ c.shard k = s ∧ (∀ i, c.cell t < i → i < k → c.shard i ≠ s) ∧
      σ.tokenForNextShardForReads t s 1 = c.first k ∧
      (∀ t' ∈ above (some ⟨c.first k, true⟩), k ≤ c.cell t') ∧
      ∀ t', c.cell t < c.cell t' → σ.shardForReads t' = s → t' ∈ above (some ⟨c.first k, true⟩)) ∨
    σ.tokenForNextShardForReads t s 1 = .afterAllKeys ∧
      ∀ t', c.cell t < c.cell t' → σ.shardForReads t' ≠ s := by
  rcases c.tokenForNext_cases t (.inl hs) with ⟨k, hk, hkc, hks, hmin, htoken⟩ | ⟨hnone, htoken⟩
  · have hpos : 0 < k := Nat.zero_lt_of_lt hk
    have hmem (t' : Token) : t' ∈ above (some ⟨c.first k, true⟩) ↔ k ≤ c.cell t' := by
      rw [mem_above_some, ← c.first_le_iff t' hpos hkc, le_iff_lt_or_eq]
      simp [eq_comm]
    refine .inl ⟨k, hk, hkc, hks, hmin, htoken, fun t' => (hmem t').mp, fun t' hlt howner => ?_⟩
    rw [hmem]
    by_contra hlt'
    exact hmin _ hlt (Nat.not_le.mp hlt') (c.shardForReads_eq t' ▸ howner)
  · exact .inr ⟨htoken, fun t' hlt howner =>
      hnone _ hlt (c.cell_lt t') (c.shardForReads_eq t' ▸ howner)⟩

theorem not_startLess_of_lt {s : Option (Bound Token)} {b : Option (Bound Token)} {v : Token}
    (h : startLess compare b s = false) (hb : ∀ a, b = some a → a.value < v) :
    startLess compare (some ⟨v, true⟩) s = false := by
  match s, b with
  | none, _ => rfl
  | some a, none => cases h
  | some a, some b =>
    have hle : a.value ≤ b.value := by
      by_contra hlt
      simp [startLess, compare_lt_iff_lt.mpr (not_le.mp hlt)] at h
    have hlt : a.value < v := hle.trans_lt (hb b rfl)
    simp [startLess, compare_gt_iff_gt.mpr hlt]

theorem Ready.advance (hrr : c.RoundRobin) (h : Ready c st j) (hcont : st.continues = true) :
    (∃ k, j < k ∧ k < c.count ∧ Ready c (st.advance σ) k ∧
      ∀ t, j < c.cell t → σ.shardForReads t = st.shard → t ∈ above (st.advance σ).startBoundary) ∨
    (st.advance σ).startBoundary = some ⟨.afterAllKeys, true⟩ ∧
      ∀ t, j < c.cell t → σ.shardForReads t ≠ st.shard := by
  have hkey := ((continues_iff h.not_wrap).mp hcont).2
  by_cases hcount : j + 1 < c.count
  · have hend : st.endToken σ = c.first (j + 1) := by rw [h.endToken_eq, Cells.endOf, if_pos hcount]
    have hcell : c.cell (st.endToken σ) = j + 1 := hend ▸ c.cell_first (Nat.succ_pos j) hcount
    have hother {t : Token} (ht : j < c.cell t) (howner : σ.shardForReads t = st.shard) :
        c.cell (st.endToken σ) < c.cell t := by
      rcases Nat.lt_or_eq_of_le ht with hlt | heq
      · omega
      · rw [c.shardForReads_eq, ← heq, ← h.shard_eq] at howner
        exact absurd howner (hrr j hcount).2
    rcases boundary_cases (c := c) h.isShard (st.endToken σ) with
      ⟨k, hk, hkc, hks, -, htoken, hle, hcover⟩ | ⟨htoken, hnone⟩
    · have hkpos : 0 < k := Nat.zero_lt_of_lt hk
      have hcellk := c.cell_first hkpos hkc
      have hboundary : (st.advance σ).startBoundary = some ⟨c.first k, true⟩ := by
        rw [SelectiveSharder.advance, htoken]
      refine .inl ⟨k, by omega, hkc, ?_, fun t ht howner =>
        hboundary ▸ hcover t (hother ht howner) howner⟩
      refine ⟨h.not_done, h.not_wrap, h.nextShard_eq, h.isShard, hks, ?_, ?_, ?_, ?_⟩
      · have hstart : (st.advance σ).startToken = c.first k := htoken
        rw [SelectiveSharder.endToken, hstart]
        exact (congrArg (σ.tokenForNextShardForReads (c.first k) · 1) h.nextShard_eq).trans
          ((c.tokenForNext_of_owned hrr h.isShard (hcellk.symm ▸ hks)).trans
            (congrArg c.endOf hcellk))
      · exact hboundary ▸ hle
      · rw [hboundary]
        refine not_startLess_of_lt h.not_startLess fun b hb => ?_
        refine (h.value_lt b hb (hkey b hb)).trans_le ?_
        rw [← h.endToken_eq, hend]
        exact (c.first_le_iff _ (Nat.succ_pos j) hcount).mpr (by omega)
      · intro b hb _
        rw [hboundary] at hb
        cases hb
        exact c.lt_endOf_of_cell_le (c.first_ne_afterAllKeys hkpos hkc) hcellk.le
    · refine .inr ⟨?_, fun t ht howner => hnone t (hother ht howner) howner⟩
      rw [SelectiveSharder.advance, htoken]
  · have hend : st.endToken σ = .afterAllKeys := by rw [h.endToken_eq, Cells.endOf, if_neg hcount]
    refine .inr ⟨?_, fun t ht => absurd (c.cell_lt t) (by omega)⟩
    have hlast := cell_afterAllKeys c
    rcases boundary_cases (c := c) h.isShard (st.endToken σ) with ⟨k, hk, hkc, -⟩ | ⟨htoken, -⟩
    · rw [hend] at hk
      omega
    · rw [SelectiveSharder.advance, htoken]

theorem yields_nil_of_end (hdone : st.done = false) (hwrap : st.range.isWrapAround = false)
    (h : st.startBoundary = some ⟨.afterAllKeys, true⟩) : Yields (next σ) st [] := by
  refine .done (next_of_not_continues hdone (Bool.eq_false_iff.mpr fun hcont => ?_))
  exact ((continues_iff hwrap).mp hcont).2 _ h rfl

theorem Ready.above_of_cell_lt (h : Ready c st j) (hcont : st.continues = true)
    (ht : j < c.cell t) : t ∈ above st.startBoundary := by
  have hkey := ((continues_iff h.not_wrap).mp hcont).2
  match hb : st.startBoundary with
  | none => exact mem_above_none
  | some b =>
    have hcount : j + 1 < c.count := Nat.lt_of_le_of_lt ht (c.cell_lt t)
    have hlt := h.value_lt b hb (hkey b hb)
    rw [Cells.endOf, if_pos hcount] at hlt
    exact mem_above_some.mpr
      (.inl (hlt.trans_le ((c.first_le_iff t (Nat.succ_pos j) hcount).mpr ht)))

theorem Ready.exists_yields (hrr : c.RoundRobin) (h : Ready c st j) (hj : j < c.count) :
    ∃ ranges, Yields (next σ) st ranges ∧
      ∀ data, (∃ r ∈ ranges, Token.key data ∈ r.points) ↔ Token.key data ∈ remaining σ st := by
  induction hn : c.count - j using Nat.strong_induction_on generalizing st j with
  | _ n ih =>
    by_cases hcont : st.continues = true
    · obtain ⟨range, hrange, hmem⟩ := h.exists_candidate hcont
      have hnext := next_of_candidate h.not_done hcont hrange
      have hfirst (data : BitVec 64) : Token.key data ∈ range.points ↔
          Token.key data ∈ remaining σ st ∧ c.cell (.key data) ≤ j := by
        rw [hmem]
        refine ⟨fun ⟨hr, habove, hle⟩ => ⟨⟨⟨data, rfl⟩, hr, ?_, habove⟩, hle⟩,
          fun ⟨⟨_, hr, _, habove⟩, hle⟩ => ⟨hr, habove, hle⟩⟩
        rw [c.shardForReads_eq, le_antisymm hle (h.le_cell _ habove), h.shard_eq]
      rcases h.advance hrr hcont with ⟨k, hjk, hkc, hready, hcover⟩ | ⟨hlast, hnone⟩
      · obtain ⟨ranges, hyields, hrest⟩ := ih _ (by omega) hready hkc rfl
        have hafter (data : BitVec 64) : Token.key data ∈ remaining σ (st.advance σ) ↔
            Token.key data ∈ remaining σ st ∧ ¬c.cell (.key data) ≤ j := by
          constructor
          · rintro ⟨hk, hr, howner, habove⟩
            have hlt := hjk.trans_le (hready.le_cell _ habove)
            exact ⟨⟨hk, hr, howner, h.above_of_cell_lt hcont hlt⟩, Nat.not_le.mpr hlt⟩
          · rintro ⟨⟨hk, hr, howner, -⟩, hlt⟩
            exact ⟨hk, hr, howner, hcover _ (Nat.not_le.mp hlt) howner⟩
        refine ⟨range :: ranges, .step hnext hyields, fun data => ?_⟩
        rw [List.exists_mem_cons_iff, hrest, hfirst, hafter, ← and_or_left]
        exact and_iff_left (em _)
      · refine ⟨[range], .step hnext (yields_nil_of_end h.not_done h.not_wrap hlast),
          fun data => ?_⟩
        rw [List.exists_mem_cons_iff, hfirst]
        refine ⟨fun hmem => hmem.elim (fun h => h.1) fun h => absurd h (by simp), fun hmem => ?_⟩
        exact .inl ⟨hmem, Nat.not_lt.mp fun hlt => hnone _ hlt hmem.2.2.1⟩
    · rw [Bool.not_eq_true] at hcont
      refine ⟨[], .done (next_of_not_continues h.not_done hcont), fun data => ?_⟩
      exact iff_of_false (by simp) (remaining_of_not_continues h.not_wrap hcont)

def Selects (σ : Sharder) (range : TokenRange) (s : ℕ) (ranges : List TokenRange) : Prop :=
  ∀ data, (∃ r ∈ ranges, Token.key data ∈ r.points) ↔
    Token.key data ∈ range.points ∧ σ.shardForReads (.key data) = s

variable {range : TokenRange}

theorem rangeStart_le (h : t ∈ above range.start) : rangeStart range ≤ t := by
  unfold rangeStart
  match hs : range.start with
  | none => exact Nat.zero_le _
  | some s =>
    rw [hs, mem_above_some] at h
    exact h.elim le_of_lt fun heq => heq.1.ge

theorem startLess_self (s : Option (Bound Token)) : startLess compare s s = false := by
  match s with
  | none => rfl
  | some s => simp [startLess]

theorem exists_selects (c : Cells σ) (hrr : c.RoundRobin) (hwrap : range.isWrapAround = false)
    {s : ℕ} (hs : σ.IsShard s) :
    ∃ ranges, Yields (next σ) (make σ range s) ranges ∧ Selects σ range s ranges := by
  have habove {t : Token} (ht : t ∈ range.points) : t ∈ above range.start :=
    ((mem_points_iff hwrap).mp ht).1
  have hvalue {b : Bound Token} (hb : range.start = some b) : b.value = rangeStart range := by
    rw [rangeStart, hb]
  by_cases howner : σ.shardForReads (rangeStart range) = s
  · have hboundary : (make σ range s).startBoundary = range.start := if_pos howner
    have hready : Ready c (make σ range s) (c.cell (rangeStart range)) := by
      rw [c.shardForReads_eq] at howner
      refine ⟨rfl, hwrap, rfl, hs, howner, c.tokenForNext_of_owned hrr hs howner, ?_, ?_, ?_⟩
      · exact fun t ht => c.cell_mono (rangeStart_le (hboundary ▸ ht))
      · rw [hboundary]
        exact startLess_self _
      · intro b hb hne
        rw [hboundary] at hb
        rw [hvalue hb] at hne ⊢
        exact c.lt_endOf_of_cell_le hne le_rfl
    obtain ⟨ranges, hyields, hmem⟩ := hready.exists_yields hrr (c.cell_lt _)
    refine ⟨ranges, hyields, fun data => (hmem data).trans ?_⟩
    exact ⟨fun ⟨_, hr, ho, _⟩ => ⟨hr, ho⟩,
      fun ⟨hr, ho⟩ => ⟨⟨data, rfl⟩, hr, ho, hboundary ▸ habove hr⟩⟩
  · have hboundary : (make σ range s).startBoundary =
        some ⟨σ.tokenForNextShardForReads (rangeStart range) s 1, true⟩ := if_neg howner
    have hlater {t : Token} (hr : t ∈ range.points) (ho : σ.shardForReads t = s) :
        c.cell (rangeStart range) < c.cell t := by
      refine lt_of_le_of_ne (c.cell_mono (rangeStart_le (habove hr))) fun heq => howner ?_
      rw [c.shardForReads_eq, heq, ← c.shardForReads_eq, ho]
    rcases boundary_cases (c := c) hs (rangeStart range) with
      ⟨k, hk, hkc, hks, hmin, htoken, hle, hcover⟩ | ⟨htoken, hnone⟩
    · have hkpos : 0 < k := Nat.zero_lt_of_lt hk
      rw [htoken] at hboundary
      have hready : Ready c (make σ range s) k := by
        rw [c.shardForReads_eq] at howner
        refine ⟨rfl, hwrap, rfl, hs, hks,
          c.tokenForNext_of_not_owned hrr hs howner hk hkc hks hmin, hboundary ▸ hle, ?_, ?_⟩
        · rw [hboundary]
          refine not_startLess_of_lt (startLess_self range.start) fun b hb => ?_
          rw [hvalue hb]
          exact not_le.mp fun hge => absurd ((c.first_le_iff _ hkpos hkc).mp hge) (by omega)
        · intro b hb _
          rw [hboundary] at hb
          cases hb
          exact c.lt_endOf_of_cell_le (c.first_ne_afterAllKeys hkpos hkc)
            (c.cell_first hkpos hkc).le
      obtain ⟨ranges, hyields, hmem⟩ := hready.exists_yields hrr hkc
      refine ⟨ranges, hyields, fun data => (hmem data).trans ?_⟩
      exact ⟨fun ⟨_, hr, ho, _⟩ => ⟨hr, ho⟩,
        fun ⟨hr, ho⟩ => ⟨⟨data, rfl⟩, hr, ho, hboundary ▸ hcover _ (hlater hr ho) ho⟩⟩
    · rw [htoken] at hboundary
      refine ⟨[], yields_nil_of_end rfl hwrap hboundary, fun data => ?_⟩
      exact iff_of_false (by simp) fun ⟨hr, ho⟩ => hnone _ (hlater hr ho) ho

theorem exists_not_selects (c : Cells σ) {i : ℕ} (hcount : i + 1 < c.count)
    (hnext : c.shard (i + 1) ≠ shardAfter σ.shardCount (c.shard i))
    (hother : c.shard (i + 1) ≠ c.shard i) :
    ∃ range : TokenRange, range.isWrapAround = false ∧
      ∀ ranges, Yields (next σ) (make σ range (c.shard i)) ranges →
        ¬Selects σ range (c.shard i) ranges := by
  obtain ⟨u, hcov, hcell⟩ := c.exists_covBy_first hcount
  obtain ⟨v, -, -, hkey⟩ := c.first_eq_bias (Nat.succ_pos i) hcount
  have howner : σ.shardForReads (bias u) = c.shard i := by rw [c.shardForReads_eq, hcell]
  have hwrap : (ofBounds (some ⟨bias u, true⟩) (some ⟨c.first (i + 1), true⟩)).isWrapAround =
      false := isWrapAround_ofBounds_of_lt fun a ha b hb => by
    cases ha
    cases hb
    exact hcov.lt
  refine ⟨_, hwrap, fun ranges hyields hselects => ?_⟩
  generalize hst : make σ (ofBounds (some ⟨bias u, true⟩) (some ⟨c.first (i + 1), true⟩))
    (c.shard i) = st at hyields
  have hrange : st.range = ofBounds (some ⟨bias u, true⟩) (some ⟨c.first (i + 1), true⟩) :=
    hst ▸ rfl
  have hboundary : st.startBoundary = some ⟨bias u, true⟩ := hst ▸ if_pos howner
  -- the candidate goes on after the first token of the next cell
  have hend : c.first (i + 1) < st.endToken σ := by
    have hasked : σ.Asked (shardAfter σ.shardCount (c.shard i)) :=
      .inr ⟨_, .inr ⟨_, howner⟩, rfl⟩
    have htoken : st.endToken σ =
        σ.tokenForNextShardForReads (bias u) (shardAfter σ.shardCount (c.shard i)) 1 := hst ▸ rfl
    rw [htoken]
    rcases c.tokenForNext_cases (bias u) hasked with ⟨k, hk, hkc, hks, -, hfirst⟩ | ⟨-, hafter⟩
    · have hne : k ≠ i + 1 := fun h => hnext (h ▸ hks)
      rw [hfirst]
      refine not_le.mp fun hle => ?_
      have := (c.first_le_iff _ (Nat.zero_lt_of_lt hk) hkc).mp hle
      rw [c.cell_first (Nat.succ_pos i) hcount] at this
      omega
    · rw [hafter]
      exact lt_of_le_of_ne (Token.le_afterAllKeys _)
        (c.first_ne_afterAllKeys (Nat.succ_pos i) hcount)
  have hcont : st.continues = true := by
    rw [continues_iff (hrange ▸ hwrap), hrange, hboundary]
    refine ⟨?_, fun b hb => ?_⟩
    · exact Cql.Interval.stopReaches_of_mem (v := bias u) (mem_below_some.mpr (.inl hcov.lt))
        (mem_above_some.mpr (.inr ⟨rfl, rfl⟩))
    · cases hb
      exact Token.bias_ne_afterAllKeys u
  have hcandidate : (ofBounds st.startBoundary (some ⟨st.endToken σ, false⟩)).isWrapAround =
      false := isWrapAround_ofBounds_of_lt fun a ha b hb => by
    rw [hboundary] at ha
    cases ha
    cases hb
    exact hcov.lt.trans hend
  obtain ⟨r, hr, hmem⟩ := ((intersection_spec (hrange ▸ hwrap) hcandidate).2
    (c.first (i + 1))).mpr ⟨by
      rw [hrange, mem_points_iff hwrap]
      exact ⟨mem_above_some.mpr (.inl hcov.lt), mem_below_some.mpr (.inr ⟨rfl, rfl⟩)⟩, by
      rw [mem_points_iff hcandidate, hboundary]
      exact ⟨mem_above_some.mpr (.inl hcov.lt), mem_below_some.mpr (.inl hend)⟩⟩
  have hnext' := next_of_candidate (hst ▸ rfl) hcont hr
  cases hyields with
  | done h => cases hnext'.symm.trans h
  | step h hl =>
    obtain ⟨hsome, rfl⟩ := Prod.mk.inj (Option.some.inj (hnext'.symm.trans h))
    cases hsome
    have hwrong := ((hselects _).mp ⟨_, List.mem_cons_self, hkey ▸ hmem⟩).2
    rw [← bias, ← hkey, c.shardForReads_eq, c.cell_first (Nat.succ_pos i) hcount] at hwrong
    exact hother hwrong

end SelectiveSharder

end Scylla.Dht
