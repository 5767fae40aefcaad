import Scylla.Dht.ShardRuns

/-!
# Sharders

What the range sharders ask of a sharder, the static sharder and the tablet sharder as sharders,
and what the two have in common: they cut the ring into cells, each owned by one shard, and answer
by the numbers of the cells.
-/

namespace Scylla.Dht

open Nat
open Token

/-- The part of `sharder` that is about reads. -/
structure Sharder where
  shardCount : ℕ
  shardForReads : Token → ℕ
  nextShardForReads : Token → Option (ℕ × Token)
  tokenForNextShardForReads : Token → ℕ → ℕ → Token

/-- The shard after another one, as the static sharder assigns them. -/
def shardAfter (shardCount shard : ℕ) : ℕ := if shard + 1 = shardCount then 0 else shard + 1

/-! ### The static sharder -/

namespace StaticSharder

def nextShard (wide : ℕ → UInt32) (σ : StaticSharder) (t : Token) : Option (ℕ × Token) :=
  let shard := shardAfter σ.shardCount (σ.shardOf t)
  let token := σ.tokenForNextShard wide t shard 1
  if token = .afterAllKeys then none else some (shard, token)

def toSharder (wide : ℕ → UInt32) (σ : StaticSharder) : Sharder where
  shardCount := σ.shardCount
  shardForReads := σ.shardOf
  nextShardForReads := σ.nextShard wide
  tokenForNextShardForReads := σ.tokenForNextShard wide

end StaticSharder

/-! ### The tablet sharder -/

def intShift (wide : ℕ → BitVec 32) (bits : ℕ) : BitVec 32 :=
  if bits < 32 then 1#32 <<< bits else wide bits

/-- `compaction_group_of`. The last group is counted in an `int`. -/
def compactionGroupOf (wide : ℕ → BitVec 32) (mostSignificantBits : ℕ) (t : Token) : ℕ :=
  if mostSignificantBits = 0 then 0
  else
    match t with
    | .beforeAllKeys => 0
    | .afterAllKeys => ((intShift wide mostSignificantBits - 1).signExtend 64).toNat
    | .key data => unbias data >>> (64 - mostSignificantBits)

/-- `last_token_of_compaction_group`. -/
def lastTokenOfCompactionGroup (mostSignificantBits group : ℕ) : Token :=
  if group = 2 ^ mostSignificantBits - 1 then bias (2 ^ 64 - 1)
  else bias (((group + 1) <<< (64 - mostSignificantBits)) - 1)

/-- `next_token`. -/
def nextToken : Token → Token
  | .key data => .key (data + 1)
  | t => t

/-- `get_first_token` of a map of `2 ^ k` tablets. -/
def firstTokenOfTablet (k id : ℕ) : Token :=
  if id = 0 then .key (BitVec.intMin 64 + 1)
  else nextToken (lastTokenOfCompactionGroup k (id - 1))

theorem compactionGroupOf_bias {wide : ℕ → BitVec 32} {k u : ℕ} (hu : u < 2 ^ 64) :
    compactionGroupOf wide k (bias u) = u / period k := by
  obtain ⟨d, hbias, hd⟩ := exists_unbias_eq hu
  rw [hbias, compactionGroupOf]
  split
  next hzero => rw [hzero, period, Nat.sub_zero, div_eq_of_lt hu]
  next => simp only [hd, shiftRight_eq_div_pow, period]

theorem nextToken_bias {n : ℕ} : nextToken (bias n) = bias (n + 1) := by
  rw [bias, bias, nextToken, BitVec.ofNat_add]
  congr 1
  bv_omega

theorem lastToken_eq {k id : ℕ} (hk : k ≤ 64) :
    lastTokenOfCompactionGroup k id = bias (id * period k + (period k - 1)) := by
  have hmul : (id + 1) * period k - 1 = id * period k + (period k - 1) := by
    rw [succ_mul, Nat.add_sub_assoc (period_pos k)]
  rw [lastTokenOfCompactionGroup, ← hmul]
  split
  next hlast =>
    rw [hlast, Nat.sub_add_cancel (Nat.two_pow_pos k), two_pow_mul_period hk]
  next => rw [shiftLeft_eq, ← period]

theorem nextToken_lastToken {k id : ℕ} (hk : k ≤ 64) :
    nextToken (lastTokenOfCompactionGroup k id) = bias ((id + 1) * period k) := by
  rw [lastToken_eq hk, nextToken_bias, Nat.add_assoc, Nat.sub_add_cancel (period_pos k), ← succ_mul]

/-- `tablet_replica`. -/
structure TabletReplica (H : Type*) where
  host : H
  shard : ℕ

/-- `tablet_transition_kind`. -/
inductive TransitionKind where
  | migration
  | intranodeMigration
  | rebuild
  deriving DecidableEq

/-- `read_replica_set_selector`. -/
inductive ReadSelector where
  | previous
  | next
  deriving DecidableEq

/-- The part of `tablet_transition_info` that reads are routed by. -/
structure TransitionInfo (H : Type*) where
  transition : TransitionKind
  pendingReplica : Option (TabletReplica H)
  reads : ReadSelector

structure TabletMap (H : Type*) where
  log2Tablets : ℕ
  log2Tablets_le : log2Tablets ≤ 30
  /-- `get_tablet_info(id).replicas`. -/
  replicas : ℕ → List (TabletReplica H)
  /-- `get_tablet_transition_info(id)`. -/
  transitions : ℕ → Option (TransitionInfo H)

namespace TabletMap

variable {H : Type*} (m : TabletMap H)

def tabletCount : ℕ := 2 ^ m.log2Tablets

/-- `get_tablet_id`. A shift by at most 30 bits is never wide. -/
def getTabletId (t : Token) : ℕ := compactionGroupOf (fun _ => 0) m.log2Tablets t

/-- `get_first_token`. -/
def getFirstToken (id : ℕ) : Token := firstTokenOfTablet m.log2Tablets id

/-- `next_tablet`. -/
def nextTablet (id : ℕ) : Option ℕ := if id = m.tabletCount - 1 then none else some (id + 1)

theorem log2Tablets_le_64 : m.log2Tablets ≤ 64 := m.log2Tablets_le.trans (by decide)

theorem getTabletId_bias {u : ℕ} (hu : u < 2 ^ 64) :
    m.getTabletId (bias u) = u / period m.log2Tablets := compactionGroupOf_bias hu

theorem getTabletId_beforeAllKeys : m.getTabletId .beforeAllKeys = 0 := by
  rw [getTabletId, compactionGroupOf]
  split <;> rfl

theorem getTabletId_afterAllKeys : m.getTabletId .afterAllKeys = m.tabletCount - 1 := by
  have hlast : ∀ k ≤ 30, ((1#32 <<< k - 1).signExtend 64).toNat = 2 ^ k - 1 := by decide
  have hle := m.log2Tablets_le
  rw [getTabletId, compactionGroupOf, tabletCount]
  split
  next hzero => rw [hzero]; rfl
  next => rw [intShift, if_pos (by omega), hlast _ hle]

variable {id : ℕ}

theorem getFirstToken_eq (hpos : 0 < id) :
    m.getFirstToken id = bias (id * period m.log2Tablets) := by
  rw [getFirstToken, firstTokenOfTablet, if_neg hpos.ne',
    nextToken_lastToken m.log2Tablets_le_64, Nat.sub_add_cancel hpos]

theorem getTabletId_lt (t : Token) : m.getTabletId t < m.tabletCount := by
  have hpos : 0 < m.tabletCount := Nat.two_pow_pos _
  rcases t.cases_bias with rfl | ⟨u, hu, rfl⟩ | rfl
  · rwa [getTabletId_beforeAllKeys]
  · rw [getTabletId_bias m hu]
    exact (exists_place m.log2Tablets_le_64 hu).2
  · rw [getTabletId_afterAllKeys]
    omega

theorem mul_period_lt (hid : id < m.tabletCount) : id * period m.log2Tablets < 2 ^ 64 := by
  simpa using place_lt m.log2Tablets_le_64 hid (period_pos m.log2Tablets)

theorem getFirstToken_le_iff (hpos : 0 < id) (hid : id < m.tabletCount) (t : Token) :
    m.getFirstToken id ≤ t ↔ id ≤ m.getTabletId t := by
  rw [getFirstToken_eq m hpos]
  rcases t.cases_bias with rfl | ⟨u, hu, rfl⟩ | rfl
  · rw [getTabletId_beforeAllKeys]
    exact iff_of_false (not_le.mpr (beforeAllKeys_lt_bias _)) (by omega)
  · rw [getTabletId_bias m hu, le_div_iff_mul_le (period_pos _), ← not_lt,
      bias_lt_bias hu (m.mul_period_lt hid), not_lt]
  · rw [getTabletId_afterAllKeys]
    exact iff_of_true (le_afterAllKeys _) (by omega)

theorem getTabletId_getFirstToken (hpos : 0 < id) (hid : id < m.tabletCount) :
    m.getTabletId (m.getFirstToken id) = id := by
  rw [getFirstToken_eq m hpos, getTabletId_bias m (m.mul_period_lt hid),
    mul_div_left _ (period_pos _)]

end TabletMap

structure TabletSharder (H : Type*) where
  map : TabletMap H
  host : H
  shardCount : ℕ

namespace TabletSharder

variable {H : Type*} [DecidableEq H] (σ : TabletSharder H)

def getShard (replicas : List (TabletReplica H)) : Option ℕ :=
  (replicas.find? fun r => r.host = σ.host).map TabletReplica.shard

/-- `shard_for_reads` of a tablet. -/
def shardForReadsOf (id : ℕ) : Option ℕ :=
  match σ.map.transitions id with
  | none => σ.getShard (σ.map.replicas id)
  | some info =>
    match info.pendingReplica with
    | some pending =>
      if pending.host = σ.host then
        if info.transition = .intranodeMigration ∧ info.reads = .previous then
          σ.getShard (σ.map.replicas id)
        else some pending.shard
      else σ.getShard (σ.map.replicas id)
    | none => σ.getShard (σ.map.replicas id)

def shardForReads (t : Token) : ℕ := (σ.shardForReadsOf (σ.map.getTabletId t)).getD 0

/-- `next_shard_for_reads`: the body of its loop returns. -/
def nextShardForReads (t : Token) : Option (ℕ × Token) :=
  (σ.map.nextTablet (σ.map.getTabletId t)).map fun id =>
    ((σ.shardForReadsOf id).getD 0, σ.map.getFirstToken id)

theorem nextShardForReads_eq (t : Token) :
    σ.nextShardForReads t =
      if σ.map.getTabletId t + 1 < σ.map.tabletCount then
        some ((σ.shardForReadsOf (σ.map.getTabletId t + 1)).getD 0,
          σ.map.getFirstToken (σ.map.getTabletId t + 1))
      else none := by
  have hlt := σ.map.getTabletId_lt t
  unfold nextShardForReads TabletMap.nextTablet
  by_cases hlast : σ.map.getTabletId t = σ.map.tabletCount - 1
  · rw [if_pos hlast, if_neg (by omega)]
    rfl
  · rw [if_neg hlast, if_pos (by omega)]
    rfl

theorem getTabletId_of_next {t token : Token} {shard : ℕ}
    (h : σ.nextShardForReads t = some (shard, token)) :
    σ.map.getTabletId token = σ.map.getTabletId t + 1 ∧
      σ.map.getTabletId t + 1 < σ.map.tabletCount := by
  rw [nextShardForReads_eq] at h
  split at h
  next hlt =>
    cases h
    exact ⟨σ.map.getTabletId_getFirstToken (succ_pos _) hlt, hlt⟩
  next => cases h

def tokenForNextShardForReads (t : Token) (shard spans : ℕ) : Token :=
  match h : σ.nextShardForReads t with
  | none => .afterAllKeys
  | some (s, token) =>
    if s = shard then
      if spans - 1 = 0 then token else tokenForNextShardForReads token shard (spans - 1)
    else tokenForNextShardForReads token shard spans
termination_by σ.map.tabletCount - σ.map.getTabletId t
decreasing_by
  all_goals
    have := σ.getTabletId_of_next h
    omega

def toSharder : Sharder where
  shardCount := σ.shardCount
  shardForReads := σ.shardForReads
  nextShardForReads := σ.nextShardForReads
  tokenForNextShardForReads := σ.tokenForNextShardForReads

end TabletSharder

/-! ### Cells -/

/-- `s` is a shard of the sharder: one of its number of shards, or one that owns a token. -/
def Sharder.IsShard (σ : Sharder) (s : ℕ) : Prop :=
  s < σ.shardCount ∨ ∃ t, σ.shardForReads t = s

/-- The range sharders ask the sharder for its shards and for those that come after them. -/
def Sharder.Asked (σ : Sharder) (s : ℕ) : Prop :=
  σ.IsShard s ∨ ∃ s', σ.IsShard s' ∧ s = shardAfter σ.shardCount s'

structure Cells (σ : Sharder) where
  count : ℕ
  cell : Token → ℕ
  first : ℕ → Token
  shard : ℕ → ℕ
  cell_lt : ∀ t, cell t < count
  first_eq_bias : ∀ {i}, 0 < i → i < count → ∃ u, 0 < u ∧ u < 2 ^ 64 ∧ first i = bias u
  first_le_iff : ∀ {i} t, 0 < i → i < count → (first i ≤ t ↔ i ≤ cell t)
  cell_first : ∀ {i}, 0 < i → i < count → cell (first i) = i
  shardForReads_eq : ∀ t, σ.shardForReads t = shard (cell t)
  next_eq : ∀ t, σ.nextShardForReads t =
    if cell t + 1 < count then some (shard (cell t + 1), first (cell t + 1)) else none
  tokenForNext_cases : ∀ {s} t, σ.Asked s →
    (∃ i, cell t < i ∧ i < count ∧ shard i = s ∧ (∀ j, cell t < j → j < i → shard j ≠ s) ∧
      σ.tokenForNextShardForReads t s 1 = first i) ∨
    (∀ j, cell t < j → j < count → shard j ≠ s) ∧
      σ.tokenForNextShardForReads t s 1 = .afterAllKeys

namespace Cells

variable {σ : Sharder} (c : Cells σ) {t t' : Token} {i : ℕ}

theorem cell_mono (h : t ≤ t') : c.cell t ≤ c.cell t' := by
  rcases Nat.eq_zero_or_pos (c.cell t) with hzero | hpos
  · exact hzero ▸ Nat.zero_le _
  · have hfirst := (c.first_le_iff t hpos (c.cell_lt t)).mpr le_rfl
    exact (c.first_le_iff t' hpos (c.cell_lt t)).mp (hfirst.trans h)

theorem cell_eq_of_lt_next (hle : t ≤ t')
    (hnext : c.cell t + 1 < c.count → t' < c.first (c.cell t + 1)) : c.cell t' = c.cell t := by
  refine le_antisymm (le_of_lt_succ (not_le.mp fun hge => ?_)) (c.cell_mono hle)
  have hcount : c.cell t + 1 < c.count := lt_of_le_of_lt hge (c.cell_lt t')
  exact absurd ((c.first_le_iff t' (succ_pos _) hcount).mpr hge) (not_le.mpr (hnext hcount))

theorem lt_first_next (hcount : c.cell t + 1 < c.count) : t < c.first (c.cell t + 1) :=
  not_le.mp fun hle =>
    absurd ((c.first_le_iff t (succ_pos _) hcount).mp hle) (not_succ_le_self _)

theorem first_ne_afterAllKeys (hpos : 0 < i) (hcount : i < c.count) :
    c.first i ≠ .afterAllKeys := by
  obtain ⟨u, -, -, hu⟩ := c.first_eq_bias hpos hcount
  exact hu ▸ bias_ne_afterAllKeys u

theorem exists_covBy_first (hcount : i + 1 < c.count) :
    ∃ u, bias u ⋖ c.first (i + 1) ∧ c.cell (bias u) = i := by
  obtain ⟨v, hpos, hv, hfirst⟩ := c.first_eq_bias (succ_pos i) hcount
  obtain ⟨u, rfl⟩ := exists_eq_succ_of_ne_zero hpos.ne'
  have hcov : bias u ⋖ c.first (i + 1) := hfirst ▸ bias_covBy hv
  refine ⟨u, hcov, le_antisymm (le_of_lt_succ (not_le.mp fun hge => ?_)) ?_⟩
  · exact absurd ((c.first_le_iff _ (succ_pos i) hcount).mpr hge) (not_le.mpr hcov.lt)
  · rcases Nat.eq_zero_or_pos i with rfl | hi
    · exact Nat.zero_le _
    · have hi' : i < c.count := lt_of_succ_lt hcount
      refine (c.first_le_iff _ hi hi').mp (hcov.le_of_lt (not_le.mp fun hge => ?_))
      have hcell := c.cell_mono hge
      rw [c.cell_first (succ_pos i) hcount, c.cell_first hi hi'] at hcell
      omega

end Cells

namespace TabletSharder

variable {H : Type*} [DecidableEq H] (σ : TabletSharder H)

theorem tokenForNext_cases (s : ℕ) (t : Token) :
    (∃ i, σ.map.getTabletId t < i ∧ i < σ.map.tabletCount ∧ (σ.shardForReadsOf i).getD 0 = s ∧
      (∀ j, σ.map.getTabletId t < j → j < i → (σ.shardForReadsOf j).getD 0 ≠ s) ∧
      σ.tokenForNextShardForReads t s 1 = σ.map.getFirstToken i) ∨
    (∀ j, σ.map.getTabletId t < j → j < σ.map.tabletCount → (σ.shardForReadsOf j).getD 0 ≠ s) ∧
      σ.tokenForNextShardForReads t s 1 = .afterAllKeys := by
  induction hn : σ.map.tabletCount - σ.map.getTabletId t using Nat.strong_induction_on
    generalizing t with
  | _ n ih =>
    rw [tokenForNextShardForReads]
    have hnext := σ.nextShardForReads_eq t
    split
    next hnone =>
      rw [hnone] at hnext
      split at hnext
      next => cases hnext
      next hlast => exact .inr ⟨fun j hj hjlt => by omega, rfl⟩
    next s' token hsome =>
      obtain ⟨hid, hlt⟩ := σ.getTabletId_of_next hsome
      rw [hsome, if_pos hlt] at hnext
      cases hnext
      split
      next hshard =>
        exact .inl ⟨_, lt_succ_self _, hlt, hshard, fun j hj hj' => by omega, rfl⟩
      next hshard =>
        have hrest := ih _ (by omega) (σ.map.getFirstToken (σ.map.getTabletId t + 1)) rfl
        rw [hid] at hrest
        refine hrest.imp ?_ ?_
        · rintro ⟨i, hi, hic, his, hmin, htoken⟩
          refine ⟨i, by omega, hic, his, fun j hj hji => ?_, htoken⟩
          rcases Nat.lt_or_eq_of_le hj with hj' | rfl
          · exact hmin j hj' hji
          · exact hshard
        · rintro ⟨hnone, htoken⟩
          refine ⟨fun j hj hjc => ?_, htoken⟩
          rcases Nat.lt_or_eq_of_le hj with hj' | rfl
          · exact hnone j hj' hjc
          · exact hshard

def cells : Cells σ.toSharder where
  count := σ.map.tabletCount
  cell := σ.map.getTabletId
  first := σ.map.getFirstToken
  shard id := (σ.shardForReadsOf id).getD 0
  cell_lt := σ.map.getTabletId_lt
  first_eq_bias hpos hlt := ⟨_, mul_pos hpos (period_pos _), σ.map.mul_period_lt hlt,
    σ.map.getFirstToken_eq hpos⟩
  first_le_iff t hpos hlt := σ.map.getFirstToken_le_iff hpos hlt t
  cell_first := σ.map.getTabletId_getFirstToken
  shardForReads_eq _ := rfl
  next_eq := σ.nextShardForReads_eq
  tokenForNext_cases t _ := σ.tokenForNext_cases _ t

end TabletSharder

namespace StaticSharder

variable {wide : ℕ → UInt32} {σ : StaticSharder}

def runOf (σ : StaticSharder) : Token → ℕ
  | .beforeAllKeys => 0
  | .key data => unbias data / period σ.bits * σ.shardCount +
      zeroBasedShardOf (unbias data) σ.shardCount σ.bits
  | .afterAllKeys => 2 ^ σ.bits * σ.shardCount - 1

/-- A key, or the token before all of them with the number zero. -/
def At (u : ℕ) (t : Token) : Prop := u < 2 ^ 64 ∧ (t = .beforeAllKeys ∧ u = 0 ∨ t = bias u)

variable {t : Token}

theorem exists_at (ht : t ≠ .afterAllKeys) : ∃ u, At u t := by
  rcases t.cases_bias with rfl | ⟨u, hu, rfl⟩ | rfl
  · exact ⟨0, Nat.two_pow_pos _, .inl ⟨rfl, rfl⟩⟩
  · exact ⟨u, hu, .inr rfl⟩
  · exact absurd rfl ht

theorem Fits.zeroBasedShardOf_lt (h : σ.Fits) (u : ℕ) :
    zeroBasedShardOf u σ.shardCount σ.bits < σ.shardCount := by
  rw [zeroBasedShardOf_eq h.bits_le]
  exact shard_lt h.pos (mod_lt _ (period_pos _))

theorem zeroBasedShardOf_zero (shards bits : ℕ) : zeroBasedShardOf 0 shards bits = 0 := by
  simp [zeroBasedShardOf]

variable {u : ℕ}

theorem runOf_at (h : At u t) :
    σ.runOf t = u / period σ.bits * σ.shardCount + zeroBasedShardOf u σ.shardCount σ.bits := by
  obtain ⟨hu, ⟨rfl, rfl⟩ | rfl⟩ := h
  · simp [runOf, zeroBasedShardOf_zero]
  · obtain ⟨d, hbias, hd⟩ := exists_unbias_eq hu
    rw [hbias, runOf, hd]

theorem shardOf_at (h : At u t) : σ.shardOf t = zeroBasedShardOf u σ.shardCount σ.bits := by
  obtain ⟨hu, ⟨rfl, rfl⟩ | rfl⟩ := h
  · simp [StaticSharder.shardOf, Dht.shardOf, zeroBasedShardOf_zero]
  · obtain ⟨d, hbias, hd⟩ := exists_unbias_eq hu
    rw [hbias, StaticSharder.shardOf, Dht.shardOf, hd]

variable {i : ℕ}

theorem Fits.run_lt_iff (h : σ.Fits) :
    u / period σ.bits * σ.shardCount + zeroBasedShardOf u σ.shardCount σ.bits < i ↔
      nextPeriod σ.shardCount σ.bits (i % σ.shardCount) u ≤ i / σ.shardCount := by
  unfold nextPeriod
  rw [← lt_iff_quotient (h.zeroBasedShardOf_lt u) (mod_lt i h.pos), div_add_mod']

variable {s : ℕ}

theorem Fits.tokenForNextShard_at (h : σ.Fits) (hat : At u t) (hs : s < σ.shardCount) :
    σ.tokenForNextShard wide t s 1 =
      if oneShifted wide σ.bits ≤ nextPeriod σ.shardCount σ.bits s u then .afterAllKeys
      else runStart σ.shardCount σ.bits s (nextPeriod σ.shardCount σ.bits s u) := by
  have hfrom := tokenForNextShardFrom_eq wide h.bits_le h.pos h.le_period hs le_rfl hat.1
  rw [← h.shardStart, Nat.sub_self, Nat.add_zero] at hfrom
  rw [← hfrom]
  obtain ⟨hu, ⟨rfl, rfl⟩ | rfl⟩ := hat
  · rfl
  · obtain ⟨d, hbias, hd⟩ := exists_unbias_eq hu
    rw [hbias, StaticSharder.tokenForNextShard, Dht.tokenForNextShard, hd]

theorem Fits.runOf_lt (h : σ.Fits) (t : Token) : σ.runOf t < 2 ^ σ.bits * σ.shardCount := by
  by_cases ht : t = .afterAllKeys
  · subst ht
    exact sub_lt (Nat.mul_pos (Nat.two_pow_pos _) h.pos) Nat.one_pos
  · obtain ⟨u, hat⟩ := exists_at ht
    have hshard := h.zeroBasedShardOf_lt u
    have := Nat.mul_le_mul_right σ.shardCount (exists_place h.bits_le hat.1).2
    rw [succ_mul] at this
    rw [runOf_at hat]
    omega

theorem place_div_mod {p low : ℕ} (hlow : low < period σ.bits) :
    (p * period σ.bits + low) / period σ.bits = p ∧
      (p * period σ.bits + low) % period σ.bits = low := by
  rw [mul_add_mod_self_right, mod_eq_of_lt hlow, add_comm,
    add_mul_div_right _ _ (period_pos _), div_eq_of_lt hlow, zero_add]
  exact ⟨rfl, rfl⟩

section

variable (h : σ.Fits)

include h

theorem Fits.place_pos (hpos : 0 < i) :
    0 < i / σ.shardCount * period σ.bits + firstOf σ.shardCount σ.bits (i % σ.shardCount) := by
  rcases Nat.eq_zero_or_pos (i % σ.shardCount) with hzero | hmod
  · have hdiv : 0 < i / σ.shardCount := by
      have := div_add_mod' i σ.shardCount
      rw [Nat.pos_iff_ne_zero]
      intro hdiv
      simp only [hdiv, hzero, Nat.zero_mul, Nat.add_zero] at this
      omega
    exact Nat.add_pos_left (Nat.mul_pos hdiv (period_pos _)) _
  · exact Nat.add_pos_right _ (firstOf_pos h.pos hmod)

theorem Fits.runOf_runStart (hi : i < 2 ^ σ.bits * σ.shardCount) :
    σ.runOf (runStart σ.shardCount σ.bits (i % σ.shardCount) (i / σ.shardCount)) = i := by
  have hfirst := firstOf_lt_period h.pos h.le_period (mod_lt i h.pos)
  have hplace := place_lt h.bits_le ((div_lt_iff_lt_mul h.pos).mpr hi) hfirst
  obtain ⟨hdiv, hmod⟩ := place_div_mod (p := i / σ.shardCount) hfirst
  rw [runStart, runOf_at ⟨hplace, .inr rfl⟩, hdiv, zeroBasedShardOf_eq h.bits_le, hmod,
    shard_firstOf h.pos h.le_period, div_add_mod']

theorem Fits.runStart_le_iff (t : Token) (hpos : 0 < i) (hi : i < 2 ^ σ.bits * σ.shardCount) :
    runStart σ.shardCount σ.bits (i % σ.shardCount) (i / σ.shardCount) ≤ t ↔ i ≤ σ.runOf t := by
  by_cases ht : t = .afterAllKeys
  · subst ht
    exact iff_of_true (le_afterAllKeys _) (le_sub_one_of_lt hi)
  · obtain ⟨u, hat⟩ := exists_at ht
    have hfirst := firstOf_lt_period h.pos h.le_period (mod_lt i h.pos)
    have hperiod : i / σ.shardCount < 2 ^ σ.bits := (div_lt_iff_lt_mul h.pos).mpr hi
    have hplace := place_lt h.bits_le hperiod hfirst
    obtain ⟨hdiv, hmod⟩ := place_div_mod (p := i / σ.shardCount) hfirst
    have hlt := lt_iff_nextPeriod_le (u := u) h.bits_le h.pos hmod
    rw [hdiv, ← h.run_lt_iff, ← runOf_at hat] at hlt
    rw [← not_lt, ← not_lt, ← hlt, runStart]
    obtain ⟨hu, ⟨rfl, rfl⟩ | rfl⟩ := hat
    · have hrun : σ.runOf .beforeAllKeys = 0 := rfl
      exact not_congr (iff_of_true (beforeAllKeys_lt_bias _) (hlt.mpr (hrun ▸ hpos)))
    · rw [bias_lt_bias hu hplace]

theorem Fits.tokenForNextShard_cases (hshift : oneShifted wide σ.bits = 2 ^ σ.bits)
    (t : Token) (hs : s < σ.shardCount) :
    (∃ i, σ.runOf t < i ∧ i < 2 ^ σ.bits * σ.shardCount ∧ i % σ.shardCount = s ∧
      (∀ j, σ.runOf t < j → j < i → j % σ.shardCount ≠ s) ∧ σ.tokenForNextShard wide t s 1 =
        runStart σ.shardCount σ.bits (i % σ.shardCount) (i / σ.shardCount)) ∨
    (∀ j, σ.runOf t < j → j < 2 ^ σ.bits * σ.shardCount → j % σ.shardCount ≠ s) ∧
      σ.tokenForNextShard wide t s 1 = .afterAllKeys := by
  by_cases ht : t = .afterAllKeys
  · subst ht
    refine .inr ⟨fun j hj hjlt => ?_, rfl⟩
    have hrun : σ.runOf .afterAllKeys = 2 ^ σ.bits * σ.shardCount - 1 := rfl
    omega
  obtain ⟨u, hat⟩ := exists_at ht
  rw [h.tokenForNextShard_at hat hs, hshift, runOf_at hat]
  split
  next hpast =>
    refine .inr ⟨fun j hj hjlt hjs => ?_, rfl⟩
    rw [h.run_lt_iff, hjs] at hj
    have := (div_lt_iff_lt_mul h.pos).mpr hjlt
    omega
  next hpast =>
    have hmod : (nextPeriod σ.shardCount σ.bits s u * σ.shardCount + s) % σ.shardCount = s := by
      rw [mul_add_mod_self_right, mod_eq_of_lt hs]
    have hdiv : (nextPeriod σ.shardCount σ.bits s u * σ.shardCount + s) / σ.shardCount =
        nextPeriod σ.shardCount σ.bits s u := by
      rw [add_comm, add_mul_div_right _ _ h.pos, div_eq_of_lt hs, zero_add]
    refine .inl ⟨nextPeriod σ.shardCount σ.bits s u * σ.shardCount + s, ?_, ?_, hmod, ?_, ?_⟩
    · rw [h.run_lt_iff, hmod, hdiv]
    · rw [← div_lt_iff_lt_mul h.pos, hdiv]
      exact not_le.mp hpast
    · intro j hj hji hjs
      rw [h.run_lt_iff, hjs] at hj
      have hj' := div_add_mod' j σ.shardCount
      have := mul_le_mul_right σ.shardCount hj
      omega
    · rw [hmod, hdiv]

theorem Fits.shardOf_eq (t : Token) : σ.shardOf t = σ.runOf t % σ.shardCount := by
  by_cases ht : t = .afterAllKeys
  · subst ht
    have hrun : σ.runOf .afterAllKeys + 1 = 2 ^ σ.bits * σ.shardCount :=
      Nat.sub_add_cancel (Nat.mul_pos (Nat.two_pow_pos _) h.pos)
    have hmod := succ_mod_eq (u := σ.runOf .afterAllKeys) h.pos
    rw [hrun, mul_mod_left] at hmod
    have hshard : σ.shardOf .afterAllKeys = σ.shardCount - 1 := rfl
    split at hmod <;> omega
  · obtain ⟨u, hat⟩ := exists_at ht
    rw [shardOf_at hat, runOf_at hat, mul_add_mod_self_right,
      mod_eq_of_lt (h.zeroBasedShardOf_lt u)]

theorem Fits.nextShard_eq (hshift : oneShifted wide σ.bits = 2 ^ σ.bits) (t : Token) :
    σ.nextShard wide t =
      if σ.runOf t + 1 < 2 ^ σ.bits * σ.shardCount then
        some ((σ.runOf t + 1) % σ.shardCount,
          runStart σ.shardCount σ.bits ((σ.runOf t + 1) % σ.shardCount)
            ((σ.runOf t + 1) / σ.shardCount))
      else none := by
  have hshard : shardAfter σ.shardCount (σ.shardOf t) = (σ.runOf t + 1) % σ.shardCount := by
    rw [succ_mod_eq h.pos, ← h.shardOf_eq]
    rfl
  unfold nextShard
  dsimp only
  rw [hshard]
  rcases h.tokenForNextShard_cases hshift t (mod_lt (σ.runOf t + 1) h.pos) with
    ⟨i, hi, hic, his, hmin, htoken⟩ | ⟨hnone, htoken⟩
  · -- the run that follows is the first one after `t` of its shard
    have hnext : i = σ.runOf t + 1 := by
      by_contra hne
      exact hmin (σ.runOf t + 1) (lt_succ_self _) (by omega) rfl
    subst hnext
    have hkey (s p : ℕ) : runStart σ.shardCount σ.bits s p ≠ .afterAllKeys :=
      bias_ne_afterAllKeys _
    rw [htoken, if_neg (hkey _ _), if_pos hic]
  · have hlast : ¬σ.runOf t + 1 < 2 ^ σ.bits * σ.shardCount :=
      fun hlt => hnone _ (lt_succ_self _) hlt rfl
    rw [htoken, if_pos rfl, if_neg hlast]

end

/-- The cells of a static sharder are its runs. -/
def Fits.cells (h : σ.Fits) (hshift : oneShifted wide σ.bits = 2 ^ σ.bits) :
    Cells (σ.toSharder wide) where
  count := 2 ^ σ.bits * σ.shardCount
  cell := σ.runOf
  first i := runStart σ.shardCount σ.bits (i % σ.shardCount) (i / σ.shardCount)
  shard i := i % σ.shardCount
  cell_lt := h.runOf_lt
  first_eq_bias {i} hpos hi :=
    ⟨_, h.place_pos hpos, place_lt h.bits_le ((div_lt_iff_lt_mul h.pos).mpr hi)
      (firstOf_lt_period h.pos h.le_period (mod_lt i h.pos)), rfl⟩
  first_le_iff t hpos hi := h.runStart_le_iff t hpos hi
  cell_first _ hi := h.runOf_runStart hi
  shardForReads_eq := h.shardOf_eq
  next_eq := h.nextShard_eq hshift
  tokenForNext_cases t hs := by
    have hlt {s : ℕ} (hs : (σ.toSharder wide).IsShard s) : s < σ.shardCount := by
      rcases hs with hs | ⟨t', rfl⟩
      · exact hs
      · exact (h.shardOf_eq t').trans_lt (mod_lt _ h.pos)
    refine h.tokenForNextShard_cases hshift t ?_
    rcases hs with hs | ⟨s', hs', rfl⟩
    · exact hlt hs
    · have hs' := hlt hs'
      change shardAfter σ.shardCount s' < σ.shardCount
      unfold shardAfter
      split <;> omega

end StaticSharder

end Scylla.Dht
