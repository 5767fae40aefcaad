import Scylla.Dht.StaticSharder
import Mathlib.Data.Set.Monotone

/-!
# The runs of a static sharder

The starts of the runs of one shard are the first places of the shard in the periods, one in each.
`token_for_next_shard` steps over them by adding to the number of the period.
-/

namespace Scylla.Dht

open Nat
open Token

section Runs

variable {α : Type*} [LinearOrder α] {owner : α → ℕ} {s : ℕ} {r q : α}

/-- `r` is the first of a maximal run of points that `s` owns. -/
def StartsRun (owner : α → ℕ) (s : ℕ) (r : α) : Prop :=
  owner r = s ∧ ∀ q < r, ∃ m, q ≤ m ∧ m < r ∧ owner m ≠ s

def runStartsAbove (owner : α → ℕ) (t : α) (s : ℕ) : Set α := {r | t < r ∧ StartsRun owner s r}

/-- `r` is the element number `k` of a set, counted from one in ascending order. -/
def IsNth (S : Set α) (k : ℕ) (r : α) : Prop := r ∈ S ∧ {q ∈ S | q < r}.ncard + 1 = k

theorem startsRun_iff_of_covBy (h : q ⋖ r) : StartsRun owner s r ↔ owner r = s ∧ owner q ≠ s := by
  refine and_congr_right fun _ => ⟨fun hstart => ?_, fun hq p hp => ⟨q, h.le_of_lt hp, h.lt, hq⟩⟩
  obtain ⟨m, hqm, hmr, hm⟩ := hstart q h.lt
  rwa [← le_antisymm (h.le_of_lt hmr) hqm]

section Image

variable {f : ℕ → α} {S : Set α} {first last p : ℕ}

section

variable (hf : StrictMonoOn f (Set.Iio last)) (hS : S = f '' Set.Ico first last)

include hf hS

theorem ncard_eq_of_image : S.ncard = last - first := by
  have hinj : Set.InjOn f (Set.Ico first last) :=
    hf.injOn.mono fun p hp => hp.2
  rw [hS, hinj.ncard_image, Set.ncard_eq_toFinset_card', Set.toFinset_Ico, card_Ico]

theorem isNth_of_image (hfirst : first ≤ p) (hlast : p < last) : IsNth S (p - first + 1) (f p) := by
  have hbelow : {q ∈ S | q < f p} = f '' Set.Ico first p := by
    ext q
    rw [hS]
    constructor
    · rintro ⟨⟨i, ⟨hi, hil⟩, rfl⟩, hlt⟩
      exact ⟨i, ⟨hi, (hf.lt_iff_lt hil hlast).mp hlt⟩, rfl⟩
    · rintro ⟨i, ⟨hi, hip⟩, rfl⟩
      have hil : i < last := hip.trans hlast
      exact ⟨⟨i, ⟨hi, hil⟩, rfl⟩, hf hil hlast hip⟩
  refine ⟨hS ▸ ⟨p, ⟨hfirst, hlast⟩, rfl⟩, ?_⟩
  rw [hbelow, ncard_eq_of_image (StrictMonoOn.mono hf (Set.Iio_subset_Iio hlast.le)) rfl]

end

end Image

end Runs

/-! ### The starts of the runs of a shard -/

section Static

variable {shards bits s u p : ℕ}

def runStart (shards bits s p : ℕ) : Token := bias (p * period bits + firstOf shards bits s)

section

variable (hbits : bits ≤ 64)

include hbits

theorem place_lt (hp : p < 2 ^ bits) {low : ℕ} (hlow : low < period bits) :
    p * period bits + low < 2 ^ 64 := by
  have hpow := two_pow_mul_period hbits
  have hnext : (p + 1) * period bits ≤ 2 ^ bits * period bits := mul_le_mul_right _ hp
  rw [succ_mul] at hnext
  omega

theorem shardOf_bias (hu : u < 2 ^ 64) :
    shardOf shards bits (bias u) = u % period bits * shards / period bits := by
  obtain ⟨d, hbias, hd⟩ := exists_unbias_eq hu
  rw [hbias, shardOf, hd, zeroBasedShardOf_eq hbits]

theorem shardOf_runStart (hshards : 0 < shards) (hperiod : shards ≤ period bits)
    (hs : s < shards) (hp : p < 2 ^ bits) : shardOf shards bits (runStart shards bits s p) = s := by
  have hlt := firstOf_lt_period hshards hperiod hs
  rw [runStart, shardOf_bias hbits (place_lt hbits hp hlt), mul_add_mod_self_right,
    mod_eq_of_lt hlt, shard_firstOf hshards hperiod]

theorem runStart_strictMonoOn (hshards : 0 < shards) (hperiod : shards ≤ period bits)
    (hs : s < shards) : StrictMonoOn (runStart shards bits s) (Set.Iio (2 ^ bits)) := by
  intro p hp q hq hpq
  have hlt := firstOf_lt_period hshards hperiod hs
  refine (bias_lt_bias (place_lt hbits hp hlt) (place_lt hbits hq hlt)).mpr ?_
  have := mul_lt_mul_of_pos_right hpq (period_pos bits)
  omega

theorem exists_place (hu : u < 2 ^ 64) :
    u = u / period bits * period bits + u % period bits ∧ u / period bits < 2 ^ bits := by
  refine ⟨(div_add_mod' u _).symm, ?_⟩
  rwa [div_lt_iff_lt_mul (period_pos _), two_pow_mul_period hbits]

end

theorem succ_mod_eq {n : ℕ} (hn : 0 < n) :
    (u + 1) % n = if u % n + 1 = n then 0 else u % n + 1 := by
  have hlt := mod_lt u hn
  rw [← mod_add_mod]
  split
  next h => rw [h, mod_self]
  next h => exact mod_eq_of_lt (by omega)

theorem startsRun_bias_iff (hbits : bits ≤ 64) (hshards : 0 < shards)
    (hperiod : shards ≤ period bits) (hsingle : shards ≤ 1 → bits = 0) (hs : s < shards)
    (hu : u < 2 ^ 64) :
    StartsRun (shardOf shards bits) s (bias u) ↔
      u % period bits = firstOf shards bits s ∧ 0 < u := by
  cases u with
  | zero =>
    have hcov : Token.beforeAllKeys ⋖ bias 0 := covBy_of_rank (rank_bias hu)
    rw [startsRun_iff_of_covBy hcov, shardOf_bias hbits hu]
    simp [shardOf, eq_comm]
  | succ u =>
    have hu' : u < 2 ^ 64 := lt_of_succ_lt hu
    rw [startsRun_iff_of_covBy (bias_covBy hu), shardOf_bias hbits hu, shardOf_bias hbits hu']
    simp only [succ_pos, and_true]
    rw [succ_mod_eq (period_pos _)]
    split
    next hwrap =>
      -- the last place of a period belongs to the last shard, which is not the first
      have htwo : 1 < shards := by
        by_contra hle
        rw [hsingle (Nat.not_lt.mp hle), period, Nat.sub_zero, mod_eq_of_lt hu'] at hwrap
        omega
      have hshard : 1 ≤ u % period bits * shards / period bits := by
        refine (le_shard_iff _ _ hshards).mpr ?_
        have := firstOf_lt_period hshards hperiod htwo
        omega
      rw [Nat.zero_mul, Nat.zero_div]
      rcases Nat.eq_zero_or_pos s with rfl | hpos
      · rw [firstOf_zero hshards]
        omega
      · have : 0 < firstOf shards bits s := firstOf_pos hshards hpos
        omega
    next hwrap =>
      have hge := le_shard_iff (s := s) bits (u % period bits) hshards
      have hge' := le_shard_iff (s := s) bits (u % period bits + 1) hshards
      have hmono : u % period bits * shards / period bits ≤
          (u % period bits + 1) * shards / period bits :=
        Nat.div_le_div_right (Nat.mul_le_mul_right _ (le_succ _))
      constructor
      · rintro ⟨hthis, hbefore⟩
        omega
      · intro hthis
        have hfirst := shard_firstOf (s := s) hshards hperiod
        rw [← hthis] at hfirst
        omega

/-- The first period with a run start of `s` after the number `u`. -/
def nextPeriod (shards bits s u : ℕ) : ℕ :=
  u / period bits + (1 - if s > zeroBasedShardOf u shards bits then 1 else 0)

theorem lt_iff_quotient {n q r q' r' : ℕ} (hr : r < n) (hr' : r' < n) :
    q * n + r < q' * n + r' ↔ q + (1 - if r' > r then 1 else 0) ≤ q' := by
  rcases lt_trichotomy q q' with h | rfl | h
  · have := mul_le_mul_right n (succ_le_of_lt h)
    rw [succ_mul] at this
    split <;> omega
  · split <;> omega
  · have := mul_le_mul_right n (succ_le_of_lt h)
    rw [succ_mul] at this
    split <;> omega

theorem lt_iff_nextPeriod_le (hbits : bits ≤ 64) (hshards : 0 < shards) {v : ℕ}
    (hv : v % period bits = firstOf shards bits s) :
    u < v ↔ nextPeriod shards bits s u ≤ v / period bits := by
  have hbefore : s > zeroBasedShardOf u shards bits ↔ v % period bits > u % period bits := by
    rw [gt_iff_lt, zeroBasedShardOf_eq hbits, hv, ← not_le, gt_iff_lt, ← not_le,
      le_shard_iff _ _ hshards]
  unfold nextPeriod
  simp only [hbefore]
  rw [← lt_iff_quotient (mod_lt u (period_pos bits)) (mod_lt v (period_pos bits)), div_add_mod',
    div_add_mod']

theorem bias_inj {m n : ℕ} (hm : m < 2 ^ 64) (hn : n < 2 ^ 64) : bias m = bias n ↔ m = n := by
  refine ⟨fun h => ?_, fun h => h ▸ rfl⟩
  have hrank := congrArg Token.rank h
  rw [rank_bias hm, rank_bias hn] at hrank
  exact succ_injective hrank

section

variable (hbits : bits ≤ 64) (hshards : 0 < shards) (hperiod : shards ≤ period bits)

include hbits hshards hperiod

theorem not_startsRun_afterAllKeys : ¬StartsRun (shardOf shards bits) s .afterAllKeys := by
  have hcov : bias (2 ^ 64 - 1) ⋖ Token.afterAllKeys :=
    covBy_of_rank (by rw [rank_bias (by omega)]; rfl)
  rw [startsRun_iff_of_covBy hcov, shardOf_bias hbits (by omega), shardOf]
  have hlow : (2 ^ 64 - 1) % period bits = period bits - 1 := by
    have hpow := two_pow_mul_period hbits
    have hmod : (2 ^ 64 - 1 + 1) % period bits = 0 := by
      rw [Nat.sub_add_cancel (Nat.two_pow_pos 64), ← hpow, mul_mod_left]
    rw [succ_mod_eq (period_pos _)] at hmod
    split at hmod
    · omega
    · omega
  have hge : shards - 1 ≤ (period bits - 1) * shards / period bits := by
    refine (le_shard_iff _ _ hshards).mpr ?_
    have := firstOf_lt_period hshards hperiod (sub_lt hshards one_pos)
    omega
  have hlt := shard_lt hshards (sub_lt (period_pos bits) one_pos)
  rw [hlow]
  omega

theorem runStartsAbove_eq (hsingle : shards ≤ 1 → bits = 0) (hs : s < shards) (hu : u < 2 ^ 64)
    {t : Token} (ht : t = .beforeAllKeys ∧ u = 0 ∨ t = bias u) :
    runStartsAbove (shardOf shards bits) t s =
      runStart shards bits s '' Set.Ico (nextPeriod shards bits s u) (2 ^ bits) := by
  have hfirst := firstOf_lt_period hshards hperiod hs
  ext r
  rcases r.cases_bias with rfl | ⟨v, hv, rfl⟩ | rfl
  · refine iff_of_false (fun h => absurd h.1 ?_) fun ⟨p, _, hp⟩ => absurd hp nofun
    exact not_lt.mpr (zero_le _)
  · have habove : t < bias v ∧ 0 < v ↔ u < v := by
      rcases ht with ⟨rfl, rfl⟩ | rfl
      · exact and_iff_right (beforeAllKeys_lt_bias v)
      · rw [bias_lt_bias hu hv]
        omega
    change t < bias v ∧ _ ↔ _
    rw [startsRun_bias_iff hbits hshards hperiod hsingle hs hv]
    constructor
    · intro ⟨htv, hmod, hpos⟩
      refine ⟨v / period bits, ⟨?_, (exists_place hbits hv).2⟩, ?_⟩
      · exact (lt_iff_nextPeriod_le hbits hshards hmod).mp (habove.mp ⟨htv, hpos⟩)
      · rw [runStart, ← hmod, div_add_mod']
    · rintro ⟨p, ⟨hfrom, hto⟩, hp⟩
      obtain rfl := (bias_inj (place_lt hbits hto hfirst) hv).mp hp
      have hmod : (p * period bits + firstOf shards bits s) % period bits =
          firstOf shards bits s := by
        rw [mul_add_mod_self_right, mod_eq_of_lt hfirst]
      have hdiv : (p * period bits + firstOf shards bits s) / period bits = p := by
        rw [add_comm, add_mul_div_right _ _ (period_pos _), div_eq_of_lt hfirst, zero_add]
      have hlt := (lt_iff_nextPeriod_le (u := u) hbits hshards hmod).mpr (hfrom.trans_eq hdiv.symm)
      exact ⟨(habove.mpr hlt).1, hmod, (habove.mpr hlt).2⟩
  · refine iff_of_false (fun h => ?_) fun ⟨p, _, hp⟩ => absurd hp (bias_ne_afterAllKeys _)
    exact not_startsRun_afterAllKeys hbits hshards hperiod h.2

end

theorem tokenForNextShardFrom_eq (wide : ℕ → UInt32) {spans : ℕ} (hbits : bits ≤ 64)
    (hshards : 0 < shards) (hperiod : shards ≤ period bits) (hs : s < shards) (hspans : 1 ≤ spans)
    (hu : u < 2 ^ 64) :
    tokenForNextShardFrom wide ((List.range shards).map (firstOf shards bits)) shards bits u s
        spans =
      if oneShifted wide bits ≤ nextPeriod shards bits s u + (spans - 1) then .afterAllKeys
      else runStart shards bits s (nextPeriod shards bits s u + (spans - 1)) := by
  have hfirst := firstOf_lt_period hshards hperiod hs
  have hget : ((List.range shards).map (firstOf shards bits)).getD s 0 = firstOf shards bits s := by
    simp [hs]
  have hnext : u / period bits + (spans - if s > zeroBasedShardOf u shards bits then 1 else 0) =
      nextPeriod shards bits s u + (spans - 1) := by
    unfold nextPeriod
    split <;> omega
  unfold tokenForNextShardFrom
  rw [hget]
  split
  next hzero =>
    subst hzero
    have hdiv : u / period 0 = 0 := div_eq_of_lt hu
    have hone : oneShifted wide 0 = 1 := rfl
    rw [hone, ← hnext, hdiv]
    by_cases hafter : s > zeroBasedShardOf u shards 0
    · rw [if_pos hafter]
      rcases hspans.eq_or_lt with rfl | hmore
      · simp [runStart, not_le.mpr hafter]
      · rw [if_pos (.inl hmore), if_pos (by omega)]
    · rw [if_neg hafter, if_pos (.inr (not_lt.mp hafter)), if_pos (by omega)]
  next hpos =>
    dsimp only
    rw [shiftRight_eq_div_pow, ← period, hnext, ← shiftLeft_add_eq_or_of_lt hfirst, shiftLeft_eq]
    rfl

end Static

/-! ### The laws -/

/-- Every shard owns a token, with the ignored bits that the sharder works with. -/
def Sharded (shardCount bits : ℕ) : Prop :=
  ∀ s < shardCount, ∃ u < 2 ^ 64, zeroBasedShardOf u shardCount (sharderBits shardCount bits) = s

namespace StaticSharder

structure Laws (wide : ℕ → UInt32) (σ : StaticSharder) : Prop where
  start_least : ∀ s < σ.shardCount, ∃ first, σ.shardStart[s]? = some first ∧
    IsLeast {u | u < 2 ^ 64 ∧ zeroBasedShardOf u σ.shardCount σ.bits = s} first
  next_isNth : ∀ t, ∀ s < σ.shardCount, ∀ spans, 1 ≤ spans → spans < 2 ^ 32 →
    σ.tokenForNextShard wide t s spans ≠ .afterAllKeys →
      IsNth (runStartsAbove σ.shardOf t s) spans (σ.tokenForNextShard wide t s spans) ∧
        σ.shardOf (σ.tokenForNextShard wide t s spans) = s
  next_eq_afterAllKeys_iff : ∀ t, ∀ s < σ.shardCount, ∀ spans, 1 ≤ spans → spans < 2 ^ 32 →
    (σ.tokenForNextShard wide t s spans = .afterAllKeys ↔
      (runStartsAbove σ.shardOf t s).ncard < spans)

section

variable {wide : ℕ → UInt32} {σ : StaticSharder} {s spans : ℕ} {t : Token}

theorem make_eq_some {shardCount bits : ℕ} (h : make shardCount bits = some σ) :
    σ.shardCount = shardCount ∧ σ.bits = sharderBits shardCount bits := by
  unfold make at h
  split at h
  next => cases h
  next =>
    cases h
    exact ⟨rfl, rfl⟩

/-- What is known of a sharder whose every shard owns a token. -/
structure Fits (σ : StaticSharder) : Prop where
  bits_le : σ.bits ≤ 64
  pos : 0 < σ.shardCount
  le_period : σ.shardCount ≤ period σ.bits

theorem Fits.shardStart (h : σ.Fits) :
    σ.shardStart = (List.range σ.shardCount).map (firstOf σ.shardCount σ.bits) :=
  Option.some.inj (σ.shardStart_eq.symm.trans
    (initZeroBasedShardStart_eq h.bits_le h.pos h.le_period))

theorem Fits.start_least (h : σ.Fits) (hs : s < σ.shardCount) :
    ∃ first, σ.shardStart[s]? = some first ∧
      IsLeast {u | u < 2 ^ 64 ∧ zeroBasedShardOf u σ.shardCount σ.bits = s} first := by
  have hlt := firstOf_lt_period h.pos h.le_period hs
  refine ⟨firstOf σ.shardCount σ.bits s, by simp [h.shardStart, hs], ⟨?_, ?_⟩, ?_⟩
  · simpa using place_lt h.bits_le (Nat.two_pow_pos _) hlt
  · rw [zeroBasedShardOf_eq h.bits_le, mod_eq_of_lt hlt, shard_firstOf h.pos h.le_period]
  · rintro u ⟨-, hu⟩
    rw [zeroBasedShardOf_eq h.bits_le] at hu
    exact ((le_shard_iff _ _ h.pos).mp hu.ge).trans (mod_le _ _)

theorem tokenForNextShard_afterAllKeys :
    σ.tokenForNextShard wide .afterAllKeys s spans = .afterAllKeys := rfl

theorem runStartsAbove_afterAllKeys : runStartsAbove σ.shardOf .afterAllKeys s = ∅ :=
  Set.eq_empty_of_forall_notMem fun r hr => absurd hr.1 (not_lt.mpr (le_afterAllKeys r))

theorem Fits.exists_next (wide : ℕ → UInt32) (h : σ.Fits) (hs : s < σ.shardCount)
    (ht : t ≠ .afterAllKeys) :
    ∃ u < 2 ^ 64, (t = .beforeAllKeys ∧ u = 0 ∨ t = bias u) ∧
      (∀ spans, 1 ≤ spans → σ.tokenForNextShard wide t s spans =
        if oneShifted wide σ.bits ≤ nextPeriod σ.shardCount σ.bits s u + (spans - 1)
        then .afterAllKeys else runStart σ.shardCount σ.bits s
          (nextPeriod σ.shardCount σ.bits s u + (spans - 1))) ∧
      runStartsAbove σ.shardOf t s = runStart σ.shardCount σ.bits s ''
        Set.Ico (nextPeriod σ.shardCount σ.bits s u) (2 ^ σ.bits) := by
  obtain ⟨u, hu, hcases, hcode⟩ : ∃ u < 2 ^ 64, (t = .beforeAllKeys ∧ u = 0 ∨ t = bias u) ∧
      ∀ spans, σ.tokenForNextShard wide t s spans =
        tokenForNextShardFrom wide σ.shardStart σ.shardCount σ.bits u s spans := by
    match t with
    | .beforeAllKeys => exact ⟨0, Nat.two_pow_pos _, .inl ⟨rfl, rfl⟩, fun _ => rfl⟩
    | .key data =>
      exact ⟨unbias data, unbias_lt data, .inr (bias_unbias data).symm, fun _ => rfl⟩
    | .afterAllKeys => exact absurd rfl ht
  refine ⟨u, hu, hcases, fun spans hspans => ?_, ?_⟩
  · rw [hcode, h.shardStart]
    exact tokenForNextShardFrom_eq wide h.bits_le h.pos h.le_period hs hspans hu
  · exact runStartsAbove_eq h.bits_le h.pos h.le_period σ.bits_of_single hs hu hcases

theorem oneShifted_lt (wide : ℕ → UInt32) {bits : ℕ} (hbits : 32 ≤ bits) :
    oneShifted wide bits < 2 ^ bits := by
  have hshift : oneShifted wide bits = (wide bits).toNat := if_neg (Nat.not_lt.mpr hbits)
  exact hshift ▸ ((wide bits).toNat_lt.trans_le (Nat.pow_le_pow_right Nat.two_pos hbits))

theorem Fits.laws (h : σ.Fits) (hshift : oneShifted wide σ.bits = 2 ^ σ.bits) : σ.Laws wide where
  start_least s hs := h.start_least hs
  next_isNth t s hs spans hspans _ hne := by
    have ht : t ≠ .afterAllKeys := by
      rintro rfl
      exact hne tokenForNextShard_afterAllKeys
    obtain ⟨u, hu, -, hcode, hruns⟩ := h.exists_next wide hs ht
    have hlast : nextPeriod σ.shardCount σ.bits s u + (spans - 1) < 2 ^ σ.bits := by
      by_contra hle
      rw [hcode spans hspans, hshift, if_pos (not_lt.mp hle)] at hne
      exact hne rfl
    rw [hcode spans hspans, hshift, if_neg (not_le.mpr hlast)]
    refine ⟨?_, shardOf_runStart h.bits_le h.pos h.le_period hs hlast⟩
    have hnth := isNth_of_image (runStart_strictMonoOn h.bits_le h.pos h.le_period hs) hruns
      (Nat.le_add_right _ (spans - 1)) hlast
    rwa [Nat.add_sub_cancel_left, Nat.sub_add_cancel hspans] at hnth
  next_eq_afterAllKeys_iff t s hs spans hspans _ := by
    by_cases ht : t = .afterAllKeys
    · subst ht
      rw [runStartsAbove_afterAllKeys, Set.ncard_empty]
      exact iff_of_true tokenForNextShard_afterAllKeys hspans
    · obtain ⟨u, hu, -, hcode, hruns⟩ := h.exists_next wide hs ht
      rw [ncard_eq_of_image (runStart_strictMonoOn h.bits_le h.pos h.le_period hs) hruns,
        hcode spans hspans, hshift]
      split
      next hpast => exact iff_of_true rfl (by omega)
      next hpast => exact iff_of_false (bias_ne_afterAllKeys _) (by omega)

theorem Fits.mul_period_lt (h : σ.Fits) {p : ℕ} (hp : p < 2 ^ σ.bits) :
    p * period σ.bits < 2 ^ 64 := by
  simpa using place_lt h.bits_le hp (period_pos σ.bits)

theorem Fits.not_laws (h : σ.Fits) (hbits : 32 ≤ σ.bits) (htwo : 1 < σ.shardCount) :
    ¬σ.Laws wide := by
  intro hlaws
  have hperiods := oneShifted_lt wide hbits
  have hu := h.mul_period_lt hperiods
  obtain ⟨v, hv, hcases, hcode, hruns⟩ := h.exists_next wide htwo
    (bias_ne_afterAllKeys (oneShifted wide σ.bits * period σ.bits))
  have hvu : v = oneShifted wide σ.bits * period σ.bits := by
    rcases hcases with ⟨hbefore, -⟩ | hbias
    · exact absurd hbefore nofun
    · exact ((bias_inj hu hv).mp hbias).symm
  have hnext : nextPeriod σ.shardCount σ.bits 1 v = oneShifted wide σ.bits := by
    rw [nextPeriod, zeroBasedShardOf_eq h.bits_le, hvu, mul_mod_left, mul_div_left _ (period_pos _)]
    simp
  have hnone := (hlaws.next_eq_afterAllKeys_iff _ 1 htwo 1 le_rfl (by decide)).mp
    ((hcode 1 le_rfl).trans (if_pos (hnext ▸ le_add_right _ _)))
  rw [ncard_eq_of_image (runStart_strictMonoOn h.bits_le h.pos h.le_period htwo) hruns,
    hnext] at hnone
  omega

end

end StaticSharder

theorem StaticSharder.exists_make {shardCount bits : ℕ} (hcount : 1 ≤ shardCount)
    (hbits : bits ≤ 63) (hsharded : Sharded shardCount bits) :
    ∃ σ, StaticSharder.make shardCount bits = some σ ∧ σ.shardCount = shardCount ∧
      σ.bits = sharderBits shardCount bits ∧ σ.Fits := by
  have hle : sharderBits shardCount bits ≤ 64 := by
    unfold sharderBits
    split <;> omega
  have hperiod : shardCount ≤ period (sharderBits shardCount bits) :=
    le_period_of_surjective hle fun s hs => (hsharded s hs).imp fun _ h => h.2
  obtain ⟨σ, hmake⟩ : ∃ σ, StaticSharder.make shardCount bits = some σ := by
    have hinit := initZeroBasedShardStart_eq hle hcount hperiod
    unfold StaticSharder.make
    split
    next hnone => simp [hnone] at hinit
    next start hsome => exact ⟨_, rfl⟩
  obtain ⟨hσcount, hσbits⟩ := StaticSharder.make_eq_some hmake
  refine ⟨σ, hmake, hσcount, hσbits, hσbits ▸ hle, hσcount ▸ hcount, ?_⟩
  rw [hσcount, hσbits]
  exact hperiod

/-- A static sharder whose shards all own tokens keeps its laws exactly when it has one shard or
ignores less than 32 bits. -/
theorem exists_laws_iff (wide : ℕ → UInt32) {shardCount bits : ℕ} (hcount : 1 ≤ shardCount)
    (hbits : bits ≤ 63) (hsharded : Sharded shardCount bits) :
    (∃ σ, StaticSharder.make shardCount bits = some σ ∧ σ.Laws wide) ↔
      shardCount = 1 ∨ bits < 32 := by
  obtain ⟨σ, hmake, hσcount, hσbits, hfits⟩ := StaticSharder.exists_make hcount hbits hsharded
  constructor
  · rintro ⟨τ, hτ, hlaws⟩
    cases hmake.symm.trans hτ
    by_contra hnot
    have htwo : 1 < shardCount := by omega
    have hsame : σ.bits = bits := hσbits.trans (if_pos htwo)
    exact hfits.not_laws (by omega) (hσcount ▸ htwo) hlaws
  · intro hcases
    have hsmall : σ.bits < 32 := by
      rw [hσbits, sharderBits]
      split <;> omega
    exact ⟨σ, hmake, hfits.laws (if_pos hsmall)⟩

/-- Three shards and twelve ignored bits, with the shift of the usual processors. -/
theorem exists_laws_threeShards :
    ∃ σ, StaticSharder.make 3 12 = some σ ∧ σ.Laws fun bits => 1 <<< bits.toUInt32 := by
  refine (exists_laws_iff _ (by decide) (by decide) fun s hs => ?_).mpr (.inr (by decide))
  match s, hs with
  | 0, _ => exact ⟨0, by decide, by decide⟩
  | 1, _ => exact ⟨2 ^ 51, by decide, by decide⟩
  | 2, _ => exact ⟨2 ^ 52 - 1, by decide, by decide⟩

/-- Two shards and 32 ignored bits: the shift gives one, and only the first period is found. -/
theorem not_exists_laws_wideShift :
    ¬∃ σ, StaticSharder.make 2 32 = some σ ∧ σ.Laws fun bits => 1 <<< bits.toUInt32 := by
  rintro ⟨σ, hmake, hlaws⟩
  obtain ⟨hcount, hbits⟩ := StaticSharder.make_eq_some hmake
  have hbits' : σ.bits = 32 := hbits
  have hfits : σ.Fits := ⟨by omega, by omega, by rw [hcount, hbits']; decide⟩
  exact hfits.not_laws (by omega) (by omega) hlaws

end Scylla.Dht
