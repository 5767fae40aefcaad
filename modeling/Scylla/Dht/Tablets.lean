import Scylla.Dht.Sharder
import Scylla.Dht.WrappingInterval

/-!
# The ranges of tablets

The tablets of a map cut the ring at the multiples of a period. The ranges of the tablets, their
first and last tokens, the sides of a tablet that is split and the ranges of
`split_token_range_msb` are computed each on its own; here they are compared. All of them agree,
except that `split_token_range_msb` counts its ranges in an `int`.
-/

namespace Scylla.Dht

open WrappingInterval (ofBounds)
open Nat
open List
open Token

/-- The tokens of keys: the least number is not one of them. -/
def Token.IsLegal (t : Token) : Prop := ∃ u, 0 < u ∧ u < 2 ^ 64 ∧ t = bias u

inductive RangeSide where
  | left
  | right
  deriving DecidableEq

/-! ### A map of `2 ^ k` tablets -/

/-- `get_token_range`. -/
def getTokenRange (k id : ℕ) : WrappingInterval Token :=
  ofBounds (some ⟨if id = 0 then .beforeAllKeys else lastTokenOfCompactionGroup k (id - 1), false⟩)
    (some ⟨lastTokenOfCompactionGroup k id, true⟩)

/-- `get_tablet_id_and_range_side`. -/
def getTabletIdAndRangeSide (wide : ℕ → BitVec 32) (k : ℕ) (t : Token) : ℕ × RangeSide :=
  let idAfterSplit := compactionGroupOf wide (k + 1) t
  (idAfterSplit >>> 1, if idAfterSplit &&& 1 = 0 then .left else .right)

/-- `1 << bits` as an `uint64_t`. -/
def intShifted (wide : ℕ → BitVec 32) (bits : ℕ) : ℕ := ((intShift wide bits).signExtend 64).toNat

/-- The body of the loop of `split_token_range_msb`. -/
def splitRange (wide : ℕ → BitVec 32) (k i : ℕ) : Option (WrappingInterval Token) :=
  let endBound := some ⟨lastTokenOfCompactionGroup k i, true⟩
  if i = 0 then some (ofBounds (some ⟨.beforeAllKeys, true⟩) endBound)
  else
    let prevLastToken := lastTokenOfCompactionGroup k (i - 1)
    if compactionGroupOf wide k (nextToken prevLastToken) = i then
      some (ofBounds (some ⟨prevLastToken, false⟩) endBound)
    else none

/-- `split_token_range_msb`. -/
def splitTokenRangeMsb (wide : ℕ → BitVec 32) (k : ℕ) : Option (List (WrappingInterval Token)) :=
  if k = 0 then some [ofBounds (some ⟨.beforeAllKeys, true⟩) (some ⟨.afterAllKeys, true⟩)]
  else (List.range (intShifted wide k)).mapM (splitRange wide k)

/-- The tokens of keys that a range contains. -/
def keysOf (r : WrappingInterval Token) : Set Token := {t | t.IsLegal ∧ r.containsPoint t = true}

structure TabletsPartition (wide : ℕ → BitVec 32) (k : ℕ) : Prop where
  id_lt : ∀ t : Token, t.IsLegal → compactionGroupOf wide k t < 2 ^ k
  mem_iff : ∀ id < 2 ^ k, ∀ t : Token, t.IsLegal →
    (t ∈ keysOf (getTokenRange k id) ↔ compactionGroupOf wide k t = id)
  first_last : ∀ id < 2 ^ k,
    IsLeast (keysOf (getTokenRange k id)) (firstTokenOfTablet k id) ∧
      IsGreatest (keysOf (getTokenRange k id)) (lastTokenOfCompactionGroup k id)
  side : ∀ t : Token, t.IsLegal → (getTabletIdAndRangeSide wide k t).1 = compactionGroupOf wide k t ∧
    ((getTabletIdAndRangeSide wide k t).2 = .left ↔
      compactionGroupOf wide (k + 1) t = 2 * compactionGroupOf wide k t)
  side_range : k < 63 → ∀ t : Token, t.IsLegal → ((getTabletIdAndRangeSide wide k t).2 = .left ↔
    t ∈ keysOf (getTokenRange (k + 1) (2 * compactionGroupOf wide k t)))
  split : ∃ ranges, splitTokenRangeMsb wide k = some ranges ∧
    ranges.map keysOf = (List.range (2 ^ k)).map fun id => keysOf (getTokenRange k id)

section

variable {wide : ℕ → BitVec 32} {k id u : ℕ} {t : Token}

theorem bias_le_bias {m n : ℕ} (hm : m < 2 ^ 64) (hn : n < 2 ^ 64) : bias m ≤ bias n ↔ m ≤ n := by
  rw [← not_lt, bias_lt_bias hn hm, not_lt]

/-! ### The ranges -/

def periodKeys (k id : ℕ) : Set Token := bias '' {u | 0 < u ∧ u < 2 ^ 64 ∧ u / period k = id}

theorem bias_mem_periodKeys (hpos : 0 < u) (hu : u < 2 ^ 64) :
    bias u ∈ periodKeys k id ↔ u / period k = id := by
  refine ⟨?_, fun h => ⟨u, ⟨hpos, hu, h⟩, rfl⟩⟩
  rintro ⟨v, ⟨-, hv, hdiv⟩, hvu⟩
  have hrank := congrArg Token.rank hvu
  rw [rank_bias hv, rank_bias hu] at hrank
  rwa [← succ_injective hrank]

theorem keysOf_eq {a b : Token} {inclusive : Bool} (hab : a < b)
    (ha : inclusive = true → a = .beforeAllKeys)
    (h : ∀ u < 2 ^ 64, a < bias u ∧ bias u ≤ b ↔ u / period k = id) :
    keysOf (ofBounds (some ⟨a, inclusive⟩) (some ⟨b, true⟩)) = periodKeys k id := by
  have hwrap : (ofBounds (some ⟨a, inclusive⟩) (some ⟨b, true⟩)).isWrapAround = false :=
    WrappingInterval.isWrapAround_ofBounds_of_lt fun s hs e he => by
      cases hs
      cases he
      exact hab
  have hmem {u : ℕ} (hu : u < 2 ^ 64) :
      (ofBounds (some ⟨a, inclusive⟩) (some ⟨b, true⟩)).containsPoint (bias u) = true ↔
        u / period k = id := by
    rw [← h u hu]
    refine (WrappingInterval.mem_points_iff hwrap).trans (and_congr ?_ ?_)
    · refine mem_above_some.trans (or_iff_left fun hua => ?_)
      exact (beforeAllKeys_lt_bias u).ne' (hua.1.trans (ha hua.2))
    · exact mem_below_some.trans (by simp [le_iff_lt_or_eq])
  ext t
  constructor
  · rintro ⟨⟨u, hpos, hu, rfl⟩, hcontains⟩
    exact ⟨u, ⟨hpos, hu, (hmem hu).mp hcontains⟩, rfl⟩
  · rintro ⟨u, ⟨hpos, hu, hdiv⟩, rfl⟩
    exact ⟨⟨u, hpos, hu, rfl⟩, (hmem hu).mpr hdiv⟩

theorem keysOf_range {inclusive : Bool} (hk : k ≤ 64) (hid : id < 2 ^ k)
    (hinclusive : inclusive = true → id = 0) :
    keysOf (ofBounds
      (some ⟨if id = 0 then .beforeAllKeys else lastTokenOfCompactionGroup k (id - 1), inclusive⟩)
      (some ⟨lastTokenOfCompactionGroup k id, true⟩)) = periodKeys k id := by
  have hpos := period_pos k
  have hlast := place_lt hk hid (sub_lt hpos one_pos)
  match id with
  | 0 =>
    have hbefore := beforeAllKeys_lt_bias
    rw [if_pos rfl, lastToken_eq hk]
    refine keysOf_eq (hbefore _) (fun _ => rfl) fun u hu => ?_
    rw [bias_le_bias hu hlast, Nat.div_eq_zero_iff, and_iff_right (hbefore u)]
    omega
  | id + 1 =>
    have hprev := place_lt hk (Nat.lt_of_succ_lt hid) (Nat.sub_lt hpos Nat.one_pos)
    have hsucc : (id + 1) * period k = id * period k + period k := Nat.succ_mul _ _
    rw [if_neg (Nat.succ_ne_zero id), Nat.add_sub_cancel, lastToken_eq hk, lastToken_eq hk]
    refine keysOf_eq ((bias_lt_bias hprev hlast).mpr (by omega))
      (fun h => absurd (hinclusive h) (Nat.succ_ne_zero id)) fun u hu => ?_
    rw [bias_lt_bias hprev hu, bias_le_bias hu hlast, Nat.div_eq_iff hpos]
    omega

theorem keysOf_getTokenRange (hk : k ≤ 64) (hid : id < 2 ^ k) :
    keysOf (getTokenRange k id) = periodKeys k id :=
  keysOf_range hk hid fun h => absurd h Bool.false_ne_true

theorem firstTokenOfTablet_eq (hk : k ≤ 64) :
    firstTokenOfTablet k id = bias (if id = 0 then 1 else id * period k) := by
  match id with
  | 0 => rfl
  | id + 1 =>
    rw [firstTokenOfTablet, if_neg (Nat.succ_ne_zero id), if_neg (Nat.succ_ne_zero id),
      Nat.add_sub_cancel, nextToken_lastToken hk]

theorem isLeast_isGreatest_periodKeys (hk : k ≤ 63) (hid : id < 2 ^ k) :
    IsLeast (periodKeys k id) (firstTokenOfTablet k id) ∧
      IsGreatest (periodKeys k id) (lastTokenOfCompactionGroup k id) := by
  have hk' : k ≤ 64 := hk.trans (by decide)
  have hpos := period_pos k
  have hperiod : 2 ≤ period k := Nat.le_self_pow (by omega) 2
  have hlast := place_lt hk' hid (Nat.sub_lt hpos Nat.one_pos)
  have hmul : id ≠ 0 → period k ≤ id * period k :=
    fun h => Nat.le_mul_of_pos_left _ (Nat.pos_of_ne_zero h)
  have hzero : id = 0 → id * period k = 0 := fun h => by rw [h, Nat.zero_mul]
  rw [firstTokenOfTablet_eq hk', lastToken_eq hk']
  generalize hfirst : (if id = 0 then 1 else id * period k) = first
  have hplace : 0 < first ∧ id * period k ≤ first ∧ first ≤ id * period k + (period k - 1) := by
    split at hfirst <;> omega
  refine ⟨⟨(bias_mem_periodKeys ?_ ?_).mpr ?_, ?_⟩, (bias_mem_periodKeys ?_ hlast).mpr ?_, ?_⟩
  · exact hplace.1
  · omega
  · rw [Nat.div_eq_iff hpos]
    omega
  · rintro _ ⟨u, ⟨hu, hlt, hdiv⟩, rfl⟩
    rw [Nat.div_eq_iff hpos] at hdiv
    rw [bias_le_bias (by omega) hlt]
    split at hfirst <;> omega
  · omega
  · rw [Nat.div_eq_iff hpos]
    omega
  · rintro _ ⟨u, ⟨-, hlt, hdiv⟩, rfl⟩
    rw [Nat.div_eq_iff hpos] at hdiv
    rw [bias_le_bias hlt hlast]
    omega

variable (wide) in
theorem compactionGroupOf_succ (hk : k ≤ 63) (hu : u < 2 ^ 64) :
    compactionGroupOf wide (k + 1) (bias u) / 2 = compactionGroupOf wide k (bias u) := by
  have hperiod : period (k + 1) * 2 = period k := by
    rw [period, period, ← Nat.pow_succ]
    congr 1
    omega
  rw [compactionGroupOf_bias hu, compactionGroupOf_bias hu, Nat.div_div_eq_div_mul, hperiod]

theorem getTabletIdAndRangeSide_bias (hk : k ≤ 63) (hu : u < 2 ^ 64) :
    (getTabletIdAndRangeSide wide k (bias u)).1 = compactionGroupOf wide k (bias u) ∧
      ((getTabletIdAndRangeSide wide k (bias u)).2 = .left ↔
        compactionGroupOf wide (k + 1) (bias u) = 2 * compactionGroupOf wide k (bias u)) := by
  have hsucc := compactionGroupOf_succ wide hk hu
  refine ⟨(shiftRight_eq_div_pow _ 1).trans hsucc, ?_⟩
  rw [getTabletIdAndRangeSide, and_one_is_mod]
  split
  next heven => exact iff_of_true rfl (by omega)
  next hodd => exact iff_of_false nofun (by omega)

/-! ### The number of ranges -/

theorem signExtend_toNat_cases (x : BitVec 32) :
    (x.signExtend 64).toNat < 2 ^ 31 ∨ 2 ^ 63 < (x.signExtend 64).toNat := by
  have hx := x.isLt
  rw [BitVec.toNat_signExtend, BitVec.toNat_setWidth, mod_eq_of_lt (hx.trans (by decide))]
  cases hmsb : x.msb with
  | false =>
    have hlow := BitVec.msb_eq_false_iff_two_mul_lt.mp hmsb
    rw [if_neg Bool.false_ne_true]
    exact .inl (by omega)
  | true =>
    exact .inr (Nat.lt_add_left _ (by decide))

theorem intShifted_eq_iff (hk : k ≤ 63) : intShifted wide k = 2 ^ k ↔ k ≤ 30 := by
  constructor
  · intro h
    have hcases := signExtend_toNat_cases (intShift wide k)
    have hpow : 2 ^ k ≤ 2 ^ 63 := Nat.pow_le_pow_right Nat.two_pos hk
    rw [intShifted] at h
    rw [h] at hcases
    have hlt := hcases.resolve_right (Nat.not_lt.mpr hpow)
    exact Nat.le_of_lt_succ ((Nat.pow_lt_pow_iff_right Nat.one_lt_two).mp hlt)
  · intro h
    have hsmall : ∀ k ≤ 30, ((1#32 <<< k).signExtend 64).toNat = 2 ^ k := by decide
    rw [intShifted, intShift, if_pos (by omega), hsmall k h]

theorem length_of_mapM {α β : Type*} {f : α → Option β} {l : List α} {l' : List β}
    (h : l.mapM f = some l') : l'.length = l.length := by
  induction l generalizing l' with
  | nil =>
    cases h
    rfl
  | cons a l ih =>
    rw [mapM_cons] at h
    obtain ⟨b, -, h⟩ := Option.bind_eq_some_iff.mp h
    obtain ⟨bs, hbs, h⟩ := Option.bind_eq_some_iff.mp h
    cases h
    rw [length_cons, length_cons, ih hbs]

theorem TabletsPartition.le_30 (h : TabletsPartition wide k) (hk : k ≤ 63) : k ≤ 30 := by
  by_cases hzero : k = 0
  · exact hzero ▸ zero_le _
  · obtain ⟨ranges, hsplit, hranges⟩ := h.split
    rw [splitTokenRangeMsb, if_neg hzero] at hsplit
    have hlength := congrArg List.length hranges
    simp only [length_map, length_range, length_of_mapM hsplit] at hlength
    exact (intShifted_eq_iff hk).mp hlength

variable (wide) in
theorem splitRange_eq (hk : k ≤ 64) (hid : id < 2 ^ k) :
    splitRange wide k id = some (ofBounds
      (some ⟨if id = 0 then .beforeAllKeys else lastTokenOfCompactionGroup k (id - 1), id = 0⟩)
      (some ⟨lastTokenOfCompactionGroup k id, true⟩)) := by
  match id with
  | 0 => rfl
  | id + 1 =>
    have hplace : (id + 1) * period k < 2 ^ 64 := by simpa using place_lt hk hid (period_pos k)
    have hgroup : compactionGroupOf wide k (nextToken (lastTokenOfCompactionGroup k id)) = id + 1 := by
      rw [nextToken_lastToken hk, compactionGroupOf_bias hplace, mul_div_left _ (period_pos k)]
    exact if_pos hgroup

theorem exists_splitTokenRangeMsb (hk : k ≤ 30) :
    ∃ ranges, splitTokenRangeMsb wide k = some ranges ∧
      ranges.map keysOf = (List.range (2 ^ k)).map (periodKeys k) := by
  have hk' : k ≤ 64 := hk.trans (by decide)
  by_cases hzero : k = 0
  · subst hzero
    refine ⟨_, rfl, congrArg (fun keys => [keys]) (keysOf_eq (by decide) (fun _ => rfl) ?_)⟩
    exact fun u hu => iff_of_true
      ⟨beforeAllKeys_lt_bias u, le_afterAllKeys _⟩ (div_eq_of_lt hu)
  · have hsplit := mapM_eq_some_map (l := List.range (2 ^ k)) fun id hid =>
      splitRange_eq wide hk' (mem_range.mp hid)
    rw [splitTokenRangeMsb, if_neg hzero, (intShifted_eq_iff (hk.trans (by decide))).mpr hk]
    refine ⟨_, hsplit, ?_⟩
    rw [map_map]
    exact map_congr_left fun id hid =>
      keysOf_range hk' (mem_range.mp hid) of_decide_eq_true

/-- The tablets partition the tokens exactly as long as their number fits into an `int`. -/
theorem tabletsPartition_iff (hk : k ≤ 63) : TabletsPartition wide k ↔ k ≤ 30 := by
  have hk' : k ≤ 64 := hk.trans (by decide)
  have hlt {u : ℕ} (hu : u < 2 ^ 64) : compactionGroupOf wide k (bias u) < 2 ^ k :=
    (compactionGroupOf_bias hu).trans_lt (exists_place hk' hu).2
  refine ⟨fun h => h.le_30 hk, fun hint => ⟨?_, ?_, ?_, ?_, ?_, ?_⟩⟩
  · rintro _ ⟨u, -, hu, rfl⟩
    exact hlt hu
  · rintro id hid _ ⟨u, hpos, hu, rfl⟩
    rw [keysOf_getTokenRange hk' hid, bias_mem_periodKeys hpos hu, compactionGroupOf_bias hu]
  · intro id hid
    rw [keysOf_getTokenRange hk' hid]
    exact isLeast_isGreatest_periodKeys hk hid
  · rintro _ ⟨u, -, hu, rfl⟩
    exact getTabletIdAndRangeSide_bias hk hu
  · rintro hnext _ ⟨u, hpos, hu, rfl⟩
    have hdouble : 2 * compactionGroupOf wide k (bias u) < 2 ^ (k + 1) := by
      have := hlt hu
      omega
    rw [(getTabletIdAndRangeSide_bias hk hu).2, keysOf_getTokenRange (by omega) hdouble,
      bias_mem_periodKeys hpos hu, compactionGroupOf_bias hu]
  · obtain ⟨ranges, hsplit, hranges⟩ := exists_splitTokenRangeMsb hint
    refine ⟨ranges, hsplit, hranges.trans (map_congr_left fun id hid => ?_)⟩
    exact (keysOf_getTokenRange hk' (mem_range.mp hid)).symm

theorem tabletsPartition_iff_three : 3 ≤ 63 ∧ TabletsPartition (fun _ => 0) 3 :=
  ⟨by decide, (tabletsPartition_iff (by decide)).mpr (by decide)⟩

/-- With `2 ^ 31` tablets the number of ranges is negative before it is converted. -/
theorem not_tabletsPartition_31 : ¬TabletsPartition (fun _ => 0) 31 :=
  fun h => absurd (h.le_30 (by decide)) (by decide)

end

end Scylla.Dht
