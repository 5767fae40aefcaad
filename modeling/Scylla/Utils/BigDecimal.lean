import Mathlib

/-!
# Decimal arithmetic (`utils/big_decimal.cc`)

A `big_decimal` is an integer and an `int32_t` scale. Comparison, sum and difference bring both
operands to the larger scale; `div` rounds to the nearest multiple of its operand's unit, a tie
to the even one, and decides on a `uint64_t` double of the remainder.
-/

namespace Scylla.Utils

structure BigDecimal where
  scale : Int32
  unscaledValue : ℤ

namespace BigDecimal

/-- The exponent of `pow` is unsigned, and the least scale is its own absolute value. -/
def asRational (d : BigDecimal) : ℚ :=
  let pow : ℚ := 10 ^ d.scale.abs.toUInt32.toNat
  if d.scale < 0 then d.unscaledValue * pow else d.unscaledValue / pow

/-- The operand brought to `maxScale`, as each operator does it. -/
def rescale (d : BigDecimal) (maxScale : Int32) : ℤ :=
  d.unscaledValue * 10 ^ (maxScale - d.scale).toUInt32.toNat

def triCompare (d e : BigDecimal) : Ordering :=
  let maxScale := max d.scale e.scale
  compare (d.rescale maxScale) (e.rescale maxScale)

/-- The body `+=` and `-=` share. -/
def combine (op : ℤ → ℤ → ℤ) (d e : BigDecimal) : BigDecimal :=
  if d.scale = e.scale then ⟨d.scale, op d.unscaledValue e.unscaledValue⟩
  else
    let maxScale := max d.scale e.scale
    ⟨maxScale, op (d.rescale maxScale) (e.rescale maxScale)⟩

def add : BigDecimal → BigDecimal → BigDecimal := combine (· + ·)

def sub : BigDecimal → BigDecimal → BigDecimal := combine (· - ·)

/-- `div` in its one rounding mode. -/
def div (d : BigDecimal) (y : UInt64) : BigDecimal :=
  let sign : ℤ := if d.unscaledValue ≥ 0 then 1 else -1
  let a := sign * d.unscaledValue
  let r : UInt64 := UInt64.ofNat (a % y.toNat).toNat
  let q := a / y.toNat
  ⟨d.scale, sign * if 2 * r < y then q else if 2 * r > y then q + 1
    else if q % 2 = 1 then q + 1 else q⟩

/-! ## What a decimal stands for -/

/-- One step of the last digit. -/
def unit (d : BigDecimal) : ℚ := 10 ^ (-d.scale.toInt)

def value (d : BigDecimal) : ℚ := d.unscaledValue * d.unit

def HalfEven (unit x : ℚ) (n : ℤ) : Prop :=
  ∀ m : ℤ, m ≠ n → |x - n * unit| < |x - m * unit| ∨ |x - n * unit| = |x - m * unit| ∧ Even n

structure Exact (d e : BigDecimal) (y : UInt64) : Prop where
  triCompare : d.triCompare e = compare d.value e.value
  add : (d.add e).value = d.value + e.value
  sub : (d.sub e).value = d.value - e.value
  asRational : d.asRational = d.value
  div_scale : (d.div y).scale = d.scale
  div_halfEven : HalfEven d.unit (d.value / y.toNat) (d.div y).unscaledValue

variable {d e : BigDecimal} {y : UInt64}

theorem toNat_toUInt32 (x : Int32) : (x.toUInt32.toNat : ℤ) = x.toInt % 2 ^ 32 := by
  have hlt := x.toBitVec.isLt
  have hint : x.toInt = _ := BitVec.toInt_eq_toNat_cond x.toBitVec
  have hnat : x.toUInt32.toNat = x.toBitVec.toNat := rfl
  split at hint <;> omega

theorem asRational_eq : d.asRational = d.value := by
  have hpow : ∀ k : ℤ, (d.scale.abs.toUInt32.toNat : ℤ) = k →
      (10 : ℚ) ^ d.scale.abs.toUInt32.toNat = 10 ^ k := by
    rintro k rfl
    rw [zpow_natCast]
  have habs : (d.scale.abs.toUInt32.toNat : ℤ) = |d.scale.toInt| := by
    have hlt := d.scale.toBitVec.isLt
    have hint : d.scale.toInt = _ := BitVec.toInt_eq_toNat_cond d.scale.toBitVec
    have hnat : d.scale.abs.toUInt32.toNat = d.scale.toBitVec.abs.toNat := rfl
    rw [hnat, BitVec.toNat_abs, BitVec.msb_eq_decide]
    grind
  simp only [asRational, value, unit, hpow _ habs, Int32.lt_iff_toInt_lt, Int32.toInt_zero]
  split
  · rw [abs_of_neg ‹_›]
  · rw [abs_of_nonneg (by omega), zpow_neg, div_eq_mul_inv]

theorem rescale_eq {m : Int32} (hle : d.scale.toInt ≤ m.toInt)
    (hdiff : m.toInt - d.scale.toInt < 2 ^ 31) :
    (d.rescale m : ℚ) * 10 ^ (-m.toInt) = d.value := by
  have hexp : ((m - d.scale).toUInt32.toNat : ℤ) = m.toInt - d.scale.toInt := by
    rw [toNat_toUInt32, Int32.toInt_sub, Int.bmod_eq_of_le (by omega) (by omega)]
    omega
  rw [rescale, value, unit, Int.cast_mul, Int.cast_pow, Int.cast_ofNat, ← zpow_natCast, hexp,
    mul_assoc, ← zpow_add₀ (by norm_num)]
  ring_nf

section Operators

variable (hscale : |d.scale.toInt - e.scale.toInt| < 2 ^ 31)

include hscale

theorem rescale_max_eq : (d.rescale (max d.scale e.scale) : ℚ) *
    10 ^ (-(max d.scale e.scale).toInt) = d.value ∧ (e.rescale (max d.scale e.scale) : ℚ) *
    10 ^ (-(max d.scale e.scale).toInt) = e.value := by
  rw [abs_lt] at hscale
  have hmax : (max d.scale e.scale).toInt = max d.scale.toInt e.scale.toInt := by
    change (if d.scale ≤ e.scale then e.scale else d.scale).toInt = _
    simp only [Int32.le_iff_toInt_le]
    grind
  constructor <;> apply rescale_eq <;> omega

theorem triCompare_eq : d.triCompare e = compare d.value e.value := by
  obtain ⟨hd, he⟩ := rescale_max_eq hscale
  rw [← hd, ← he, ← cmp_eq_compare, cmp_mul_pos_right (by positivity),
    Int.cast_strictMono.cmp_map_eq, cmp_eq_compare, triCompare]

theorem value_combine {op : ℤ → ℤ → ℤ} {op' : ℚ → ℚ → ℚ}
    (hop : ∀ (u v : ℤ) (c : ℚ), (op u v : ℚ) * c = op' (u * c) (v * c)) :
    (combine op d e).value = op' d.value e.value := by
  unfold combine
  split
  case isTrue h => rw [value, hop, value, value, unit, unit, unit, h]
  case isFalse h =>
    obtain ⟨hd, he⟩ := rescale_max_eq hscale
    rw [value, hop, ← hd, ← he, unit]

end Operators

/-! ## Rounding -/

theorem halfEven_iff {c : ℚ} (hc : 0 < c) {p n : ℤ} {k : ℕ} (hk : 0 < k) :
    HalfEven c (p * c / k) n ↔ |2 * (p - n * k)| < k ∨ |2 * (p - n * k)| = k ∧ Even n := by
  have hdist : ∀ m : ℤ, |p * c / k - m * c| = ((|p - m * k| : ℤ) : ℚ) * (c / k) := by
    intro m
    have hk' : (0 : ℚ) < k := by exact_mod_cast hk
    rw [show p * c / k - m * c = ((p - m * k : ℤ) : ℚ) * (c / k) by push_cast; field_simp,
      abs_mul, abs_of_pos (div_pos hc hk'), Int.cast_abs]
  have hpos : 0 < c / k := by positivity
  simp only [HalfEven, hdist, mul_lt_mul_iff_left₀ hpos, mul_left_inj' hpos.ne', Int.cast_lt,
    Int.cast_inj]
  constructor
  · intro h
    have hup := h (n + 1) (by omega)
    have hdown := h (n - 1) (by omega)
    rw [show p - (n + 1) * k = p - n * k - k by ring] at hup
    rw [show p - (n - 1) * k = p - n * k + k by ring] at hdown
    grind
  · intro h m hm
    have hfar : (k : ℤ) ≤ |(m - n) * k| := by
      rw [abs_mul, Nat.abs_cast]
      exact le_mul_of_one_le_left (by omega) (Int.one_le_abs (sub_ne_zero.2 hm))
    rw [show p - m * k = p - n * k - (m - n) * k by ring]
    generalize (m - n) * (k : ℤ) = z at hfar ⊢
    grind

theorem halfEven_sign {c : ℚ} (hc : 0 < c) {sign p q : ℤ} {k : ℕ} (hk : 0 < k)
    (hs : sign = 1 ∨ sign = -1) :
    HalfEven c (p * c / k) (sign * q) ↔
      |2 * (sign * p - q * k)| < k ∨ |2 * (sign * p - q * k)| = k ∧ Even q := by
  rw [halfEven_iff hc hk]
  obtain rfl | rfl := hs
  · simp
  · rw [show 2 * (p - -1 * q * k) = -(2 * (-1 * p - q * k)) by ring, abs_neg]
    simp

theorem div_halfEven_iff (hy : 1 ≤ y) :
    HalfEven d.unit (d.value / y.toNat) (d.div y).unscaledValue ↔
      |d.unscaledValue| % y.toNat < 2 ^ 63 := by
  have hpos : 0 < y.toNat := UInt64.le_iff_toNat_le.1 hy
  have hy64 := y.toNat_lt
  have hunit : 0 < d.unit := zpow_pos (by norm_num) _
  obtain ⟨sign, hsign⟩ : ∃ s : ℤ, s = if d.unscaledValue ≥ 0 then 1 else -1 := ⟨_, rfl⟩
  have hs : sign = 1 ∨ sign = -1 := by grind
  have habs : |d.unscaledValue| = sign * d.unscaledValue := by grind
  obtain ⟨r, hr⟩ := Int.eq_ofNat_of_zero_le
    (Int.emod_nonneg (sign * d.unscaledValue) (Int.natCast_ne_zero.2 hpos.ne'))
  have hlt := Int.emod_lt_of_pos (sign * d.unscaledValue) (Int.natCast_pos.2 hpos)
  have hqr := Int.emod_add_mul_ediv (sign * d.unscaledValue) y.toNat
  have hdouble : (2 * UInt64.ofNat r).toNat = 2 * r % 2 ^ 64 := by
    have hsize : r < UInt64.size := by
      change r < 2 ^ 64
      omega
    rw [UInt64.toNat_mul, UInt64.toNat_ofNat_of_lt' hsize]
    rfl
  simp only [div, value, ← hsign, habs, hr, Int.toNat_natCast, UInt64.lt_iff_toNat_lt, gt_iff_lt,
    hdouble]
  rw [hr] at hlt hqr
  generalize sign * d.unscaledValue / y.toNat = q at hqr
  have hq : sign * d.unscaledValue - q * y.toNat = r := by linarith
  have hq' : sign * d.unscaledValue - (q + 1) * y.toNat = r - y.toNat := by linarith
  split_ifs <;> rw [halfEven_sign hunit hpos hs] <;> simp only [hq, hq'] <;> grind

theorem exact_iff (d e : BigDecimal) (y : UInt64) (hy : 1 ≤ y)
    (hscale : |d.scale.toInt - e.scale.toInt| < 2 ^ 31) :
    Exact d e y ↔ |d.unscaledValue| % y.toNat < 2 ^ 63 := by
  rw [← div_halfEven_iff hy]
  refine ⟨Exact.div_halfEven, fun h => ⟨triCompare_eq hscale, ?_, ?_, asRational_eq, rfl, h⟩⟩
  · exact value_combine hscale fun u v c => by rw [Int.cast_add, add_mul]
  · exact value_combine hscale fun u v c => by rw [Int.cast_sub, sub_mul]

/-- `-2.5 / 10`, beside `12`. -/
theorem exact_minusTwoAndHalf : Exact ⟨1, -25⟩ ⟨0, 12⟩ 10 :=
  (exact_iff _ _ _ (by decide) (by decide)).2 (by decide)

/-- `2 ^ 63 / (2 ^ 64 - 1)` is rounded to `0`. -/
theorem not_exact_hugeDivisor : ¬Exact ⟨0, 2 ^ 63⟩ ⟨0, 0⟩ 18446744073709551615 := by
  intro h
  have hrounded := (div_halfEven_iff (by decide)).1 h.div_halfEven
  revert hrounded
  decide

end BigDecimal
end Scylla.Utils
