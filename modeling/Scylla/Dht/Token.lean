import Mathlib.Order.Cover
import Mathlib.Tactic.Linarith

/-!
# Tokens

Positions on the ring: 64-bit keys between a position before and one after all of them. Keys
compare as signed numbers; `unbias` maps them, in this order, to the unsigned numbers that sharding
works with.
-/

namespace Scylla.Dht

open Nat

inductive Token where
  | beforeAllKeys
  | key (data : BitVec 64)
  | afterAllKeys
  deriving DecidableEq

def unbias (data : BitVec 64) : ℕ := (data + BitVec.intMin 64).toNat

def bias (n : ℕ) : Token := .key (BitVec.ofNat 64 n - BitVec.intMin 64)

namespace Token

/-- `operator<=>`. -/
def triCompare : Token → Token → Ordering
  | .beforeAllKeys, .beforeAllKeys => .eq
  | .beforeAllKeys, _ => .lt
  | .key _, .beforeAllKeys => .gt
  | .key a, .key b => if a = b then .eq else if a.slt b then .lt else .gt
  | .key _, .afterAllKeys => .lt
  | .afterAllKeys, .afterAllKeys => .eq
  | .afterAllKeys, _ => .gt

/-- How many tokens are below. -/
def rank : Token → ℕ
  | .beforeAllKeys => 0
  | .key data => unbias data + 1
  | .afterAllKeys => 2 ^ 64 + 1

end Token

theorem unbias_lt (data : BitVec 64) : unbias data < 2 ^ 64 := BitVec.isLt _

theorem unbias_inj {a b : BitVec 64} : unbias a = unbias b ↔ a = b := by
  refine ⟨fun h => ?_, fun h => h ▸ rfl⟩
  have hadd : a + BitVec.intMin 64 = b + BitVec.intMin 64 := BitVec.eq_of_toNat_eq h
  bv_omega

theorem slt_iff_unbias_lt {a b : BitVec 64} : a.slt b = true ↔ unbias a < unbias b := by
  rw [BitVec.slt_iff_toInt_lt, BitVec.toInt_eq_toNat_cond, BitVec.toInt_eq_toNat_cond, unbias,
    unbias, BitVec.toNat_add, BitVec.toNat_add, BitVec.toNat_intMin]
  split <;> split <;> omega

variable {n : ℕ}

theorem exists_unbias_eq (h : n < 2 ^ 64) :
    ∃ data, bias n = .key data ∧ unbias data = n := by
  refine ⟨_, rfl, ?_⟩
  rw [unbias, BitVec.sub_add_cancel, BitVec.toNat_ofNat, mod_eq_of_lt h]

@[simp] theorem bias_unbias (data : BitVec 64) : bias (unbias data) = .key data := by
  obtain ⟨d, hbias, hd⟩ := exists_unbias_eq (unbias_lt data)
  rw [hbias, unbias_inj.mp hd]

namespace Token

theorem rank_injective : Function.Injective rank := by
  intro s t h
  match s, t with
  | .beforeAllKeys, .beforeAllKeys | .afterAllKeys, .afterAllKeys => rfl
  | .key a, .key b =>
    have hab : unbias a = unbias b := succ_injective h
    rw [unbias_inj.mp hab]
  | .beforeAllKeys, .key b | .key a, .beforeAllKeys | .beforeAllKeys, .afterAllKeys
  | .afterAllKeys, .beforeAllKeys => simp [rank] at h
  | .key a, .afterAllKeys | .afterAllKeys, .key a =>
    have := unbias_lt a
    simp only [rank] at h
    omega

instance : LinearOrder Token := LinearOrder.lift' rank rank_injective

variable {s t : Token}

theorem lt_iff_rank : s < t ↔ s.rank < t.rank := Iff.rfl

theorem le_iff_rank : s ≤ t ↔ s.rank ≤ t.rank := Iff.rfl

theorem triCompare_eq_compare (s t : Token) : s.triCompare t = compare s t := by
  have hlt {s t : Token} (hc : s.triCompare t = .lt) (h : s.rank < t.rank) :
      s.triCompare t = compare s t := hc.trans (compare_lt_iff_lt.mpr h).symm
  have hgt {s t : Token} (hc : s.triCompare t = .gt) (h : t.rank < s.rank) :
      s.triCompare t = compare s t := hc.trans (compare_gt_iff_gt.mpr h).symm
  match s, t with
  | .beforeAllKeys, .beforeAllKeys | .afterAllKeys, .afterAllKeys => simp [triCompare]
  | .key a, .key b =>
    rcases lt_trichotomy (unbias a) (unbias b) with h | h | h
    · have hne : a ≠ b := fun hab => h.ne (congrArg unbias hab)
      refine hlt ?_ (succ_lt_succ h)
      rw [triCompare, if_neg hne, if_pos (slt_iff_unbias_lt.mpr h)]
    · rw [unbias_inj.mp h]
      simp [triCompare]
    · have hne : a ≠ b := fun hab => h.ne' (congrArg unbias hab)
      refine hgt ?_ (succ_lt_succ h)
      rw [triCompare, if_neg hne, if_neg fun hab => h.not_gt (slt_iff_unbias_lt.mp hab)]
  | .beforeAllKeys, .key _ | .beforeAllKeys, .afterAllKeys => exact hlt rfl (succ_pos _)
  | .key _, .beforeAllKeys | .afterAllKeys, .beforeAllKeys => exact hgt rfl (succ_pos _)
  | .key a, .afterAllKeys => exact hlt rfl (succ_lt_succ (unbias_lt a))
  | .afterAllKeys, .key b => exact hgt rfl (succ_lt_succ (unbias_lt b))

theorem rank_bias (h : n < 2 ^ 64) : (bias n).rank = n + 1 := by
  obtain ⟨d, hbias, hd⟩ := exists_unbias_eq h
  rw [hbias, rank, hd]

theorem cases_bias (t : Token) :
    t = .beforeAllKeys ∨ (∃ n < 2 ^ 64, t = bias n) ∨ t = .afterAllKeys := by
  match t with
  | .beforeAllKeys => exact .inl rfl
  | .key data => exact .inr (.inl ⟨unbias data, unbias_lt data, (bias_unbias data).symm⟩)
  | .afterAllKeys => exact .inr (.inr rfl)

theorem covBy_of_rank (h : t.rank = s.rank + 1) : s ⋖ t := by
  refine ⟨lt_iff_rank.mpr (by omega), fun u hsu hut => ?_⟩
  rw [lt_iff_rank] at hsu hut
  omega

theorem bias_lt_bias {m : ℕ} (hm : m < 2 ^ 64) (hn : n < 2 ^ 64) :
    bias m < bias n ↔ m < n := by
  rw [lt_iff_rank, rank_bias hm, rank_bias hn, add_lt_add_iff_right]

theorem bias_covBy (h : n + 1 < 2 ^ 64) : bias n ⋖ bias (n + 1) :=
  covBy_of_rank (by rw [rank_bias h, rank_bias (lt_of_succ_lt h)])

theorem beforeAllKeys_lt_bias (n : ℕ) : beforeAllKeys < bias n := Nat.succ_pos _

theorem bias_lt_afterAllKeys (n : ℕ) : bias n < afterAllKeys := Nat.succ_lt_succ (unbias_lt _)

theorem bias_ne_afterAllKeys (n : ℕ) : bias n ≠ afterAllKeys := nofun

theorem le_afterAllKeys (t : Token) : t ≤ afterAllKeys := by
  rw [le_iff_rank]
  match t with
  | .beforeAllKeys | .afterAllKeys => simp [rank]
  | .key data =>
    have := unbias_lt data
    simp only [rank]
    omega

end Token

end Scylla.Dht
