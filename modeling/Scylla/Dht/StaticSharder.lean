import Scylla.Dht.Token
import Mathlib.Data.Set.Card
import Mathlib.Order.Interval.Finset.Nat

/-!
# The static sharder

Shards take turns along the ring: the most significant bits of an unbiased token are ignored, what
is left is read as a fraction and multiplied by the number of shards. So the tokens fall into
periods, in each of which every shard owns one run.
-/

namespace Scylla.Dht

open Nat
open Finset

def zeroBasedShardOf (token shards bits : ℕ) : ℕ := ((token <<< bits) % 2 ^ 64 * shards) >>> 64

def adjustStart (shards bits s : ℕ) : ℕ → ℕ → Option ℕ
  | 0, _ => none
  | rounds + 1, token =>
    if zeroBasedShardOf token shards bits = s then some token
    else adjustStart shards bits s rounds ((token + 1) % 2 ^ 64)

def initZeroBasedShardStart (shards bits : ℕ) : Option (List ℕ) :=
  if shards = 1 then some [0]
  else (List.range shards).mapM fun s =>
    adjustStart shards bits s (2 ^ 64) (((s <<< 64) / shards) >>> bits)

def shardOf (shardCount bits : ℕ) : Token → ℕ
  | .beforeAllKeys => 0
  | .afterAllKeys => shardCount - 1
  | .key data => zeroBasedShardOf (unbias data) shardCount bits

def oneShifted (wide : ℕ → UInt32) (bits : ℕ) : ℕ :=
  if bits < 32 then 2 ^ bits else (wide bits).toNat

/-- `token_for_next_shard`, from the unbiased token `n`. -/
def tokenForNextShardFrom (wide : ℕ → UInt32) (shardStart : List ℕ)
    (shardCount bits n shard spans : ℕ) : Token :=
  let s := zeroBasedShardOf n shardCount bits
  if bits = 0 then
    if spans > 1 ∨ shard ≤ s then .afterAllKeys else bias (shardStart.getD shard 0)
  else
    let leftPart := n >>> (64 - bits) + (spans - if shard > s then 1 else 0)
    if leftPart ≥ oneShifted wide bits then .afterAllKeys
    else bias ((leftPart <<< (64 - bits)) ||| shardStart.getD shard 0)

def tokenForNextShard (wide : ℕ → UInt32) (shardStart : List ℕ) (shardCount bits : ℕ) (t : Token)
    (shard spans : ℕ) : Token :=
  match t with
  | .beforeAllKeys => tokenForNextShardFrom wide shardStart shardCount bits 0 shard spans
  | .afterAllKeys => .afterAllKeys
  | .key data => tokenForNextShardFrom wide shardStart shardCount bits (unbias data) shard spans

/-- The ignored bits a sharder works with: none if there is one shard. -/
def sharderBits (shardCount bits : ℕ) : ℕ := if shardCount > 1 then bits else 0

/-- `static_sharder`, as its constructor leaves it. -/
structure StaticSharder where
  shardCount : ℕ
  /-- `_sharding_ignore_msb_bits`. -/
  bits : ℕ
  shardStart : List ℕ
  bits_of_single : shardCount ≤ 1 → bits = 0
  shardStart_eq : initZeroBasedShardStart shardCount bits = some shardStart

namespace StaticSharder

/-- The constructor of `static_sharder`; it fails where the loop behind it does not end. -/
def make (shardCount bits : ℕ) : Option StaticSharder :=
  match h : initZeroBasedShardStart shardCount (sharderBits shardCount bits) with
  | none => none
  | some shardStart =>
    some ⟨shardCount, sharderBits shardCount bits, shardStart,
      fun hone => if_neg (not_lt.mpr hone), h⟩

def shardOf (σ : StaticSharder) (t : Token) : ℕ := Dht.shardOf σ.shardCount σ.bits t

def tokenForNextShard (wide : ℕ → UInt32) (σ : StaticSharder) (t : Token) (shard spans : ℕ) :
    Token :=
  Dht.tokenForNextShard wide σ.shardStart σ.shardCount σ.bits t shard spans

end StaticSharder

/-! ### Periods -/

/-- The number of tokens in one turn of the shards. -/
def period (bits : ℕ) : ℕ := 2 ^ (64 - bits)

def firstOf (shards bits s : ℕ) : ℕ := (s * period bits + (shards - 1)) / shards

section Periods

variable {shards bits s u low : ℕ}

theorem period_pos (bits : ℕ) : 0 < period bits := Nat.two_pow_pos _

theorem two_pow_mul_period (hbits : bits ≤ 64) : 2 ^ bits * period bits = 2 ^ 64 := by
  rw [period, ← Nat.pow_add, Nat.add_sub_cancel' hbits]

theorem zeroBasedShardOf_eq (hbits : bits ≤ 64) :
    zeroBasedShardOf u shards bits = u % period bits * shards / period bits := by
  have hpow := two_pow_mul_period hbits
  rw [zeroBasedShardOf, Nat.shiftLeft_eq, Nat.shiftRight_eq_div_pow, ← hpow,
    Nat.mul_comm (2 ^ bits), Nat.mul_mod_mul_right, Nat.mul_right_comm,
    Nat.mul_div_mul_right _ _ (Nat.two_pow_pos bits)]

theorem le_shard_iff (bits low : ℕ) (hshards : 0 < shards) :
    s ≤ low * shards / period bits ↔ firstOf shards bits s ≤ low := by
  rw [Nat.le_div_iff_mul_le (period_pos _), firstOf, ← Nat.lt_succ_iff (n := low),
    Nat.div_lt_iff_lt_mul hshards, Nat.succ_mul]
  omega

section

variable (hshards : 0 < shards)

include hshards

theorem firstOf_zero : firstOf shards bits 0 = 0 :=
  le_zero.mp ((le_shard_iff _ _ hshards).mp (zero_le _))

theorem firstOf_pos (hs : 0 < s) : 0 < firstOf shards bits s := by
  rw [pos_iff_ne_zero]
  intro hzero
  have := (le_shard_iff bits 0 hshards).mpr hzero.le
  simp at this
  omega

theorem firstOf_lt_succ (hperiod : shards ≤ period bits) :
    firstOf shards bits s < firstOf shards bits (s + 1) := by
  rw [firstOf, firstOf, Nat.lt_iff_add_one_le, ← Nat.add_div_right _ hshards, Nat.succ_mul]
  exact Nat.div_le_div_right (by omega)

theorem shard_firstOf (hperiod : shards ≤ period bits) :
    firstOf shards bits s * shards / period bits = s := by
  refine Nat.le_antisymm (Nat.lt_succ_iff.mp (Nat.not_le.mp fun hsucc => ?_))
    ((le_shard_iff _ _ hshards).mpr le_rfl)
  exact absurd ((le_shard_iff _ _ hshards).mp hsucc)
    (Nat.not_le.mpr (firstOf_lt_succ hshards hperiod))

theorem shard_lt (hlow : low < period bits) : low * shards / period bits < shards := by
  rw [div_lt_iff_lt_mul (period_pos _), mul_comm shards]
  exact mul_lt_mul_of_pos_right hlow hshards

theorem firstOf_lt_period (hperiod : shards ≤ period bits) (hs : s < shards) :
    firstOf shards bits s < period bits := by
  have hshard := shard_firstOf (s := s) hshards hperiod
  rw [← hshard, Nat.div_lt_iff_lt_mul (period_pos _), Nat.mul_comm] at hs
  exact Nat.lt_of_mul_lt_mul_left hs

end

theorem le_period_of_surjective (hbits : bits ≤ 64)
    (h : ∀ s < shards, ∃ u, zeroBasedShardOf u shards bits = s) : shards ≤ period bits := by
  have hsub : range shards ⊆
      (range (period bits)).image fun low => low * shards / period bits := by
    intro s hs
    obtain ⟨u, hu⟩ := h s (mem_range.mp hs)
    rw [zeroBasedShardOf_eq hbits] at hu
    exact mem_image.mpr
      ⟨u % period bits, mem_range.mpr (mod_lt _ (period_pos _)), hu⟩
  simpa using (card_le_card hsub).trans card_image_le

theorem adjustStart_eq (hbits : bits ≤ 64) (hshards : 0 < shards) (hperiod : shards ≤ period bits)
    (hs : s < shards) :
    adjustStart shards bits s (2 ^ 64) (((s <<< 64) / shards) >>> bits) =
      some (firstOf shards bits s) := by
  have hpow := two_pow_mul_period hbits
  have hlt := firstOf_lt_period hshards hperiod hs
  have hle : period bits ≤ 2 ^ 64 := hpow ▸ Nat.le_mul_of_pos_left _ (Nat.two_pow_pos bits)
  have hfound : zeroBasedShardOf (firstOf shards bits s) shards bits = s := by
    rw [zeroBasedShardOf_eq hbits, Nat.mod_eq_of_lt hlt, shard_firstOf hshards hperiod]
  have hguess : ((s <<< 64) / shards) >>> bits = s * period bits / shards := by
    rw [Nat.shiftLeft_eq, Nat.shiftRight_eq_div_pow, Nat.div_div_eq_div_mul, ← hpow,
      Nat.mul_comm (2 ^ bits), ← Nat.mul_assoc, Nat.mul_div_mul_right _ _ (Nat.two_pow_pos bits)]
  have hcases : firstOf shards bits s = s * period bits / shards ∨
      firstOf shards bits s = s * period bits / shards + 1 := by
    have hfloor : s * period bits / shards ≤ firstOf shards bits s :=
      Nat.div_le_div_right (Nat.le_add_right _ _)
    have hceil : firstOf shards bits s ≤ s * period bits / shards + 1 := by
      rw [← Nat.add_div_right _ hshards]
      exact Nat.div_le_div_right (by omega)
    omega
  have hrounds : (2 : ℕ) ^ 64 = (2 ^ 64 - 2) + 1 + 1 := rfl
  rw [hguess, hrounds, adjustStart]
  split
  next hthis =>
    rw [zeroBasedShardOf_eq hbits, mod_eq_of_lt (by omega)] at hthis
    have := (le_shard_iff _ _ hshards).mp hthis.ge
    exact congrArg some (by omega)
  next hthis =>
    have hnext : firstOf shards bits s = s * period bits / shards + 1 :=
      hcases.resolve_left fun h => hthis (h ▸ hfound)
    rw [mod_eq_of_lt (by omega), ← hnext, adjustStart, if_pos hfound]

theorem mapM_eq_some_map {α β : Type*} {f : α → Option β} {g : α → β} {l : List α}
    (h : ∀ a ∈ l, f a = some (g a)) : l.mapM f = some (l.map g) := by
  induction l with
  | nil => rfl
  | cons a l ih =>
    obtain ⟨ha, hl⟩ := List.forall_mem_cons.mp h
    rw [List.mapM_cons, ha, ih hl]
    rfl

theorem initZeroBasedShardStart_eq (hbits : bits ≤ 64) (hshards : 0 < shards)
    (hperiod : shards ≤ period bits) :
    initZeroBasedShardStart shards bits = some ((List.range shards).map (firstOf shards bits)) := by
  unfold initZeroBasedShardStart
  split
  next hone => simp [hone, firstOf_zero]
  next =>
    exact mapM_eq_some_map fun s hs =>
      adjustStart_eq hbits hshards hperiod (List.mem_range.mp hs)

end Periods

end Scylla.Dht
