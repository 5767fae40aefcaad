import Scylla.Dht.SelectiveSharder

/-!
# Which sharders the range sharders are exact for

The range sharders are exact together when the shards own the cells in turn. A static sharder does
so unless the number of its periods does not fit; a tablet sharder does so by chance only.
-/

namespace Scylla.Dht

open WrappingInterval (ofBounds isWrapAround_ofBounds_of_lt)

structure ShardingExact (K : Type*) [LinearOrder K] (σ : Sharder) : Prop where
  range : ∀ r : PartitionRange K, r.isWrapAround = false →
    ∃ pieces, Yields (fun st => some (RangeSharder.next σ st)) ⟨r, false⟩ pieces ∧
      SplitsRange σ r pieces
  selective : ∀ range : TokenRange, range.isWrapAround = false → ∀ s, σ.IsShard s →
    ∃ ranges, Yields (SelectiveSharder.next σ) (.make σ range s) ranges ∧
      SelectiveSharder.Selects σ range s ranges
  single : ∀ r : PartitionRange K, r.isWrapAround = false →
    ((isSingleShard σ r).isSome = true ↔ ∃ s, ∀ t ∈ tokensOf r, σ.shardForReads t = s)

section Cells

variable {K : Type*} [LinearOrder K] {σ : Sharder}

theorem Cells.shardingExact_iff (c : Cells σ) : ShardingExact K σ ↔ c.RoundRobin := by
  constructor
  · intro h i hcount
    have hother : c.shard (i + 1) ≠ c.shard i := by
      intro hsame
      obtain ⟨r, hr, hnone, hsingle⟩ := exists_isSingleShard_none (K := K) c hcount hsame
      have hsome := (h.single r hr).mpr hsingle
      rw [hnone] at hsome
      cases hsome
    refine ⟨?_, hother⟩
    by_contra hnext
    obtain ⟨range, hrange, hwrong⟩ := SelectiveSharder.exists_not_selects c hcount hnext hother
    obtain ⟨u, -, hcell⟩ := c.exists_covBy_first hcount
    have hshard : σ.IsShard (c.shard i) := .inr ⟨bias u, by rw [c.shardForReads_eq, hcell]⟩
    obtain ⟨ranges, hyields, hselects⟩ := h.selective range hrange _ hshard
    exact hwrong ranges hyields hselects
  · intro hrr
    exact ⟨fun r hr => exists_splitsRange c hr,
      fun range hrange s hs => SelectiveSharder.exists_selects c hrr hrange hs,
      fun r _ => isSome_isSingleShard_iff c (fun i hi => (hrr i hi).2) r⟩

end Cells

namespace StaticSharder

variable {wide : ℕ → UInt32} {σ : StaticSharder}

theorem Fits.roundRobin (h : σ.Fits) (hshift : oneShifted wide σ.bits = 2 ^ σ.bits) :
    (h.cells hshift).RoundRobin := by
  intro i hcount
  have hsucc := succ_mod_eq (u := i) h.pos
  have hlt : i + 1 < 2 ^ σ.bits * σ.shardCount := hcount
  refine ⟨hsucc, fun hsame => ?_⟩
  change (i + 1) % σ.shardCount = i % σ.shardCount at hsame
  have hone : σ.shardCount = 1 := by
    rw [hsucc] at hsame
    split at hsame <;> omega
  rw [hone, σ.bits_of_single hone.le] at hlt
  omega

theorem Fits.not_shardingExact {K : Type*} [LinearOrder K] (h : σ.Fits) (hbits : 32 ≤ σ.bits)
    (htwo : 1 < σ.shardCount) : ¬ShardingExact K (σ.toSharder wide) := by
  intro hexact
  have hperiods := oneShifted_lt wide hbits
  have hu := h.mul_period_lt hperiods
  generalize hw : oneShifted wide σ.bits = w at hperiods hu
  have hzero : zeroBasedShardOf (w * period σ.bits) σ.shardCount σ.bits = 0 := by
    rw [zeroBasedShardOf_eq h.bits_le, Nat.mul_mod_left, Nat.zero_mul, Nat.zero_div]
  have hat : At (w * period σ.bits) (bias (w * period σ.bits)) := ⟨hu, .inr rfl⟩
  have hshard : σ.shardOf (bias (w * period σ.bits)) = 0 := (shardOf_at hat).trans hzero
  have hperiod : nextPeriod σ.shardCount σ.bits 1 (w * period σ.bits) = w := by
    rw [nextPeriod, hzero, Nat.mul_div_left _ (period_pos _)]
    rfl
  have hnext : (σ.toSharder wide).nextShardForReads (bias (w * period σ.bits)) = none := by
    have hafter : shardAfter σ.shardCount 0 = 1 := if_neg htwo.ne
    change σ.nextShard wide (bias (w * period σ.bits)) = none
    rw [nextShard, hshard, hafter, h.tokenForNextShard_at hat htwo, hw, hperiod, if_pos le_rfl]
    rfl
  -- the run of shard 1 in this period belongs to the range as well
  have hrange : (ofBounds (some ⟨RingPosition.startingAt (K := K) (bias (w * period σ.bits)), true⟩)
      none).isWrapAround = false := isWrapAround_ofBounds_of_lt fun _ _ _ h => by cases h
  obtain ⟨pieces, hyields, hsplit⟩ := hexact.range _ hrange
  have hpiece : pieces = [⟨ofBounds (some ⟨RingPosition.startingAt (bias (w * period σ.bits)),
      true⟩) none, 0⟩] := by
    rw [← hshard]
    exact hyields.unique (RangeSharder.yields_of_next_none hnext)
  have hrun := shardOf_runStart h.bits_le h.pos h.le_period htwo hperiods
  have hmem : runStart σ.shardCount σ.bits 1 w ∈ tokensOf (ofBounds
      (some ⟨RingPosition.startingAt (K := K) (bias (w * period σ.bits)), true⟩) none) := by
    have hplace := place_lt h.bits_le hperiods (firstOf_lt_period h.pos h.le_period htwo)
    have hlt : bias (w * period σ.bits) < runStart σ.shardCount σ.bits 1 w :=
      (Token.bias_lt_bias hu hplace).mpr
        (Nat.lt_add_of_pos_right (firstOf_pos h.pos Nat.one_pos))
    refine ⟨⟨_, rfl⟩, RingPosition.lt_of_token_lt (q := RingPosition.endingAt .afterAllKeys) ?_,
      RingPosition.lt_of_token_lt ?_⟩
    · exact Token.bias_lt_afterAllKeys _
    · rw [token_forRangeStart]
      exact hlt
  subst hpiece
  have hwrong := hsplit.owned _ List.mem_cons_self _ hmem
  exact absurd (hrun.symm.trans hwrong) Nat.one_ne_zero

end StaticSharder

/-- The sharders of vnode-based and of tablet-based tables. -/
inductive SharderSource (H : Type*) where
  | static (shardCount bits : ℕ)
  | tablets (σ : TabletSharder H)

namespace SharderSource

variable {H : Type*} [DecidableEq H]

def sharder (wide : ℕ → UInt32) : SharderSource H → Option Sharder
  | static shardCount bits =>
    (StaticSharder.make shardCount bits).map (StaticSharder.toSharder wide)
  | tablets σ => some σ.toSharder

/-- Every shard of a static sharder owns tokens. -/
def Valid : SharderSource H → Prop
  | static shardCount bits => 1 ≤ shardCount ∧ bits ≤ 63 ∧ Sharded shardCount bits
  | tablets _ => True

def InTurn : SharderSource H → Prop
  | static shardCount bits => shardCount = 1 ∨ bits < 32
  | tablets σ => ∀ id, id + 1 < σ.map.tabletCount →
      (σ.shardForReadsOf (id + 1)).getD 0 =
          shardAfter σ.shardCount ((σ.shardForReadsOf id).getD 0) ∧
        (σ.shardForReadsOf (id + 1)).getD 0 ≠ (σ.shardForReadsOf id).getD 0

/-- The range sharders are exact for a sharder exactly when its shards own the ring in turn. -/
theorem exists_shardingExact_iff (K : Type*) [LinearOrder K] (wide : ℕ → UInt32)
    (source : SharderSource H) (hvalid : source.Valid) :
    (∃ σ, source.sharder wide = some σ ∧ ShardingExact K σ) ↔ source.InTurn := by
  match source, hvalid with
  | tablets σ, _ =>
    have hcells : ShardingExact K σ.toSharder ↔ σ.cells.RoundRobin := σ.cells.shardingExact_iff
    refine ⟨fun ⟨τ, hτ, hexact⟩ => ?_, fun hturn => ⟨_, rfl, hcells.mpr hturn⟩⟩
    cases hτ
    exact hcells.mp hexact
  | static shardCount bits, ⟨hcount, hbits, hsharded⟩ =>
    obtain ⟨σ, hmake, hσcount, hσbits, hfits⟩ := StaticSharder.exists_make hcount hbits hsharded
    have hbuilt : (static shardCount bits : SharderSource H).sharder wide =
        some (σ.toSharder wide) := by rw [sharder, hmake, Option.map_some]
    constructor
    · rintro ⟨τ, hτ, hexact⟩
      cases hbuilt.symm.trans hτ
      by_contra hnot
      have hcases : ¬(shardCount = 1 ∨ bits < 32) := hnot
      have htwo : 1 < shardCount := by omega
      have hsame : σ.bits = bits := hσbits.trans (if_pos htwo)
      exact hfits.not_shardingExact (by omega) (hσcount ▸ htwo) hexact
    · intro hturn
      have hcases : shardCount = 1 ∨ bits < 32 := hturn
      have hsmall : σ.bits < 32 := by
        rw [hσbits, sharderBits]
        split <;> omega
      exact ⟨_, hbuilt, (hfits.cells (if_pos hsmall)).shardingExact_iff.mpr
        (hfits.roundRobin (if_pos hsmall))⟩

/-- Two tablets with the given shards, on the one host there is. -/
def twoTablets (shardCount first second : ℕ) : SharderSource Unit :=
  tablets {
    map := {
      log2Tablets := 1
      log2Tablets_le := by decide
      replicas := fun id => if id = 0 then [⟨(), first⟩] else [⟨(), second⟩]
      transitions := fun _ => none }
    host := ()
    shardCount := shardCount }

/-- Two tablets on neighbouring shards. -/
theorem exists_shardingExact_neighbours :
    ∃ σ, (twoTablets 3 0 1).sharder (fun _ => 0) = some σ ∧ ShardingExact ℕ σ := by
  refine (exists_shardingExact_iff ℕ _ (twoTablets 3 0 1) trivial).mpr fun id hid => ?_
  match id, hid with
  | 0, _ => decide

/-- The second tablet on the shard after the next: its tokens are yielded for the first one's. -/
theorem not_exists_shardingExact_apart :
    ¬∃ σ, (twoTablets 3 0 2).sharder (fun _ => 0) = some σ ∧ ShardingExact ℕ σ := by
  rintro ⟨σ, hσ, hexact⟩
  cases hσ
  have hturn := (TabletSharder.cells _).shardingExact_iff.mp hexact 0 (by decide)
  exact absurd hturn.1 (by decide)

end SharderSource

end Scylla.Dht
