import Scylla.Dht.Sharder
import Scylla.Dht.IntervalPieces

/-!
# Sharding ranges of ring positions

`ring_position_range_sharder` cuts a range at the first tokens of the cells; `is_single_shard`
looks whether it would cut at all.
-/

namespace Scylla.Dht

open Cql (Bound)
open WrappingInterval (ofBounds Ordered union ordered_cons ordered_nil mem_union_cons mem_union_nil
  isWrapAround_ofBounds_of_lt mem_points_iff)

/-! ### Ring positions -/

/-- What follows the token: before its keys, at one of them, after them. -/
abbrev Place (K : Type*) := WithBot (WithTop K)

abbrev RingPosition (K : Type*) := Token ×ₗ Place K

/-- `ring_position_view`: a position at a key may also lie right after it. -/
abbrev RingPositionView (K : Type*) := RingPosition (K ×ₗ Bool)

abbrev PartitionRange (K : Type*) := WrappingInterval (RingPosition K)

namespace RingPosition

variable {K : Type*}

def token (p : RingPosition K) : Token := (ofLex p).1

def startingAt (t : Token) : RingPosition K := toLex (t, ⊥)

def endingAt (t : Token) : RingPosition K := toLex (t, ⊤)

/-- The view of a position, with `after_key`, which matters at a key only. -/
def view (p : RingPosition K) (afterKey : Bool) : RingPositionView K :=
  toLex ((ofLex p).1,
    match (ofLex p).2 with
    | some (some k) => some (some (toLex (k, afterKey)))
    | some none => ⊤
    | none => ⊥)

@[simp] theorem token_startingAt (t : Token) : (startingAt t : RingPosition K).token = t := rfl

@[simp] theorem token_endingAt (t : Token) : (endingAt t : RingPosition K).token = t := rfl

@[simp] theorem token_view (p : RingPosition K) (after : Bool) :
    (p.view after).token = p.token := rfl

variable [LinearOrder K] {p q : RingPosition K} {t t' : Token}

theorem lt_of_token_lt (h : p.token < q.token) : p < q := Prod.Lex.lt_iff.mpr (.inl h)

theorem token_le_of_le (h : p ≤ q) : p.token ≤ q.token :=
  not_lt.mp fun hlt => absurd (lt_of_token_lt hlt) (not_lt.mpr h)

theorem startingAt_le_of_token_le (h : t ≤ p.token) : startingAt t ≤ p := by
  rcases h.lt_or_eq with hlt | heq
  · exact (lt_of_token_lt (p := startingAt t) hlt).le
  · exact Prod.Lex.le_iff.mpr (.inr ⟨heq, bot_le⟩)

theorem startingAt_lt_startingAt : (startingAt t : RingPosition K) < startingAt t' ↔ t < t' :=
  ⟨fun h => not_le.mp fun hle => absurd (startingAt_le_of_token_le (K := K) hle) (not_le.mpr h),
    fun h => lt_of_token_lt h⟩

theorem token_le_of_lt_endingAt (h : p < endingAt t) : p.token ≤ t := token_le_of_le h.le

theorem view_le_startingAt (after : Bool) (h : p ≤ startingAt t) : p.view after ≤ startingAt t := by
  rcases Prod.Lex.le_iff.mp h with hlt | ⟨heq, hle⟩
  · exact (lt_of_token_lt (p := p.view after) (q := startingAt t) hlt).le
  · have hbot : (ofLex p).2 = ⊥ := le_bot_iff.mp hle
    refine Prod.Lex.le_iff.mpr (.inr ⟨heq, ?_⟩)
    simp [view, hbot]

end RingPosition

open RingPosition (startingAt endingAt)

/-! ### The tokens of a range -/

section Range

variable {K : Type*}

def forRangeStart (r : PartitionRange K) : RingPositionView K :=
  match r.start with
  | some s => RingPosition.view s.value !s.inclusive
  | none => startingAt .beforeAllKeys

def forRangeEnd (r : PartitionRange K) : RingPositionView K :=
  match r.endBound with
  | some e => RingPosition.view e.value e.inclusive
  | none => endingAt .afterAllKeys

def startToken (r : PartitionRange K) : Token :=
  match r.start with
  | some s => RingPosition.token s.value
  | none => .beforeAllKeys

theorem token_forRangeStart (r : PartitionRange K) : (forRangeStart r).token = startToken r := by
  unfold forRangeStart startToken
  match r.start with
  | none | some _ => rfl

variable [LinearOrder K]

/-- The tokens of a range: those with a place for keys in it. -/
def tokensOf (r : PartitionRange K) : Set Token :=
  {t | (∃ data, t = .key data) ∧ startingAt t < forRangeEnd r ∧ forRangeStart r < endingAt t}

theorem startToken_le {r : PartitionRange K} {t : Token} (h : t ∈ tokensOf r) :
    startToken r ≤ t :=
  token_forRangeStart r ▸ RingPosition.token_le_of_lt_endingAt h.2.2

end Range

/-! ### Generators -/

inductive Yields {S A : Type*} (next : S → Option (Option A × S)) : S → List A → Prop
  | done {s s' : S} (h : next s = some (none, s')) : Yields next s []
  | step {s s' : S} {a : A} {l : List A} (h : next s = some (some a, s')) (hl : Yields next s' l) :
      Yields next s (a :: l)

theorem Yields.unique {S A : Type*} {next : S → Option (Option A × S)} {s : S} {l l' : List A}
    (h : Yields next s l) (h' : Yields next s l') : l = l' := by
  induction h generalizing l' with
  | done hnext =>
    cases h' with
    | done => rfl
    | step hnext' => cases hnext.symm.trans hnext'
  | step hnext _ ih =>
    cases h' with
    | done hnext' => cases hnext.symm.trans hnext'
    | step hnext' hl =>
      cases hnext.symm.trans hnext'
      rw [ih hl]

/-! ### `ring_position_range_sharder` -/

structure RangeAndShard (K : Type*) where
  ringRange : PartitionRange K
  shard : ℕ

structure RangeSharder (K : Type*) where
  range : PartitionRange K
  done : Bool

variable {K : Type*} [LinearOrder K]

def RangeSharder.next (σ : Sharder) (st : RangeSharder K) :
    Option (RangeAndShard K) × RangeSharder K :=
  if st.done then (none, st)
  else
    let shard := σ.shardForReads (startToken st.range)
    match σ.nextShardForReads (startToken st.range) with
    | none => (some ⟨st.range, shard⟩, { st with done := true })
    | some (_, boundary) =>
      if (st.range.endBound.all fun e => decide (startingAt boundary < e.value)) &&
          decide (boundary ≠ .afterAllKeys) then
        (some ⟨ofBounds st.range.start (some ⟨startingAt boundary, false⟩), shard⟩,
          { st with range := ofBounds (some ⟨startingAt boundary, true⟩) st.range.endBound })
      else (some ⟨st.range, shard⟩, { st with done := true })

structure SplitsRange (σ : Sharder) (r : PartitionRange K) (pieces : List (RangeAndShard K)) :
    Prop where
  ordered : Ordered (pieces.map RangeAndShard.ringRange)
  union_eq : union (pieces.map RangeAndShard.ringRange) = r.points
  owned : ∀ p ∈ pieces, ∀ t ∈ tokensOf p.ringRange, σ.shardForReads t = p.shard

theorem RangeSharder.yields_nil_of_done (σ : Sharder) {st : RangeSharder K} (h : st.done = true) :
    Yields (fun st => some (RangeSharder.next σ st)) st [] := by
  have hnext : RangeSharder.next σ st = (none, st) := by
    rw [RangeSharder.next, if_pos h]
  exact .done (congrArg some hnext)

theorem RangeSharder.yields_of_next_none {σ : Sharder} {r : PartitionRange K}
    (h : σ.nextShardForReads (startToken r) = none) :
    Yields (fun st => some (RangeSharder.next σ st)) ⟨r, false⟩
      [⟨r, σ.shardForReads (startToken r)⟩] := by
  have hnext : RangeSharder.next σ ⟨r, false⟩ =
      (some ⟨r, σ.shardForReads (startToken r)⟩, ⟨r, true⟩) := by
    rw [RangeSharder.next, if_neg Bool.false_ne_true, h]
  exact .step (congrArg some hnext) (RangeSharder.yields_nil_of_done σ rfl)

section Split

variable {σ : Sharder} (c : Cells σ) {r : PartitionRange K}

theorem owned_of_end_le (hend : c.cell (startToken r) + 1 < c.count →
      forRangeEnd r ≤ startingAt (c.first (c.cell (startToken r) + 1)))
    {t : Token} (ht : t ∈ tokensOf r) : σ.shardForReads t = σ.shardForReads (startToken r) := by
  have hcell : c.cell t = c.cell (startToken r) :=
    c.cell_eq_of_lt_next (startToken_le ht) fun hcount =>
      RingPosition.startingAt_lt_startingAt.mp (ht.2.1.trans_le (hend hcount))
  rw [c.shardForReads_eq, c.shardForReads_eq, hcell]

theorem splitsRange_self (hr : r.isWrapAround = false) (hend : c.cell (startToken r) + 1 < c.count →
      forRangeEnd r ≤ startingAt (c.first (c.cell (startToken r) + 1))) :
    SplitsRange σ r [⟨r, σ.shardForReads (startToken r)⟩] where
  ordered := ordered_cons.mpr ⟨hr, by simp, ordered_nil⟩
  union_eq := Set.ext fun x => by simp
  owned p hp t ht := by
    obtain rfl := List.mem_singleton.mp hp
    exact owned_of_end_le c hend ht

variable {b : Token}

theorem forRangeEnd_le (h : ¬(r.endBound.all fun e => decide (startingAt b < e.value)) = true) :
    forRangeEnd r ≤ startingAt b := by
  unfold forRangeEnd
  match he : r.endBound with
  | none => simp [he] at h
  | some e =>
    rw [he, Option.all_some, decide_eq_true_iff, not_lt] at h
    exact RingPosition.view_le_startingAt _ h

theorem cut_at (hr : r.isWrapAround = false) (hstart : startToken r < b)
    (hend : (r.endBound.all fun e => decide (startingAt b < e.value)) = true) :
    (ofBounds r.start (some ⟨startingAt b, false⟩)).isWrapAround = false ∧
      (ofBounds (some ⟨startingAt b, true⟩) r.endBound).isWrapAround = false ∧
      ∀ x, x ∈ r.points ↔ x ∈ (ofBounds r.start (some ⟨startingAt b, false⟩)).points ∨
        x ∈ (ofBounds (some ⟨startingAt b, true⟩) r.endBound).points := by
  have habove : ∀ s, r.start = some s → s.value < startingAt b := by
    intro s hs
    rw [startToken, hs] at hstart
    exact RingPosition.lt_of_token_lt (q := startingAt b) hstart
  have hbelow : ∀ e, r.endBound = some e → startingAt b < e.value := by
    intro e he
    rwa [he, Option.all_some, decide_eq_true_iff] at hend
  have hfirst : (ofBounds r.start (some ⟨startingAt b, false⟩)).isWrapAround = false :=
    isWrapAround_ofBounds_of_lt fun s hs e he => by
      cases he
      exact habove s hs
  have hsecond : (ofBounds (some ⟨startingAt b, true⟩) r.endBound).isWrapAround = false :=
    isWrapAround_ofBounds_of_lt fun s hs e he => by
      cases hs
      exact hbelow e he
  refine ⟨hfirst, hsecond, fun x => ?_⟩
  rw [mem_points_iff hr, mem_points_iff hfirst, mem_points_iff hsecond]
  simp only [WrappingInterval.start_ofBounds, WrappingInterval.endBound_ofBounds, mem_below_some,
    mem_above_some, Bool.false_eq_true, and_false, or_false, and_true]
  constructor
  · rintro ⟨hs, he⟩
    rcases lt_trichotomy x (startingAt b) with hlt | heq | hgt
    · exact .inl ⟨hs, hlt⟩
    · exact .inr ⟨.inr heq, he⟩
    · exact .inr ⟨.inl hgt, he⟩
  · rintro (⟨hs, hlt⟩ | ⟨hge, he⟩)
    · refine ⟨hs, ?_⟩
      match he : r.endBound with
      | none => exact mem_below_none
      | some e => exact mem_below_some.mpr (.inl (hlt.trans (hbelow e he)))
    · refine ⟨?_, he⟩
      match hs : r.start with
      | none => exact mem_above_none
      | some s =>
        exact mem_above_some.mpr (.inl ((habove s hs).trans_le (hge.elim le_of_lt ge_of_eq)))

theorem SplitsRange.cons {pieces : List (RangeAndShard K)}
    (h : SplitsRange σ (ofBounds (some ⟨startingAt b, true⟩) r.endBound) pieces)
    (hsecond : (ofBounds (some ⟨startingAt b, true⟩) r.endBound).isWrapAround = false)
    (hfirst : (ofBounds r.start (some ⟨startingAt b, false⟩)).isWrapAround = false)
    (hpoints : ∀ x, x ∈ r.points ↔ x ∈ (ofBounds r.start (some ⟨startingAt b, false⟩)).points ∨
        x ∈ (ofBounds (some ⟨startingAt b, true⟩) r.endBound).points)
    {s : ℕ} (howned : ∀ t ∈ tokensOf (ofBounds r.start (some ⟨startingAt b, false⟩)),
      σ.shardForReads t = s) :
    SplitsRange σ r (⟨ofBounds r.start (some ⟨startingAt b, false⟩), s⟩ :: pieces) where
  ordered := by
    refine ordered_cons.mpr ⟨hfirst, fun x hx y hy => ?_, h.ordered⟩
    rw [h.union_eq, mem_points_iff hsecond] at hy
    rw [mem_points_iff hfirst] at hx
    have hxb : x < startingAt b := by simpa [mem_below_some] using hx.2
    have hby : startingAt b ≤ y := by simpa [mem_above_some, le_iff_lt_or_eq, eq_comm] using hy.1
    exact hxb.trans_le hby
  union_eq := Set.ext fun x => by rw [List.map_cons, mem_union_cons, h.union_eq, hpoints]
  owned p hp := by
    rcases List.mem_cons.mp hp with rfl | hp
    · exact howned
    · exact h.owned p hp

theorem RangeSharder.next_cases (c : Cells σ) (r : PartitionRange K) :
    (RangeSharder.next σ ⟨r, false⟩ = (some ⟨r, σ.shardForReads (startToken r)⟩, ⟨r, true⟩) ∧
      (c.cell (startToken r) + 1 < c.count →
        forRangeEnd r ≤ startingAt (c.first (c.cell (startToken r) + 1)))) ∨
    ∃ b, c.cell (startToken r) + 1 < c.count ∧ b = c.first (c.cell (startToken r) + 1) ∧
      (r.endBound.all fun e => decide (startingAt b < e.value)) = true ∧
      RangeSharder.next σ ⟨r, false⟩ =
        (some ⟨ofBounds r.start (some ⟨startingAt b, false⟩), σ.shardForReads (startToken r)⟩,
          ⟨ofBounds (some ⟨startingAt b, true⟩) r.endBound, false⟩) := by
  rw [RangeSharder.next, if_neg Bool.false_ne_true, c.next_eq]
  by_cases hcount : c.cell (startToken r) + 1 < c.count
  · have hkey := c.first_ne_afterAllKeys (Nat.succ_pos _) hcount
    simp only [if_pos hcount]
    by_cases hend : (r.endBound.all fun e =>
        decide (startingAt (c.first (c.cell (startToken r) + 1)) < e.value)) = true
    · exact .inr ⟨_, hcount, rfl, hend, by simp [hend, hkey]⟩
    · exact .inl ⟨by simp [hend], fun _ => forRangeEnd_le hend⟩
  · exact .inl ⟨by simp [hcount], fun h => absurd h hcount⟩

theorem exists_splitsRange (c : Cells σ) (hr : r.isWrapAround = false) :
    ∃ pieces, Yields (fun st => some (RangeSharder.next σ st)) ⟨r, false⟩ pieces ∧
      SplitsRange σ r pieces := by
  induction hn : c.count - c.cell (startToken r) using Nat.strong_induction_on
    generalizing r with
  | _ n ih =>
    rcases RangeSharder.next_cases c r with ⟨hnext, hend⟩ | ⟨b, hcount, rfl, hend, hnext⟩
    · exact ⟨_, .step (congrArg some hnext) (RangeSharder.yields_nil_of_done σ rfl),
        splitsRange_self c hr hend⟩
    · obtain ⟨hfirst, hsecond, hpoints⟩ := cut_at hr (c.lt_first_next hcount) hend
      have hcell : c.cell (startToken (ofBounds (some ⟨startingAt
          (c.first (c.cell (startToken r) + 1)), true⟩) r.endBound)) =
            c.cell (startToken r) + 1 := c.cell_first (Nat.succ_pos _) hcount
      obtain ⟨pieces, hyields, hsplit⟩ := ih _ (by omega) hsecond rfl
      refine ⟨_, .step (congrArg some hnext) hyields,
        hsplit.cons hsecond hfirst hpoints fun t ht => ?_⟩
      exact owned_of_end_le (r := ofBounds r.start (some ⟨startingAt
        (c.first (c.cell (startToken r) + 1)), false⟩)) c
        (fun _ => RingPosition.view_le_startingAt false le_rfl) ht

end Split

/-! ### `is_single_shard` -/

def isLast (t : Token) : Bool := t = bias (2 ^ 64 - 1)

/-- `first_token`, of the position at which a range starts. -/
def firstTokenOf (start : RingPositionView K) : Token :=
  match ofLex start with
  | (.key data, some none) => if isLast (.key data) then .key data else nextToken (.key data)
  | (t, _) => t

def firstToken (r : PartitionRange K) : Token := firstTokenOf (forRangeStart r)

def isSingleShard (σ : Sharder) (r : PartitionRange K) : Option ℕ :=
  let shard := σ.shardForReads (firstToken r)
  if r.singular then some shard
  else
    match σ.nextShardForReads (firstToken r) with
    | some (_, boundary) => if startingAt boundary < forRangeEnd r then none else some shard
    | none => some shard

/-- Neighbouring cells have different shards. -/
def Cells.Separated {σ : Sharder} (c : Cells σ) : Prop :=
  ∀ i, i + 1 < c.count → c.shard (i + 1) ≠ c.shard i

section Single

variable {σ : Sharder} (c : Cells σ) {r : PartitionRange K}

theorem firstTokenOf_cases (v : RingPositionView K) :
    (firstTokenOf v = v.token ∧ (v < endingAt v.token ∨
      v.token = .beforeAllKeys ∨ bias (2 ^ 64 - 1) ≤ v.token)) ∨
    ∃ u, u + 1 < 2 ^ 64 ∧ firstTokenOf v = bias (u + 1) ∧ v = endingAt (bias u) := by
  match v with
  | (.beforeAllKeys, _) => exact .inl ⟨rfl, .inr (.inl rfl)⟩
  | (.afterAllKeys, _) => exact .inl ⟨rfl, .inr (.inr (Token.le_afterAllKeys _))⟩
  | (.key data, none) =>
    exact .inl ⟨rfl, .inl (Prod.Lex.lt_iff.mpr (.inr ⟨rfl, bot_lt_top⟩))⟩
  | (.key data, some (some k)) =>
    exact .inl ⟨rfl, .inl (Prod.Lex.lt_iff.mpr (.inr ⟨rfl,
      WithBot.coe_lt_coe.mpr (WithTop.coe_lt_top k)⟩))⟩
  | (.key data, some none) =>
    have hdef : firstTokenOf (K := K) (toLex (.key data, some none)) =
        if isLast (.key data) then .key data else nextToken (.key data) := rfl
    by_cases hlast : isLast (.key data) = true
    · rw [if_pos hlast] at hdef
      exact .inl ⟨hdef, .inr (.inr (of_decide_eq_true hlast).ge)⟩
    · rw [if_neg hlast, ← bias_unbias data, nextToken_bias] at hdef
      have hlt := unbias_lt data
      have hne : unbias data ≠ 2 ^ 64 - 1 := fun heq =>
        hlast (decide_eq_true ((bias_unbias data).symm.trans (congrArg bias heq)))
      refine .inr ⟨unbias data, by omega, ?_, ?_⟩
      · rw [← hdef, bias_unbias]
        rfl
      · rw [bias_unbias]
        rfl

omit [LinearOrder K] in
theorem firstTokenOf_startingAt (t : Token) :
    firstTokenOf (startingAt t : RingPositionView K) = t := by
  match t with
  | .beforeAllKeys | .key _ | .afterAllKeys => rfl

theorem firstToken_le {t : Token} (ht : t ∈ tokensOf r) : firstToken r ≤ t := by
  rcases firstTokenOf_cases (forRangeStart r) with ⟨hfirst, -⟩ | ⟨u, hu, hfirst, hstart⟩
  · rw [firstToken, hfirst]
    exact RingPosition.token_le_of_lt_endingAt ht.2.2
  · rw [firstToken, hfirst]
    have hlt : bias u < t := by
      refine lt_of_le_of_ne (RingPosition.token_le_of_lt_endingAt (hstart ▸ ht.2.2)) ?_
      rintro rfl
      exact absurd ht.2.2 (hstart ▸ lt_irrefl _)
    exact (Token.bias_covBy hu).ge_of_gt hlt

theorem startToken_le_firstToken (r : PartitionRange K) : startToken r ≤ firstToken r := by
  rw [← token_forRangeStart r, firstToken]
  rcases firstTokenOf_cases (forRangeStart r) with ⟨hfirst, -⟩ | ⟨u, hu, hfirst, hstart⟩
  · exact hfirst.ge
  · rw [hfirst, hstart]
    exact (Token.bias_covBy hu).le

theorem exists_token_lt {v : ℕ} (hpos : 0 < v) (hv : v < 2 ^ 64) (hlt : firstToken r < bias v)
    (hend : startingAt (bias v) < forRangeEnd r) :
    ∃ t ∈ tokensOf r, firstToken r ≤ t ∧ t < bias v := by
  have hmem {u : ℕ} (hu : bias u < bias v) (hstart : forRangeStart r < endingAt (bias u)) :
      bias u ∈ tokensOf r :=
    ⟨⟨_, rfl⟩, (RingPosition.startingAt_lt_startingAt.mpr hu).trans hend, hstart⟩
  rw [firstToken] at hlt ⊢
  rcases firstTokenOf_cases (forRangeStart r) with
    ⟨hfirst, hstart⟩ | ⟨u, hu, hfirst, hstart⟩
  · rw [hfirst] at hlt ⊢
    rcases (forRangeStart r).token.cases_bias with hbefore | ⟨u, hu, hkey⟩ | hafter
    · -- no key is before the one with the number zero
      refine ⟨bias 0, hmem ((Token.bias_lt_bias (by decide) hv).mpr hpos) ?_, ?_,
        (Token.bias_lt_bias (by decide) hv).mpr hpos⟩
      · exact RingPosition.lt_of_token_lt (hbefore ▸ Token.beforeAllKeys_lt_bias 0)
      · exact hbefore ▸ (Token.beforeAllKeys_lt_bias 0).le
    · rw [hkey] at hlt hstart ⊢
      refine ⟨bias u, hmem hlt ?_, le_rfl, hlt⟩
      rcases hstart with hstart | hbefore | hlast
      · exact hstart
      · exact absurd hbefore nofun
      · have hgt := hlast.trans_lt hlt
        rw [Token.bias_lt_bias (by decide) hv] at hgt
        omega
    · exact absurd (hafter ▸ hlt) (not_lt.mpr (Token.le_afterAllKeys _))
  · rw [hfirst] at hlt ⊢
    refine ⟨bias (u + 1), hmem hlt ?_, le_rfl, hlt⟩
    rw [hstart]
    exact RingPosition.lt_of_token_lt (p := endingAt (bias u)) (q := endingAt (bias (u + 1)))
      (Token.bias_covBy hu).lt

theorem eq_startToken_of_singular (hsing : r.singular = true) {t : Token} (ht : t ∈ tokensOf r) :
    t = startToken r := by
  obtain ⟨v, hv⟩ := r.singular_start hsing
  have hend : forRangeEnd r = RingPosition.view v true := by
    simp [forRangeEnd, WrappingInterval.endBound, hsing, hv]
  have hstart : startToken r = RingPosition.token v := by simp [startToken, hv]
  refine le_antisymm ?_ (startToken_le ht)
  have hlt := ht.2.1
  rw [hend] at hlt
  exact hstart ▸ RingPosition.token_le_of_le hlt.le

theorem isSome_isSingleShard_iff (hsep : c.Separated) (r : PartitionRange K) :
    (isSingleShard σ r).isSome = true ↔ ∃ s, ∀ t ∈ tokensOf r, σ.shardForReads t = s := by
  unfold isSingleShard
  split
  next hsing =>
    refine iff_of_true rfl ⟨σ.shardForReads (startToken r), fun t ht => ?_⟩
    rw [eq_startToken_of_singular hsing ht]
  next =>
    rw [c.next_eq]
    by_cases hcount : c.cell (firstToken r) + 1 < c.count
    · obtain ⟨v, hpos, hv, hb⟩ := c.first_eq_bias (Nat.succ_pos _) hcount
      have hlt := c.lt_first_next hcount
      simp only [if_pos hcount]
      split
      next hend =>
        -- the first cell has a token of the range, and so does the one after it
        refine iff_of_false Bool.false_ne_true fun ⟨s, hall⟩ => ?_
        obtain ⟨t, ht, hle, htb⟩ := exists_token_lt hpos hv (hb ▸ hlt) (hb ▸ hend)
        have hboundary : c.first (c.cell (firstToken r) + 1) ∈ tokensOf r := by
          refine ⟨hb ▸ ⟨_, rfl⟩, hend, RingPosition.lt_of_token_lt ?_⟩
          rw [token_forRangeStart, RingPosition.token_endingAt]
          exact (startToken_le_firstToken r).trans_lt hlt
        have hcell := c.cell_eq_of_lt_next hle fun _ => hb ▸ htb
        have h₁ := hall t ht
        have h₂ := hall _ hboundary
        rw [c.shardForReads_eq, hcell] at h₁
        rw [c.shardForReads_eq, c.cell_first (Nat.succ_pos _) hcount] at h₂
        exact hsep _ hcount (h₂.trans h₁.symm)
      next hend =>
        refine iff_of_true rfl ⟨σ.shardForReads (firstToken r), fun t ht => ?_⟩
        have hcell := c.cell_eq_of_lt_next (firstToken_le ht) fun _ =>
          RingPosition.startingAt_lt_startingAt.mp (ht.2.1.trans_le (not_lt.mp hend))
        rw [c.shardForReads_eq, c.shardForReads_eq, hcell]
    · simp only [if_neg hcount]
      refine iff_of_true rfl ⟨σ.shardForReads (firstToken r), fun t ht => ?_⟩
      have hcell := c.cell_eq_of_lt_next (firstToken_le ht) fun h => absurd h hcount
      rw [c.shardForReads_eq, c.shardForReads_eq, hcell]

theorem exists_isSingleShard_none {i : ℕ} (hcount : i + 1 < c.count)
    (hsame : c.shard (i + 1) = c.shard i) :
    ∃ r : PartitionRange K, r.isWrapAround = false ∧ isSingleShard σ r = none ∧
      ∃ s, ∀ t ∈ tokensOf r, σ.shardForReads t = s := by
  obtain ⟨u, hcov, hcell⟩ := c.exists_covBy_first hcount
  have hstart : startingAt (K := K) (bias u) < endingAt (c.first (i + 1)) :=
    RingPosition.lt_of_token_lt (p := startingAt (bias u)) (q := endingAt (c.first (i + 1))) hcov.lt
  have hlt : startingAt (K := K ×ₗ Bool) (c.first (i + 1)) < endingAt (c.first (i + 1)) :=
    Prod.Lex.lt_iff.mpr (.inr ⟨rfl, bot_lt_top⟩)
  refine ⟨ofBounds (some ⟨startingAt (bias u), true⟩) (some ⟨endingAt (c.first (i + 1)), true⟩),
    ?_, ?_, c.shard i, fun t ht => ?_⟩
  · refine isWrapAround_ofBounds_of_lt fun s hs e he => ?_
    cases hs
    cases he
    exact hstart
  · have hfirst : firstToken (K := K) (ofBounds (some ⟨startingAt (bias u), true⟩)
        (some ⟨endingAt (c.first (i + 1)), true⟩)) = bias u := firstTokenOf_startingAt (bias u)
    have hend : forRangeEnd (K := K) (ofBounds (some ⟨startingAt (bias u), true⟩)
        (some ⟨endingAt (c.first (i + 1)), true⟩)) = endingAt (c.first (i + 1)) := rfl
    unfold isSingleShard
    rw [hfirst, hend, c.next_eq, hcell, if_pos hcount]
    exact if_pos hlt
  · have hle : bias u ≤ t := startToken_le ht
    have hge : t ≤ c.first (i + 1) := RingPosition.token_le_of_le (q := endingAt _) ht.2.1.le
    have h₁ := c.cell_mono hle
    have h₂ := c.cell_mono hge
    rw [c.cell_first (Nat.succ_pos i) hcount] at h₂
    rw [hcell] at h₁
    rw [c.shardForReads_eq]
    rcases Nat.le_and_le_add_one_iff.mp ⟨h₁, h₂⟩ with h | h
    · rw [h]
    · rw [h, hsame]

end Single

end Scylla.Dht
