import Scylla.Dht.Token
import Scylla.Keys.CompoundCompat

/-!
# The order of ring positions

Positions on the ring are compared by several functions: keys with keys, keys with positions, views
of positions with each other and views with the keys of sstables, which are bytes. All of them give
the order of views: by token, by the side of the keys of the token that a view without key is on, by
the legacy representation of the key, and by weight.
-/

namespace Scylla.Keys

open Dht (Token)
open Mutation

variable {isSingular : Bool}

/-- `decorated_key`: a partition key with its token. -/
structure DecoratedKey (isSingular : Bool) where
  token : Token
  key : CompoundKey isSingular

/-- Before or after all keys with a token. -/
inductive TokenBound where
  | start
  | stop

/-- `relation_to_keys`. -/
def TokenBound.toInt : TokenBound → ℤ
  | start => -1
  | stop => 1

/-- `ring_position`: a key, or a bound of a token. -/
structure RingPosition (isSingular : Bool) where
  token : Token
  /-- Valid without key. -/
  tokenBound : TokenBound
  key : Option (CompoundKey isSingular)

/-- `ring_position_view`. Without key, the weight is a bound of the token. -/
structure RingPositionView (isSingular : Bool) where
  token : Token
  key : Option (CompoundKey isSingular)
  weight : ℤ
  weight_ne : key = none → weight ≠ 0

namespace DecoratedKey

/-- `equal`. -/
def equal (k other : DecoratedKey isSingular) : Bool :=
  if k.token = other.token then legacyTriCompare k.key other.key = .eq else false

/-- `tri_compare`, for two keys. -/
def triCompare (k other : DecoratedKey isSingular) : Ordering :=
  (k.token.triCompare other.token).then (legacyTriCompare k.key other.key)

/-- `tri_compare`, for a key and a position. -/
def triComparePosition (k : DecoratedKey isSingular) (other : RingPosition isSingular) : Ordering :=
  (k.token.triCompare other.token).then
    (match other.key with
    | some key => legacyTriCompare k.key key
    | none => compare 0 other.tokenBound.toInt)

/-- `less_compare`, and `less_comparator` for two keys. -/
def lessCompare (k other : DecoratedKey isSingular) : Bool := k.triCompare other = .lt

/-- `less_compare`, and `less_comparator` for a key and a position. -/
def lessComparePosition (k : DecoratedKey isSingular) (other : RingPosition isSingular) : Bool :=
  k.triComparePosition other = .lt

/-- `less_comparator`, for a position and a key. -/
def positionLess (lhs : RingPosition isSingular) (rhs : DecoratedKey isSingular) : Bool :=
  rhs.triComparePosition lhs = .gt

end DecoratedKey

namespace RingPositionView

/-- The view of a position, or right after it. -/
def ofPosition (pos : RingPosition isSingular) (after : Bool) : RingPositionView isSingular where
  token := pos.token
  key := pos.key
  weight := if pos.key.isSome then after.toNat else pos.tokenBound.toInt
  weight_ne h := by cases hb : pos.tokenBound <;> simp [h, TokenBound.toInt]

/-- The view before a key, at it or after it. -/
def ofKey (k : DecoratedKey isSingular) (weight : ℤ) : RingPositionView isSingular :=
  ⟨k.token, some k.key, weight, nofun⟩

/-- `ring_position_tri_compare`. -/
def triCompare (lh rh : RingPositionView isSingular) : Ordering :=
  (lh.token.triCompare rh.token).then
    (match lh.key, rh.key with
    | some k, some k' => (legacyTriCompare k k').then (compare (lh.weight - rh.weight) 0)
    | none, none => compare (lh.weight - rh.weight) 0
    | none, some _ => if lh.weight > 0 then .gt else .lt
    | some _, none => if rh.weight > 0 then .lt else .gt)

/-- `ring_position_less_comparator`. -/
def less (lh rh : RingPositionView isSingular) : Bool := lh.triCompare rh = .lt

/-- `ring_position_comparator_for_sstables`, for the token and the bytes of a key. -/
def triCompareSstable (lh : RingPositionView isSingular) (token : Token) (key : Bytes) : Ordering :=
  (lh.token.triCompare token).then
    (match lh.key with
    | some k => (compareUnsigned key (toLegacy k)).swap.then (compare lh.weight 0)
    | none => compare lh.weight 0)

/-- The same comparison with the key of an sstable on the left. -/
def sstableTriCompare (token : Token) (key : Bytes) (rh : RingPositionView isSingular) : Ordering :=
  (rh.triCompareSstable token key).swap

/-- On which side of the keys of its token a view is. -/
private def side (v : RingPositionView isSingular) : ℤ :=
  if v.key.isSome then 0 else if v.weight > 0 then 1 else -1

/-- The legacy representation of the key, if there is one. -/
private def bytes (v : RingPositionView isSingular) : Bytes := (v.key.map toLegacy).getD []

private theorem compareUnsigned_eq_compare (v w : Bytes) : compareUnsigned v w = compare v w := by
  fun_induction compareUnsigned v w with
  | case1 | case2 | case3 => rfl
  | case4 a v b w h => rw [List.compare_cons_cons, compare_lt_iff_lt.mpr h, Ordering.lt_then]
  | case5 a v b w _ h => rw [List.compare_cons_cons, compare_gt_iff_gt.mpr h, Ordering.gt_then]
  | case6 a v b w h h' ih =>
    rw [List.compare_cons_cons, compare_eq_iff_eq.mpr (le_antisymm (not_lt.mp h') (not_lt.mp h)), ih,
      Ordering.eq_then]

/-- The order of views is lexicographic. -/
private theorem triCompare_eq (a b : RingPositionView isSingular) :
    a.triCompare b = compareLex (compareOn token) (compareLex (compareOn side)
      (compareLex (compareOn bytes) (compareOn weight))) a b := by
  have hweight (x y : ℤ) : compare (x - y) 0 = compare x y := by
    rcases lt_trichotomy x y with h | rfl | h
    · rw [compare_lt_iff_lt.mpr h, compare_lt_iff_lt]
      omega
    · simp
    · rw [compare_gt_iff_gt.mpr h, compare_gt_iff_gt]
      omega
  rw [triCompare, Token.triCompare_eq_compare, hweight]
  change _ = (compare a.token b.token).then ((compare a.side b.side).then
    ((compare a.bytes b.bytes).then (compare a.weight b.weight)))
  congr 1
  cases hka : a.key with
  | some k =>
    cases hkb : b.key with
    | some k' => simp [side, bytes, hka, hkb, legacyTriCompare_eq, compareUnsigned_eq_compare]
    | none =>
      by_cases hw : b.weight > 0 <;> simp [side, hka, hkb, hw] <;> rfl
  | none =>
    cases hkb : b.key with
    | some k' => by_cases hw : a.weight > 0 <;> simp [side, hka, hkb, hw] <;> rfl
    | none =>
      have ha := a.weight_ne hka
      have hb := b.weight_ne hkb
      simp only [side, bytes, hka, hkb, Option.isSome_none, Bool.false_eq_true, if_false,
        Std.ReflCmp.compare_self, Ordering.eq_then]
      rcases lt_trichotomy a.weight b.weight with h | h | h
      · rw [compare_lt_iff_lt.mpr h]
        split_ifs <;> first | rfl | omega
      · simp [h]
      · rw [compare_gt_iff_gt.mpr h]
        split_ifs <;> first | rfl | omega

private theorem bytes_of_serializeValue {k : CompoundKey isSingular} {c : Composite}
    (h : serializeValue k.components (!isSingular) .none = .ok c) : c.bytes = toLegacy k := by
  rw [toLegacy_eq]
  cases isSingular with
  | false =>
    cases hk : k.components with
    | nil =>
      rw [hk] at h
      cases h
      rfl
    | cons first values =>
      rw [hk] at h
      obtain ⟨-, -, vs, v, hvs, rfl⟩ := Composite.serializeValue_ok h
      simp [hvs, Eoc.toByte]
  | true =>
    cases hsize : serializedSize k.components false with
    | error e =>
      rw [serializeValue, Bool.not_true, hsize] at h
      cases h
    | ok n =>
      rw [serializeValue, Bool.not_true, hsize] at h
      cases h
      rfl

/-- All comparisons of positions on the ring are one total preorder. -/
theorem triCompare_ring_spec (isSingular : Bool) :
    (Std.TransCmp fun a b : RingPositionView isSingular => a.triCompare b) ∧
    (∀ a b : RingPositionView isSingular, a.less b = true ↔ a.triCompare b = .lt) ∧
    (∀ k k' : DecoratedKey isSingular, k.triCompare k' = (ofKey k 0).triCompare (ofKey k' 0) ∧
      (k.equal k' = true ↔ (ofKey k 0).triCompare (ofKey k' 0) = .eq) ∧
      (k.lessCompare k' = true ↔ (ofKey k 0).triCompare (ofKey k' 0) = .lt)) ∧
    (∀ (k : DecoratedKey isSingular) (pos : RingPosition isSingular),
      k.triComparePosition pos = (ofKey k 0).triCompare (ofPosition pos false) ∧
      (k.lessComparePosition pos = true ↔
        (ofKey k 0).triCompare (ofPosition pos false) = .lt) ∧
      (DecoratedKey.positionLess pos k = true ↔
        (ofPosition pos false).triCompare (ofKey k 0) = .lt)) ∧
    (∀ (v : RingPositionView isSingular) (k : DecoratedKey isSingular) (c : Composite),
      serializeValue k.key.components (!isSingular) .none = .ok c →
        v.triCompareSstable k.token c.bytes = v.triCompare (ofKey k 0) ∧
          sstableTriCompare k.token c.bytes v = (ofKey k 0).triCompare v) ∧
    ∀ (k : DecoratedKey isSingular) (w : ℤ), (ofKey k w).triCompare (ofKey k 0) = compare w 0 ∧
      ∀ v : RingPositionView isSingular,
        (∀ k' ∈ v.key, k.triCompare ⟨v.token, k'⟩ ≠ .eq) →
          (ofKey k w).triCompare v = (ofKey k 0).triCompare v := by
  have htrans : Std.TransCmp fun a b : RingPositionView isSingular => a.triCompare b := by
    rw [funext₂ triCompare_eq]
    infer_instance
  refine ⟨htrans, fun a b => decide_eq_true_iff, fun k k' => ?_, fun k pos => ?_, fun v k c h => ?_,
    fun k w => ⟨?_, fun v hv => ?_⟩⟩
  · have heq : k.triCompare k' = (ofKey k 0).triCompare (ofKey k' 0) := by
      simp [DecoratedKey.triCompare, triCompare, ofKey]
    rw [← heq]
    refine ⟨rfl, ?_, decide_eq_true_iff⟩
    rw [DecoratedKey.equal, DecoratedKey.triCompare, Ordering.then_eq_eq,
      Token.triCompare_eq_compare, compare_eq_iff_eq]
    split_ifs with htoken <;> simp [htoken]
  · have heq : k.triComparePosition pos = (ofKey k 0).triCompare (ofPosition pos false) := by
      cases hkey : pos.key with
      | some key => simp [DecoratedKey.triComparePosition, triCompare, ofKey, ofPosition, hkey]
      | none =>
        cases hb : pos.tokenBound <;>
          simp [DecoratedKey.triComparePosition, triCompare, ofKey, ofPosition, hkey, hb,
            TokenBound.toInt] <;> rfl
    rw [htrans.eq_swap (a := ofPosition pos false), Ordering.swap_eq_lt, ← heq]
    exact ⟨rfl, decide_eq_true_iff, decide_eq_true_iff⟩
  · suffices heq : v.triCompareSstable k.token c.bytes = v.triCompare (ofKey k 0) by
      refine ⟨heq, ?_⟩
      rw [sstableTriCompare, heq]
      exact htrans.eq_swap.symm
    rw [triCompareSstable, bytes_of_serializeValue h, triCompare]
    cases hkey : v.key with
    | some key =>
      have hswap : (compare (toLegacy k.key) (toLegacy key)).swap = _ := Std.OrientedOrd.eq_swap.symm
      simp [ofKey, legacyTriCompare_eq, compareUnsigned_eq_compare, hswap]
    | none =>
      rcases lt_or_gt_of_ne (v.weight_ne hkey) with hw | hw
      · simp [ofKey, compare_lt_iff_lt.mpr hw, hw.not_gt]
      · simp [ofKey, compare_gt_iff_gt.mpr hw, hw]
  · simp [triCompare, ofKey, legacyTriCompare_eq, Token.triCompare_eq_compare,
      compareUnsigned_eq_compare]
  · simp only [triCompare, ofKey]
    cases hkey : v.key with
    | some key =>
      dsimp only
      cases htoken : k.token.triCompare v.token with
      | lt | gt => rfl
      | eq =>
        cases hlegacy : legacyTriCompare k.key key with
        | lt | gt => rfl
        | eq => exact absurd (by rw [DecoratedKey.triCompare, htoken, hlegacy]; rfl) (hv key hkey)
    | none => rfl

end RingPositionView

end Scylla.Keys
