import Scylla.Mutation.Collection

/-!
# Positions in a partition

A position names a region of the partition and, in the clustered region, a prefix of the clustering
key with a weight: before all keys with the prefix, after all of them, or at the row of a full key.
Prefixes are compared up to the length of the shorter one; where they agree, a longer one lies
between the two weights of the shorter one.
-/

namespace Scylla.Mutation

/-- `reversed`, for types. -/
def KeyType.reversed (t : KeyType) : KeyType where
  cmp a b := t.cmp b a
  trans := { eq_swap := t.trans.eq_swap, isLE_trans := fun h h' => t.trans.isLE_trans h' h }

inductive BoundWeight where
  | beforeAllPrefixed
  | equal
  | afterAllPrefixed

def BoundWeight.toInt : BoundWeight → ℤ
  | beforeAllPrefixed => -1
  | equal => 0
  | afterAllPrefixed => 1

def BoundWeight.reversed : BoundWeight → BoundWeight
  | beforeAllPrefixed => afterAllPrefixed
  | equal => equal
  | afterAllPrefixed => beforeAllPrefixed

inductive BoundKind where
  | exclEnd
  | inclStart
  | inclEnd
  | exclStart

def BoundKind.weight : BoundKind → ℤ
  | exclEnd => -2
  | inclStart => -1
  | inclEnd => 1
  | exclStart => 2

def BoundKind.positionWeight : BoundKind → BoundWeight
  | exclEnd | inclStart => .beforeAllPrefixed
  | inclEnd | exclStart => .afterAllPrefixed

/-- A bound of a range of keys, for a schema whose clustering columns have the types `s`. -/
structure BoundView (s : List KeyType) where
  keyPrefix : List Bytes
  kind : BoundKind
  size_le : keyPrefix.length ≤ s.length

/-- The positions that occur in partitions: the one of a row has a full key. -/
inductive PositionInPartition (s : List KeyType) where
  | partitionStart
  | staticRow
  | clustered (ck : List Bytes) (boundWeight : BoundWeight) (size_le : ck.length ≤ s.length)
    (full : boundWeight = .equal → ck.length = s.length)
  | partitionEnd

def prefixEqualityTriCompare : List KeyType → List Bytes → List Bytes → Ordering
  | t :: types, a :: as, b :: bs => (t.cmp a b).then (prefixEqualityTriCompare types as bs)
  | _, _, _ => .eq

/-- `bound_view::tri_compare`, for prefixes and weights. -/
def boundTriCompare (s : List KeyType) (p₁ : List Bytes) (w₁ : ℤ) (p₂ : List Bytes) (w₂ : ℤ) :
    Ordering :=
  (prefixEqualityTriCompare s p₁ p₂).then
    (compare (if p₁.length ≤ p₂.length then 2 * w₁ else 1)
      (if p₂.length ≤ p₁.length then 2 * w₂ else 1))

variable {s : List KeyType}

def BoundView.triCompare (a b : BoundView s) : Ordering :=
  boundTriCompare s a.keyPrefix a.kind.weight b.keyPrefix b.kind.weight

/-- `bound_view::tri_compare`, for a bound and a key. -/
def BoundView.triCompareKey (b : BoundView s) (k : List Bytes) : Ordering :=
  boundTriCompare s b.keyPrefix b.kind.weight k 0

namespace PositionInPartition

def forKey (k : List Bytes) (hk : k.length = s.length) : PositionInPartition s :=
  clustered k .equal hk.le fun _ => hk

/-- The position of a bound, made with `range_tag_t`. -/
def ofBound (b : BoundView s) : PositionInPartition s :=
  clustered b.keyPrefix b.kind.positionWeight b.size_le fun h => by
    cases hk : b.kind <;> rw [hk] at h <;> cases h

def rank : PositionInPartition s → ℕ
  | partitionStart => 0
  | staticRow => 1
  | clustered .. => 2
  | partitionEnd => 3

def triCompare (p q : PositionInPartition s) : Ordering :=
  if p.rank ≠ q.rank then compare p.rank q.rank
  else
    match p, q with
    | clustered a w _ _, clustered b w' _ _ => boundTriCompare s a w.toInt b w'.toInt
    | _, _ => .eq

/-- The same position for the schema with the reversed order of clustering keys. -/
def reversed : PositionInPartition s → PositionInPartition (s.map KeyType.reversed)
  | partitionStart => partitionStart
  | staticRow => staticRow
  | clustered k w hle hfull => clustered k w.reversed (by simpa using hle) fun h => by
      rw [List.length_map]
      cases w <;> first | exact hfull rfl | cases h
  | partitionEnd => partitionEnd

/-- On which side of a position a full key lies. -/
def cut (k : List Bytes) : PositionInPartition s → Ordering
  | partitionStart | staticRow => .gt
  | clustered ck w _ _ => (prefixEqualityTriCompare s k ck).then (compare 0 w.toInt)
  | partitionEnd => .lt

end PositionInPartition

/-! ### The order of prefixes -/

/-- What decides at the first component: a component lies between the weights. -/
private def headWeight (x : List Bytes × ℤ) : ℤ := if x.1 = [] then 2 * x.2 else 1

/-- The comparison of prefixes with weights, component by component. -/
private def lexCompare : List KeyType → List Bytes × ℤ → List Bytes × ℤ → Ordering
  | [] => compareOn headWeight
  | t :: types => compareLex (compareOn headWeight)
      (compareLex (fun x y => t.cmp (x.1.headD []) (y.1.headD []))
        fun x y => lexCompare types (x.1.tail, x.2) (y.1.tail, y.2))

private theorem transCmp_comap {α β : Type*} {cmp : β → β → Ordering} (h : Std.TransCmp cmp)
    (f : α → β) : Std.TransCmp fun a b => cmp (f a) (f b) where
  eq_swap := h.eq_swap
  isLE_trans := h.isLE_trans

private theorem transCmp_lexCompare : ∀ types, Std.TransCmp (lexCompare types)
  | [] => inferInstanceAs (Std.TransCmp (compareOn headWeight))
  | t :: types => by
    have hhead := transCmp_comap t.trans fun x : List Bytes × ℤ => x.1.headD []
    have htail := transCmp_comap (transCmp_lexCompare types)
      fun x : List Bytes × ℤ => (x.1.tail, x.2)
    exact inferInstanceAs (Std.TransCmp (compareLex _ (compareLex _ _)))

private theorem then_of_ne {o o' : Ordering} (h : o ≠ .eq) : o.then o' = o := by
  cases o <;> first | rfl | exact absurd rfl h

private theorem boundTriCompare_eq_lexCompare {p₁ p₂ : List Bytes} (w₁ w₂ : ℤ)
    (h₁ : p₁.length ≤ s.length) (h₂ : p₂.length ≤ s.length) :
    boundTriCompare s p₁ w₁ p₂ w₂ = lexCompare s (p₁, w₁) (p₂, w₂) := by
  induction s generalizing p₁ p₂ with
  | nil =>
    rw [List.length_nil, Nat.le_zero, List.length_eq_zero_iff] at h₁ h₂
    subst h₁ h₂
    rfl
  | cons t types ih =>
    have hne (w : ℤ) : compare (2 * w) 1 ≠ .eq ∧ compare 1 (2 * w) ≠ .eq := by
      simp only [ne_eq, compare_eq_iff_eq]
      omega
    have hhead : t.cmp [] [] = .eq := Std.ReflCmp.compare_self
    have hrest : lexCompare types (p₁.tail, w₁) (p₂.tail, w₂) = _ :=
      (ih (by grind) (by grind)).symm
    cases p₁ <;> cases p₂ <;> simp only [List.tail_nil, List.tail_cons] at hrest <;>
      simp [boundTriCompare, prefixEqualityTriCompare, lexCompare, compareLex, compareOn, headWeight,
        then_of_ne (hne _).1, then_of_ne (hne _).2, hrest, hhead, Ordering.then_assoc]

private theorem prefixEqualityTriCompare_reversed (a b : List Bytes) :
    prefixEqualityTriCompare (s.map KeyType.reversed) a b = prefixEqualityTriCompare s b a := by
  induction s generalizing a b with
  | nil => rfl
  | cons t types ih =>
    cases a <;> cases b <;> simp [prefixEqualityTriCompare, ih, KeyType.reversed]

/-! ### The order of positions -/

private theorem BoundKind.weight_cases (k : BoundKind) :
    k.positionWeight.toInt = -1 ∧ k.weight < 0 ∨ k.positionWeight.toInt = 1 ∧ 0 < k.weight := by
  cases k <;> decide

private theorem compare_congr {a b c d : ℤ} (hlt : a < b ↔ c < d) (hgt : b < a ↔ d < c) :
    compare a b = compare c d := by
  cases h : compare c d with
  | lt => exact compare_lt_iff_lt.mpr (hlt.mpr (compare_lt_iff_lt.mp h))
  | eq =>
    rw [compare_eq_iff_eq] at h ⊢
    omega
  | gt => exact compare_gt_iff_gt.mpr (hgt.mpr (compare_gt_iff_gt.mp h))

namespace PositionInPartition

private def key : PositionInPartition s → List Bytes × ℤ
  | clustered k w _ _ => (k, w.toInt)
  | _ => ([], 0)

private theorem triCompare_eq (p q : PositionInPartition s) :
    p.triCompare q = (compare p.rank q.rank).then (lexCompare s p.key q.key) := by
  have := transCmp_lexCompare s
  have hself : lexCompare s ([], 0) ([], 0) = .eq := Std.ReflCmp.compare_self
  cases p <;> cases q <;> first | exact hself.symm | rfl |
    exact boundTriCompare_eq_lexCompare _ _ ‹_› ‹_›

instance : Std.TransCmp (triCompare (s := s)) := by
  have hkey := transCmp_comap (transCmp_lexCompare s) (key (s := s))
  have heq : triCompare (s := s) = compareLex (compareOn rank) fun p q =>
      lexCompare s p.key q.key := funext₂ triCompare_eq
  rw [heq]
  infer_instance

private theorem triCompare_forKey {k : List Bytes} (hk : k.length = s.length)
    (p : PositionInPartition s) : (forKey k hk).triCompare p = p.cut k := by
  cases p with
  | clustered ck w hle hfull =>
    refine congrArg (Ordering.then (prefixEqualityTriCompare s k ck)) (compare_congr ?_ ?_) <;>
      cases w <;> simp [BoundWeight.toInt] <;> grind
  | partitionStart | staticRow | partitionEnd => rfl

variable {p q : PositionInPartition s}

private theorem triCompare_reversed (h : p.rank = q.rank) :
    q.reversed.triCompare p.reversed = p.triCompare q := by
  cases p with
  | clustered k w hle hfull =>
    cases q with
    | clustered k' w' hle' hfull' =>
      refine congrArg₂ Ordering.then (prefixEqualityTriCompare_reversed k' k)
        (compare_congr ?_ ?_) <;>
        cases w <;> cases w' <;> simp [BoundWeight.toInt, BoundWeight.reversed] <;> grind
    | partitionStart | staticRow | partitionEnd => cases h
  | partitionStart | staticRow | partitionEnd => cases q <;> first | rfl | cases h

private theorem triCompare_reversed_of_ne (h : p.rank ≠ q.rank) :
    p.reversed.triCompare q.reversed = p.triCompare q := by
  cases p <;> cases q <;> first | rfl | exact absurd rfl h

private theorem triCompareKey_eq (b : BoundView s) {k : List Bytes} (hk : k.length = s.length) :
    b.triCompareKey k = (ofBound b).triCompare (forKey k hk) := by
  have hw := b.kind.weight_cases
  have hle := b.size_le
  have h0 : BoundWeight.equal.toInt = 0 := rfl
  refine congrArg (Ordering.then (prefixEqualityTriCompare s b.keyPrefix k))
    (compare_congr ?_ ?_) <;> rw [h0] <;> split_ifs <;> grind

private theorem triCompare_of_ofBound {a b : BoundView s}
    (h : (ofBound a).triCompare (ofBound b) = .lt) : a.triCompare b = .lt := by
  have hw := a.kind.weight_cases
  have hw' := b.kind.weight_cases
  change boundTriCompare _ _ _ _ _ = _ at h
  simp only [boundTriCompare, BoundView.triCompare, Ordering.then_eq_lt, compare_lt_iff_lt] at h ⊢
  refine h.imp_right fun ⟨heq, hlt⟩ => ⟨heq, ?_⟩
  split_ifs at hlt ⊢ <;> grind

/-- Positions are totally preordered, as the bounds they come from are; equal positions cut the full
keys at the same place, and reversal turns the order of each region around. -/
theorem triCompare_spec (s : List KeyType) :
    Std.TransCmp (triCompare (s := s)) ∧
      (∀ a b : BoundView s, (ofBound a).triCompare (ofBound b) = .lt → a.triCompare b = .lt) ∧
      (∀ (b : BoundView s) (k : List Bytes) (hk : k.length = s.length),
        b.triCompareKey k = (ofBound b).triCompare (forKey k hk)) ∧
      (∀ p q : PositionInPartition s, p.triCompare q = .eq →
        ∀ k : List Bytes, k.length = s.length → p.cut k = q.cut k) ∧
      (∀ p q : PositionInPartition s, p.rank = q.rank →
        q.reversed.triCompare p.reversed = p.triCompare q) ∧
      ∀ p q : PositionInPartition s, p.rank ≠ q.rank →
        p.reversed.triCompare q.reversed = p.triCompare q := by
  refine ⟨inferInstance, fun a b => triCompare_of_ofBound, fun b k => triCompareKey_eq b,
    fun p q h k hk => ?_, fun p q => triCompare_reversed, fun p q => triCompare_reversed_of_ne⟩
  rw [← triCompare_forKey hk, ← triCompare_forKey hk]
  exact Std.TransCmp.congr_right h

/-- Reversal leaves the static row before the rows. -/
theorem not_triCompare_reversed :
    ¬ ∀ (s : List KeyType) (p q : PositionInPartition s), p.triCompare q = .lt →
      q.reversed.triCompare p.reversed = .lt := by
  intro h
  cases h [] staticRow (forKey [] rfl) rfl

end PositionInPartition

end Scylla.Mutation
