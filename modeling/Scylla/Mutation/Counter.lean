import Scylla.Core.SortedMerge
import Scylla.Mutation.Cell

/-!
# Counter cells

A live counter cell is a list of shards, one per writing node, sorted by shard id. Shards are
merged by logical clock. A dead counter cell wins over every live one, whatever the timestamps.
-/

namespace Scylla.Mutation

/-- The contribution of one node to a counter. -/
structure CounterShard where
  id : ℕ
  value : I64
  /-- Advances with every increment of the node. -/
  logicalClock : I64
  deriving DecidableEq

namespace CounterShard

/-- Of two shards of one node the one with the later clock is kept. -/
def merge (x y : CounterShard) : CounterShard := if x.logicalClock < y.logicalClock then y else x

theorem merge_id {x y : CounterShard} (h : compare x.id y.id = .eq) : (x.merge y).id = x.id := by
  unfold merge
  split
  · exact (compare_eq_iff_eq.mp h).symm
  · rfl

end CounterShard

/-- Shards in increasing order of ids. -/
def CounterShards : Type := { l : List CounterShard // SortedBy compare CounterShard.id l }
  deriving DecidableEq

namespace CounterShards

def lookup (l : CounterShards) (k : ℕ) : Option CounterShard :=
  lookupBy compare CounterShard.id some k l.val

/-- The merge of the shards of two live cells. -/
def apply (dst src : CounterShards) : CounterShards :=
  ⟨combine compare CounterShard.id CounterShard.merge dst.val src.val,
    sortedBy_combine (fun _ _ => CounterShard.merge_id) dst.property src.property⟩

theorem lookup_apply (a b : CounterShards) (k : ℕ) :
    (a.apply b).lookup k = Option.merge CounterShard.merge (a.lookup k) (b.lookup k) := by
  exact lookupBy_combine (fun _ _ => CounterShard.merge_id) (fun _ _ _ => rfl)
    k a.property b.property

theorem ext_lookup {a b : CounterShards} (h : ∀ k, a.lookup k = b.lookup k) : a = b :=
  Subtype.ext (eq_of_lookupBy_eq a.property b.property h)

end CounterShards

inductive CounterCell where
  | dead (timestamp deletionTime : I64)
  | live (timestamp : I64) (shards : CounterShards)
  deriving DecidableEq

namespace CounterShard

variable (history : ℕ → I64 → I64)

/-- The shard is one its node has written: `history` gives the node's value at each clock. -/
def IsFrom (x : CounterShard) : Prop := x.value = history x.id x.logicalClock

theorem exists_history {q : CounterShard → Prop}
    (h : ∀ x y, q x → q y → x.id = y.id → x.logicalClock = y.logicalClock → x.value = y.value) :
    ∃ history, ∀ x, q x → x.IsFrom history := by
  classical
  let history : ℕ → I64 → I64 := fun i l =>
    if hx : ∃ x : CounterShard, x.id = i ∧ x.logicalClock = l ∧ q x then hx.choose.value else 0
  refine ⟨history, fun x hx => ?_⟩
  have hex : ∃ y : CounterShard, y.id = x.id ∧ y.logicalClock = x.logicalClock ∧ q y :=
    ⟨x, rfl, rfl, hx⟩
  obtain ⟨hid, hclock, hy⟩ := hex.choose_spec
  rw [CounterShard.IsFrom, show history x.id x.logicalClock = hex.choose.value from dif_pos hex]
  exact h x _ hx hy hid.symm hclock.symm

theorem mergeLaws (k : ℕ) : MergeLaws (fun x => x.id = k ∧ x.IsFrom history) Eq merge := by
  have h : MergeLaws (fun x => x.id = k ∧ x.IsFrom history)
      (fun x y => x.logicalClock = y.logicalClock) merge := by
    refine MergeLaws.sup.comap logicalClock ?_ (fun _ => trivial) ?_
    · intro x y hx hy
      unfold merge
      split <;> assumption
    · intro x y _ _
      unfold merge
      split
      · next hlt => exact (max_eq_right hlt.le).symm
      · next hlt => exact (max_eq_left (not_lt.mp hlt)).symm
  refine h.congr_rel eq_equivalence ?_
  intro x y hx hy
  constructor
  · intro hclock
    have hid : x.id = y.id := hx.1.trans hy.1.symm
    have hvalue : x.value = y.value := by
      rw [show x.value = _ from hx.2, show y.value = _ from hy.2, hid, hclock]
    cases x
    cases y
    simp_all
  · intro he
    rw [he]

end CounterShard

namespace CounterShards

variable (history : ℕ → I64 → I64)

/-- Every shard is one its node has written. -/
def IsFrom (l : CounterShards) : Prop := ∀ x ∈ l.val, x.IsFrom history

theorem lookup_spec {l : CounterShards} {k : ℕ} {x : CounterShard} (h : l.lookup k = some x) :
    x ∈ l.val ∧ x.id = k := by
  obtain ⟨y, hy, hk, hyx⟩ := exists_of_lookupBy_eq_some h
  cases hyx
  exact ⟨hy, (compare_eq_iff_eq.mp hk).symm⟩

theorem lookup_of_mem {l : CounterShards} {x : CounterShard} (h : x ∈ l.val) :
    l.lookup x.id = some x :=
  lookupBy_of_mem l.property h

theorem mergeLaws : MergeLaws (IsFrom history) Eq apply := by
  have hpi := MergeLaws.pi fun k => (CounterShard.mergeLaws history k).option
  have hvalid : ∀ {l : CounterShards}, l.IsFrom history ↔
      ∀ k, ∀ x ∈ l.lookup k, x.id = k ∧ x.IsFrom history := by
    intro l
    constructor
    · intro h k x hx
      obtain ⟨hmem, hid⟩ := lookup_spec hx
      exact ⟨hid, h x hmem⟩
    · intro h x hx
      exact (h x.id x (lookup_of_mem hx)).2
  refine (hpi.comap (p := IsFrom history) lookup ?_ hvalid.mp ?_).congr_rel eq_equivalence ?_
  · intro a b ha hb
    rw [hvalid]
    intro k
    rw [lookup_apply]
    exact hpi.closed (hvalid.mp ha) (hvalid.mp hb) k
  · intro a b _ _ k
    exact optionRel_eq.mpr (lookup_apply a b k)
  · intro a b _ _
    simp only [optionRel_eq]
    exact ⟨ext_lookup, fun h _ => congrArg (lookup · _) h⟩

end CounterShards

namespace CounterCell

def timestamp : CounterCell → I64
  | dead t _ | live t _ => t

def isLive : CounterCell → Bool
  | dead .. => false
  | live .. => true

def apply : CounterCell → CounterCell → CounterCell
  | live t s, live t' s' => live (max t t') (s.apply s')
  | live .., dead t d => dead t d
  | dead t d, live .. => dead t d
  | dead t d, dead t' d' =>
    if compareAtomicCellForMerge (.dead t d) (.dead t' d') = .lt then dead t' d' else dead t d

variable (history : ℕ → I64 → I64)

/-- Every shard of the cell is one its node has written. -/
def IsFrom : CounterCell → Prop
  | dead .. => True
  | live _ s => s.IsFrom history

/-- Live cells, and the dead ones that replace them. -/
private def toSum : CounterCell → (I64 × CounterShards) ⊕ AtomicCell
  | live t s => .inl (t, s)
  | dead t d => .inr (.dead t d)

private theorem toSum_injective : Function.Injective toSum := by
  rintro (⟨t, d⟩ | ⟨t, s⟩) (⟨t', d'⟩ | ⟨t', s'⟩) h <;> simp_all [toSum]

theorem mergeLaws : MergeLaws (IsFrom history) Eq apply := by
  have hlive := (MergeLaws.sup (α := I64)).prod (CounterShards.mergeLaws history)
  have hsum := hlive.sum AtomicCell.mergeLaws
  have happly : ∀ a b, toSum (apply a b) = MergeLaws.sumOp
      (fun a b : I64 × CounterShards => (a.1 ⊔ b.1, a.2.apply b.2)) AtomicCell.apply
      (toSum a) (toSum b) := by
    rintro (⟨t, d⟩ | ⟨t, s⟩) (⟨t', d'⟩ | ⟨t', s'⟩)
    · by_cases hlt : compareAtomicCellForMerge (.dead t d) (.dead t' d') = .lt <;>
        simp [apply, toSum, MergeLaws.sumOp, AtomicCell.apply, keepGreater, hlt]
    all_goals rfl
  refine (hsum.comap toSum ?_ ?_ ?_).congr_rel eq_equivalence ?_
  · rintro (⟨t, d⟩ | ⟨t, s⟩) (⟨t', d'⟩ | ⟨t', s'⟩) ha hb
    · simp only [apply]
      split <;> trivial
    · trivial
    · trivial
    · exact (CounterShards.mergeLaws history).closed ha hb
  · rintro (⟨t, d⟩ | ⟨t, s⟩) ha
    · trivial
    · exact ⟨trivial, ha⟩
  · intro a b _ _
    rw [happly]
    exact hsum.refl _
  · intro a b _ _
    rw [← toSum_injective.eq_iff]
    rcases toSum a with ⟨t, s⟩ | c <;> rcases toSum b with ⟨t', s'⟩ | c' <;> simp

end CounterCell

end Scylla.Mutation
