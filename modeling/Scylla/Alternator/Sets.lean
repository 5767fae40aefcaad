import Scylla.Alternator.Expression

/-!
# String sets under `ADD` and `DELETE`

`set_sum` and `set_diff` are union and difference, and `single_value_comp` a strict total order,
when no two different strings that they are given are confused.
-/

namespace Scylla.Alternator

open List

structure SetsExact (set1 set2 : List String) : Prop where
  sum : ∃ elements, setSum (.set .ss set1) (.set .ss set2) = .ok (.set .ss elements) ∧
    elements.Nodup ∧ ∀ a, a ∈ elements ↔ a ∈ set1 ∨ a ∈ set2
  diff : ∃ elements, setDiff (.set .ss set1) (.set .ss set2) = .ok (nonemptySet .ss elements) ∧
    elements.Nodup ∧ ∀ a, a ∈ elements ↔ a ∈ set1 ∧ a ∉ set2
  irrefl : ∀ a ∈ set1 ++ set2, ¬singleValueComp a a
  trans : ∀ a ∈ set1 ++ set2, ∀ b ∈ set1 ++ set2, ∀ c ∈ set1 ++ set2,
    singleValueComp a b → singleValueComp b c → singleValueComp a c
  eq_of_same : ∀ a ∈ set1 ++ set2, ∀ b ∈ set1 ++ set2, sameElement a b → a = b

section Exact

variable {set1 set2 : List String}

theorem unionElements_spec (h1 : set1.Nodup) (h2 : set2.Nodup) :
    (unionElements set1 set2).Nodup ∧
      ∀ a, a ∈ unionElements set1 set2 ↔ a ∈ set1 ∨ a ∈ set2 := by
  constructor
  · refine h1.append (h2.filter _) fun a ha hfilter => ?_
    exact of_decide_eq_true (mem_filter.mp hfilter).2 ha
  · intro a
    rw [unionElements, mem_append, mem_filter, decide_eq_true_iff]
    tauto

variable (hsame : ∀ a ∈ set1 ++ set2, ∀ b ∈ set1 ++ set2, Confusable a b → a = b)

include hsame

theorem not_addConfuses : ¬AddConfuses set1 set2 := by
  rintro ⟨a, ha, hnew, b, hb, hab⟩
  exact hnew (hsame a (mem_append_right _ ha) b (mem_append_left _ hb) hab ▸ hb)

theorem not_deleteConfuses : ¬DeleteConfuses set1 set2 := by
  rintro ⟨a, ha, -, b, hb, hab, hne⟩
  exact hne (hsame a (mem_append_left _ ha) b hb hab)

end Exact

/-- Union, difference and order are exact when no two different strings of the sets have the same
length and the same bytes before the first zero byte. -/
theorem setsExact_iff {set1 set2 : List String} (h1 : set1.Nodup) (h2 : set2.Nodup) :
    SetsExact set1 set2 ↔
      ∀ a ∈ set1 ++ set2, ∀ b ∈ set1 ++ set2, Confusable a b → a = b := by
  constructor
  · intro h a ha b hb hab
    exact h.eq_of_same a ha b hb (sameElement_iff.mpr hab)
  · intro hsame
    constructor
    case sum =>
      have hsum := sumElements_eq_iff.mpr (not_addConfuses hsame)
      exact ⟨_, rfl, hsum ▸ unionElements_spec h1 h2⟩
    case diff =>
      have hdiff := diffElements_eq_iff.mpr (not_deleteConfuses hsame)
      exact ⟨_, rfl, hdiff ▸ ⟨nodup_differenceElements _ _, fun a => mem_differenceElements⟩⟩
    case irrefl =>
      intro a _
      rw [singleValueComp_iff]
      exact lt_irrefl _
    case trans =>
      intro a _ b _ c _
      rw [singleValueComp_iff, singleValueComp_iff, singleValueComp_iff]
      exact lt_trans
    case eq_of_same =>
      intro a ha b hb hab
      exact hsame a ha b hb (sameElement_iff.mp hab)

theorem setsExact_iff_ab :
    ["a"].Nodup ∧ ["b", "a"].Nodup ∧ SetsExact ["a"] ["b", "a"] := by
  refine ⟨by decide, by decide, (setsExact_iff (by decide) (by decide)).mpr ?_⟩
  simp only [Confusable]
  decide

/-- The second of two strings that begin with a zero byte is lost from the union. -/
theorem not_setsExact_zero : ¬SetsExact ["\x00a"] ["\x00b"] := by
  intro h
  have heq := h.eq_of_same "\x00a" (by simp) "\x00b" (by simp) (sameElement_iff.mpr confusable_zero)
  exact absurd heq (by decide)

end Scylla.Alternator
