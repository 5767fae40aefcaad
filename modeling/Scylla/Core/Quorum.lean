import Mathlib

/-!
# Majorities

Two majorities of one finite set of voters have a voter in common. A majority of a set of size
`n` has at least `n / 2 + 1` members. What fewer than `q` voters lack is found by asking any `q` of
them; this survives the replacement of a voter if what the old one has is copied to the new one.
-/

namespace Scylla

open Finset

variable {α : Type*} [DecidableEq α]

/-- The number of voters of `V` a majority of `V` has at least. -/
def majoritySize (V : Finset α) : ℕ :=
  V.card / 2 + 1

/-- The members of `V` in `Q` are a majority of `V`. -/
def IsMajority (V Q : Finset α) : Prop :=
  majoritySize V ≤ (V ∩ Q).card

instance (V Q : Finset α) : Decidable (IsMajority V Q) :=
  inferInstanceAs (Decidable (_ ≤ _))

namespace IsMajority

variable {V Q Q' : Finset α}

theorem mono (h : IsMajority V Q) (hsub : V ∩ Q ⊆ Q') : IsMajority V Q' :=
  le_trans h (card_le_card (subset_inter inter_subset_left hsub))

theorem exists_common (h : IsMajority V Q) (h' : IsMajority V Q') :
    ∃ r ∈ V, r ∈ Q ∧ r ∈ Q' := by
  have hunion : ((V ∩ Q) ∪ (V ∩ Q')).card ≤ V.card :=
    card_le_card (union_subset inter_subset_left inter_subset_left)
  have hsum := card_union_add_card_inter (V ∩ Q) (V ∩ Q')
  have hpos : 0 < ((V ∩ Q) ∩ (V ∩ Q')).card := by
    unfold IsMajority majoritySize at h h'
    omega
  obtain ⟨r, hr⟩ := card_pos.mp hpos
  simp only [mem_inter] at hr
  exact ⟨r, hr.1.1, hr.1.2, hr.2.2⟩

theorem nonempty (h : IsMajority V Q) : ∃ r ∈ V, r ∈ Q := by
  obtain ⟨r, hr, hrQ, -⟩ := exists_common h h
  exact ⟨r, hr, hrQ⟩

end IsMajority

/-- Fewer than `q` of the voters lack what the members of `H` have. -/
def Covers (q : ℕ) (V H : Finset α) : Prop :=
  (V \ H).card < q

namespace Covers

variable {q : ℕ} {V H H' A : Finset α} {l p : α}

theorem mono (h : Covers q V H) (hsub : V ∩ H ⊆ H') : Covers q V H' := by
  refine lt_of_le_of_lt (card_le_card fun x hx => ?_) h
  obtain ⟨hxV, hxH'⟩ := mem_sdiff.mp hx
  exact mem_sdiff.mpr ⟨hxV, fun hxH => hxH' (hsub (mem_inter.mpr ⟨hxV, hxH⟩))⟩

theorem of_card (hq : V.card < 2 * q) (hsub : A ⊆ V ∩ H) (hA : q ≤ A.card) : Covers q V H := by
  have hle := card_le_card hsub
  have hsum := card_sdiff_add_card_inter V H
  unfold Covers
  omega

theorem replace (h : Covers q V H) (hl : l ∈ V) (hlH : l ∉ H) :
    Covers q (insert p (V.erase l)) H := by
  have hsub : insert p (V.erase l) \ H ⊆ insert p ((V \ H).erase l) := by
    intro x hx
    simp only [mem_sdiff, mem_insert, mem_erase] at hx ⊢
    tauto
  have hle := (card_le_card hsub).trans (card_insert_le _ _)
  have hmem : l ∈ V \ H := mem_sdiff.mpr ⟨hl, hlH⟩
  rw [card_erase_add_one hmem] at hle
  exact lt_of_le_of_lt hle h

theorem copy (h : Covers q V H) (hsub : H ⊆ H') (hp : p ∈ H') :
    Covers q (insert p (V.erase l)) H' := by
  refine lt_of_le_of_lt (card_le_card fun x hx => ?_) h
  simp only [mem_sdiff, mem_insert, mem_erase] at hx ⊢
  obtain ⟨rfl | ⟨-, hxV⟩, hxH'⟩ := hx
  · exact absurd hp hxH'
  · exact ⟨hxV, fun hxH => hxH' (hsub hxH)⟩

end Covers

end Scylla
