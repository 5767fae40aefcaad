import Scylla.Mutation.Cell

/-!
# Range tombstone lists

A range tombstone deletes the half-open range of positions from its start bound to its end bound.
A list of them is ordered, without overlaps, and joins adjacent ranges of equal tombstones; it is
therefore determined by the tombstone it gives to each position. Inserting a range raises the
tombstone of the positions inside the range, so lists merge position by position.
-/

namespace Scylla.Mutation

open List
open Option

variable {P : Type*} [LinearOrder P]

/-- A deletion of the positions in `[position, endPosition)`. -/
structure RangeTombstone (P : Type*) where
  position : P
  endPosition : P
  tomb : Tombstone
  deriving DecidableEq

namespace RangeTombstone

/-- The second range starts after the first, and at once only with another tombstone. -/
def Follows (a b : RangeTombstone P) : Prop :=
  a.endPosition ≤ b.position ∧ (a.endPosition = b.position → a.tomb ≠ b.tomb)

instance (a b : RangeTombstone P) : Decidable (Follows a b) :=
  inferInstanceAs (Decidable (_ ∧ _))

/-- The tombstone of the first range that covers the position. -/
def cover (p : P) : List (RangeTombstone P) → Option Tombstone
  | [] => none
  | r :: l => if r.position ≤ p ∧ p < r.endPosition then some r.tomb else cover p l

structure Sorted (l : List (RangeTombstone P)) : Prop where
  nonempty : ∀ r ∈ l, r.position < r.endPosition
  /-- A range starts after all before it have ended. -/
  disjoint : l.Pairwise fun a b => a.endPosition ≤ b.position

structure Canonical (l : List (RangeTombstone P)) : Prop where
  nonempty : ∀ r ∈ l, r.position < r.endPosition
  chain : l.IsChain Follows

/-- The range `[a, b)`, if it is not empty. -/
def piece (a b : P) (tomb : Tombstone) : List (RangeTombstone P) :=
  if a < b then [⟨a, b, tomb⟩] else []

/-- The loop of `insert_from`, at the iterator pointing to the rest of the list. -/
def insertLoop (start stop : P) (tomb : Tombstone) :
    List (RangeTombstone P) → List (RangeTombstone P)
  | [] => [⟨start, stop, tomb⟩]
  | it :: rest =>
    if stop ≤ start then it :: rest
    else if stop < it.position then ⟨start, stop, tomb⟩ :: it :: rest
    else if tomb = it.tomb then
      insertLoop (min start it.position) (max stop it.endPosition) tomb rest
    else if it.tomb < tomb then
      -- the part of `it` before the new range stays
      if stop < it.endPosition then
        piece it.position start it.tomb ++
          ⟨start, stop, tomb⟩ :: ⟨stop, it.endPosition, it.tomb⟩ :: rest
      else piece it.position start it.tomb ++ insertLoop start stop tomb rest
    else if start < it.position ∧ stop ≤ it.position then
      ⟨start, stop, tomb⟩ :: it :: rest
    else if it.endPosition < stop then
      piece start it.position tomb ++ it :: insertLoop it.endPosition stop tomb rest
    else piece start it.position tomb ++ it :: rest

theorem cover_cons (p : P) (r : RangeTombstone P) (l : List (RangeTombstone P)) :
    cover p (r :: l) = if r.position ≤ p ∧ p < r.endPosition then some r.tomb else cover p l := rfl

@[simp] theorem cover_nil (p : P) : cover p ([] : List (RangeTombstone P)) = none := rfl

theorem cover_piece_append (p a b : P) (t : Tombstone) (l : List (RangeTombstone P)) :
    cover p (piece a b t ++ l) = if a ≤ p ∧ p < b then some t else cover p l := by
  unfold piece
  split
  · rfl
  · next h => rw [if_neg fun hp => h (hp.1.trans_lt hp.2), nil_append]

variable {r x : RangeTombstone P} {l a b : List (RangeTombstone P)} {p start stop : P}
  {tomb : Tombstone}

theorem Canonical.of_cons (h : Canonical (r :: l)) : Canonical l :=
  ⟨fun x hx => h.nonempty x (mem_cons_of_mem _ hx), h.chain.of_cons⟩

theorem Canonical.pairwise (h : Canonical l) : l.Pairwise Follows := by
  induction l with
  | nil => exact .nil
  | cons r l ih =>
    have hpairwise := ih h.of_cons
    refine pairwise_cons.mpr ⟨fun x hx => ?_, hpairwise⟩
    cases l with
    | nil => cases hx
    | cons y l =>
      have hry : Follows r y := (isChain_cons_cons.mp h.chain).1
      rcases mem_cons.mp hx with rfl | hx
      · exact hry
      · have hy := h.of_cons.nonempty y mem_cons_self
        have hlt : r.endPosition < x.position :=
          (hry.1.trans_lt hy).trans_le ((pairwise_cons.mp hpairwise).1 x hx).1
        exact ⟨hlt.le, fun heq => absurd heq hlt.ne⟩

theorem Canonical.sorted (h : Canonical l) : Sorted l := ⟨h.nonempty, h.pairwise.imp And.left⟩

theorem Sorted.of_cons (h : Sorted (r :: l)) : Sorted l :=
  ⟨fun x hx => h.nonempty x (mem_cons_of_mem _ hx), (pairwise_cons.mp h.disjoint).2⟩

theorem Sorted.endPosition_le (h : Sorted (r :: l)) (hx : x ∈ l) : r.endPosition ≤ x.position :=
  (pairwise_cons.mp h.disjoint).1 x hx

theorem Sorted.endPosition_lt (h : Sorted (r :: l)) (hx : x ∈ l.head?) :
    r.endPosition < x.endPosition := by
  have hmem := mem_of_mem_head? hx
  exact (h.endPosition_le hmem).trans_lt (h.of_cons.nonempty x hmem)

theorem cover_eq_none (h : ∀ x ∈ l, p < x.position) : cover p l = none := by
  induction l with
  | nil => rfl
  | cons x l ih =>
    have hx := h x mem_cons_self
    rw [cover_cons, if_neg fun hc => hx.not_ge hc.1]
    exact ih fun y hy => h y (mem_cons_of_mem _ hy)

theorem Sorted.cover_tail (h : Sorted (r :: l)) (hp : p < r.endPosition) : cover p l = none :=
  cover_eq_none fun _ hx => hp.trans_le (h.endPosition_le hx)

def inRange (start stop : P) (tomb : Tombstone) (p : P) : Option Tombstone :=
  if start ≤ p ∧ p < stop then some tomb else none

theorem cover_insertLoop (p : P) (hl : Sorted l) (hlt : start < stop)
    (hhead : ∀ x ∈ l.head?, start < x.endPosition) :
    cover p (insertLoop start stop tomb l) =
      Option.merge max (cover p l) (inRange start stop tomb p) := by
  induction l generalizing start stop with
  | nil => simp [insertLoop, cover_cons, inRange]
  | cons it rest ih =>
    have hne := hl.nonempty it mem_cons_self
    have hit : start < it.endPosition := hhead it rfl
    have hrest : p < it.endPosition → cover p rest = none := hl.cover_tail
    rw [insertLoop, if_neg hlt.not_ge]
    split_ifs with h1 h2 h3 h4 h5 h6
    · simp only [cover_cons, inRange]
      grind
    · rw [ih hl.of_cons (by grind) fun x hx => by grind [hl.endPosition_lt hx], cover_cons]
      simp only [inRange]
      grind
    · simp only [cover_piece_append, cover_cons, inRange]
      grind
    · rw [cover_piece_append, ih hl.of_cons hlt fun x hx => hit.trans (hl.endPosition_lt hx),
        cover_cons]
      simp only [inRange]
      grind
    · simp only [cover_cons, inRange]
      grind
    · rw [cover_piece_append, cover_cons, ih hl.of_cons h6 fun x hx => hl.endPosition_lt hx,
        cover_cons]
      simp only [inRange]
      grind
    · simp only [cover_piece_append, cover_cons, inRange]
      grind

/-! ## Ranges in order -/

def Spaced (joined : Prop) (a b : RangeTombstone P) : Prop :=
  a.endPosition ≤ b.position ∧ (joined → a.endPosition = b.position → a.tomb ≠ b.tomb)

structure Laid (joined : Prop) (l : List (RangeTombstone P)) : Prop where
  nonempty : ∀ r ∈ l, r.position < r.endPosition
  spaced : l.Pairwise (Spaced joined)

variable {joined : Prop}

theorem sorted_iff_laid : Sorted l ↔ Laid False l := by
  refine ⟨fun h => ⟨h.nonempty, h.disjoint.imp fun hle => ⟨hle, False.elim⟩⟩, fun h => ?_⟩
  exact ⟨h.nonempty, h.spaced.imp And.left⟩

theorem canonical_iff_laid : Canonical l ↔ Laid True l := by
  refine ⟨fun h => ⟨h.nonempty, h.pairwise.imp fun hf => ⟨hf.1, fun _ => hf.2⟩⟩, fun h => ?_⟩
  exact ⟨h.nonempty, (h.spaced.imp fun hs => ⟨hs.1, hs.2 trivial⟩).isChain⟩

theorem laid_append : Laid joined (a ++ b) ↔
    Laid joined a ∧ Laid joined b ∧ ∀ x ∈ a, ∀ y ∈ b, Spaced joined x y := by
  refine ⟨fun h => ?_, fun ⟨ha, hb, hspaced⟩ => ?_⟩
  · obtain ⟨hna, hnb⟩ := forall_mem_append.mp h.nonempty
    obtain ⟨hsa, hsb, hspaced⟩ := pairwise_append.mp h.spaced
    exact ⟨⟨hna, hsa⟩, ⟨hnb, hsb⟩, hspaced⟩
  · exact ⟨forall_mem_append.mpr ⟨ha.nonempty, hb.nonempty⟩,
      pairwise_append.mpr ⟨ha.spaced, hb.spaced, hspaced⟩⟩

theorem laid_singleton : Laid joined [r] ↔ r.position < r.endPosition :=
  ⟨fun h => h.nonempty r mem_cons_self,
    fun h => ⟨forall_mem_singleton.mpr h, pairwise_singleton _ _⟩⟩

theorem laid_cons : Laid joined (r :: l) ↔
    r.position < r.endPosition ∧ (∀ x ∈ l, Spaced joined r x) ∧ Laid joined l := by
  rw [← singleton_append, laid_append, laid_singleton, forall_mem_singleton]
  exact and_congr_right' and_comm

theorem Laid.piece_append {a b : P} (hl : Laid joined l)
    (h : a < b → ∀ z ∈ l, Spaced joined ⟨a, b, tomb⟩ z) : Laid joined (piece a b tomb ++ l) := by
  unfold piece
  split
  next hab => exact laid_cons.mpr ⟨hab, h hab, hl⟩
  next => exact hl

theorem laid_insertLoop (hl : Laid joined l) (hlt : start < stop)
    (hhead : ∀ x ∈ l.head?, start < x.endPosition) :
    Laid joined (insertLoop start stop tomb l) ∧
      ∀ y, Spaced joined y ⟨start, stop, tomb⟩ → (∀ x ∈ l, Spaced joined y x) →
        ∀ z ∈ insertLoop start stop tomb l, Spaced joined y z := by
  induction l generalizing start stop with
  | nil => exact ⟨laid_singleton.mpr hlt, fun y hy _ z hz => mem_singleton.mp hz ▸ hy⟩
  | cons it rest ih =>
    obtain ⟨hne, hrest, hl'⟩ := laid_cons.mp hl
    have hit : start < it.endPosition := hhead it rfl
    have hnext : ∀ x ∈ rest.head?, it.endPosition < x.endPosition := fun x hx =>
      (hrest x (mem_of_mem_head? hx)).1.trans_lt (hl'.nonempty x (mem_of_mem_head? hx))
    rw [insertLoop, if_neg hlt.not_ge]
    split_ifs with h1 h2 h3 h4 h5 h6
    · refine ⟨laid_cons.mpr ⟨hlt, ?_, hl⟩, ?_⟩ <;> grind [Spaced]
    · have hlt' : min start it.position < max stop it.endPosition := by grind
      obtain ⟨hlaid, hafter⟩ := ih hl' hlt' (by grind)
      exact ⟨hlaid, by grind [Spaced]⟩
    · refine ⟨Laid.piece_append (laid_cons.mpr ⟨hlt, ?_, laid_cons.mpr ⟨h4, ?_, hl'⟩⟩) ?_, ?_⟩ <;>
        grind [Spaced, piece]
    · obtain ⟨hlaid, hafter⟩ := ih hl' hlt fun x hx => hit.trans (hnext x hx)
      refine ⟨hlaid.piece_append fun _ => hafter _ ?_ ?_, ?_⟩ <;> grind [Spaced, piece]
    · refine ⟨laid_cons.mpr ⟨hlt, ?_, hl⟩, ?_⟩ <;> grind [Spaced]
    · obtain ⟨hlaid, hafter⟩ := ih hl' h6 hnext
      refine ⟨Laid.piece_append (laid_cons.mpr ⟨hne, hafter _ ?_ hrest, hlaid⟩) ?_, ?_⟩ <;>
        grind [Spaced, piece]
    · refine ⟨hl.piece_append ?_, ?_⟩ <;> grind [Spaced, piece]

/-! ## Inserting one range -/

def insertFrom (before after : List (RangeTombstone P)) (start stop : P) (tomb : Tombstone) :
    List (RangeTombstone P) :=
  match before.getLast? with
  | some prev =>
    if prev.tomb = tomb ∧ prev.endPosition = start then
      before.dropLast ++ insertLoop prev.position stop tomb after
    else before ++ insertLoop start stop tomb after
  | none => insertLoop start stop tomb after

def applyRange (l : List (RangeTombstone P)) (r : RangeTombstone P) : List (RangeTombstone P) :=
  if r.position < r.endPosition then
    insertFrom (l.takeWhile fun x => x.endPosition ≤ r.position)
      (l.dropWhile fun x => x.endPosition ≤ r.position) r.position r.endPosition r.tomb
  else l

theorem cover_append (p : P) (a b : List (RangeTombstone P)) :
    cover p (a ++ b) = (cover p a).or (cover p b) := by
  induction a with
  | nil => simp
  | cons r a ih =>
    rw [cons_append, cover_cons, cover_cons, ih]
    split <;> simp

theorem cover_eq_none_of_ge {q : P} (h : ∀ x ∈ l, x.endPosition ≤ q) (hp : q ≤ p) :
    cover p l = none := by
  induction l with
  | nil => rfl
  | cons x l ih =>
    have hx := h x mem_cons_self
    rw [cover_cons, if_neg fun hc => (hx.trans hp).not_gt hc.2]
    exact ih fun y hy => h y (mem_cons_of_mem _ hy)

theorem Sorted.append_right (h : Sorted (a ++ b)) : Sorted b :=
  ⟨fun x hx => h.nonempty x (mem_append_right _ hx), (pairwise_append.mp h.disjoint).2.1⟩

section InsertFrom

variable {before after : List (RangeTombstone P)} (hlt : start < stop)
  (hbefore : ∀ x ∈ before, x.endPosition ≤ start)
  (hafter : ∀ x ∈ after.head?, start < x.endPosition)

include hlt hbefore hafter

theorem cover_insertFrom (hl : Sorted (before ++ after)) (p : P) :
    cover p (insertFrom before after start stop tomb) =
      Option.merge max (cover p (before ++ after)) (inRange start stop tomb p) := by
  unfold insertFrom
  rcases eq_nil_or_concat before with rfl | ⟨init, prev, rfl⟩
  · exact cover_insertLoop p hl hlt hafter
  · have hprev : prev.position < prev.endPosition := hl.nonempty prev (by simp)
    have hend : prev.endPosition ≤ start := hbefore prev (by simp)
    have hcov : start ≤ p → cover p (init ++ [prev]) = none :=
      cover_eq_none_of_ge fun x hx => hbefore x (by simpa using hx)
    have hcovAfter : p < prev.endPosition → cover p after = none := by
      have hsorted : Sorted (prev :: after) := by
        have h := hl
        rw [concat_eq_append, append_assoc] at h
        exact h.append_right
      exact hsorted.cover_tail
    simp only [concat_eq_append, getLast?_concat, dropLast_concat] at *
    split_ifs with hjoin
    · -- the joined range gives the same tombstones as the old and the new range together
      have hhead : ∀ x ∈ after.head?, prev.position < x.endPosition :=
        fun x hx => (hprev.trans_le hend).trans (hafter x hx)
      rw [cover_append, cover_insertLoop p hl.append_right (by grind) hhead, cover_append,
        cover_append]
      rw [cover_append] at hcov
      simp only [cover_cons, cover_nil, inRange] at *
      grind
    · rw [cover_append p (init ++ [prev]), cover_insertLoop p hl.append_right hlt hafter,
        cover_append p (init ++ [prev])]
      by_cases hp : start ≤ p
      · rw [hcov hp, none_or, none_or]
      · rw [inRange, if_neg fun h => hp h.1, merge_none_right, merge_none_right]

theorem laid_insertFrom (hl : Laid joined (before ++ after)) :
    Laid joined (insertFrom before after start stop tomb) := by
  unfold insertFrom
  obtain ⟨hb, ha, hsep⟩ := laid_append.mp hl
  rcases eq_nil_or_concat' before with rfl | ⟨init, prev, rfl⟩
  · exact (laid_insertLoop ha hlt hafter).1
  · obtain ⟨hinit, hprev, hinitPrev⟩ := laid_append.mp hb
    rw [laid_singleton] at hprev
    have hend : prev.endPosition ≤ start := hbefore prev (by simp)
    rw [getLast?_concat, dropLast_concat]
    dsimp only
    split_ifs with hjoin
    · have hhead : ∀ x ∈ after.head?, prev.position < x.endPosition :=
        fun x hx => (hprev.trans_le hend).trans (hafter x hx)
      obtain ⟨hlaid, hkeep⟩ := laid_insertLoop ha ((hprev.trans_le hend).trans hlt) hhead
      refine laid_append.mpr ⟨hinit, hlaid, fun x hx => hkeep x ?_ (hsep x (by simp [hx]))⟩
      exact hjoin.1 ▸ hinitPrev x hx prev (mem_singleton_self _)
    · obtain ⟨hlaid, hkeep⟩ := laid_insertLoop ha hlt hafter
      refine laid_append.mpr ⟨hb, hlaid, fun x hx => hkeep x ⟨hbefore x hx, ?_⟩ (hsep x hx)⟩
      rintro - heq htomb
      obtain hx | hx := mem_append.mp hx
      · have hxprev := (hinitPrev x hx prev (mem_singleton_self _)).1
        exact absurd heq ((hxprev.trans_lt hprev).trans_le hend).ne
      · rw [mem_singleton.mp hx] at heq htomb
        exact hjoin ⟨htomb, heq⟩

end InsertFrom

theorem split_spec (l : List (RangeTombstone P)) (q : P) :
    l.takeWhile (fun x => x.endPosition ≤ q) ++ l.dropWhile (fun x => x.endPosition ≤ q) = l ∧
      (∀ x ∈ l.takeWhile (fun x => x.endPosition ≤ q), x.endPosition ≤ q) ∧
      ∀ x ∈ (l.dropWhile fun x => x.endPosition ≤ q).head?, q < x.endPosition := by
  refine ⟨takeWhile_append_dropWhile, ?_, ?_⟩
  · intro x hx
    simpa using mem_takeWhile_imp hx
  · intro x hx
    have h := head?_dropWhile_not (fun x : RangeTombstone P => x.endPosition ≤ q) l
    rw [hx] at h
    simpa using h

theorem cover_applyRange (hl : Sorted l) (r : RangeTombstone P) (p : P) : cover p (applyRange l r) =
      Option.merge max (cover p l) (inRange r.position r.endPosition r.tomb p) := by
  unfold applyRange
  obtain ⟨hsplit, hbefore, hafter⟩ := split_spec l r.position
  split
  · next hlt =>
    rw [cover_insertFrom hlt hbefore hafter (hsplit.symm ▸ hl), hsplit]
  · next hlt =>
    rw [inRange, if_neg fun h => hlt (h.1.trans_lt h.2), merge_none_right]

theorem laid_applyRange (hl : Laid joined l) (r : RangeTombstone P) :
    Laid joined (applyRange l r) := by
  unfold applyRange
  obtain ⟨hsplit, hbefore, hafter⟩ := split_spec l r.position
  split
  · next hlt => exact laid_insertFrom hlt hbefore hafter (hsplit.symm ▸ hl)
  · exact hl

theorem canonical_applyRange (hl : Canonical l) (r : RangeTombstone P) :
    Canonical (applyRange l r) :=
  canonical_iff_laid.mpr (laid_applyRange (canonical_iff_laid.mp hl) r)

/-! ## Uniqueness of the representation -/

private theorem position_le_of_cover {t : Tombstone} (h : Canonical (r :: l))
    (hp : cover p (r :: l) = some t) : r.position ≤ p := by
  by_contra hlt
  rw [cover_eq_none] at hp
  · cases hp
  · intro x hx
    rcases mem_cons.mp hx with rfl | hx
    · exact not_le.mp hlt
    · have hr := h.nonempty r mem_cons_self
      exact (not_le.mp hlt).trans (hr.trans_le (h.sorted.endPosition_le hx))

private theorem cover_endPosition_ne (h : Canonical (r :: l)) :
    cover r.endPosition (r :: l) ≠ some r.tomb := by
  rw [cover_cons, if_neg fun hc => lt_irrefl _ hc.2]
  intro hcov
  cases l with
  | nil => cases hcov
  | cons x l =>
    have hfollows := (isChain_cons_cons.mp h.chain).1
    have heq : r.endPosition = x.position :=
      le_antisymm hfollows.1 (position_le_of_cover h.of_cons hcov)
    have hx := h.of_cons.nonempty x mem_cons_self
    rw [heq, cover_cons, if_pos ⟨le_rfl, hx⟩, some_inj] at hcov
    exact hfollows.2 heq hcov.symm

variable {l' : List (RangeTombstone P)}

private theorem endPosition_le_of_cover_eq {y : RangeTombstone P}
    (hl : Canonical (x :: l)) (hpos : x.position = y.position) (htomb : x.tomb = y.tomb)
    (h : ∀ p, cover p (x :: l) = cover p (y :: l')) : y.endPosition ≤ x.endPosition := by
  by_contra hlt
  refine cover_endPosition_ne hl ?_
  have hx := hl.nonempty x mem_cons_self
  rw [h, cover_cons, if_pos ⟨hpos ▸ hx.le, not_le.mp hlt⟩, htomb]

theorem Canonical.ext (hl : Canonical l) (hl' : Canonical l')
    (h : ∀ p, cover p l = cover p l') : l = l' := by
  induction l generalizing l' with
  | nil =>
    cases l' with
    | nil => rfl
    | cons y l' =>
      have hy := h y.position
      rw [cover_nil, cover_cons, if_pos ⟨le_rfl, hl'.nonempty y mem_cons_self⟩] at hy
      cases hy
  | cons x l ih =>
    have hx := hl.nonempty x mem_cons_self
    have hcovx : cover x.position (x :: l) = some x.tomb := by
      rw [cover_cons, if_pos ⟨le_rfl, hx⟩]
    cases l' with
    | nil =>
      rw [h, cover_nil] at hcovx
      cases hcovx
    | cons y l' =>
      have hy := hl'.nonempty y mem_cons_self
      have hcovy : cover y.position (y :: l') = some y.tomb := by
        rw [cover_cons, if_pos ⟨le_rfl, hy⟩]
      have hpos : x.position = y.position :=
        le_antisymm (position_le_of_cover hl ((h _).trans hcovy))
          (position_le_of_cover hl' ((h _).symm.trans hcovx))
      have htomb : x.tomb = y.tomb := by
        rw [h, hpos, hcovy] at hcovx
        exact (some_inj.mp hcovx).symm
      have hend : x.endPosition = y.endPosition :=
        le_antisymm (endPosition_le_of_cover_eq hl' hpos.symm htomb.symm fun p => (h p).symm)
          (endPosition_le_of_cover_eq hl hpos htomb h)
      have hxy : x = y := by
        cases x
        cases y
        simp_all
      subst hxy
      congr 1
      refine ih hl.of_cons hl'.of_cons fun p => ?_
      by_cases hp : p < x.endPosition
      · rw [hl.sorted.cover_tail hp, hl'.sorted.cover_tail hp]
      · have hc := h p
        rwa [cover_cons, cover_cons, if_neg fun hc => hp hc.2, if_neg fun hc => hp hc.2] at hc

theorem Canonical.filter (h : Canonical l) (f : RangeTombstone P → Bool) : Canonical (l.filter f) :=
  ⟨fun r hr => h.nonempty r (mem_of_mem_filter hr), (h.pairwise.filter f).isChain⟩

theorem Canonical.cover_filter (h : Canonical l) (f : Tombstone → Bool) (p : P) :
    cover p (l.filter fun r => f r.tomb) = (cover p l).filter f := by
  induction l with
  | nil => rfl
  | cons r l ih =>
    rw [filter_cons, cover_cons]
    by_cases hp : r.position ≤ p ∧ p < r.endPosition
    · rw [if_pos hp]
      cases hf : f r.tomb with
      | true => rw [if_pos rfl, cover_cons, if_pos hp, filter_some, if_pos hf]
      | false =>
        rw [if_neg Bool.false_ne_true, ih h.of_cons, h.sorted.cover_tail hp.2, filter_some,
          if_neg (by simp [hf])]
        rfl
    · rw [if_neg hp, ← ih h.of_cons]
      split
      · rw [cover_cons, if_neg hp]
      · rfl

end RangeTombstone

structure RangeTombstoneList (P : Type*) [LinearOrder P] where
  tombstones : List (RangeTombstone P)
  canonical : RangeTombstone.Canonical tombstones

namespace RangeTombstoneList

def empty : RangeTombstoneList P := ⟨[], ⟨by simp, .nil⟩⟩

def cover (l : RangeTombstoneList P) (p : P) : Option Tombstone :=
  RangeTombstone.cover p l.tombstones

theorem ext_cover {a b : RangeTombstoneList P} (h : ∀ p, a.cover p = b.cover p) : a = b := by
  obtain ⟨l, hl⟩ := a
  obtain ⟨l', hl'⟩ := b
  have heq : l = l' := hl.ext hl' h
  subst heq
  rfl

def applyOne (l : RangeTombstoneList P) (r : RangeTombstone P) : RangeTombstoneList P :=
  ⟨RangeTombstone.applyRange l.tombstones r, RangeTombstone.canonical_applyRange l.canonical r⟩

/-- `range_tombstone_list::apply`: insert every range of the other list. -/
def apply (a b : RangeTombstoneList P) : RangeTombstoneList P := b.tombstones.foldl applyOne a

theorem cover_applyOne (l : RangeTombstoneList P) (r : RangeTombstone P) (p : P) :
    (l.applyOne r).cover p = Option.merge max (l.cover p)
      (RangeTombstone.inRange r.position r.endPosition r.tomb p) :=
  RangeTombstone.cover_applyRange l.canonical.sorted r p

theorem cover_foldl_applyOne (a : RangeTombstoneList P) {l : List (RangeTombstone P)}
    (hl : l.Pairwise fun x y => x.endPosition ≤ y.position) (p : P) :
    (l.foldl applyOne a).cover p = Option.merge max (a.cover p) (RangeTombstone.cover p l) := by
  induction l generalizing a with
  | nil => simp
  | cons r l ih =>
    obtain ⟨hr, hl⟩ := pairwise_cons.mp hl
    rw [foldl_cons, ih (a.applyOne r) hl, cover_applyOne, RangeTombstone.cover_cons,
      RangeTombstone.inRange]
    split
    · next hp =>
      have htail : RangeTombstone.cover p l = none :=
        RangeTombstone.cover_eq_none fun x hx => hp.2.trans_le (hr x hx)
      rw [htail, merge_none_right]
    · rw [merge_none_right]

theorem cover_apply (a b : RangeTombstoneList P) (p : P) :
    (a.apply b).cover p = Option.merge max (a.cover p) (b.cover p) :=
  cover_foldl_applyOne a b.canonical.sorted.disjoint p

/-- `range_tombstone_list::erase_where`, for ranges chosen by their tombstone. -/
def eraseWhere (f : Tombstone → Bool) (l : RangeTombstoneList P) : RangeTombstoneList P :=
  ⟨l.tombstones.filter fun r => !f r.tomb, l.canonical.filter _⟩

theorem cover_eraseWhere (f : Tombstone → Bool) (l : RangeTombstoneList P) (p : P) :
    (l.eraseWhere f).cover p = (l.cover p).filter fun t => !f t :=
  l.canonical.cover_filter (fun t => !f t) p

theorem mergeLaws (P : Type*) [LinearOrder P] :
    MergeLaws (α := RangeTombstoneList P) (fun _ => True) Eq apply := by
  have hpi := MergeLaws.pi fun _ : P => (MergeLaws.sup (α := Tombstone)).option
  refine (hpi.comap cover (fun _ _ => trivial) (fun _ _ _ _ => trivial) ?_).congr_rel
    eq_equivalence ?_
  · intro a b _ _ p
    exact optionRel_eq.mpr (cover_apply a b p)
  · intro a b _ _
    simp only [optionRel_eq]
    exact ⟨ext_cover, fun h p => by rw [h]⟩

end RangeTombstoneList

end Scylla.Mutation
