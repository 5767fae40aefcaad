import Mathlib

/-!
# Merges up to an equivalence

A replicated value is merged by an operation on its representation and compared by an equality that
may be coarser than identity. `MergeLaws p r op` says that on the values allowed by `p` the
operation `op` is a join up to `r`; the result of merging many values then depends on the set of
values only.
-/

namespace Scylla

open List

variable {α β ι : Type*}

structure MergeLaws (p : α → Prop) (r : α → α → Prop) (op : α → α → α) : Prop where
  closed : ∀ {a b}, p a → p b → p (op a b)
  refl : ∀ a, r a a
  symm : ∀ {a b}, r a b → r b a
  trans : ∀ {a b c}, r a b → r b c → r a c
  congr : ∀ {a a' b b'}, p a → p a' → p b → p b' → r a a' → r b b' → r (op a b) (op a' b')
  comm : ∀ {a b}, p a → p b → r (op a b) (op b a)
  assoc : ∀ {a b c}, p a → p b → p c → r (op (op a b) c) (op a (op b c))
  idem : ∀ {a}, p a → r (op a a) a

theorem optionRel_eq {a b : Option α} : Option.Rel Eq a b ↔ a = b := by
  constructor
  · rintro (rfl | _) <;> rfl
  · rintro rfl
    cases a with
    | none => exact .none
    | some a => exact .some rfl

theorem optionRel_refl {r : α → α → Prop} (h : ∀ a, r a a) (a : Option α) : Option.Rel r a a := by
  cases a with
  | none => exact .none
  | some a => exact .some (h a)

namespace MergeLaws

variable {p : α → Prop} {r : α → α → Prop} {op : α → α → α}

theorem sup [SemilatticeSup α] : MergeLaws (α := α) (fun _ => True) Eq (· ⊔ ·) where
  closed _ _ := trivial
  refl := Eq.refl
  symm := Eq.symm
  trans := Eq.trans
  congr := by rintro a _ b _ - - - - rfl rfl; rfl
  comm _ _ := sup_comm ..
  assoc _ _ _ := sup_assoc ..
  idem _ := sup_idem _

variable {op' : β → β → β} {q : β → Prop} {s : β → β → Prop}

theorem comap (h : MergeLaws q s op') (f : α → β) (hclosed : ∀ {a b}, p a → p b → p (op a b))
    (hq : ∀ {a}, p a → q (f a)) (hf : ∀ {a b}, p a → p b → s (f (op a b)) (op' (f a) (f b))) :
    MergeLaws p (fun a b => s (f a) (f b)) op where
  closed := hclosed
  refl a := h.refl (f a)
  symm := h.symm
  trans := h.trans
  congr := by
    intro a a' b b' pa pa' pb pb' ha hb
    exact h.trans (hf pa pb) (h.trans (h.congr (hq pa) (hq pa') (hq pb) (hq pb') ha hb)
      (h.symm (hf pa' pb')))
  comm pa pb := h.trans (hf pa pb) (h.trans (h.comm (hq pa) (hq pb)) (h.symm (hf pb pa)))
  assoc := by
    intro a b c pa pb pc
    have hab := h.closed (hq pa) (hq pb)
    have hbc := h.closed (hq pb) (hq pc)
    have hleft : s (f (op (op a b) c)) (op' (op' (f a) (f b)) (f c)) :=
      h.trans (hf (hclosed pa pb) pc)
        (h.congr (hq (hclosed pa pb)) hab (hq pc) (hq pc) (hf pa pb) (h.refl _))
    have hright : s (f (op a (op b c))) (op' (f a) (op' (f b) (f c))) :=
      h.trans (hf pa (hclosed pb pc))
        (h.congr (hq pa) (hq pa) (hq (hclosed pb pc)) hbc (h.refl _) (hf pb pc))
    exact h.trans hleft (h.trans (h.assoc (hq pa) (hq pb) (hq pc)) (h.symm hright))
  idem pa := h.trans (hf pa pa) (h.idem (hq pa))

theorem congr_rel {s : α → α → Prop} (h : MergeLaws p r op) (hs : Equivalence s)
    (hrs : ∀ {a b}, p a → p b → (r a b ↔ s a b)) : MergeLaws p s op where
  closed := h.closed
  refl := hs.refl
  symm := hs.symm
  trans := hs.trans
  congr pa pa' pb pb' ha hb := (hrs (h.closed pa pb) (h.closed pa' pb')).mp
    (h.congr pa pa' pb pb' ((hrs pa pa').mpr ha) ((hrs pb pb').mpr hb))
  comm pa pb := (hrs (h.closed pa pb) (h.closed pb pa)).mp (h.comm pa pb)
  assoc pa pb pc := (hrs (h.closed (h.closed pa pb) pc) (h.closed pa (h.closed pb pc))).mp
    (h.assoc pa pb pc)
  idem pa := (hrs (h.closed pa pa) pa).mp (h.idem pa)

theorem pi {κ : ι → Type*} {ps : ∀ i, κ i → Prop} {rs : ∀ i, κ i → κ i → Prop}
    {ops : ∀ i, κ i → κ i → κ i} (h : ∀ i, MergeLaws (ps i) (rs i) (ops i)) :
    MergeLaws (fun a : ∀ i, κ i => ∀ i, ps i (a i)) (fun a b => ∀ i, rs i (a i) (b i))
      (fun a b i => ops i (a i) (b i)) where
  closed pa pb i := (h i).closed (pa i) (pb i)
  refl a i := (h i).refl (a i)
  symm hab i := (h i).symm (hab i)
  trans hab hbc i := (h i).trans (hab i) (hbc i)
  congr pa pa' pb pb' ha hb i := (h i).congr (pa i) (pa' i) (pb i) (pb' i) (ha i) (hb i)
  comm pa pb i := (h i).comm (pa i) (pb i)
  assoc pa pb pc i := (h i).assoc (pa i) (pb i) (pc i)
  idem pa i := (h i).idem (pa i)

theorem prod (h : MergeLaws p r op) (h' : MergeLaws q s op') :
    MergeLaws (fun a : α × β => p a.1 ∧ q a.2) (fun a b => r a.1 b.1 ∧ s a.2 b.2)
      (fun a b => (op a.1 b.1, op' a.2 b.2)) where
  closed pa pb := ⟨h.closed pa.1 pb.1, h'.closed pa.2 pb.2⟩
  refl _ := ⟨h.refl _, h'.refl _⟩
  symm hab := ⟨h.symm hab.1, h'.symm hab.2⟩
  trans hab hbc := ⟨h.trans hab.1 hbc.1, h'.trans hab.2 hbc.2⟩
  congr pa pa' pb pb' ha hb :=
    ⟨h.congr pa.1 pa'.1 pb.1 pb'.1 ha.1 hb.1, h'.congr pa.2 pa'.2 pb.2 pb'.2 ha.2 hb.2⟩
  comm pa pb := ⟨h.comm pa.1 pb.1, h'.comm pa.2 pb.2⟩
  assoc pa pb pc := ⟨h.assoc pa.1 pb.1 pc.1, h'.assoc pa.2 pb.2 pc.2⟩
  idem pa := ⟨h.idem pa.1, h'.idem pa.2⟩

theorem option (h : MergeLaws p r op) :
    MergeLaws (fun o => ∀ a ∈ o, p a) (Option.Rel r) (Option.merge op) where
  closed {a b} pa pb := by
    cases a <;> cases b <;> simp_all [h.closed]
  refl := optionRel_refl h.refl
  symm hab := by
    cases hab with
    | none => exact .none
    | some hab => exact .some (h.symm hab)
  trans hab hbc := by
    cases hab with
    | none => exact hbc
    | some hab =>
      cases hbc with
      | some hbc => exact .some (h.trans hab hbc)
  congr pa pa' pb pb' ha hb := by
    cases ha with
    | none => simpa using hb
    | some ha => cases hb with
      | none => exact .some ha
      | some hb => exact .some (h.congr (pa _ rfl) (pa' _ rfl) (pb _ rfl) (pb' _ rfl) ha hb)
  comm {a b} pa pb := by
    rcases a with _ | a <;> rcases b with _ | b
    case some.some => exact .some (h.comm (pa _ rfl) (pb _ rfl))
    all_goals exact optionRel_refl h.refl _
  assoc {a b c} pa pb pc := by
    rcases a with _ | a <;> rcases b with _ | b <;> rcases c with _ | c
    case some.some.some => exact .some (h.assoc (pa _ rfl) (pb _ rfl) (pc _ rfl))
    all_goals exact optionRel_refl h.refl _
  idem {a} pa := by
    cases a with
    | none => exact .none
    | some a => exact .some (h.idem (pa _ rfl))

theorem normalize (h : MergeLaws (fun _ => True) Eq op) {f : α → α}
    (hf : ∀ a b, f (op (f a) b) = f (op a b)) :
    MergeLaws (fun a => f a = a) Eq (fun a b => f (op a b)) where
  closed {a b} _ _ := by
    have hc : op (op a b) (f (op a b)) = op (f (op a b)) (op a b) := h.comm trivial trivial
    have hi : ∀ x, op x x = x := fun x => h.idem trivial
    calc f (f (op a b)) = f (op (f (op a b)) (f (op a b))) := by rw [hi]
      _ = f (op (op a b) (f (op a b))) := hf _ _
      _ = f (op (op a b) (op a b)) := by rw [hc, hf]
      _ = f (op a b) := by rw [hi]
  refl := Eq.refl
  symm := Eq.symm
  trans := Eq.trans
  congr := by rintro a _ b _ - - - - rfl rfl; rfl
  comm {a b} _ _ := by rw [h.comm trivial trivial]
  assoc {a b c} _ _ _ := by
    have hright : f (op a (f (op b c))) = f (op a (op b c)) := by
      rw [h.comm trivial trivial, hf, h.comm trivial trivial]
    rw [hf, hright, h.assoc trivial trivial trivial]
  idem {a} pa := by rw [h.idem trivial, pa]

/-- Merging where a value of the second kind replaces any value of the first kind. -/
def sumOp (op : α → α → α) (op' : β → β → β) : α ⊕ β → α ⊕ β → α ⊕ β
  | .inl a, .inl b => .inl (op a b)
  | .inl _, .inr b => .inr b
  | .inr a, .inl _ => .inr a
  | .inr a, .inr b => .inr (op' a b)

theorem sum (h : MergeLaws p r op) (h' : MergeLaws q s op') :
    MergeLaws (Sum.elim p q) (Sum.LiftRel r s) (sumOp op op') where
  closed {a b} pa pb := by
    rcases a with a | a <;> rcases b with b | b
    · exact h.closed pa pb
    · exact pb
    · exact pa
    · exact h'.closed pa pb
  refl a := by
    rcases a with a | a
    · exact .inl (h.refl a)
    · exact .inr (h'.refl a)
  symm hab := by
    cases hab with
    | inl hab => exact .inl (h.symm hab)
    | inr hab => exact .inr (h'.symm hab)
  trans hab hbc := by
    cases hab with
    | inl hab => cases hbc with | inl hbc => exact .inl (h.trans hab hbc)
    | inr hab => cases hbc with | inr hbc => exact .inr (h'.trans hab hbc)
  congr pa pa' pb pb' ha hb := by
    cases ha with
    | inl ha => cases hb with
      | inl hb => exact .inl (h.congr pa pa' pb pb' ha hb)
      | inr hb => exact .inr hb
    | inr ha => cases hb with
      | inl hb => exact .inr ha
      | inr hb => exact .inr (h'.congr pa pa' pb pb' ha hb)
  comm {a b} pa pb := by
    rcases a with a | a <;> rcases b with b | b
    · exact .inl (h.comm pa pb)
    · exact .inr (h'.refl b)
    · exact .inr (h'.refl a)
    · exact .inr (h'.comm pa pb)
  assoc {a b c} pa pb pc := by
    rcases a with a | a <;> rcases b with b | b <;> rcases c with c | c
    · exact .inl (h.assoc pa pb pc)
    all_goals first | exact .inr (h'.assoc pa pb pc) | exact .inr (h'.refl _)
  idem {a} pa := by
    rcases a with a | a
    · exact .inl (h.idem pa)
    · exact .inr (h'.idem pa)

end MergeLaws

/-! ## Merging many values -/

/-- An order in which values are merged, two at a time. -/
inductive MergeTree (α : Type*) where
  | leaf (a : α)
  | node (l r : MergeTree α)

namespace MergeTree

def leaves : MergeTree α → List α
  | leaf a => [a]
  | node l r => l.leaves ++ r.leaves

def eval (op : α → α → α) : MergeTree α → α
  | leaf a => a
  | node l r => op (l.eval op) (r.eval op)

def ofList (a : α) (l : List α) : MergeTree α := l.foldl (fun t b => node t (leaf b)) (leaf a)

theorem eval_foldl (op : α → α → α) (t : MergeTree α) (l : List α) :
    (l.foldl (fun t b => node t (leaf b)) t).eval op = l.foldl op (t.eval op) := by
  induction l generalizing t with
  | nil => rfl
  | cons b l ih => exact ih (node t (leaf b))

theorem leaves_foldl (t : MergeTree α) (l : List α) :
    (l.foldl (fun t b => node t (leaf b)) t).leaves = t.leaves ++ l := by
  induction l generalizing t with
  | nil => exact (append_nil _).symm
  | cons b l ih => exact (ih (node t (leaf b))).trans (append_assoc _ _ _)

end MergeTree

namespace MergeLaws

variable {p : α → Prop} {r : α → α → Prop} {op : α → α → α} {t t' : MergeTree α}

section

variable (h : MergeLaws p r op)

include h

theorem closed_eval (pt : ∀ x ∈ t.leaves, p x) : p (t.eval op) := by
  induction t with
  | leaf a => exact pt a (mem_singleton_self a)
  | node t t' ih ih' =>
    obtain ⟨pl, pr⟩ := forall_mem_append.mp pt
    exact h.closed (ih pl) (ih' pr)

theorem mem_absorbed (pt : ∀ x ∈ t.leaves, p x) {x : α} (hx : x ∈ t.leaves) :
    r (op x (t.eval op)) (t.eval op) := by
  induction t with
  | leaf a =>
    obtain rfl := mem_singleton.mp hx
    exact h.idem (pt x hx)
  | node t t' ih ih' =>
    have px := pt x hx
    obtain ⟨pl, pr⟩ := forall_mem_append.mp pt
    have hl := h.closed_eval pl
    have hr := h.closed_eval pr
    -- regrouping brings `x` next to the operand that absorbs it
    have habsorb {a b : α} (pa : p a) (pb : p b) (ha : r (op x a) a) :
        r (op x (op a b)) (op a b) :=
      h.trans (h.symm (h.assoc px pa pb)) (h.congr (h.closed px pa) pa pb pb ha (h.refl b))
    rcases mem_append.mp hx with hx | hx
    · exact habsorb hl hr (ih pl hx)
    · have hswap := h.comm hl hr
      refine h.trans (h.congr px px (h.closed hl hr) (h.closed hr hl) (h.refl x) hswap) ?_
      exact h.trans (habsorb hr hl (ih' pr hx)) (h.symm hswap)

theorem eval_absorbed (pt : ∀ x ∈ t.leaves, p x) {u : α} (pu : p u)
    (hu : ∀ x ∈ t.leaves, r (op x u) u) : r (op (t.eval op) u) u := by
  induction t with
  | leaf a => exact hu a (mem_singleton_self a)
  | node t t' ih ih' =>
    obtain ⟨pl, pr⟩ := forall_mem_append.mp pt
    obtain ⟨hl, hr⟩ := forall_mem_append.mp hu
    have pl' := h.closed_eval pl
    have pr' := h.closed_eval pr
    refine h.trans (h.assoc pl' pr' pu) ?_
    exact h.trans (h.congr pl' pl' (h.closed pr' pu) pu (h.refl _) (ih' pr hr)) (ih pl hl)

theorem eval_eq_of_mem_iff (pt : ∀ x ∈ t.leaves, p x) (hmem : ∀ x, x ∈ t.leaves ↔ x ∈ t'.leaves) :
    r (t.eval op) (t'.eval op) := by
  have pt' : ∀ x ∈ t'.leaves, p x := fun x hx => pt x ((hmem x).mpr hx)
  have hle := h.eval_absorbed pt (h.closed_eval pt') fun x hx =>
    h.mem_absorbed pt' ((hmem x).mp hx)
  have hge := h.eval_absorbed pt' (h.closed_eval pt) fun x hx =>
    h.mem_absorbed pt ((hmem x).mpr hx)
  exact h.trans (h.symm hge) (h.trans (h.comm (h.closed_eval pt') (h.closed_eval pt)) hle)

theorem foldl_eq_of_mem_iff {a a' : α} {l l' : List α} (pl : ∀ x ∈ a :: l, p x)
    (hl : ∀ x, x ∈ a :: l ↔ x ∈ a' :: l') : r (l.foldl op a) (l'.foldl op a') := by
  have hleaves (a : α) (l : List α) : (MergeTree.ofList a l).leaves = a :: l :=
    MergeTree.leaves_foldl _ l
  have heval : r ((MergeTree.ofList a l).eval op) ((MergeTree.ofList a' l').eval op) :=
    h.eval_eq_of_mem_iff (by rwa [hleaves]) (by rwa [hleaves, hleaves])
  rwa [MergeTree.ofList, MergeTree.ofList, MergeTree.eval_foldl, MergeTree.eval_foldl] at heval

end

end MergeLaws

end Scylla
