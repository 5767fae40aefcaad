import Scylla.Core.Traverse

/-!
# Pre- and postconditions of stateful computations

A triple says what a computation with state does from every state with a precondition. An
invariant triple keeps one predicate of the state and says something about the result only; loops
then run under the invariant of their body.
-/

namespace Scylla

variable {σ α β : Type}

/-- From every state with `P`, the result and the state after it have `Q`. -/
def Triple (P : σ → Prop) (x : StateM σ α) (Q : α → σ → Prop) : Prop :=
  ∀ s, P s → Q (x s).1 (x s).2

/-- The computation keeps the invariant `I`, and its result has the property `Q`. -/
def Keeps (I : σ → Prop) (x : StateM σ α) (Q : α → Prop) : Prop :=
  Triple I x fun a s => I s ∧ Q a

variable {c : Prop}

namespace Triple

variable {P P' : σ → Prop} {x : StateM σ α} {f : α → StateM σ β} {Q Q' : α → σ → Prop}
  {R : β → σ → Prop}

theorem pure {a : α} (h : ∀ s, P s → Q a s) : Triple P (Pure.pure a) Q := h

theorem bind (hx : Triple P x Q) (hf : ∀ a, Triple (Q a) (f a) R) : Triple P (x >>= f) R :=
  fun s hs => hf _ _ (hx s hs)

theorem modify {f : σ → σ} {Q : Unit → σ → Prop} (h : ∀ s, P s → Q () (f s)) :
    Triple P (modifyGet fun s => ((), f s)) Q := h

theorem mono (hx : Triple P x Q) (h : ∀ a s, Q a s → Q' a s) : Triple P x Q' :=
  fun s hs => h _ _ (hx s hs)

theorem of_imp (h : c → Triple P x Q) : Triple (fun s => P s ∧ c) x Q :=
  fun s hs => h hs.2 s hs.1

theorem ite [Decidable c] {y : StateM σ α} (hx : c → Triple P x Q)
    (hy : ¬ c → Triple P y Q) : Triple P (if c then x else y) Q := by
  split
  · next h => exact hx h
  · next h => exact hy h

end Triple

namespace Keeps

variable {I : σ → Prop} {x : StateM σ α} {f : α → StateM σ β} {Q Q' : α → Prop} {R : β → Prop}

theorem pure {a : α} (h : Q a) : Keeps I (Pure.pure a) Q := fun _ hs => ⟨hs, h⟩

theorem mono (hx : Keeps I x Q) (h : ∀ a, Q a → Q' a) : Keeps I x Q' :=
  Triple.mono hx fun a _ ha => ⟨ha.1, h a ha.2⟩

theorem bind (hx : Keeps I x Q) (hf : ∀ a, Q a → Keeps I (f a) R) : Keeps I (x >>= f) R :=
  Triple.bind hx fun a s hs => hf a hs.2 s hs.1

theorem bind_triple {R : β → σ → Prop} (hx : Keeps I x Q) (hf : ∀ a, Q a → Triple I (f a) R) :
    Triple I (x >>= f) R :=
  Triple.bind hx fun a s hs => hf a hs.2 s hs.1

theorem ite [Decidable c] {y : StateM σ α} (hx : c → Keeps I x Q)
    (hy : ¬ c → Keeps I y Q) : Keeps I (if c then x else y) Q :=
  Triple.ite hx hy

theorem get : Keeps I MonadState.get I := fun _ hs => ⟨hs, hs⟩

theorem modify {f : σ → σ} (h : ∀ s, I s → I (f s)) : Keeps I (modify f) fun _ => True :=
  fun s hs => ⟨h s hs, trivial⟩

theorem mapM {q : α → β → Prop} {l : List α}
    (h : ∀ a ∈ l, Keeps I (f a) (q a)) : Keeps I (l.mapM f) (List.Forall₂ q l) := by
  induction l with
  | nil =>
    exact pure .nil
  | cons a l ih =>
    rw [List.mapM_cons]
    refine bind (h a List.mem_cons_self) fun b hb => ?_
    refine bind (ih fun a' ha' => h a' (List.mem_cons_of_mem _ ha')) fun bs hbs => ?_
    exact pure (.cons hb hbs)

theorem finTraverse {n : ℕ} {κ : Fin n → Type} {f : (i : Fin n) → StateM σ (κ i)}
    {q : (i : Fin n) → κ i → Prop} (h : ∀ i, Keeps I (f i) (q i)) :
    Keeps I (Scylla.finTraverse f) fun g => ∀ i, q i (g i) := by
  induction n with
  | zero => exact pure fun i => i.elim0
  | succ n ih =>
    refine bind (h 0) fun a ha => ?_
    refine bind (ih fun i => h i.succ) fun g hg => ?_
    exact pure fun i => Fin.cases ha hg i

end Keeps

end Scylla
