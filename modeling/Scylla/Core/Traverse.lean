import Mathlib

/-!
# Effects in index order

Running one action per index of a dependent family, in increasing index order, and one action per
element of a list, with what each proof about such loops needs.
-/

namespace Scylla

variable {m : Type → Type} [Monad m]

/-- Run one action per index, in increasing order. -/
def finTraverse : {n : ℕ} → {κ : Fin n → Type} → ((i : Fin n) → m (κ i)) → m ((i : Fin n) → κ i)
  | 0, _, _ => pure fun i => i.elim0
  | _ + 1, _, f => do
    let x ← f 0
    let rest ← finTraverse fun i => f i.succ
    pure (Fin.cons x rest)

theorem finTraverse_id {n : ℕ} {κ : Fin n → Type} (f : (i : Fin n) → Id (κ i)) :
    finTraverse f = f := by
  induction n with
  | zero => exact funext fun i => i.elim0
  | succ n ih =>
    have hrest := ih fun i => f i.succ
    exact (congrArg (Fin.cons (f 0)) hrest).trans (Fin.cons_self_tail f)

theorem finTraverse_pure [LawfulMonad m] {n : ℕ} {κ : Fin n → Type} (x : (i : Fin n) → κ i) :
    finTraverse (fun i => (pure (x i) : m (κ i))) = pure x := by
  induction n with
  | zero => exact congrArg pure (funext fun i => i.elim0)
  | succ n ih =>
    unfold finTraverse
    rw [ih fun i => x i.succ, pure_bind, pure_bind]
    exact congrArg pure (Fin.cons_self_tail x)

end Scylla
