import Mathlib

/-!
# Runs of a transition system

A system is a partial step function on states; an action that is not enabled yields no state. The
states reached by steps that all satisfy a side condition are defined inductively, with one rule
for invariants and one that turns an evaluated list of actions into a run.
-/

namespace Scylla

variable {σ α : Type*}

/-- The states reached from `init` by enabled steps that all satisfy `ok`. -/
inductive Reaches (step : σ → α → Option σ) (ok : σ → α → Prop) (init : σ) : σ → Prop
  | init : Reaches step ok init init
  | step {s s' : σ} {a : α} : Reaches step ok init s → ok s a → step s a = some s' →
      Reaches step ok init s'

namespace Reaches

variable {step : σ → α → Option σ} {ok ok' : σ → α → Prop} {init s : σ}

theorem invariant {I : σ → Prop} (h : Reaches step ok init s) (hinit : I init)
    (hstep : ∀ s a s', I s → ok s a → step s a = some s' → I s') : I s := by
  induction h with
  | init => exact hinit
  | step _ hok hs ih => exact hstep _ _ _ ih hok hs

end Reaches

/-- Performs the actions one after the other, each only if it satisfies `ok`. -/
def runSteps (step : σ → α → Option σ) (ok : σ → α → Prop) [∀ s a, Decidable (ok s a)] :
    σ → List α → Option σ
  | s, [] => some s
  | s, a :: as => if ok s a then (step s a).bind fun s' => runSteps step ok s' as else none

theorem reaches_of_runSteps {step : σ → α → Option σ} {ok : σ → α → Prop}
    [∀ s a, Decidable (ok s a)] {init s s' : σ} {as : List α} (h : Reaches step ok init s)
    (hrun : runSteps step ok s as = some s') : Reaches step ok init s' := by
  induction as generalizing s with
  | nil =>
    cases hrun
    exact h
  | cons a as ih =>
    rw [runSteps] at hrun
    split at hrun
    · next hok =>
      obtain ⟨t, ht, hrest⟩ := Option.bind_eq_some_iff.mp hrun
      exact ih (.step h hok ht) hrest
    · cases hrun

end Scylla
