import Mathlib.Data.List.Basic

/-!
# Runs of labelled steps

A step of a system shows a list of labels, possibly none; a run shows the labels of its steps
one after the other. `Runs.invariant` is the induction rule for a property of the labels seen so
far and the state reached.
-/

namespace Vecodex.Lib

variable {κ σ : Type}

/-- A sequence of steps, with the labels it shows. -/
inductive Runs (step : List κ → σ → σ → Prop) : List κ → σ → σ → Prop
  | nil (s : σ) : Runs step [] s s
  | snoc {ks ls : List κ} {s t u : σ} : Runs step ks s t → step ls t u → Runs step (ks ++ ls) s u

namespace Runs

variable {step : List κ → σ → σ → Prop} {ks ls : List κ} {s t u : σ}

theorem single (h : step ks s t) : Runs step ks s t := snoc (nil s) h

/-- A step without labels at the end of a run. -/
theorem silent (h : Runs step ks s t) (h' : step [] t u) : Runs step ks s u := by
  rw [← List.append_nil ks]
  exact snoc h h'

theorem trans (h : Runs step ks s t) (h' : Runs step ls t u) : Runs step (ks ++ ls) s u := by
  induction h' with
  | nil => rwa [List.append_nil]
  | snoc _ hstep ih =>
    rw [← List.append_assoc]
    exact snoc (ih h) hstep

/-- What every step keeps, whatever was shown before, a run keeps. -/
theorem invariant {P : List κ → σ → Prop} (h : Runs step ls s t)
    (hstep : ∀ ks ls s t, P ks s → step ls s t → P (ks ++ ls) t) (hs : P [] s) : P ls t := by
  induction h with
  | nil => exact hs
  | snoc _ hlast ih => exact hstep _ _ _ _ (ih hs) hlast

end Runs

end Vecodex.Lib
