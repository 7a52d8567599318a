import Mathlib.Tactic.TypeStar

/-!
# Labelled runs

A system takes labelled steps. What one system's steps are to another's by a simulation, its
runs are too, label by label.
-/

section Runs

variable {σ τ L : Type*} {step : σ → L → σ → Prop} {step' : τ → L → τ → Prop}
  {R : σ → τ → Prop} {s s' : σ} {t : τ} {ls : List L}

/-- The run that takes the steps `ls`, the first label first. -/
inductive Steps (step : σ → L → σ → Prop) (s : σ) : List L → σ → Prop where
  | nil : Steps step s [] s
  | snoc {ls : List L} {l : L} {t u : σ} (run : Steps step s ls t) (last : step t l u) :
      Steps step s (ls ++ [l]) u

end Runs
