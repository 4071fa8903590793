namespace Autorun.Lib

/-- The state after a list of labels has been played, one step for each. -/
def run (step : σ → α → σ) (s : σ) (as : List α) : σ := as.foldl step s

@[simp] theorem run_nil (step : σ → α → σ) (s : σ) : run step s [] = s := rfl

@[simp] theorem run_cons (step : σ → α → σ) (s : σ) (a : α) (as : List α) :
    run step s (a :: as) = run step (step s a) as := rfl

theorem run_append (step : σ → α → σ) (s : σ) (as bs : List α) :
    run step s (as ++ bs) = run step (run step s as) bs :=
  List.foldl_append

/-- What each single step keeps, every run keeps. -/
theorem run_invariant {P : σ → Prop} {step : σ → α → σ} (hstep : ∀ s a, P s → P (step s a))
    {s : σ} (hs : P s) (as : List α) : P (run step s as) := by
  induction as generalizing s with
  | nil => exact hs
  | cons a as ih => exact ih (hstep s a hs)

/-- Every label of the run is played in a state that allows it. -/
def Allowed (ok : σ → α → Prop) (step : σ → α → σ) : σ → List α → Prop
  | _, [] => True
  | s, a :: as => ok s a ∧ Allowed ok step (step s a) as

instance decidableAllowed {ok : σ → α → Prop} [∀ s a, Decidable (ok s a)] {step : σ → α → σ} :
    (s : σ) → (as : List α) → Decidable (Allowed ok step s as)
  | _, [] => isTrue trivial
  | s, a :: as =>
    have : Decidable (Allowed ok step (step s a) as) := decidableAllowed (step s a) as
    inferInstanceAs (Decidable (ok s a ∧ Allowed ok step (step s a) as))

/-- What each allowed step keeps, every run of allowed steps keeps. -/
theorem run_allowed {P : σ → Prop} {ok : σ → α → Prop} {step : σ → α → σ}
    (hstep : ∀ s a, ok s a → P s → P (step s a)) {s : σ} (hs : P s) (as : List α)
    (has : Allowed ok step s as) : P (run step s as) := by
  induction as generalizing s with
  | nil => exact hs
  | cons a as ih => exact ih (hstep s a has.1 hs) has.2

end Autorun.Lib
