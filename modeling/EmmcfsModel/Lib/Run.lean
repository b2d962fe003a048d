import Mathlib.Tactic.TypeStar

-- Runs of a labelled transition system, and the two rules by which what one step does carries over
-- to whole runs: invariants and simulations.

variable {σ τ ε : Type*}

inductive Run (step : σ → ε → σ → Prop) : σ → List ε → σ → Prop
  | nil {s : σ} : Run step s [] s
  | cons {s s' s'' : σ} {e : ε} {es : List ε} :
    step s e s' → Run step s' es s'' → Run step s (e :: es) s''

namespace Run

variable {step : σ → ε → σ → Prop} {step' : τ → ε → τ → Prop}

theorem invariant {Inv : σ → Prop} (h : ∀ s e s', Inv s → step s e s' → Inv s')
    (hr : Run step s es s') (hi : Inv s) : Inv s' := by
  induction hr
  case nil           => exact hi
  case cons hs _ ih  => exact ih (h _ _ _ hi hs)

theorem snoc (hr : Run step s es s') (hs : step s' e s'') : Run step s (es ++ [e]) s'' := by
  induction hr
  case nil           => exact .cons hs .nil
  case cons hs' _ ih => exact .cons hs' (ih hs)

theorem simulates {R : σ → τ → Prop}
    (h : ∀ s e s' t, R s t → step s e s' → ∃ t', step' t e t' ∧ R s' t')
    (hr : Run step s es s') (ht : R s t) : ∃ t', Run step' t es t' ∧ R s' t' := by
  induction hr generalizing t
  case nil          => exact ⟨t, .nil, ht⟩
  case cons hs _ ih =>
    obtain ⟨t', hs', ht'⟩ := h _ _ _ _ ht hs
    obtain ⟨t'', hr', ht''⟩ := ih ht'
    exact ⟨t'', .cons hs' hr', ht''⟩

end Run
