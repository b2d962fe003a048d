import Mathlib.Data.Fintype.BigOperators

-- Sums and counts over finitely many tasks of which one changes.

open Finset

variable {τ : Type*} [Fintype τ] [DecidableEq τ] {t : τ}

theorem sum_add_of_eq_off {f g : τ → Nat} (h : ∀ u, u ≠ t → g u = f u) :
    ∑ u, g u + f t = ∑ u, f u + g t := by
  have hrest : ∑ u ∈ univ.erase t, g u = ∑ u ∈ univ.erase t, f u :=
    sum_congr rfl fun u hu => h u (ne_of_mem_erase hu)
  rw [← add_sum_erase univ g (mem_univ t), ← add_sum_erase univ f (mem_univ t), hrest]
  omega

theorem card_add_of_iff_off {p q : τ → Prop} [DecidablePred p] [DecidablePred q]
    (h : ∀ u, u ≠ t → (q u ↔ p u)) :
    #{u | q u} + (if p t then 1 else 0) = #{u | p u} + (if q t then 1 else 0) := by
  rw [card_filter, card_filter]
  exact sum_add_of_eq_off fun u hu => if_congr (h u hu) rfl rfl
