import EmmcfsModel.Lib.Code

-- One level of a design and the level above it.

namespace Code

variable {ε ε' σ τ : Type*} {α β : Type} {R : σ → τ → Prop}

-- Where `m` returns, `n` returns the same, and the states are related again.
def Simulates (R : σ → τ → Prop) (m : Code ε σ α) (n : Code ε' τ α) : Prop :=
  ∀ s t, R s t → wp m (fun a s' => wp n (fun b t' => b = a ∧ R s' t') (fun _ _ => False) False t)
    (fun _ _ => True) True s

namespace Simulates

variable {m : Code ε σ α} {n : Code ε' τ α}

theorem bind {f : α → Code ε σ β} {g : α → Code ε' τ β} (hm : Simulates R m n)
    (hf : ∀ a, Simulates R (f a) (g a)) : Simulates R (m >>= f) (n >>= g) := by
  intro s t h
  rw [wp_bind]
  refine wp_imp (hm s t h) fun a s' hret => ?_
  obtain ⟨b, t', hn, ha, h'⟩ := wp_returns hret
  refine wp_imp (hf a s' t' h') fun _ _ hg => ?_
  rwa [wp_bind, wp_of_ok hn, ha]

-- A step that the upper level does not see.
theorem modify_bind {f : σ → σ} (h : ∀ s t, R s t → R (f s) t) (hm : Simulates R m n) :
    Simulates R (Code.modify f >>= fun _ => m) n :=
  fun s t hr => hm (f s) t (h s t hr)

theorem ite {c : Prop} [Decidable c] {m' : Code ε σ α} {n' : Code ε' τ α} (hm : Simulates R m n)
    (hm' : Simulates R m' n') : Simulates R (if c then m else m') (if c then n else n') := by
  split
  · exact hm
  · exact hm'

-- The error path does not return.
theorem onFail {h : ε → Code ε σ α} {k : ε' → Code ε' τ α} (hm : Simulates R m n)
    (hh : ∀ e s, wp (h e) (fun _ _ => False) (fun _ _ => True) True s) :
    Simulates R (Code.onFail m h) (Code.onFail n k) := by
  intro s t hr
  rw [wp_onFail]
  refine wp_mono (hm s t hr) (fun _ _ hn => ?_) (fun e s' _ => ?_) id
  · rw [wp_onFail]
    exact wp_mono hn (fun _ _ h => h) (fun _ _ => False.elim) id
  · exact wp_mono (hh e s') (fun _ _ => False.elim) (fun _ _ h => h) id

end Simulates

end Code
