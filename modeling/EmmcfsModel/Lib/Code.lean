import Mathlib.Tactic.TypeStar

-- Imperative code over a state `σ` that can fail with an error code, which leaves the state as it
-- was when the failure was noticed, or halt the system for good.

inductive Outcome (ε σ α : Type*)
  | ok (a : α) (s : σ)
  | fail (e : ε) (s : σ)
  | halt
  deriving DecidableEq, Repr

def Code (ε σ α : Type*) := σ → Outcome ε σ α

namespace Code

@[inline]
def run (m : Code ε σ α) (s : σ) : Outcome ε σ α := m s

@[inline]
protected def pure (a : α) : Code ε σ α := fun s => .ok a s

@[inline]
protected def bind (m : Code ε σ α) (f : α → Code ε σ β) : Code ε σ β := fun s =>
  match m s with
  | .ok a s'   => f a s'
  | .fail e s' => .fail e s'
  | .halt      => .halt

instance : Monad (Code ε σ) where
  pure := Code.pure
  bind := Code.bind

def get : Code ε σ σ := fun s => .ok s s

def gets (f : σ → α) : Code ε σ α := fun s => .ok (f s) s

def modify (f : σ → σ) : Code ε σ Unit := fun s => .ok () (f s)

def fail (e : ε) : Code ε σ α := fun s => .fail e s

def halt : Code ε σ α := fun _ => .halt

def haltOn (c : Prop) [Decidable c] : Code ε σ Unit :=
  if c then halt else pure ()

-- What to do when `m` fails; a halted system stays halted.
def onFail (m : Code ε σ α) (h : ε → Code ε σ α) : Code ε σ α := fun s =>
  match m s with
  | .ok a s'   => .ok a s'
  | .fail e s' => h e s'
  | .halt      => .halt

-- Code over a part of the state.
def zoom (get : σ → τ) (set : τ → σ → σ) (m : Code ε τ α) : Code ε σ α := fun s =>
  match m (get s) with
  | .ok a t   => .ok a (set t s)
  | .fail e t => .fail e (set t s)
  | .halt     => .halt

section Run

variable {s : σ}

@[simp]
theorem pure_apply : (pure a : Code ε σ α) s = .ok a s := rfl

@[simp]
theorem fail_apply : (fail e : Code ε σ α) s = .fail e s := rfl

@[simp]
theorem modify_apply {f : σ → σ} : (modify f : Code ε σ Unit) s = .ok () (f s) := rfl

@[simp]
theorem modify_bind {f : σ → σ} {m : Unit → Code ε σ α} : (modify f >>= m) s = m () (f s) := rfl

@[simp]
theorem get_bind {m : σ → Code ε σ α} : (get >>= m) s = m s s := rfl

@[simp]
theorem haltOn_bind {c : Prop} [Decidable c] {m : Unit → Code ε σ α} :
    (haltOn c >>= m) s = if c then .halt else m () s := by
  by_cases h : c <;> simp only [haltOn, h, if_true, if_false] <;> rfl

@[simp]
theorem ite_run {c : Prop} [Decidable c] {m n : Code ε σ α} :
    (if c then m else n : Code ε σ α) s = if c then m s else n s := by
  by_cases h : c <;> simp [h]

theorem bind_of_ok {m : Code ε σ α} {f : α → Code ε σ β} (h : m s = .ok a s') :
    (m >>= f) s = f a s' := by
  change Code.bind m f s = _
  rw [Code.bind, h]

theorem bind_of_fail {m : Code ε σ α} {f : α → Code ε σ β} (h : m s = .fail e s') :
    (m >>= f) s = .fail e s' := by
  change Code.bind m f s = _
  rw [Code.bind, h]

theorem bind_of_halt {m : Code ε σ α} {f : α → Code ε σ β} (h : m s = .halt) :
    (m >>= f) s = .halt := by
  change Code.bind m f s = _
  rw [Code.bind, h]

theorem bind_eq_ok {m : Code ε σ α} {f : α → Code ε σ β} :
    (m >>= f) s = .ok b s' ↔ ∃ a s₁, m s = .ok a s₁ ∧ f a s₁ = .ok b s' := by
  change Code.bind m f s = _ ↔ _
  rw [Code.bind]
  cases m s <;> simp [and_assoc]

end Run

-- Weakest precondition: `Q` after a normal return, `E` after a failure, `H` if the system halts.
def wp (m : Code ε σ α) (Q : α → σ → Prop) (E : ε → σ → Prop) (H : Prop) (s : σ) : Prop :=
  match m s with
  | .ok a s'   => Q a s'
  | .fail e s' => E e s'
  | .halt      => H

section Rules

variable {Q : α → σ → Prop} {E : ε → σ → Prop} {H : Prop} {s : σ}

instance {m : Code ε σ α} [∀ a s, Decidable (Q a s)] [∀ e s, Decidable (E e s)] [Decidable H] :
    Decidable (wp m Q E H s) :=
  match h : m s with
  | .ok a s'   => decidable_of_iff (Q a s') (by simp [wp, h])
  | .fail e s' => decidable_of_iff (E e s') (by simp [wp, h])
  | .halt      => decidable_of_iff H (by simp [wp, h])

@[simp]
theorem wp_pure : wp (pure a : Code ε σ α) Q E H s ↔ Q a s :=
  .rfl

@[simp]
theorem wp_bind {m : Code ε σ α} {f : α → Code ε σ β} {Q : β → σ → Prop} :
    wp (m >>= f) Q E H s ↔ wp m (fun a => wp (f a) Q E H) E H s := by
  change wp (Code.bind m f) Q E H s ↔ _
  simp only [wp, Code.bind]
  cases m s <;> rfl

@[simp]
theorem wp_get {Q : σ → σ → Prop} : wp get Q E H s ↔ Q s s :=
  .rfl

@[simp]
theorem wp_gets {f : σ → α} : wp (gets f) Q E H s ↔ Q (f s) s :=
  .rfl

@[simp]
theorem wp_modify {f : σ → σ} {Q : Unit → σ → Prop} : wp (modify f) Q E H s ↔ Q () (f s) :=
  .rfl

@[simp]
theorem wp_fail : wp (fail e : Code ε σ α) Q E H s ↔ E e s :=
  .rfl

@[simp]
theorem wp_halt : wp (halt : Code ε σ α) Q E H s ↔ H :=
  .rfl

@[simp]
theorem wp_haltOn {c : Prop} [Decidable c] {Q : Unit → σ → Prop} :
    wp (haltOn c) Q E H s ↔ (c → H) ∧ (¬c → Q () s) := by
  by_cases h : c <;> simp [haltOn, h]

@[simp]
theorem wp_ite {c : Prop} [Decidable c] {m n : Code ε σ α} :
    wp (if c then m else n) Q E H s ↔ (c → wp m Q E H s) ∧ (¬c → wp n Q E H s) := by
  by_cases h : c <;> simp [h]

@[simp]
theorem wp_onFail {m : Code ε σ α} {h : ε → Code ε σ α} :
    wp (onFail m h) Q E H s ↔ wp m Q (fun e => wp (h e) Q E H) H s := by
  simp only [wp, onFail]
  cases m s <;> rfl

@[simp]
theorem wp_zoom {get : σ → τ} {set : τ → σ → σ} {m : Code ε τ α} :
    wp (zoom get set m) Q E H s ↔
      wp m (fun a t => Q a (set t s)) (fun e t => E e (set t s)) H (get s) := by
  simp only [wp, zoom]
  cases m (get s) <;> rfl

@[simp]
theorem wp_trivial {m : Code ε σ α} : wp m (fun _ _ => True) (fun _ _ => True) True s := by
  unfold wp
  split <;> trivial

theorem wp_mono {m : Code ε σ α} {Q' : α → σ → Prop} {E' : ε → σ → Prop} {H' : Prop}
    (h : wp m Q E H s) (hq : ∀ a s, Q a s → Q' a s) (he : ∀ e s, E e s → E' e s) (hh : H → H') :
    wp m Q' E' H' s := by
  unfold wp at *
  split at h
  · exact hq _ _ h
  · exact he _ _ h
  · exact hh h

theorem wp_imp {m : Code ε σ α} {Q' : α → σ → Prop} (h : wp m Q E H s)
    (hq : ∀ a s, Q a s → Q' a s) : wp m Q' E H s :=
  wp_mono h hq (fun _ _ => id) id

theorem wp_congr {m : Code ε σ α} {Q' : α → σ → Prop} {E' : ε → σ → Prop}
    (hq : ∀ a s, Q a s ↔ Q' a s) (he : ∀ e s, E e s ↔ E' e s) : wp m Q E H s ↔ wp m Q' E' H s :=
  ⟨fun h => wp_mono h (fun a s => (hq a s).mp) (fun e s => (he e s).mp) id,
    fun h => wp_mono h (fun a s => (hq a s).mpr) (fun e s => (he e s).mpr) id⟩

theorem wp_and {m : Code ε σ α} {Q' : α → σ → Prop} {E' : ε → σ → Prop} {H' : Prop}
    (h : wp m Q E H s) (h' : wp m Q' E' H' s) :
    wp m (fun a s => Q a s ∧ Q' a s) (fun e s => E e s ∧ E' e s) (H ∧ H') s := by
  unfold wp at *
  split at h
  all_goals simp_all

theorem wp_of_ok {m : Code ε σ α} (hm : m s = .ok a s') : wp m Q E H s ↔ Q a s' := by
  simp only [wp, hm]

theorem wp_of_fail {m : Code ε σ α} (hm : m s = .fail e s') : wp m Q E H s ↔ E e s' := by
  simp only [wp, hm]

theorem not_wp {m : Code ε σ α} (h : wp m (fun a s => ¬Q a s) (fun e s => ¬E e s) True s) :
    ¬wp m Q E False s := by
  intro h'
  unfold wp at h h'
  split at h
  case h_1 hm => rw [hm] at h'; exact h h'
  case h_2 hm => rw [hm] at h'; exact h h'
  case h_3 hm => rwa [hm] at h'

theorem wp_ok {m : Code ε σ α} (h : wp m Q E H s) (hm : m s = .ok a s') : Q a s' := by
  simpa [wp, hm] using h

theorem wp_error {m : Code ε σ α} (h : wp m Q E H s) (hm : m s = .fail e s') : E e s' := by
  simpa [wp, hm] using h

-- Code that neither fails nor halts returns.
theorem wp_returns {m : Code ε σ α} (h : wp m Q (fun _ _ => False) False s) :
    ∃ a s', m s = .ok a s' ∧ Q a s' := by
  unfold wp at h
  split at h
  case h_1 a s' hm => exact ⟨a, s', hm, h⟩
  all_goals exact h.elim

-- Code that neither returns nor halts fails.
theorem wp_fails {m : Code ε σ α} (h : wp m (fun _ _ => False) E False s) :
    ∃ e s', m s = .fail e s' ∧ E e s' := by
  unfold wp at h
  split at h
  case h_2 e s' hm => exact ⟨e, s', hm, h⟩
  all_goals exact h.elim

-- Code that neither returns nor fails halts.
theorem wp_halts {m : Code ε σ α} (h : wp m (fun _ _ => False) (fun _ _ => False) True s) :
    m s = .halt := by
  unfold wp at h
  split at h
  case h_3 hm => exact hm
  all_goals exact h.elim

theorem ne_halt_iff {m : Code ε σ α} :
    m s ≠ .halt ↔ wp m (fun _ _ => True) (fun _ _ => True) False s := by
  unfold wp
  cases m s <;> simp

-- One result of some code.
theorem forall_ok_iff {m : Code ε σ α} {P : Prop} :
    (∀ s', m s = .ok a s' → P) ↔ wp m (fun b _ => b = a → P) (fun _ _ => True) True s := by
  unfold wp
  cases m s <;> simp

theorem forall_fail_iff {m : Code ε σ α} {P : Prop} :
    (∀ s', m s = .fail e s' → P) ↔ wp m (fun _ _ => True) (fun e' _ => e' = e → P) True s := by
  unfold wp
  cases m s <;> simp

theorem forall_error_iff {m : Code ε σ α} :
    (∀ e s', m s = .fail e s' → E e s') ↔ wp m (fun _ _ => True) E True s := by
  unfold wp
  cases m s <;> simp

theorem forall_returned_iff {m : Code ε σ α} :
    (∀ a s', m s = .ok a s' → Q a s') ↔ wp m Q (fun _ _ => True) True s := by
  unfold wp
  cases m s <;> simp

theorem wp_returns_unit {m : Code ε σ Unit} {Q : σ → Prop}
    (h : wp m (fun _ => Q) (fun _ _ => False) False s) : ∃ s', m s = .ok () s' ∧ Q s' := by
  obtain ⟨_, s', hm⟩ := wp_returns h
  exact ⟨s', hm⟩

end Rules

-- Code that keeps `P` whether it returns or fails.
def Keeps (P : σ → Prop) (m : Code ε σ α) : Prop :=
  ∀ s, P s → wp m (fun _ => P) (fun _ => P) True s

namespace Keeps

variable {P : σ → Prop} {m : Code ε σ α}

theorem pure : Keeps P (pure a : Code ε σ α) :=
  fun _ h => h

theorem fail : Keeps P (fail e : Code ε σ α) :=
  fun _ h => h

theorem get : Keeps P (get : Code ε σ σ) :=
  fun _ h => h

theorem gets {f : σ → α} : Keeps P (gets f : Code ε σ α) :=
  fun _ h => h

theorem halt : Keeps P (halt : Code ε σ α) :=
  fun _ _ => trivial

-- The state that is read satisfies `P`.
theorem get_bind {f : σ → Code ε σ α} (h : ∀ s, P s → Keeps P (f s)) : Keeps P (Code.get >>= f) :=
  fun s hs => h s hs s hs

theorem modify {f : σ → σ} (h : ∀ s, P s → P (f s)) : Keeps P (modify f : Code ε σ Unit) :=
  h

theorem haltOn {c : Prop} [Decidable c] : Keeps P (haltOn c : Code ε σ Unit) :=
  fun _ h => wp_haltOn.mpr ⟨fun _ => trivial, fun _ => h⟩

theorem bind {f : α → Code ε σ β} (hm : Keeps P m) (hf : ∀ a, Keeps P (f a)) :
    Keeps P (m >>= f) :=
  fun s h => wp_bind.mpr (wp_imp (hm s h) hf)

theorem ite {c : Prop} [Decidable c] {n : Code ε σ α} (hm : Keeps P m) (hn : Keeps P n) :
    Keeps P (if c then m else n) :=
  fun s h => wp_ite.mpr ⟨fun _ => hm s h, fun _ => hn s h⟩

theorem onFail {h : ε → Code ε σ α} (hm : Keeps P m) (hh : ∀ e, Keeps P (h e)) :
    Keeps P (onFail m h) :=
  fun s hs => wp_onFail.mpr (wp_mono (hm s hs) (fun _ _ => id) hh id)

end Keeps

-- Code that keeps `P` and does not fail, though it may halt.
def Settles (P : σ → Prop) (m : Code ε σ α) : Prop :=
  ∀ s, P s → wp m (fun _ => P) (fun _ _ => False) True s

namespace Settles

variable {P : σ → Prop} {m : Code ε σ α}

theorem pure : Settles P (pure a : Code ε σ α) :=
  fun _ h => h

theorem get : Settles P (get : Code ε σ σ) :=
  fun _ h => h

theorem gets {f : σ → α} : Settles P (gets f : Code ε σ α) :=
  fun _ h => h

theorem halt : Settles P (halt : Code ε σ α) :=
  fun _ _ => trivial

theorem haltOn {c : Prop} [Decidable c] : Settles P (haltOn c : Code ε σ Unit) :=
  fun _ h => wp_haltOn.mpr ⟨fun _ => trivial, fun _ => h⟩

theorem modify {f : σ → σ} (h : ∀ s, P s → P (f s)) : Settles P (modify f : Code ε σ Unit) :=
  h

theorem bind {f : α → Code ε σ β} (hm : Settles P m) (hf : ∀ a, Settles P (f a)) :
    Settles P (m >>= f) :=
  fun s h => wp_bind.mpr (wp_imp (hm s h) hf)

theorem ite {c : Prop} [Decidable c] {n : Code ε σ α} (hm : Settles P m) (hn : Settles P n) :
    Settles P (if c then m else n) :=
  fun s h => wp_ite.mpr ⟨fun _ => hm s h, fun _ => hn s h⟩

end Settles

end Code
