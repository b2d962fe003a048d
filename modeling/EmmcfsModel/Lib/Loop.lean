import EmmcfsModel.Lib.Code

-- Loops that end by what happens in them, and the invariant rule for them.

namespace Code

-- `body` is repeated until it has a result. There are at most `n` rounds; a caller whose loop need
-- not end chooses more of them than the loop can make.
def loop (body : Code ε σ (Option α)) : Nat → Code ε σ α
  | 0     => halt
  | n + 1 => do
    match ← body with
    | some a => pure a
    | none   => loop body n

theorem wp_loop {body : Code ε σ (Option α)} {I : σ → Prop} {Q : α → σ → Prop}
    {E : ε → σ → Prop} {s : σ}
    (h : ∀ s, I s → wp body (fun r s' => r.elim (I s') (Q · s')) E True s) (hs : I s) :
    wp (loop body n) Q E True s := by
  induction n generalizing s
  case zero => trivial
  case succ n ih =>
    rw [loop, wp_bind]
    refine wp_imp (h s hs) (fun r s' hr => ?_)
    cases r
    case none   => exact ih hr
    case some a => exact hr

-- `body` has a result, fails or halts within `n` rounds. More rounds make no difference then.
def Ends (body : Code ε σ (Option α)) : Nat → σ → Prop
  | 0, _     => False
  | n + 1, s => wp body (fun r s' => r.isNone → Ends body n s') (fun _ _ => True) True s

theorem Ends.loop_add {body : Code ε σ (Option α)} (h : Ends body n s) :
    loop body (n + k) s = loop body n s := by
  induction n generalizing s
  case zero      => exact h.elim
  case succ n ih =>
    rw [Ends, wp] at h
    rw [Nat.add_right_comm]
    change Code.bind body _ s = Code.bind body _ s
    simp only [Code.bind]
    split
    case h_1 r s' hb =>
      cases r
      case some => rfl
      case none => exact ih (by simpa [hb] using h)
    case h_2 => rfl
    case h_3 => rfl

-- It does not halt if no round does.
theorem Ends.ne_halt {body : Code ε σ (Option α)} (h : Ends body n s) (hb : ∀ s, body s ≠ .halt) :
    loop body n s ≠ .halt := by
  induction n generalizing s
  case zero      => exact h.elim
  case succ n ih =>
    rw [Ends, wp] at h
    change Code.bind body _ s ≠ _
    rw [Code.bind]
    split
    case h_1 r s' hs =>
      cases r
      case some => intro he; cases he
      case none => exact ih (by simpa [hs] using h)
    case h_2    => intro he; cases he
    case h_3 hs => exact absurd hs (hb s)

end Code
