import EmmcfsModel.Locking.Functions

namespace Emmcfs

-- The calls after whose error a release is left out or made twice.
def Call.unguarded : Caller → Callee → Bool
  | .readdir, .filldirDot | .readdir, .filldirDotDot => true
  | .lookup, .btreeFind | .lookup, .getBtreeRecord | .lookup, .getParamsOnHlinkId => true
  | .rename, .getBtreeRecord | .rename, .kmallocName => true
  | .fsmFreeExttree, .btreeRemove | .fsmFreeExttree, .fsmFreeBlockChunk => true
  | .fsmFreeBlockChunk, .test .bitOutOfRange | .fsmFreeBlockChunk, .test .bitClear => true
  | _, _ => false

def Call.faulty (c : Call) : Bool := unguarded c.caller c.callee && c.result != 0

-- What is left of a session if the calls are open.
structure LockProfile where
  depth    : TreeLock → Nat
  underrun : Bool
  faults   : Nat

def Session.profile (s : Session) : LockProfile where
  depth    := s.depth
  underrun := s.underrun
  faults   := s.calls.countP (·.faulty)

namespace LockProfile

variable {p p' : LockProfile} {l : TreeLock}

def locked (p : LockProfile) (l : TreeLock) : LockProfile :=
  { p with depth := Function.update p.depth l (p.depth l + 1) }

def unlocked (p : LockProfile) (l : TreeLock) : LockProfile :=
  { p with
    depth    := Function.update p.depth l (p.depth l - 1)
    underrun := p.underrun || p.depth l = 0 }

def fault (p : LockProfile) : LockProfile := { p with faults := p.faults + 1 }

@[simp]
theorem unlocked_locked : (p.locked l).unlocked l = p := by
  simp [locked, unlocked]

-- The FSM lock that is kept does not matter to the extents tree's.
theorem unlocked_locked_fsm :
    (((p.locked .extents).locked .fsm).fault).unlocked .extents = (p.locked .fsm).fault := by
  have hdepth : Function.update (Function.update (Function.update p.depth .extents
      (p.depth .extents + 1)) .fsm (p.depth .fsm + 1)) .extents (p.depth .extents) =
      Function.update p.depth .fsm (p.depth .fsm + 1) := by
    funext l
    cases l <;> rfl
  simp [locked, unlocked, fault, hdepth]

end LockProfile

namespace Locking

-- All returns of `m` from sessions with the profile `p` meet `Q`.
def Leads (m : Locking α) (Q : α → LockProfile → Prop) (p : LockProfile) : Prop :=
  ∀ s : Session, s.profile = p → Code.wp m (fun a s' => Q a s'.profile) (fun _ _ => True) True s

namespace Leads

variable {m : Locking α} {f : α → Locking β} {Q Q' : α → LockProfile → Prop}
  {R : β → LockProfile → Prop} {p : LockProfile} {a : Caller} {b : Callee}

theorem pure (h : Q x p) : Leads (pure x) Q p := by
  rintro s rfl
  exact h

theorem haltBind {f : α → Locking β} : Leads (Code.halt >>= f) R p :=
  fun _ _ => trivial

theorem mono (h : Leads m Q p) (hq : ∀ x p', Q x p' → Q' x p') : Leads m Q' p :=
  fun s hs => Code.wp_imp (h s hs) (fun x s' => hq x s'.profile)

theorem bind (h : Leads m Q p) (hf : ∀ x p', Q x p' → Leads (f x) R p') :
    Leads (m >>= f) R p := by
  intro s hs
  rw [Code.wp_bind]
  exact Code.wp_imp (h s hs) (fun x s' hx => hf x s'.profile hx s' rfl)

theorem same (h : Leads m (fun _ p' => p' = p) p) (hf : ∀ x, Leads (f x) R p) :
    Leads (m >>= f) R p :=
  bind h fun x _ hp => hp ▸ hf x

theorem ite {c : Prop} [Decidable c] {n : Locking α} (hm : c → Leads m Q p)
    (hn : ¬c → Leads n Q p) : Leads (if c then m else n) Q p := by
  by_cases h : c
  case pos => simpa [h] using hm h
  case neg => simpa [h] using hn h

theorem lock {f : Unit → Locking β} (h : Leads (f ()) R (p.locked l)) :
    Leads (Locking.lock l >>= f) R p := by
  rintro s rfl
  exact h (s.locked l) rfl

theorem unlock {f : Unit → Locking β} (h : Leads (f ()) R (p.unlocked l)) :
    Leads (Locking.unlock l >>= f) R p := by
  rintro s rfl
  exact h (s.unlocked l) rfl

theorem called {Q : Int → LockProfile → Prop}
    (h : ∀ r, Q r (if Call.unguarded a b && r != 0 then p.fault else p)) :
    Leads (Locking.call a b) Q p := by
  rintro s rfl
  simp only [Code.wp, Locking.call]
  cases s.answers
  case nil         => trivial
  case cons r rest =>
    have h := h r
    by_cases hf : (Call.unguarded a b && r != 0) = true
    all_goals
      simp only [hf, Bool.false_eq_true, if_true, if_false, LockProfile.fault] at h
      simpa [Session.called, Session.profile, Call.faulty, List.countP_cons, hf] using h

-- A call after whose error the locks are dealt with.
theorem call {f : Int → Locking β} (hg : Call.unguarded a b = false) (h : ∀ r, Leads (f r) R p) :
    Leads (Locking.call a b >>= f) R p :=
  same (called fun _ => by simp [hg]) h

theorem unguardedCall {f : Int → Locking β} (hg : Call.unguarded a b = true)
    (h : ∀ r, Leads (f r) R (if r = 0 then p else p.fault)) :
    Leads (Locking.call a b >>= f) R p :=
  bind (Q := fun r p' => p' = if r = 0 then p else p.fault)
    (called fun r => by by_cases hr : r = 0 <;> simp [hg, hr]) fun r _ hp => hp ▸ h r

theorem unguardedCheck {m n : Int → Locking β} (hg : Call.unguarded a b = true)
    (hm : ∀ r, r ≠ 0 → Leads (m r) R p.fault) (hn : Leads (n 0) R p) :
    Leads (Locking.call a b >>= fun r => if r ≠ 0 then m r else n r) R p := by
  refine unguardedCall hg fun r => ?_
  by_cases hr : r = 0
  case pos => simpa [hr] using hn
  case neg => simpa [hr] using hm r hr

theorem test {f : Bool → Locking β} (hg : Call.unguarded a (.test c) = false)
    (h : ∀ r, Leads (f r) R p) : Leads (Locking.test a c >>= f) R p :=
  same (call hg fun _ => pure rfl) h

theorem unguardedTest {f : Bool → Locking β} (hg : Call.unguarded a (.test c) = true)
    (h : ∀ r, Leads (f r) R (if r then p.fault else p)) : Leads (Locking.test a c >>= f) R p := by
  refine bind (Q := fun r p' => p' = if r then p.fault else p) ?_ fun r _ hp => hp ▸ h r
  exact unguardedCall hg fun r => pure (by by_cases hr : r = 0 <;> simp [hr])

theorem note {f : Unit → Locking β}
    (h : Leads (f ()) R (if Call.unguarded a b && r != 0 then p.fault else p)) :
    Leads (Locking.note a b r >>= f) R p := by
  rintro s rfl
  refine h (s.called a b r) ?_
  by_cases hf : (Call.unguarded a b && r != 0) = true
  all_goals simp [Session.called, Session.profile, Call.faulty, LockProfile.fault, hf]

theorem bugOn {f : Unit → Locking β} (h : r = 0 → Leads (f ()) R p) :
    Leads (Locking.bugOn r >>= f) R p := by
  rintro s rfl
  rw [Code.wp_bind, Locking.bugOn, Code.wp_haltOn]
  exact ⟨fun _ => trivial, fun hr => h (not_not.mp hr) s rfl⟩

-- A loop whose rounds leave the profile.
theorem forever {body : Locking (Option α)}
    (h : Leads body (fun r p' => r.elim (p' = p) (Q · p')) p) :
    Leads (Locking.forever body) Q p := by
  intro s hs
  rw [Locking.forever, Code.wp_bind, Code.wp_get]
  refine Code.wp_loop (I := fun s => s.profile = p) (fun s hs => ?_) hs
  exact Code.wp_imp (h s hs) (fun r _ hr => by cases r <;> exact hr)

end Leads

end Locking

end Emmcfs
