import Mathlib.Algebra.Order.BigOperators.Group.Finset
import Mathlib.Tactic.Ring
import EmmcfsModel.Snapshot.Theorems.Nesting

namespace Emmcfs.TransactionState

open Finset

variable {τ : Type} [DecidableEq τ] {config : TransactionConfig}
  {s s' : TransactionState τ} {t u : τ} {e : TransactionEvent τ} {reserve p : Nat}

-- What a transaction may do: `reserve` chunks of at most `p` pages. Flushes succeed.
def Permitted (reserve p : Nat) (s : TransactionState τ) : TransactionEvent τ → Prop
  | .add t pages     => s.chunks t < reserve ∧ pages ≤ p
  | .flush _ success => success = true
  | _                => True

def PermittedStep (config : TransactionConfig) (reserve p : Nat) (s : TransactionState τ)
    (e : TransactionEvent τ) (s' : TransactionState τ) : Prop :=
  s.Step config e s' ∧ s.Permitted reserve p e

-- A permitted chunk does not fit into the snapshot area.
def Overflows (config : TransactionConfig) (reserve p : Nat) (s : TransactionState τ) : Prop :=
  ∃ t pages, s.phase t = .running ∧ 0 < s.openBrackets t ∧ s.Permitted reserve p (.add t pages) ∧
    config.maxPagesInSnapshot < s.pageIndex + pages

-- The highest page index with which a transaction can be let in.
def entry (config : TransactionConfig) : Nat := max config.pagesPerHead config.limit

-- The chunks that a task can still add before it has to pass the test of the length again.
def room (reserve : Nat) (s : TransactionState τ) (t : τ) : Nat :=
  if s.phase t = .startRead then reserve
  else if 0 < s.openBrackets t then reserve - s.chunks t
  else 0

omit [DecidableEq τ] in
theorem room_le : s.room reserve t ≤ reserve := by
  rw [room]
  split
  case isTrue  => exact Nat.le_refl _
  case isFalse =>
    split
    case isTrue  => exact Nat.sub_le _ _
    case isFalse => exact Nat.zero_le _

section Bound

variable [Fintype τ]

def Bounded (config : TransactionConfig) (reserve p : Nat) (s : TransactionState τ) : Prop :=
  s.pageIndex + p * ∑ t, s.room reserve t ≤ entry config + Fintype.card τ * (reserve * p)

namespace Bounded

omit [DecidableEq τ] in
theorem of_pageIndex_le (h : s.pageIndex ≤ entry config) : s.Bounded config reserve p := by
  have hsum : ∑ t, s.room reserve t ≤ Fintype.card τ * reserve := by
    simpa using sum_le_card_nsmul univ (s.room reserve) reserve fun _ _ => room_le
  calc s.pageIndex + p * ∑ t, s.room reserve t
    _ ≤ entry config + p * (Fintype.card τ * reserve)   := by gcongr
    _ = entry config + Fintype.card τ * (reserve * p)   := by ring

theorem of_move (h : s.Bounded config reserve p)
    (hother : ∀ u, u ≠ t → s'.phase u = s.phase u ∧ s'.openBrackets u = s.openBrackets u ∧
      s'.chunks u = s.chunks u)
    (hmove : s'.pageIndex + p * s'.room reserve t ≤ s.pageIndex + p * s.room reserve t) :
    s'.Bounded config reserve p := by
  have hsum : ∑ u, s'.room reserve u + s.room reserve t =
      ∑ u, s.room reserve u + s'.room reserve t :=
    sum_add_of_eq_off fun u hu => by
      rw [room, room, (hother u hu).left, (hother u hu).right.left, (hother u hu).right.right]
  have hmul := congrArg (p * ·) hsum
  simp only [Nat.mul_add] at hmul
  rw [Bounded] at h ⊢
  omega

theorem start (h : s.Bounded config reserve p) (hn : s.Nested)
    (hs : s.Step config (.start t) s') : s'.Bounded config reserve p := by
  rw [Step, TransactionState.step] at hs
  split at hs
  case isFalse => cases hs
  case isTrue hr =>
    cases hs
    have hc := hn.counts t
    rw [startTransaction]
    split
    case isTrue h0 =>
      refine h.of_move (t := t) (fun u hu => ?_) ?_
      all_goals simp_all [room, setPhase, setCount, rLockCount]
    case isFalse h0 =>
      have hb : 0 < s.openBrackets t := by
        simp only [rLockCount, setCount, Function.update_self, Option.getD_some] at h0 hc
        omega
      refine h.of_move (t := t) (fun u hu => ?_) ?_
      all_goals simp_all [room, setBrackets, setCount]

theorem test (h : s.Bounded config reserve p) (hn : s.Nested)
    (hs : s.Step config (.test t) s') : s'.Bounded config reserve p := by
  rw [Step, TransactionState.step] at hs
  split at hs
  case h_1 hp =>
    cases hs
    have h0 := hn.outside t (by simp [hp])
    split
    case isTrue =>
      refine h.of_move (t := t) (fun u hu => ?_) ?_
      all_goals simp_all [room, setPhase]
    case isFalse hl => exact of_pageIndex_le (le_max_of_le_right (Nat.not_lt.mp hl))
  case h_2 hp =>
    cases hs
    have h0 := hn.outside t (by simp [hp])
    split
    all_goals
      refine h.of_move (t := t) (fun u hu => ?_) ?_
      all_goals simp_all [room, setPhase]
  case h_3 => cases hs

theorem downWrite (h : s.Bounded config reserve p)
    (hs : s.Step config (.downWrite t) s') : s'.Bounded config reserve p := by
  rw [Step, TransactionState.step] at hs
  split at hs
  case isFalse => cases hs
  case isTrue =>
    split at hs
    case h_1 hp =>
      cases hs
      refine h.of_move (t := t) (fun u hu => ?_) ?_
      all_goals simp_all [room, setPhase]
    case h_2 hp =>
      cases hs
      refine h.of_move (t := t) (fun u hu => ?_) ?_
      all_goals simp_all [room, setPhase]
    case h_3 => cases hs

-- A flush leaves a page index with which a transaction can be let in.
omit [Fintype τ] [DecidableEq τ] in
theorem flash_le : (s.flash config true).2 ≤ entry config := by
  rw [flash]
  split
  case isTrue hl => exact le_max_of_le_right hl
  case isFalse   => exact Nat.le_max_left ..

theorem flush (hs : s.Step config (.flush t true) s') : s'.Bounded config reserve p := by
  rw [Step, TransactionState.step] at hs
  have hle : (s.flash config true).2 ≤ entry config := flash_le
  split at hs
  case h_1 =>
    split at hs
    case isTrue  => cases hs; exact of_pageIndex_le hle
    case isFalse => cases hs; exact of_pageIndex_le hle
  case h_2 => cases hs; exact of_pageIndex_le hle
  case h_3 => cases hs

theorem downRead (h : s.Bounded config reserve p)
    (hs : s.Step config (.downRead t) s') : s'.Bounded config reserve p := by
  rw [Step, TransactionState.step] at hs
  split at hs
  case isFalse => cases hs
  case isTrue hp =>
    cases hs
    refine h.of_move (t := t) (fun u hu => ?_) ?_
    all_goals simp_all [room, setPhase, setCount, setBrackets, setChunks]

theorem stop (h : s.Bounded config reserve p) (hn : s.Nested)
    (hs : s.Step config (.stop t) s') : s'.Bounded config reserve p := by
  rw [Step, TransactionState.step] at hs
  split at hs
  case isFalse => cases hs
  case isTrue hr =>
    have hc := hn.counts t
    rw [stopTransaction] at hs
    split at hs
    case h_1 => cases hs
    case h_2 => cases hs
    case h_3 hl =>
      cases hs
      have hc : s.openBrackets t = 1 := by rw [← hc, rLockCount, hl, Option.getD_some]
      refine h.of_move (t := t) (fun u hu => ?_) ?_
      all_goals simp_all [room, setPhase, setCount, setBrackets]
    case h_4 n hl =>
      cases hs
      have hc : s.openBrackets t = n + 2 := by rw [← hc, rLockCount, hl, Option.getD_some]
      refine h.of_move (t := t) (fun u hu => ?_) ?_
      all_goals simp_all [room, setCount, setBrackets]

-- A chunk takes from the room of its task what it adds to the page index.
theorem add (h : s.Bounded config reserve p) (hp : s.Permitted reserve p (.add t pages))
    (hs : s.Step config (.add t pages) s') : s'.Bounded config reserve p := by
  rw [Step, TransactionState.step] at hs
  split at hs
  case isFalse => cases hs
  case isTrue hr =>
    rw [addToSnapshot] at hs
    split at hs
    case isTrue  => cases hs
    case isFalse =>
      split at hs
      case isTrue  => cases hs
      case isFalse =>
        cases hs
        refine h.of_move (t := t) (fun u hu => ?_) ?_
        case refine_1 => simp [setChunks, hu]
        case refine_2 =>
          have hroom : reserve - s.chunks t = reserve - (s.chunks t + 1) + 1 := by
            have := hp.left
            omega
          simp only [room, setChunks, hr, Function.update_self, reduceCtorEq, if_true, if_false,
            hroom, Nat.mul_add, Nat.mul_one]
          have := hp.right
          omega

theorem step (h : s.Bounded config reserve p) (hn : s.Nested)
    (hs : s.PermittedStep config reserve p e s') : s'.Bounded config reserve p := by
  cases e
  case start t         => exact h.start hn hs.left
  case test t          => exact h.test hn hs.left
  case downWrite t     => exact h.downWrite hs.left
  case flush t success => exact flush (hs.right ▸ hs.left)
  case downRead t      => exact h.downRead hs.left
  case stop t          => exact h.stop hn hs.left
  case add t pages     => exact h.add hs.right hs.left

omit [DecidableEq τ] in
theorem not_overflows (h : s.Bounded config reserve p)
    (hfit : entry config + Fintype.card τ * (reserve * p) ≤ config.maxPagesInSnapshot) :
    ¬s.Overflows config reserve p := by
  rintro ⟨t, pages, hr, hb, hp, ho⟩
  have hroom : 1 ≤ s.room reserve t := by
    have := hp.left
    simp only [room, hr, hb, reduceCtorEq, if_true, if_false]
    omega
  have hsum : s.room reserve t ≤ ∑ u, s.room reserve u :=
    single_le_sum (fun _ _ => Nat.zero_le _) (mem_univ t)
  have hmul : p ≤ p * ∑ u, s.room reserve u := Nat.le_mul_of_pos_right p (hroom.trans hsum)
  have := hp.right
  rw [Bounded] at h
  omega

end Bounded

end Bound

section Reach

-- A chunk that does not fit can come after the state.
def Reaches (config : TransactionConfig) (reserve p : Nat) (s : TransactionState τ) : Prop :=
  ∃ es s', Run (PermittedStep config reserve p) s es s' ∧ s'.Overflows config reserve p

theorem Overflows.reaches (h : s.Overflows config reserve p) : s.Reaches config reserve p :=
  ⟨[], s, .nil, h⟩

theorem Reaches.before (h : s'.Reaches config reserve p) (hs : s.step config e = .next s')
    (hp : s.Permitted reserve p e) : s.Reaches config reserve p := by
  obtain ⟨es, s'', hr, ho⟩ := h
  exact ⟨e :: es, s'', .cons ⟨hs, hp⟩ hr, ho⟩

variable [Fintype τ]

-- All tasks are past the test, and their rooms together are too large.
theorem reaches_of_admitted (hw : s.writer = false)
    (hall : ∀ t, s.phase t = .startRead ∨ s.phase t = .running ∧ 0 < s.openBrackets t)
    (hpos : 0 < ∑ t, s.room reserve t)
    (h : config.maxPagesInSnapshot < s.pageIndex + p * ∑ t, s.room reserve t) :
    s.Reaches config reserve p := by
  -- each step of a waiting task ends its waiting, and each other step uses up some room
  induction hn : ∑ t, s.room reserve t + #{t | s.phase t = .startRead}
    using Nat.strong_induction_on generalizing s
  case h n ih =>
  by_cases hread : ∃ t, s.phase t = .startRead
  case pos =>
    obtain ⟨t, ht⟩ := hread
    let s' := { s with readers := s.readers + 1 } |>.setCount t (s.rLockCount t + 1)
      |>.setBrackets t (s.openBrackets t + 1) |>.setChunks t 0 |>.setPhase t .running
    have hroom : s'.room reserve = s.room reserve := by
      funext u
      by_cases hu : u = t
      all_goals simp [room, s', setPhase, setCount, setBrackets, setChunks, hu, ht]
    have hcard := card_add_of_iff_off (t := t) (p := fun u => s.phase u = .startRead)
      (q := fun u => s'.phase u = .startRead) fun u hu => by
        simp [s', setPhase, setCount, setBrackets, setChunks, hu]
    have hphase : s'.phase t = .running := by simp [s', setPhase]
    rw [if_pos ht, if_neg (by simp [hphase])] at hcard
    have hstep : s.step config (.downRead t) = .next s' := by simp [step, ht, hw, s']
    suffices s'.Reaches config reserve p from this.before hstep trivial
    refine ih _ ?_ hw (fun u => ?_) (hroom ▸ hpos) (hroom ▸ h) rfl
    case refine_1 =>
      rw [hroom]
      omega
    case refine_2 =>
      have := hall u
      by_cases hu : u = t
      all_goals simp_all [s', setPhase, setCount, setBrackets, setChunks]
  case neg =>
    have hin : ∀ t, s.phase t = .running ∧ 0 < s.openBrackets t :=
      fun t => (hall t).resolve_left fun ht => hread ⟨t, ht⟩
    obtain ⟨t, _, ht⟩ := exists_ne_zero_of_sum_ne_zero hpos.ne'
    have hroom : s.room reserve t = reserve - s.chunks t := by simp [room, hin t]
    have hperm : s.Permitted reserve p (.add t p) := ⟨by omega, le_refl p⟩
    by_cases ho : config.maxPagesInSnapshot < s.pageIndex + p
    case pos => exact Overflows.reaches ⟨t, p, (hin t).left, (hin t).right, hperm, ho⟩
    case neg =>
      let s' := { s with pageIndex := s.pageIndex + p } |>.setChunks t (s.chunks t + 1)
      have hroom' : s'.room reserve t = reserve - (s.chunks t + 1) := by
        simp [room, s', setChunks, hin t]
      have hsum : ∑ u, s'.room reserve u + s.room reserve t =
          ∑ u, s.room reserve u + s'.room reserve t :=
        sum_add_of_eq_off fun u hu => by simp [room, s', setChunks, hu]
      have hsum : ∑ u, s.room reserve u = ∑ u, s'.room reserve u + 1 := by omega
      rw [hsum, Nat.mul_add, Nat.mul_one] at h
      have hpage : s'.pageIndex = s.pageIndex + p := rfl
      have hwait : ∀ u, s'.phase u = s.phase u := fun _ => rfl
      have hstep : s.step config (.add t p) = .next s' := by
        simp [step, addToSnapshot, hin t, hw, ho, s']
      suffices s'.Reaches config reserve p from this.before hstep hperm
      refine ih _ ?_ hw hall ?_ ?_ rfl
      case refine_1 =>
        simp only [hwait]
        omega
      case refine_2 =>
        by_contra h0
        rw [Nat.eq_zero_of_not_pos h0] at h
        omega
      case refine_3 => omega

omit [Fintype τ] in
-- A task is let in with the highest page index.
theorem exists_admitted (reserve p : Nat) (hr : s.readers = 0) (hw : s.writer = false)
    (hpage : s.pageIndex = entry config) (ht : s.phase t = .running) (h0 : s.rLockCount t = 0) :
    ∃ s' : TransactionState τ, (s'.Reaches config reserve p → s.Reaches config reserve p) ∧
      s'.readers = 0 ∧ s'.writer = false ∧ s'.pageIndex = entry config ∧
      s'.phase t = .startRead ∧
      ∀ u, u ≠ t → s'.phase u = s.phase u ∧ s'.rLockCount u = s.rLockCount u := by
  let s₁ := s.setCount t 0 |>.setPhase t .startFlash
  have h₁ : s.step config (.start t) = .next s₁ := by
    rw [rLockCount] at h0
    simp [step, startTransaction, ht, h0, s₁, rLockCount, setCount]
  by_cases hl : config.limit < s.pageIndex
  case neg =>
    let s₂ := s₁.setPhase t .startRead
    have h₂ : s₁.step config (.test t) = .next s₂ := by
      simp [step, s₁, s₂, setPhase, setCount, hl]
    refine ⟨s₂, fun h => (h.before h₂ trivial).before h₁ trivial, hr, hw, hpage, ?_, fun u hu => ?_⟩
    all_goals simp_all [s₁, s₂, setPhase, setCount, rLockCount]
  case pos =>
    -- the flush leaves the page index, which is that of an empty snapshot
    have hhead : entry config = config.pagesPerHead := by
      rw [entry] at hpage ⊢
      omega
    let s₂ := s₁.setPhase t .startLock
    let s₃ := { s₂ with writer := true } |>.setPhase t .startWrite
    let s₄ := { s₃ with writer := false, pageIndex := config.pagesPerHead }
      |>.setPhase t .startRead
    have h₂ : s₁.step config (.test t) = .next s₂ := by
      simp [step, s₁, s₂, setPhase, setCount, hl]
    have h₃ : s₂.step config (.downWrite t) = .next s₃ := by
      simp [step, s₁, s₂, s₃, setPhase, setCount, hr, hw]
    have h₄ : s₃.step config (.flush t true) = .next s₄ := by
      simp [step, flash, s₁, s₂, s₃, s₄, setPhase, setCount, Nat.not_le.mpr hl]
    refine ⟨s₄, fun h => (((h.before h₄ rfl).before h₃ trivial).before h₂ trivial).before h₁ trivial,
      hr, rfl, hhead.symm, ?_, fun u hu => ?_⟩
    all_goals simp_all [s₁, s₂, s₃, s₄, setPhase, setCount, rLockCount]

-- The tasks wait or are let in, with the highest page index.
theorem reaches_of_entry [Nonempty τ] (hreserve : 0 < reserve) (hr : s.readers = 0)
    (hw : s.writer = false) (hpage : s.pageIndex = entry config)
    (hall : ∀ t, s.phase t = .startRead ∨ s.phase t = .running ∧ s.rLockCount t = 0)
    (h : config.maxPagesInSnapshot < entry config + Fintype.card τ * (reserve * p)) :
    s.Reaches config reserve p := by
  induction hn : #{t | s.phase t ≠ .startRead} generalizing s
  case zero =>
    have hread : ∀ t, s.phase t = .startRead := by
      intro t
      by_contra ht
      exact (card_eq_zero.mp hn ▸ notMem_empty t) (by simpa using ht)
    have hsum : ∑ t, s.room reserve t = Fintype.card τ * reserve := by simp [room, hread]
    refine reaches_of_admitted hw (fun t => .inl (hread t)) ?_ ?_
    case refine_1 => exact hsum ▸ Nat.mul_pos Fintype.card_pos hreserve
    case refine_2 =>
      rw [hpage, hsum, Nat.mul_comm p, Nat.mul_assoc]
      exact h
  case succ n ih =>
    obtain ⟨t, ht⟩ : ({t | s.phase t ≠ .startRead} : Finset τ).Nonempty := by
      rw [← card_pos, hn]
      exact n.succ_pos
    have ht : s.phase t ≠ .startRead := by simpa using ht
    have hidle := (hall t).resolve_left ht
    obtain ⟨s', hreach, hr', hw', hpage', ht', hother⟩ :=
      exists_admitted reserve p hr hw hpage hidle.left hidle.right
    have hcard := card_add_of_iff_off (t := t) (p := fun u => s.phase u ≠ .startRead)
      (q := fun u => s'.phase u ≠ .startRead) fun u hu => by rw [(hother u hu).left]
    rw [if_pos ht, if_neg (not_not_intro ht')] at hcard
    refine hreach (ih hr' hw' hpage' (fun u => ?_) (by omega))
    by_cases hu : u = t
    case pos => exact .inl (hu ▸ ht')
    case neg =>
      rw [(hother u hu).left, (hother u hu).right]
      exact hall u

omit [Fintype τ] in
-- A transaction of one page raises the page index, up to the length at which a flush follows.
theorem exists_raised (hp : 0 < p) (hreserve : 0 < reserve) (hr : s.readers = 0)
    (hw : s.writer = false) (hl : s.pageIndex < config.limit) (ht : s.phase t = .running)
    (h0 : s.rLockCount t = 0) (hb : s.openBrackets t = 0) :
    s.Reaches config reserve p ∨
    ∃ s' : TransactionState τ, (s'.Reaches config reserve p → s.Reaches config reserve p) ∧
      s'.readers = 0 ∧ s'.writer = false ∧ s'.pageIndex = s.pageIndex + 1 ∧
      (s'.phase t = .running ∧ s'.rLockCount t = 0 ∧ s'.openBrackets t = 0) ∧
      ∀ u, u ≠ t → s'.phase u = s.phase u ∧ s'.rLockCount u = s.rLockCount u ∧
        s'.openBrackets u = s.openBrackets u := by
  let s₁ := s.setCount t 0 |>.setPhase t .startFlash
  let s₂ := s₁.setPhase t .startRead
  let s₃ := { s₂ with readers := 1 } |>.setCount t 1 |>.setBrackets t 1 |>.setChunks t 0
    |>.setPhase t .running
  let s₄ := { s₃ with pageIndex := s.pageIndex + 1 } |>.setChunks t 1
  let s₅ := { s₄ with readers := 0 } |>.setCount t 0 |>.setBrackets t 0 |>.setPhase t .stopFlash
  let s₆ := s₅.setPhase t .running
  have h₁ : s.step config (.start t) = .next s₁ := by
    rw [rLockCount] at h0
    simp [step, startTransaction, ht, h0, s₁, rLockCount, setCount]
  have h₂ : s₁.step config (.test t) = .next s₂ := by
    simp [step, s₁, s₂, setPhase, setCount, Nat.not_lt.mpr hl.le]
  have h₃ : s₂.step config (.downRead t) = .next s₃ := by
    simp [step, s₁, s₂, s₃, setPhase, setCount, rLockCount, hw, hr, hb]
  have hin : s₃.phase t = .running ∧ 0 < s₃.openBrackets t ∧ s₃.chunks t < reserve := by
    simpa [s₁, s₂, s₃, setPhase, setCount, setBrackets, setChunks] using hreserve
  have hback : s₃.Reaches config reserve p → s.Reaches config reserve p :=
    fun h => ((h.before h₃ trivial).before h₂ trivial).before h₁ trivial
  by_cases ho : config.maxPagesInSnapshot < s.pageIndex + 1
  case pos => exact .inl (hback (Overflows.reaches ⟨t, 1, hin.left, hin.right.left,
    ⟨hin.right.right, hp⟩, ho⟩))
  case neg =>
    have h₄ : s₃.step config (.add t 1) = .next s₄ := by
      simp [step, addToSnapshot, s₁, s₂, s₃, s₄, setPhase, setCount, setBrackets, setChunks, hw, ho]
    have h₅ : s₄.step config (.stop t) = .next s₅ := by
      simp [step, stopTransaction, s₁, s₂, s₃, s₄, s₅, setPhase, setCount, setBrackets, setChunks]
    have h₆ : s₅.step config (.test t) = .next s₆ := by
      simp [step, s₁, s₂, s₃, s₄, s₅, s₆, setPhase, setCount, setBrackets, setChunks,
        Nat.not_lt.mpr (Nat.succ_le_of_lt hl)]
    refine .inr ⟨s₆, fun h => hback (((h.before h₆ trivial).before h₅ trivial).before h₄
      ⟨hin.right.right, hp⟩), rfl, hw, rfl, ?_, fun u hu => ?_⟩
    all_goals simp_all [s₁, s₂, s₃, s₄, s₅, s₆, setPhase, setCount, setBrackets, setChunks,
      rLockCount]

-- No task is in a transaction.
theorem reaches_of_idle [Nonempty τ] (hp : 0 < p) (hreserve : 0 < reserve) (hr : s.readers = 0)
    (hw : s.writer = false) (hle : s.pageIndex ≤ entry config)
    (hhead : config.pagesPerHead ≤ s.pageIndex)
    (hall : ∀ t, s.phase t = .running ∧ s.rLockCount t = 0 ∧ s.openBrackets t = 0)
    (h : config.maxPagesInSnapshot < entry config + Fintype.card τ * (reserve * p)) :
    s.Reaches config reserve p := by
  induction hn : entry config - s.pageIndex generalizing s
  case zero =>
    exact reaches_of_entry hreserve hr hw (by omega) (fun t => .inr ⟨(hall t).left,
      (hall t).right.left⟩) h
  case succ n ih =>
    let t : τ := Classical.arbitrary τ
    have hl : s.pageIndex < config.limit := by
      rw [entry] at hn
      omega
    cases exists_raised hp hreserve hr hw hl (hall t).left (hall t).right.left (hall t).right.right
    case inl h => exact h
    case inr h =>
      obtain ⟨s', hreach, hr', hw', hpage', ht', hother⟩ := h
      refine hreach (ih hr' hw' (by omega) (by omega) (fun u => ?_) (by omega))
      by_cases hu : u = t
      case pos => exact hu ▸ ht'
      case neg =>
        rw [(hother u hu).left, (hother u hu).right.left, (hother u hu).right.right]
        exact hall u

end Reach

variable [Fintype τ]

theorem bounded_of_run (hr : Run (PermittedStep config reserve p) (init config) es s) :
    s.Bounded config reserve p := by
  have hstep : ∀ (s : TransactionState τ) e s', s.Nested ∧ s.Bounded config reserve p →
      s.PermittedStep config reserve p e s' → s'.Nested ∧ s'.Bounded config reserve p := by
    intro s e s' h hs
    refine ⟨h.left.step hs.left ?_, h.right.step h.left hs⟩
    rintro ⟨t, rfl, -⟩
    cases hs.right
  exact (hr.invariant hstep ⟨.init, .of_pageIndex_le (le_max_left ..)⟩).right

-- With transactions that keep to the reserve, the snapshot area cannot overflow exactly if there is
-- room above the highest page index with which a transaction can be let in for one transaction of
-- each task, in chunks of whole nodes.
theorem not_overflows_iff (geometry : SnapshotGeometry) :
    (∀ es s, Run (PermittedStep geometry.setUpMaxSnapshotHeight geometry.reserve
        geometry.pagesPerNode) (init geometry.setUpMaxSnapshotHeight : TransactionState τ) es s →
      ¬s.Overflows geometry.setUpMaxSnapshotHeight geometry.reserve geometry.pagesPerNode) ↔
    Fintype.card τ = 0 ∨ entry geometry.setUpMaxSnapshotHeight +
      Fintype.card τ * (geometry.reserve * geometry.pagesPerNode) ≤
        geometry.area.maxPagesInSnapshot := by
  constructor
  case mp =>
    intro h
    by_contra! hc
    have : Nonempty τ := Fintype.card_pos_iff.mp (Nat.pos_of_ne_zero hc.left)
    have hreserve : 0 < geometry.reserve := by
      rw [SnapshotGeometry.reserve]
      omega
    obtain ⟨es, s, hr, ho⟩ := reaches_of_idle (s := init geometry.setUpMaxSnapshotHeight)
      geometry.pagesPerNode_pos hreserve rfl rfl (le_max_left ..) (le_refl _)
      (fun t => ⟨rfl, rfl, rfl⟩) hc.right
    exact h es s hr ho
  case mpr =>
    intro hfit es s hr
    cases hfit
    case inl h0 =>
      rintro ⟨t, -⟩
      exact (Fintype.card_eq_zero_iff.mp h0).false t
    case inr hfit => exact (bounded_of_run hr).not_overflows hfit

-- A device of 64 MiB with nodes of 16 pages, and a snapshot area of 64 blocks.
def sixteenPageNodes : SnapshotGeometry where
  area               := .pages64
  deviceSize         := 64 * 1024 * 1024
  logPagesPerNode    := 4
  logPagesPerNode_le := le_refl 4

-- One task overflows the area with the fourth of the 22 nodes that its transaction may change.
theorem sixteenPageNodes_overflows :
    ∃ es s, Run (PermittedStep sixteenPageNodes.setUpMaxSnapshotHeight sixteenPageNodes.reserve
        sixteenPageNodes.pagesPerNode)
      (init sixteenPageNodes.setUpMaxSnapshotHeight : TransactionState Unit) es s ∧
      s.step sixteenPageNodes.setUpMaxSnapshotHeight (.add () 16) = .bug ∧
      s.Permitted sixteenPageNodes.reserve sixteenPageNodes.pagesPerNode (.add () 16) := by
  have hheight : sixteenPageNodes.btreeHeight = 2 := by
    rw [SnapshotGeometry.btreeHeight, SnapshotGeometry.countMaxCattreeHeight,
      SnapshotGeometry.cattreeHeight, if_neg (by decide)]
  have hconfig : sixteenPageNodes.setUpMaxSnapshotHeight = ⟨1, 62, 39⟩ := by
    rw [SnapshotGeometry.setUpMaxSnapshotHeight, hheight]
    rfl
  have hreserve : sixteenPageNodes.reserve = 22 := by rw [SnapshotGeometry.reserve, hheight]
  rw [hconfig, hreserve]
  refine ⟨[.start (), .test (), .downRead (), .add () 16, .add () 16, .add () 16], _,
    .cons ⟨rfl, trivial⟩ (.cons ⟨rfl, trivial⟩ (.cons ⟨rfl, trivial⟩ (.cons ⟨rfl, ?_⟩
      (.cons ⟨rfl, ?_⟩ (.cons ⟨rfl, ?_⟩ .nil))))), rfl, ?_⟩
  all_goals exact ⟨by decide, by decide⟩

end Emmcfs.TransactionState
