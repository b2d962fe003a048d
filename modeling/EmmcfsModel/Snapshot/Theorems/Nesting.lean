import EmmcfsModel.Lib.Run
import EmmcfsModel.Lib.Tally
import EmmcfsModel.Snapshot.Transaction

namespace Emmcfs.TransactionState

open Finset

variable {τ : Type} [Fintype τ] [DecidableEq τ] {config : TransactionConfig}
  {s s' : TransactionState τ} {t u : τ} {e : TransactionEvent τ} {p : TaskPhase}

-- The task is in the middle of a commit, sync and clear.
def Flushing (s : TransactionState τ) (t : τ) : Prop :=
  s.phase t = .startWrite ∨ s.phase t = .stopWrite

instance : DecidablePred (s.Flushing) := fun _ => inferInstanceAs (Decidable (_ ∨ _))

-- What is expected of transaction_lock and the task logs.
structure WellNested (config : TransactionConfig) (s : TransactionState τ) : Prop where
  readers   : s.readers = #{t | 0 < s.rLockCount t}
  counts    : ∀ t, s.rLockCount t = s.openBrackets t
  exclusive : ∀ t, s.Flushing t → ∀ u, s.rLockCount u = 0
  no_bug    : ∀ t, s.step config (.stop t) ≠ .bug

-- A flush fails that was to precede a transaction, whose code does not learn of it.
def StartFails (config : TransactionConfig) (s : TransactionState τ) (e : TransactionEvent τ) :
    Prop :=
  ∃ t, e = .flush t false ∧ s.phase t = .startWrite ∧ config.limit < s.pageIndex

-- The invariant: `WellNested`, with where the tasks are.
structure Nested (s : TransactionState τ) : Prop where
  counts    : ∀ t, s.rLockCount t = s.openBrackets t
  outside   : ∀ t, s.phase t ≠ .running → s.openBrackets t = 0
  readers   : s.readers = #{t | 0 < s.openBrackets t}
  writer    : (if s.writer then 1 else 0) = #{t | s.Flushing t}
  exclusive : s.writer = true → s.readers = 0

namespace Nested

omit [DecidableEq τ] in
theorem init : (init config : TransactionState τ).Nested := by
  constructor <;> simp [TransactionState.init, rLockCount, Flushing]

omit [DecidableEq τ] in
-- A task that flushes is the writer.
theorem writer_of_flushing (h : s.Nested) (ht : s.Flushing t) : s.writer = true := by
  by_contra hw
  have hcard := h.writer
  rw [if_neg hw] at hcard
  have hmem : t ∈ ({u | s.Flushing u} : Finset τ) := by simpa using ht
  rw [card_eq_zero.mp hcard.symm] at hmem
  exact notMem_empty t hmem

theorem wellNested (h : s.Nested) : s.WellNested config where
  readers := by simpa only [h.counts] using h.readers
  counts  := h.counts
  exclusive t ht u := by
    have hr := h.exclusive (h.writer_of_flushing ht)
    rw [h.readers, card_eq_zero] at hr
    rw [h.counts]
    by_contra hu
    exact (hr ▸ notMem_empty u) (by simpa using Nat.pos_of_ne_zero hu)
  no_bug t hb := by
    rw [step] at hb
    split at hb
    case isTrue hc =>
      have hpos : 0 < s.rLockCount t := h.counts t ▸ hc.right
      rw [stopTransaction] at hb
      split at hb
      case h_1 hl => simp [rLockCount, hl] at hpos
      case h_2 hl => simp [rLockCount, hl] at hpos
      case h_3    => cases hb
      case h_4    => cases hb
    case isFalse => cases hb

-- One task has moved.
theorem of_move (h : s.Nested)
    (hother : ∀ u, u ≠ t → s'.phase u = s.phase u ∧ s'.rLockCount u = s.rLockCount u ∧
      s'.openBrackets u = s.openBrackets u)
    (hcount : s'.rLockCount t = s'.openBrackets t)
    (hout : s'.phase t ≠ .running → s'.openBrackets t = 0)
    (hreaders : s'.readers + (if 0 < s.openBrackets t then 1 else 0) =
      s.readers + (if 0 < s'.openBrackets t then 1 else 0))
    (hwriter : (if s'.writer then 1 else 0) + (if s.Flushing t then 1 else 0) =
      (if s.writer then 1 else 0) + (if s'.Flushing t then 1 else 0))
    (hexcl : s'.writer = true → s'.readers = 0) : s'.Nested := by
  constructor
  case counts =>
    intro u
    by_cases hu : u = t
    case pos => exact hu ▸ hcount
    case neg => rw [(hother u hu).right.left, (hother u hu).right.right, h.counts]
  case outside =>
    intro u
    by_cases hu : u = t
    case pos => exact hu ▸ hout
    case neg =>
      rw [(hother u hu).left, (hother u hu).right.right]
      exact h.outside u
  case readers =>
    have hcard : #{u | 0 < s'.openBrackets u} + (if 0 < s.openBrackets t then 1 else 0) =
        #{u | 0 < s.openBrackets u} + (if 0 < s'.openBrackets t then 1 else 0) :=
      card_add_of_iff_off (p := fun u => 0 < s.openBrackets u) (q := fun u => 0 < s'.openBrackets u)
        fun u hu => by rw [(hother u hu).right.right]
    have := h.readers
    omega
  case writer =>
    have hcard : #{u | s'.Flushing u} + (if s.Flushing t then 1 else 0) =
        #{u | s.Flushing u} + (if s'.Flushing t then 1 else 0) :=
      card_add_of_iff_off (p := s.Flushing) (q := s'.Flushing)
        fun u hu => by rw [Flushing, Flushing, (hother u hu).left]
    have := h.writer
    omega
  case exclusive => exact hexcl

section Steps

-- Each event moves one task, and `of_move` leaves a few facts about it.
theorem start (h : s.Nested) (hs : s.Step config (.start t) s') : s'.Nested := by
  rw [Step, step] at hs
  split at hs
  case isFalse => cases hs
  case isTrue hp =>
    cases hs
    have hc := h.counts t
    rw [startTransaction]
    split
    case isTrue h0 =>
      have h0 : s.rLockCount t = 0 := by simpa [rLockCount, setCount] using h0
      refine h.of_move (t := t) (fun u hu => ?_) ?_ ?_ ?_ ?_ h.exclusive
      all_goals simp_all [setPhase, setCount, rLockCount, Flushing]
    case isFalse h0 =>
      have h0 : s.rLockCount t ≠ 0 := by simpa [rLockCount, setCount] using h0
      refine h.of_move (t := t) (fun u hu => ?_) ?_ ?_ ?_ ?_ h.exclusive
      all_goals simp_all [setCount, setBrackets, rLockCount, Flushing]

-- A task goes on without the lock.
theorem moved (h : s.Nested) (h0 : s.openBrackets t = 0) (hold : ¬s.Flushing t)
    (hnew : p ≠ .startWrite ∧ p ≠ .stopWrite) : (s.setPhase t p).Nested := by
  refine h.of_move (t := t) (fun u hu => ?_) (h.counts t) (fun _ => h0) rfl ?_ h.exclusive
  case refine_1 => simp [setPhase, rLockCount, hu]
  case refine_2 =>
    have hnew : ¬(s.setPhase t p).Flushing t := by simp [Flushing, setPhase, hnew]
    rw [if_neg hold, if_neg hnew]
    rfl

theorem test (h : s.Nested) (hs : s.Step config (.test t) s') : s'.Nested := by
  rw [Step, step] at hs
  split at hs
  case h_1 hp =>
    cases hs
    exact h.moved (h.outside t (by simp [hp])) (by simp [Flushing, hp]) (by split <;> simp)
  case h_2 hp =>
    cases hs
    exact h.moved (h.outside t (by simp [hp])) (by simp [Flushing, hp]) (by split <;> simp)
  case h_3 => cases hs

theorem downWrite (h : s.Nested) (hs : s.Step config (.downWrite t) s') : s'.Nested := by
  rw [Step, step] at hs
  split at hs
  case isFalse => cases hs
  case isTrue hfree =>
    have hc := h.counts t
    split at hs
    case h_1 hp =>
      cases hs
      have h0 := h.outside t (by simp [hp])
      refine h.of_move (t := t) (fun u hu => ?_) ?_ ?_ ?_ ?_ fun _ => hfree.left
      all_goals simp_all [setPhase, rLockCount, Flushing]
    case h_2 hp =>
      cases hs
      have h0 := h.outside t (by simp [hp])
      refine h.of_move (t := t) (fun u hu => ?_) ?_ ?_ ?_ ?_ fun _ => hfree.left
      all_goals simp_all [setPhase, rLockCount, Flushing]
    case h_3 => cases hs

theorem flush (h : s.Nested) (hs : s.Step config (.flush t success) s')
    (hf : ¬s.StartFails config (.flush t success)) : s'.Nested := by
  rw [Step, step] at hs
  have hc := h.counts t
  split at hs
  case h_1 hp =>
    have h0 := h.outside t (by simp [hp])
    have hw := h.writer_of_flushing (t := t) (.inl hp)
    have hdone : (s.flash config success).1 = true := by
      rw [flash]
      split
      case isTrue  => rfl
      case isFalse hl =>
        cases success
        case true  => rfl
        case false => exact absurd ⟨t, rfl, hp, Nat.not_le.mp hl⟩ hf
    rw [if_pos hdone] at hs
    cases hs
    refine h.of_move (t := t) (fun u hu => ?_) ?_ ?_ ?_ ?_ nofun
    all_goals simp_all [setPhase, rLockCount, Flushing]
  case h_2 hp =>
    have h0 := h.outside t (by simp [hp])
    have hw := h.writer_of_flushing (t := t) (.inr hp)
    cases hs
    refine h.of_move (t := t) (fun u hu => ?_) ?_ ?_ ?_ ?_ nofun
    all_goals simp_all [setPhase, rLockCount, Flushing]
  case h_3 => cases hs

theorem downRead (h : s.Nested) (hs : s.Step config (.downRead t) s') : s'.Nested := by
  rw [Step, step] at hs
  split at hs
  case isFalse => cases hs
  case isTrue hp =>
    cases hs
    have h0 := h.outside t (by simp [hp.left])
    have hc := h.counts t
    refine h.of_move (t := t) (fun u hu => ?_) ?_ ?_ ?_ ?_ fun hw => ?_
    all_goals simp_all [setPhase, setCount, setBrackets, setChunks, rLockCount, Flushing]

theorem stop (h : s.Nested) (hs : s.Step config (.stop t) s') : s'.Nested := by
  rw [Step, step] at hs
  split at hs
  case isFalse => cases hs
  case isTrue hp =>
    have hc := h.counts t
    rw [stopTransaction] at hs
    split at hs
    case h_1 => cases hs
    case h_2 => cases hs
    case h_3 hl =>
      cases hs
      have hc : s.openBrackets t = 1 := by rw [← hc, rLockCount, hl, Option.getD_some]
      have hpos : 0 < s.readers := by
        rw [h.readers]
        exact card_pos.mpr ⟨t, by simp [hc]⟩
      refine h.of_move (t := t) (fun u hu => ?_) ?_ ?_ ?_ ?_ fun hw => ?_
      case refine_4 =>
        simp only [setPhase, setCount, setBrackets, hc, Function.update_self]
        simpa using Nat.sub_add_cancel hpos
      case refine_6 =>
        have := h.exclusive hw
        omega
      all_goals simp_all [setPhase, setCount, setBrackets, rLockCount, Flushing]
    case h_4 n hl =>
      cases hs
      have hc : s.openBrackets t = n + 2 := by rw [← hc, rLockCount, hl, Option.getD_some]
      refine h.of_move (t := t) (fun u hu => ?_) ?_ ?_ ?_ ?_ h.exclusive
      all_goals simp_all [setCount, setBrackets, rLockCount, Flushing]

theorem add (h : s.Nested) (hs : s.Step config (.add t pages) s') : s'.Nested := by
  rw [Step, step] at hs
  split at hs
  case isFalse => cases hs
  case isTrue hp =>
    rw [addToSnapshot] at hs
    split at hs
    case isTrue => cases hs
    case isFalse =>
      split at hs
      case isTrue => cases hs
      case isFalse =>
        cases hs
        exact h.of_move (t := t) (fun u _ => ⟨rfl, rfl, rfl⟩) (h.counts t) (h.outside t) rfl rfl
          h.exclusive

theorem step (h : s.Nested) (hs : s.Step config e s') (hf : ¬s.StartFails config e) :
    s'.Nested := by
  cases e
  case start t         => exact h.start hs
  case test t          => exact h.test hs
  case downWrite t     => exact h.downWrite hs
  case flush t success => exact h.flush hs hf
  case downRead t      => exact h.downRead hs
  case stop t          => exact h.stop hs
  case add t pages     => exact h.add hs

end Steps

end Nested

-- A start that fails leaves its task with a bracket that the log does not count.
theorem not_wellNested_of_startFails (h : s.Nested) (hs : s.Step config e s')
    (hf : s.StartFails config e) : ¬s'.WellNested config := by
  obtain ⟨t, rfl, hp, hl⟩ := hf
  have hflash : s.flash config false = (false, s.pageIndex) := by
    rw [flash, if_neg (Nat.not_le.mpr hl), if_neg (by decide)]
  rw [Step, TransactionState.step] at hs
  simp only [hp, hflash, Bool.false_eq_true, if_false] at hs
  cases hs
  intro hw
  have h0 := h.outside t (by simp [hp])
  have hc := hw.counts t
  have hold := h.counts t
  simp only [setPhase, setBrackets, setChunks, rLockCount, Function.update_self, h0] at hc hold
  omega

-- In every run in which no transaction starts with a failed flush the lock and the logs are as
-- expected, and the first failed flush before a transaction breaks it.
theorem wellNested_iff (hr : Run (fun s e s' => s.Step config e s' ∧ ¬s.StartFails config e)
    (init config) es s) :
    s.WellNested config ∧
      ∀ e s', s.Step config e s' → (s'.WellNested config ↔ ¬s.StartFails config e) := by
  have h : s.Nested := hr.invariant (fun _ _ _ h hs => h.step hs.left hs.right) .init
  refine ⟨h.wellNested, fun e s' hs => ⟨fun hw hf => ?_, fun hf => (h.step hs hf).wellNested⟩⟩
  exact not_wellNested_of_startFails h hs hf hw

-- A snapshot area of 64 blocks, and a catalog tree of height 2.
def smallArea : TransactionConfig := ⟨1, 62, 39⟩

-- Two transactions of one task, the inner one of which holds no lock of its own.
theorem wellNested_iff_nested :
    ∃ s : TransactionState Unit, (s.WellNested smallArea ∧
      ∀ e s', s.Step smallArea e s' → (s'.WellNested smallArea ↔ ¬s.StartFails smallArea e)) ∧
      s.readers = 1 ∧ s.openBrackets () = 2 := by
  obtain ⟨s, hr, h⟩ : ∃ s, Run (fun s e s' => s.Step smallArea e s' ∧ ¬s.StartFails smallArea e)
      (init smallArea) [.start (), .test (), .downRead (), .start ()] s ∧
      s.readers = 1 ∧ s.openBrackets () = 2 :=
    ⟨_, .cons ⟨rfl, nofun⟩ (.cons ⟨rfl, nofun⟩ (.cons ⟨rfl, nofun⟩ (.cons ⟨rfl, nofun⟩ .nil))),
      rfl, rfl⟩
  exact ⟨s, wellNested_iff hr, h⟩

-- The flush after a transaction of 48 pages fails, and so does the one before the next
-- transaction, whose end then finds no lock to release.
theorem stop_bug_of_failed_start :
    ∃ s, Run (Step smallArea) (init smallArea)
      [.start (), .test (), .downRead (), .add () 16, .add () 16, .add () 16, .stop (), .test (),
        .downWrite (), .flush () false, .start (), .test (), .downWrite (), .flush () false] s ∧
      s.step smallArea (.stop ()) = .bug :=
  ⟨_, .cons rfl (.cons rfl (.cons rfl (.cons rfl (.cons rfl (.cons rfl (.cons rfl (.cons rfl
    (.cons rfl (.cons rfl (.cons rfl (.cons rfl (.cons rfl (.cons rfl .nil))))))))))))), rfl⟩

end Emmcfs.TransactionState
