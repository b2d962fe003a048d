import Mathlib.Data.Nat.Basic
import Mathlib.Data.List.Basic

-- The maximal runs of the places below `n` at which a predicate holds, and a reader that finds them
-- by looking at one place after the other.

namespace Runs

variable {p : Nat → Bool} {n : Nat} {runs : List (Nat × Nat)} {run : Nat × Nat}

-- A run is told by its first place and its length.
structure IsRun (p : Nat → Bool) (n : Nat) (run : Nat × Nat) : Prop where
  pos    : 0 < run.2
  le     : run.1 + run.2 ≤ n
  inside : ∀ x, run.1 ≤ x → x < run.1 + run.2 → p x
  before : ∀ x, x + 1 = run.1 → p x = false
  after  : run.1 + run.2 < n → p (run.1 + run.2) = false

-- The runs that have ended before place `n` and the start of the one that has not.
def read (p : Nat → Bool) : Nat → List (Nat × Nat) × Option Nat
  | 0     => ([], none)
  | x + 1 =>
    match read p x, p x with
    | (runs, none), true        => (runs, some x)
    | (runs, some start), false => (runs ++ [(start, x - start)], none)
    | reading, _                => reading

def all (p : Nat → Bool) (n : Nat) : List (Nat × Nat) :=
  match read p n with
  | (runs, none)       => runs
  | (runs, some start) => runs ++ [(start, n - start)]

section Read

theorem read_start (h : (read p x).2 = none) (hp : p x) :
    read p (x + 1) = ((read p x).1, some x) := by
  rcases hr : read p x with ⟨runs, current⟩
  obtain rfl : current = none := by rw [← h, hr]
  simp [read, hr, hp]

theorem read_end (h : (read p x).2 = some start) (hp : p x = false) :
    read p (x + 1) = ((read p x).1 ++ [(start, x - start)], none) := by
  rcases hr : read p x with ⟨runs, current⟩
  obtain rfl : current = some start := by rw [← h, hr]
  simp [read, hr, hp]

-- Nothing happens where the predicate does not change.
theorem read_stay (h : (read p x).2.isSome = b) (hx : x ≤ y) (hp : ∀ z, x ≤ z → z < y → p z = b) :
    read p y = read p x := by
  induction y, hx using Nat.le_induction
  case base => rfl
  case succ y hx ih =>
    rw [read, ih fun z hz hy => hp z hz (by omega), hp y hx (by omega), ← h]
    rcases read p x with ⟨runs, _ | start⟩ <;> rfl

theorem all_of_none (h : (read p n).2 = none) : all p n = (read p n).1 := by
  rcases hr : read p n with ⟨runs, current⟩
  obtain rfl : current = none := by rw [← h, hr]
  simp [all, hr]

theorem all_of_some (h : (read p n).2 = some start) :
    all p n = (read p n).1 ++ [(start, n - start)] := by
  rcases hr : read p n with ⟨runs, current⟩
  obtain rfl : current = some start := by rw [← h, hr]
  simp [all, hr]

end Read

namespace IsRun

-- The runs that have ended after one more place.
theorem ended_succ_iff : IsRun p (n + 1) run ∧ run.1 + run.2 < n + 1 ↔
    (IsRun p n run ∧ run.1 + run.2 < n) ∨ (IsRun p n run ∧ run.1 + run.2 = n ∧ p n = false) := by
  constructor
  case mp =>
    rintro ⟨r, hlt⟩
    have hp := r.after hlt
    have h : IsRun p n run := ⟨r.pos, by omega, r.inside, r.before, fun _ => hp⟩
    by_cases he : run.1 + run.2 = n
    case pos => exact .inr ⟨h, he, he ▸ hp⟩
    case neg => exact .inl ⟨h, by omega⟩
  case mpr =>
    rintro (⟨r, hlt⟩ | ⟨r, he, hp⟩)
    · exact ⟨⟨r.pos, by omega, r.inside, r.before, fun _ => r.after hlt⟩, by omega⟩
    · exact ⟨⟨r.pos, by omega, r.inside, r.before, fun _ => he ▸ hp⟩, by omega⟩

-- Runs that end at the same place start at the same place.
theorem start_le (h : IsRun p n run) (h' : IsRun p n run') (he : run.1 + run.2 = run'.1 + run'.2) :
    run.1 ≤ run'.1 := by
  by_contra hlt
  have hx : run.1 - 1 + 1 = run.1 := by omega
  have hp := h'.inside (run.1 - 1) (by omega) (by have := h.pos; omega)
  rw [h.before _ hx] at hp
  cases hp

theorem eq_of_end (h : IsRun p n run) (h' : IsRun p n run') (he : run.1 + run.2 = run'.1 + run'.2) :
    run = run' := by
  have hs := Nat.le_antisymm (h.start_le h' he) (h'.start_le h he.symm)
  exact Prod.ext hs (by omega)

-- No run ends behind a place that is in none.
theorem end_ne (h : IsRun p n run) (hp : ∀ x, x + 1 = m → p x = false) : run.1 + run.2 ≠ m := by
  rintro rfl
  have hpos := h.pos
  have hin := h.inside (run.1 + run.2 - 1) (by omega) (by omega)
  rw [hp _ (by omega)] at hin
  cases hin

end IsRun

-- What the reader knows before place `n`.
structure Reading (p : Nat → Bool) (n : Nat) (reading : List (Nat × Nat) × Option Nat) : Prop where
  ended  : ∀ run, run ∈ reading.1 ↔ IsRun p n run ∧ run.1 + run.2 < n
  inside : ∀ start ∈ reading.2, IsRun p n (start, n - start)
  between : reading.2 = none → ∀ x, x + 1 = n → p x = false

theorem reading_read (p : Nat → Bool) (n : Nat) : Reading p n (read p n) := by
  induction n
  case zero =>
    exact ⟨fun _ => ⟨nofun, fun h => absurd h.right (Nat.not_lt_zero _)⟩, nofun, fun _ _ => nofun⟩
  case succ n ih =>
    have hstay (h : (read p n).2.isSome = p n) : read p (n + 1) = read p n :=
      read_stay h n.le_succ fun z hz hy => by rw [show z = n by omega]
    cases hp : p n <;> cases hc : (read p n).2
    case false.none =>
      -- no run ends here, because the place before this one is in none
      rw [hstay (by rw [hc, hp]; rfl)]
      refine ⟨fun run => ?_, by simp [hc], fun _ x hx => (show x = n by omega) ▸ hp⟩
      rw [ih.ended, IsRun.ended_succ_iff]
      exact (or_iff_left fun ⟨r, he, _⟩ => r.end_ne (ih.between hc) he).symm
    case false.some start =>
      have hcur := ih.inside start hc
      have he : start + (n - start) = n := by have := hcur.le; dsimp only at this; omega
      rw [read_end hc hp]
      refine ⟨fun run => ?_, nofun, fun _ x hx => (show x = n by omega) ▸ hp⟩
      rw [List.mem_append, List.mem_singleton, ih.ended, IsRun.ended_succ_iff]
      refine or_congr_right ⟨?_, fun ⟨r, hn, _⟩ => r.eq_of_end hcur (hn.trans he.symm)⟩
      rintro rfl
      exact ⟨hcur, he, hp⟩
    case true.none =>
      rw [read_start hc hp]
      refine ⟨fun run => by rw [ih.ended, IsRun.ended_succ_iff, hp]; simp, ?_, nofun⟩
      rintro _ ⟨⟩
      refine ⟨by simp, by simp, fun x hx hn => ?_, ih.between hc, fun h => ?_⟩
      · dsimp only at hx hn
        rwa [show x = n by omega]
      · dsimp only at h
        omega
    case true.some start =>
      have hcur := ih.inside start hc
      have hpos : 0 < n - start := hcur.pos
      rw [hstay (by rw [hc, hp]; rfl)]
      refine ⟨fun run => by rw [ih.ended, IsRun.ended_succ_iff, hp]; simp, ?_, by simp [hc]⟩
      rw [hc]
      rintro _ ⟨⟩
      refine ⟨?_, ?_, fun x hx hn => ?_, hcur.before, fun h => ?_⟩
      all_goals dsimp only at *
      · omega
      · omega
      · by_cases hxn : x = n
        case pos => rwa [hxn]
        case neg => exact hcur.inside x hx (by dsimp only; omega)
      · omega

-- The reader finds the maximal runs.
theorem mem_all : run ∈ all p n ↔ IsRun p n run := by
  obtain ⟨he, hi, hb⟩ := reading_read p n
  cases hc : (read p n).2
  case none =>
    rw [all_of_none hc, he]
    exact and_iff_left_of_imp fun r => Nat.lt_of_le_of_ne r.le (r.end_ne (hb hc))
  case some start =>
    have hcur := hi start hc
    have hpos : 0 < n - start := hcur.pos
    rw [all_of_some hc, List.mem_append, List.mem_singleton, he]
    constructor
    case mp =>
      rintro (h | rfl)
      · exact h.left
      · exact hcur
    case mpr =>
      intro r
      have hle := r.le
      by_cases hlt : run.1 + run.2 < n
      case pos => exact .inl ⟨r, hlt⟩
      case neg => exact .inr (r.eq_of_end hcur (by dsimp only; omega))

end Runs
