import Mathlib.Tactic.TypeStar

-- Tables: total functions on the natural numbers that differ from a default value at finitely many
-- places, kept as association lists without double entries so that they stay small when evaluated.

abbrev Table (α : Type*) := List (Nat × α)

namespace Table

variable [Inhabited α] {t : Table α} {a : α}

def get : Table α → Nat → α
  | [], _          => default
  | (j, a) :: t, i => if i = j then a else get t i

def set (t : Table α) (i : Nat) (a : α) : Table α :=
  (i, a) :: t.filter (·.1 ≠ i)

theorem get_filter (h : i ≠ j) : get (t.filter (·.1 ≠ j)) i = get t i := by
  induction t
  case nil => rfl
  case cons e t ih =>
    by_cases he : e.1 = j
    case pos =>
      rw [List.filter_cons_of_neg (by simpa using he), ih, get, if_neg (he ▸ h)]
    case neg =>
      rw [List.filter_cons_of_pos (by simpa using he), get, get, ih]

@[simp]
theorem get_set_self : (t.set i a).get i = a := by
  rw [set, get, if_pos rfl]

theorem get_set_of_ne (h : i ≠ j) : (t.set j a).get i = t.get i := by
  rw [set, get, if_neg h, get_filter h]

end Table
