import Mathlib.Data.List.Basic

-- Lists of the outcomes of requests, one after the other: an error, or none for success. When there
-- are no more entries requests succeed.

namespace Outcomes

variable {outcomes : List (Option ε)}

-- The first requests succeed.
def Served (n : Nat) (outcomes : List (Option ε)) : Prop :=
  ∀ o ∈ outcomes.take n, o = none

theorem served_zero : Served 0 outcomes := by
  simp [Served]

theorem served_succ : Served (n + 1) outcomes ↔
    outcomes.head?.join = none ∧ Served n outcomes.tail := by
  cases outcomes
  case nil         => simp [Served]
  case cons o rest => simp [Served, List.take_succ_cons]

end Outcomes
