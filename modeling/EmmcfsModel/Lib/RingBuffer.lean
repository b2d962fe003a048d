import Mathlib.Data.List.Basic
import Mathlib.Order.Basic

-- Ring buffers: queues in an array of `n` places, of which one stays free.

structure RingBuffer (α : Type*) (n : Nat) where
  start    : Nat
  stop     : Nat
  data     : Nat → α
  start_lt : start < n
  stop_lt  : stop < n

namespace RingBuffer

variable {r r' : RingBuffer α n}

def empty [Inhabited α] (h : 0 < n) : RingBuffer α n :=
  ⟨0, 0, fun _ => default, h, h⟩

def push (r : RingBuffer α n) (a : α) : Option (RingBuffer α n) :=
  if (r.stop + 1) % n = r.start then none
  else some { r with
    stop    := (r.stop + 1) % n
    data    := Function.update r.data r.stop a
    stop_lt := Nat.mod_lt _ (Nat.zero_lt_of_lt r.stop_lt) }

def pop (r : RingBuffer α n) : Option (α × RingBuffer α n) :=
  if r.start = r.stop then none
  else some (r.data r.start, { r with
    start    := (r.start + 1) % n
    start_lt := Nat.mod_lt _ (Nat.zero_lt_of_lt r.start_lt) })

-- The number of places from one index to another.
def span (n start stop : Nat) : Nat :=
  (stop + n - start) % n

def length (r : RingBuffer α n) : Nat :=
  span n r.start r.stop

-- What is in the buffer, the oldest first.
def toList (r : RingBuffer α n) : List α :=
  (List.range r.length).map fun i => r.data ((r.start + i) % n)

section Index

-- An index wraps around once.
theorem mod_eq_ite (h : i < 2 * n) : i % n = if i < n then i else i - n := by
  split
  case isTrue hlt  => exact Nat.mod_eq_of_lt hlt
  case isFalse hge =>
    rw [Nat.mod_eq_sub_mod (Nat.le_of_not_lt hge), Nat.mod_eq_of_lt (by omega)]

variable {start stop : Nat} (hs : start < n) (ht : stop < n)
include hs ht

theorem span_eq : span n start stop = if start ≤ stop then stop - start else stop + n - start := by
  rw [span, mod_eq_ite (by omega)]
  split <;> split <;> omega

theorem full_iff : (stop + 1) % n = start ↔ span n start stop + 1 = n := by
  rw [span_eq hs ht, mod_eq_ite (by omega)]
  split <;> split <;> omega

theorem span_succ_right (h : (stop + 1) % n ≠ start) :
    span n start ((stop + 1) % n) = span n start stop + 1 := by
  rw [span_eq hs ht, span_eq hs (Nat.mod_lt _ (by omega))]
  rw [mod_eq_ite (by omega)] at *
  split_ifs at h ⊢ <;> omega

theorem span_succ_left (h : start ≠ stop) :
    span n start stop = span n ((start + 1) % n) stop + 1 := by
  rw [span_eq hs ht, span_eq (Nat.mod_lt _ (by omega)) ht, mod_eq_ite (by omega)]
  split <;> split <;> split <;> omega

theorem add_span : (start + span n start stop) % n = stop := by
  rw [span_eq hs ht]
  split
  all_goals
    rw [mod_eq_ite (by omega)]
    split <;> omega

theorem add_ne (h : i < span n start stop) : (start + i) % n ≠ stop := by
  rw [span_eq hs ht] at h
  split at h
  all_goals
    rw [mod_eq_ite (by omega)]
    split <;> omega

end Index

@[simp]
theorem length_toList : r.toList.length = r.length := by
  simp [toList]

@[simp]
theorem toList_empty [Inhabited α] (h : 0 < n) : (empty h : RingBuffer α n).toList = [] := by
  simp [toList, length, span, empty]

theorem push_eq_none_iff : r.push a = none ↔ r.length + 1 = n := by
  rw [push, length, ← full_iff r.start_lt r.stop_lt]
  split <;> simp_all

theorem toList_push (h : r.push a = some r') : r'.toList = r.toList ++ [a] := by
  unfold push at h
  split at h
  case isTrue      => cases h
  case isFalse hne =>
    cases h
    rw [toList, length, span_succ_right r.start_lt r.stop_lt hne, List.range_succ, List.map_append,
      toList, length]
    congr 1
    · refine List.map_congr_left fun i hi => ?_
      exact Function.update_of_ne (add_ne r.start_lt r.stop_lt (List.mem_range.mp hi)) ..
    · simp [add_span r.start_lt r.stop_lt]

theorem pop_eq_none_iff : r.pop = none ↔ r.toList = [] := by
  have := r.start_lt
  have := r.stop_lt
  rw [pop, ← List.length_eq_zero_iff, length_toList, length, span_eq r.start_lt r.stop_lt]
  split <;> split <;> simp <;> omega

theorem toList_pop (h : r.pop = some (a, r')) : r.toList = a :: r'.toList := by
  unfold pop at h
  split at h
  case isTrue      => cases h
  case isFalse hne =>
    cases h
    rw [toList, length, span_succ_left r.start_lt r.stop_lt hne, List.range_succ_eq_map,
      List.map_cons, List.map_map, toList, length, Nat.add_zero, Nat.mod_eq_of_lt r.start_lt]
    congr 1
    refine List.map_congr_left fun i _ => ?_
    rw [Function.comp, Nat.mod_add_mod, Nat.add_assoc, Nat.add_comm 1]

end RingBuffer
