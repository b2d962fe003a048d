import Mathlib.Data.List.Basic
import Mathlib.Data.List.Pairwise
import Mathlib.Order.Basic

-- Where a search ends in a list, and in a list that is cut into pieces. What is searched for is
-- given by a comparison: it is negative for the elements below, 0 for those that match and positive
-- for those above. Several elements may match.

namespace Search

-- The elements below come first and those above last.
abbrev Rising (c : α → Int) (l : List α) : Prop :=
  l.Pairwise fun x y => (0 < c x → 0 < c y) ∧ (c y < 0 → c x < 0)

-- The search ends at a match, otherwise at the last element below, otherwise at the first place.
def EndsAt (c : α → Int) (l : List α) (i : Nat) : Prop :=
  ∃ x, l[i]? = some x ∧ (c x = 0 ∨ (c x < 0 ∧ ∀ y ∈ l.drop (i + 1), 0 < c y) ∨ (i = 0 ∧ 0 < c x))

variable {c : α → Int} {l a b : List α} {x y : α} {i : Nat}

namespace Rising

theorem above (h : Rising c (a ++ x :: b)) (hx : 0 < c x) : ∀ y ∈ b, 0 < c y :=
  fun y hy => ((List.pairwise_cons.mp (List.pairwise_append.mp h).right.left).left y hy).left hx

theorem below (h : Rising c (a ++ x :: b)) (hx : c x < 0) : ∀ y ∈ a, c y < 0 :=
  fun y hy => ((List.pairwise_append.mp h).right.right y hy x (by simp)).right hx

end Rising

theorem endsAt_iff : EndsAt c (a ++ x :: b) a.length ↔
    c x = 0 ∨ (c x < 0 ∧ ∀ y ∈ b, 0 < c y) ∨ (a = [] ∧ 0 < c x) := by
  have hget : (a ++ x :: b)[a.length]? = some x := by simp
  have hdrop : (a ++ x :: b).drop (a.length + 1) = b := by simp
  simp only [EndsAt, hget, hdrop, Option.some.injEq, exists_eq_left', List.length_eq_zero_iff]

theorem EndsAt.exists_append (h : EndsAt c l i) : ∃ a x b, l = a ++ x :: b ∧ i = a.length ∧
    (c x = 0 ∨ (c x < 0 ∧ ∀ y ∈ b, 0 < c y) ∨ (a = [] ∧ 0 < c x)) := by
  obtain ⟨x, hx, hc⟩ := h
  obtain ⟨hi, he⟩ := List.getElem?_eq_some_iff.mp hx
  have hl : l = l.take i ++ x :: l.drop (i + 1) := by
    rw [← he, ← List.drop_eq_getElem_cons hi, List.take_append_drop]
  refine ⟨l.take i, x, l.drop (i + 1), hl, (List.length_take_of_le (Nat.le_of_lt hi)).symm, ?_⟩
  exact hc.imp_right (.imp_right fun ⟨h₀, hp⟩ => ⟨by rw [h₀, List.take_zero], hp⟩)

theorem endsAt_singleton : EndsAt c [x] 0 := by
  rcases Int.lt_trichotomy (c x) 0 with h | h | h
  · exact ⟨x, rfl, .inr (.inl ⟨h, by simp⟩)⟩
  · exact ⟨x, rfl, .inl h⟩
  · exact ⟨x, rfl, .inr (.inr ⟨rfl, h⟩)⟩

-- A match is found if there is one.
theorem EndsAt.eq_zero (hs : Rising c (a ++ x :: b)) (h : EndsAt c (a ++ x :: b) a.length)
    (hy : y ∈ a ++ x :: b) (hc : c y = 0) : c x = 0 := by
  rcases endsAt_iff.mp h with h₀ | ⟨hx, hb⟩ | ⟨rfl, hx⟩
  case inl => exact h₀
  case inr.inl =>
    rcases List.mem_append.mp hy with hy | hy
    · have := hs.below hx y hy
      omega
    · rcases List.mem_cons.mp hy with rfl | hy
      · exact hc
      · have := hb y hy
        omega
  case inr.inr =>
    rcases List.mem_cons.mp hy with rfl | hy
    · exact hc
    · have := hs.above hx y hy
      omega

-- The first place is only left behind if not everything is above.
theorem EndsAt.eq_nil (h : EndsAt c (a ++ x :: b) a.length) (hc : ∀ y ∈ a ++ x :: b, 0 < c y) :
    a = [] := by
  have hx := hc x (by simp)
  rcases endsAt_iff.mp h with h₀ | ⟨hx, _⟩ | ⟨ha, _⟩
  · omega
  · omega
  · exact ha

theorem endsAt_map : EndsAt id (l.map c) i ↔ EndsAt c l i := by
  simp only [EndsAt, List.getElem?_map, Option.map_eq_some_iff, ← List.map_drop, List.forall_mem_map]
  exact ⟨fun ⟨_, ⟨x, hx, he⟩, h⟩ => ⟨x, hx, he ▸ h⟩, fun ⟨x, hx, h⟩ => ⟨c x, ⟨x, hx, rfl⟩, h⟩⟩

section Pieces

variable {ls ms : List (List α)} {m : List α} {f : List α → Int}

-- The elements of a piece behind a head that is above are above too.
theorem Rising.piece (hs : Rising c m) (hh : m.head? = some x) (hx : 0 < c x) :
    ∀ y ∈ m, 0 < c y := by
  obtain ⟨rest, rfl⟩ := List.head?_eq_some_iff.mp hh
  exact List.forall_mem_cons.mpr ⟨hx, Rising.above (a := []) hs hx⟩

-- A search goes through the heads of the pieces first, of which `f` tells how they compare, and then
-- through the piece where it has come to.
theorem EndsAt.flatten (hf : ∀ l ∈ ls ++ m :: ms, ∃ x, l.head? = some x ∧ f l = c x)
    (hs : Rising c (ls ++ m :: ms).flatten)
    (hl : EndsAt id ((ls ++ m :: ms).map f) ls.length) (hm : EndsAt c m i) :
    EndsAt c (ls ++ m :: ms).flatten (ls.flatten.length + i) := by
  obtain ⟨a, x, b, rfl, rfl, hx⟩ := hm.exists_append
  obtain ⟨head, hhead, hh⟩ := hf (a ++ x :: b) (by simp)
  have hpieces : ∀ l ∈ ls ++ (a ++ x :: b) :: ms, Rising c l := (List.pairwise_flatten.mp hs).left
  have hasc := hpieces (a ++ x :: b) (by simp)
  have heads : c head = 0 ∨ (c head < 0 ∧ ∀ y ∈ ms.map f, 0 < y) ∨ (ls.map f = [] ∧ 0 < c head) := by
    rw [List.map_append, List.map_cons, hh, ← List.length_map f] at hl
    exact endsAt_iff.mp hl
  -- what the heads behind say about their pieces
  have hbehind (h : ∀ y ∈ ms.map f, 0 < y) : ∀ y ∈ ms.flatten, 0 < c y := by
    intro y hy
    obtain ⟨l, hl, hy⟩ := List.mem_flatten.mp hy
    obtain ⟨z, hz, he⟩ := hf l (by simp [hl])
    exact (hpieces l (by simp [hl])).piece hz (he ▸ h _ (List.mem_map_of_mem hl)) y hy
  -- the head is the element itself or one before it
  have hfirst : (a = [] ∧ head = x) ∨ head ∈ a := by
    cases a
    case nil =>
      simp only [List.nil_append, List.head?_cons, Option.some.injEq] at hhead
      exact .inl ⟨rfl, hhead.symm⟩
    case cons y ys =>
      simp only [List.cons_append, List.head?_cons, Option.some.injEq] at hhead
      exact .inr (hhead ▸ List.mem_cons_self)
  have hneg : c x < 0 → c head < 0 := fun h =>
    hfirst.elim (fun ⟨_, he⟩ => he ▸ h) fun hm => hasc.below h head hm
  have hlist : (ls ++ (a ++ x :: b) :: ms).flatten = (ls.flatten ++ a) ++ x :: (b ++ ms.flatten) := by
    simp
  rw [hlist, ← List.length_append, endsAt_iff]
  rcases hx with h₀ | ⟨hx, hb⟩ | ⟨rfl, hx⟩
  case inl => exact .inl h₀
  case inr.inl =>
    have := hneg hx
    refine .inr (.inl ⟨hx, fun y hy => (List.mem_append.mp hy).elim (hb y) (hbehind ?_ y)⟩)
    rcases heads with h | ⟨_, h⟩ | ⟨_, h⟩
    · omega
    · exact h
    · omega
  case inr.inr =>
    obtain rfl : head = x := hfirst.elim And.right fun h => absurd h (by simp)
    rcases heads with h | ⟨h, _⟩ | ⟨h, _⟩
    · omega
    · omega
    · exact .inr (.inr ⟨by simp [List.map_eq_nil_iff.mp h], hx⟩)

end Pieces

end Search
