import Mathlib.Order.Lattice
import Mathlib.Order.Lex
import Mathlib.Data.List.Nodup

-- Strictly ascending lists as finite sets: the list that holds one element more or less, cut into
-- a part below, a part around and a part above, and the position at which an element belongs.

namespace SortedList

-- A comparison function in the style of `strcmp` that tells the order of a type.
structure Compares [LinearOrder α] (cmp : α → α → Int) : Prop where
  neg_iff  : ∀ a b, cmp a b < 0 ↔ a < b
  zero_iff : ∀ a b, cmp a b = 0 ↔ a = b

theorem Compares.pos_iff [LinearOrder α] {cmp : α → α → Int} (hc : Compares cmp) (a b : α) :
    0 < cmp a b ↔ b < a := by
  have hn := hc.neg_iff a b
  have hz := hc.zero_iff a b
  constructor
  case mp =>
    intro h
    have hl : ¬a < b := fun hl => by have := hn.mpr hl; omega
    have he : a ≠ b := fun he => by have := hz.mpr he; omega
    exact lt_of_le_of_ne (not_lt.mp hl) he.symm
  case mpr =>
    intro h
    have hl : ¬cmp a b < 0 := fun hl => lt_asymm h (hn.mp hl)
    have he : cmp a b ≠ 0 := fun he => h.ne' (hz.mp he)
    omega

-- A list around the element at a position.
theorem exists_append_of_getElem? {l : List α} (h : l[i]? = some x) :
    ∃ a b, l = a ++ x :: b ∧ a.length = i := by
  obtain ⟨hi, he⟩ := List.getElem?_eq_some_iff.mp h
  refine ⟨l.take i, l.drop (i + 1), ?_, List.length_take_of_le hi.le⟩
  rw [← he, ← List.drop_eq_getElem_cons hi, List.take_append_drop]

theorem not_of_mem_take_findIdx {l : List α} {p : α → Bool} (h : x ∈ l.take (l.findIdx p)) :
    p x = false := by
  obtain ⟨j, hj, rfl⟩ := List.mem_take_iff_getElem.mp h
  simpa using List.not_of_lt_findIdx (Nat.lt_of_lt_of_le hj (Nat.min_le_left ..))

theorem mem_of_next {a b : List α} (h : y ∈ (a ++ x :: b)[a.length + 1]?) : y ∈ b := by
  rw [List.getElem?_append_right (Nat.le_add_right ..), Nat.add_sub_cancel_left,
    List.getElem?_cons_succ] at h
  exact List.mem_of_getElem? h

variable [LinearOrder α] {l pre post : List α} {x y : α}

abbrev Sorted (l : List α) : Prop := l.Pairwise (· < ·)

def insertKey (x : α) (l : List α) : List α :=
  l.filter (· < x) ++ x :: l.filter (x < ·)

def removeKey (x : α) (l : List α) : List α :=
  l.filter (· ≠ x)

-- The position `i` of `l` is where `x` belongs.
structure Splits (x : α) (l : List α) (i : Nat) : Prop where
  le    : i ≤ l.length
  below : ∀ y ∈ l.take i, y < x
  above : ∀ y ∈ l.drop i, x < y

@[simp]
theorem mem_insertKey : y ∈ insertKey x l ↔ y = x ∨ y ∈ l := by
  simp only [insertKey, List.mem_append, List.mem_cons, List.mem_filter, decide_eq_true_eq]
  rcases lt_trichotomy y x with h | h | h
  · simp [h, h.ne, h.not_gt]
  · simp [h]
  · simp [h, h.ne', h.not_gt]

@[simp]
theorem mem_removeKey : y ∈ removeKey x l ↔ y ≠ x ∧ y ∈ l := by
  simp [removeKey, and_comm]

theorem sorted_removeKey (h : Sorted l) : Sorted (removeKey x l) :=
  h.sublist List.filter_sublist

theorem sorted_insertKey (h : Sorted l) : Sorted (insertKey x l) := by
  refine List.pairwise_append.mpr ⟨h.sublist List.filter_sublist, ?_, ?_⟩
  · refine List.pairwise_cons.mpr ⟨fun y hy => ?_, h.sublist List.filter_sublist⟩
    simpa using (List.mem_filter.mp hy).right
  · intro y hy z hz
    have hy : y < x := by simpa using (List.mem_filter.mp hy).right
    cases List.mem_cons.mp hz
    case inl hz => exact hz ▸ hy
    case inr hz => exact hy.trans (by simpa using (List.mem_filter.mp hz).right)

theorem filter_lt_of_below (h : ∀ y ∈ l, y < x) : l.filter (· < x) = l ∧ l.filter (x < ·) = [] := by
  refine ⟨List.filter_eq_self.mpr (by simpa using h), List.filter_eq_nil_iff.mpr fun y hy => ?_⟩
  simpa using (h y hy).le

theorem filter_lt_of_above (h : ∀ y ∈ l, x < y) : l.filter (· < x) = [] ∧ l.filter (x < ·) = l := by
  refine ⟨List.filter_eq_nil_iff.mpr fun y hy => ?_, List.filter_eq_self.mpr (by simpa using h)⟩
  simpa using (h y hy).le

theorem insertKey_append (mid : List α) (hb : ∀ y ∈ pre, y < x) (ha : ∀ y ∈ post, x < y) :
    insertKey x (pre ++ mid ++ post) = pre ++ insertKey x mid ++ post := by
  simp [insertKey, filter_lt_of_below hb, filter_lt_of_above ha]

theorem insertKey_of_splits (h : Splits x l i) : insertKey x l = l.take i ++ x :: l.drop i := by
  have := insertKey_append [] h.below h.above
  simpa [insertKey] using this

theorem removeKey_of_notMem (h : x ∉ l) : removeKey x l = l :=
  List.filter_eq_self.mpr fun y hy => by
    simp only [ne_eq, decide_not, Bool.not_eq_eq_eq_not, Bool.not_true, decide_eq_false_iff_not]
    exact fun he => h (he ▸ hy)

theorem removeKey_append (mid : List α) (hb : ∀ y ∈ pre, y < x) (ha : ∀ y ∈ post, x < y) :
    removeKey x (pre ++ mid ++ post) = pre ++ removeKey x mid ++ post := by
  have hp : removeKey x pre = pre := removeKey_of_notMem fun h => (hb x h).false
  have hq : removeKey x post = post := removeKey_of_notMem fun h => (ha x h).false
  simp only [removeKey, List.filter_append] at hp hq ⊢
  rw [hp, hq]

-- Around an element of a sorted list.
theorem sorted_cons_iff_around : Sorted (pre ++ x :: post) ↔
    Sorted pre ∧ Sorted post ∧ (∀ y ∈ pre, y < x) ∧ (∀ y ∈ post, x < y) := by
  simp only [Sorted, List.pairwise_append, List.pairwise_cons, List.mem_cons, forall_eq_or_imp]
  constructor
  case mp  => exact fun ⟨hp, ⟨ha, hq⟩, hb⟩ => ⟨hp, hq, fun y hy => (hb y hy).left, ha⟩
  case mpr =>
    exact fun ⟨hp, hq, hb, ha⟩ => ⟨hp, ⟨ha, hq⟩, fun y hy => ⟨hb y hy, fun z hz =>
      (hb y hy).trans (ha z hz)⟩⟩

theorem insertKey_of_mem (h : Sorted l) (hx : x ∈ l) : insertKey x l = l := by
  obtain ⟨pre, post, rfl⟩ := List.append_of_mem hx
  obtain ⟨_, _, hb, ha⟩ := sorted_cons_iff_around.mp h
  have := insertKey_append [x] hb ha
  simpa [insertKey] using this

theorem removeKey_around (hb : ∀ y ∈ pre, y < x) (ha : ∀ y ∈ post, x < y) :
    removeKey x (pre ++ x :: post) = pre ++ post := by
  have := removeKey_append [x] hb ha
  simpa [removeKey] using this

theorem length_removeKey (h : Sorted l) :
    l.length ≤ (removeKey x l).length + 1 ∧ (removeKey x l).length ≤ l.length := by
  refine ⟨?_, List.length_filter_le ..⟩
  by_cases hx : x ∈ l
  case pos =>
    obtain ⟨pre, post, rfl⟩ := List.append_of_mem hx
    obtain ⟨_, _, hb, ha⟩ := sorted_cons_iff_around.mp h
    rw [removeKey_around hb ha]
    simp
    omega
  case neg => rw [removeKey_of_notMem hx]; omega

theorem insertKey_perm (h : Sorted l) (hx : x ∉ l) : (insertKey x l).Perm (x :: l) :=
  (List.perm_ext_iff_of_nodup (sorted_insertKey h).nodup (List.nodup_cons.mpr ⟨hx, h.nodup⟩)).mpr
    (by simp)

theorem perm_removeKey (h : Sorted l) (hx : x ∈ l) : l.Perm (x :: removeKey x l) := by
  obtain ⟨pre, post, rfl⟩ := List.append_of_mem hx
  obtain ⟨_, _, hb, ha⟩ := sorted_cons_iff_around.mp h
  rw [removeKey_around hb ha]
  exact List.perm_middle

-- An element of a sorted list tells on which side of it the others lie.
theorem take_succ_lt (h : Sorted l) (hi : l[i]? = some y) (hy : y < x) :
    ∀ z ∈ l.take (i + 1), z < x := by
  intro z hz
  obtain ⟨hl, he⟩ := List.getElem?_eq_some_iff.mp hi
  obtain ⟨j, hj, hz⟩ := List.mem_take_iff_getElem.mp hz
  rw [Nat.lt_min] at hj
  subst he hz
  rcases Nat.lt_succ_iff_lt_or_eq.mp hj.left with hj' | hj'
  · exact (List.pairwise_iff_getElem.mp h j i hj.right hl hj').trans hy
  · exact hj' ▸ hy

theorem lt_drop (h : Sorted l) (hi : l[i]? = some y) (hy : x < y) : ∀ z ∈ l.drop i, x < z := by
  intro z hz
  obtain ⟨hl, he⟩ := List.getElem?_eq_some_iff.mp hi
  obtain ⟨j, hj, hz⟩ := List.mem_drop_iff_getElem.mp hz
  subst he hz
  rcases Nat.eq_zero_or_pos j with hj' | hj'
  · simpa [hj'] using hy
  · exact hy.trans (List.pairwise_iff_getElem.mp h i (i + j) hl _ (by omega))

end SortedList
