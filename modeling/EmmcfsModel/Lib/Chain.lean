import Mathlib.Data.List.Nodup

-- Doubly linked chains of numbers: `prev` and `next` list the elements of a list in both
-- directions, and what happens when a stretch of the chain is replaced by another.

variable {prev next prev' next' : Nat → Nat} {as bs is js : List Nat} {p n : Nat}

-- The chain is entered from `p` and left to `n`.
def Linked (prev next : Nat → Nat) : Nat → List Nat → Nat → Prop
  | _, [], _      => True
  | p, i :: is, n => prev i = p ∧ next i = is.headD n ∧ Linked prev next i is n

namespace Linked

instance decidable : ∀ p is n, Decidable (Linked prev next p is n)
  | _, [], _      => .isTrue trivial
  | p, i :: is, n =>
    have := decidable i is n
    inferInstanceAs (Decidable (prev i = p ∧ next i = is.headD n ∧ Linked prev next i is n))

theorem append_iff : Linked prev next p (is ++ js) n ↔
    Linked prev next p is (js.headD n) ∧ Linked prev next (is.getLastD p) js n := by
  induction is generalizing p
  case nil => simp [Linked]
  case cons i is ih =>
    have hh : (is ++ js).headD n = is.headD (js.headD n) := by cases is <;> rfl
    have hl : (i :: is).getLastD p = is.getLastD i := by cases is <;> rfl
    rw [List.cons_append, Linked, Linked, ih, hh, hl]
    simp only [and_assoc]

theorem congr (h : Linked prev next p is n) (hp : ∀ i ∈ is, prev' i = prev i)
    (hn : ∀ i ∈ is, next' i = next i) : Linked prev' next' p is n := by
  induction is generalizing p
  case nil => trivial
  case cons i is ih =>
    obtain ⟨h₁, h₂, h₃⟩ := h
    refine ⟨(hp i (by simp)).trans h₁, (hn i (by simp)).trans h₂, ?_⟩
    exact ih h₃ (fun j hj => hp j (by simp [hj])) fun j hj => hn j (by simp [hj])

-- The last element of the chain is given another successor.
theorem relink_last (h : Linked prev next p is n) (hd : is.Nodup)
    (hp : ∀ i ∈ is, prev' i = prev i)
    (hn : ∀ i ∈ is, next' i = if i = is.getLastD 0 then v else next i) :
    Linked prev' next' p is v := by
  induction is generalizing p
  case nil => trivial
  case cons i is ih =>
    obtain ⟨h₁, h₂, h₃⟩ := h
    obtain ⟨hi, hd⟩ := List.nodup_cons.mp hd
    refine ⟨(hp i (by simp)).trans h₁, ?_, ?_⟩
    case refine_1 =>
      rw [hn i (by simp)]
      cases is with
      | nil => exact if_pos rfl
      | cons j is =>
        have hne : i ≠ (i :: j :: is).getLastD 0 := by
          intro he
          rw [List.getLastD_cons, List.getLastD_cons] at he
          exact hi (Eq.mpr (congrArg (· ∈ _) he) (List.getLastD_mem_cons ..))
        rw [if_neg hne, h₂]
        rfl
    case refine_2 =>
      refine ih h₃ hd (fun j hj => hp j (by simp [hj])) fun j hj => ?_
      rw [hn j (by simp [hj])]
      cases is
      case nil => simp at hj
      case cons k is => rfl

-- The first element of the chain is given another predecessor.
theorem relink_first (h : Linked prev next p is n) (hd : is.Nodup)
    (hp : ∀ i ∈ is, prev' i = if i = is.headD 0 then w else prev i)
    (hn : ∀ i ∈ is, next' i = next i) : Linked prev' next' w is n := by
  cases is
  case nil => trivial
  case cons i is =>
    obtain ⟨_, h₂, h₃⟩ := h
    obtain ⟨hi, _⟩ := List.nodup_cons.mp hd
    refine ⟨(hp i (by simp)).trans (if_pos rfl), (hn i (by simp)).trans h₂, h₃.congr ?_ ?_⟩
    case refine_1 =>
      intro j hj
      rw [hp j (by simp [hj]), if_neg]
      intro he
      rw [List.headD_cons] at he
      exact hi (he ▸ hj)
    case refine_2 => exact fun j hj => hn j (by simp [hj])

theorem prev_eq (h : Linked prev next p (as ++ i :: bs) n) : prev i = as.getLastD p :=
  (append_iff.mp h).right.left

theorem next_eq (h : Linked prev next p (as ++ i :: bs) n) : next i = bs.headD n :=
  (append_iff.mp h).right.right.left

-- What comes behind the last element of the first part.
theorem next_last (h : Linked prev next p (as ++ i :: bs) n) (ha : as ≠ []) :
    next (as.getLastD 0) = i := by
  obtain ⟨as, a, rfl⟩ := List.eq_nil_or_concat as |>.resolve_left ha
  rw [List.concat_eq_append, List.append_assoc, List.singleton_append] at h
  rw [List.concat_eq_append, List.getLastD_concat]
  exact h.next_eq

-- A stretch is replaced: only the two neighbours are told.
theorem replace (h : Linked prev next 0 (as ++ is ++ bs) 0) (hd : (as ++ bs).Nodup)
    (h0 : 0 ∉ as ++ bs)
    (hp : ∀ i ∈ as ++ bs, prev' i =
      if i = bs.headD 0 then js.getLastD (as.getLastD 0) else prev i)
    (hn : ∀ i ∈ as ++ bs, next' i = if i = as.getLastD 0 then js.headD (bs.headD 0) else next i)
    (hj : Linked prev' next' (as.getLastD 0) js (bs.headD 0)) :
    Linked prev' next' 0 (as ++ js ++ bs) 0 := by
  obtain ⟨ha, hb, hab⟩ := List.nodup_append.mp hd
  have hfirst : ∀ i ∈ as, i ≠ bs.headD 0 := by
    intro i hi he
    cases bs with
    | nil       => exact h0 (List.mem_append_left _ (Eq.subst he hi))
    | cons b bs => exact hab i hi b (by simp) he
  have hlast : ∀ i ∈ bs, i ≠ as.getLastD 0 := by
    intro i hi he
    cases as with
    | nil       => exact h0 (List.mem_append_right _ (Eq.subst he hi))
    | cons a as =>
      rw [List.getLastD_cons] at he
      exact hab _ (List.getLastD_mem_cons ..) i hi he.symm
  rw [List.append_assoc] at h ⊢
  obtain ⟨hl, hr⟩ := append_iff.mp h
  obtain ⟨_, hr⟩ := append_iff.mp hr
  have hhead : (js ++ bs).headD 0 = js.headD (bs.headD 0) := by cases js <;> rfl
  refine append_iff.mpr ⟨?_, append_iff.mpr ⟨hj, ?_⟩⟩
  case refine_1 =>
    rw [hhead]
    refine hl.relink_last ha (fun i hi => ?_) fun i hi => hn i (List.mem_append_left _ hi)
    rw [hp i (List.mem_append_left _ hi), if_neg (hfirst i hi)]
  case refine_2 =>
    refine hr.relink_first hb (fun i hi => hp i (List.mem_append_right _ hi)) fun i hi => ?_
    rw [hn i (List.mem_append_right _ hi), if_neg (hlast i hi)]

end Linked
