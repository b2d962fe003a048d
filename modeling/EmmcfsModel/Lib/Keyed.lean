import Mathlib.Data.List.Nodup

-- A list of elements with keys, and the map that it stands for.

variable {α κ : Type*} {key : α → κ} {m : κ → Option α} {l l' : List α} {a : α}

def Keyed (key : α → κ) (l : List α) (m : κ → Option α) : Prop :=
  ∀ k a, m k = some a ↔ a ∈ l ∧ key a = k

namespace Keyed

variable (h : Keyed key l m)

include h

theorem none_iff : m k = none ↔ ∀ a ∈ l, key a ≠ k := by
  rw [Option.eq_none_iff_forall_ne_some]
  exact ⟨fun hn a ha hk => hn a ((h k a).mpr ⟨ha, hk⟩), fun hn a ha =>
    hn a ((h k a).mp ha).left ((h k a).mp ha).right⟩

theorem isSome_iff : m k ≠ none ↔ k ∈ l.map key := by
  rw [Ne, h.none_iff]
  simp

theorem of_mem (ha : a ∈ l) : m (key a) = some a :=
  (h _ a).mpr ⟨ha, rfl⟩

-- One key has another element, or none.
theorem update [DecidableEq κ] {o : Option α} (ho : ∀ a, o = some a → key a = k)
    (hl : ∀ a, a ∈ l' ↔ o = some a ∨ a ∈ l ∧ key a ≠ k) : Keyed key l' (Function.update m k o) := by
  intro k' a
  rw [Function.update_apply, hl]
  split
  case isTrue he =>
    subst he
    exact ⟨fun ha => ⟨.inl ha, ho a ha⟩, fun ha => ha.left.resolve_right fun hn => hn.right ha.right⟩
  case isFalse hne =>
    rw [h k' a]
    constructor
    case mp =>
      rintro ⟨ha, rfl⟩
      exact ⟨.inr ⟨ha, hne⟩, rfl⟩
    case mpr =>
      rintro ⟨ha | ha, rfl⟩
      · exact absurd (ho a ha) hne
      · exact ⟨ha.left, rfl⟩

end Keyed

theorem keyed_find? [DecidableEq κ] (hn : (l.map key).Nodup) :
    Keyed key l fun k => l.find? fun a => decide (key a = k) := by
  intro k a
  constructor
  case mp =>
    intro h
    exact ⟨List.mem_of_find?_eq_some h, by simpa using List.find?_some h⟩
  case mpr =>
    rintro ⟨ha, rfl⟩
    cases hf : l.find? fun b => decide (key b = key a)
    case none => exact absurd (List.find?_eq_none.mp hf a ha) (by simp)
    case some b =>
      have hb : key b = key a := by simpa using List.find?_some hf
      exact hf.trans (congrArg some
        (List.inj_on_of_nodup_map hn (List.mem_of_find?_eq_some hf) ha hb))
