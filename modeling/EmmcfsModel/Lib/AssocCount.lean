import Mathlib.Data.List.AList

-- Counting the entries of an association list: an entry that is added or removed counts once.

namespace AList

variable {α : Type*} {β : α → Type*} [DecidableEq α] {s : AList β} {a : α} {b c : β a}
  (f : Sigma β → Bool)

theorem perm_cons_erase (h : s.lookup a = some b) :
    s.entries.Perm (⟨a, b⟩ :: (s.erase a).entries) := by
  have ha : a ∈ s.keys := lookup_isSome.mp (by rw [h]; rfl)
  obtain ⟨b', l₁, l₂, _, hl, he⟩ := List.exists_of_kerase ha
  have hb : s.lookup a = some b' := mem_lookup_iff.mpr (by simp [hl])
  cases h.symm.trans hb
  rw [hl, show (s.erase a).entries = l₁ ++ l₂ from he]
  exact List.perm_middle

theorem countP_insert (h : a ∉ s) :
    (s.insert a b).entries.countP f = s.entries.countP f + if f ⟨a, b⟩ then 1 else 0 := by
  rw [entries_insert_of_notMem h, List.countP_cons]

theorem countP_erase (h : s.lookup a = some b) :
    s.entries.countP f = (s.erase a).entries.countP f + if f ⟨a, b⟩ then 1 else 0 := by
  rw [(perm_cons_erase h).countP_eq, List.countP_cons]

-- An entry that is overwritten by one that counts the same.
theorem countP_insert_of_eq (h : s.lookup a = some b) (hf : f ⟨a, c⟩ = f ⟨a, b⟩) :
    (s.insert a c).entries.countP f = s.entries.countP f := by
  rw [entries_insert, List.countP_cons, hf, countP_erase f h]
  rfl

end AList
