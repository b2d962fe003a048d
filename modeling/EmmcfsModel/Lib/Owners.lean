import Mathlib.Data.Finset.Basic

-- Lists of objects that own the elements of a finite set, each element exactly once.

structure Owners [DecidableEq β] (own : α → Finset β) (l : List α) (s : Finset β) : Prop where
  disjoint : l.Pairwise fun a b => Disjoint (own a) (own b)
  mem_iff  : ∀ x, x ∈ s ↔ ∃ a ∈ l, x ∈ own a

namespace Owners

variable [DecidableEq β] {own : α → Finset β} {l l' : List α} {s : Finset β} {a b c : α}

theorem nil : Owners own [] ∅ :=
  ⟨.nil, by simp⟩

theorem perm (hp : l.Perm l') (h : Owners own l s) : Owners own l' s where
  disjoint := (hp.pairwise_iff fun h => h.symm).mp h.disjoint
  mem_iff x := by simp only [h.mem_iff, hp.mem_iff]

theorem cons_iff : Owners own (a :: l) s ↔ own a ⊆ s ∧ Owners own l (s \ own a) := by
  constructor
  case mp =>
    rintro ⟨hd, hm⟩
    obtain ⟨ha, hd⟩ := List.pairwise_cons.mp hd
    refine ⟨fun x hx => (hm x).mpr ⟨a, by simp, hx⟩, hd, fun x => ?_⟩
    simp only [Finset.mem_sdiff, hm, List.mem_cons, exists_eq_or_imp]
    constructor
    case mp => exact fun ⟨h, hn⟩ => h.resolve_left hn
    case mpr =>
      exact fun ⟨b, hb, hx⟩ => ⟨.inr ⟨b, hb, hx⟩, fun h => Finset.disjoint_left.mp (ha b hb) h hx⟩
  case mpr =>
    rintro ⟨hs, hd, hm⟩
    refine ⟨List.pairwise_cons.mpr ⟨fun b hb => Finset.disjoint_left.mpr fun x hx hb' => ?_, hd⟩,
      fun x => ?_⟩
    · exact (Finset.mem_sdiff.mp ((hm x).mpr ⟨b, hb, hb'⟩)).right hx
    · simp only [List.mem_cons, exists_eq_or_imp, ← hm, Finset.mem_sdiff]
      by_cases hx : x ∈ own a
      case pos => simp [hx, hs hx]
      case neg => simp [hx]

theorem subset (h : Owners own l s) (ha : a ∈ l) : own a ⊆ s :=
  fun x hx => (h.mem_iff x).mpr ⟨a, ha, hx⟩

-- An owner of elements that nobody had joins.
theorem cons (h : Owners own l s) (hd : Disjoint (own a) s) :
    Owners own (a :: l) (own a ∪ s) :=
  cons_iff.mpr ⟨Finset.subset_union_left, by
    rwa [Finset.union_sdiff_left, Finset.sdiff_eq_self_of_disjoint hd.symm]⟩

-- An owner hands all it has to two others, or two hand it to one.
theorem split_iff (hu : own a = own b ∪ own c) (hd : Disjoint (own b) (own c)) :
    Owners own (a :: l) s ↔ Owners own (b :: c :: l) s := by
  rw [cons_iff, cons_iff, cons_iff, hu, Finset.union_subset_iff, and_assoc, Finset.sdiff_union_distrib]
  refine and_congr_right fun _ => ?_
  rw [Finset.sdiff_sdiff_left', Finset.subset_sdiff]
  simp [hd.symm]

end Owners
