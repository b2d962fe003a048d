import EmmcfsModel.Btree.Theorems.FailedRemove
import EmmcfsModel.Btree.Theorems.Search

namespace Emmcfs

open Code Search

section Compare

variable {key₁ key₂ : ExttreeKey}

theorem exttreeCmpfn_neg_iff : exttreeCmpfn key₁ key₂ < 0 ↔ key₁.objectId < key₂.objectId ∨
    (key₁.objectId = key₂.objectId ∧ key₂.iblock ≠ iblockDoesNotMatter ∧
      key₁.iblock < key₂.iblock) := by
  unfold exttreeCmpfn cmp2Le64
  split_ifs <;> omega

theorem exttreeCmpfn_pos_iff : 0 < exttreeCmpfn key₁ key₂ ↔ key₂.objectId < key₁.objectId ∨
    (key₁.objectId = key₂.objectId ∧ key₂.iblock ≠ iblockDoesNotMatter ∧
      key₂.iblock < key₁.iblock) := by
  unfold exttreeCmpfn cmp2Le64
  split_ifs <;> omega

theorem exttreeCmpfn_zero_iff : exttreeCmpfn key₁ key₂ = 0 ↔ key₁.objectId = key₂.objectId ∧
    (key₂.iblock = iblockDoesNotMatter ∨ key₁.iblock = key₂.iblock) := by
  have hneg := @exttreeCmpfn_neg_iff key₁ key₂
  have hpos := @exttreeCmpfn_pos_iff key₁ key₂
  omega

end Compare

-- A well-formed extents tree. No record has the iblock that stands for any.
structure Btree.IsExttree (tree : BtreeOps ExttreeKey) (s : Btree ExttreeKey ν) (leaves : List Nat)
    (up : List (List Nat)) (recs : List (BtreeRecord ExttreeKey ν)) : Prop
    extends s.Upper tree 1 (leaves :: up) recs where
  comp   : tree.compFn = exttreeCmpfn
  sorted : recs.Pairwise fun q r => exttreeCmpfn q.key r.key < 0
  iblock : ∀ r ∈ recs, r.key.iblock ≤ iblockMaxNumber

namespace Btree.IsExttree

variable {tree : BtreeOps ExttreeKey} {s : Btree ExttreeKey ν} {leaves : List Nat}
  {up : List (List Nat)} {recs before behind : List (BtreeRecord ExttreeKey ν)} {key : ExttreeKey}
  {id : Nat}

-- The records ascend for any key, also for one that several of them match.
theorem rising (h : s.IsExttree tree leaves up recs) (key : ExttreeKey) :
    Rising (tree.against key) recs := by
  refine h.sorted.imp fun {q r} hlt => ?_
  simp only [BtreeOps.against, h.comp, exttreeCmpfn_neg_iff, exttreeCmpfn_pos_iff] at hlt ⊢
  omega

-- A search for any record of an inode finds one.
theorem any_iff (h : s.IsExttree tree leaves up (before ++ r :: behind))
    (hend : EndsAt (tree.against ⟨ino, iblockDoesNotMatter⟩) (before ++ r :: behind) before.length) :
    r.key.objectId = ino ↔ ∃ q ∈ before ++ r :: behind, q.key.objectId = ino := by
  have hmatch (q : BtreeRecord ExttreeKey ν) :
      tree.against ⟨ino, iblockDoesNotMatter⟩ q = 0 ↔ q.key.objectId = ino := by
    rw [BtreeOps.against, h.comp, exttreeCmpfn_zero_iff]
    exact and_iff_left (.inl rfl)
  constructor
  case mp  => exact fun hr => ⟨r, by simp, hr⟩
  case mpr =>
    rintro ⟨q, hq, he⟩
    exact (hmatch r).mp (hend.eq_zero (h.rising _) hq ((hmatch q).mpr he))

-- A search with the greatest iblock ends at the last record of the inode.
theorem last_iff (h : s.IsExttree tree leaves up (before ++ r :: behind))
    (hend : EndsAt (tree.against ⟨ino, iblockMaxNumber⟩) (before ++ r :: behind) before.length) :
    (r.key.objectId = ino ∧ ∀ q ∈ before ++ r :: behind, q.key.objectId = ino →
      q.key.iblock ≤ r.key.iblock) ↔ ∃ q ∈ before ++ r :: behind, q.key.objectId = ino := by
  have hne : iblockMaxNumber ≠ iblockDoesNotMatter := by decide
  have hall := h.iblock
  have hlast := endsAt_iff.mp hend
  simp only [BtreeOps.against, h.comp, exttreeCmpfn_neg_iff, exttreeCmpfn_pos_iff,
    exttreeCmpfn_zero_iff, hne, false_or, ne_eq, not_false_eq_true, true_and] at hlast
  have hsorted := List.pairwise_append.mp h.sorted
  have hbefore (q) (hq : q ∈ before) := exttreeCmpfn_neg_iff.mp (hsorted.right.right q hq r (by simp))
  have hbehind (q) (hq : q ∈ behind) :=
    exttreeCmpfn_neg_iff.mp ((List.pairwise_cons.mp hsorted.right.left).left q hq)
  simp only [List.mem_append, List.mem_cons] at hall ⊢
  constructor
  case mp  => exact fun ⟨hr, _⟩ => ⟨r, .inr (.inl rfl), hr⟩
  case mpr =>
    -- no record of the inode lies behind
    have hin (q) (hq : q ∈ before ∨ q = r ∨ q ∈ behind) (he : q.key.objectId = ino) :
        r.key.objectId = ino ∧ q.key.iblock ≤ r.key.iblock := by
      have hmax := hall q hq
      rcases hq with hq | rfl | hq
      · have := hbefore q hq
        rcases hlast with h₀ | ⟨hr, _⟩ | ⟨rfl, _⟩
        · omega
        · omega
        · cases hq
      · exact ⟨he, le_rfl⟩
      · have := hbehind q hq
        rcases hlast with h₀ | ⟨_, hb⟩ | ⟨_, hr⟩
        · omega
        · have := hb q hq
          omega
        · omega
    rintro ⟨q, hq, he⟩
    exact ⟨(hin q hq he).left, fun q' hq' he' => (hin q' hq' he').right⟩

-- The record that a search returns.
theorem found (h : s.IsExttree tree leaves up recs)
    (hok : emmcfsBtreeFind tree key s = .ok (id, pos) s') : ∃ before r behind,
      recs = before ++ r :: behind ∧ (s'.bnode id).recs[pos]? = some r ∧
      EndsAt (tree.against key) recs before.length := by
  obtain ⟨hun, k, path, hf⟩ := (wp_of_ok hok).mp (emmcfsBtreeFind_found h.toUpper (h.rising key))
  obtain ⟨before, r, behind, rfl, rfl, _⟩ := hf.ends.exists_append
  have hnode : s'.bnode id = s.bnode id := by rw [hun]; rfl
  exact ⟨before, r, behind, rfl, by rw [hnode, ← hf.node]; simp, hf.ends⟩

-- With IBLOCK_DOES_NOT_MATTER the search ends at a record of the inode if there is one, and with
-- IBLOCK_MAX_NUMBER at its last one. If no request fails it does end.
theorem searches_iff (h : s.IsExttree tree leaves up recs) (ino : Nat) :
    (∀ id pos s', emmcfsBtreeFind tree ⟨ino, iblockDoesNotMatter⟩ s = .ok (id, pos) s' →
      ∃ r ∈ recs, (s'.bnode id).recs[pos]? = some r ∧
        (r.key.objectId = ino ↔ ∃ q ∈ recs, q.key.objectId = ino)) ∧
    (∀ id pos s', emmcfsBtreeFind tree ⟨ino, iblockMaxNumber⟩ s = .ok (id, pos) s' →
      ∃ r ∈ recs, (s'.bnode id).recs[pos]? = some r ∧
        ((r.key.objectId = ino ∧ ∀ q ∈ recs, q.key.objectId = ino → q.key.iblock ≤ r.key.iblock) ↔
          ∃ q ∈ recs, q.key.objectId = ino)) ∧
    (s.Calm → ∀ key, ∃ id pos, emmcfsBtreeFind tree key s = .ok (id, pos) s) := by
  refine ⟨fun id pos s' hok => ?_, fun id pos s' hok => ?_, fun hc key => ?_⟩
  · obtain ⟨before, r, behind, rfl, hr, hend⟩ := h.found hok
    exact ⟨r, by simp, hr, h.any_iff hend⟩
  · obtain ⟨before, r, behind, rfl, hr, hend⟩ := h.found hok
    exact ⟨r, by simp, hr, h.last_iff hend⟩
  · obtain ⟨id, pos, hok, _⟩ := emmcfsBtreeFind_returns h.toUpper (h.rising key) hc
    exact ⟨id, pos, hok⟩

end Btree.IsExttree

theorem twoLeaves_isExttree : Btree.IsExttree (extTree true) twoLeaves [2, 3] [[1]]
    [leafRecord ⟨10, 0⟩ 20, leafRecord ⟨10, 1⟩ 22, leafRecord ⟨11, 0⟩ 24, leafRecord ⟨11, 1⟩ 26] where
  toUpper := twoLeaves_upper
  comp    := rfl
  sorted  := by decide
  iblock  := by decide

-- The search for inode 10 meets its records in the first leaf, that for inode 12 ends at another one.
theorem searches_iff_twoLeaves :
    (∃ r s', emmcfsBtreeFind (extTree true) ⟨10, iblockMaxNumber⟩ twoLeaves = .ok (2, 1) s' ∧
      (s'.bnode 2).recs[1]? = some r ∧ r.key.objectId = 10) ∧
    (∃ r s', emmcfsBtreeFind (extTree true) ⟨12, iblockDoesNotMatter⟩ twoLeaves = .ok (3, 1) s' ∧
      (s'.bnode 3).recs[1]? = some r ∧ r.key.objectId ≠ 12) := by
  have h₁ : ∃ s', emmcfsBtreeFind (extTree true) ⟨10, iblockMaxNumber⟩ twoLeaves = .ok (2, 1) s' :=
    ⟨_, rfl⟩
  have h₂ : ∃ s', emmcfsBtreeFind (extTree true) ⟨12, iblockDoesNotMatter⟩ twoLeaves = .ok (3, 1) s' :=
    ⟨_, rfl⟩
  obtain ⟨s₁, h₁⟩ := h₁
  obtain ⟨s₂, h₂⟩ := h₂
  obtain ⟨r, _, hr, hlast⟩ := (twoLeaves_isExttree.searches_iff 10).right.left 2 1 s₁ h₁
  obtain ⟨q, _, hq, hany⟩ := (twoLeaves_isExttree.searches_iff 12).left 3 1 s₂ h₂
  exact ⟨⟨r, s₁, h₁, hr, (hlast.mpr (by decide)).left⟩, q, s₂, h₂, hq, fun he =>
    absurd (hany.mp he) (by decide)⟩

end Emmcfs
