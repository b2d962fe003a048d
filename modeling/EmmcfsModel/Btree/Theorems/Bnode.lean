import Mathlib.Order.Interval.Finset.Nat
import EmmcfsModel.Btree.Btree

namespace Emmcfs

variable {tree : BtreeOps κ} {s : Btree κ ν} {id i : Nat}

namespace Btree

@[simp]
theorem bnode_setBnode_self : (s.setBnode id b).bnode id = b :=
  Table.get_set_self

theorem bnode_setBnode_of_ne (h : i ≠ id) : (s.setBnode id b).bnode i = s.bnode i :=
  Table.get_set_of_ne h

-- A node that is in use.
@[mk_iff]
structure Live (s : Btree κ ν) (id : Nat) : Prop where
  ne_zero : id ≠ 0
  used    : s.bitmap.testBit id = true

instance : Decidable (s.Live id) :=
  decidable_of_iff' _ (live_iff ..)

theorem Live.congr {s' : Btree κ ν} (h : s.Live id) (he : s'.bitmap = s.bitmap) : s'.Live id :=
  ⟨h.ne_zero, he ▸ h.used⟩

-- No request fails.
def Calm (s : Btree κ ν) : Prop :=
  s.env.outcomes = []

-- What emmcfs_bnode_bitmap says about the bitmap is true, and the head bnode has its bit.
structure BitmapOk (tree : BtreeOps κ) (s : Btree κ ν) : Prop where
  head  : s.bitmap.testBit 0 = true
  lt    : ∀ i, s.bitmap.testBit i = true → i < tree.bitsNum
  count : s.freeNum = ((Finset.range tree.bitsNum).filter (s.bitmap.testBit · = false)).card
  least : ∀ i < s.firstFreeId, s.bitmap.testBit i = true
  clear : s.bitmap.testBit s.firstFreeId = false

-- The state after emmcfs_alloc_new_bnode and after emmcfs_destroy_bnode.
def taken (tree : BtreeOps κ) (s : Btree κ ν) : Btree κ ν :=
  let bitmap := s.bitmap ||| 1 <<< s.firstFreeId
  { s with
    bitmap      := bitmap
    firstFreeId := findNextZeroBit bitmap (tree.bitsNum - s.firstFreeId) s.firstFreeId
    freeNum     := s.freeNum - 1 }

def given (s : Btree κ ν) (id : Nat) : Btree κ ν :=
  { s with
    bitmap      := s.bitmap ^^^ 1 <<< id
    firstFreeId := if id < s.firstFreeId then id else s.firstFreeId
    freeNum     := s.freeNum + 1 }

@[simp]
theorem bnode_given : (s.given id).bnode i = s.bnode i := rfl

theorem testBit_taken : (s.taken tree).bitmap.testBit i =
    (s.bitmap.testBit i || decide (s.firstFreeId = i)) :=
  Bitmap.testBit_set ..

theorem testBit_given : (s.given id).bitmap.testBit i =
    (s.bitmap.testBit i ^^ decide (id = i)) :=
  Bitmap.testBit_flip ..

theorem live_taken_iff (h : s.BitmapOk tree) :
    (s.taken tree).Live i ↔ s.Live i ∨ i = s.firstFreeId := by
  constructor
  case mp =>
    rintro ⟨h0, hu⟩
    rw [testBit_taken] at hu
    by_cases he : s.firstFreeId = i
    case pos => exact .inr he.symm
    case neg => exact .inl ⟨h0, by simpa [he] using hu⟩
  case mpr =>
    intro hl
    refine ⟨?_, ?_⟩
    case refine_1 =>
      cases hl
      case inl hl => exact hl.ne_zero
      case inr he =>
        intro h0
        have := h.clear
        rw [← he, h0, h.head] at this
        cases this
    case refine_2 =>
      rw [testBit_taken]
      cases hl
      case inl hl => simp [hl.used]
      case inr he => simp [he]

theorem live_given_iff (h : s.Live id) : (s.given id).Live i ↔ s.Live i ∧ i ≠ id := by
  have hid := h.used
  constructor
  case mp =>
    rintro ⟨h0, hu⟩
    rw [testBit_given] at hu
    by_cases he : id = i
    case pos => simp [← he, hid] at hu
    case neg => exact ⟨⟨h0, by simpa [he] using hu⟩, Ne.symm he⟩
  case mpr =>
    rintro ⟨⟨h0, hu⟩, hne⟩
    exact ⟨h0, by rw [testBit_given]; simp [hu, Ne.symm hne]⟩

-- The first `k` ids are in use, the head bnode among them.
theorem BitmapOk.of_ones (hk : 0 < k) (hb : s.bitmap = 2 ^ k - 1) (hf : s.firstFreeId = k)
    (hn : s.freeNum + k = tree.bitsNum) : s.BitmapOk tree := by
  have hbit (i) : s.bitmap.testBit i = decide (i < k) := by rw [hb, Nat.testBit_two_pow_sub_one]
  have hclear : (Finset.range tree.bitsNum).filter (s.bitmap.testBit · = false) =
      Finset.Ico k tree.bitsNum := by
    ext i
    simp only [Finset.mem_filter, Finset.mem_range, Finset.mem_Ico, hbit, decide_eq_false_iff_not]
    omega
  exact {
    head  := by simp [hbit, hk]
    lt    := fun i hi => by simp only [hbit, decide_eq_true_eq] at hi; omega
    count := by rw [hclear, Nat.card_Ico]; omega
    least := fun i hi => by simp [hbit, ← hf, hi]
    clear := by simp [hbit, hf] }

end Btree

namespace Btree.BitmapOk

theorem exists_free (h : s.BitmapOk tree) (hf : s.freeNum ≠ 0) : s.firstFreeId < tree.bitsNum := by
  rw [h.count, Finset.card_ne_zero] at hf
  obtain ⟨i, hi⟩ := hf
  obtain ⟨hi, hz⟩ := Finset.mem_filter.mp hi
  refine lt_of_le_of_lt (Nat.le_of_not_lt fun hlt => ?_) (Finset.mem_range.mp hi)
  rw [h.least i hlt] at hz
  cases hz

theorem taken (h : s.BitmapOk tree) (hf : s.freeNum ≠ 0) : (s.taken tree).BitmapOk tree := by
  have hlt := h.exists_free hf
  have hspec := @findNextZeroBit_spec s.firstFreeId (s.taken tree).bitmap
    (tree.bitsNum - s.firstFreeId)
  rw [Nat.add_sub_cancel' hlt.le] at hspec
  obtain ⟨_, hle, hset, hclear⟩ := hspec
  have hset_lt : ∀ i, (s.taken tree).bitmap.testBit i = true → i < tree.bitsNum := by
    intro i hi
    rw [testBit_taken, Bool.or_eq_true, decide_eq_true_eq] at hi
    exact hi.elim (h.lt i) fun he => he ▸ hlt
  exact {
    head  := by rw [testBit_taken, h.head, Bool.true_or]
    lt    := hset_lt
    count := by
      have hmem : s.firstFreeId ∈
          (Finset.range tree.bitsNum).filter (s.bitmap.testBit · = false) :=
        Finset.mem_filter.mpr ⟨Finset.mem_range.mpr hlt, h.clear⟩
      have he : (Finset.range tree.bitsNum).filter ((s.taken tree).bitmap.testBit · = false) =
          ((Finset.range tree.bitsNum).filter (s.bitmap.testBit · = false)).erase
            s.firstFreeId := by
        ext i
        simp only [Finset.mem_filter, Finset.mem_erase, testBit_taken, Bool.or_eq_false_iff,
          decide_eq_false_iff_not]
        tauto
      rw [he, Finset.card_erase_of_mem hmem, ← h.count]
      rfl
    least := by
      intro i hi
      by_cases hl : i < s.firstFreeId
      case pos => rw [testBit_taken, h.least i hl, Bool.true_or]
      case neg => exact hset i (Nat.le_of_not_lt hl) hi
    clear := by
      by_cases hl : (s.taken tree).firstFreeId < tree.bitsNum
      case pos => exact hclear hl
      case neg =>
        by_contra hb
        exact hl (hset_lt _ (by simpa using hb)) }

theorem given (h : s.BitmapOk tree) (hl : s.Live id) : (s.given id).BitmapOk tree where
  head  := by rw [testBit_given, h.head]; simp [hl.ne_zero]
  lt i hi := by
    rw [testBit_given] at hi
    by_cases he : id = i
    case pos => exact he ▸ h.lt id hl.used
    case neg => exact h.lt i (by simpa [he] using hi)
  count := by
    have hmem : id ∉ (Finset.range tree.bitsNum).filter (s.bitmap.testBit · = false) := by
      simp [hl.used]
    have he : (Finset.range tree.bitsNum).filter ((s.given id).bitmap.testBit · = false) =
        Insert.insert id ((Finset.range tree.bitsNum).filter (s.bitmap.testBit · = false)) := by
      ext i
      simp only [Finset.mem_filter, Finset.mem_insert, testBit_given]
      by_cases he : id = i
      case pos =>
        subst he
        simp [hl.used, h.lt id hl.used]
      case neg => simp [he, Ne.symm he]
    rw [he, Finset.card_insert_of_notMem hmem, ← h.count]
    rfl
  least i hi := by
    have hi : i < if id < s.firstFreeId then id else s.firstFreeId := hi
    have hlt : i < s.firstFreeId ∧ i ≠ id := by
      split at hi <;> omega
    rw [testBit_given, h.least i hlt.left]
    simp [Ne.symm hlt.right]
  clear := by
    have hc := h.clear
    rw [testBit_given]
    change (s.bitmap.testBit (if id < s.firstFreeId then id else s.firstFreeId) ^^
      decide (id = if id < s.firstFreeId then id else s.firstFreeId)) = false
    split
    case isTrue => simp [hl.used]
    case isFalse =>
      have hne : id ≠ s.firstFreeId := fun he => by
        rw [← he, hl.used] at hc
        cases hc
      simp [hc, hne]

end Btree.BitmapOk

end Emmcfs
