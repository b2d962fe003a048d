import EmmcfsModel.Fsm.Theorems.Agreement
import EmmcfsModel.Fsm.Theorems.Lookup

namespace Emmcfs

namespace FsmInfo

-- There is no chunk of so many free blocks.
def NoExtent (fsm : FsmInfo) (length : Nat) : Prop :=
  ∀ key ∈ fsm.tree.keys, key.length < length

-- The blocks of the tree are clear in the bitmap. They need not be all that are clear there.
structure Offers (fsm : FsmInfo) (s : Finset Nat) : Prop where
  holds : fsm.tree.Holds s
  clear : s ⊆ clearBits fsm.data (8 * fsm.lengthInBytes)

-- The bitmap does not fill its pages, and the number of its bits is an unsigned int.
structure Fits (fsm : FsmInfo) : Prop where
  bits  : 8 * fsm.lengthInBytes < 2 ^ 32
  pages : 8 * fsm.lengthInBytes < fsm.pageCount * 2 ^ 15

structure SameVolume (fsm fsm' : FsmInfo) : Prop extends fsm.SameSize fsm' where
  total : fsm'.totalBlocks = fsm.totalBlocks

-- How a request for blocks ends: there is nothing to give, or the first blocks of a chunk are given.
inductive Gives (fsm : FsmInfo) (s : Finset Nat) (blockOffset length : Nat) : Nat → FsmInfo → Prop
  | nothing : fsm.totalBlocks ≤ u64 (blockOffset + length) ∨ fsm.NoExtent length →
    Gives fsm s blockOffset length 0 fsm
  | blocks : r ∈ s → Finset.Ico r (r + length) ⊆ s → fsm'.Offers (s \ Finset.Ico r (r + length)) →
    fsm.SameVolume fsm' → Gives fsm s blockOffset length r fsm'

end FsmInfo

section Calls

variable {fsm : FsmInfo} {s : Finset Nat}

theorem FsmInfo.Manages.offers (h : fsm.Manages s) : fsm.Offers s :=
  ⟨h.holds, h.bits.subset⟩

-- The page behind the last block of a chunk counts, so that a chunk must not end with the last page.
theorem FsmInfo.offPages_iff :
    fsm.OffPages blockOffset length ↔ fsm.pageCount * 2 ^ 15 ≤ blockOffset + length := by
  simp only [OffPages, pageCacheShift, Nat.shiftRight_eq_div_pow, Nat.le_div_iff_mul_le, Nat.reduceAdd,
    Nat.two_pow_pos]
  omega

theorem FsmInfo.Fits.bitLimit (h : fsm.Fits) : fsm.bitLimit = 8 * fsm.lengthInBytes := by
  have hb := h.bits
  rw [FsmInfo.bitLimit, Nat.shiftLeft_eq, u32_of_lt (by omega), Nat.mul_comm]

theorem FsmInfo.Offers.first (h : fsm.Offers s) (hk : key ∈ fsm.tree.keys) : key.blockOffset ∈ s := by
  have hpos := h.holds.pos key hk
  exact h.holds.parts.subset hk (FsmBtreeKey.mem_blocks.mpr ⟨le_rfl, by omega⟩)

theorem add_le_of_subset (hr : r ∈ s) (hs : Finset.Ico r (r + length) ⊆ s) (hn : ∀ x ∈ s, x < n) :
    r + length ≤ n := by
  have := hn r hr
  by_contra hlt
  have := hn _ (hs (Finset.mem_Ico.mpr ⟨show r ≤ r + length - 1 by omega, by omega⟩))
  omega

-- The lookup finds a chunk that is long enough, if there is one.
theorem FsmInfo.Offers.lookup (h : fsm.Offers s) (blockOffset length : Nat) :
    (fsm.NoExtent length ∧ fsmBtreeLookup fsm.tree blockOffset length = (fsm.tree, 0)) ∨
    ∃ tree r, fsmBtreeLookup fsm.tree blockOffset length = (tree, r) ∧ r ∈ s ∧
      Finset.Ico r (r + length) ⊆ s ∧ tree.Holds (s \ Finset.Ico r (r + length)) := by
  obtain ⟨hsound, _⟩ := FsmBtree.holds_iff.mp h.holds
  by_cases hn : fsm.NoExtent length
  case pos => exact .inl ⟨hn, fsmBtreeLookup_none hsound hn⟩
  case neg =>
    simp only [FsmInfo.NoExtent, not_forall, Nat.not_lt] at hn
    obtain ⟨key, hk, hl⟩ := hn
    obtain ⟨k, hk, hl, hr, _⟩ := fsmBtreeLookup_some blockOffset hsound hk hl
    obtain ⟨hsub, tree, ht, hh⟩ := takeChunk_holds h.holds hk hl
    exact .inr ⟨tree, k.blockOffset, by rw [hr, ht], h.first hk, hsub, hh⟩

theorem fsmGetFreeBlock_gives (blockOffset length : Nat) (h : fsm.Offers s) :
    (fsmGetFreeBlock blockOffset length).wp (fsm.Gives s blockOffset length) (fun _ _ => False)
      (¬fsm.Fits) fsm := by
  simp only [fsmGetFreeBlock, Code.wp_bind, Code.wp_get, Code.wp_ite, Code.wp_pure, Code.wp_modify,
    Code.wp_haltOn]
  refine ⟨fun hle => .nothing (.inl hle), fun _ => ?_⟩
  rcases h.lookup blockOffset length with ⟨hn, hl⟩ | ⟨tree, r, hl, hr, hsub, hh⟩ <;> rw [hl]
  case inl => exact ⟨fun _ => .nothing (.inr hn), fun hne => absurd rfl hne⟩
  case inr =>
    have hle := add_le_of_subset hr hsub fun x hx => (mem_clearBits.mp (h.clear hx)).left
    refine ⟨fun (h₀ : r = 0) => ?_, fun _ => ⟨fun hoff hfits => ?_, fun _ => ?_⟩⟩
    · -- the blocks are gone from the tree although nothing is handed out
      subst h₀
      exact .blocks hr hsub ⟨hh, Finset.sdiff_subset.trans h.clear⟩ ⟨⟨rfl, rfl⟩, rfl⟩
    · have := FsmInfo.offPages_iff.mp hoff
      have := hfits.pages
      omega
    · refine Code.wp_mono takeBits_spec ?_ (fun _ _ => id) fun hn hfits => hn fun y hy hlt => ?_
      · rintro _ _ ⟨data, rfl, hd⟩
        refine .blocks hr hsub ⟨hh, fun x hx => ?_⟩ ⟨⟨rfl, rfl⟩, rfl⟩
        obtain ⟨hs, hx⟩ := Finset.mem_sdiff.mp hx
        obtain ⟨hlt, hc⟩ := mem_clearBits.mp (h.clear hs)
        rw [Finset.mem_Ico] at hx
        exact mem_clearBits.mpr ⟨hlt, by simp [hd, hc, hx]⟩
      · obtain ⟨hlt, hc⟩ := mem_clearBits.mp (h.clear (hsub (Finset.mem_Ico.mpr ⟨hy, hlt⟩)))
        exact ⟨hfits.bitLimit.symm ▸ hlt, hc⟩

theorem fsmFreeBlockChunk_safe (hf : fsm.Fits) (hin : blockOffset + length ≤ 8 * fsm.lengthInBytes)
    (hu : ∀ x, blockOffset ≤ x → x < blockOffset + length → testBit fsm.data x) :
    (fsmFreeBlockChunk blockOffset length).wp (fun _ _ => True) (fun _ _ => False) False fsm := by
  have hbits := hf.bits
  have hpages := hf.pages
  simp only [fsmFreeBlockChunk, Code.wp_bind, Code.wp_get, Code.wp_modify, Code.wp_haltOn]
  refine ⟨fun hoff => ?_, fun _ => ?_⟩
  · have := FsmInfo.offPages_iff.mp hoff
    omega
  · have hok : ∀ y, blockOffset ≤ y → y < blockOffset + length →
        y < fsm.bitLimit ∧ testBit fsm.data y :=
      fun y hy hn => ⟨by rw [hf.bitLimit]; omega, hu y hy hn⟩
    exact Code.wp_mono (freeBits_spec (by omega)) (fun _ _ _ => trivial) (fun _ _ h => h hok)
      fun h => h hok

end Calls

-- A bitmap with no clear bit.
def fullVolume (bytes pages : Nat) : FsmInfo where
  tree            := ⟨32, fsmBtreeOrder_ge, none⟩
  data            := fun _ => BitVec.allOnes 32
  lengthInBytes   := bytes
  pageCount       := pages
  freeBlocksCount := 0
  totalLebCount   := 8 * bytes
  logBlocksInLeb  := 0
  isMountFinished := true

theorem testBit_fullVolume : testBit (fullVolume bytes pages).data x := by
  rw [testBit, fullVolume, BitVec.getLsbD_allOnes]
  exact decide_eq_true (Nat.mod_lt _ (by decide))

theorem fullVolume_manages : (fullVolume bytes pages).Manages ∅ := by
  have hc : clearBits (fullVolume bytes pages).data (8 * bytes) = ∅ := by
    ext x
    simp [mem_clearBits, testBit_fullVolume]
  exact ⟨⟨(FsmBtree.represents_empty rfl).wf, nofun, Owners.nil⟩, hc.symm, rfl⟩

-- Allocations and frees of used blocks never halt the system if and only if the bitmap leaves a bit
-- of its pages unused and its number of bits is an unsigned int.
theorem fsm_assertions_iff (hp : 0 < pages) (hc : bytes ≤ pages * 2 ^ 12) :
    (∀ (fsm : FsmInfo) (s : Finset Nat), fsm.Manages s → fsm.lengthInBytes = bytes →
      fsm.pageCount = pages →
      (∀ blockOffset length, fsmGetFreeBlock blockOffset length fsm ≠ .halt) ∧
      (∀ blockOffset length, blockOffset + length ≤ 8 * bytes →
        (∀ x, blockOffset ≤ x → x < blockOffset + length → testBit fsm.data x) →
        fsmFreeBlockChunk blockOffset length fsm ≠ .halt)) ↔
    bytes < pages * 2 ^ 12 ∧ 8 * bytes < 2 ^ 32 := by
  simp only [ne_eq, Code.ne_halt_iff]
  constructor
  case mp =>
    intro h
    obtain ⟨_, hf⟩ := h (fullVolume bytes pages) ∅ fullVolume_manages rfl rfl
    simp only [fsmFreeBlockChunk, Code.wp_bind, Code.wp_get, Code.wp_haltOn] at hf
    constructor
    case left =>
      -- the last block of the volume is freed
      by_contra hlt
      obtain ⟨hoff, _⟩ := hf (8 * bytes - 1) 1 (by omega) fun x _ _ => testBit_fullVolume
      exact hoff (FsmInfo.offPages_iff.mpr (by simp only [fullVolume]; omega))
    case right =>
      -- the last one is freed that has a number
      by_contra hlt
      obtain ⟨hoff, hbits⟩ := hf (2 ^ 32 - 1) 1 (by omega) fun x _ _ => testBit_fullVolume
      have hl : (fullVolume bytes pages).bitLimit ≤ u32 (2 ^ 32 - 1) := Nat.le_of_lt_succ (u32_lt _)
      have hbits := hbits hoff
      simp only [Code.wp_modify, freeBits, efaultOrBug, Code.wp_bind, Code.wp_get, Code.wp_ite,
        Code.wp_halt] at hbits
      exact hbits.left hl |>.left rfl
  case mpr =>
    rintro ⟨hlt, hb⟩ fsm s h rfl rfl
    refine ⟨fun blockOffset length => ?_, fun blockOffset length hin hu => ?_⟩
    · exact Code.wp_mono (fsmGetFreeBlock_gives blockOffset length h.offers) (fun _ _ _ => trivial)
        (fun _ _ => False.elim) fun hn => hn ⟨hb, by omega⟩
    · exact Code.wp_mono (fsmFreeBlockChunk_safe ⟨hb, by omega⟩ hin hu) (fun _ _ => id)
        (fun _ _ => False.elim) id

theorem fsm_assertions_iff_oneByte : fsmFreeBlockChunk 7 1 (fullVolume 1 1) ≠ .halt := by
  have h := (@fsm_assertions_iff 1 1 (by decide) (by decide)).mpr (by decide)
  exact (h (fullVolume 1 1) ∅ fullVolume_manages rfl rfl).right 7 1 (by decide)
    fun x _ _ => testBit_fullVolume

-- A bitmap of one whole page with all blocks in use: the last one cannot be freed.
theorem not_fsm_assertions_onePage : (fullVolume 4096 1).Manages ∅ ∧
    testBit (fullVolume 4096 1).data 32767 ∧ 32767 + 1 ≤ 8 * 4096 ∧ 4096 ≤ 1 * 2 ^ 12 ∧
    fsmFreeBlockChunk 32767 1 (fullVolume 4096 1) = .halt :=
  ⟨fullVolume_manages, testBit_fullVolume, by decide, by decide, rfl⟩

end Emmcfs
