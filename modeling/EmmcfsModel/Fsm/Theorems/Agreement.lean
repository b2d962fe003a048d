import EmmcfsModel.Fsm.Theorems.Runs

namespace Emmcfs

-- A call of the free space manager with the block that it returns.
inductive SpaceCall
  | getFreeBlock (blockOffset length result : Nat)
  | putFreeBlock (blockOffset length : Nat)
  | freeExttreeExtent (offset length : Nat)

-- The calls that return normally. Blocks are freed that are in use, the first one is never freed.
inductive FsmInfo.Step : FsmInfo → SpaceCall → FsmInfo → Prop
  | getFreeBlock : fsmGetFreeBlock blockOffset length fsm = .ok result fsm' →
    Step fsm (.getFreeBlock blockOffset length result) fsm'
  | putFreeBlock : fsm.Allocated blockOffset length →
    fsmPutFreeBlock blockOffset length fsm = .ok () fsm' →
    Step fsm (.putFreeBlock blockOffset length) fsm'
  | freeExttreeExtent : fsm.Allocated offset length →
    fsmFreeExttreeExtent offset length fsm = .ok () fsm' →
    Step fsm (.freeExttreeExtent offset length) fsm'

-- The same calls on the set of the free blocks.
inductive FreeStep : Finset Nat → SpaceCall → Finset Nat → Prop
  | full : FreeStep s (.getFreeBlock blockOffset length 0) s
  | getFreeBlock : 0 < r → Finset.Ico r (r + length) ⊆ s →
    FreeStep s (.getFreeBlock blockOffset length r) (s \ Finset.Ico r (r + length))
  | putFreeBlock : Disjoint (Finset.Ico blockOffset (blockOffset + length)) s →
    FreeStep s (.putFreeBlock blockOffset length)
      (Finset.Ico blockOffset (blockOffset + length) ∪ s)
  | freeExttreeExtent : Disjoint (Finset.Ico offset (offset + length)) s →
    FreeStep s (.freeExttreeExtent offset length) (Finset.Ico offset (offset + length) ∪ s)

theorem FsmInfo.Step.manages {fsm fsm' : FsmInfo} {s : Finset Nat}
    (h : fsm.Manages s ∧ fsm.Small) (hs : Step fsm call fsm') :
    ∃ s', FreeStep s call s' ∧ fsm'.Manages s' ∧ fsm'.Small := by
  obtain ⟨hm, hsm⟩ := h
  cases hs
  case getFreeBlock blockOffset length r hc =>
    cases Code.wp_ok (fsmGetFreeBlock_spec blockOffset length hm hsm) hc
    case nothing              => exact ⟨s, .full, hm, hsm⟩
    case blocks hr hsub h' hm' => exact ⟨_, .getFreeBlock hr hsub, hm', h'⟩
  case putFreeBlock ha hc =>
    obtain ⟨hm', hsm', _⟩ := Code.wp_ok (fsmFreeBlockChunk_spec hm hsm ha) hc
    exact ⟨_, .putFreeBlock (ha.disjoint hm), hm', hsm'⟩
  case freeExttreeExtent ha hc =>
    obtain ⟨hm', hsm', _⟩ := Code.wp_ok (fsmFreeBlockChunk_spec hm hsm ha) hc
    exact ⟨_, .freeExttreeExtent (ha.disjoint hm), hm', hsm'⟩

-- The tree, the bitmap and the counter agree on what is free.
structure FsmInfo.Agrees (fsm : FsmInfo) : Prop where
  nonempty : ∀ key ∈ fsm.tree.keys, 0 < key.length
  disjoint : fsm.tree.keys.Pairwise fun a b => Disjoint a.blocks b.blocks
  free_iff : ∀ x, (∃ key ∈ fsm.tree.keys, x ∈ key.blocks) ↔
    x < 8 * fsm.lengthInBytes ∧ testBit fsm.data x = false
  count    : fsm.freeBlocksCount = (clearBits fsm.data (8 * fsm.lengthInBytes)).card

theorem FsmInfo.Manages.agrees {fsm : FsmInfo} (h : fsm.Manages s) : fsm.Agrees where
  nonempty   := h.holds.pos
  disjoint   := h.holds.parts.disjoint
  free_iff x := by rw [← h.holds.parts.mem_iff, h.bits, mem_clearBits]
  count      := by rw [h.count, h.bits]

-- From the state that fsm_get_tree builds the manager stays in agreement, and its calls are calls on
-- the set of the clear bits.
theorem fsm_agrees_of_run {fsm₀ fsm fsm' : FsmInfo} (ht : fsm₀.tree.root = none)
    (hsm : fsm₀.Small) (hg : fsmGetTree fsm₀ = .ok () fsm) (hr : Run FsmInfo.Step fsm calls fsm') :
    fsm'.Agrees ∧ Run FreeStep (clearBits fsm.data (8 * fsm.lengthInBytes)) calls
      (clearBits fsm'.data (8 * fsm'.lengthInBytes)) := by
  obtain ⟨hd, hb, hm⟩ := Code.wp_ok (fsmGetTree_spec ht (hsm.bytes.trans_lt (by decide))) hg
  rw [← hd, ← hb] at hm
  obtain ⟨s', hs, hm', _⟩ := hr.simulates (R := fun fsm s => fsm.Manages s ∧ fsm.Small)
    (fun _ _ _ _ h hs => hs.manages h) ⟨hm, hb ▸ hsm.bytes, hd ▸ hsm.zero⟩
  exact ⟨hm'.agrees, hm'.bits ▸ hs⟩

-- A volume of eight blocks with one in use.
def eightBlocks : FsmInfo where
  tree            := ⟨32, fsmBtreeOrder_ge, none⟩
  data            := fun _ => 1#32
  lengthInBytes   := 1
  pageCount       := 1
  freeBlocksCount := 0
  totalLebCount   := 8
  logBlocksInLeb  := 0
  isMountFinished := true

theorem fsm_agrees_of_run_eightBlocks : ∃ fsm : FsmInfo, fsm.freeBlocksCount = 5 ∧ fsm.Agrees := by
  have hsm : eightBlocks.Small := ⟨by decide, by decide⟩
  have hr : ∃ fsm fsm', fsmGetTree eightBlocks = .ok () fsm ∧
      FsmInfo.Step fsm (.getFreeBlock 4 2 1) fsm' ∧ fsm'.freeBlocksCount = 5 := by
    refine ⟨_, _, rfl, .getFreeBlock rfl, ?_⟩
    rfl
  obtain ⟨fsm, fsm', hg, hs, hc⟩ := hr
  exact ⟨fsm', hc, (fsm_agrees_of_run rfl hsm hg (.cons hs .nil)).left⟩

end Emmcfs
