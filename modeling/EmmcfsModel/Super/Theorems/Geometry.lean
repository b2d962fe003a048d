import EmmcfsModel.Super.Geometry
import Mathlib.Tactic.IntervalCases

namespace Emmcfs

variable {m : Shifts} {dev : BlockDevice} {esb : SuperBlock} {sbi : SbInfo}

namespace BlockDevice

@[simp]
theorem sbSetBlocksize_size : (dev.sbSetBlocksize n).size = dev.size := by
  unfold sbSetBlocksize
  split <;> rfl

-- If the block size cannot be set then the device has larger blocks already.
theorem le_blocksizeBits (hl : 9 ≤ n) (hu : n ≤ 12) :
    n ≤ (dev.sbSetBlocksize (2 ^ n)).blocksizeBits := by
  have hp : 2 ^ n ≤ 2 ^ 12 := Nat.pow_le_pow_right (by decide) hu
  have hq : 2 ^ 9 ≤ 2 ^ n := Nat.pow_le_pow_right (by decide) hl
  have hz : 2 ^ n &&& (2 ^ n - 1) = 0 := by
    rw [Nat.and_two_pow_sub_one_eq_mod, Nat.mod_self]
  unfold sbSetBlocksize
  split
  case isTrue h =>
    rw [pageCacheShift] at h
    have hb : n < dev.logicalBits := (Nat.pow_lt_pow_iff_right (a := 2) (by decide)).mp (by omega)
    exact hb.le.trans dev.logical_le
  case isFalse => exact (Nat.log2_two_pow).ge

theorem getDevBlocksCount_le (hl : 9 ≤ n) (hu : n ≤ 12) :
    (dev.sbSetBlocksize (2 ^ n)).getDevBlocksCount ≤ dev.size / 2 ^ n := by
  rw [getDevBlocksCount, sbSetBlocksize_size, Nat.shiftRight_eq_div_pow]
  exact Nat.div_le_div_left (Nat.pow_le_pow_right (by decide) (le_blocksizeBits hl hu))
    (Nat.two_pow_pos n)

end BlockDevice

-- A block size that is shifted in range is accepted if it is one of four.
theorem maskedBlockSize_eq_zero_iff (h : n < 32) :
    (1#32 <<< n).signExtend 64 &&& ~~~(512 ||| 1024 ||| 2048 ||| 4096) = 0 ↔ 9 ≤ n ∧ n ≤ 12 := by
  have hd : ∀ n : Fin 32, (1#32 <<< n.val).signExtend 64 &&& ~~~(512 ||| 1024 ||| 2048 ||| 4096) = 0 ↔
    9 ≤ n.val ∧ n.val ≤ 12 := by decide
  exact hd ⟨n, h⟩

theorem Shifts.toNat_one (h : n < 32) : (m.left32 1 n).toNat = 2 ^ n := by
  have : 2 ^ n < 2 ^ 32 := Nat.pow_lt_pow_right (by decide) h
  rw [m.left32_of_lt h, BitVec.toNat_shiftLeft, BitVec.ofNat_eq_ofNat, BitVec.toNat_ofNat,
    Nat.one_mod, Nat.one_shiftLeft, Nat.mod_eq_of_lt this]

theorem Shifts.toNat_signExtend_one (h : n ≤ 12) :
    ((m.left32 1 n).signExtend 64).toNat = 2 ^ n := by
  have hd : ∀ n : Fin 13, ((1#32 <<< n.val).signExtend 64).toNat = 2 ^ n.val := by decide
  rw [m.left32_of_lt (by omega)]
  exact hd ⟨n, Nat.lt_succ_of_le h⟩

theorem setWidth_signExtend (x : BitVec 32) : (x.signExtend 64).setWidth 32 = x := by
  ext i hi
  have : i < 64 := by omega
  rw [BitVec.getElem_setWidth, BitVec.getLsbD_signExtend]
  simp [hi, this]

-- What is known about a superblock that is accepted.
structure Accepted (m : Shifts) (dev : BlockDevice) (esb : SuperBlock) (sbi : SbInfo) : Prop where
  masked    : (m.left32 1 esb.logBlockSize.toNat).signExtend 64 &&&
    ~~~(512 ||| 1024 ||| 2048 ||| 4096) = 0
  leb_le    : ((m.left32 1 esb.logBlockSize.toNat).signExtend 64).toNat ≤
    (m.left32 1 esb.logLebSize.toNat).toNat
  block     : sbi.blockSize = m.left32 1 esb.logBlockSize.toNat
  shift     : sbi.blockSizeShift = esb.logBlockSize.setWidth 32
  log       : sbi.logBlocksInLeb = esb.logLebSize.setWidth 32 - esb.logBlockSize.setWidth 32
  total     : sbi.totalLebCount = esb.totalLebCount
  count_le  : (m.left64 sbi.totalLebCount sbi.logBlocksInLeb.toNat).toNat ≤
    (dev.sbSetBlocksize sbi.blockSize.toNat).getDevBlocksCount
  count_pos : 0 < (m.left64 sbi.totalLebCount sbi.logBlocksInLeb.toNat).toNat

theorem accepted_of_ok (h : fillRuntimeSuperblock m dev esb = .ok sbi) : Accepted m dev esb sbi := by
  unfold fillRuntimeSuperblock at h
  simp only [setWidth_signExtend] at h
  split_ifs at h with h₁ h₂ h₃
  rw [not_or, not_lt] at h₂ h₃
  cases h
  exact ⟨not_not.mp h₁, h₂.right, rfl, rfl, rfl, rfl, h₃.left, by bv_omega⟩

namespace Accepted

variable (h : Accepted m dev esb sbi)
include h

theorem block_range (hb : esb.logBlockSize.toNat < 32) :
    9 ≤ esb.logBlockSize.toNat ∧ esb.logBlockSize.toNat ≤ 12 :=
  (maskedBlockSize_eq_zero_iff hb).mp (m.left32_of_lt hb ▸ h.masked)

theorem toNat_blockSize (hb : esb.logBlockSize.toNat < 32) :
    sbi.blockSize.toNat = 2 ^ esb.logBlockSize.toNat := by
  rw [h.block, Shifts.toNat_one hb]

theorem toNat_blockSizeShift : sbi.blockSizeShift.toNat = esb.logBlockSize.toNat := by
  rw [h.shift]
  bv_omega

section Range

variable (hb : esb.logBlockSize.toNat < 32) (hl : esb.logLebSize.toNat < 32)
include hb hl

-- A LEB is not smaller than a block.
theorem block_le_leb : esb.logBlockSize.toNat ≤ esb.logLebSize.toNat := by
  have hle := h.leb_le
  rw [Shifts.toNat_signExtend_one (h.block_range hb).right, Shifts.toNat_one hl] at hle
  exact (Nat.pow_le_pow_iff_right (by decide)).mp hle

theorem toNat_logBlocksInLeb :
    sbi.logBlocksInLeb.toNat = esb.logLebSize.toNat - esb.logBlockSize.toNat := by
  have := h.block_le_leb hb hl
  rw [h.log]
  bv_omega

theorem toNat_logPagesPerNode (hg : 12 ≤ esb.logLebSize.toNat) :
    sbi.logPagesPerNode.toNat = esb.logLebSize.toNat - 12 := by
  have := h.block_le_leb hb hl
  have := h.toNat_logBlocksInLeb hb hl
  have := h.toNat_blockSizeShift
  unfold SbInfo.logPagesPerNode pageCacheShift
  bv_omega

theorem toNat_pagesPerNode (hg : 12 ≤ esb.logLebSize.toNat) :
    (sbi.pagesPerNode m).toNat = 2 ^ (esb.logLebSize.toNat - 12) := by
  rw [SbInfo.pagesPerNode, h.toNat_logPagesPerNode hb hl hg, Shifts.toNat_one (by omega)]

theorem toNat_nodeSizeBytes (hg : 12 ≤ esb.logLebSize.toNat) :
    (sbi.nodeSizeBytes m).toNat = 2 ^ esb.logLebSize.toNat := by
  have hp : 2 ^ esb.logLebSize.toNat < 2 ^ 32 := Nat.pow_lt_pow_right (by decide) hl
  rw [SbInfo.nodeSizeBytes, BitVec.toNat_shiftLeft, h.toNat_pagesPerNode hb hl hg,
    Nat.shiftLeft_eq, pageCacheShift, ← pow_add, Nat.sub_add_cancel hg, Nat.mod_eq_of_lt hp]

theorem blockCount_eq : sbi.blockCount = esb.totalLebCount.toNat *
    2 ^ (esb.logLebSize.toNat - esb.logBlockSize.toNat) := by
  rw [SbInfo.blockCount, h.total, h.toNat_logBlocksInLeb hb hl]

-- The number of blocks that the driver works with is the right one if it does not overflow.
theorem toNat_left64 (hc : sbi.blockCount < 2 ^ 64) :
    (m.left64 sbi.totalLebCount sbi.logBlocksInLeb.toNat).toNat = sbi.blockCount := by
  have := h.toNat_logBlocksInLeb hb hl
  rw [m.left64_of_lt (by omega), BitVec.toNat_shiftLeft, Nat.shiftLeft_eq]
  exact Nat.mod_eq_of_lt hc

end Range

end Accepted

namespace SuperBlock

theorem Sound.inRange (ha : Accepted m dev esb sbi) (hs : esb.Sound m dev sbi) : esb.InRange := by
  have hb : esb.logBlockSize.toNat < 32 := hs.shifts _ (by simp)
  have hl : esb.logLebSize.toNat < 32 := hs.shifts _ (by simp)
  have hg : 12 ≤ esb.logLebSize.toNat := by
    have hp := hs.pages.left
    rwa [ha.toNat_logBlocksInLeb hb hl, ha.toNat_blockSizeShift,
      Nat.sub_add_cancel (ha.block_le_leb hb hl)] at hp
  refine ⟨hb, hg, not_lt.mp fun hc => ?_, ?_⟩
  case refine_1 =>
    have hf := hs.free_space.right
    have : 2 ^ 17 ≤ 2 ^ esb.logLebSize.toNat := Nat.pow_le_pow_right (by decide) hc
    rw [ha.toNat_nodeSizeBytes hb hl hg, SbInfo.emptyNodeUsed, sizeofNodeDescr, sizeofBtOff,
      bnodeFirstOffset] at hf
    omega
  case refine_2 =>
    have := dev.size_lt
    have := hs.count_le.trans (Nat.div_le_self ..)
    rw [← ha.blockCount_eq hb hl]
    omega

theorem InRange.sound (ha : Accepted m dev esb sbi) (hr : esb.InRange) : esb.Sound m dev sbi := by
  obtain ⟨hb, hg, hu, hc⟩ := hr
  have hl : esb.logLebSize.toNat < 32 := by omega
  obtain ⟨hge, hle⟩ := ha.block_range hb
  have hbl := ha.block_le_leb hb hl
  have hlog := ha.toNat_logBlocksInLeb hb hl
  have hshift := ha.toNat_blockSizeShift
  have hsize := ha.toNat_blockSize hb
  have hcount := ha.toNat_left64 hb hl ((ha.blockCount_eq hb hl).trans_lt hc)
  constructor
  case shifts =>
    have := ha.toNat_logPagesPerNode hb hl hg
    have : (32 - sbi.blockSizeShift).toNat < 32 := by bv_omega
    simp only [List.forall_mem_cons, List.not_mem_nil, false_implies, implies_true, and_true]
    omega
  case block =>
    rw [hsize]
    generalize esb.logBlockSize.toNat = n at hge hle
    interval_cases n <;> decide
  case sectors => rw [hshift]; exact hge
  case pages =>
    rw [hlog, hshift, Nat.sub_add_cancel hbl, ha.toNat_pagesPerNode hb hl hg]
    exact ⟨hg, Nat.one_le_two_pow⟩
  case free_space =>
    have : 2 ^ 12 ≤ 2 ^ esb.logLebSize.toNat := Nat.pow_le_pow_right (by decide) hg
    have : 2 ^ esb.logLebSize.toNat ≤ 2 ^ 16 := Nat.pow_le_pow_right (by decide) hu
    rw [ha.toNat_nodeSizeBytes hb hl hg, SbInfo.emptyNodeUsed, sizeofNodeDescr, sizeofBtOff,
      bnodeFirstOffset]
    omega
  case count_pos => exact hcount ▸ ha.count_pos
  case count_le =>
    have hd := ha.count_le
    rw [hcount, hsize] at hd
    rw [hsize]
    exact hd.trans (BlockDevice.getDevBlocksCount_le hge hle)

theorem sound_iff_inRange (m : Shifts) (dev : BlockDevice) (esb : SuperBlock) (sbi : SbInfo)
    (h : fillRuntimeSuperblock m dev esb = .ok sbi) : esb.Sound m dev sbi ↔ esb.InRange :=
  ⟨Sound.inRange (accepted_of_ok h), InRange.sound (accepted_of_ok h)⟩

-- A machine that takes the amount of a shift modulo the width, and a device of 16 MB.
def moduloShifts : Shifts where
  left32 x n     := x <<< (n % 32)
  right32 x n    := x >>> (n % 32)
  left64 x n     := x <<< (n % 64)
  left32_of_lt h := by rw [Nat.mod_eq_of_lt h]
  left64_of_lt h := by rw [Nat.mod_eq_of_lt h]

def sixteenMb : BlockDevice where
  size          := 2 ^ 24
  logicalBits   := 9
  blocksizeBits := 10
  size_lt       := by decide
  logical_le    := by decide

theorem sound_iff_inRange_sixteenMb :
    SuperBlock.Sound moduloShifts sixteenMb ⟨12, 14, 1024⟩ ⟨4096, 12, 3, 0xFFF, 2, 4, 1024⟩ ↔
      InRange ⟨12, 14, 1024⟩ :=
  sound_iff_inRange moduloShifts sixteenMb _ _ rfl

def AcceptedUnsound (m : Shifts) (dev : BlockDevice) (esb : SuperBlock) : Prop :=
  ∃ sbi, fillRuntimeSuperblock m dev esb = .ok sbi ∧ ¬esb.Sound m dev sbi

-- A LEB whose free space does not fit 16 bits, one that is smaller than a page, a number of blocks
-- that overflows to 16, and block sizes that are taken modulo 32.
theorem not_sound_sixteenMb :
    AcceptedUnsound moduloShifts sixteenMb ⟨12, 17, 1⟩ ∧
    AcceptedUnsound moduloShifts sixteenMb ⟨9, 11, 4⟩ ∧
    AcceptedUnsound moduloShifts sixteenMb ⟨12, 16, 0x1000000000000001⟩ ∧
    AcceptedUnsound moduloShifts sixteenMb ⟨44, 44, 1⟩ := by
  refine ⟨⟨_, rfl, fun h => ?_⟩, ⟨_, rfl, fun h => ?_⟩, ⟨_, rfl, fun h => ?_⟩, ⟨_, rfl, fun h => ?_⟩⟩
  · exact absurd h.free_space (by decide)
  · exact absurd h.shifts (by decide)
  · exact absurd h.count_le (by decide)
  · exact absurd h.shifts (by decide)

end SuperBlock

end Emmcfs
