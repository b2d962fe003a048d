import EmmcfsModel.Inode.Record
import Mathlib.Data.BitVec
import Mathlib.Tactic.Ring

namespace Emmcfs

-- What a catalog record keeps of an inode: for a device the size stands for the device number.
structure SameRecord (a b : Inode) : Prop where
  mode  : a.mode = b.mode
  uid   : a.uid = b.uid
  gid   : a.gid = b.gid
  nlink : a.nlink = b.nlink
  atime : a.atime = b.atime
  mtime : a.mtime = b.mtime
  ctime : a.ctime = b.ctime
  size  : if sIsChr a.mode || sIsBlk a.mode then a.rdev = b.rdev else a.size = b.size
  fork  : a.fork = b.fork

-- The record that is written for `inode` is read back into `fresh`, the inode that
-- emmcfs_alloc_inode hands out for the same number, as the same inode.
def RoundTrips (bs : BlockSize) (old : LayoutFork) (fresh inode : Inode) : Prop :=
  ∃ val, fillCattreeValue bs inode old = .ok val ∧
    ∃ inode', readInode bs val fresh = .ok () inode' ∧ SameRecord inode inode'

-- The used slots of a fork come first, with starts that are not 0, and the others are blank.
structure ForkInfo.Packed (fork : ForkInfo) : Prop where
  used_le : fork.usedExtents ≤ extentsCountInFork
  used    : ∀ i : Fin extentsCountInFork, i < fork.usedExtents → fork.extents[i].firstBlock ≠ 0
  blank   : ∀ i : Fin extentsCountInFork, fork.usedExtents ≤ i → fork.extents[i] = .zero

-- The number of blocks that a file of this size fills.
def filledBlocks (bs : BlockSize) (size : BitVec 64) : Nat :=
  (size.toNat + 2 ^ bs.shift - 1) / 2 ^ bs.shift

-- When a record keeps the fork, by the type of the file.
def ForkKept (bs : BlockSize) (fresh inode : Inode) : Prop :=
  if sIsDir inode.mode then
    inode.fork = fresh.fork
  else if sIsChr inode.mode || sIsBlk inode.mode then
    inode.fork.totalBlockCount = 0 ∧ inode.fork.usedExtents = 0 ∧ inode.fork.Packed
  else
    inode.fork.totalBlockCount = filledBlocks bs inode.size ∧ inode.fork.Packed

structure RecordKept (bs : BlockSize) (fresh inode : Inode) : Prop where
  type  : getRecordTypeOnMode inode.mode ≠ none
  nlink : fresh.ino = rootIno → inode.nlink = 1
  times : ∀ t ∈ [inode.atime, inode.mtime, inode.ctime], t.nsec.toNat < 2 ^ 32
  fork  : ForkKept bs fresh inode

theorem parseDate_formDate_iff {t : Timespec} :
    t = parseDate (formDate t) ↔ t.nsec.toNat < 2 ^ 32 := by
  rw [Timespec.ext_iff, ← BitVec.toNat_inj, ← BitVec.toNat_inj]
  simp only [parseDate, formDate, BitVec.toNat_setWidth, true_and]
  omega

-- The part of a size below a block.
theorem size_rest_eq_zero_iff (bs : BlockSize) (size : BitVec 64) :
    size &&& (1#64 <<< bs.shift - 1#64) = 0#64 ↔ size.toNat % 2 ^ bs.shift = 0 := by
  have hp : 2 ^ bs.shift ≤ 2 ^ 12 := Nat.pow_le_pow_right (by decide) bs.shift_le
  have h1 : (1#64 <<< bs.shift).toNat = 2 ^ bs.shift := by
    rw [BitVec.toNat_shiftLeft, Nat.shiftLeft_eq]
    simp only [BitVec.toNat_ofNat]
    omega
  have hm : (1#64 <<< bs.shift - 1#64).toNat = 2 ^ bs.shift - 1 := by
    have := Nat.two_pow_pos bs.shift
    rw [BitVec.toNat_sub, h1]
    simp only [BitVec.toNat_ofNat]
    omega
  rw [← BitVec.toNat_inj, BitVec.toNat_and, hm, Nat.and_two_pow_sub_one_eq_mod]
  rfl

theorem filledBlocks_eq (bs : BlockSize) (size : BitVec 64) : filledBlocks bs size =
    size.toNat / 2 ^ bs.shift + if size.toNat % 2 ^ bs.shift = 0 then 0 else 1 := by
  have hp := Nat.two_pow_pos bs.shift
  have hd := Nat.div_add_mod size.toNat (2 ^ bs.shift)
  have hl := Nat.mod_lt size.toNat hp
  rw [filledBlocks]
  generalize 2 ^ bs.shift = m at *
  refine (Nat.div_eq_iff hp).mpr ?_
  rw [Nat.add_mul, Nat.mul_comm _ m]
  split <;> omega

-- Sizes that are not negative are rounded up to blocks, and the number of blocks is cut to 32 bits.
theorem sizeInBlocks_toNat (bs : BlockSize) (size : BitVec 64) (hn : size.toNat < 2 ^ 63) :
    (sizeInBlocks bs size).toNat = filledBlocks bs size % 2 ^ 32 := by
  have hw : (size.sshiftRight bs.shift).toNat = size.toNat / 2 ^ bs.shift := by
    rw [BitVec.sshiftRight_eq_of_msb_false (by simpa [BitVec.msb_eq_decide] using hn),
      BitVec.toNat_ushiftRight, Nat.shiftRight_eq_div_pow]
  have hl : size.toNat / 2 ^ bs.shift ≤ size.toNat := Nat.div_le_self ..
  simp only [sizeInBlocks, BitVec.toNat_setWidth, BitVec.toNat_add, hw, filledBlocks_eq, ne_eq,
    ite_not, size_rest_eq_zero_iff]
  split <;> simp only [BitVec.toNat_ofNat] <;> omega

theorem le_filledBlocks_mul (bs : BlockSize) (size : BitVec 64) :
    size.toNat ≤ filledBlocks bs size * 2 ^ bs.shift ∧
    filledBlocks bs size * 2 ^ bs.shift < size.toNat + 2 ^ bs.shift := by
  have hd := Nat.div_add_mod size.toNat (2 ^ bs.shift)
  have hl := Nat.mod_lt size.toNat (Nat.two_pow_pos bs.shift)
  rw [filledBlocks_eq, Nat.add_mul, Nat.mul_comm _ (2 ^ bs.shift)]
  generalize 2 ^ bs.shift = m at *
  split <;> omega

-- A 32-bit number of blocks has less than 2 ^ 44 bytes.
theorem blocks_mul_lt (bs : BlockSize) (h : n < 2 ^ 32) : n * 2 ^ bs.shift < 2 ^ 44 := by
  have hp : 2 ^ bs.shift ≤ 2 ^ 12 := Nat.pow_le_pow_right (by decide) bs.shift_le
  calc n * 2 ^ bs.shift
    _ < 2 ^ 32 * 2 ^ bs.shift := Nat.mul_lt_mul_of_pos_right h (Nat.two_pow_pos _)
    _ ≤ 2 ^ 32 * 2 ^ 12       := Nat.mul_le_mul_left _ hp

theorem toNat_blocks_shiftLeft (bs : BlockSize) (n : BitVec 32) :
    (n.setWidth 64 <<< bs.shift).toNat = n.toNat * 2 ^ bs.shift := by
  have := blocks_mul_lt bs n.isLt
  have hn : n.toNat % 2 ^ 64 = n.toNat := Nat.mod_eq_of_lt (by omega)
  rw [BitVec.toNat_shiftLeft, BitVec.toNat_setWidth, Nat.shiftLeft_eq, hn,
    Nat.mod_eq_of_lt (by omega)]

-- The stored number of blocks passes the reader's check and is `total` exactly if `total` blocks
-- are filled by the size.
theorem sizeInBlocks_kept_iff (bs : BlockSize) (size : BitVec 64) (ht : total < 2 ^ 32) :
    ¬((sizeInBlocks bs size).setWidth 64 <<< bs.shift).ult size ∧
      total = (sizeInBlocks bs size).toNat ↔ total = filledBlocks bs size := by
  obtain ⟨hf, hf'⟩ := le_filledBlocks_mul bs size
  simp only [BitVec.ult, toNat_blocks_shiftLeft, decide_eq_true_eq, not_lt]
  by_cases hn : size.toNat < 2 ^ 63
  case pos =>
    rw [sizeInBlocks_toNat bs size hn]
    refine ⟨fun ⟨hc, he⟩ => ?_, fun he => ?_⟩
    · -- had the number been cut, its blocks would not hold the size
      have hl : filledBlocks bs size < 2 ^ 32 := by
        by_contra hl
        have : filledBlocks bs size * 2 ^ bs.shift <
            (filledBlocks bs size % 2 ^ 32 + 1) * 2 ^ bs.shift := by
          rw [Nat.add_mul]
          omega
        have := Nat.lt_of_mul_lt_mul_right this
        omega
      rw [he, Nat.mod_eq_of_lt hl]
    · rw [← he, Nat.mod_eq_of_lt ht]
      exact ⟨he ▸ hf, rfl⟩
  case neg =>
    have hb := blocks_mul_lt bs (sizeInBlocks bs size).isLt
    have hb' := blocks_mul_lt bs ht
    refine ⟨fun ⟨hc, _⟩ => by omega, fun he => ?_⟩
    rw [← he] at hf
    omega

namespace ForkInfo

abbrev InUse (e : ExtentInfo) : Bool := e.firstBlock ≠ 0

theorem storedExtents_toList (fork : ForkInfo) : fork.storedExtents.toList =
    fork.extents.toList.take fork.usedExtents ++
      List.replicate (extentsCountInFork - fork.usedExtents) .zero := by
  apply List.ext_getElem
  case hl =>
    simp only [List.length_append, List.length_take, Vector.length_toList, List.length_replicate]
    omega
  case h =>
    intro i hi hi'
    rw [Vector.length_toList] at hi
    by_cases h : i < fork.usedExtents
    · rw [List.getElem_append_left (by simpa using ⟨h, hi⟩)]
      simp [storedExtents, h]
    · rw [List.getElem_append_right (by simp; omega)]
      simp [storedExtents, h]

theorem storedExtents_used (fork : ForkInfo) : fork.storedExtents.toList.countP InUse =
    (fork.extents.toList.take fork.usedExtents).countP InUse := by
  simp [storedExtents_toList, List.countP_append, List.countP_replicate, InUse, ExtentInfo.zero]

theorem usedExtents_eq_iff (fork : ForkInfo) :
    fork.usedExtents = fork.storedExtents.toList.countP InUse ↔
      fork.usedExtents ≤ extentsCountInFork ∧
      ∀ i : Fin extentsCountInFork, i < fork.usedExtents → (fork.extents.get i).firstBlock ≠ 0 := by
  have hl : (fork.extents.toList.take fork.usedExtents).length =
      min fork.usedExtents extentsCountInFork := by simp
  rw [storedExtents_used]
  constructor
  case mp =>
    intro h
    have hc := List.countP_le_length (p := InUse) (l := fork.extents.toList.take fork.usedExtents)
    have hle : fork.usedExtents ≤ extentsCountInFork := by omega
    refine ⟨hle, fun i hi => ?_⟩
    change fork.extents[i].firstBlock ≠ 0
    have hm : fork.extents[i] ∈ fork.extents.toList.take fork.usedExtents :=
      List.mem_take_iff_getElem.mpr ⟨i, by simpa using hi, by simp⟩
    simpa using List.countP_eq_length.mp (h.symm.trans (by omega)) _ hm
  case mpr =>
    rintro ⟨hle, hu⟩
    refine Eq.symm <| (List.countP_eq_length.mpr fun e he => ?_).trans (by omega)
    obtain ⟨i, hi, he⟩ := List.mem_take_iff_getElem.mp he
    simp only [Vector.length_toList, Nat.lt_min] at hi
    have hne : fork.extents[i].firstBlock ≠ 0 := hu ⟨i, hi.right⟩ hi.left
    simpa [← he] using hne

theorem stored_iff_packed (fork : ForkInfo) :
    fork.extents = fork.storedExtents ∧
      fork.usedExtents = fork.storedExtents.toList.countP InUse ↔ fork.Packed := by
  rw [usedExtents_eq_iff]
  constructor
  case mp =>
    rintro ⟨he, hl, hu⟩
    refine ⟨hl, hu, fun i hi => ?_⟩
    rw [he]
    simp [storedExtents, hi]
  case mpr =>
    rintro ⟨hl, hu, hb⟩
    refine ⟨?_, hl, hu⟩
    ext1 i hi
    by_cases h : i < fork.usedExtents
    · simp [storedExtents, h]
    · simpa [storedExtents, h] using hb ⟨i, hi⟩ (Nat.le_of_not_lt h)

end ForkInfo

theorem ExtentInfo.of_bits (e : ExtentInfo) :
    (⟨(BitVec.ofNat 64 e.firstBlock).toNat, (BitVec.ofNat 32 e.blockCount).toNat,
      BitVec.isLt _, BitVec.isLt _⟩ : ExtentInfo) = e := by
  ext
  · simpa using Nat.mod_eq_of_lt e.first_lt
  · simpa using Nat.mod_eq_of_lt e.count_lt

-- The record type tells folders from files.
theorem getRecordTypeOnMode_file (h : getRecordTypeOnMode mode = some r) :
    (r = catalogFolderRecord ∧ sIsDir mode) ∨ (r &&& catalogFileRecord ≠ 0#16 ∧ ¬sIsDir mode) := by
  simp only [getRecordTypeOnMode] at h
  split at h
  case isTrue hd =>
    exact .inl ⟨(Option.some.inj h).symm, hd⟩
  case isFalse hd =>
    refine .inr ⟨?_, hd⟩
    repeat' split at h
    all_goals first | (cases h; decide) | cases h

-- The inode after the fields that all records share have been read.
def withCommon (fresh inode : Inode) : Inode := { fresh with
  mode  := inode.mode
  uid   := inode.uid
  gid   := inode.gid
  nlink := if fresh.ino = rootIno then 1 else inode.nlink
  mtime := parseDate (formDate inode.mtime)
  atime := parseDate (formDate inode.atime)
  ctime := parseDate (formDate inode.ctime) }

theorem readInode_of_fill (h : fillCattreeValue bs inode old = .ok val) (fresh : Inode) :
    readInode bs val fresh =
      if sIsDir inode.mode then .ok () { withCommon fresh inode with size := inode.size }
      else parseFork bs (formFork bs inode) (withCommon fresh inode) := by
  simp only [fillCattreeValue] at h
  split at h
  case h_1 => cases h
  case h_2 r hr =>
    obtain rfl := Except.ok.inj h
    have hn : (inode.nlink.setWidth 64).setWidth 32 = inode.nlink := by
      rw [BitVec.setWidth_setWidth_of_le _ (by decide), BitVec.setWidth_eq]
    have hz : catalogFolderRecord &&& catalogFileRecord = 0#16 := by decide
    simp only [readInode, Code.modify_bind, Code.ite_run, Code.haltOn_bind, Code.modify_apply, hn,
      withCommon]
    cases getRecordTypeOnMode_file hr
    case inl hf =>
      by_cases hi : fresh.ino = rootIno <;> simp [hf.left, hf.right, hz, hi]
    case inr hf =>
      by_cases hi : fresh.ino = rootIno <;> simp [hf.left, hf.right, hi]

-- A device: the number comes back in place of the size, and the fork as an empty one.
theorem parseFork_formFork_device (hd : sIsChr inode.mode || sIsBlk inode.mode)
    (hm : s.mode = inode.mode) : parseFork bs (formFork bs inode) s = .ok () { s with
      rdev := inode.rdev
      size := 0
      fork := ⟨0, Vector.replicate _ .zero, 0, by decide⟩ } := by
  have hr : (inode.rdev.setWidth 64).setWidth 32 = inode.rdev := by
    rw [BitVec.setWidth_setWidth_of_le _ (by decide), BitVec.setWidth_eq]
  have he : ∀ rfork, lforkToRfork (formFork bs inode) rfork =
      { rfork with extents := Vector.replicate _ .zero, usedExtents := 0 } := by
    intro rfork
    simp [lforkToRfork, formFork, hd, ExtentInfo.zero, List.countP_replicate]
  have hf : (formFork bs inode).totalBlocksCount = 0 ∧ (formFork bs inode).magic = forkMagic ∧
      (formFork bs inode).sizeInBytes = inode.rdev.setWidth 64 := by
    simp [formFork, hd]
  have hu : ∀ n, BitVec.ult n 0#64 = false := by simp [BitVec.ult]
  simp only [parseFork, hm, hd, hf, he, hr, hu, ne_eq, not_true_eq_false, if_true, if_false,
    Code.ite_run, Code.modify_bind, Code.get_bind, Code.modify_apply, BitVec.ofNat_eq_ofNat,
    Bool.false_eq_true]
  rfl

theorem parseFork_formFork_file (hd : ¬(sIsChr inode.mode || sIsBlk inode.mode))
    (hm : s.mode = inode.mode) : parseFork bs (formFork bs inode) s =
      if ((sizeInBlocks bs inode.size).setWidth 64 <<< bs.shift).ult inode.size then
        .fail .einval { s with size := inode.size, fork := { s.fork with
          totalBlockCount := (sizeInBlocks bs inode.size).toNat, total_lt := BitVec.isLt _ } }
      else .ok () { s with
        size := inode.size
        fork := ⟨(sizeInBlocks bs inode.size).toNat, inode.fork.storedExtents,
          inode.fork.storedExtents.toList.countP ForkInfo.InUse, BitVec.isLt _⟩ } := by
  have he : ∀ rfork, lforkToRfork (formFork bs inode) rfork =
      { rfork with
        extents     := inode.fork.storedExtents
        usedExtents := inode.fork.storedExtents.toList.countP ForkInfo.InUse } := by
    intro rfork
    have : ((formFork bs inode).extents.map fun e =>
        (⟨e.1.toNat, e.2.toNat, e.1.isLt, e.2.isLt⟩ : ExtentInfo)) = inode.fork.storedExtents := by
      ext1 i hi
      by_cases h : i < inode.fork.usedExtents
      · simpa [formFork, hd, ForkInfo.storedExtents, h] using ExtentInfo.of_bits _
      · simp [formFork, hd, ForkInfo.storedExtents, h, ExtentInfo.zero]
    rw [lforkToRfork, this]
  have hf : (formFork bs inode).totalBlocksCount = sizeInBlocks bs inode.size ∧
      (formFork bs inode).sizeInBytes = inode.size ∧ (formFork bs inode).magic = forkMagic := by
    simp [formFork, hd]
  simp only [parseFork, hm, hd, hf, he, ne_eq, not_true_eq_false, if_false, Code.ite_run,
    Code.modify_bind, Code.get_bind, Code.modify_apply, Code.fail_apply, Bool.false_eq_true]

theorem sameRecord_withCommon_iff {size rdev fork} : SameRecord inode
    { withCommon fresh inode with size := size, rdev := rdev, fork := fork } ↔
      (fresh.ino = rootIno → inode.nlink = 1) ∧
      (∀ t ∈ [inode.atime, inode.mtime, inode.ctime], t.nsec.toNat < 2 ^ 32) ∧
      (if sIsChr inode.mode || sIsBlk inode.mode then inode.rdev = rdev else inode.size = size) ∧
      inode.fork = fork := by
  have hn : inode.nlink = (if fresh.ino = rootIno then 1 else inode.nlink) ↔
      (fresh.ino = rootIno → inode.nlink = 1) := by
    split <;> simp_all
  simp only [List.forall_mem_cons, List.not_mem_nil, false_imp_iff, implies_true, and_true,
    ← parseDate_formDate_iff, ← hn]
  constructor
  case mp  => exact fun h => ⟨h.nlink, ⟨h.atime, h.mtime, h.ctime⟩, h.size, h.fork⟩
  case mpr => exact fun ⟨hl, ⟨ha, hm, hc⟩, hs, hf⟩ => ⟨rfl, rfl, rfl, hl, ha, hm, hc, hs, hf⟩

theorem fillCattreeValue_ok_iff (bs : BlockSize) (old : LayoutFork) : (∃ val, fillCattreeValue bs inode old = .ok val) ↔
    getRecordTypeOnMode inode.mode ≠ none := by
  simp only [fillCattreeValue]
  split <;> simp_all

-- An empty fork is kept as such.
theorem fork_eq_empty_iff (fork : ForkInfo) :
    fork = ⟨0, Vector.replicate _ .zero, 0, by decide⟩ ↔
      fork.totalBlockCount = 0 ∧ fork.usedExtents = 0 ∧ fork.Packed := by
  constructor
  case mp =>
    rintro rfl
    exact ⟨rfl, rfl, by constructor <;> simp⟩
  case mpr =>
    rintro ⟨ht, hu, hp⟩
    refine ForkInfo.ext ht ?_ hu
    ext1 i hi
    simpa using hp.blank ⟨i, hi⟩ (by omega)

theorem fork_eq_stored_iff (bs : BlockSize) (size : BitVec 64) (fork : ForkInfo) :
    ¬((sizeInBlocks bs size).setWidth 64 <<< bs.shift).ult size ∧
      fork = ⟨(sizeInBlocks bs size).toNat, fork.storedExtents,
        fork.storedExtents.toList.countP ForkInfo.InUse, BitVec.isLt _⟩ ↔
      fork.totalBlockCount = filledBlocks bs size ∧ fork.Packed := by
  rw [ForkInfo.ext_iff, ← fork.stored_iff_packed, ← sizeInBlocks_kept_iff bs size fork.total_lt,
    and_assoc]

-- Of the three kinds of records, which keep the fork.
theorem readInode_same_iff (hf : fillCattreeValue bs inode old = .ok val) (fresh : Inode) :
    (∃ inode', readInode bs val fresh = .ok () inode' ∧ SameRecord inode inode') ↔
      (fresh.ino = rootIno → inode.nlink = 1) ∧
      (∀ t ∈ [inode.atime, inode.mtime, inode.ctime], t.nsec.toNat < 2 ^ 32) ∧
      ForkKept bs fresh inode := by
  rw [readInode_of_fill hf fresh, ForkKept]
  by_cases hdir : sIsDir inode.mode
  case pos =>
    have hd : ¬(sIsChr inode.mode || sIsBlk inode.mode) := by
      simp only [sIsDir, beq_iff_eq] at hdir
      simp [sIsChr, sIsBlk, hdir]
    have := @sameRecord_withCommon_iff inode fresh inode.size fresh.rdev fresh.fork
    simp only [hdir, hd, if_true, if_false, Outcome.ok.injEq, true_and, exists_eq_left',
      Bool.false_eq_true] at this ⊢
    exact this
  case neg =>
    simp only [hdir, Bool.false_eq_true, if_false]
    by_cases hd : sIsChr inode.mode || sIsBlk inode.mode
    case pos =>
      rw [parseFork_formFork_device (s := withCommon fresh inode) hd rfl]
      have := @sameRecord_withCommon_iff inode fresh 0 inode.rdev
        ⟨0, Vector.replicate _ .zero, 0, by decide⟩
      simp only [hd, if_true, Outcome.ok.injEq, true_and, exists_eq_left', fork_eq_empty_iff]
        at this ⊢
      exact this
    case neg =>
      have := @sameRecord_withCommon_iff inode fresh inode.size fresh.rdev
        ⟨(sizeInBlocks bs inode.size).toNat, inode.fork.storedExtents,
          inode.fork.storedExtents.toList.countP ForkInfo.InUse, BitVec.isLt _⟩
      rw [parseFork_formFork_file (s := withCommon fresh inode) hd rfl]
      simp only [hd, Bool.false_eq_true, if_false, true_and, ← fork_eq_stored_iff] at this ⊢
      split
      case isTrue h  => simp [h]
      case isFalse h =>
        simp only [Outcome.ok.injEq, true_and, exists_eq_left', h, Bool.false_eq_true,
          not_false_eq_true]
        exact this

-- A record gives back the inode exactly if the blocks of a file are those its size fills and the
-- slots of its fork are packed; a folder's record says nothing about the fork.
theorem roundTrips_iff (bs : BlockSize) (old : LayoutFork) (fresh inode : Inode) :
    RoundTrips bs old fresh inode ↔ RecordKept bs fresh inode where
  mp := by
    rintro ⟨val, hf, hr⟩
    obtain ⟨hn, ht, hk⟩ := readInode_same_iff hf fresh |>.mp hr
    exact ⟨fillCattreeValue_ok_iff bs old |>.mp ⟨val, hf⟩, hn, ht, hk⟩
  mpr h := by
    obtain ⟨val, hf⟩ := fillCattreeValue_ok_iff bs old |>.mpr h.type
    exact ⟨val, hf, readInode_same_iff hf fresh |>.mpr ⟨h.nlink, h.times, h.fork⟩⟩

-- A regular file that has just been given its first block while its size is still 0, which is how
-- expand_file writes it: the record is read back with no block at all.
theorem not_roundTrips_after_expand :
    let bs    : BlockSize := ⟨12, by decide, by decide⟩
    let fork  : ForkInfo  := ⟨1, (Vector.replicate _ .zero).set 0 (.of 100 1) (by decide), 1, by decide⟩
    let empty : ForkInfo  := ⟨0, Vector.replicate _ .zero, 0, by decide⟩
    let inode : Inode     := ⟨10, 0x81a4, 0, 0, 1, ⟨0, 0⟩, ⟨0, 0⟩, ⟨0, 0⟩, 0, 0, fork⟩
    let fresh : Inode     := ⟨10, 0, 0, 0, 1, ⟨0, 0⟩, ⟨0, 0⟩, ⟨0, 0⟩, 0, 0, empty⟩
    ∃ val inode', fillCattreeValue bs inode ⟨0, 0, 0, Vector.replicate _ 0⟩ = .ok val ∧
      readInode bs val fresh = .ok () inode' ∧ inode.fork.totalBlockCount = 1 ∧
      inode'.fork.totalBlockCount = 0 ∧ ¬SameRecord inode inode' := by
  refine ⟨_, _, rfl, rfl, rfl, by decide, fun h => ?_⟩
  exact absurd (congrArg ForkInfo.totalBlockCount h.fork) (by decide)

end Emmcfs
