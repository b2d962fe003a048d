import EmmcfsModel.Snapshot.Head
import EmmcfsModel.Snapshot.Theorems.Head
import Mathlib.Algebra.BigOperators.Group.List.Basic

namespace Emmcfs

open Store

namespace SnapshotHead

variable {crc32 : List Byte → BitVec 32} {root : List TransactionData} {d : Store}

theorem bounds_entryWrites (h : w ∈ entryWrites addr root) :
    addr ≤ w.addr ∧ w.addr + w.bytes.length ≤ addr + sizeofTransaction * root.length := by
  induction root generalizing addr
  case nil => simp [entryWrites] at h
  case cons t root ih =>
    simp only [entryWrites, List.mem_cons] at h
    rw [List.length_cons, Nat.mul_add, sizeofTransaction]
    rcases h with rfl | rfl | rfl | h
    case inr.inr.inr =>
      have := ih h
      simp only [sizeofTransaction] at this
      omega
    all_goals
      simp only [length_toLe]
      omega

theorem apart_entryWrites : (entryWrites addr root).Pairwise Write.Apart := by
  induction root generalizing addr
  case nil => exact .nil
  case cons t root ih =>
    have hrest : ∀ w ∈ entryWrites (addr + sizeofTransaction) root, addr + 18 ≤ w.addr :=
      fun w hw => (bounds_entryWrites hw).left
    simp only [entryWrites, List.pairwise_cons, List.mem_cons, forall_eq_or_imp, Write.Apart,
      length_toLe]
    exact ⟨⟨by omega, by omega, fun w hw => by have := hrest w hw; omega⟩,
      ⟨by omega, fun w hw => by have := hrest w hw; omega⟩,
      fun w hw => by have := hrest w hw; omega, ih⟩

theorem hasAt_entries (h : ∀ w ∈ entryWrites addr root, HasAt d w.addr w.bytes) :
    HasAt d addr (root.flatMap Volume.transactionBytes) := by
  induction root generalizing addr
  case nil => exact fun i b hb => by simp at hb
  case cons t root ih =>
    simp only [entryWrites, List.mem_cons, forall_eq_or_imp] at h
    obtain ⟨hpages, hsnapshot, hvolume, hrest⟩ := h
    rw [List.flatMap_cons, hasAt_append, length_transactionBytes]
    refine ⟨?_, ih hrest⟩
    simp only [Volume.transactionBytes, hasAt_append, length_toLe, List.length_append]
    exact ⟨⟨hvolume, hsnapshot⟩, hpages⟩

-- The assignments of transaction_tree_to_snapshot, with a checksum.
def headWrites (mountCount version : Nat) (root : List TransactionData) (checksum : Nat) :
    List Write :=
  fieldWrites mountCount version root ++ [⟨checksumAddr root, toLe 4 checksum⟩]

theorem bounds_fieldWrites (h : w ∈ fieldWrites mountCount version root) :
    w.addr + w.bytes.length ≤ checksumAddr root := by
  simp only [fieldWrites, List.mem_cons, List.mem_append, List.not_mem_nil, or_false] at h
  rw [checksumAddr]
  rcases h with rfl | h | rfl | rfl | rfl | rfl
  case inr.inl => exact (bounds_entryWrites h).right
  all_goals
    simp only [length_toLe]
    omega

theorem apart_headWrites :
    (headWrites mountCount version root checksum).Pairwise Write.Apart := by
  rw [headWrites, List.pairwise_append]
  refine ⟨?_, List.pairwise_singleton .., fun w hw v hv => ?_⟩
  case refine_2 =>
    obtain rfl := List.mem_singleton.mp hv
    exact .inl (bounds_fieldWrites hw)
  case refine_1 =>
    have hin : ∀ w ∈ entryWrites 16 root, 16 ≤ w.addr := fun w hw => (bounds_entryWrites hw).left
    simp only [fieldWrites, List.pairwise_cons, List.pairwise_append, List.mem_append, List.mem_cons,
      List.not_mem_nil, or_false, Write.Apart, length_toLe, or_imp, forall_and, forall_eq,
      List.Pairwise.nil]
    refine ⟨⟨?_, by decide⟩, apart_entryWrites, ⟨by decide, by decide, by decide, by simp, trivial⟩,
      ?_, ?_, ?_, ?_⟩
    all_goals
      intro w hw
      have := hin w hw
      omega

theorem hasAt_fields (h : ∀ w ∈ fieldWrites mountCount version root, HasAt d w.addr w.bytes) :
    HasAt d 0 (Volume.headFields mountCount version root) := by
  simp only [fieldWrites, List.mem_cons, List.mem_append, or_imp, forall_and, forall_eq] at h
  obtain ⟨hmagic, hentries, hcount, hoffset, hmount, hversion, _⟩ := h
  exact hasAt_headFields.mpr
    ⟨hmagic, hmount, hversion, hcount, hoffset, hasAt_entries hentries⟩

theorem hasAt_fieldWrites :
    HasAt (applyAll (fieldWrites mountCount version root) d) 0
      (Volume.headFields mountCount version root) :=
  have h : (headWrites mountCount version root 0).Pairwise Write.Apart := apart_headWrites
  hasAt_fields fun _ hw => hasAt_of_apart (List.pairwise_append.mp h).left hw

-- The part of the head that is signed.
def signed (mountCount version : Nat) (root : List TransactionData) : List Byte :=
  (Volume.headFields mountCount version root).take (checksumAddr root % 2 ^ 16)

theorem readAt_signed (h : HasAt d 0 (Volume.headFields mountCount version root)) :
    readAt d 0 (ofLe (readAt d 14 2)) = signed mountCount version root := by
  obtain ⟨_, _, _, _, hoffset, _⟩ := hasAt_headFields.mp h
  rw [hoffset.readAt_eq length_toLe, ofLe_toLe_mod]
  rw [← List.take_append_drop (checksumAddr root % 2 ^ 16) (Volume.headFields ..)] at h
  refine (hasAt_append.mp h).left.readAt_eq (List.length_take_of_le ?_)
  rw [length_headFields]
  exact Nat.mod_le ..

theorem transactionTreeToSnapshot_eq (hne : root ≠ []) :
    transactionTreeToSnapshot crc32 mountCount version root =
      .ok (headWrites mountCount version root (crc32 (signed mountCount version root)).toNat) := by
  rw [transactionTreeToSnapshot, if_neg hne]
  simp only [readAt_signed hasAt_fieldWrites]
  rfl

theorem restoreHead_eq (hr : Representable root) (hsize : checksumAddr root + 4 ≤ pageCacheSize * n)
    (h : ∀ w ∈ headWrites mountCount version root (crc32 (signed mountCount version root)).toNat,
      HasAt d w.addr w.bytes) :
    restoreHead crc32 n d = some root := by
  have hoff := hr.offset
  have hcount : root.length < 256 ^ 2 := by
    simp only [sizeofTransaction] at hoff
    omega
  simp only [headWrites, List.mem_append, or_imp, forall_and, List.mem_singleton, forall_eq] at h
  obtain ⟨hfields, hsum⟩ := h
  have hhead := hasAt_fields hfields
  have hsigned := readAt_signed hhead
  obtain ⟨hmagic, _, _, hn, ho, hroot⟩ := hasAt_headFields.mp hhead
  simp only [Nat.zero_add] at hmagic hn ho hroot
  have ho := ofLe_readAt ho hoff
  rw [ho] at hsigned
  simp only [restoreHead]
  rw [ofLe_readAt hn hcount, ho, hsigned, if_pos, readTransaction_range hroot hr.fields]
  refine ⟨hmagic.readAt_eq length_toLe, hsize, by rw [checksumAddr] at hsize; omega, ?_⟩
  exact (ofLe_readAt hsum (BitVec.isLt _)).symm

theorem checksum_of_restoreHead (h : restoreHead crc32 n d = some root) :
    (crc32 (readAt d 0 (ofLe (readAt d 14 2)))).toNat = ofLe (readAt d (ofLe (readAt d 14 2)) 4) := by
  simp only [restoreHead] at h
  split at h
  case isTrue hc => exact hc.right.right.right
  case isFalse   => cases h

theorem pages_lt_of_restoreHead (h : restoreHead crc32 n d = some root) (ht : t ∈ root) :
    t.pagesCount < 2 ^ 16 := by
  simp only [restoreHead] at h
  split at h
  case isFalse => cases h
  case isTrue  =>
    rw [← Option.some.inj h] at ht
    obtain ⟨i, _, hi⟩ := List.mem_map.mp ht
    rw [← hi]
    exact ofLe_lt.trans_eq (by rw [length_readAt]; rfl)

end SnapshotHead

namespace SnapshotArea

open SnapshotHead

variable {area : SnapshotArea} {root : List TransactionData} {info : SnapshotInfo}

theorem committed_eq (hi : i < pageCacheSize * Volume.headPagesCount info) :
    area.committed info ws d i = applyAll ws blank i := by
  have h : area.committed info ws d i = applyAll ws blank (0 + i) := applyAll_copy_eq hi
  rwa [Nat.zero_add] at h

theorem checksum_le_headPagesCount :
    checksumAddr root + 4 ≤ pageCacheSize * Volume.headPagesCount (area.filled version root) := by
  simp only [checksumAddr, Volume.headPagesCount, filled, sizeofTransaction,
    sizeofSnapshotDescriptor, pageCacheShift, pageCacheSize, Nat.shiftRight_eq_div_pow]
  omega

theorem bounds_headWrites (h : w ∈ headWrites mountCount version root checksum) :
    w.addr + w.bytes.length ≤ checksumAddr root + 4 := by
  cases List.mem_append.mp h
  case inl h => have := bounds_fieldWrites h; omega
  case inr h =>
    obtain rfl := List.mem_singleton.mp h
    rw [length_toLe]

theorem span_headWrites (h : w ∈ headWrites mountCount version root checksum)
    (hn : checksumAddr root + 4 ≤ n) : w.span ⊆ Set.Ico 0 n :=
  Set.Ico_subset_Ico (Nat.zero_le _) ((bounds_headWrites h).trans hn)

theorem applyAll_headWrites_of_lt (hi : i < checksumAddr root) :
    applyAll (headWrites mountCount version root checksum) d i =
      applyAll (fieldWrites mountCount version root) d i := by
  rw [headWrites, applyAll_append]
  exact Write.apply_of_notMem fun h => absurd (Set.mem_Ico.mp h).left (not_le.mpr hi)

theorem hasAt_committed (h : w ∈ headWrites mountCount version root checksum) :
    HasAt (area.committed (area.filled version root)
      (headWrites mountCount version root checksum) d) w.addr w.bytes := by
  refine (hasAt_of_apart apart_headWrites h).congr fun i hi => committed_eq ?_
  have := bounds_headWrites h
  have := @checksum_le_headPagesCount area root version
  have := (Set.mem_Ico.mp hi).right
  omega

theorem Holds.keepsHead (h : area.Holds root) (hf : area.HeadFits root) : area.KeepsHead root := by
  intro crc32 mountCount version d
  have hr : Representable root := ⟨hf.offset, fun t ht =>
    ⟨(h.sectors t ht).left, (h.sectors t ht).right, hf.pages t ht⟩⟩
  exact ⟨_, {
    written      := transactionTreeToSnapshot_eq h.nonempty
    mapped w hw  := span_headWrites hw checksum_le_headPagesCount
    reserved w hw := span_headWrites hw hf.size
    restored     := restoreHead_eq hr hf.size fun w hw => hasAt_committed hw
  }⟩

section Kept

variable (h : area.HeadKept root crc32 mountCount version d ws)
include h

theorem HeadKept.eq_headWrites :
    ws = headWrites mountCount version root (crc32 (signed mountCount version root)).toNat := by
  have hne : root ≠ [] := by
    rintro rfl
    exact nomatch h.written
  exact Except.ok.inj (h.written.symm.trans (transactionTreeToSnapshot_eq hne))

theorem HeadKept.size : checksumAddr root + 4 ≤ pageCacheSize * area.pagesPerHead := by
  have hw := h.reserved ⟨checksumAddr root, toLe 4 (crc32 (signed mountCount version root)).toNat⟩
    (h.eq_headWrites ▸ List.mem_append_right _ (List.mem_singleton.mpr rfl))
  have := hw (Set.mem_Ico.mpr ⟨Nat.le_add_right _ 3, by simp⟩)
  exact (Set.mem_Ico.mp this).right

-- The checksum that the mount expects is what it finds at the offset that was stored.
theorem HeadKept.checksum : (crc32 (signed mountCount version root)).toNat =
    ofLe (readAt (area.committed (area.filled version root) ws d)
      (checksumAddr root % 2 ^ 16) 4) := by
  have hhead : HasAt (area.committed (area.filled version root) ws d) 0
      (Volume.headFields mountCount version root) :=
    hasAt_fields fun w hw => h.eq_headWrites ▸ hasAt_committed (List.mem_append_left _ hw)
  obtain ⟨_, _, _, _, hoffset, _⟩ := hasAt_headFields.mp hhead
  have hsum := checksum_of_restoreHead h.restored
  rw [readAt_signed hhead] at hsum
  rwa [hoffset.readAt_eq length_toLe, ofLe_toLe_mod] at hsum

end Kept

-- Without room for the offset the checksum is looked for among the transactions, so that there is a
-- crc32 with which the mount fails.
theorem KeepsHead.offset (h : area.KeepsHead root) :
    16 + sizeofTransaction * root.length < 2 ^ 16 := by
  by_contra hge
  have hlow : checksumAddr root % 2 ^ 16 + 4 ≤ checksumAddr root := by
    rw [checksumAddr]
    omega
  let found := ofLe (readAt (applyAll (fieldWrites 0 0 root) blank) (checksumAddr root % 2 ^ 16) 4)
  obtain ⟨ws, hk⟩ := h (fun _ => if found = 0 then 1 else 0) 0 0 blank
  have hsum := hk.checksum
  have hsame : Set.EqOn (area.committed (area.filled 0 root) ws blank)
      (applyAll (fieldWrites 0 0 root) blank) (Set.Ico (checksumAddr root % 2 ^ 16)
        (checksumAddr root % 2 ^ 16 + 4)) := by
    intro i hi
    have hi := (Set.mem_Ico.mp hi).right
    have := @checksum_le_headPagesCount area root 0
    rw [committed_eq (by omega), hk.eq_headWrites, applyAll_headWrites_of_lt (by omega)]
  rw [readAt_congr hsame] at hsum
  change _ = found at hsum
  split at hsum <;> simp_all

theorem pagesPerHead_of_noOverflow (ho : area.NoOverflow) : area.pagesPerHead =
    ((area.length >>> (pageCacheShift - area.blockSize.shift)) * 18 + 4129) / 4096 := by
  have hlt := ho.head
  simp only [pagesPerHead, sizeofTransaction, sizeofSnapshotDescriptor, u32] at hlt ⊢
  generalize area.length >>> (pageCacheShift - area.blockSize.shift) = pages at *
  simp only [pageCacheShift, Nat.shiftLeft_eq, Nat.shiftRight_eq_div_pow] at hlt ⊢
  omega

-- The pages of the area, rounded down, in two ways.
theorem pages_le : u32 (area.length <<< area.blockSize.shift) >>> pageCacheShift ≤
    area.length >>> (pageCacheShift - area.blockSize.shift) := by
  have hpow : 2 ^ pageCacheShift = 2 ^ (pageCacheShift - area.blockSize.shift) *
      2 ^ area.blockSize.shift := by
    rw [← pow_add, Nat.sub_add_cancel area.blockSize.shift_le]
  rw [Nat.shiftRight_eq_div_pow, Nat.shiftRight_eq_div_pow, Nat.shiftLeft_eq, hpow]
  refine (Nat.div_le_div_right (Nat.mod_le ..)).trans_eq ?_
  exact Nat.mul_div_mul_right _ _ (Nat.two_pow_pos _)

-- Each transaction has a page, so that the area bounds their number.
theorem Holds.length_le (h : area.Holds root) : root.length ≤ (root.map (·.pagesCount)).sum := by
  have := List.length_le_sum_of_one_le (root.map (·.pagesCount)) fun n hn => by
    obtain ⟨t, ht, hn⟩ := List.mem_map.mp hn
    exact hn ▸ h.pages_pos t ht
  rwa [List.length_map] at this

theorem Holds.size (h : area.Holds root) (ho : area.NoOverflow) :
    checksumAddr root + 4 ≤ pageCacheSize * area.pagesPerHead := by
  have hroom := h.room
  have hle := h.length_le
  have hmax := ho.max
  have hpages := @pages_le area
  have hhead := pagesPerHead_of_noOverflow ho
  have hlt : u32 (area.length <<< area.blockSize.shift) >>> pageCacheShift < 2 ^ 32 :=
    (Nat.shiftRight_le ..).trans_lt (u32_lt _)
  rw [maxPagesInSnapshot, u32Sub_of_le (Nat.le_of_add_right_le hmax) hlt,
    u32Sub_of_le (by omega) (by omega)] at hroom
  rw [checksumAddr, sizeofTransaction, pageCacheSize]
  omega

-- A head is kept iff its fields hold their values and the pages for it are enough. They are enough
-- unless the numbers that are computed for the area overflow.
theorem keepsHead_iff (h : area.Holds root) :
    (area.KeepsHead root ↔ area.HeadFits root) ∧
    (area.NoOverflow → checksumAddr root + 4 ≤ pageCacheSize * area.pagesPerHead) := by
  refine ⟨⟨fun hk => ?_, h.keepsHead⟩, h.size⟩
  obtain ⟨_, hkept⟩ := hk (fun _ => 0) 0 0 blank
  exact ⟨hk.offset, fun t ht => pages_lt_of_restoreHead hkept.restored ht, hkept.size⟩

-- `n` pages of a volume, each in a transaction.
def onePages (n : Nat) : List TransactionData :=
  (List.range n).map fun i => ⟨i, i, 1⟩

-- An area of 16 MiB with 4096-byte blocks.
def area16MiB : SnapshotArea := .ofPages 1 4096 (by decide)

theorem holds_onePages (hn : 0 < n) (hle : n ≤ 4057) : area16MiB.Holds (onePages n) where
  nonempty  := by simp [onePages]; omega
  ascending := by simpa [onePages, List.pairwise_map] using List.pairwise_lt_range
  sectors   := by
    intro t ht
    obtain ⟨i, hi, hit⟩ := List.mem_map.mp ht
    have := List.mem_range.mp hi
    subst hit
    exact ⟨by dsimp only; omega, by dsimp only; omega⟩
  pages_pos := by
    intro t ht
    obtain ⟨i, _, hit⟩ := List.mem_map.mp ht
    exact hit ▸ Nat.one_pos
  room      := by
    rw [show area16MiB.pagesPerHead = 19 by decide,
      show area16MiB.maxPagesInSnapshot = 4076 by decide]
    simp only [onePages, List.map_map, Function.comp_def, List.map_const',
      List.sum_replicate_nat, List.length_range]
    omega

-- The offset of the checksum is 0 then: the head is compared with its own magic number.
theorem not_keepsHead_onePages :
    area16MiB.Holds (onePages 3640) ∧ ¬area16MiB.KeepsHead (onePages 3640) := by
  refine ⟨holds_onePages (by decide) (by decide), fun h => absurd h.offset ?_⟩
  simp [onePages, sizeofTransaction]

theorem keepsHead_iff_onePages :
    area16MiB.Holds (onePages 3639) ∧ area16MiB.KeepsHead (onePages 3639) := by
  have hh := holds_onePages (show 0 < 3639 by decide) (by decide)
  refine ⟨hh, (keepsHead_iff hh).left.mpr ⟨?_, ?_, ?_⟩⟩
  · simp [onePages, sizeofTransaction]
  · intro t ht
    obtain ⟨i, _, hit⟩ := List.mem_map.mp ht
    rw [← hit]
    exact Nat.one_lt_two_pow (by decide)
  · rw [checksumAddr, show area16MiB.pagesPerHead = 19 by decide]
    simp [onePages, sizeofTransaction, pageCacheSize]

end SnapshotArea

end Emmcfs
