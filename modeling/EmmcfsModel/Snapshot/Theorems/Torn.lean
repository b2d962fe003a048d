import EmmcfsModel.Snapshot.Theorems.Crash

namespace Emmcfs

open Store

section Pages

theorem toPages_take : Volume.toPages (bytes.take (pageCacheSize * n)) n = Volume.toPages bytes n := by
  induction n generalizing bytes
  case zero      => rfl
  case succ n ih =>
    rw [Volume.toPages, Volume.toPages, List.take_take, List.drop_take, Nat.mul_add, Nat.mul_one,
      Nat.add_sub_cancel, ih, List.length_take, Nat.min_eq_left (Nat.le_add_left ..)]
    congr 3
    omega

theorem take_toPages (h : k ≤ n) : (Volume.toPages bytes n).take k = Volume.toPages bytes k := by
  induction k generalizing bytes n
  case zero      => rfl
  case succ k ih =>
    obtain ⟨n, rfl⟩ := Nat.exists_eq_add_of_le' (Nat.zero_lt_of_lt h)
    rw [Volume.toPages, Volume.toPages, List.take_succ_cons, ih (Nat.le_of_succ_le_succ h)]

theorem take_pageWrites {pages : List (List Byte)} :
    (Volume.pageWrites addr pages).take k = Volume.pageWrites addr (pages.take k) := by
  induction pages generalizing addr k
  case nil => simp [Volume.pageWrites]
  case cons page pages ih =>
    cases k
    case zero   => rfl
    case succ k => rw [Volume.pageWrites, List.take_succ_cons, List.take_succ_cons, ih, Volume.pageWrites]

theorem length_pageWrites {pages : List (List Byte)} :
    (Volume.pageWrites addr pages).length = pages.length := by
  induction pages generalizing addr
  case nil             => rfl
  case cons _ pages ih => rw [Volume.pageWrites, List.length_cons, ih, List.length_cons]

end Pages

namespace Round

variable {vol : Volume} (c : Round vol) {d : Store}

-- The device after a crash behind `k` pages of the head. What it had before is `d`.
def torn (d : Store) (k : Nat) : Store :=
  applyAll (c.head.take k) (applyAll (c.bodies ++ c.firstSuper ++ [c.history]) d)

-- The pages for the head can have any content from before, without the magic number.
structure Older (d : Store) : Prop where
  eqOn : Set.EqOn d c.disk vol.headBytesᶜ
  none : ¬vol.IsSnapshotPresent d

-- emmcfs_restore_snapshot meets no BUG, and the metadata are those from before the round.
def Undone (d : Store) : Prop :=
  ∃ ws, vol.restoreSnapshot d = some ws ∧ Set.EqOn (applyAll ws d) c.disk c.home

def Harmless : Prop :=
  ∀ d, c.Older d → ∀ k ≤ c.head.length, c.Undone (c.torn d k)

section Torn

variable {c}

theorem span_before (hw : w ∈ c.bodies ++ c.firstSuper ++ [c.history]) :
    Disjoint w.span vol.headBytes := by
  simp only [List.mem_append, List.mem_singleton] at hw
  rcases hw with (hw | hw) | rfl
  · exact c.slots_head.mono_left (c.span_bodies hw)
  · rw [c.span_firstSuper hw]
    exact c.exsb_apart.mono_right (Volume.headBytes_subset c.room)
  · exact Set.disjoint_left.mpr fun a ha => (c.span_history ha).right

theorem disjoint_head (hw : w ∈ c.head.take k) : Disjoint w.span vol.headBytesᶜ :=
  (Set.disjoint_compl_right_iff_subset.mpr (c.span_head (List.mem_of_mem_take hw)))

-- Outside of the head, it is as if the commit had been completed.
theorem Older.eqOn_torn (h : c.Older d) (hne : c.root ≠ []) :
    Set.EqOn (c.torn d k) (applyAll (c.bodies ++ c.commit) c.disk) vol.headBytesᶜ := by
  have hcommit : c.bodies ++ c.commit = c.bodies ++ c.firstSuper ++ [c.history] ++ c.head := by
    rw [c.commit_eq hne]
    simp only [List.append_assoc]
  have hhead : ∀ w ∈ c.head, Disjoint w.span vol.headBytesᶜ := fun w hw =>
    disjoint_head (k := c.head.length) (by rwa [List.take_length])
  rw [hcommit, applyAll_append]
  refine (eqOn_applyAll fun w => disjoint_head).trans ?_
  exact (eqOn_applyAll_congr h.eqOn).trans (eqOn_applyAll hhead).symm

theorem home_subset : c.home ⊆ vol.headBytesᶜ := by
  intro a ha hh
  exact Set.disjoint_left.mp c.home_disjoint ha (.inl (.inl (Volume.headBytes_subset c.room hh)))

theorem Older.eqOn_home (h : c.Older d) (hne : c.root ≠ []) :
    Set.EqOn (c.torn d k) c.disk c.home :=
  ((h.eqOn_torn hne).mono home_subset).trans
    ((c.eqOn_commit hne).mono (Set.subset_union_right ..))

variable (c) in
theorem length_head : c.head.length = Volume.headPagesCount c.info := by
  rw [head, length_pageWrites, headPages, length_toPages]

theorem hasAt_torn (hk : k ≤ c.head.length) : HasAt (c.torn d k) vol.headAddr
    ((vol.transactionTreeToSnapshot c.mountCount c.info.headVersion c.root).take
      (pageCacheSize * k)) := by
  rw [torn, head, take_pageWrites, headPages, take_toPages (c.length_head ▸ hk), ← toPages_take]
  exact hasAt_toPages (List.length_take_le ..)

-- The pages that are there have all of the head that is signed, and its checksum.
theorem Older.logged_torn (h : c.Older d) (hne : c.root ≠ []) (hk : k ≤ c.head.length)
    (hl : (vol.transactionTreeToSnapshot c.mountCount c.info.headVersion c.root).length ≤
      pageCacheSize * k) : c.Logged (c.torn d k) := by
  have hlog := c.logged_commit hne
  have hslot : c.slots ⊆ vol.headBytesᶜ := fun a ha => Set.disjoint_left.mp c.slots_head ha
  have harea := Volume.headBytes_subset c.room
  have hfirst : Volume.exsbBytes ⊆ vol.headBytesᶜ := fun a ha hh =>
    Set.disjoint_left.mp c.exsb_apart ha (harea hh)
  have hcopy : vol.exsbCopyBytes ⊆ vol.headBytesᶜ := fun a ha hh =>
    Set.disjoint_left.mp c.copy_apart ha (.inl (harea hh))
  exact {
    head  := by simpa [List.take_of_length_le hl] using hasAt_torn (d := d) hk
    saved := fun t ht i hi => by
      rw [h.eqOn_torn hne (hslot ⟨t, ht, Set.mem_Ico.mpr (by omega)⟩)]
      exact hlog.saved t ht i hi
    first := hlog.first.congr (by rw [c.exsb_ok.left]; exact (h.eqOn_torn hne).mono hfirst)
    copy  := hlog.copy.congr (by rw [c.exsb₀_ok.left]; exact (h.eqOn_torn hne).mono hcopy) }

theorem Logged.undone (hrep : 16 + sizeofTransaction * c.root.length < 2 ^ 16) (h : c.Logged d) :
    c.Undone d := by
  obtain ⟨hp, hroot⟩ := readTransactions_eq ⟨hrep, c.fields_lt⟩ h.head
  refine ⟨_, ?_, h.restored.eqOn⟩
  rw [Volume.restoreSnapshot, if_pos hp, hroot, Option.map_some]

-- Nothing of the head is there yet.
theorem Older.undone_zero (h : c.Older d) (hne : c.root ≠ []) : c.Undone (c.torn d 0) := by
  have heq : Set.EqOn (c.torn d 0) d vol.headBytes := eqOn_applyAll fun w => span_before
  refine ⟨[], ?_, h.eqOn_home hne⟩
  rw [Volume.restoreSnapshot, if_neg ((c.isSnapshotPresent_congr heq).not.mpr h.none)]

-- The fields before the transactions lie in the first page.
theorem hasAt_torn_one : HasAt (c.torn d 1) vol.headAddr (toLe 4 emmcfsSnapshotMagic) ∧
    HasAt (c.torn d 1) (vol.headAddr + 14) (toLe 2 (16 + sizeofTransaction * c.root.length)) := by
  have hpos := c.headPagesCount_pos
  have hfields : toLe 4 emmcfsSnapshotMagic ++ toLe 4 c.mountCount ++ toLe 4 c.info.headVersion ++
      toLe 2 c.root.length ++ toLe 2 (16 + sizeofTransaction * c.root.length) <+:
      vol.transactionTreeToSnapshot c.mountCount c.info.headVersion c.root := by
    rw [Volume.transactionTreeToSnapshot, Volume.headFields, List.append_assoc _ (List.flatMap ..)]
    exact List.prefix_append ..
  have h := (hasAt_torn (c := c) (d := d) (k := 1) (c.length_head ▸ hpos)).of_isPrefix
    (List.prefix_take_iff.mpr ⟨hfields, by simp [pageCacheSize]⟩)
  simp only [hasAt_append, length_toLe, List.length_append] at h
  exact ⟨h.left.left.left.left, h.right⟩

-- A head that is restored is signed with what stands behind its transactions.
theorem signed_of_restored (hrep : 16 + sizeofTransaction * c.root.length < 2 ^ 16)
    (h : vol.restoreSnapshot (c.torn d 1) ≠ none) :
    (vol.crc32 (readAt (c.torn d 1) vol.headAddr (16 + sizeofTransaction * c.root.length))).toNat =
      ofLe (readAt (c.torn d 1) (vol.headAddr + (16 + sizeofTransaction * c.root.length)) 4) := by
  obtain ⟨hmagic, hoff⟩ := hasAt_torn_one (c := c) (d := d)
  have hp : vol.IsSnapshotPresent (c.torn d 1) := hmagic.readAt_eq length_toLe
  rw [Volume.restoreSnapshot, if_pos hp, Volume.readTransactions] at h
  simp only [ofLe_readAt hoff hrep] at h
  by_contra hne
  exact h (by rw [if_neg hne, Option.map_none])

section Update

variable {x : Nat} {b : Byte} (hx : pageCacheSize ≤ x) (hlt : x < pageCacheSize * vol.area.pagesPerHead)
include hx hlt

theorem older_update (c : Round vol) : c.Older (Function.update c.disk (vol.headAddr + x) b) where
  eqOn a ha := by
    refine Function.update_of_ne (fun he => ha ?_) ..
    rw [he]
    exact Set.mem_Ico.mpr ⟨by omega, by omega⟩
  none hp   := by
    refine c.no_snapshot (Eq.trans (readAt_congr fun a ha => ?_) hp)
    have := Set.mem_Ico.mp ha
    simp only [pageCacheSize] at hx
    exact (Function.update_of_ne (by omega) ..).symm

-- The first page of a head leaves the bytes behind it as they were.
theorem torn_update (c : Round vol) : c.torn (Function.update d (vol.headAddr + x) b) 1 =
    Function.update (c.torn d 1) (vol.headAddr + x) b := by
  have hmem : vol.headAddr + x ∈ vol.headBytes := Set.mem_Ico.mpr ⟨by omega, by omega⟩
  rw [torn, applyAll_update fun w hw hm => Set.disjoint_left.mp (span_before hw) hm hmem,
    applyAll_update, torn]
  intro w hw hm
  rw [head, take_pageWrites] at hw
  have hspan : vol.headAddr + x ∈
      Set.Ico vol.headAddr (vol.headAddr + pageCacheSize * (c.headPages.take 1).length) :=
    span_pageWrites (fun page hp => length_of_mem_toPages (List.mem_of_mem_take hp)) hw hm
  have hlen : (c.headPages.take 1).length ≤ 1 := List.length_take_le ..
  have := Nat.mul_le_mul_left pageCacheSize hlen
  have := Set.mem_Ico.mp hspan
  omega

end Update

end Torn

-- With the first page of a head that is signed behind it, not every content of the last byte of the
-- checksum can fit.
theorem exists_broken (hrep : 16 + sizeofTransaction * c.root.length < 2 ^ 16)
    (hlt : pageCacheSize < 16 + sizeofTransaction * c.root.length + 4) :
    ∃ d, c.Older d ∧ vol.restoreSnapshot (c.torn d 1) = none := by
  by_contra h
  have hend := c.length_head_le
  rw [Volume.transactionTreeToSnapshot, List.length_append, length_headFields, length_toLe] at hend
  have hsize := Nat.mul_le_mul_left pageCacheSize c.head_le
  generalize hoff : 16 + sizeofTransaction * c.root.length = offset at *
  have hx : pageCacheSize ≤ offset + 3 := by omega
  have hx' : offset + 3 < pageCacheSize * vol.area.pagesPerHead := by omega
  have hsigned (b : Byte) : (vol.crc32 (readAt (c.torn c.disk 1) vol.headAddr offset)).toNat =
      ofLe (readAt (c.torn c.disk 1) (vol.headAddr + offset) 3 ++ [b]) := by
    have hu := signed_of_restored (hoff ▸ hrep) fun hn => h ⟨_, c.older_update hx hx' (b := b), hn⟩
    rw [hoff, c.torn_update hx hx', readAt_update_of_le (by omega), ← Nat.add_assoc,
      readAt_update_last] at hu
    exact hu
  have := (hsigned 0).symm.trans (hsigned 1)
  simp [readAt, ofLe, List.range_succ] at this

-- A torn head is harmless if and only if the head is signed within its first page.
theorem torn_harmless_iff (hrep : 16 + sizeofTransaction * c.root.length < 2 ^ 16)
    (hne : c.root ≠ []) :
    c.Harmless ↔ 16 + sizeofTransaction * c.root.length + 4 ≤ pageCacheSize := by
  constructor
  case mp =>
    intro h
    by_contra hlt
    obtain ⟨d, hd, hn⟩ := c.exists_broken hrep (Nat.not_le.mp hlt)
    obtain ⟨ws, hws, _⟩ := h d hd 1 (c.length_head ▸ c.headPagesCount_pos)
    rw [hn] at hws
    cases hws
  case mpr =>
    intro hle d hd k hk
    cases k
    case zero   => exact hd.undone_zero hne
    case succ k =>
      refine (hd.logged_torn hne hk ?_).undone hrep
      rw [Volume.transactionTreeToSnapshot, List.length_append, length_headFields, length_toLe]
      exact hle.trans (Nat.le_mul_of_pos_right _ (Nat.succ_pos k))

theorem torn_harmless_iff_pendingRound : pendingRound.Harmless :=
  (pendingRound.torn_harmless_iff (by decide) (by decide)).mpr (by decide)

section Long

-- A volume whose snapshot has room for heads of two pages.
def longVolume : Volume where
  area      := .ofPages 1 300 (by decide)
  page_size := rfl
  sectors   := 100000
  crc32     := fun _ => 0#32

theorem mem_areaBytes_longVolume : a ∈ longVolume.areaBytes ↔ 4096 ≤ a ∧ a < 1232896 := by
  have hs : longVolume.area.sectors = Set.Ico 8 2408 := longVolume.area_sectors
  simp only [Volume.areaBytes, hs, bytesOf, sectorSize, Set.mem_ofPred_eq, Set.mem_Ico]
  omega

theorem mem_exsbCopyBytes_longVolume :
    a ∈ longVolume.exsbCopyBytes ↔ 51196416 ≤ a ∧ a < 51198976 :=
  Set.mem_Ico

def longTransaction (i : Nat) : TransactionData := ⟨8 * (1000 + i), 8 * (3 + i), 1⟩

theorem mem_home_longTransaction :
    a ∈ (longTransaction i).home ↔ 4096 * (1000 + i) ≤ a ∧ a < 4096 * (1000 + i) + 4096 := by
  simp only [TransactionData.home, longTransaction, sectorSize, pageCacheSize, Set.mem_Ico]
  omega

def longRoot : List TransactionData := (List.range 227).map longTransaction

theorem mem_longRoot (h : t ∈ longRoot) : ∃ i < 227, t = longTransaction i := by
  obtain ⟨i, hi, he⟩ := List.mem_map.mp h
  exact ⟨i, List.mem_range.mp hi, he.symm⟩

theorem longRoot_slotsClear {info : SnapshotInfo} (h : info.snapshotRoot = longRoot) :
    longVolume.area.SlotsClear info where
  disjoint := by
    rw [h, longRoot, List.pairwise_map]
    refine List.pairwise_lt_range.imp fun {i j} hij => Set.disjoint_left.mpr fun a ha hb => ?_
    simp only [TransactionData.sectors, longTransaction, sectorPerPage, Set.mem_Ico] at ha hb
    omega
  clear t ht := by
    rw [h] at ht
    obtain ⟨i, hi, rfl⟩ := mem_longRoot ht
    have hk : (longTransaction i).onSnapshot =
        (longVolume.area.start + (2 + i)) <<< longVolume.area.logSectorsPerBlock := by
      rw [Nat.shiftLeft_eq]
      simp only [longTransaction, longVolume, SnapshotArea.ofPages, BlockSize.page,
        SnapshotArea.logSectorsPerBlock, sectorSizeShift]
      omega
    have hhead : longVolume.area.pagesPerHead = 2 := rfl
    refine (SnapshotArea.slotClear_iff_of_pageBlocks rfl Nat.one_pos hk (by omega)).mpr ?_
    simp only [longTransaction, longVolume, SnapshotArea.ofPages]
    omega

theorem longRoot_fields (h : t ∈ longRoot) :
    t.onVolume < 2 ^ 64 ∧ t.onSnapshot < 2 ^ 64 ∧ t.pagesCount < 2 ^ 16 := by
  obtain ⟨i, hi, rfl⟩ := mem_longRoot h
  simp only [longTransaction]
  omega

theorem longVolume_exsb_apart : Disjoint Volume.exsbBytes longVolume.areaBytes := by
  simp only [Set.disjoint_left, mem_areaBytes_longVolume, mem_exsbBytes]
  omega

theorem longVolume_copy_apart :
    Disjoint longVolume.exsbCopyBytes (longVolume.areaBytes ∪ Volume.exsbBytes) := by
  simp only [Set.disjoint_left, Set.mem_union, mem_areaBytes_longVolume, mem_exsbBytes,
    mem_exsbCopyBytes_longVolume]
  omega

theorem longRoot_apart (h : t ∈ longRoot) :
    Disjoint t.home (longVolume.areaBytes ∪ Volume.exsbBytes ∪ longVolume.exsbCopyBytes) := by
  obtain ⟨i, hi, rfl⟩ := mem_longRoot h
  simp only [Set.disjoint_left, mem_home_longTransaction,
    Set.mem_union, mem_areaBytes_longVolume, mem_exsbBytes, mem_exsbCopyBytes_longVolume]
  omega

-- A head of 227 transactions.
def longRound : Round longVolume where
  disk        := fun _ => 0#8
  info        := ⟨2, 297, 227, 229, 0, longRoot⟩
  added       := longRoot
  metadata    := []
  mountCount  := 1
  dirty       := false
  exsb₀       := exsbOf 0#8
  exsb        := exsbOf 0#8
  count_eq    := by simp [longRoot]
  added_perm  := .refl _
  fields_lt   := fun _ => longRoot_fields
  slots_clear := longRoot_slotsClear rfl
  room        := by decide
  head_le     := by decide
  home_apart  := fun _ => longRoot_apart
  exsb_apart  := longVolume_exsb_apart
  copy_apart  := longVolume_copy_apart
  metadata_in := by simp
  no_snapshot := by decide
  first       := hasAt_exsbOf
  second      := hasAt_exsbOf
  exsb₀_ok    := exsbOf_ok rfl
  exsb_ok     := exsbOf_ok rfl
  pending     := fun _ => rfl

-- A BUG is met when only the first page of the head is there.
theorem not_harmless_longRound : ∃ d, longRound.Older d ∧
    longVolume.restoreSnapshot (longRound.torn d 1) = none := by
  have hlen : longRound.root.length = 227 := by simp [root, longRound, longRoot]
  refine longRound.exists_broken ?_ ?_
  all_goals
    rw [hlen]
    decide

end Long

end Round

end Emmcfs
