import EmmcfsModel.Snapshot.Theorems.Head

namespace Emmcfs

open Store

-- The byte addresses of sectors.
def bytesOf (s : Set Nat) : Set Nat := { a | a / sectorSize ∈ s }

theorem bytesOf_mono (h : s ⊆ t) : bytesOf s ⊆ bytesOf t :=
  fun _ ha => h ha

theorem disjoint_bytesOf (h : Disjoint s t) : Disjoint (bytesOf s) (bytesOf t) :=
  Set.disjoint_left.mpr fun _ ha hb => Set.disjoint_left.mp h ha hb

-- Pages from a sector on.
theorem pages_subset_bytesOf : Set.Ico (sector * sectorSize) (sector * sectorSize + pageCacheSize * n) ⊆
    bytesOf (Set.Ico sector (sector + sectorPerPage * n)) := by
  intro a ha
  simp only [Set.mem_Ico, bytesOf, Set.mem_ofPred_eq, sectorSize, pageCacheSize, sectorPerPage] at ha ⊢
  omega

namespace TransactionData

-- Where the pages of a transaction are on the volume and in the snapshot.
def home (t : TransactionData) : Set Nat :=
  Set.Ico (t.onVolume * sectorSize) (t.onVolume * sectorSize + pageCacheSize * t.pagesCount)

def slot (t : TransactionData) : Set Nat :=
  Set.Ico (t.onSnapshot * sectorSize) (t.onSnapshot * sectorSize + pageCacheSize * t.pagesCount)

theorem slot_subset (t : TransactionData) : t.slot ⊆ bytesOf t.sectors :=
  pages_subset_bytesOf

end TransactionData

namespace Volume

variable (vol : Volume)

def areaBytes : Set Nat := bytesOf vol.area.sectors

def headBytes : Set Nat :=
  Set.Ico vol.headAddr (vol.headAddr + pageCacheSize * vol.area.pagesPerHead)

def exsbBytes : Set Nat :=
  Set.Ico exsbAddr (exsbAddr + esbSizeInSector * sectorSize)

def exsbCopyBytes : Set Nat :=
  Set.Ico vol.exsbCopyAddr (vol.exsbCopyAddr + esbSizeInSector * sectorSize)

theorem area_sectors : vol.area.sectors =
    Set.Ico vol.area.headStart (vol.area.headStart + sectorPerPage * vol.area.length) := by
  have h3 : vol.area.logSectorsPerBlock = 3 := by
    rw [SnapshotArea.logSectorsPerBlock, vol.page_size]
    rfl
  have hh : vol.area.headStart = vol.area.start * 8 := Nat.shiftLeft_eq ..
  rw [SnapshotArea.sectors, h3, Nat.shiftLeft_eq, Nat.shiftLeft_eq, hh, Nat.add_mul,
    Nat.mul_comm vol.area.length]
  rfl

variable {vol}

theorem headBytes_subset (hroom : vol.area.pagesPerHead < vol.area.length) :
    vol.headBytes ⊆ vol.areaBytes := by
  refine pages_subset_bytesOf.trans (bytesOf_mono ?_)
  rw [area_sectors]
  exact Set.Ico_subset_Ico_right (by simp only [sectorPerPage]; omega)

theorem headBytes_subset_sectors : vol.headBytes ⊆ bytesOf vol.area.headSectors :=
  pages_subset_bytesOf

-- The history page is the last one of the area.
theorem historySector_span (hroom : vol.area.pagesPerHead < vol.area.length) :
    Set.Ico (vol.area.historySector v * sectorSize)
      (vol.area.historySector v * sectorSize + sectorSize) ⊆ vol.areaBytes \ vol.headBytes := by
  have hh : vol.area.headStart = vol.area.start * 8 := Nat.shiftLeft_eq ..
  have hm : v &&& SnapshotArea.headHistoryMask ≤ 7 := Nat.and_le_right
  have hs : vol.area.historySector v = vol.area.headStart + 8 * (vol.area.length - 1) +
      (v &&& SnapshotArea.headHistoryMask) := by
    have : (vol.area.start + vol.area.length) <<< (pageCacheShift - sectorSizeShift) =
        (vol.area.start + vol.area.length) * 8 := Nat.shiftLeft_eq ..
    rw [SnapshotArea.historySector, this, hh]
    simp only [pagesPerHeadHistory, sectorPerPage]
    omega
  generalize v &&& SnapshotArea.headHistoryMask = m at *
  intro a ha
  simp only [areaBytes, area_sectors, headBytes, headAddr, bytesOf, Set.mem_sdiff, Set.mem_Ico,
    Set.mem_ofPred_eq, sectorSize, sectorPerPage, pageCacheSize] at ha ⊢
  omega

end Volume

-- One round of the snapshot: calls of emmcfs_add_to_snapshot, in some order, for pages on the volume
-- that are not dirty yet, then emmcfs_commit_snapshot, then emmcfs_sync_metadata, which writes pages
-- that were added, then emmcfs_clear_snapshot. Before, the device has no snapshot and two good copies
-- of the extended superblock, whose new content in memory may be waiting to be written.
structure Round (vol : Volume) where
  disk        : Store
  info        : SnapshotInfo
  added       : List TransactionData
  metadata    : List Write
  mountCount  : Nat
  dirty       : Bool
  exsb₀       : List Byte
  exsb        : List Byte
  count_eq    : info.transactionsCount = info.snapshotRoot.length
  added_perm  : added.Perm info.snapshotRoot
  fields_lt   : ∀ t ∈ info.snapshotRoot, t.onVolume < 2 ^ 64 ∧ t.onSnapshot < 2 ^ 64 ∧
    t.pagesCount < 2 ^ 16
  slots_clear : vol.area.SlotsClear info
  room        : vol.area.pagesPerHead < vol.area.length
  head_le     : Volume.headPagesCount info ≤ vol.area.pagesPerHead
  home_apart  : ∀ t ∈ info.snapshotRoot,
    Disjoint t.home (vol.areaBytes ∪ Volume.exsbBytes ∪ vol.exsbCopyBytes)
  exsb_apart  : Disjoint Volume.exsbBytes vol.areaBytes
  copy_apart  : Disjoint vol.exsbCopyBytes (vol.areaBytes ∪ Volume.exsbBytes)
  metadata_in : ∀ w ∈ metadata, ∃ t ∈ info.snapshotRoot, w.span ⊆ t.home
  no_snapshot : ¬vol.IsSnapshotPresent disk
  first       : HasAt disk Volume.exsbAddr exsb₀
  second      : HasAt disk vol.exsbCopyAddr exsb₀
  exsb₀_ok    : exsb₀.length = esbSizeInSector * sectorSize ∧ vol.VerifyExsb exsb₀
  exsb_ok     : exsb.length = esbSizeInSector * sectorSize ∧ vol.VerifyExsb exsb
  pending     : dirty = false → exsb = exsb₀

namespace Round

variable {vol : Volume} (c : Round vol)

def root : List TransactionData := c.info.snapshotRoot

-- The metadata pages that the round is about.
def home : Set Nat := { a | ∃ t ∈ c.root, a ∈ t.home }

def bodies : List Write := c.added.flatMap (Volume.bodyWrites c.disk)

def commit : List Write := vol.commitSnapshot c.info c.mountCount c.exsb c.dirty

-- The three parts of the commit.
def firstSuper : List Write :=
  if c.dirty then [⟨Volume.exsbAddr, c.exsb⟩] else []

def headPages : List (List Byte) :=
  Volume.toPages (vol.transactionTreeToSnapshot c.mountCount c.info.headVersion c.root)
    (Volume.headPagesCount c.info)

def history : Write :=
  ⟨vol.area.historySector (c.info.headVersion + 1) * sectorSize,
    (c.headPages.headD []).take sectorSize⟩

def head : List Write := Volume.pageWrites vol.headAddr c.headPages

def writes : List Write :=
  c.bodies ++ c.commit ++ c.metadata ++ vol.clearSnapshot c.exsb c.dirty

-- The device after a crash behind the first `k` writes.
def crash (k : Nat) : Store := applyAll (c.writes.take k) c.disk

-- The metadata as the round writes it.
def after : Store := applyAll c.metadata c.disk

-- Metadata and extended superblock both from before the round or both from after it.
def Consistent (d : Store) (exsb : List Byte) : Prop :=
  Set.EqOn d c.disk c.home ∧ exsb = c.exsb₀ ∨ Set.EqOn d c.after c.home ∧ exsb = c.exsb

end Round

namespace Volume

-- A mount that is interrupted behind its first `k` writes, or not at all.
def Interrupted (vol : Volume) (d : Store) (k : Nat) (d' : Store) : Prop :=
  ∃ ws exsb, vol.mount d = some (ws, exsb) ∧ d' = applyAll (ws.take k) d

end Volume

namespace Round

variable {vol : Volume} (c : Round vol) {d d' m : Store} {exsb : List Byte}

-- The next mount succeeds and leaves nothing mixed.
def Recovers (d : Store) : Prop :=
  ∃ ws exsb, vol.mount d = some (ws, exsb) ∧ c.Consistent (applyAll ws d) exsb

-- No snapshot on the device: what is in use is the first superblock and the metadata as they are.
structure Idle (exsb : List Byte) (m d : Store) : Prop where
  none   : ¬vol.IsSnapshotPresent d
  first  : HasAt d Volume.exsbAddr exsb
  length : exsb.length = esbSizeInSector * sectorSize
  valid  : vol.VerifyExsb exsb
  copy   : ∃ copy, HasAt d vol.exsbCopyAddr copy ∧ copy.length = esbSizeInSector * sectorSize ∧
    vol.VerifyExsb copy
  eqOn   : Set.EqOn d m c.home

-- A snapshot that can undo whatever has happened to the metadata.
structure Logged (d : Store) : Prop where
  head  : HasAt d vol.headAddr
    (vol.transactionTreeToSnapshot c.mountCount c.info.headVersion c.root)
  saved : ∀ t ∈ c.root, ∀ i < pageCacheSize * t.pagesCount,
    d (t.onSnapshot * sectorSize + i) = c.disk (t.onVolume * sectorSize + i)
  first : HasAt d Volume.exsbAddr c.exsb
  copy  : HasAt d vol.exsbCopyAddr c.exsb₀

variable {c}

section Regions

variable (c)

def slots : Set Nat := { a | ∃ t ∈ c.root, a ∈ t.slot }

theorem slots_subset : c.slots ⊆ vol.areaBytes := by
  rintro a ⟨t, ht, ha⟩
  exact bytesOf_mono (c.slots_clear.clear t ht).inside (t.slot_subset ha)

theorem slots_head : Disjoint c.slots vol.headBytes := by
  refine Set.disjoint_left.mpr fun a ⟨t, ht, ha⟩ hh => ?_
  exact Set.disjoint_left.mp (disjoint_bytesOf (c.slots_clear.clear t ht).head) (t.slot_subset ha)
    (Volume.headBytes_subset_sectors hh)

theorem home_disjoint :
    Disjoint c.home (vol.areaBytes ∪ Volume.exsbBytes ∪ vol.exsbCopyBytes) := by
  refine Set.disjoint_left.mpr fun a ⟨t, ht, ha⟩ => ?_
  exact Set.disjoint_left.mp (c.home_apart t ht) ha

theorem headPagesCount_pos : 0 < Volume.headPagesCount c.info := by
  rw [Volume.headPagesCount, Nat.shiftRight_eq_div_pow]
  simp only [sizeofTransaction, sizeofSnapshotDescriptor, pageCacheShift]
  omega

-- The head fits into the pages that are written for it.
theorem length_head_le : (vol.transactionTreeToSnapshot c.mountCount c.info.headVersion
    c.root).length ≤ pageCacheSize * Volume.headPagesCount c.info := by
  rw [Volume.transactionTreeToSnapshot, Volume.headPagesCount, c.count_eq,
    Nat.shiftRight_eq_div_pow]
  simp only [List.length_append, length_headFields, length_toLe, root, sizeofTransaction,
    sizeofSnapshotDescriptor, pageCacheShift, pageCacheSize]
  omega

theorem head_subset : Set.Ico vol.headAddr (vol.headAddr + (vol.transactionTreeToSnapshot
    c.mountCount c.info.headVersion c.root).length) ⊆ vol.headBytes :=
  Set.Ico_subset_Ico_right (Nat.add_le_add_left
    (c.length_head_le.trans (Nat.mul_le_mul_left _ c.head_le)) _)

theorem sector_subset (c : Round vol) : Set.Ico vol.headAddr (vol.headAddr + sectorSize) ⊆ vol.headBytes := by
  refine Set.Ico_subset_Ico_right (Nat.add_le_add_left ?_ _)
  have := c.headPagesCount_pos
  have := c.head_le
  simp only [sectorSize, pageCacheSize]
  omega

end Regions

section Spans

variable (c) {w : Write}

theorem span_bodies (h : w ∈ c.bodies) : w.span ⊆ c.slots := by
  obtain ⟨t, ht, hw⟩ := List.mem_flatMap.mp h
  obtain ⟨k, hk, rfl⟩ := mem_pageWrites_readPages.mp hw
  intro a ha
  refine ⟨t, c.added_perm.mem_iff.mp ht, ?_⟩
  simp only [Write.span, length_readAt, TransactionData.slot, Set.mem_Ico, pageCacheSize] at ha ⊢
  omega

theorem span_exsb {exsb : List Byte} (h : exsb.length = esbSizeInSector * sectorSize) :
    (Write.mk Volume.exsbAddr exsb).span = Volume.exsbBytes := by
  rw [Write.span, h, Volume.exsbBytes]

theorem span_exsbCopy {exsb : List Byte} (h : exsb.length = esbSizeInSector * sectorSize) :
    (Write.mk vol.exsbCopyAddr exsb).span = vol.exsbCopyBytes := by
  rw [Write.span, h, Volume.exsbCopyBytes]

theorem span_history_subset : c.history.span ⊆
    Set.Ico (vol.area.historySector (c.info.headVersion + 1) * sectorSize)
      (vol.area.historySector (c.info.headVersion + 1) * sectorSize + sectorSize) :=
  Set.Ico_subset_Ico_right (Nat.add_le_add_left (List.length_take_le ..) _)

theorem span_history : c.history.span ⊆ vol.areaBytes \ vol.headBytes :=
  c.span_history_subset.trans (Volume.historySector_span c.room)

theorem slots_history : Disjoint c.slots c.history.span := by
  refine Set.disjoint_left.mpr fun a ⟨t, ht, ha⟩ hh => ?_
  refine Set.disjoint_left.mp (disjoint_bytesOf (c.slots_clear.clear t ht).history)
    (t.slot_subset ha) ⟨c.info.headVersion + 1, ?_⟩
  have := c.span_history_subset hh
  simp only [Set.mem_Ico, sectorSize] at this ⊢
  omega

theorem span_head (h : w ∈ c.head) : w.span ⊆ vol.headBytes := by
  refine (span_pageWrites (fun _ => length_of_mem_toPages) h).trans ?_
  rw [length_toPages]
  exact Set.Ico_subset_Ico_right (Nat.add_le_add_left (Nat.mul_le_mul_left _ c.head_le) _)

theorem span_metadata (h : w ∈ c.metadata) : w.span ⊆ c.home := by
  obtain ⟨t, ht, hw⟩ := c.metadata_in w h
  exact fun a ha => ⟨t, ht, hw ha⟩

end Spans

section Idle

variable {exsb' : List Byte} {ws : List Write}

theorem isSnapshotPresent_congr (c : Round vol) (h : Set.EqOn d' d vol.headBytes) :
    vol.IsSnapshotPresent d' ↔ vol.IsSnapshotPresent d := by
  rw [Volume.IsSnapshotPresent, readAt_congr, ← Volume.IsSnapshotPresent]
  refine h.mono (Set.Subset.trans (Set.Ico_subset_Ico_right ?_) c.sector_subset)
  simp only [sectorSize]
  omega

theorem Idle.congr (h : c.Idle exsb m d)
    (he : Set.EqOn d' d (vol.headBytes ∪ Volume.exsbBytes ∪ vol.exsbCopyBytes ∪ c.home)) :
    c.Idle exsb m d' := by
  simp only [Set.eqOn_union] at he
  obtain ⟨⟨⟨hh, h1⟩, h2⟩, hm⟩ := he
  obtain ⟨copy, hcopy, hlen, hvalid⟩ := h.copy
  exact {
    none   := (c.isSnapshotPresent_congr hh).not.mpr h.none
    first  := h.first.congr (by rw [h.length]; exact h1)
    length := h.length
    valid  := h.valid
    copy   := ⟨copy, hcopy.congr (by rw [hlen]; exact h2), hlen, hvalid⟩
    eqOn   := hm.trans h.eqOn }

-- Writes of bodies and history leave the volume without a snapshot.
theorem Idle.applyAll (h : c.Idle exsb m d)
    (hw : ∀ w ∈ ws, w.span ⊆ vol.areaBytes \ vol.headBytes) : c.Idle exsb m (applyAll ws d) := by
  refine h.congr (eqOn_applyAll fun w hm => Set.disjoint_left.mpr fun a ha hb => ?_)
  obtain ⟨harea, hhead⟩ := hw w hm ha
  rcases hb with ((hb | hb) | hb) | hb
  · exact hhead hb
  · exact Set.disjoint_left.mp c.exsb_apart hb harea
  · exact Set.disjoint_left.mp c.copy_apart hb (.inl harea)
  · exact Set.disjoint_left.mp c.home_disjoint hb (.inl (.inl harea))

theorem eqOn_apply_exsb (hl : exsb.length = esbSizeInSector * sectorSize)
    (hs : Disjoint Volume.exsbBytes s) :
    Set.EqOn (Write.apply ⟨Volume.exsbAddr, exsb⟩ d) d s :=
  eqOn_applyAll (List.forall_mem_singleton.mpr (by rwa [span_exsb hl]))

theorem eqOn_apply_exsbCopy (hl : exsb.length = esbSizeInSector * sectorSize)
    (hs : Disjoint vol.exsbCopyBytes s) :
    Set.EqOn (Write.apply ⟨vol.exsbCopyAddr, exsb⟩ d) d s :=
  eqOn_applyAll (List.forall_mem_singleton.mpr (by rwa [span_exsbCopy hl]))

theorem exsb_home (c : Round vol) : Disjoint Volume.exsbBytes c.home :=
  (c.home_disjoint.mono_right fun _ ha => .inl (.inr ha)).symm

theorem exsbCopy_home (c : Round vol) : Disjoint vol.exsbCopyBytes c.home :=
  (c.home_disjoint.mono_right fun _ ha => .inr ha).symm

theorem Idle.apply_exsb (h : c.Idle exsb m d) :
    c.Idle c.exsb m (Write.apply ⟨Volume.exsbAddr, c.exsb⟩ d) := by
  have hl := c.exsb_ok.left
  obtain ⟨copy, hcopy, hlen, hvalid⟩ := h.copy
  have hhead := c.exsb_apart.mono_right (Volume.headBytes_subset c.room)
  have h2 := (c.copy_apart.mono_right (Set.subset_union_right ..)).symm
  exact {
    none   := (c.isSnapshotPresent_congr (eqOn_apply_exsb hl hhead)).not.mpr h.none
    first  := hasAt_apply
    length := hl
    valid  := c.exsb_ok.right
    copy   := ⟨copy, hcopy.congr (eqOn_apply_exsb hl (by rwa [hlen])), hlen, hvalid⟩
    eqOn   := (eqOn_apply_exsb hl c.exsb_home).trans h.eqOn }

theorem Idle.apply_exsbCopy (h : c.Idle exsb m d) :
    c.Idle exsb m (Write.apply ⟨vol.exsbCopyAddr, c.exsb⟩ d) := by
  have hl := c.exsb_ok.left
  have harea := c.copy_apart.mono_right (Set.subset_union_left ..)
  have hhead := harea.mono_right (Volume.headBytes_subset c.room)
  have h1 := c.copy_apart.mono_right (Set.subset_union_right ..)
  exact {
    none   := (c.isSnapshotPresent_congr (eqOn_apply_exsbCopy hl hhead)).not.mpr h.none
    first  := h.first.congr (eqOn_apply_exsbCopy hl (by rwa [h.length]))
    length := h.length
    valid  := h.valid
    copy   := ⟨c.exsb, hasAt_apply, c.exsb_ok⟩
    eqOn   := (eqOn_apply_exsbCopy hl c.exsbCopy_home).trans h.eqOn }

theorem Idle.mount_eq (h : c.Idle exsb m d) : vol.mount d = some ([], exsb) := by
  obtain ⟨copy, hcopy, hlen, hvalid⟩ := h.copy
  have he : Volume.readExsb d = exsb := h.first.readAt_eq h.length
  have hc : vol.readExsbCopy d = copy := hcopy.readAt_eq hlen
  simp only [Volume.mount, Volume.repairExsb, he, hc, h.valid, hvalid, if_true, Option.bind_eq_bind,
    Option.bind_some, applyAll_nil, Volume.restoreSnapshot, h.none, if_false, Option.pure_def,
    List.append_nil]

end Idle

section Logged

variable {ws : List Write}

theorem Logged.congr (h : c.Logged d)
    (he : Set.EqOn d' d (vol.areaBytes ∪ Volume.exsbBytes ∪ vol.exsbCopyBytes)) :
    c.Logged d' := by
  simp only [Set.eqOn_union] at he
  obtain ⟨⟨ha, h1⟩, h2⟩ := he
  exact {
    head  := h.head.congr (ha.mono (c.head_subset.trans (Volume.headBytes_subset c.room)))
    saved := fun t ht i hi =>
      (ha (c.slots_subset ⟨t, ht, Set.mem_Ico.mpr (by omega)⟩)).trans (h.saved t ht i hi)
    first := h.first.congr (by rw [c.exsb_ok.left]; exact h1)
    copy  := h.copy.congr (by rw [c.exsb₀_ok.left]; exact h2) }

-- Whatever happens to the metadata, the snapshot stays.
theorem Logged.applyAll (h : c.Logged d) (hw : ∀ w ∈ ws, w.span ⊆ c.home) :
    c.Logged (applyAll ws d) :=
  h.congr (eqOn_applyAll fun w hm => c.home_disjoint.mono_left (hw w hm))

theorem Logged.mount_eq (hr : 16 + sizeofTransaction * c.root.length < 2 ^ 16) (h : c.Logged d) :
    vol.mount d = some (Volume.restoreTransactions d c.root ++ vol.clearSnapshot [] false,
      c.exsb₀) := by
  have he : Volume.readExsb d = c.exsb := h.first.readAt_eq c.exsb_ok.left
  have hc : vol.readExsbCopy d = c.exsb₀ := h.copy.readAt_eq c.exsb₀_ok.left
  obtain ⟨hp, hroot⟩ := readTransactions_eq ⟨hr, c.fields_lt⟩ h.head
  simp only [Volume.mount, Volume.repairExsb, he, hc, c.exsb_ok.right, c.exsb₀_ok.right, if_true,
    Option.bind_eq_bind, Option.bind_some, applyAll_nil, Volume.restoreSnapshot, hp, hroot,
    Option.map_some, Option.pure_def, List.nil_append]

-- What restoring writes: pages of the metadata, with what they held before the round.
theorem mem_restoreTransactions {root : List TransactionData} (hroot : ∀ t ∈ root, t ∈ c.root)
    (h : c.Logged d) (hw : w ∈ Volume.restoreTransactions d root) :
    w.span ⊆ c.home ∧ HasAt c.disk w.addr w.bytes := by
  induction root generalizing d
  case nil => simp [Volume.restoreTransactions] at hw
  case cons t root ih =>
    have ht := hroot t (by simp)
    have hpages : ∀ w ∈ Volume.pageWrites (t.onVolume * sectorSize)
        (Volume.readPages d (t.onSnapshot * sectorSize) t.pagesCount),
        w.span ⊆ c.home ∧ HasAt c.disk w.addr w.bytes := by
      intro w hw
      obtain ⟨k, hk, rfl⟩ := mem_pageWrites_readPages.mp hw
      constructor
      case left =>
        intro a ha
        refine ⟨t, ht, ?_⟩
        simp only [Write.span, length_readAt, TransactionData.home, Set.mem_Ico, pageCacheSize]
          at ha ⊢
        omega
      case right =>
        intro i b hb
        dsimp only at hb ⊢
        have hi := (List.getElem?_eq_some_iff.mp hb).choose
        rw [length_readAt] at hi
        rw [Nat.add_assoc, ← h.saved t ht _ (by simp only [pageCacheSize] at hi ⊢; omega),
          ← Nat.add_assoc]
        exact hasAt_readAt i b hb
    cases List.mem_append.mp hw
    case inl hw => exact hpages w hw
    case inr hw =>
      exact ih (fun t h => hroot t (by simp [h])) (h.applyAll fun w hw => (hpages w hw).left) hw

theorem span_restoreTransactions {root : List TransactionData} {d : Store} (ht : t ∈ root)
    (ha : a ∈ t.home) : ∃ w ∈ Volume.restoreTransactions d root, a ∈ w.span := by
  induction root generalizing d
  case nil => simp at ht
  case cons u root ih =>
    cases List.mem_cons.mp ht
    case inl he =>
      subst he
      have ha := Set.mem_Ico.mp ha
      have hd := Nat.div_add_mod (a - t.onVolume * sectorSize) pageCacheSize
      have hm := Nat.mod_lt (a - t.onVolume * sectorSize) (show 0 < pageCacheSize by decide)
      refine ⟨_, List.mem_append_left _ (mem_pageWrites_readPages.mpr
        ⟨(a - t.onVolume * sectorSize) / pageCacheSize, ?_, rfl⟩), ?_⟩
      · exact Nat.div_lt_of_lt_mul (by omega)
      · simp only [Write.span, length_readAt, Set.mem_Ico]
        omega
    case inr ht =>
      exact (ih ht).imp fun _ h => ⟨List.mem_append_right _ h.left, h.right⟩

theorem Logged.eqOn_restore (h : c.Logged d) :
    Set.EqOn (Store.applyAll (Volume.restoreTransactions d c.root) d) c.disk c.home := by
  rintro a ⟨t, ht, ha⟩
  refine applyAll_eq (fun w hw i b hi hb => ?_) (.inr (span_restoreTransactions ht ha))
  rw [← hi]
  exact ((mem_restoreTransactions (fun _ => id) h hw).right i b hb).symm

end Logged

section Clear

theorem span_clear : (Write.mk vol.headAddr (List.replicate sectorSize 0#8)).span =
    Set.Ico vol.headAddr (vol.headAddr + sectorSize) := by
  rw [Write.span, List.length_replicate]

-- A sector of zeros over the head, and the snapshot is gone.
theorem not_isSnapshotPresent_clear :
    ¬vol.IsSnapshotPresent (Write.apply ⟨vol.headAddr, List.replicate sectorSize 0#8⟩ d) := by
  intro h
  have hz := Write.apply_add (w := ⟨vol.headAddr, List.replicate sectorSize 0#8⟩) (d := d) (i := 0)
    (List.getElem?_replicate_of_lt (by decide))
  have hm := congrArg (·.head?) h
  simp only [readAt, List.head?_map, List.head?_range] at hm
  rw [if_neg (by decide), Option.map_some, hz] at hm
  exact absurd hm (by decide)

theorem idle_clear (hf : HasAt d Volume.exsbAddr exsb)
    (hok : exsb.length = esbSizeInSector * sectorSize ∧ vol.VerifyExsb exsb)
    (hc : HasAt d vol.exsbCopyAddr c.exsb₀) (he : Set.EqOn d m c.home) :
    c.Idle exsb m (Write.apply ⟨vol.headAddr, List.replicate sectorSize 0#8⟩ d) := by
  have hsub := c.sector_subset.trans (Volume.headBytes_subset c.room)
  have hframe : ∀ {s}, Disjoint vol.areaBytes s →
      Set.EqOn (Write.apply ⟨vol.headAddr, List.replicate sectorSize 0#8⟩ d) d s := fun hs =>
    eqOn_applyAll (List.forall_mem_singleton.mpr (by rw [span_clear]; exact hs.mono_left hsub))
  have h2 := (c.copy_apart.mono_right (Set.subset_union_left ..)).symm
  have hhome := (c.home_disjoint.mono_right fun _ ha => .inl (.inl ha)).symm
  exact {
    none   := not_isSnapshotPresent_clear
    first  := hf.congr (hframe (by rw [hok.left]; exact c.exsb_apart.symm))
    length := hok.left
    valid  := hok.right
    copy   := ⟨c.exsb₀, hc.congr (hframe (by rw [c.exsb₀_ok.left]; exact h2)), c.exsb₀_ok⟩
    eqOn   := (hframe hhome).trans he }

theorem Logged.clear (h : c.Logged d) (he : Set.EqOn d m c.home) :
    c.Idle c.exsb m (Write.apply ⟨vol.headAddr, List.replicate sectorSize 0#8⟩ d) :=
  idle_clear h.first c.exsb_ok h.copy he

theorem Logged.span_restore (h : c.Logged d) :
    ∀ w ∈ Volume.restoreTransactions d c.root, w.span ⊆ c.home :=
  fun _ hw => (mem_restoreTransactions (fun _ => id) h hw).left

theorem Logged.restored (h : c.Logged d) : c.Idle c.exsb c.disk
    (Store.applyAll (Volume.restoreTransactions d c.root ++ vol.clearSnapshot [] false) d) := by
  rw [applyAll_append, Volume.clearSnapshot]
  exact (h.applyAll h.span_restore).clear h.eqOn_restore

-- A mount that finds the snapshot: it may be repeated until it gets through, and then the old
-- metadata stand beside the new superblock.
theorem Logged.mounted (hr : 16 + sizeofTransaction * c.root.length < 2 ^ 16) (h : c.Logged d)
    (hi : vol.Interrupted d k d') : c.Logged d' ∨ c.Idle c.exsb c.disk d' := by
  obtain ⟨ws, e, hmount, rfl⟩ := hi
  rw [h.mount_eq hr] at hmount
  cases hmount
  by_cases hk : k ≤ (Volume.restoreTransactions d c.root).length
  case pos =>
    rw [List.take_append_of_le_length hk]
    exact .inl (h.applyAll fun w hm => h.span_restore w (List.mem_of_mem_take hm))
  case neg =>
    rw [List.take_of_length_le]
    · exact .inr h.restored
    · rw [List.length_append, Volume.clearSnapshot]
      exact Nat.not_le.mp hk

end Clear

end Round

end Emmcfs
