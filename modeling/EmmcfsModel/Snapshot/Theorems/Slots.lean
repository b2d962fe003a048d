import EmmcfsModel.Snapshot.Slots

namespace Emmcfs

theorem transactionInsert_perm {data : TransactionData} :
    {root root' : List TransactionData} → transactionInsert data root = some root' →
    root'.Perm (data :: root)
  | [], _, h => by
    obtain rfl := Option.some.inj h
    rfl
  | this :: root, root', h => by
    simp only [transactionInsert] at h
    split at h
    case isTrue =>
      obtain rfl := Option.some.inj h
      rfl
    case isFalse =>
      split at h
      case isTrue =>
        obtain ⟨tl, htl, rfl⟩ := Option.map_eq_some_iff.mp h
        exact (transactionInsert_perm htl).cons this |>.trans (.swap ..)
      case isFalse => cases h

theorem transactionInsert_isSome {data : TransactionData} :
    (root : List TransactionData) → (∀ t ∈ root, t.onVolume < data.onVolume) →
    transactionInsert data root = some (root ++ [data])
  | [], _ => rfl
  | this :: root, h => by
    have hl := h this (by simp)
    have ih := transactionInsert_isSome root fun t ht => h t (by simp [ht])
    simp [transactionInsert, hl, hl.not_gt, ih]

namespace SnapshotArea

variable {area : SnapshotArea}

-- The page of the area at which a transaction's slot starts.
def slotIndex (area : SnapshotArea) (t : TransactionData) : Nat :=
  t.onSnapshot >>> area.logSectorsPerBlock - area.start

-- Slots are handed out one after the other: each lies below the current page index, and no two
-- share a page of the area.
structure SlotsBelow (area : SnapshotArea) (info : SnapshotInfo) : Prop where
  max_eq    : info.maxPagesInSnapshot = area.maxPagesInSnapshot
  index_ge  : area.pagesPerHead ≤ info.pageIndex
  start_eq  : ∀ t ∈ info.snapshotRoot,
    t.onSnapshot = (area.start + area.slotIndex t) <<< area.logSectorsPerBlock
  slot_ge   : ∀ t ∈ info.snapshotRoot, area.pagesPerHead ≤ area.slotIndex t
  pages_pos : ∀ t ∈ info.snapshotRoot, 0 < t.pagesCount
  slot_le   : ∀ t ∈ info.snapshotRoot, area.slotIndex t + t.pagesCount ≤ info.pageIndex
  slot_max  : ∀ t ∈ info.snapshotRoot, area.slotIndex t + t.pagesCount ≤ area.maxPagesInSnapshot
  apart     : info.snapshotRoot.Pairwise fun t u =>
    area.slotIndex t + t.pagesCount ≤ area.slotIndex u ∨
    area.slotIndex u + u.pagesCount ≤ area.slotIndex t

namespace SlotsBelow

theorem cleared (area : SnapshotArea) (v : Nat) : area.SlotsBelow (area.cleared v) := by
  constructor <;> simp [SnapshotArea.cleared]

-- What a successful call of emmcfs_add_to_snapshot does to the invariant.
theorem cons (h : area.SlotsBelow info) {data : TransactionData} (hp : 0 < data.pagesCount)
    (hs : data.onSnapshot = (area.start + info.pageIndex) <<< area.logSectorsPerBlock)
    (hm : info.pageIndex + data.pagesCount ≤ area.maxPagesInSnapshot)
    (hr : root.Perm (data :: info.snapshotRoot)) :
    area.SlotsBelow { info with
      transactionsCount := n
      pageIndex         := info.pageIndex + data.pagesCount
      snapshotRoot      := root } := by
  have hi : area.slotIndex data = info.pageIndex := by
    simp [slotIndex, hs]
  have hmem {t} : t ∈ root → t = data ∨ t ∈ info.snapshotRoot := by
    simp [hr.mem_iff]
  constructor
  case max_eq    => exact h.max_eq
  case index_ge  => exact h.index_ge.trans (Nat.le_add_right ..)
  case start_eq  => rintro t ht; rcases hmem ht with rfl | ht; exacts [hi ▸ hs, h.start_eq t ht]
  case slot_ge   =>
    rintro t ht; rcases hmem ht with rfl | ht; exacts [hi ▸ h.index_ge, h.slot_ge t ht]
  case pages_pos => rintro t ht; rcases hmem ht with rfl | ht; exacts [hp, h.pages_pos t ht]
  case slot_max  => rintro t ht; rcases hmem ht with rfl | ht; exacts [hi ▸ hm, h.slot_max t ht]
  case slot_le   =>
    intro t ht
    rcases hmem ht with rfl | ht
    · exact hi ▸ le_rfl
    · exact (h.slot_le t ht).trans (Nat.le_add_right ..)
  case apart     =>
    refine hr.symm.pairwise ?_ Or.symm
    exact List.pairwise_cons.mpr ⟨fun t ht => .inr (hi ▸ h.slot_le t ht), h.apart⟩

theorem addToSnapshot (h : area.SlotsBelow info) (hp : 0 < pagesCount) :
    Code.wp (addToSnapshot area startBlock pagesCount) (fun _ => area.SlotsBelow)
      (fun _ => area.SlotsBelow) True info := by
  simp only [Emmcfs.addToSnapshot, Code.wp_ite, Code.wp_fail, Code.wp_bind, Code.wp_get]
  refine ⟨fun _ => h, fun _ => ?_⟩
  split
  case h_1 => exact h
  case h_2 root hr =>
    simp only [Code.wp_bind, Code.wp_haltOn, Code.wp_modify, Code.wp_pure, implies_true, true_and]
    intro hm
    have := h.max_eq
    exact h.cons hp rfl (by simp only; omega) (transactionInsert_perm hr)

theorem addAll (h : area.SlotsBelow info) (calls : List AddCall) :
    Code.wp (addAll area calls) (fun _ => area.SlotsBelow) (fun _ => area.SlotsBelow) True info := by
  induction calls generalizing info
  case nil => exact h
  case cons call calls ih =>
    simp only [Emmcfs.addAll, Code.wp_bind, Code.wp_onFail]
    exact Code.wp_mono (h.addToSnapshot call.pages_pos) (fun _ _ => ih) (fun _ _ => ih) id

end SlotsBelow

theorem mem_historySectors (h : x ∈ area.historySectors) :
    8 * (area.start + area.length) ≤ x + 8 ∧ x < 8 * (area.start + area.length) := by
  obtain ⟨v, rfl⟩ := h
  have hv : v &&& headHistoryMask ≤ 7 := Nat.and_le_right
  have := area.start_pos
  simp only [historySector, pageCacheShift, sectorSizeShift, Nat.shiftLeft_eq, pagesPerHeadHistory,
    sectorPerPage]
  omega

theorem historySectors_first : 8 * (area.start + area.length) - 8 ∈ area.historySectors := by
  refine ⟨0, ?_⟩
  simp [historySector, pageCacheShift, sectorSizeShift, Nat.shiftLeft_eq, pagesPerHeadHistory,
    sectorPerPage, Nat.mul_comm]

section PageBlocks

variable (hb : area.blockSize.shift = pageCacheShift)

-- With blocks of the size of a page, slot, head, history and extent are all counted in pages.
include hb in
theorem sectors_eq_of_pageBlocks : area.sectors =
    Set.Ico (8 * area.start) (8 * (area.start + area.length)) := by
  simp [sectors, logSectorsPerBlock, hb, pageCacheShift, sectorSizeShift, Nat.shiftLeft_eq,
    Nat.mul_comm]

include hb in
theorem slot_sectors_of_pageBlocks {t : TransactionData}
    (ht : t.onSnapshot = (area.start + k) <<< area.logSectorsPerBlock) :
    t.sectors = Set.Ico (8 * (area.start + k)) (8 * (area.start + k + t.pagesCount)) := by
  simp only [TransactionData.sectors, ht, logSectorsPerBlock, hb, pageCacheShift, sectorSizeShift,
    Nat.shiftLeft_eq, sectorPerPage]
  congr 1 <;> omega

include hb in
theorem slotClear_iff_of_pageBlocks {t : TransactionData} (hp : 0 < t.pagesCount)
    (ht : t.onSnapshot = (area.start + k) <<< area.logSectorsPerBlock)
    (hk : area.pagesPerHead ≤ k) : area.SlotClear t ↔ k + t.pagesCount < area.length := by
  have hs := slot_sectors_of_pageBlocks hb ht
  have he := sectors_eq_of_pageBlocks hb
  constructor
  case mp =>
    rintro ⟨hi, _, hh⟩
    rw [hs, he, Set.Ico_subset_Ico_iff (by omega)] at hi
    by_contra hc
    refine Set.disjoint_left.mp hh ?_ historySectors_first
    rw [hs, Set.mem_Ico]
    omega
  case mpr =>
    intro hc
    constructor
    case inside  => rw [hs, he]; exact Set.Ico_subset_Ico (by omega) (by omega)
    case head    =>
      rw [hs, headSectors, headStart, Set.disjoint_left]
      simp only [Set.mem_Ico, pageCacheShift, sectorSizeShift, Nat.shiftLeft_eq, sectorPerPage]
      omega
    case history =>
      rw [hs, Set.disjoint_left]
      intro x hx hh
      have := mem_historySectors hh
      rw [Set.mem_Ico] at hx
      omega

include hb in
theorem SlotsBelow.slotsClear_of_pageBlocks (h : area.SlotsBelow info)
    (hm : area.maxPagesInSnapshot < area.length) : area.SlotsClear info where
  clear t ht := by
    rw [slotClear_iff_of_pageBlocks hb (h.pages_pos t ht) (h.start_eq t ht) (h.slot_ge t ht)]
    exact (h.slot_max t ht).trans_lt hm
  disjoint := by
    refine h.apart.imp_of_mem fun {t u} ht hu ha => ?_
    rw [slot_sectors_of_pageBlocks hb (h.start_eq t ht),
      slot_sectors_of_pageBlocks hb (h.start_eq u hu), Set.disjoint_left]
    simp only [Set.mem_Ico]
    omega

end PageBlocks

theorem SlotsBelow.root_eq_nil (h : area.SlotsBelow info)
    (hm : area.maxPagesInSnapshot ≤ area.pagesPerHead) : info.snapshotRoot = [] := by
  refine List.eq_nil_iff_forall_not_mem.mpr fun t ht => ?_
  have := h.slot_max t ht
  have := h.slot_ge t ht
  have := h.pages_pos t ht
  omega

theorem SlotsBelow.slotsClear_of_single (h : area.SlotsBelow info)
    (hm : area.maxPagesInSnapshot = area.pagesPerHead + 1)
    (hc : area.SlotClear (area.firstSlot 0)) : area.SlotsClear info := by
  have hs : ∀ t ∈ info.snapshotRoot, area.slotIndex t = area.pagesPerHead ∧ t.pagesCount = 1 := by
    intro t ht
    have := h.slot_max t ht
    have := h.slot_ge t ht
    have := h.pages_pos t ht
    omega
  constructor
  case clear =>
    intro t ht
    have he : t.sectors = (area.firstSlot 0).sectors := by
      simp [TransactionData.sectors, firstSlot, h.start_eq t ht, hs t ht]
    exact ⟨he ▸ hc.inside, he ▸ hc.head, he ▸ hc.history⟩
  case disjoint =>
    refine h.apart.imp_of_mem fun {t u} ht hu ha => ?_
    have := hs t ht
    have := hs u hu
    omega

theorem SlotsBelow.slotsClear (h : area.SlotsBelow info) (hk : area.KeepsSlotsApart) :
    area.SlotsClear info := by
  rcases hk with hm | ⟨hb, hm⟩ | ⟨hm, hc⟩
  · have := h.root_eq_nil hm
    constructor <;> simp [this]
  · exact h.slotsClear_of_pageBlocks hb hm
  · exact h.slotsClear_of_single hm hc

-- Calls for single pages, of the blocks from `k + 1` on.
def singles (k : Nat) : Nat → List AddCall
  | 0     => []
  | n + 1 => ⟨k + 1, 1, Nat.one_pos⟩ :: singles (k + 1) n

def singleSlot (area : SnapshotArea) (index k : Nat) : TransactionData where
  onVolume   := (k + 1) <<< area.logSectorsPerBlock
  onSnapshot := (area.start + index) <<< area.logSectorsPerBlock
  pagesCount := 1

theorem addToSnapshot_single (hr : ∀ t ∈ info.snapshotRoot,
    t.onVolume < (k + 1) <<< area.logSectorsPerBlock)
    (hm : info.pageIndex + 1 ≤ info.maxPagesInSnapshot) :
    addToSnapshot area (k + 1) 1 info = .ok (some (area.singleSlot info.pageIndex k)) { info with
      transactionsCount := u32 (info.transactionsCount + 1)
      pageIndex         := info.pageIndex + 1
      snapshotRoot      := info.snapshotRoot ++ [area.singleSlot info.pageIndex k] } := by
  have hi : transactionInsert (area.singleSlot info.pageIndex k) info.snapshotRoot = _ :=
    transactionInsert_isSome _ hr
  simp only [addToSnapshot, Nat.add_eq_zero_iff, Nat.one_ne_zero, and_false, if_false]
  change Code.bind Code.get _ info = _
  rw [singleSlot] at hi
  simp only [Code.bind, Code.get, hi]
  simp only [Code.haltOn, hm.not_gt, if_false]
  rfl

theorem addAll_singles (hr : ∀ t ∈ info.snapshotRoot,
    t.onVolume < (k + 1) <<< area.logSectorsPerBlock)
    (hm : info.pageIndex + n ≤ info.maxPagesInSnapshot) :
    ∃ info', addAll area (singles k n) info = .ok () info' ∧ info'.snapshotRoot =
      info.snapshotRoot ++ (List.range n).map fun i => area.singleSlot (info.pageIndex + i) (k + i) := by
  induction n generalizing info k
  case zero => exact ⟨info, rfl, by simp⟩
  case succ n ih =>
    have hs := addToSnapshot_single hr (by omega)
    have hlt : (k + 1) <<< area.logSectorsPerBlock < (k + 1 + 1) <<< area.logSectorsPerBlock := by
      simp only [Nat.shiftLeft_eq]
      exact Nat.mul_lt_mul_of_pos_right (by omega) (Nat.two_pow_pos _)
    have hr₁ : ∀ t ∈ info.snapshotRoot ++ [area.singleSlot info.pageIndex k],
        t.onVolume < (k + 1 + 1) <<< area.logSectorsPerBlock := by
      intro t ht
      cases List.mem_append.mp ht
      case inl ht => exact (hr t ht).trans hlt
      case inr ht => exact List.mem_singleton.mp ht ▸ hlt
    obtain ⟨info', h, hr'⟩ := @ih (k + 1) { info with
      transactionsCount := u32 (info.transactionsCount + 1)
      pageIndex         := info.pageIndex + 1
      snapshotRoot      := info.snapshotRoot ++ [area.singleSlot info.pageIndex k] }
      hr₁ (by simp only; omega)
    refine ⟨info', ?_, ?_⟩
    · rw [← h]
      change Code.bind (Code.onFail (addToSnapshot area (k + 1) 1) _) _ info = _
      simp only [Code.bind, Code.onFail, hs]
    · rw [hr', List.range_succ_eq_map, List.map_cons, List.map_map, List.append_assoc]
      simp [Function.comp_def, Nat.add_assoc, Nat.add_comm 1]

theorem addAll_singles_cleared (area : SnapshotArea) (n : Nat)
    (hm : area.pagesPerHead + n ≤ area.maxPagesInSnapshot) :
    ∃ info, addAll area (singles 0 n) (area.cleared 0) = .ok () info ∧ info.snapshotRoot =
      (List.range n).map fun i => area.singleSlot (area.pagesPerHead + i) i := by
  have hn : ∀ t ∈ (area.cleared 0).snapshotRoot, t.onVolume < (0 + 1) <<< area.logSectorsPerBlock :=
    by simp [cleared]
  obtain ⟨info, h, hr⟩ := addAll_singles hn hm
  exact ⟨info, h, by simpa [cleared] using hr⟩

-- The slots of two neighbouring pages overlap when a block is smaller than a page.
theorem not_disjoint_singleSlot (hb : area.blockSize.shift ≠ pageCacheShift) :
    ¬Disjoint (area.singleSlot k i).sectors (area.singleSlot (k + 1) j).sectors := by
  refine Set.not_disjoint_iff.mpr ⟨(area.start + (k + 1)) <<< area.logSectorsPerBlock, ?_, ?_⟩
  case refine_2 => simp [TransactionData.sectors, singleSlot, sectorPerPage]
  case refine_1 =>
    have hl : 2 ^ area.logSectorsPerBlock ≤ 2 ^ 2 := by
      apply Nat.pow_le_pow_right (by omega)
      have := area.blockSize.shift_le
      simp only [logSectorsPerBlock, sectorSizeShift, pageCacheShift] at *
      omega
    simp only [TransactionData.sectors, singleSlot, sectorPerPage, Nat.shiftLeft_eq, Set.mem_Ico]
    rw [← Nat.add_assoc, Nat.succ_mul]
    generalize 2 ^ area.logSectorsPerBlock = m at *
    omega

theorem not_slotsClear (hk : ¬area.KeepsSlotsApart) :
    ∃ calls info, addAll area calls (area.cleared 0) = .ok () info ∧ ¬area.SlotsClear info := by
  simp only [KeepsSlotsApart, not_or, not_and, not_le, not_lt] at hk
  obtain ⟨hm, hb, hc⟩ := hk
  by_cases hp : area.blockSize.shift = pageCacheShift
  case pos =>
    -- the last slot reaches the history page or the end of the extent
    obtain ⟨info, h, hr⟩ :=
      area.addAll_singles_cleared (area.maxPagesInSnapshot - area.pagesPerHead) (by omega)
    refine ⟨_, info, h, fun hs => ?_⟩
    have := hs.clear (area.singleSlot (area.maxPagesInSnapshot - 1)
      (area.maxPagesInSnapshot - area.pagesPerHead - 1)) (by
        rw [hr]
        refine List.mem_map.mpr ⟨area.maxPagesInSnapshot - area.pagesPerHead - 1, ?_, ?_⟩
        · rw [List.mem_range]; omega
        · rw [show area.pagesPerHead + (area.maxPagesInSnapshot - area.pagesPerHead - 1) =
            area.maxPagesInSnapshot - 1 by omega])
    have hs := slotClear_iff_of_pageBlocks hp (k := area.maxPagesInSnapshot - 1)
      (Nat.one_pos : 0 < (singleSlot ..).pagesCount) rfl (by omega) |>.mp this
    have := hb hp
    simp only [singleSlot] at hs
    omega
  case neg =>
    by_cases h1 : area.maxPagesInSnapshot = area.pagesPerHead + 1
    case pos =>
      obtain ⟨info, h, hr⟩ := area.addAll_singles_cleared 1 (by omega)
      refine ⟨_, info, h, fun hs => hc h1 ?_⟩
      have := hs.clear (area.singleSlot area.pagesPerHead 0) (by simp [hr])
      exact ⟨this.inside, this.head, this.history⟩
    case neg =>
      obtain ⟨info, h, hr⟩ := area.addAll_singles_cleared 2 (by omega)
      refine ⟨_, info, h, fun hs => ?_⟩
      have := hs.disjoint
      simp only [hr, List.range_succ, List.range_zero, List.nil_append, List.cons_append,
        List.map_cons, List.map_nil, List.pairwise_pair] at this
      exact not_disjoint_singleSlot hp this

-- The slots of every sequence of calls since a clear lie apart, in the extent and outside of what a
-- commit writes, exactly for the areas that keep them so.
theorem slotsClear_iff (area : SnapshotArea) :
    (∀ v calls info, addAll area calls (area.cleared v) = .ok () info → area.SlotsClear info) ↔
      area.KeepsSlotsApart where
  mp h := by
    by_contra hk
    obtain ⟨calls, info, hr, hn⟩ := not_slotsClear hk
    exact hn (h 0 calls info hr)
  mpr hk v calls info hr := by
    exact Code.wp_ok (SlotsBelow.cleared area v |>.addAll calls) hr |>.slotsClear hk

-- An extent of 64 blocks of 1024 bytes that starts at block 100: the second slot starts two sectors
-- after the first.
theorem slots_overlap_1k :
    let area : SnapshotArea :=
      ⟨⟨10, by decide, by decide⟩, 100, 64, by decide, by decide, by decide⟩
    ∃ info, addAll area [⟨500, 1, by decide⟩, ⟨501, 1, by decide⟩] (area.cleared 0) = .ok () info ∧
      info.snapshotRoot = [⟨1000, 202, 1⟩, ⟨1002, 204, 1⟩] ∧ ¬area.SlotsClear info := by
  refine ⟨_, rfl, rfl, fun h => ?_⟩
  have := List.pairwise_pair.mp h.disjoint
  simp only [TransactionData.sectors, Set.disjoint_left, Set.mem_Ico, sectorPerPage] at this
  exact this (a := 204) (by decide) (by decide)

end SnapshotArea

end Emmcfs
