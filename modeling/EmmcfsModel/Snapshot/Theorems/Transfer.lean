import EmmcfsModel.Snapshot.Transfer
import Mathlib.Data.List.Range

namespace Emmcfs

namespace BioQueue

-- The state after a bio, which has moved `added` pages.
def afterBio (s : BioQueue) (dir : TransferDir) (sector count added : Nat) : BioQueue :=
  { s with
    limits      := s.limits.tail
    transferred := s.transferred ++ (List.range added).map fun i =>
      ⟨dir, count + i, sector + sectorPerPage * i⟩ }

variable {dir : TransferDir} {s : BioQueue}

theorem nrVectr_le_max : nrVectr pageCount ≤ 256 := by
  unfold nrVectr bioMaxPages
  split <;> omega

theorem nrVectr_pos (h : 0 < pageCount) : 0 < nrVectr pageCount := by
  unfold nrVectr bioMaxPages
  split <;> omega

theorem room_le : s.room pageCount i ≤ nrVectr pageCount := by
  unfold room
  cases s.limits[i]?
  case none   => exact le_rfl
  case some o => exact Nat.min_le_left ..

theorem Accepts.room_pos (h : s.Accepts) (hp : 0 < pageCount) : 0 < s.room pageCount i := by
  unfold room
  cases hi : s.limits[i]?
  case none   => exact nrVectr_pos hp
  case some o =>
    obtain ⟨n, hn, he⟩ := h o (List.mem_of_getElem? hi)
    subst he
    exact Nat.lt_min.mpr ⟨nrVectr_pos hp, hn⟩

theorem Accepts.afterBio (h : s.Accepts) : (s.afterBio dir sector count added).Accepts :=
  fun o ho => h o (List.mem_of_mem_tail ho)

@[simp]
theorem room_afterBio :
    (s.afterBio dir sector count added).room pageCount i = s.room pageCount (i + 1) := by
  simp [room, afterBio]

theorem allocateNewBio_of_le (h : s.Accepts) (hs : start + nrVectr pageCount ≤ s.sectorCount) :
    allocateNewBio start (nrVectr pageCount) s =
      .ok (some (s.room pageCount 0)) { s with limits := s.limits.tail } := by
  have := s.sectors_lt
  have hu : u64 (start + nrVectr pageCount) = start + nrVectr pageCount := u64_of_lt (by omega)
  rw [allocateNewBio, Code.get_bind, hu, if_neg (by omega)]
  unfold room
  match hl : s.limits with
  | []          => cases s; cases hl; rfl
  | o :: limits =>
    obtain ⟨n, _, he⟩ := h o (by simp [hl])
    subst he
    rfl

theorem allocateNewBio_of_lt (hs : s.sectorCount < start + nrVectr pageCount) :
    allocateNewBio start (nrVectr pageCount) s = .fail .efault s := by
  have := s.sectors_lt
  have : nrVectr pageCount ≤ 256 := nrVectr_le_max
  rw [allocateNewBio, Code.get_bind, if_pos]
  · rfl
  · refine (Nat.lt_or_ge s.sectorCount start).imp_right fun hl => ?_
    rwa [u64_of_lt (by omega)]

section Rounds

variable {pageCount : Nat}

-- A round that is not the last one.
theorem transferFrom_of_lt (h : s.Accepts) (hs : start + nrVectr pageCount ≤ s.sectorCount)
    (hc : count + s.room pageCount 0 < pageCount) :
    transferFrom dir pageCount (rounds + 1) start count s =
      transferFrom dir pageCount rounds
        (u64 (start + u32 ((count + s.room pageCount 0) <<< (pageCacheShift - sectorSizeShift))))
        (count + s.room pageCount 0) (s.afterBio dir start count (s.room pageCount 0)) := by
  have hr := h.room_pos (i := 0) (by omega : 0 < pageCount)
  have hm : min (s.room pageCount 0) (pageCount - count) = s.room pageCount 0 := by omega
  rw [transferFrom, Code.bind_of_ok (allocateNewBio_of_le h hs)]
  simp only [hm, if_pos hc, if_neg hr.ne']
  rfl

-- The last round.
theorem transferFrom_of_le (h : s.Accepts) (hs : start + nrVectr pageCount ≤ s.sectorCount)
    (hp : count ≤ pageCount) (hc : pageCount ≤ count + s.room pageCount 0) :
    transferFrom dir pageCount (rounds + 1) start count s =
      .ok () (s.afterBio dir start count (pageCount - count)) := by
  have hm : min (s.room pageCount 0) (pageCount - count) = pageCount - count := by omega
  rw [transferFrom, Code.bind_of_ok (allocateNewBio_of_le h hs)]
  simp only [hm, if_neg (by omega : ¬count + (pageCount - count) < pageCount)]
  rfl

theorem transferFrom_of_outside (hs : s.sectorCount < start + nrVectr pageCount) :
    transferFrom dir pageCount (rounds + 1) start count s = .fail .efault s := by
  rw [transferFrom, Code.bind_of_fail (allocateNewBio_of_lt hs)]

theorem sectors_le_of_ok
    (hm : transferFrom dir pageCount (rounds + 1) start count s = .ok () s') :
    start + nrVectr pageCount ≤ s.sectorCount := by
  by_contra hs
  cases (transferFrom_of_outside (not_le.mp hs)).symm.trans hm

-- What has been transferred stays.
theorem prefix_transferFrom (h : s.Accepts) (hp : count ≤ pageCount)
    (hm : transferFrom dir pageCount rounds start count s = .ok () s') :
    s.transferred <+: s'.transferred := by
  induction rounds generalizing start count s
  case zero           => cases hm
  case succ rounds ih =>
    have hs := sectors_le_of_ok hm
    by_cases hc : count + s.room pageCount 0 < pageCount
    case pos =>
      have ht := ih h.afterBio hc.le ((transferFrom_of_lt h hs hc).symm.trans hm)
      exact (List.prefix_append ..).trans ht
    case neg =>
      cases (transferFrom_of_le h hs hp (by omega)).symm.trans hm
      exact List.prefix_append ..

-- The page that comes next goes to the sector at which the bio starts.
theorem getElem?_afterBio (h : 0 < added) :
    (s.afterBio dir sector count added).transferred[s.transferred.length]? =
      some ⟨dir, count, sector⟩ := by
  rw [afterBio, List.getElem?_append_right le_rfl]
  simp [h]

theorem getElem?_transferFrom (h : s.Accepts) (hp : count < pageCount)
    (hm : transferFrom dir pageCount rounds start count s = .ok () s') :
    s'.transferred[s.transferred.length]? = some ⟨dir, count, start⟩ := by
  cases rounds
  case zero        => cases hm
  case succ rounds =>
    have hs := sectors_le_of_ok hm
    by_cases hc : count + s.room pageCount 0 < pageCount
    case pos =>
      obtain ⟨_, ht⟩ := prefix_transferFrom h.afterBio hc.le ((transferFrom_of_lt h hs hc).symm.trans hm)
      have hr : (s.afterBio dir start count (s.room pageCount 0)).transferred[
          s.transferred.length]? = some ⟨dir, count, start⟩ :=
        getElem?_afterBio (h.room_pos (by omega))
      rw [← ht, List.getElem?_append_left (List.getElem?_eq_some_iff.mp hr).choose, hr]
    case neg =>
      cases (transferFrom_of_le h hs hp.le (by omega)).symm.trans hm
      exact getElem?_afterBio (by omega)

end Rounds

theorem inPlace_add : inPlace dir start (m + n) = inPlace dir start m ++
    (List.range n).map fun i => ⟨dir, m + i, start + sectorPerPage * m + sectorPerPage * i⟩ := by
  simp [inPlace, List.range_add, Nat.mul_add, Nat.add_assoc]

-- The first two sectors at which the transfer goes on are small enough.
theorem nextSector_eq (hn : n ≤ 512) (hs : start < 2 ^ 55) :
    u64 (start + u32 (n <<< (pageCacheShift - sectorSizeShift))) = start + sectorPerPage * n := by
  simp only [u64, u32, Nat.shiftLeft_eq, pageCacheShift, sectorSizeShift, sectorPerPage]
  omega

section Iff

variable {pageCount : Nat} (h : s.Accepts) (hs : start + nrVectr pageCount ≤ s.sectorCount)
include h hs

-- The first round, if it is not the last one.
theorem transferPages_of_lt (hc : s.room pageCount 0 < pageCount) :
    transferPages dir pageCount start s =
      transferFrom dir pageCount (pageCount - 1 + 1) (start + sectorPerPage * s.room pageCount 0)
        (s.room pageCount 0) (s.afterBio dir start 0 (s.room pageCount 0)) := by
  have := s.sectors_lt
  have hr : s.room pageCount 0 ≤ 256 := room_le.trans nrVectr_le_max
  rw [transferPages, transferFrom_of_lt h hs (by omega), Nat.zero_add,
    nextSector_eq (by omega) (by omega), Nat.sub_add_cancel (by omega)]

-- From the third bio on the sector is too high, by as many pages as the first bio has taken.
theorem not_inPlace_of_third (hc : s.room pageCount 0 + s.room pageCount 1 < pageCount) :
    ¬TransfersInPlace (transferPages dir pageCount start) dir start pageCount s := by
  rintro ⟨s', hm, ht⟩
  have := s.sectors_lt
  have hr₀ : 0 < s.room pageCount 0 := h.room_pos (by omega)
  have hl₀ : s.room pageCount 0 ≤ 256 := room_le.trans nrVectr_le_max
  have hl₁ : s.room pageCount 1 ≤ 256 := room_le.trans nrVectr_le_max
  rw [transferPages_of_lt h hs (by omega)] at hm
  rw [transferFrom_of_lt h.afterBio (sectors_le_of_ok hm) (by rwa [room_afterBio]),
    room_afterBio, Nat.zero_add] at hm
  have hg := getElem?_transferFrom h.afterBio.afterBio hc hm
  have hk : (inPlace dir start pageCount)[s.room pageCount 0 + s.room pageCount 1]? =
      some ⟨dir, s.room pageCount 0 + s.room pageCount 1,
        start + sectorPerPage * (s.room pageCount 0 + s.room pageCount 1)⟩ := by
    simp [inPlace, hc]
  rw [ht, List.getElem?_append_right (by simp [afterBio, Nat.add_assoc])] at hg
  simp only [afterBio, List.length_append, List.length_map, List.length_range, Nat.add_assoc,
    Nat.add_sub_cancel_left, hk, Option.some.injEq, PageTransfer.mk.injEq, true_and] at hg
  rw [← Nat.add_assoc, nextSector_eq (by omega) (by unfold sectorPerPage; omega)] at hg
  unfold sectorPerPage at hg
  omega

-- A transfer with one bio, or with two.
theorem inPlace_of_first (hc : pageCount ≤ s.room pageCount 0) :
    TransfersInPlace (transferPages dir pageCount start) dir start pageCount s := by
  refine ⟨_, transferFrom_of_le h hs (Nat.zero_le _) (by omega), ?_⟩
  simp [afterBio, inPlace]

theorem inPlace_of_second (hr : s.room pageCount 0 < pageCount)
    (hs' : start + sectorPerPage * s.room pageCount 0 + nrVectr pageCount ≤ s.sectorCount)
    (hc : pageCount ≤ s.room pageCount 0 + s.room pageCount 1) :
    TransfersInPlace (transferPages dir pageCount start) dir start pageCount s := by
  refine ⟨_, (transferPages_of_lt h hs hr).trans
    (transferFrom_of_le h.afterBio hs' hr.le (by rwa [room_afterBio])), ?_⟩
  conv_rhs => rw [← Nat.add_sub_cancel' hr.le, inPlace_add]
  simp [afterBio, inPlace]

end Iff

theorem transferPages_inPlace_iff (h : s.Accepts) :
    TransfersInPlace (transferPages dir pageCount start) dir start pageCount s ↔
      s.InTwoBios start pageCount := by
  constructor
  case mp =>
    intro ht
    have hm := ht.choose_spec.left
    have hs := sectors_le_of_ok hm
    refine ⟨hs, fun hr => ⟨?_, ?_⟩⟩
    · have hs' := sectors_le_of_ok ((transferPages_of_lt h hs hr).symm.trans hm)
      exact hs'
    · exact not_lt.mp fun hc => not_inPlace_of_third h hs hc ht
  case mpr =>
    rintro ⟨hs, hi⟩
    by_cases hr : s.room pageCount 0 < pageCount
    case pos => exact inPlace_of_second h hs hr (hi hr).left (hi hr).right
    case neg => exact inPlace_of_first h hs (not_lt.mp hr)

theorem transfers_inPlace_iff (start pageCount : Nat) (s : BioQueue) (h : s.Accepts) :
    (TransfersInPlace (writeSnapshotPages start pageCount) .write start pageCount s ↔
      s.InTwoBios start pageCount) ∧
    (TransfersInPlace (readPages start pageCount) .read start pageCount s ↔
      s.InTwoBios start pageCount) :=
  ⟨transferPages_inPlace_iff h, transferPages_inPlace_iff h⟩

-- A device of half a megabyte whose queue takes one page at a time.
def onePageQueue (n : Nat) : BioQueue where
  sectorCount := 1024
  sectors_lt  := by decide
  limits      := List.replicate n (some 1)
  transferred := []

theorem onePageQueue_accepts : (onePageQueue n).Accepts :=
  fun _ ho => ⟨1, Nat.one_pos, List.eq_of_mem_replicate ho⟩

theorem transfers_inPlace_iff_twoPages :
    (TransfersInPlace (writeSnapshotPages 64 2) .write 64 2 (onePageQueue 2) ↔
      (onePageQueue 2).InTwoBios 64 2) ∧
    (TransfersInPlace (readPages 64 2) .read 64 2 (onePageQueue 2) ↔
      (onePageQueue 2).InTwoBios 64 2) :=
  transfers_inPlace_iff 64 2 (onePageQueue 2) onePageQueue_accepts

-- The third page goes to sector 88 instead of 80, and is read from there.
theorem not_inPlace_threePages :
    (onePageQueue 3).Accepts ∧
    (∃ s', writeSnapshotPages 64 3 (onePageQueue 3) = .ok () s' ∧
      s'.transferred = [⟨.write, 0, 64⟩, ⟨.write, 1, 72⟩, ⟨.write, 2, 88⟩]) ∧
    (∃ s', readPages 64 3 (onePageQueue 3) = .ok () s' ∧
      s'.transferred = [⟨.read, 0, 64⟩, ⟨.read, 1, 72⟩, ⟨.read, 2, 88⟩]) ∧
    ¬TransfersInPlace (writeSnapshotPages 64 3) .write 64 3 (onePageQueue 3) ∧
    ¬TransfersInPlace (readPages 64 3) .read 64 3 (onePageQueue 3) := by
  refine ⟨onePageQueue_accepts, ⟨_, rfl, rfl⟩, ⟨_, rfl, rfl⟩, ?_, ?_⟩
  all_goals
    rintro ⟨_, h, ht⟩
    cases h
    cases ht

end BioQueue

end Emmcfs
