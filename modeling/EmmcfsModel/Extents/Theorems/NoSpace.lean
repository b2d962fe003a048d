import EmmcfsModel.Extents.Expand
import EmmcfsModel.Fsm.Theorems.Assertions

namespace Emmcfs

open Code

-- The hint with which a file asks for more blocks: where its last extent ends.
def ForkInfo.lastEnd (fork : ForkInfo) : Option Nat :=
  match fork.usedExtents, fork.extents[fork.usedExtents - 1]? with
  | _ + 1, some last => some (u64 (last.firstBlock + last.blockCount))
  | _, _             => none

-- The bounds that a request of `bcnt` blocks for a file has to meet before the free space is searched.
-- The number of blocks is cut when it is handed to the free space manager.
def Expansion.Refuses (s : Expansion) (ino bcnt : Nat) : Prop :=
  let fork := s.forks ino
  if fork.totalBlockCount = 0 ∧ fork.usedExtents = 0 then
    s.fsm.pageCount ≤ u64 (s.freeSpaceStart + bcnt) >>> (pageCacheShift + 3) ∨
    s.fsm.totalBlocks ≤ u64 (s.freeSpaceStart + u32 bcnt)
  else ∃ offset ∈ fork.lastEnd, s.fsm.totalBlocks ≤ u64 (offset + bcnt) ∨
    s.fsm.pageCount ≤ u64 (offset + bcnt) >>> (pageCacheShift + 3) ∨
    s.fsm.totalBlocks ≤ u64 (offset + u32 bcnt)

theorem ForkInfo.lastEnd_eq {fork : ForkInfo} (hu : fork.usedExtents = used + 1)
    (hl : fork.extents[fork.usedExtents - 1]? = some last) :
    fork.lastEnd = some (u64 (last.firstBlock + last.blockCount)) := by
  rw [lastEnd, hl, hu]

section Requests

variable {fsm : FsmInfo} {free : Finset Nat}

-- The search finds a chunk if there is one.
theorem fsmGetFreeBlock_finds (h : fsm.Manages free) (h₀ : 0 ∉ free)
    (hin : u64 (blockOffset + length) < fsm.totalBlocks) :
    (fsmGetFreeBlock blockOffset length).wp (fun r _ => r = 0 → fsm.NoExtent length)
      (fun _ _ => False) True fsm := by
  refine wp_mono (fsmGetFreeBlock_gives blockOffset length h.offers) ?_ (fun _ _ => id) fun _ => trivial
  rintro r fsm' hg rfl
  cases hg
  case nothing hn      => exact hn.resolve_left (Nat.not_le.mpr hin)
  case blocks hr _ _ _ => exact absurd hr h₀

theorem fsmGetFreeBlock_refused (h : ¬u64 (blockOffset + length) < fsm.totalBlocks) :
    fsmGetFreeBlock blockOffset length fsm = .ok 0 fsm := by
  simp [fsmGetFreeBlock, Nat.not_lt.mp h]

theorem fsmGetFreeBlock_truthful_iff (h : fsm.Manages free) (h₀ : 0 ∉ free) :
    (fsmGetFreeBlock blockOffset length).wp (fun r _ => r = 0 → fsm.NoExtent length)
      (fun _ _ => True) True fsm ↔
    u64 (blockOffset + length) < fsm.totalBlocks ∨ fsm.NoExtent length := by
  by_cases hin : u64 (blockOffset + length) < fsm.totalBlocks
  case pos =>
    refine iff_of_true ?_ (.inl hin)
    exact wp_mono (fsmGetFreeBlock_finds h h₀ hin) (fun _ _ => id) (fun _ _ _ => trivial) id
  case neg => simp [wp_of_ok (fsmGetFreeBlock_refused hin), hin]

theorem FsmInfo.NoExtent.of_u32 (h : fsm.NoExtent (u32 bcnt)) : fsm.NoExtent bcnt :=
  fun key hk => (h key hk).trans_le (Nat.mod_le ..)

end Requests

namespace Expansion

variable {s : Expansion} {free : Finset Nat} {fork : ForkInfo} {used : Nat} {last : ExtentInfo}

-- A request that goes on with the block that it gets.
theorem ask_truthful_iff {next : Nat → ExpandCode Nat} (h : s.fsm.Manages free) (h₀ : 0 ∉ free)
    (hn : ∀ r s', (next r).wp (fun _ _ => True) (fun e _ => e ≠ .enospc) True s') :
    (onFsm (fsmGetFreeBlock hint (u32 bcnt)) >>= fun r =>
      if r = 0 then Code.fail .enospc else next r).wp (fun _ _ => True)
      (fun e _ => e = .enospc → s.fsm.NoExtent bcnt) True s ↔
    u64 (hint + u32 bcnt) < s.fsm.totalBlocks ∨ s.fsm.NoExtent bcnt := by
  by_cases hin : u64 (hint + u32 bcnt) < s.fsm.totalBlocks
  case pos =>
    refine iff_of_true ?_ (.inl hin)
    rw [onFsm, wp_bind, wp_zoom]
    refine wp_mono (fsmGetFreeBlock_finds h h₀ hin) (fun r fsm' hr => ?_) (fun _ _ => False.elim) id
    rw [wp_ite, wp_fail]
    exact ⟨fun he _ => (hr he).of_u32, fun _ => wp_mono (hn r _) (fun _ _ => id)
      (fun _ _ hne he => absurd he hne) id⟩
  case neg =>
    rw [onFsm, wp_bind, wp_zoom, wp_of_ok (fsmGetFreeBlock_refused hin)]
    simp [hin]

theorem expandFork_truthful_iff (h : s.fsm.Manages free) (h₀ : 0 ∉ free) :
    (expandFork ino bcnt).wp (fun _ _ => True) (fun e _ => e = .enospc → s.fsm.NoExtent bcnt) True s ↔
    ¬s.Refuses ino bcnt ∨ s.fsm.NoExtent bcnt := by
  rw [expandFork, wp_bind, wp_get, Refuses]
  by_cases hempty : (s.forks ino).totalBlockCount = 0 ∧ (s.forks ino).usedExtents = 0
  case pos =>
    rw [if_pos hempty, if_pos hempty]
    by_cases hpage : s.fsm.pageCount ≤ u64 (s.freeSpaceStart + bcnt) >>> (pageCacheShift + 3)
    case pos => simp [hpage]
    case neg =>
      rw [if_neg hpage, ask_truthful_iff h h₀ fun r s' => by simp [setFork]]
      simp [hpage]
  case neg =>
    rw [if_neg hempty, if_neg hempty]
    split
    case h_1 used last hu hl =>
      rw [ForkInfo.lastEnd_eq hu hl]
      simp only [Option.mem_some_iff, exists_eq_left']
      by_cases htotal : s.fsm.totalBlocks ≤ u64 (u64 (last.firstBlock + last.blockCount) + bcnt)
      case pos => simp [htotal]
      case neg =>
        by_cases hpage : s.fsm.pageCount ≤
          u64 (u64 (last.firstBlock + last.blockCount) + bcnt) >>> (pageCacheShift + 3)
        case pos => simp [htotal, hpage]
        case neg =>
          rw [if_neg htotal, if_neg hpage, ask_truthful_iff h h₀ fun r s' => by simp [setFork, onFsm]]
          simp [htotal, hpage]
    case h_2 hn =>
      have hend : (s.forks ino).lastEnd = none := by
        unfold ForkInfo.lastEnd
        split
        · exact absurd ‹_› (hn _ _ ‹_›)
        · rfl
      simp [hend]

-- The free space manager says that there is no space although there is a chunk of the wanted length
-- if and only if the request fails one of the bounds.
theorem no_space_iff (h : s.fsm.Manages free) (h₀ : 0 ∉ free) :
    (∀ blockOffset length,
      (∀ fsm', fsmGetFreeBlock blockOffset length s.fsm = .ok 0 fsm' → s.fsm.NoExtent length) ↔
      u64 (blockOffset + length) < s.fsm.totalBlocks ∨ s.fsm.NoExtent length) ∧
    (∀ ino bcnt,
      (∀ s', expandFork ino bcnt s = .fail .enospc s' → s.fsm.NoExtent bcnt) ↔
      ¬s.Refuses ino bcnt ∨ s.fsm.NoExtent bcnt) := by
  simp only [forall_ok_iff, forall_fail_iff]
  exact ⟨fun _ _ => fsmGetFreeBlock_truthful_iff h h₀, fun _ _ => expandFork_truthful_iff h h₀⟩

-- A volume of forty blocks with files that end before its last four blocks, which are free.
def fortyVolume : Expansion where
  forks _ := {
    totalBlockCount := 6
    extents         := (Vector.replicate _ .zero).set 0 (.of 30 6) extentsCountInFork_pos
    usedExtents     := 1
    total_lt        := by decide }
  fsm            := fortyFree
  freeSpaceStart := 4
  exttree        := []
  outcomes       := []

theorem fortyVolume_first : 0 ∉ clearBits fortyBlocks.data 40 := by decide

theorem no_space_iff_fortyVolume : ¬∃ fsm', fsmGetFreeBlock 30 4 fortyVolume.fsm = .ok 0 fsm' := by
  rintro ⟨fsm', hg⟩
  have h := (@no_space_iff fortyVolume _ fortyFree_manages fortyVolume_first).left 30 4
  have := h.mpr (.inl (by decide)) fsm' hg ⟨36, 4⟩ (by decide)
  exact absurd this (by decide)

-- The blocks behind the file are free, yet the request for them ends with -ENOSPC.
theorem not_truthful_fortyVolume :
    fortyVolume.fsm.Manages (clearBits fortyBlocks.data 40) ∧ 0 ∉ clearBits fortyBlocks.data 40 ∧
    fsmGetFreeBlock 36 4 fortyVolume.fsm = .ok 0 fortyVolume.fsm ∧
    expandFork firstFileIno 4 fortyVolume = .fail .enospc fortyVolume ∧
    ⟨36, 4⟩ ∈ fortyVolume.fsm.tree.keys :=
  ⟨fortyFree_manages, fortyVolume_first, rfl, rfl, by decide⟩

end Expansion

end Emmcfs
