import EmmcfsModel.Extents.GetBlock
import EmmcfsModel.Extents.Theorems.Reach

namespace Emmcfs

open Code

variable {free : Finset Nat}

namespace Expansion

variable {s s' : Expansion}

theorem Unchanged.of_frees (h : s.fsm.Manages free) (hf : Frees free s s') (hk : Kept s s') :
    Unchanged s s' where
  forks   := hk.forks
  exttree := hk.exttree
  free    := hf.manages.bits.symm.trans h.bits
  count   := hf.manages.count.trans h.count.symm

theorem Unchanged.of_fsm (hf : s'.fsm = s.fsm) (hk : Kept s s') : Unchanged s s' where
  forks   := hk.forks
  exttree := hk.exttree
  free    := by rw [hf]
  count   := by rw [hf]

theorem findOldBlock_spec : (findOldBlock ino iblock).wp (fun _ => Unchanged s)
    (fun _ => Unchanged s) False s := by
  have hsame : Unchanged s s := .of_fsm rfl .refl
  rw [findOldBlock, wp_bind, wp_get]
  split
  case h_1 => exact hsame
  case h_2 =>
    rw [exttreeGetBlock, wp_onFail, wp_bind]
    refine wp_mono extentFind_spec (fun r s' h => ?_) (fun _ s' h => .of_fsm h.1 h.2) id
    exact wp_ite.mpr ⟨fun _ => .of_fsm h.1 h.2, fun _ => .of_fsm h.1 h.2⟩

-- The number of free blocks is a __u32.
theorem card_lt (h : s.fsm.Manages free) (hsm : s.fsm.Small) : free.card < 2 ^ 32 := by
  have hsub : free ⊆ (Finset.range (2 ^ 32)).erase 0 := by
    intro x hx
    have hlt := Frees.lt h hsm hx
    have hclear := (mem_clearBits.mp (h.bits ▸ hx)).right
    refine Finset.mem_erase.mpr ⟨fun h₀ => ?_, Finset.mem_range.mpr hlt⟩
    rw [h₀, hsm.zero] at hclear
    exact Bool.noConfusion hclear
  have := Finset.card_le_card hsub
  rw [Finset.card_erase_of_mem (by simp), Finset.card_range] at this
  omega

theorem Covers.lt (hle : (s.forks ino).totalBlockCount ≤ iblock) (hlt : iblock < 2 ^ 64)
    (hc : Covers ino iblock s) : iblock - (s.forks ino).totalBlockCount <
    max (minRequest ino iblock s) (2 ^ granLog2 ino s) := by
  rw [Covers] at hc
  by_cases he : ino = extentsTreeIno
  case pos =>
    rw [if_pos he] at hc
    rwa [minRequest, if_pos he, max_comm]
  case neg =>
    rw [if_neg he] at hc
    exact lt_max_of_lt_left (lt_minRequest hle hlt he hc)

section Growth

variable (h : s.fsm.Manages free) (hsm : s.fsm.Small)

include h

theorem Grew.count_lt (hlo : 0 < lo) (hg : Grew ino iblock lo hi free s block s') :
    s'.fsm.freeBlocksCount < s.fsm.freeBlocksCount := by
  obtain ⟨cnt, start, free', hcnt, -, hsub, ht, -, -⟩ := hg
  rw [ht.manages.count, h.count]
  have hmem : start ∈ Finset.Ico start (start + cnt) := Finset.mem_Ico.mpr ⟨le_rfl, by omega⟩
  refine Finset.card_lt_card ((Finset.ssubset_iff_of_subset (Finset.sdiff_subset.trans hsub)).mpr ?_)
  exact ⟨start, hsub (ht.subset hmem), fun hn => (Finset.mem_sdiff.mp hn).right hmem⟩

include hsm

-- The block that is wanted is one of those that were free.
theorem Grew.block_mem (hle : (s.forks ino).totalBlockCount ≤ iblock) (hlt : iblock < 2 ^ 64)
    (hd : iblock - (s.forks ino).totalBlockCount < lo) (hg : Grew ino iblock lo hi free s block s') :
    block ∈ free := by
  obtain ⟨cnt, start, free', hlo, -, hsub, ht, -, rfl⟩ := hg
  have hmem : start + (iblock - (s.forks ino).totalBlockCount) ∈ free :=
    hsub (ht.subset (Finset.mem_Ico.mpr ⟨by omega, by omega⟩))
  have := Frees.lt h hsm hmem
  rwa [u64Sub_of_le hle hlt, u64_of_lt (by omega)]

theorem expandFile_grew (hlog : s.fsm.logBlocksInLeb < 31) (ht : s.fsm.totalBlocks < 2 ^ 32)
    (hle : (s.forks ino).totalBlockCount ≤ iblock) (hlt : iblock < 2 ^ 64)
    (hd : iblock - (s.forks ino).totalBlockCount < 2 ^ 63) :
    (expandFile ino iblock).wp
      (Grew ino iblock (max (minRequest ino iblock s) (2 ^ granLog2 ino s))
        (firstRequest ino iblock s) free s)
      (fun _ s' => ¬InsertFails s ⟨ino, (s.forks ino).totalBlockCount⟩ → Unchanged s s') True s := by
  have hcard := card_lt h hsm
  rw [wp_expandFile, h.count]
  refine ⟨fun _ _ => .of_fsm rfl .refl, fun hfree => ?_⟩
  obtain ⟨hge, hreq, _⟩ := firstRequest_spec hle hlt hlog ht (by omega) hd
  refine wp_mono (expandLoop_spec (granLog2_lt hlog) dvd_alignUp hge hreq
    (by rwa [u64Sub_of_le hle hlt]) h hsm) (fun _ _ => id) (fun _ s' he hi => ?_) id
  exact .of_frees h (he hi).left (he hi).right

end Growth

end Expansion

namespace BlockMap

open Expansion (Unchanged Covers)

variable {s s' : BlockMap}

theorem mapBlock_spec {mounted : Bool} (h : mounted ∨ block ≤ s.deviceBlocks ∨ P s) :
    (mapBlock mounted block alloc).wp (fun _ _ => True) (fun _ => P) True s := by
  simp only [mapBlock, wp_bind, wp_get, wp_ite, wp_halt, wp_fail]
  refine ⟨fun hlt => ⟨fun _ => trivial, fun hm => ?_⟩, fun _ => trivial⟩
  rcases h with h | h | h
  · exact absurd h hm
  · omega
  · exact h

theorem writeInodeToBnode_spec (hw : ∀ e, s.writes.head? ≠ some (some e)) :
    writeInodeToBnode.wp (fun _ s' => s'.volume = s.volume ∧ s'.deviceBlocks = s.deviceBlocks)
      (fun _ _ => False) False s := by
  simp only [writeInodeToBnode, wp_bind, wp_get]
  rcases hs : s.writes with _ | ⟨_ | e, _⟩
  · exact ⟨rfl, rfl⟩
  · exact ⟨rfl, rfl⟩
  · exact absurd (by rw [hs]; rfl) (hw e)

theorem getBlock_write_fails {v : Expansion} {ws : List (Option Errno)}
    (hw : s.writes = some e :: ws) (hf : firstFileIno ≤ ino)
    (hle : (s.volume.forks ino).totalBlockCount ≤ iblock)
    (hok : Expansion.expandFile ino iblock s.volume = .ok block v) :
    getBlock ino iblock true s = .fail e { s with volume := v, writes := ws } := by
  have hne : ino ≠ lebBitmapIno := by
    rintro rfl
    exact absurd hf (by decide)
  have hwp : (getBlock ino iblock true).wp (fun _ _ => False)
      (fun e' s' => e' = e ∧ s' = { s with volume := v, writes := ws }) False s := by
    simp only [getBlock, wp_bind, wp_get, wp_ite, wp_haltOn, if_true, expandFile, onVolume, wp_zoom,
      wp_of_ok hok, writeInodeToBnode, hw]
    exact ⟨fun _ => ⟨hne, fun _ => ⟨fun _ => ⟨rfl, rfl⟩, fun hn => absurd hf hn⟩⟩,
      fun hn => absurd hle hn⟩
  obtain ⟨_, _, hfail, rfl, rfl⟩ := wp_fails hwp
  exact hfail

section Errors

variable (hlog : s.volume.fsm.logBlocksInLeb < 31) (ht : s.volume.fsm.totalBlocks < 2 ^ 32)
  (h : s.volume.fsm.Manages free) (hsm : s.volume.fsm.Small) (hlt : iblock < 2 ^ 64)

include hlog ht h hsm hlt

-- A file that grows.
theorem getBlock_expand (hle : (s.volume.forks ino).totalBlockCount ≤ iblock)
    (hu : Undisturbed ino iblock s) : (getBlock ino iblock true).wp (fun _ _ => True)
      (fun _ s' => Unchanged s.volume s'.volume) True s := by
  simp only [getBlock, wp_bind, wp_get, wp_ite, wp_haltOn, if_true, expandFile, onVolume, wp_zoom]
  refine ⟨fun _ => ⟨fun _ => trivial, fun _ => ?_⟩, fun hn => absurd hle hn⟩
  refine wp_mono (Expansion.expandFile_grew h hsm hlog ht hle hlt hu.distance) (fun block v hg => ?_)
    (fun _ _ he => he hu.insert) id
  -- the block is on the device, whatever was written
  have hmap (s') (hs : s'.deviceBlocks = s.deviceBlocks) :
      (mapBlock s.volume.fsm.isMountFinished block true).wp (fun _ _ => True)
        (fun _ s' => Unchanged s.volume s'.volume) True s' := by
    refine mapBlock_spec (hu.device.imp_right fun hdev => .inl ?_)
    obtain ⟨hc, hb⟩ := hdev
    have hmem := hg.block_mem h hsm hle hlt (Covers.lt hle hlt hc)
    exact hs ▸ hb block (h.bits ▸ hmem)
  refine ⟨fun hf => ?_, fun _ => hmap _ rfl⟩
  exact wp_mono (writeInodeToBnode_spec (hu.write hf)) (fun _ s' hs => hmap s' hs.right)
    (fun _ _ => False.elim) False.elim

omit hlog ht h hsm hlt in
-- A file that has the block already.
theorem getBlock_old (hn : ¬(s.volume.forks ino).totalBlockCount ≤ iblock) :
    (getBlock ino iblock true).wp (fun _ _ => True)
      (fun _ s' => Unchanged s.volume s'.volume) True s := by
  simp only [getBlock, wp_bind, wp_get, wp_ite, if_true, onVolume, wp_zoom, wp_fail]
  refine ⟨fun hle => absurd hle hn, fun _ => ?_⟩
  refine wp_mono Expansion.findOldBlock_spec (fun _ _ hu => ?_) (fun _ _ => id) False.elim
  refine ⟨fun _ => hu, fun _ => ?_⟩
  exact mapBlock_spec (P := fun s' => Unchanged s.volume s'.volume) (.inr (.inr hu))

end Errors

def fortyMap : BlockMap where
  volume       := Expansion.fortyVolume
  deviceBlocks := 40
  writes       := []

-- A file whose fork is full on the same volume. The extents tree has a record of another file, and its
-- second request, for the new record, ends with -ENOMEM.
def crowdedMap : BlockMap where
  volume := { Expansion.fortyVolume with
    forks _  := .full
    exttree  := [⟨⟨firstFileIno + 1, 9⟩, some (.of 8 1)⟩]
    outcomes := [none, some .enomem] }
  deviceBlocks := 40
  writes       := []

end BlockMap

end Emmcfs
