import EmmcfsModel.Inode.Buffers
import EmmcfsModel.Extents.Theorems.Append
import EmmcfsModel.Inode.Theorems.Pages

namespace Emmcfs

open Code Expansion

-- The block behind the last one of a file is always reached.
theorem Expansion.Covers.of_eq {s : Expansion} (hlog : s.fsm.logBlocksInLeb < 31)
    (he : (s.forks ino).totalBlockCount = iblock) : Covers ino iblock s := by
  have hpos := Nat.two_pow_pos (granLog2 ino s)
  have hgran : 2 ^ granLog2 ino s ≤ 2 ^ 30 := two_pow_granLog2_le hlog
  simp only [Covers, he, Nat.sub_self]
  split <;> omega

namespace BufferedPage

variable {blockSize : BlockSize} {s s' : BufferedPage blockSize}
  {bhs : List (Fin (blocksPerPage blockSize))} {blocks : List Nat}

-- The block that the loop takes for a buffer: it has gone on for those before it that were not mapped.
def taken (buffers : Fin (blocksPerPage blockSize) → Option Nat)
    (before : List (Fin (blocksPerPage blockSize))) : Nat :=
  before.countP fun i => (buffers i).isNone

theorem taken_update {buffers : Fin (blocksPerPage blockSize) → Option Nat}
    {bh : Fin (blocksPerPage blockSize)} (hbh : bh ∉ bhs) (b : Option Nat) :
    taken (Function.update buffers bh b) bhs = taken buffers bhs :=
  List.countP_congr fun j hj => by
    have hne : j ≠ bh := fun he => hbh (he ▸ hj)
    rw [Function.update_of_ne hne]

-- The buffers behind the loop.
structure Paired (blocks : List Nat) (bhs : List (Fin (blocksPerPage blockSize))) (iblock : Nat)
    (s s' : BufferedPage blockSize) : Prop where
  others : ∀ k ∉ bhs, s'.buffers k = s.buffers k
  isSome : ∀ k ∈ bhs, (s'.buffers k).isSome
  paired : ∀ before k behind, bhs = before ++ k :: behind →
    s'.buffers k = (s.buffers k).or blocks[iblock + taken s.buffers before]?

section Paired

variable {bh : Fin (blocksPerPage blockSize)} (hbh : bh ∉ bhs)

include hbh

theorem Paired.skip (hsome : (s.buffers bh).isSome) (hp : Paired blocks bhs iblock s s') :
    Paired blocks (bh :: bhs) iblock s s' where
  others := fun k hk => hp.others k fun hm => hk (.tail _ hm)
  isSome := fun k hk => by
    rcases List.mem_cons.mp hk with rfl | hk
    · rwa [hp.others k hbh]
    · exact hp.isSome k hk
  paired := fun before k behind he => by
    cases before
    case nil =>
      cases he
      rw [hp.others bh hbh, Option.or_of_isSome hsome]
    case cons i before =>
      cases he
      have hskip : taken s.buffers (bh :: before) = taken s.buffers before :=
        List.countP_cons_of_neg (by simpa [Option.isSome_iff_ne_none] using hsome)
      rw [hp.paired before k behind rfl, hskip]

theorem Paired.take (hnone : s.buffers bh = none) (hb : blocks[iblock]? = some b)
    (hs₁ : s₁.buffers = Function.update s.buffers bh (some b))
    (hp : Paired blocks bhs (iblock + 1) s₁ s') : Paired blocks (bh :: bhs) iblock s s' where
  others := fun k hk => by
    have hne : k ≠ bh := fun he => hk (he ▸ .head _)
    rw [hp.others k fun hm => hk (.tail _ hm), hs₁, Function.update_of_ne hne]
  isSome := fun k hk => by
    rcases List.mem_cons.mp hk with rfl | hk
    · rw [hp.others k hbh, hs₁, Function.update_self]
      rfl
    · exact hp.isSome k hk
  paired := fun before k behind he => by
    cases before
    case nil =>
      cases he
      rw [hp.others bh hbh, hs₁, Function.update_self, hnone]
      exact hb.symm
    case cons i before =>
      cases he
      have hne {j} (hj : j ∈ before ++ k :: behind) : j ≠ bh := fun he => hbh (he ▸ hj)
      have htake : taken s.buffers (bh :: before) = taken s₁.buffers before + 1 := by
        rw [hs₁, taken_update fun hm => hne (List.mem_append_left _ hm) rfl]
        exact List.countP_cons_of_pos (by rw [hnone]; rfl)
      rw [hp.paired before k behind rfl, htake, hs₁, Function.update_of_ne (hne (by simp)),
        Nat.add_right_comm, Nat.add_assoc]

end Paired

theorem mapBuffers_spec (h : s.map.volume.Sound ino blocks) (hnd : bhs.Nodup)
    (hr : iblock ≤ blocks.length ∨ (iblock < 2 ^ 64 ∧ Covers ino iblock s.map.volume)) :
    (mapBuffers ino bhs iblock).wp (fun _ s' => ∃ more, s'.map.volume.Sound ino (blocks ++ more) ∧
      Paired (blocks ++ more) bhs iblock s s') (fun _ _ => True) True s := by
  induction bhs generalizing s blocks iblock
  case nil =>
    refine ⟨[], by rwa [List.append_nil], fun _ _ => rfl, by simp, fun before k behind he => ?_⟩
    simp at he
  case cons bh bhs ih =>
    obtain ⟨hbh, hnd⟩ := List.nodup_cons.mp hnd
    simp only [mapBuffers, wp_bind, wp_get, wp_ite, onMap, wp_zoom, wp_modify]
    refine ⟨fun hsome => ?_, fun hnone => ?_⟩
    case refine_1 =>
      refine wp_imp (ih h hnd hr) ?_
      rintro _ s' ⟨more, hs, hp⟩
      exact ⟨more, hs, hp.skip hbh hsome⟩
    case refine_2 =>
      have htotal := h.consists.total_eq
      have hlt := (s.map.volume.forks ino).total_lt
      have hr' : iblock < blocks.length ∨ Covers ino iblock s.map.volume := by
        rcases hr with hle | hr
        · exact hle.lt_or_eq.imp_right fun he => .of_eq h.log (htotal.trans he.symm)
        · exact .inr hr.right
      refine wp_mono (BlockMap.getBlock_sound h (by omega) hr') ?_ (fun _ _ _ => trivial) id
      rintro m map ⟨more, block, hv, hm, hb⟩
      have hlen := (List.getElem?_eq_some_iff.mp hb).choose
      have hlt' := (map.volume.forks ino).total_lt
      rw [hv.consists.total_eq] at hlt'
      rw [u64_of_lt (by omega), hm]
      refine wp_imp (ih hv hnd (.inl hlen)) ?_
      rintro _ s' ⟨more', hs, hp⟩
      refine ⟨more ++ more', ?_, ?_⟩
      · rwa [← List.append_assoc]
      · rw [← List.append_assoc]
        refine hp.take hbh (Option.not_isSome_iff_eq_none.mp hnone) ?_ rfl
        rw [List.getElem?_append_left hlen, hb]

-- On the blocks of the file the loop does what it does when only the number of the buffers that are
-- mapped is kept.
theorem wp_mapBuffers_map {t : PagedFile} {page : CachedPage} {Q : BlockMap → Prop}
    {E : Errno → BlockMap → Prop} (hmap : t.map = s.map) (hnd : bhs.Nodup) :
    (mapBuffers ino bhs iblock).wp (fun _ s' => Q s'.map) (fun e s' => E e s'.map) H s ↔
      (PagedFile.mapBuffers ino pageIndex page iblock (taken s.buffers bhs)).wp
        (fun _ t' => Q t'.map) (fun e t' => E e t'.map) H t := by
  induction bhs generalizing s t iblock page
  case nil => rw [mapBuffers, taken, List.countP_nil, PagedFile.mapBuffers, wp_pure, wp_pure, hmap]
  case cons bh bhs ih =>
    obtain ⟨hbh, hnd⟩ := List.nodup_cons.mp hnd
    rw [mapBuffers, wp_bind, wp_get, taken]
    by_cases hsome : (s.buffers bh).isSome
    case pos =>
      rw [if_pos hsome, List.countP_cons_of_neg (by simpa [Option.isSome_iff_ne_none] using hsome)]
      exact ih hmap hnd
    case neg =>
      rw [if_neg hsome, List.countP_cons_of_pos (by simpa using hsome), PagedFile.mapBuffers, onMap,
        PagedFile.onMap, wp_bind, wp_zoom, wp_bind, wp_zoom, hmap]
      refine wp_congr (fun m map => ?_) fun _ _ => .rfl
      rw [wp_bind, wp_modify, wp_bind, wp_modify]
      rw [← taken, ← taken_update hbh (m.map (·.block))]
      exact ih rfl hnd

-- A buffer of the page with those before it.
theorem exists_split (k : Fin n) : ∃ before behind, List.finRange n = before ++ k :: behind ∧
    before.length = k ∧ ∀ i, i ∈ before ↔ i < k := by
  obtain ⟨before, behind, he⟩ := List.append_of_mem (List.mem_finRange k)
  have hsorted := List.pairwise_lt_finRange n
  rw [he, List.pairwise_append, List.pairwise_cons] at hsorted
  refine ⟨before, behind, he, ?_, fun i => ⟨fun hi => hsorted.right.right i hi k (.head _), fun hi => ?_⟩⟩
  · have hget : (List.finRange n)[before.length]? = some k := by
      rw [he, List.getElem?_append_right le_rfl, Nat.sub_self]
      rfl
    obtain ⟨_, hget⟩ := List.getElem?_eq_some_iff.mp hget
    rw [List.getElem_finRange] at hget
    exact congrArg Fin.val hget
  · have hmem := List.mem_finRange i
    rw [he, List.mem_append, List.mem_cons] at hmem
    rcases hmem with hmem | rfl | hmem
    · exact hmem
    · exact absurd hi (lt_irrefl _)
    · exact absurd hi (hsorted.right.left.left i hmem).asymm

theorem allocNewPage_paired (h : s.map.volume.Sound ino blocks) (hr : s.Reaches ino pageIndex) :
    (allocNewPage ino pageIndex).wp (fun _ s' => ∃ more, s'.map.volume.Sound ino (blocks ++ more) ∧
      Paired (blocks ++ more) (List.finRange _) (pageIndex * blocksPerPage blockSize) s s')
      (fun _ _ => True) True s := by
  have hlt := (s.map.volume.forks ino).total_lt
  rw [Reaches, h.consists.total_eq] at hr
  have hfirst : PagedFile.firstIblock blockSize pageIndex = pageIndex * blocksPerPage blockSize := by
    rw [PagedFile.firstIblock, PagedFile.shiftLeft_eq_mul, u64_of_lt]
    rw [h.consists.total_eq] at hlt
    omega
  rw [allocNewPage, wp_bind, wp_get, wp_ite, hfirst]
  exact ⟨fun _ => mapBuffers_spec h (List.nodup_finRange _) (hr.imp_left Nat.le_of_lt), fun _ => trivial⟩

theorem RightlyMapped.reaches (hm : s.RightlyMapped ino pageIndex) (hk : s.buffers k = some b) :
    s.Reaches ino pageIndex := by
  have := (hm k b hk).left
  rw [logicalBlock] at this
  exact .inl (by omega)

-- Blocks of half a page, and a page of which no buffer is mapped.
def halfPages : BlockSize := ⟨11, by decide, by decide⟩

def freshPage : BufferedPage halfPages where
  map     := BlockMap.fortyMap
  buffers := fun _ => none
  memory  := true

theorem sound_fortyVolume : fortyVolume.Sound freeInodeBitmapIno [30, 31, 32, 33, 34, 35] where
  consists := by
    refine ⟨[.of 30 6], [], ?_, by decide, absurd rfl⟩
    exact {
      used     := by decide
      fork     := by decide
      total    := by decide
      volume   := by
        intro e he
        cases List.mem_singleton.mp he
        exact ⟨by decide, by decide, by decide⟩
      records  := rfl
      overflow := nofun
      sorted   := .nil }
  manages  := fortyFree_manages
  small    := ⟨by decide, by decide⟩
  nodup    := by decide
  taken    := by decide
  log      := by decide
  total    := by decide

end BufferedPage

end Emmcfs
