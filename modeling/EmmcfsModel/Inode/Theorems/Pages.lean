import EmmcfsModel.Inode.Pages
import EmmcfsModel.Extents.Theorems.Total

namespace Emmcfs.PagedFile

open Code Expansion

variable {blockSize : BlockSize} {s s' : PagedFile}

theorem blocksPerPage_pos : 0 < blocksPerPage blockSize := by
  rw [blocksPerPage, Nat.one_shiftLeft]
  exact Nat.two_pow_pos _

theorem blocksPerPage_le : blocksPerPage blockSize ≤ 8 := by
  have := blockSize.shift_ge
  rw [blocksPerPage, Nat.one_shiftLeft]
  exact (Nat.pow_le_pow_right (by decide) (by rw [pageCacheShift]; rw [sectorSizeShift] at this; omega)).trans
    (by decide : 2 ^ 3 ≤ 8)

theorem shiftLeft_eq_mul : p <<< (pageCacheShift - blockSize.shift) = p * blocksPerPage blockSize := by
  rw [blocksPerPage, Nat.one_shiftLeft, Nat.shiftLeft_eq]

theorem firstIblock_eq (hp : p < 2 ^ 51) :
    firstIblock blockSize p = p * blocksPerPage blockSize := by
  have : p * blocksPerPage blockSize ≤ p * 8 := Nat.mul_le_mul_left _ blocksPerPage_le
  rw [firstIblock, shiftLeft_eq_mul, u64_of_lt (by omega)]

-- The file consists of whole LEBs and is not longer than `n`.
structure Upto (ino g n : Nat) (s : PagedFile) : Prop where
  log   : s.logBlocksInLeb = g
  whole : 2 ^ g ∣ s.totalBlockCount ino
  le    : s.totalBlockCount ino ≤ n

theorem Upto.hasTotal (h : s.Upto ino g n) : s.map.volume.HasTotal ino g (s.totalBlockCount ino) :=
  ⟨h.log, rfl⟩

theorem Upto.of_hasTotal {map : BlockMap} (hm : map.volume.HasTotal ino g total)
    (hd : 2 ^ g ∣ total) (hle : total ≤ n) : Upto ino g n { s with map } where
  log   := hm.left
  whole := by rwa [← hm.right] at hd
  le    := by rwa [← hm.right] at hle

theorem dvd_totalAfter (hg : g < 31) (hd : 2 ^ g ∣ total) :
    2 ^ g ∣ BlockMap.totalAfter g total iblock := by
  rw [BlockMap.totalAfter]
  split
  · exact hd
  · exact dvd_u32 hg dvd_lebEnd

theorem totalAfter_le (ht : total ≤ n) (hn : lebEnd g (iblock + 1) ≤ n) :
    BlockMap.totalAfter g total iblock ≤ n := by
  rw [BlockMap.totalAfter]
  split
  · exact ht
  · exact (Nat.mod_le ..).trans hn

-- If the length can be held then the block is there and nothing is lost.
theorem lt_totalAfter (hn : lebEnd g (iblock + 1) < 2 ^ 32) :
    iblock < BlockMap.totalAfter g total iblock ∧ total ≤ BlockMap.totalAfter g total iblock := by
  have : iblock + 1 ≤ lebEnd g (iblock + 1) := le_lebEnd
  rw [BlockMap.totalAfter]
  split
  · exact ⟨by assumption, le_rfl⟩
  · rw [u32_of_lt hn]
    omega

@[simp]
theorem setPage_cache_self : (s.setPage p page).cache p = some page :=
  if_pos rfl

theorem setPage_cache_of_ne (h : q ≠ p) : (s.setPage p page).cache q = s.cache q :=
  if_neg h

theorem Upto.setPage (h : s.Upto ino g n) : (s.setPage p page).Upto ino g n :=
  ⟨h.log, h.whole, h.le⟩

-- Only the page `p` of the cache may be another one.
def SameBut (p : Nat) (s s' : PagedFile) : Prop :=
  ∀ q, q ≠ p → s'.cache q = s.cache q

theorem SameBut.of_setPage {s₁ : PagedFile} (hc : s₁.cache = s.cache) (h : SameBut p (s₁.setPage p page) s') :
    SameBut p s s' := fun q hq => by
  rw [h q hq, setPage_cache_of_ne hq, hc]

-- A page with the blocks is in the cache, and the rest of it is as before.
structure Holds (ino g n p : Nat) (blocks : List Nat) (s s' : PagedFile) : Prop where
  upto : s'.Upto ino g n
  same : SameBut p s s'
  page : ∃ page, s'.cache p = some page ∧ page.blocks = blocks

-- The file and the cache are as before.
structure Alike (ino : Nat) (s s' : PagedFile) : Prop where
  log    : s'.logBlocksInLeb = s.logBlocksInLeb
  total  : s'.totalBlockCount ino = s.totalBlockCount ino
  cache  : s'.cache = s.cache
  device : s'.device = s.device

theorem Alike.upto (h : Alike ino s s') (hu : s.Upto ino g n) : s'.Upto ino g n :=
  ⟨h.log ▸ hu.log, h.total ▸ hu.whole, h.total ▸ hu.le⟩

theorem Alike.sameBut (h : Alike ino s s') : SameBut p s s' :=
  fun _ _ => by rw [h.cache]

theorem Alike.trans (h : Alike ino s s') (h' : Alike ino s' s'') : Alike ino s s'' :=
  ⟨h'.log.trans h.log, h'.total.trans h.total, h'.cache.trans h.cache, h'.device.trans h.device⟩

theorem request_alike (ino : Nat) :
    wp request (fun _ => Alike ino s) (fun _ => Alike ino s) False s := by
  rw [request, wp_bind, wp_get]
  match s.outcomes with
  | []          => exact ⟨rfl, rfl, rfl, rfl⟩
  | none :: _   => exact ⟨rfl, rfl, rfl, rfl⟩
  | some _ :: _ => exact ⟨rfl, rfl, rfl, rfl⟩

-- The blocks that are read: zeros behind the end of the file, and what is on the device before it.
def Blocks (ino iblock : Nat) (s : PagedFile) (blocks : List Nat) : Prop :=
  ∀ i b, blocks[i]? = some b →
    (s.totalBlockCount ino ≤ iblock + i → b = 0) ∧
    (iblock + i < s.totalBlockCount ino → ∃ block, b = s.device block)

theorem Alike.blocks {blocks : List Nat} (h : Alike ino s s') (hb : s'.Blocks ino iblock blocks) :
    s.Blocks ino iblock blocks := by
  rwa [Blocks, h.total, h.device] at hb

theorem readBlocks_spec (hlt : iblock + k < 2 ^ 64) :
    wp (readBlocks ino iblock k)
      (fun blocks s' => Alike ino s s' ∧ Blocks ino iblock s blocks ∧ blocks.length = k)
      (fun _ s' => Alike ino s s') True s := by
  induction k generalizing iblock s
  case zero      => exact ⟨⟨rfl, rfl, rfl, rfl⟩, fun i b hb => by simp at hb, rfl⟩
  case succ k ih =>
    rw [readBlocks, wp_bind, wp_onFail]
    refine wp_zoom.mpr (wp_mono (BlockMap.getBlock_read ⟨rfl, rfl⟩) (fun r m hm => ?_)
      (fun _ m hm => ⟨hm.left, hm.right, rfl, rfl⟩) id)
    have h₁ : Alike ino s { s with map := m } := ⟨hm.left.left, hm.left.right, rfl, rfl⟩
    rw [wp_bind, wp_get, wp_bind, u64_of_lt (by omega)]
    refine wp_mono (ih (by omega)) (fun blocks s' ⟨h₂, hb, hl⟩ => ?_) (fun _ s' h₂ => ?_) id
    case refine_2 =>
      exact ⟨h₂.log.trans h₁.log, h₂.total.trans h₁.total, h₂.cache, h₂.device⟩
    case refine_1 =>
      refine ⟨⟨h₂.log.trans h₁.log, h₂.total.trans h₁.total, h₂.cache, h₂.device⟩, fun i b hi => ?_,
        by simp [hl]⟩
      cases i
      case succ i =>
        have hi' := hb i b hi
        rwa [h₁.total, Nat.add_assoc, Nat.add_comm 1] at hi'
      case zero   =>
        cases Option.some.inj hi
        cases r
        case none   => exact ⟨fun _ => rfl, fun hlt => nomatch hm.right.mpr hlt⟩
        case some r => exact ⟨fun hle => absurd (hm.right.mp rfl) (not_lt.mpr hle), fun _ => ⟨_, rfl⟩⟩

section Upper

variable (hino : ino ∈ bitmapInos) (hg : g < 31)
include hino hg

theorem getBlock_upto (h : s.Upto ino g n) (hlt : iblock < 2 ^ 62) (hn : lebEnd g (iblock + 1) ≤ n) :
    wp (onMap (BlockMap.getBlock ino iblock true)) (fun _ s' => s'.Upto ino g n ∧ s'.cache = s.cache)
      (fun _ s' => s'.Upto ino g n ∧ s'.cache = s.cache) True s := by
  have hafter (map : BlockMap) (hm : map.volume.HasTotal ino g
      (BlockMap.totalAfter g (s.totalBlockCount ino) iblock)) : Upto ino g n { s with map } :=
    .of_hasTotal hm (dvd_totalAfter hg h.whole) (totalAfter_le h.le hn)
  refine wp_zoom.mpr (wp_mono (BlockMap.getBlock_create hino h.hasTotal hlt hg h.whole)
    (fun _ m hm => ⟨hafter m hm, rfl⟩) (fun _ m hm => ⟨?_, rfl⟩) id)
  exact hm.elim (.of_hasTotal · h.whole h.le) (hafter m)

-- The page stays in the cache while its buffers are mapped.
theorem mapBuffers_upto (h : s.Upto ino g n) (hp : s.cache p = some page)
    (hlt : iblock + k < 2 ^ 62) (hn : lebEnd g (iblock + k) ≤ n) :
    wp (mapBuffers ino p page iblock k) (fun _ => Holds ino g n p page.blocks s)
      (fun _ => Holds ino g n p page.blocks s) True s := by
  induction k generalizing iblock s page
  case zero      => exact ⟨h, fun _ _ => rfl, page, hp, rfl⟩
  case succ k ih =>
    rw [mapBuffers, wp_bind]
    refine wp_mono (getBlock_upto hino hg h (by omega)
      ((lebEnd_mono (by omega)).trans hn)) (fun _ s₁ ⟨h₁, hc⟩ => ?_) (fun _ s₁ ⟨h₁, hc⟩ => ?_) id
    case refine_2 => exact ⟨h₁, fun q _ => by rw [hc], page, by rw [hc, hp], rfl⟩
    case refine_1 =>
      rw [wp_bind, wp_modify, u64_of_lt (by omega)]
      exact wp_mono (ih h₁.setPage setPage_cache_self (by omega) (by rwa [Nat.add_assoc, Nat.add_comm 1]))
        (fun _ _ h' => ⟨h'.upto, h'.same.of_setPage hc, h'.page⟩)
        (fun _ _ h' => ⟨h'.upto, h'.same.of_setPage hc, h'.page⟩) id

-- The page that emmcfs_alloc_new_page takes from the cache or creates.
def startPage (blockSize : BlockSize) (p : Nat) (s : PagedFile) : CachedPage :=
  (s.cache p).getD ⟨List.replicate (blocksPerPage blockSize) 0, 0⟩

theorem allocNewPage_upto (h : s.Upto ino g n) (hp : p < 2 ^ 51)
    (hn : lebEnd g ((p + 1) * blocksPerPage blockSize) ≤ n) :
    wp (allocNewPage blockSize ino p)
      (fun blocks s' => blocks = (s.startPage blockSize p).blocks ∧
        Holds ino g n p (s.startPage blockSize p).blocks s s')
      (fun _ s' => Alike ino s s' ∨ Holds ino g n p (s.startPage blockSize p).blocks s s') True s := by
  have hle : blocksPerPage blockSize ≤ 8 := blocksPerPage_le
  have hmul : p * blocksPerPage blockSize ≤ p * 8 := Nat.mul_le_mul_left _ hle
  rw [allocNewPage, wp_bind]
  refine wp_mono (request_alike ino) (fun _ s₁ h₁ => ?_) (fun _ _ => .inl) False.elim
  have hstart : (s₁.cache p).getD ⟨List.replicate (blocksPerPage blockSize) 0, 0⟩ =
    s.startPage blockSize p := by rw [startPage, h₁.cache]
  rw [wp_bind, wp_get, wp_bind, wp_modify, wp_bind, hstart, firstIblock_eq hp]
  have hend : lebEnd g (p * blocksPerPage blockSize +
      (blocksPerPage blockSize - (s.startPage blockSize p).mapped)) ≤ n :=
    (lebEnd_mono (by rw [Nat.add_mul]; omega)).trans hn
  refine wp_mono (mapBuffers_upto hino hg (h₁.upto h).setPage setPage_cache_self (by omega) hend)
    (fun _ s' h' => ?_) (fun _ s' h' => .inr ?_) id
  · exact ⟨rfl, h'.upto, h'.same.of_setPage h₁.cache, h'.page⟩
  · exact ⟨h'.upto, h'.same.of_setPage h₁.cache, h'.page⟩

omit hino hg in
theorem readMappingPage_alike (hp : p < 2 ^ 51) :
    wp (readMappingPage blockSize ino p)
      (fun blocks s' => (∃ page, s.cache p = some page ∧ page.blocks = blocks ∧ s' = s) ∨
        (s.cache p = none ∧ Blocks ino (p * blocksPerPage blockSize) s blocks ∧
          blocks.length = blocksPerPage blockSize ∧
          ∃ s₁, Alike ino s s₁ ∧ s' = s₁.setPage p ⟨blocks, 0⟩))
      (fun _ s' => Alike ino s s') True s := by
  have hle : blocksPerPage blockSize ≤ 8 := blocksPerPage_le
  have hmul : p * blocksPerPage blockSize ≤ p * 8 := Nat.mul_le_mul_left _ hle
  rw [readMappingPage, wp_bind, wp_get]
  split
  case h_1 page hc => exact .inl ⟨page, hc, rfl, rfl⟩
  case h_2 hc      =>
    rw [wp_bind]
    refine wp_mono (request_alike ino) (fun _ s₁ h₁ => ?_) (fun _ _ => id) False.elim
    rw [wp_bind, firstIblock_eq hp]
    refine wp_mono (readBlocks_spec (by omega)) (fun blocks s₂ ⟨h₂, hb, hl⟩ => ?_)
      (fun _ _ => h₁.trans) id
    exact .inr ⟨hc, h₁.blocks hb, hl, s₂, h₁.trans h₂, rfl⟩

-- A call for another page that ends before `n`.
theorem readCreatePage_upto (h : s.Upto ino g n) (hp : p < 2 ^ 51)
    (hn : lebEnd g ((p + 1) * blocksPerPage blockSize) ≤ n) :
    wp (readCreatePage blockSize ino p) (fun _ s' => s'.Upto ino g n ∧ SameBut p s s')
      (fun _ s' => s'.Upto ino g n ∧ SameBut p s s') True s := by
  have halike (s' : PagedFile) (ha : Alike ino s s') : s'.Upto ino g n ∧ SameBut p s s' :=
    ⟨ha.upto h, ha.sameBut⟩
  rw [readCreatePage, wp_bind, wp_get, wp_ite]
  refine ⟨fun _ => ?_, fun _ => ?_⟩
  case refine_1 =>
    exact wp_mono (allocNewPage_upto hino hg h hp hn) (fun _ s' h' => ⟨h'.right.upto, h'.right.same⟩)
      (fun _ s' h' => h'.elim (halike s') fun h' => ⟨h'.upto, h'.same⟩) id
  case refine_2 =>
    refine wp_mono (readMappingPage_alike hp) (fun _ s' h' => ?_) (fun _ => halike) id
    rcases h' with ⟨_, _, _, rfl⟩ | ⟨_, _, _, s₁, ha, rfl⟩
    · exact ⟨h, fun _ _ => rfl⟩
    · exact ⟨(ha.upto h).setPage, fun q hq => (setPage_cache_of_ne hq).trans (by rw [ha.cache])⟩

end Upper

section Zeros

variable (hino : ino ∈ bitmapInos) (hg : g < 31)
include hino hg

-- A page that nobody has obtained yet: no block of it belongs to the file, or it is in the cache
-- because a call for it has failed. In the cache it is empty.
structure Untouched (blockSize : BlockSize) (ino g p : Nat) (s : PagedFile) : Prop where
  log   : s.logBlocksInLeb = g
  whole : 2 ^ g ∣ s.totalBlockCount ino
  place : s.totalBlockCount ino ≤ p * blocksPerPage blockSize ∨ s.cache p ≠ none
  zeros : ∀ page, s.cache p = some page → ∀ b ∈ page.blocks, b = 0

omit hino hg in
theorem Untouched.alike (h : s.Untouched blockSize ino g p) (ha : Alike ino s s') :
    s'.Untouched blockSize ino g p :=
  ⟨ha.log.trans h.log, ha.total ▸ h.whole, by rw [ha.total, ha.cache]; exact h.place,
    by rw [ha.cache]; exact h.zeros⟩

omit hino hg in
theorem Untouched.upto (h : s.Untouched blockSize ino g p) (hn : s.totalBlockCount ino ≤ n) :
    s.Upto ino g n :=
  ⟨h.log, h.whole, hn⟩

omit hino hg in
theorem Untouched.startPage_zeros (h : s.Untouched blockSize ino g p) :
    ∀ b ∈ (s.startPage blockSize p).blocks, b = 0 := by
  rw [startPage]
  cases hc : s.cache p
  case none      => exact fun b hb => List.eq_of_mem_replicate hb
  case some page => exact h.zeros page hc

-- The first call that gets the page finds it empty.
theorem Untouched.obtain (h : s.Untouched blockSize ino g p) (hp : p < 2 ^ 51) :
    wp (readCreatePage blockSize ino p) (fun blocks _ => ∀ b ∈ blocks, b = 0)
      (fun _ s' => s'.Untouched blockSize ino g p) True s := by
  rw [readCreatePage, wp_bind, wp_get, wp_ite]
  refine ⟨fun _ => ?_, fun hlt => ?_⟩
  case refine_1 =>
    refine wp_mono (allocNewPage_upto hino hg (h.upto (Nat.le_max_left ..)) hp (Nat.le_max_right ..))
      (fun _ _ h' => h'.left ▸ h.startPage_zeros) (fun _ s' h' => ?_) id
    rcases h' with ha | ⟨hu, _, page, hc, hb⟩
    · exact h.alike ha
    · refine ⟨hu.log, hu.whole, .inr (by simp [hc]), fun page' hc' => ?_⟩
      cases hc.symm.trans hc'
      exact hb ▸ h.startPage_zeros
  case refine_2 =>
    refine wp_mono (readMappingPage_alike hp) (fun _ s' h' => ?_) (fun _ s' => h.alike) id
    rcases h' with ⟨page, hc, rfl, _⟩ | ⟨hc, hb, _, _⟩
    · exact h.zeros page hc
    · intro b hm
      obtain ⟨i, hi⟩ := List.mem_iff_getElem?.mp hm
      have hle := h.place.resolve_right fun hne => hne hc
      exact (hb i b hi).left (by omega)

-- A call for a page that is behind it.
theorem Untouched.behind (h : s.Untouched blockSize ino g p) (hp : p < 2 ^ 51) (hne : p ≠ q)
    (hq : lebEnd g ((q + 1) * blocksPerPage blockSize) ≤ p * blocksPerPage blockSize) :
    wp (readCreatePage blockSize ino q) (fun _ s' => s'.Untouched blockSize ino g p)
      (fun _ s' => s'.Untouched blockSize ino g p) True s := by
  have hlt : q < 2 ^ 51 := by
    have hle : (q + 1) * blocksPerPage blockSize ≤ p * blocksPerPage blockSize := le_lebEnd.trans hq
    have := Nat.le_of_mul_le_mul_right hle blocksPerPage_pos
    omega
  have hdone (s' : PagedFile) (h' : s'.Upto ino g (max (s.totalBlockCount ino)
      (p * blocksPerPage blockSize)) ∧ SameBut q s s') : s'.Untouched blockSize ino g p := by
    have hc := h'.right p hne
    refine ⟨h'.left.log, h'.left.whole, ?_, by rw [hc]; exact h.zeros⟩
    rw [hc]
    refine h.place.imp_left fun hle => ?_
    have := h'.left.le
    omega
  exact wp_mono (readCreatePage_upto hino hg (h.upto (Nat.le_max_left ..)) hlt
    (hq.trans (Nat.le_max_right ..))) (fun _ => hdone) (fun _ => hdone) id

theorem Untouched.step (h : s.Untouched blockSize ino g p) (hp : p < 2 ^ 51)
    (hnew : ∀ blocks, call ≠ .obtained p blocks)
    (ha : ∀ q ∈ call.page?, q ≠ p →
      lebEnd g ((q + 1) * blocksPerPage blockSize) ≤ p * blocksPerPage blockSize)
    (hs : PageStep blockSize ino s call s') : s'.Untouched blockSize ino g p := by
  cases hs
  case obtain q blocks s₁ page blocks' _ hm =>
    have hne : q ≠ p := fun he => hnew blocks (he ▸ rfl)
    have h₁ := wp_ok (h.behind hino hg hp hne.symm (ha q rfl hne)) hm
    refine ⟨h₁.log, h₁.whole, ?_, ?_⟩
    · rw [setPage_cache_of_ne hne.symm]
      exact h₁.place
    · rw [setPage_cache_of_ne hne.symm]
      exact h₁.zeros
  case error q errno hm =>
    by_cases hne : q = p
    case pos => exact (wp_error (h.obtain hino hg hp) (hne ▸ hm) :)
    case neg => exact (wp_error (h.behind hino hg hp (Ne.symm hne) (ha q rfl hne)) hm :)
  case other ht hl hc =>
    exact ⟨hl.trans h.log, ht ▸ h.whole, by rw [ht, hc]; exact h.place, by rw [hc]; exact h.zeros⟩

theorem Untouched.run (h : s.Untouched blockSize ino g p) (hp : p < 2 ^ 51)
    (hrun : Run (PageStep blockSize ino) s calls s') (hnew : ∀ blocks, .obtained p blocks ∉ calls)
    (ha : Ahead blockSize g calls p) : s'.Untouched blockSize ino g p := by
  induction hrun
  case nil => exact h
  case cons call calls hs _ ih =>
    refine ih (h.step hino hg hp (fun blocks he => hnew blocks (by simp [he]))
      (ha call (by simp)) hs) (fun blocks hm => hnew blocks (by simp [hm])) fun c hc => ?_
    exact ha c (by simp [hc])

end Zeros

section Device

variable (hino : ino ∈ bitmapInos) (hg : g < 31)
include hino hg

-- All pages in the cache start before the end of the file, and `p` is not among them.
structure Within (blockSize : BlockSize) (ino g p : Nat) (s : PagedFile) : Prop where
  log    : s.logBlocksInLeb = g
  whole  : 2 ^ g ∣ s.totalBlockCount ino
  cached : ∀ q page, s.cache q = some page → q * blocksPerPage blockSize < s.totalBlockCount ino
  absent : s.cache p = none

theorem getBlock_longer (h : s.Upto ino g n) (hlt : iblock < 2 ^ 62)
    (hn : lebEnd g (iblock + 1) < 2 ^ 32) : wp (onMap (BlockMap.getBlock ino iblock true))
      (fun _ s' => s.totalBlockCount ino ≤ s'.totalBlockCount ino ∧ iblock < s'.totalBlockCount ino)
      (fun _ _ => True) True s := by
  refine wp_zoom.mpr (wp_mono (BlockMap.getBlock_create hino h.hasTotal hlt hg h.whole)
    (fun _ m hm => ?_) (fun _ _ _ => trivial) id)
  have hafter : iblock < BlockMap.totalAfter g (s.totalBlockCount ino) iblock ∧
      s.totalBlockCount ino ≤ BlockMap.totalAfter g (s.totalBlockCount ino) iblock :=
    lt_totalAfter hn
  rw [← hm.right] at hafter
  exact hafter.symm

theorem mapBuffers_longer (h : s.Upto ino g n) (hp : s.cache p = some page)
    (hle : lebEnd g (iblock + k) ≤ n) (hn : n < 2 ^ 32) : wp (mapBuffers ino p page iblock k)
      (fun _ s' => s.totalBlockCount ino ≤ s'.totalBlockCount ino ∧
        (0 < k → iblock < s'.totalBlockCount ino)) (fun _ _ => True) True s := by
  have hlt : iblock + k ≤ lebEnd g (iblock + k) := le_lebEnd
  induction k generalizing iblock s page
  case zero      => exact ⟨le_rfl, fun h => absurd h (Nat.lt_irrefl _)⟩
  case succ k ih =>
    have hone : lebEnd g (iblock + 1) ≤ n := (lebEnd_mono (by omega)).trans hle
    rw [mapBuffers, wp_bind]
    refine wp_mono (wp_and (getBlock_upto hino hg h (by omega) hone)
      (getBlock_longer hino hg h (by omega) (by omega))) (fun _ s₁ ⟨⟨h₁, _⟩, hl, hi⟩ => ?_)
      (fun _ _ _ => trivial) fun _ => trivial
    rw [wp_bind, wp_modify, u64_of_lt (by omega)]
    refine wp_imp (ih h₁.setPage setPage_cache_self (by rwa [Nat.add_assoc, Nat.add_comm 1])
      (by rwa [Nat.add_assoc, Nat.add_comm 1])) (fun _ s' h' => ?_)
    exact ⟨hl.trans h'.left, fun _ => hi.trans_le h'.left⟩

theorem allocNewPage_longer (h : s.Upto ino g n) (hc : s.cache p = none)
    (hle : lebEnd g ((p + 1) * blocksPerPage blockSize) ≤ n) (hn : n < 2 ^ 32) (hp : p < 2 ^ 51) :
    wp (allocNewPage blockSize ino p)
      (fun _ s' => s.totalBlockCount ino ≤ s'.totalBlockCount ino ∧
        p * blocksPerPage blockSize < s'.totalBlockCount ino) (fun _ _ => True) True s := by
  rw [allocNewPage, wp_bind]
  refine wp_mono (request_alike ino) (fun _ s₁ h₁ => ?_) (fun _ _ _ => trivial) False.elim
  rw [wp_bind, wp_get, wp_bind, wp_modify, wp_bind, firstIblock_eq hp, h₁.cache, hc, Option.getD_none,
    Nat.sub_zero]
  rw [Nat.succ_mul] at hle
  refine wp_imp (mapBuffers_longer hino hg (h₁.upto h).setPage setPage_cache_self hle hn)
    (fun _ s' h' => ?_)
  exact ⟨h₁.total ▸ h'.left, h'.right blocksPerPage_pos⟩

-- A call that gets its page.
theorem Within.obtain (h : s.Within blockSize ino g p) (hne : p ≠ q)
    (hn : lebEnd g ((q + 1) * blocksPerPage blockSize) < 2 ^ 32) :
    wp (readCreatePage blockSize ino q)
      (fun _ s' => s'.Within blockSize ino g p ∧
        s.totalBlockCount ino ≤ s'.totalBlockCount ino ∧
        q * blocksPerPage blockSize < s'.totalBlockCount ino)
      (fun _ _ => True) True s := by
  have hpos : 0 < blocksPerPage blockSize := blocksPerPage_pos
  have hle : q * blocksPerPage blockSize + blocksPerPage blockSize ≤
      lebEnd g ((q + 1) * blocksPerPage blockSize) := by
    rw [← Nat.succ_mul]
    exact le_lebEnd
  have hq : q < 2 ^ 51 := by
    have := Nat.le_mul_of_pos_right q hpos
    omega
  have hdone (s' : PagedFile) (hlog : s'.logBlocksInLeb = g) (hw : 2 ^ g ∣ s'.totalBlockCount ino)
      (hc : SameBut q s s') (ht : s.totalBlockCount ino ≤ s'.totalBlockCount ino)
      (hl : q * blocksPerPage blockSize < s'.totalBlockCount ino) :
      s'.Within blockSize ino g p ∧ s.totalBlockCount ino ≤ s'.totalBlockCount ino ∧
        q * blocksPerPage blockSize < s'.totalBlockCount ino := by
    refine ⟨⟨hlog, hw, fun i page hi => ?_, (hc p hne).trans h.absent⟩, ht, hl⟩
    by_cases hiq : i = q
    case pos => exact hiq ▸ hl
    case neg => exact (h.cached i page (hc i hiq ▸ hi)).trans_le ht
  rw [readCreatePage, wp_bind, wp_get, wp_ite, shiftLeft_eq_mul, u32_of_lt (by omega)]
  refine ⟨fun hend => ?_, fun hlt => ?_⟩
  case refine_1 =>
    have hc : s.cache q = none := by
      by_contra hc
      obtain ⟨page, hc⟩ := Option.ne_none_iff_exists'.mp hc
      exact absurd (h.cached q page hc) (not_lt.mpr hend)
    have hu : s.Upto ino g (lebEnd g ((q + 1) * blocksPerPage blockSize)) :=
      ⟨h.log, h.whole, hend.trans (by omega)⟩
    exact wp_mono (wp_and (allocNewPage_upto hino hg hu hq le_rfl)
      (allocNewPage_longer hino hg hu hc le_rfl hn hq)) (fun _ s' ⟨⟨_, hh⟩, ht, hl⟩ =>
        hdone s' hh.upto.log hh.upto.whole hh.same ht hl) (fun _ _ _ => trivial) fun _ => trivial
  case refine_2 =>
    rw [not_le] at hlt
    refine wp_mono (readMappingPage_alike hq) (fun _ s' h' => ?_) (fun _ _ _ => trivial) id
    rcases h' with ⟨_, _, _, rfl⟩ | ⟨_, _, _, s₁, ha, rfl⟩
    · exact ⟨h, le_rfl, hlt⟩
    · refine hdone _ (ha.log.trans h.log) (ha.total ▸ h.whole :) (fun i hi => ?_) ha.total.ge
        (hlt.trans_eq ha.total.symm)
      rw [setPage_cache_of_ne hi, ha.cache]

theorem Within.step (h : s.Within blockSize ino g p) (hnew : ∀ blocks, call ≠ .obtained p blocks)
    (hu : ∀ q ∈ call.page?, (∃ blocks, call = .obtained q blocks) ∧
      lebEnd g ((q + 1) * blocksPerPage blockSize) < 2 ^ 32)
    (hs : PageStep blockSize ino s call s') : s'.Within blockSize ino g p ∧
      s.totalBlockCount ino ≤ s'.totalBlockCount ino ∧
      ∀ q ∈ call.page?, q * blocksPerPage blockSize < s'.totalBlockCount ino := by
  cases hs
  case obtain q blocks s₁ page blocks' hc hm =>
    have hne : p ≠ q := fun he => hnew blocks (he ▸ rfl)
    obtain ⟨h₁, ht, hq⟩ := wp_ok (h.obtain hino hg hne (hu q rfl).right) hm
    refine ⟨⟨h₁.log, h₁.whole, fun i page' hi => ?_, ?_⟩, ht, fun q' hq' => ?_⟩
    · by_cases hiq : i = q
      case pos => exact hiq ▸ hq
      case neg => exact h₁.cached i page' (by rwa [setPage_cache_of_ne hiq] at hi)
    · rw [setPage_cache_of_ne hne]
      exact h₁.absent
    · cases hq'
      exact hq
  case error q errno hm =>
    obtain ⟨_, he⟩ := (hu q rfl).left
    cases he
  case other ht hl hc =>
    refine ⟨⟨hl.trans h.log, ht ▸ h.whole, ?_, hc ▸ h.absent⟩, ht.ge, fun _ hq => nomatch hq⟩
    rw [hc, ht]
    exact h.cached

-- Calls that all get their pages leave them before the end of the file.
theorem Within.run (h : s.Within blockSize ino g p)
    (hrun : Run (PageStep blockSize ino) s calls s') (hnew : ∀ blocks, .obtained p blocks ∉ calls)
    (hu : Undisturbed blockSize g calls) : s'.Within blockSize ino g p ∧
      s.totalBlockCount ino ≤ s'.totalBlockCount ino ∧
      ∀ call ∈ calls, ∀ q ∈ call.page?, q * blocksPerPage blockSize < s'.totalBlockCount ino := by
  induction hrun
  case nil => exact ⟨h, le_rfl, fun _ hc => nomatch hc⟩
  case cons call calls hs _ ih =>
    obtain ⟨h₁, ht₁, hq₁⟩ := h.step hino hg (fun blocks he => hnew blocks (by simp [he]))
      (hu call (by simp)) hs
    obtain ⟨h₂, ht₂, hq₂⟩ := ih h₁ (fun blocks hm => hnew blocks (by simp [hm]))
      fun c hc => hu c (by simp [hc])
    refine ⟨h₂, ht₁.trans ht₂, fun c hc q hq => ?_⟩
    cases hc
    case head       => exact (hq₁ q hq).trans_le ht₂
    case tail _ hc  => exact hq₂ c hc q hq

omit hino hg in
-- A page of the file that is not in the cache is read from the device.
theorem Within.read (h : s.Within blockSize ino g p)
    (hlt : p * blocksPerPage blockSize < s.totalBlockCount ino) (hd : ∀ block, s.device block ≠ 0) :
    wp (readCreatePage blockSize ino p) (fun blocks _ => ∃ b ∈ blocks, b ≠ 0)
      (fun _ _ => True) True s := by
  have ht := (s.map.volume.forks ino).total_lt
  have hpos : 0 < blocksPerPage blockSize := blocksPerPage_pos
  have hp := Nat.le_mul_of_pos_right p hpos
  change s.totalBlockCount ino < _ at ht
  rw [readCreatePage, wp_bind, wp_get, wp_ite, shiftLeft_eq_mul, u32_of_lt (by omega)]
  refine ⟨fun hle => absurd hlt (not_lt.mpr hle), fun _ => ?_⟩
  refine wp_mono (readMappingPage_alike (by omega)) (fun blocks s' h' => ?_) (fun _ _ _ => trivial) id
  rcases h' with ⟨_, hc, _⟩ | ⟨_, hb, hl, _⟩
  · rw [h.absent] at hc
    cases hc
  · match blocks, hl with
    | [], hl     => exact absurd hl hpos.ne
    | b :: _, hl =>
      obtain ⟨block, he⟩ := (hb 0 b rfl).right hlt
      exact ⟨b, by simp, he ▸ hd block⟩

end Device

theorem blocksPerPage_eq : blocksPerPage blockSize = 2 ^ (pageCacheShift - blockSize.shift) := by
  rw [blocksPerPage, Nat.one_shiftLeft]

-- A page of the file that ends in the LEB of another page, or in a later one, has that page before
-- the end of the file.
theorem lt_of_lt_lebEnd (hw : 2 ^ g ∣ total) (hq : q * blocksPerPage blockSize < total) (hne : q ≠ p)
    (hp : p * blocksPerPage blockSize < lebEnd g ((q + 1) * blocksPerPage blockSize)) :
    p * blocksPerPage blockSize < total := by
  rcases Nat.lt_or_gt_of_ne hne with hlt | hlt
  case inr => exact (Nat.mul_le_mul_right _ hlt.le).trans_lt hq
  case inl =>
    -- a LEB that is not larger than a page ends where the page ends
    have hle : (q + 1) * blocksPerPage blockSize ≤ p * blocksPerPage blockSize :=
      Nat.mul_le_mul_right _ hlt
    rw [blocksPerPage_eq] at *
    have hg : pageCacheShift - blockSize.shift ≤ g := by
      by_contra hg
      rw [lebEnd_of_dvd (Nat.dvd_mul_left_of_dvd (Nat.pow_dvd_pow 2 (by omega)) _)] at hp
      omega
    have hnext : (q + 1) * 2 ^ (pageCacheShift - blockSize.shift) ≤ total := by
      obtain ⟨k, rfl⟩ := (Nat.pow_dvd_pow 2 hg).trans hw
      rw [Nat.mul_comm] at hq ⊢
      exact Nat.mul_le_mul_left _ (Nat.lt_of_mul_lt_mul_left hq)
    exact hp.trans_le (lebEnd_le hw hnext)

theorem newPage_zeros_iff (hino : ino ∈ bitmapInos) (h : s.Mounted blockSize ino)
    (hrun : Run (PageStep blockSize ino) s calls s₁) (hnew : ∀ blocks, .obtained p blocks ∉ calls)
    (hend : s.totalBlockCount ino ≤ p * blocksPerPage blockSize) (hp : p < 2 ^ 51)
    (hm : readCreatePage blockSize ino p s₁ = .ok blocks s₂) :
    (Ahead blockSize s.logBlocksInLeb calls p → ∀ b ∈ blocks, b = 0) ∧
    (Undisturbed blockSize s.logBlocksInLeb calls → (∀ block, s₁.device block ≠ 0) →
      (∀ b ∈ blocks, b = 0) → Ahead blockSize s.logBlocksInLeb calls p) := by
  have hc : s.cache p = none := by
    by_contra hc
    obtain ⟨page, hc⟩ := Option.ne_none_iff_exists'.mp hc
    exact absurd (h.cache p page hc) (not_lt.mpr hend)
  constructor
  case left =>
    intro ha
    have hs : s.Untouched blockSize ino s.logBlocksInLeb p :=
      ⟨rfl, h.total, .inl hend, fun page hp => by rw [hc] at hp; cases hp⟩
    exact wp_ok ((hs.run hino h.log hp hrun hnew ha).obtain hino h.log hp) hm
  case right =>
    intro hu hd hz call hcall q hq hne
    have hs : s.Within blockSize ino s.logBlocksInLeb p := ⟨rfl, h.total, h.cache, hc⟩
    obtain ⟨h₁, _, hreach⟩ := hs.run hino h.log hrun hnew hu
    by_contra hlt
    have hin := lt_of_lt_lebEnd h₁.whole (hreach call hcall q hq) hne (not_le.mp hlt)
    obtain ⟨b, hb, hb0⟩ := wp_ok (h₁.read hin hd) hm
    exact hb0 (hz b hb)

-- The volume with LEBs of two pages, on which no block is empty and the file with the inode numbers
-- has no blocks yet.
def twoPageLebs : PagedFile where
  map      := ⟨oneNode, 16, []⟩
  device _ := 1
  cache _  := none
  outcomes := []

def pageBlocks : BlockSize := .page

theorem mounted_twoPageLebs : twoPageLebs.Mounted pageBlocks freeInodeBitmapIno where
  log            := by decide
  total          := by decide
  cache _ _ h    := nomatch h

-- The first page is created, and all its numbers are given out. Then the second page is asked for.
theorem run_twoPageLebs : ∃ s₁ s₂,
    Run (PageStep pageBlocks freeInodeBitmapIno) twoPageLebs [.obtained 0 [0]] s₁ ∧
    readCreatePage pageBlocks freeInodeBitmapIno 1 s₁ = .ok [1] s₂ := by
  have hw : wp (readCreatePage pageBlocks freeInodeBitmapIno 0)
      (fun blocks s => blocks = [0] ∧ s.cache 0 = some ⟨[0], 1⟩ ∧
        wp (readCreatePage pageBlocks freeInodeBitmapIno 1) (fun blocks _ => blocks = [1])
          (fun _ _ => False) False (s.setPage 0 ⟨[2 ^ 32768 - 1], 1⟩))
      (fun _ _ => False) False twoPageLebs := by decide +kernel
  obtain ⟨_, s, hm, hb, hc, hr⟩ := wp_returns hw
  obtain ⟨_, s₂, hm', hb'⟩ := wp_returns hr
  subst hb hb'
  exact ⟨_, s₂, .cons (.obtain hm hc) .nil, hm'⟩

theorem newPage_zeros_iff_twoPageLebs : ∃ s₁ s₂,
    Run (PageStep pageBlocks freeInodeBitmapIno) twoPageLebs [.obtained 0 [0]] s₁ ∧
    readCreatePage pageBlocks freeInodeBitmapIno 1 s₁ = .ok [1] s₂ ∧
    (Ahead pageBlocks 1 [.obtained 0 [0]] 1 → ∀ b ∈ [1], b = 0) ∧
    (Undisturbed pageBlocks 1 [.obtained 0 [0]] → (∀ block, s₁.device block ≠ 0) →
      (∀ b ∈ [1], b = 0) → Ahead pageBlocks 1 [.obtained 0 [0]] 1) := by
  obtain ⟨s₁, s₂, hrun, hm⟩ := run_twoPageLebs
  exact ⟨s₁, s₂, hrun, hm, newPage_zeros_iff (by decide) mounted_twoPageLebs hrun (by simp) (by decide)
    (by decide) hm⟩

-- The second page is behind the end of the file that was mounted, and is not empty.
theorem not_zeros_twoPageLebs : twoPageLebs.Mounted pageBlocks freeInodeBitmapIno ∧
    twoPageLebs.totalBlockCount freeInodeBitmapIno = 0 ∧ ∃ s₁ s₂,
    Run (PageStep pageBlocks freeInodeBitmapIno) twoPageLebs [.obtained 0 [0]] s₁ ∧
    readCreatePage pageBlocks freeInodeBitmapIno 1 s₁ = .ok [1] s₂ :=
  ⟨mounted_twoPageLebs, rfl, run_twoPageLebs⟩

end Emmcfs.PagedFile
