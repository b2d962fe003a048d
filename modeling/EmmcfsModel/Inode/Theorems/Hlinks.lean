import EmmcfsModel.Inode.Hlinks
import EmmcfsModel.Inode.Theorems.Numbers
import Mathlib.Data.Set.Lattice
import Mathlib.Order.CompletePartialOrder

namespace Emmcfs.BitmapFile

open Code Function

variable {s s' : BitmapFile}

section Layout

variable {i j : Nat}

theorem hlinkValuePage_eq (h : i < 2 ^ 31) :
    hlinkValuePage i = (8193 * (i / 32768) + 1 + i % 32768 / 4, 1024 * (i % 4)) := by
  have hc : u32 (i >>> logBitsPerPage) = i / 32768 := (split_number (by omega)).left
  simp only [hlinkValuePage, hc]
  simp only [Nat.shiftLeft_eq, Nat.shiftRight_eq_div_pow, Prod.mk.injEq]
  simp only [logBitsPerPage, logHlinksPerPage, logOneHlinkDataSz, pageCacheShift, bitsPerPage_eq]
  omega

theorem hlinkValuePage_ne_bitmap (h : i < 2 ^ 31) (c : Nat) : (hlinkValuePage i).1 ≠ 8193 * c := by
  rw [hlinkValuePage_eq h]
  simp only
  omega

theorem hlinkValuePage_apart (h : i < 2 ^ 31) (h' : j < 2 ^ 31) (hne : i ≠ j)
    (hp : (hlinkValuePage i).1 = (hlinkValuePage j).1) :
    (hlinkValuePage i).2 + 1024 ≤ (hlinkValuePage j).2 ∨
      (hlinkValuePage j).2 + 1024 ≤ (hlinkValuePage i).2 := by
  rw [hlinkValuePage_eq h, hlinkValuePage_eq h'] at hp ⊢
  simp only at hp ⊢
  omega

theorem disjoint_hlinkSlot (h : i < 2 ^ 31) (h' : j < 2 ^ 31) (hne : i ≠ j) :
    Disjoint (hlinkSlot i) (hlinkSlot j) := by
  refine Set.disjoint_left.mpr fun ⟨p, b⟩ ⟨hp, h₁, h₂⟩ ⟨hp', h₁', h₂'⟩ => ?_
  have := hlinkValuePage_apart h h' hne (hp.symm.trans hp')
  simp only at h₁ h₂ h₁' h₂'
  omega

end Layout

section Bits

theorem testBit_copyBits {page start len data i : Nat} : (copyBits page start len data).testBit i =
    if start ≤ i ∧ i < start + len then data.testBit (i - start) else page.testBit i := by
  simp only [copyBits, Nat.testBit_or, Nat.testBit_mod_two_pow, Nat.testBit_shiftLeft,
    Nat.testBit_shiftRight]
  by_cases h₁ : start ≤ i
  case pos =>
    by_cases h₂ : i < start + len
    case pos =>
      simp [h₁, h₂, show ¬i < start by omega, show i - start < len by omega,
        show ¬start + len ≤ i by omega]
    case neg =>
      simp [h₁, h₂, show ¬i < start by omega, show ¬i - start < len by omega,
        show start + len ≤ i by omega]
  case neg =>
    simp [h₁, show i < start by omega, show ¬start + len ≤ i by omega]

theorem testBit_hlinkRecord : (s.hlinkRecord i).testBit b = (decide (b < 8 * 1024) &&
    (s.pages.get (hlinkValuePage i).1).testBit (8 * (hlinkValuePage i).2 + b)) := by
  rw [hlinkRecord, Nat.testBit_mod_two_pow, Nat.testBit_shiftRight]

end Bits

section Obtain

theorem wp_tryPage (hq : ∀ s', s.Same s' → Q (some (s.pages.get p)) s')
    (hn : ∀ s', s.Same s' → Q none s') : wp (tryPage p) Q E H s := by
  rw [tryPage, readCreatePage, wp_onFail, wp_bind, wp_bind]
  refine wp_request (fun s₁ h₁ => ?_) fun _ s₁ h₁ => hn s₁ h₁
  rw [wp_gets, wp_pure, h₁.pages]
  exact hq s₁ h₁

theorem wp_bugOnRequest (hq : ∀ s', s.Same s' → Q () s') : wp bugOnRequest Q E True s :=
  wp_onFail.mpr (wp_request hq fun _ _ _ => trivial)

theorem chunk_numbers (hc : c < 2 ^ 16) :
    u64 (u64 (c <<< (logBitsPerPage - logHlinksPerPage)) + c) = 8193 * c ∧
      u64 (c <<< logBitsPerPage) = bitsPerPage * c ∧ u64 (c + 1) = c + 1 := by
  simp only [Nat.shiftLeft_eq, u64, bitsPerPage_eq]
  simp only [logBitsPerPage, logHlinksPerPage, pageCacheShift]
  omega

-- The bit of an id has been set and nothing else has changed.
structure Obtained (s : BitmapFile) (i : Nat) (s' : BitmapFile) : Prop where
  lastUsed : s'.lastUsed = i
  pages    : s'.pages = s.pages.set (8193 * (i / bitsPerPage))
    (s.hlinkBitmap (i / bitsPerPage) ||| 1 <<< (i % bitsPerPage))

theorem Same.hlinkBitmap (h : s.Same s') : s'.hlinkBitmap = s.hlinkBitmap :=
  funext fun c => by rw [BitmapFile.hlinkBitmap, BitmapFile.hlinkBitmap, h.pages]

theorem Same.obtained (h : s.Same s') (ho : s'.Obtained i s'') : s.Obtained i s'' :=
  ⟨ho.lastUsed, by rw [ho.pages, h.pages, h.hlinkBitmap]⟩

-- The first free id from the place of the search on, unless a page cannot be read.
def FirstFrom (s : BitmapFile) (start : Nat) (r : Option Nat) (s' : BitmapFile) : Prop :=
  (r = some invalidHlinkId ∧ s.Same s') ∨
    ∃ i, r = some i ∧ i < 2 ^ 31 ∧ IsLeast (Bitmap.clearFrom bitsPerPage s.hlinkBitmap start) i ∧
      s.Obtained i s'

theorem obtainHlinkIdLoop_spec
    (hm : m ∈ Bitmap.clearFrom bitsPerPage s.hlinkBitmap (bitsPerPage * c + offset))
    (hlt : m < 2 ^ 31) (hf : m < bitsPerPage * (c + fuel)) (ho : offset ≤ bitsPerPage) :
    wp (obtainHlinkIdLoop fuel offset c) (s.FirstFrom (bitsPerPage * c + offset))
      (fun _ _ => False) True s := by
  have hle := hm.left
  induction fuel generalizing c offset s
  case zero =>
    rw [Nat.add_zero] at hf
    omega
  case succ fuel ih =>
    obtain ⟨hp, hid, hc⟩ := chunk_numbers (c := c) (by rw [bitsPerPage_eq] at hle; omega)
    rw [obtainHlinkIdLoop, wp_bind]
    simp only [hp, hid, hc]
    refine wp_tryPage (fun s₁ h₁ => ?_) fun s₁ h₁ => .inl ⟨rfl, h₁⟩
    simp only [show s.pages.get (8193 * c) = s.hlinkBitmap c from rfl]
    generalize hres : findNextZeroBit (s.hlinkBitmap c) (bitsPerPage - offset) offset = res
    refine wp_ite.mpr ⟨fun hb => ?_, fun hb => ?_⟩
    case refine_1 =>
      have hleast := Bitmap.isLeast_of_found hres hb
      have hi := (hleast.right hm).trans_lt hlt
      have hu : u64 (res + bitsPerPage * c) = bitsPerPage * c + res := by
        rw [Nat.add_comm]
        exact u64_of_lt (by omega)
      rw [wp_bind]
      refine wp_bugOnRequest fun s₂ h₂ => ?_
      rw [wp_bind, wp_haltOn, wp_bind, wp_modify]
      refine ⟨fun _ => trivial, fun _ => ?_⟩
      rw [hu, if_neg (by rw [invalidHlinkId]; omega)]
      refine .inr ⟨_, rfl, hi, hleast, rfl, ?_⟩
      rw [Nat.mul_add_div (by decide), Nat.div_eq_of_lt hb, Nat.add_zero, Nat.mul_add_mod,
        Nat.mod_eq_of_lt hb, (h₁.trans h₂).pages]
    case refine_2 =>
      have hnext := Bitmap.clearFrom_of_not_found hres hb ho
      have hstart : bitsPerPage * (c + 1) = bitsPerPage * (c + 1) + 0 := rfl
      rw [hnext, hstart, ← h₁.hlinkBitmap] at hm
      refine wp_imp (ih hm ?_ (Nat.zero_le _) hm.left) (fun r s' h => ?_)
      · rwa [Nat.add_assoc, Nat.add_comm 1]
      · rw [FirstFrom, hnext]
        cases h
        case inl h => exact .inl ⟨h.left, h₁.trans h.right⟩
        case inr h =>
          obtain ⟨i, hr, hlt, hleast, hob⟩ := h
          rw [h₁.hlinkBitmap] at hleast
          exact .inr ⟨i, hr, hlt, hleast, h₁.obtained hob⟩

-- No id is free below the remembered one.
structure HlinkOk (s : BitmapFile) : Prop where
  lt   : s.lastUsed < 2 ^ 31
  used : ∀ i < s.lastUsed, s.hlinkUsed i = true

theorem HlinkOk.obtainHlinkId (h : s.HlinkOk) (hf : s.hasFreeHlink) :
    wp obtainHlinkId (s.FirstFrom s.lastUsed) (fun _ _ => False) True s := by
  obtain ⟨m, hlt, hfree⟩ := hf
  have hmod := Nat.div_add_mod s.lastUsed bitsPerPage
  have hle : s.lastUsed ≤ m := by
    refine Nat.le_of_not_lt fun hm => ?_
    rw [h.used m hm] at hfree
    cases hfree
  have hfuel : m < bitsPerPage * (s.lastUsed / bitsPerPage + 2 ^ 16) := by
    rw [bitsPerPage_eq, Nat.mul_add, show 32768 * 2 ^ 16 = 2 ^ 31 by decide]
    exact hlt.trans_le (Nat.le_add_left ..)
  have hm : m ∈ Bitmap.clearFrom bitsPerPage s.hlinkBitmap s.lastUsed := ⟨hle, hfree⟩
  rw [← hmod] at hm
  have hspec := obtainHlinkIdLoop_spec hm hlt hfuel (Nat.mod_lt _ (by decide)).le
  rw [hmod] at hspec
  rw [BitmapFile.obtainHlinkId, wp_bind, wp_get, Nat.shiftRight_eq_div_pow]
  exact hspec

end Obtain

section Records

-- The pages with the bits and the pages with the records do not meet.
theorem hlinkRecord_set (h : j < 2 ^ 31) (hp : s'.pages = s.pages.set (8193 * c) v) :
    s'.hlinkRecord j = s.hlinkRecord j := by
  rw [hlinkRecord, hp, Table.get_set_of_ne (hlinkValuePage_ne_bitmap h c), hlinkRecord]

theorem hlinkUsed_set (h : i < 2 ^ 31) (hp : s'.pages = s.pages.set (hlinkValuePage i).1 v) :
    s'.hlinkUsed = s.hlinkUsed := by
  have hb : s'.hlinkBitmap = s.hlinkBitmap := by
    funext c
    rw [hlinkBitmap, hp, Table.get_set_of_ne (hlinkValuePage_ne_bitmap h c).symm, hlinkBitmap]
  funext j
  rw [hlinkUsed, hb, hlinkUsed]

theorem hlinkUsed_change {f : Bool → Bool → Bool} (hf : ∀ a, f a false = a)
    (hp : s'.pages = s.pages.set (8193 * (i / bitsPerPage)) v)
    (hv : ∀ b, v.testBit b =
      f ((s.hlinkBitmap (i / bitsPerPage)).testBit b) (decide (i % bitsPerPage = b))) (j : Nat) :
    s'.hlinkUsed j = f (s.hlinkUsed j) (decide (i = j)) := by
  refine Bitmap.bit_of_change hf (fun b => ?_) (fun c hne => ?_) j
  · rw [hlinkBitmap, hp, Table.get_set_self, hv]
  · rw [hlinkBitmap, hp, Table.get_set_of_ne (by omega), hlinkBitmap]

-- The places of the other ids.
def Others (i : Nat) (s s' : BitmapFile) : Prop :=
  ∀ j < 2 ^ 31, j ≠ i → s'.hlinkUsed j = s.hlinkUsed j ∧ s'.hlinkRecord j = s.hlinkRecord j

theorem Others.trans (h : Others i s s') (h' : Others i s' s'') : Others i s s'' :=
  fun j hj hne =>
    ⟨(h' j hj hne).left.trans (h j hj hne).left, (h' j hj hne).right.trans (h j hj hne).right⟩

theorem Others.hlinks (h : Others i s s') :
    s'.hlinks = update s.hlinks i (s'.hlinks i) := by
  funext j
  by_cases he : j = i
  case pos => rw [he, update_self]
  case neg =>
    rw [update_of_ne he]
    by_cases hj : j < 2 ^ 31
    case pos => rw [BitmapFile.hlinks, BitmapFile.hlinks, (h j hj he).left, (h j hj he).right]
    case neg =>
      rw [BitmapFile.hlinks, BitmapFile.hlinks, if_neg fun h => hj h.left, if_neg fun h => hj h.left]

theorem Same.others (h : s.Same s') : Others i s s' := by
  intro j hj hne
  rw [hlinkUsed, hlinkUsed, h.hlinkBitmap, hlinkRecord, hlinkRecord, h.pages]
  exact ⟨rfl, rfl⟩

theorem hlinks_of_not_used (hu : s.hlinkUsed i = false) : s.hlinks i = none :=
  if_neg (by simp [hu])

theorem hlinks_of_used (hi : i < 2 ^ 31) (hu : s.hlinkUsed i = true) :
    s.hlinks i = some (s.hlinkRecord i) :=
  if_pos ⟨hi, hu⟩

theorem Obtained.hlinkUsed (h : s.Obtained i s') (j : Nat) :
    s'.hlinkUsed j = (s.hlinkUsed j || decide (i = j)) :=
  hlinkUsed_change (by simp) h.pages (fun b => Bitmap.testBit_set ..) j

theorem Obtained.others (h : s.Obtained i s') : Others i s s' := by
  intro j hj hne
  rw [h.hlinkUsed, decide_eq_false (Ne.symm hne), Bool.or_false, hlinkRecord_set hj h.pages]
  exact ⟨rfl, rfl⟩

-- A record of at most 1024 bytes is stored.
structure Stored (s : BitmapFile) (i size data : Nat) (s' : BitmapFile) : Prop where
  lastUsed : s'.lastUsed = s.lastUsed
  pages    : s'.pages = s.pages.set (hlinkValuePage i).1
    (copyBits (s.pages.get (hlinkValuePage i).1) (8 * (hlinkValuePage i).2) (8 * size) data)
  size_le  : size ≤ 1024

theorem stored_copyBits (s : BitmapFile) (i data : Nat) (h : size ≤ 1024) : s.Stored i size data
    { s with pages := s.pages.set (hlinkValuePage i).1 (copyBits
      (s.pages.get (hlinkValuePage i).1) (8 * (hlinkValuePage i).2) (8 * size) data) } :=
  ⟨rfl, rfl, h⟩

theorem Stored.others (h : s.Stored i size data s') (hi : i < 2 ^ 31) : Others i s s' := by
  intro j hj hne
  refine ⟨by rw [hlinkUsed_set hi h.pages], Nat.eq_of_testBit_eq fun b => ?_⟩
  rw [testBit_hlinkRecord, testBit_hlinkRecord, h.pages]
  by_cases hp : (hlinkValuePage j).1 = (hlinkValuePage i).1
  case neg => rw [Table.get_set_of_ne hp]
  case pos =>
    have hap := hlinkValuePage_apart hj hi hne hp
    have hsz := h.size_le
    rw [hp, Table.get_set_self, testBit_copyBits]
    by_cases hb : b < 8 * 1024
    case neg => rw [decide_eq_false hb, Bool.false_and, Bool.false_and]
    case pos => rw [if_neg (by omega)]

theorem Stored.record (h : s.Stored i size data s') :
    s'.hlinkRecord i % 2 ^ (8 * size) = data % 2 ^ (8 * size) := by
  refine Nat.eq_of_testBit_eq fun b => ?_
  rw [Nat.testBit_mod_two_pow, Nat.testBit_mod_two_pow, testBit_hlinkRecord, h.pages,
    Table.get_set_self, testBit_copyBits]
  by_cases hb : b < 8 * size
  case neg => rw [decide_eq_false hb, Bool.false_and, Bool.false_and]
  case pos =>
    have hsz := h.size_le
    rw [if_pos (by omega), decide_eq_true (show b < 8 * 1024 by omega), Nat.add_sub_cancel_left,
      Bool.true_and]

end Records

section Steps

theorem Same.hlinkUsed (h : s.Same s') : s'.hlinkUsed = s.hlinkUsed := by
  funext i
  rw [BitmapFile.hlinkUsed, h.hlinkBitmap, BitmapFile.hlinkUsed]

theorem Same.hlinkOk (h : s.Same s') (hs : s.HlinkOk) : s'.HlinkOk :=
  ⟨h.lastUsed ▸ hs.lt, fun i hi => h.hlinkUsed ▸ hs.used i (h.lastUsed ▸ hi)⟩

theorem Same.hlinks (h : s.Same s') : s'.hlinks = s.hlinks := by
  funext i
  rw [BitmapFile.hlinks, BitmapFile.hlinks, h.hlinkUsed, hlinkRecord, hlinkRecord, h.pages]

-- An id that was free is in use.
structure Taken (s : BitmapFile) (i : Nat) (s' : BitmapFile) : Prop where
  lt     : i < 2 ^ 31
  free   : s.hlinkUsed i = false
  used   : s'.hlinkUsed i = true
  others : Others i s s'
  ok     : s'.HlinkOk

theorem Taken.same (h : s.Taken i s') (hs : s'.Same s'') : s.Taken i s'' where
  lt     := h.lt
  free   := h.free
  used   := by rw [hs.hlinkUsed, h.used]
  others := h.others.trans hs.others
  ok     := hs.hlinkOk h.ok

theorem Taken.stored (h : s.Taken i s') (hs : s'.Stored i size data s'') : s.Taken i s'' where
  lt     := h.lt
  free   := h.free
  used   := by rw [hlinkUsed_set h.lt hs.pages, h.used]
  others := h.others.trans (hs.others h.lt)
  ok     := ⟨hs.lastUsed ▸ h.ok.lt, fun j hj => by
    rw [hlinkUsed_set h.lt hs.pages]
    exact h.ok.used j (hs.lastUsed ▸ hj)⟩

theorem Taken.hlinks (h : s.Taken i s') :
    s.hlinks i = none ∧ s'.hlinks = update s.hlinks i (some (s'.hlinkRecord i)) :=
  ⟨hlinks_of_not_used h.free, hlinks_of_used h.lt h.used ▸ h.others.hlinks⟩

theorem HlinkOk.taken (hs : s.HlinkOk) (h : s.FirstFrom s.lastUsed r s') :
    (r = some invalidHlinkId ∧ s.Same s') ∨ ∃ i, r = some i ∧ s.Taken i s' := by
  refine h.imp_right fun ⟨i, hr, hlt, hleast, hob⟩ =>
    ⟨i, hr, hlt, hleast.left.right, ?_, hob.others, ?_⟩
  · simp [hob.hlinkUsed]
  · refine ⟨hob.lastUsed ▸ hlt, fun j hj => ?_⟩
    rw [hob.lastUsed] at hj
    rw [hob.hlinkUsed, Bool.or_eq_true]
    refine .inl (Bool.of_not_eq_false fun hf => ?_)
    by_cases hl : j < s.lastUsed
    case pos =>
      rw [hs.used j hl] at hf
      cases hf
    case neg => exact Nat.not_le_of_lt hj (hleast.right ⟨Nat.le_of_not_lt hl, hf⟩)

theorem HlinkOk.cloneData (hs : s.HlinkOk) (hf : s.hasFreeHlink) {data : BitVec (8 * size)} :
    wp (cloneDataIntoHlinkArea size data)
      (fun r s' => (r = some invalidHlinkId ∧ (s.Same s' ∨ ∃ i, s.Taken i s')) ∨
        ∃ i, r = some i ∧ s.Taken i s' ∧ s'.hlinkRecord i % 2 ^ (8 * size) = data.toNat)
      (fun _ _ => False) True s := by
  rw [cloneDataIntoHlinkArea, wp_bind]
  refine wp_imp (hs.obtainHlinkId hf) (fun r s₁ h₁ => ?_)
  cases hs.taken h₁
  case inl h =>
    obtain ⟨rfl, hsame⟩ := h
    exact .inl ⟨rfl, .inl hsame⟩
  case inr h =>
    obtain ⟨i, rfl, ht⟩ := h
    have hne : i ≠ invalidHlinkId := by
      have := ht.lt
      rw [invalidHlinkId]
      omega
    simp only [if_neg hne, wp_bind]
    refine wp_tryPage (fun s₂ h₂ => ?_) fun s₂ h₂ => .inl ⟨rfl, .inr ⟨i, ht.same h₂⟩⟩
    rw [wp_bind]
    refine wp_bugOnRequest fun s₃ h₃ => ?_
    rw [wp_bind, wp_haltOn, wp_bind, wp_modify]
    refine ⟨fun _ => trivial, fun hsz => ?_⟩
    have hst := s₃.stored_copyBits i data.toNat (Nat.le_of_not_lt hsz)
    refine .inr ⟨i, rfl, ((ht.same h₂).same h₃).stored hst, ?_⟩
    rw [hst.record, Nat.mod_eq_of_lt data.isLt]

theorem freeHlinkData_spec (hi : i < 2 ^ 31) :
    wp (freeHlinkData i)
      (fun _ s' => s.hlinkUsed i = true ∧
        s'.lastUsed = (if i < s.lastUsed then i else s.lastUsed) ∧
        s'.pages = s.pages.set (8193 * (i / bitsPerPage))
          (s.hlinkBitmap (i / bitsPerPage) ^^^ 1 <<< (i % bitsPerPage)))
      (fun _ s' => s.Same s') True s := by
  have hc : u32 (i >>> logBitsPerPage) = i / bitsPerPage := (split_number (by omega)).left
  have hp : (i / bitsPerPage) <<< (logBitsPerPage - logHlinksPerPage) + i / bitsPerPage =
      8193 * (i / bitsPerPage) := by
    rw [Nat.shiftLeft_eq, show 2 ^ (logBitsPerPage - logHlinksPerPage) = 8192 from rfl]
    omega
  have hid : u64Sub i ((i / bitsPerPage) <<< logBitsPerPage) = i % bitsPerPage := by
    have hmod := Nat.div_add_mod i bitsPerPage
    rw [Nat.shiftLeft_eq, Nat.mul_comm, show 2 ^ logBitsPerPage = bitsPerPage from rfl,
      u64Sub_of_le (by omega) (by omega)]
    omega
  rw [freeHlinkData, hc, hp, hid]
  refine wp_readPage (fun s₁ h₁ => ?_) fun _ _ h => h
  rw [wp_bind, wp_haltOn, wp_modify]
  refine ⟨fun _ => trivial, fun hu => ⟨?_, by rw [h₁.lastUsed], by rw [h₁.pages]; rfl⟩⟩
  exact Bool.of_not_eq_false hu

theorem HlinkStep.record (hs : s.HlinkOk) (h : HlinkStep s call s') :
    s'.HlinkOk ∧ RecordStep s.hlinks call s'.hlinks := by
  cases h
  case obtain i hne hf hret =>
    cases hs.taken (wp_ok (hs.obtainHlinkId hf) hret)
    case inl h => cases h.left; exact absurd rfl hne
    case inr h =>
      obtain ⟨_, ⟨⟩, ht⟩ := h
      exact ⟨ht.ok, ht.hlinks.right ▸ .obtain ht.hlinks.left⟩
  case obtainError hf hret =>
    cases hs.taken (wp_ok (hs.obtainHlinkId hf) hret)
    case inl h => exact ⟨h.right.hlinkOk hs, h.right.hlinks ▸ .error⟩
    case inr h =>
      obtain ⟨_, _, ht⟩ := h
      exact ⟨ht.ok, ht.hlinks.right ▸ .lost ht.hlinks.left⟩
  case clone size data i hne hf hret =>
    cases wp_ok (hs.cloneData hf) hret
    case inl h => cases h.left; exact absurd rfl hne
    case inr h =>
      obtain ⟨_, ⟨⟩, ht, hr⟩ := h
      exact ⟨ht.ok, ht.hlinks.right ▸ .clone ht.hlinks.left hr⟩
  case cloneError hf hret =>
    cases wp_ok (hs.cloneData hf) hret
    case inl h =>
      cases h.right
      case inl h => exact ⟨h.hlinkOk hs, h.hlinks ▸ .error⟩
      case inr h =>
        obtain ⟨i, ht⟩ := h
        exact ⟨ht.ok, ht.hlinks.right ▸ .lost ht.hlinks.left⟩
    case inr h =>
      obtain ⟨_, _, ht, _⟩ := h
      exact ⟨ht.ok, ht.hlinks.right ▸ .lost ht.hlinks.left⟩
  case free i hi hret =>
    obtain ⟨hu, hlast, hp⟩ := wp_ok (freeHlinkData_spec hi) hret
    have hbit := hlinkUsed_change (f := xor) (by simp) hp fun b => Bitmap.testBit_flip ..
    have hnone : s'.hlinks i = none := hlinks_of_not_used (by simp [hbit, hu])
    have hoth : Others i s s' := fun j hj hne => by
      rw [hbit, decide_eq_false (Ne.symm hne), Bool.xor_false, hlinkRecord_set hj hp]
      exact ⟨rfl, rfl⟩
    refine ⟨⟨?_, fun j hj => ?_⟩, hoth.hlinks ▸ hnone ▸ .free (hlinks_of_used hi hu)⟩
    · rw [hlast]
      split
      · exact hi
      · exact hs.lt
    · have hj : j < s.lastUsed ∧ j ≠ i := by
        rw [hlast] at hj
        split at hj <;> omega
      rw [hbit, decide_eq_false (Ne.symm hj.right), Bool.xor_false]
      exact hs.used j hj.left
  case freeError hi hret =>
    have h := wp_error (freeHlinkData_spec hi) hret
    exact ⟨h.hlinkOk hs, h.hlinks ▸ .error⟩

end Steps

-- The ids in use are different because a record is only put where there is none.
theorem nodup_put {m : Nat → Option Nat} (hm : m i = none) (hl : ∀ j ∈ ids, m j ≠ none)
    (hn : ids.Nodup) : (∀ j ∈ i :: ids, update m i (some r) j ≠ none) ∧ (i :: ids).Nodup := by
  refine ⟨fun j hj => ?_, List.nodup_cons.mpr ⟨fun hi => hl i hi hm, hn⟩⟩
  by_cases he : j = i
  case pos => simp [he]
  case neg =>
    rw [update_of_ne he]
    exact hl j (List.mem_of_ne_of_mem he hj)

theorem RecordStep.nodup (h : RecordStep m call m') (hl : ∀ i ∈ ids, m i ≠ none) (hn : ids.Nodup) :
    (∀ i ∈ liveAfter ids call, m' i ≠ none) ∧ (liveAfter ids call).Nodup := by
  cases h
  case obtain hm   => exact nodup_put hm hl hn
  case clone _ hm  => exact nodup_put hm hl hn
  case free r i hm =>
    refine ⟨fun j hj => ?_, hn.erase i⟩
    obtain ⟨hne, hj⟩ := hn.mem_erase_iff.mp hj
    rw [update_of_ne hne]
    exact hl j hj
  case lost hm =>
    exact ⟨fun j hj => (nodup_put hm hl hn).left j (List.mem_cons_of_mem _ hj), hn⟩
  case error => exact ⟨hl, hn⟩

theorem nodup_of_run (hr : Run RecordStep m calls m') (hl : ∀ i ∈ ids, m i ≠ none)
    (hn : ids.Nodup) : (calls.foldl liveAfter ids).Nodup := by
  induction hr generalizing ids
  case nil          => exact hn
  case cons hs _ ih => exact ih (hs.nodup hl hn).left (hs.nodup hl hn).right

-- Whatever is obtained, stored and freed, the ids in use are different, their slots are apart from
-- each other and from the bitmaps, and the file behaves as a map from ids to records.
theorem hlinks_apart (hm : s₀.lastUsed = 0) (hr : Run HlinkStep s₀ calls s) :
    (liveIds calls).Nodup ∧ Run RecordStep s₀.hlinks calls s.hlinks ∧
      (∀ i < 2 ^ 31, ∀ j < 2 ^ 31, i ≠ j → Disjoint (hlinkSlot i) (hlinkSlot j)) ∧
      ∀ i < 2 ^ 31, ∀ place ∈ hlinkSlot i, place.2 < 4096 ∧ ∀ c, place.1 ≠ 8193 * c := by
  have hs : s₀.HlinkOk := ⟨by rw [hm]; decide, fun i hi => by omega⟩
  obtain ⟨_, hrec, _, rfl⟩ : ∃ m, Run RecordStep s₀.hlinks calls m ∧ s.HlinkOk ∧ m = s.hlinks := by
    refine hr.simulates (R := fun s m => s.HlinkOk ∧ m = s.hlinks) ?_ ⟨hs, rfl⟩
    rintro s call s' _ ⟨hs, rfl⟩ hstep
    obtain ⟨hok, hrec⟩ := hstep.record hs
    exact ⟨_, hrec, hok, rfl⟩
  refine ⟨nodup_of_run hrec (by simp) .nil, hrec, fun i hi j hj => disjoint_hlinkSlot hi hj, ?_⟩
  rintro i hi ⟨p, b⟩ ⟨hp, h₁, h₂⟩
  refine ⟨?_, fun c => hp ▸ hlinkValuePage_ne_bitmap hi c⟩
  rw [hlinkValuePage_eq hi] at h₂
  simp only at h₂ ⊢
  omega

-- Two records are stored and the first one is freed.
theorem hlinks_apart_two : ∃ s : BitmapFile, s = ⟨[(0, 2), (1, 0xcd * 2 ^ 8192 + 0xab)], 0, []⟩ ∧
    Run RecordStep (⟨[], 0, []⟩ : BitmapFile).hlinks [.clone 0 1 0xab, .clone 1 1 0xcd, .free 0]
      s.hlinks := by
  have h₁ : HlinkStep ⟨[], 0, []⟩ (.clone 0 1 0xab) ⟨[(1, 0xab), (0, 1)], 0, []⟩ :=
    .clone ⟨0, by decide, by decide⟩ (by decide +kernel) (by decide)
  have h₂ : HlinkStep ⟨[(1, 0xab), (0, 1)], 0, []⟩ (.clone 1 1 0xcd)
      ⟨[(1, 0xcd * 2 ^ 8192 + 0xab), (0, 3)], 1, []⟩ :=
    .clone ⟨1, by decide, by decide⟩ (by decide +kernel) (by decide)
  have h₃ : HlinkStep ⟨[(1, 0xcd * 2 ^ 8192 + 0xab), (0, 3)], 1, []⟩ (.free 0)
      ⟨[(0, 2), (1, 0xcd * 2 ^ 8192 + 0xab)], 0, []⟩ :=
    .free (by decide) (by decide +kernel)
  exact ⟨_, rfl, (hlinks_apart rfl (.cons h₁ (.cons h₂ (.cons h₃ .nil)))).right.left⟩

end Emmcfs.BitmapFile
