import EmmcfsModel.Inode.Numbers
import EmmcfsModel.Lib.Run

namespace Emmcfs.BitmapFile

open Code

variable {s s' : BitmapFile}

-- Requests change nothing in the file.
structure Same (s s' : BitmapFile) : Prop where
  pages    : s'.pages = s.pages
  lastUsed : s'.lastUsed = s.lastUsed

theorem Same.trans (h : s.Same s') (h' : s'.Same s'') : s.Same s'' :=
  ⟨h'.pages.trans h.pages, h'.lastUsed.trans h.lastUsed⟩

theorem wp_request (hq : ∀ s', s.Same s' → Q () s') (he : ∀ e s', s.Same s' → E e s') :
    wp request Q E H s := by
  rw [request, wp_bind, wp_get]
  split
  case h_1 => exact hq s ⟨rfl, rfl⟩
  case h_2 o outcomes _ =>
    rw [wp_bind, wp_modify]
    cases o
    case none => exact hq _ ⟨rfl, rfl⟩
    case some => exact he _ _ ⟨rfl, rfl⟩

-- A page is read and added to the transaction.
theorem wp_readPage {m : Nat → Driver BitmapFile α}
    (hq : ∀ s', s.Same s' → wp (m (s.pages.get p)) Q E H s')
    (he : ∀ e s', s.Same s' → E e s') :
    wp (do let data ← readCreatePage p; request; m data) Q E H s := by
  rw [readCreatePage, wp_bind, wp_bind]
  refine wp_request (fun s₁ h₁ => ?_) he
  rw [wp_gets, wp_bind]
  refine wp_request (fun s₂ h₂ => ?_) fun e s₂ h₂ => he e s₂ (h₁.trans h₂)
  rw [h₁.pages]
  exact hq s₂ (h₁.trans h₂)

theorem bitsPerPage_eq : bitsPerPage = 32768 := rfl

-- The bit of `ino` has been set, or cleared.
structure Given (s : BitmapFile) (ino : Nat) (s' : BitmapFile) : Prop where
  lastUsed : s'.lastUsed = ino
  inUse    : ∀ i, s'.inUse i = (s.inUse i || decide (ino = i))

theorem Same.inUse (h : s.Same s') (i : Nat) : s'.inUse i = s.inUse i := by
  rw [BitmapFile.inUse, BitmapFile.inUse, h.pages]

theorem inUse_set (h : s.Same s') (hb : b < bitsPerPage) (i : Nat) :
    inUse { s' with
      pages    := s'.pages.set p (s.pages.get p ||| 1 <<< b)
      lastUsed := n } i = (s.inUse i || decide (bitsPerPage * p + b = i)) := by
  have hq : (bitsPerPage * p + b) / bitsPerPage = p := by
    rw [Nat.mul_add_div (by decide), Nat.div_eq_of_lt hb, Nat.add_zero]
  have hr : (bitsPerPage * p + b) % bitsPerPage = b := by
    rw [Nat.mul_add_mod, Nat.mod_eq_of_lt hb]
  refine Bitmap.bit_of_change (f := (· || ·)) (by simp) (fun c => ?_) (fun q hne => ?_) i
  · rw [hq, hr, Table.get_set_self, Bitmap.testBit_set]
  · rw [hq] at hne
    rw [Table.get_set_of_ne hne, h.pages]

-- If a number below 2 ^ 32 is free, the loop finds the first one.
theorem getFreeInodeLoop_spec (hm : m ∈ Bitmap.clearFrom bitsPerPage s.pages.get
      (bitsPerPage * p + offset)) (hlt : m < 2 ^ 32) (hf : m < bitsPerPage * (p + fuel))
    (hfirst : firstFileIno ≤ bitsPerPage * p + offset) (ho : offset ≤ bitsPerPage) :
    wp (getFreeInodeLoop fuel p (bitsPerPage * p) offset)
      (fun r s' => ∃ ino, r = some ino ∧
        IsLeast (Bitmap.clearFrom bitsPerPage s.pages.get (bitsPerPage * p + offset)) ino ∧
        s.Given ino s')
      (fun _ s' => s.Same s') False s := by
  have hle := hm.left
  induction fuel generalizing p offset s
  case zero =>
    rw [Nat.add_zero] at hf
    omega
  case succ fuel ih =>
    rw [getFreeInodeLoop]
    refine wp_readPage (fun s₁ h₁ => wp_ite.mpr ⟨fun hb => ?_, fun hb => ?_⟩) fun _ _ h => h
    case refine_1 =>
      have hleast := Bitmap.isLeast_of_found rfl hb
      have hfree := hleast.left.right
      rw [Bitmap.bit_page hb] at hfree
      have hge := hleast.left.left
      rw [wp_bind, wp_haltOn, wp_bind, wp_haltOn, wp_bind, wp_modify]
      refine ⟨by omega, fun _ => ⟨by simp [hfree], fun _ => ?_⟩⟩
      rw [if_neg (by unfold firstFileIno at hfirst; omega), Nat.add_comm]
      exact ⟨_, rfl, hleast, rfl, inUse_set h₁ hb⟩
    case refine_2 =>
      have hnext := Bitmap.clearFrom_of_not_found rfl hb ho
      rw [hnext] at hm ⊢
      have hle : bitsPerPage * (p + 1) ≤ m := hm.left
      have hp : u32 (p + 1) = p + 1 := u32_of_lt (by rw [bitsPerPage_eq] at hle; omega)
      have hid : u32 ((p + 1) <<< logBitsPerPage) = bitsPerPage * (p + 1) := by
        rw [Nat.shiftLeft_eq, Nat.mul_comm]
        exact u32_of_lt (hle.trans_lt hlt)
      simp only [hp, hid]
      rw [← h₁.pages] at hm
      have hf : m < bitsPerPage * (p + 1 + fuel) := by
        rwa [Nat.add_assoc, Nat.add_comm 1]
      refine wp_mono (ih hm hf ?_ (Nat.zero_le _) hle) ?_ (fun _ _ h => h₁.trans h) id
      · rw [Nat.mul_add_one]
        omega
      · rintro _ s' ⟨ino, rfl, hleast, hg⟩
        rw [h₁.pages] at hleast
        exact ⟨ino, rfl, hleast, hg.lastUsed, fun i => by rw [hg.inUse, h₁.inUse]⟩

-- The page, the position in it and the first number of it, as the functions compute them.
theorem split_number (h : n < 2 ^ 32) :
    u32 (n >>> logBitsPerPage) = n / bitsPerPage ∧
      u32 (n - n % bitsPerPage) = bitsPerPage * (n / bitsPerPage) ∧
      u64Sub n (u32 (n - n % bitsPerPage)) = n % bitsPerPage := by
  have hid : n - n % bitsPerPage = bitsPerPage * (n / bitsPerPage) := by
    have := Nat.div_add_mod n bitsPerPage
    omega
  have hle : bitsPerPage * (n / bitsPerPage) ≤ n := Nat.mul_div_le ..
  rw [hid, u32_of_lt (hle.trans_lt h)]
  refine ⟨?_, rfl, ?_⟩
  · rw [Nat.shiftRight_eq_div_pow]
    exact u32_of_lt ((Nat.div_le_self ..).trans_lt h)
  · rw [u64Sub_of_le hle (by omega), ← hid]
    have := Nat.mod_le n bitsPerPage
    omega

-- The remembered number: no number of a file is free below it.
structure Ok (s : BitmapFile) : Prop where
  ge  : firstFileIno ≤ s.lastUsed
  lt  : s.lastUsed < 2 ^ 32
  set : ∀ i, firstFileIno ≤ i → i < s.lastUsed → s.inUse i = true

theorem Ok.freeInos (h : s.Ok) :
    s.freeInos = Bitmap.clearFrom bitsPerPage s.pages.get s.lastUsed := by
  ext i
  refine ⟨fun hi => ⟨Nat.le_of_not_lt fun hlt => ?_, hi.right⟩, fun hi =>
    ⟨h.ge.trans hi.left, hi.right⟩⟩
  have hfree := hi.right
  rw [h.set i hi.left hlt] at hfree
  cases hfree

theorem Ok.getFreeInode (h : s.Ok) (hb : ∃ i ∈ s.freeInos, i < 2 ^ 32) :
    wp getFreeInode (fun r s' => ∃ ino, r = some ino ∧ IsLeast s.freeInos ino ∧ s.Given ino s')
      (fun _ s' => s.Same s') False s := by
  obtain ⟨m, hm, hlt⟩ := hb
  obtain ⟨h₁, h₂, h₃⟩ := split_number h.lt
  have hmod := Nat.div_add_mod s.lastUsed bitsPerPage
  rw [h.freeInos] at hm ⊢
  rw [BitmapFile.getFreeInode, wp_bind, wp_get]
  simp only [h₃]
  rw [h₁, h₂]
  rw [← hmod] at hm
  have hf : m < bitsPerPage * (s.lastUsed / bitsPerPage + 2 ^ 17) := by
    rw [bitsPerPage_eq, Nat.mul_add, show 32768 * 2 ^ 17 = 2 ^ 32 by decide]
    exact hlt.trans_le (Nat.le_add_left ..)
  have hspec := getFreeInodeLoop_spec hm hlt hf (hmod.symm ▸ h.ge) (Nat.mod_lt _ (by decide)).le
  rwa [hmod] at hspec

theorem freeInodeN_spec (hlt : ino < 2 ^ 32) :
    wp (freeInodeN ino)
      (fun _ s' => s'.lastUsed = (if ino < s.lastUsed then ino else s.lastUsed) ∧
        ∀ i, s'.inUse i = (s.inUse i ^^ decide (ino = i)))
      (fun _ s' => s.Same s') (s.inUse ino = false) s := by
  obtain ⟨h₁, h₂, h₃⟩ := split_number hlt
  rw [freeInodeN]
  rw [h₁, h₃]
  refine wp_readPage (fun s₁ h₁ => ?_) fun _ _ h => h
  rw [wp_bind, wp_haltOn, wp_modify]
  refine ⟨fun hf => hf, fun _ => ⟨by rw [h₁.lastUsed], fun i => ?_⟩⟩
  refine Bitmap.bit_of_change (f := xor) (by simp) (fun c => ?_) (fun q hne => ?_) i
  · rw [Table.get_set_self, Bitmap.testBit_flip]
  · rw [Table.get_set_of_ne hne, h₁.pages]

theorem Same.ok (h : s.Same s') (hs : s.Ok) : s'.Ok := by
  refine ⟨h.lastUsed ▸ hs.ge, h.lastUsed ▸ hs.lt, fun i hi hlt => ?_⟩
  rw [h.inUse, hs.set i hi (h.lastUsed ▸ hlt)]

theorem InoStep.ok (hs : s.Ok) (hstep : InoStep s call s') : s'.Ok := by
  cases hstep
  case get ino hb hret =>
    obtain ⟨_, he, hleast, hg⟩ := wp_ok (hs.getFreeInode hb) hret
    cases he
    refine ⟨hg.lastUsed ▸ hleast.left.left, ?_, fun i hi hlt => ?_⟩
    · obtain ⟨m, hm, hlt⟩ := hb
      exact hg.lastUsed ▸ (hleast.right hm).trans_lt hlt
    · rw [hg.inUse, Bool.or_eq_true]
      refine .inl (Bool.of_not_eq_false fun hf => ?_)
      exact Nat.not_le_of_lt (hg.lastUsed ▸ hlt) (hleast.right ⟨hi, hf⟩)
  case getError hb hret => exact (wp_error (hs.getFreeInode hb) hret).ok hs
  case free ino hge hlt hu hret =>
    obtain ⟨hlast, hbits⟩ := wp_ok (freeInodeN_spec hlt) hret
    have := hs.ge
    have := hs.lt
    refine ⟨by rw [hlast]; split <;> omega, by rw [hlast]; split <;> omega, fun i hi hil => ?_⟩
    have hi : i < s.lastUsed ∧ i ≠ ino := by
      rw [hlast] at hil
      split at hil <;> omega
    rw [hbits, decide_eq_false (Ne.symm hi.right), Bool.xor_false]
    exact hs.set i ‹_› hi.left
  case freeError hge hlt hu hret => exact (wp_error (freeInodeN_spec hlt) hret).ok hs

end Emmcfs.BitmapFile
