import EmmcfsModel.Fsm.Mount
import EmmcfsModel.Fsm.Theorems.Assertions

namespace Emmcfs

section Below

variable {fsm fsm' : FsmInfo} {s : Finset Nat}

theorem fsmFreeBlockChunk_offers (h : fsm.Offers s) (hb : fsm.lengthInBytes ≤ 2 ^ 29)
    (ha : fsm.Allocated blockOffset length) :
    (fsmFreeBlockChunk blockOffset length).wp
      (fun _ fsm' => fsm'.Offers (Finset.Ico blockOffset (blockOffset + length) ∪ s) ∧
        fsm.SameVolume fsm') (fun _ _ => True) True fsm := by
  have hin := ha.inside
  have hd : Disjoint (Finset.Ico blockOffset (blockOffset + length)) s := by
    refine Finset.disjoint_left.mpr fun x hx hs => ?_
    obtain ⟨hlo, hhi⟩ := Finset.mem_Ico.mp hx
    have := (mem_clearBits.mp (h.clear hs)).right
    simp [ha.used x hlo hhi] at this
  simp only [fsmFreeBlockChunk, Code.wp_bind, Code.wp_get, Code.wp_modify, Code.wp_haltOn,
    implies_true, true_and]
  refine fun _ => Code.wp_mono (freeBits_spec (by omega)) ?_ (fun _ _ _ => trivial) fun _ => trivial
  rintro _ _ ⟨data, rfl, hdata⟩
  refine ⟨⟨fsmBtreeFree_holds h.holds ha.length_pos hd, fun x hx => ?_⟩, ⟨rfl, rfl⟩, rfl⟩
  rw [mem_clearBits, hdata]
  rcases Finset.mem_union.mp hx with hx | hx
  · have hx := Finset.mem_Ico.mp hx
    exact ⟨by dsimp only; omega, by simp [hx]⟩
  · obtain ⟨hlt, hc⟩ := mem_clearBits.mp (h.clear hx)
    exact ⟨hlt, by simp [hc]⟩

-- All blocks on offer are among the first `n` ones.
structure FsmInfo.Below (n : Nat) (fsm : FsmInfo) : Prop where
  bytes  : fsm.lengthInBytes ≤ 2 ^ 29
  offers : ∃ s, fsm.Offers s ∧ ∀ x ∈ s, x < n

theorem FsmInfo.StepBelow.below (h : fsm.Below n) (hs : fsm.StepBelow n call fsm') :
    fsm'.Below n ∧ ∀ blockOffset length result, call = .getFreeBlock blockOffset length result →
      result ≠ 0 → result + length ≤ n := by
  obtain ⟨hb, s, ho, hn⟩ := h
  obtain ⟨hs, hf⟩ := hs
  have hfree {blockOffset length : Nat} (ha : fsm.Allocated blockOffset length)
      (hle : blockOffset + length ≤ n) (hc : fsmFreeBlockChunk blockOffset length fsm = .ok () fsm') :
      fsm'.Below n := by
    obtain ⟨ho', hv⟩ := Code.wp_ok (fsmFreeBlockChunk_offers ho hb ha) hc
    refine ⟨hv.bytes ▸ hb, _, ho', fun x hx => ?_⟩
    rcases Finset.mem_union.mp hx with hx | hx
    · have := Finset.mem_Ico.mp hx
      omega
    · exact hn x hx
  cases hs
  case getFreeBlock blockOffset length result hc =>
    cases Code.wp_ok (fsmGetFreeBlock_gives blockOffset length ho) hc
    case nothing => exact ⟨⟨hb, s, ho, hn⟩, by rintro _ _ _ ⟨⟩ hne; exact absurd rfl hne⟩
    case blocks hr hsub hv ho' =>
      refine ⟨⟨hv.bytes ▸ hb, _, ho', fun x hx => hn x (Finset.mem_sdiff.mp hx).left⟩, ?_⟩
      rintro _ _ _ ⟨⟩ _
      exact add_le_of_subset hr hsub hn
  case putFreeBlock ha hc      => exact ⟨hfree ha hf hc, nofun⟩
  case freeExttreeExtent ha hc => exact ⟨hfree ha hf hc, nofun⟩

theorem FsmInfo.Below.allocatesBelow (h : fsm.Below n) : fsm.AllocatesBelow n := by
  intro calls fsm' hr
  induction hr
  case nil => nofun
  case cons hs _ ih =>
    obtain ⟨h', hc⟩ := hs.below h
    intro blockOffset length result hm hne
    rcases List.mem_cons.mp hm with hm | hm
    · exact hc _ _ _ hm.symm hne
    · exact ih h' _ _ _ hm hne

-- Requests for one block after the other come to every block that is on offer.
theorem exists_run_to (hf : fsm.Fits) (ht : 2 ≤ fsm.totalBlocks) (ho : fsm.Offers s) (hx : x ∈ s) :
    ∃ calls fsm', Run (FsmInfo.StepBelow n) fsm calls fsm' ∧ .getFreeBlock 0 1 x ∈ calls := by
  induction hc : s.card generalizing s fsm
  case zero => simp [Finset.card_eq_zero.mp hc] at hx
  case succ c ih =>
    have hg := fsmGetFreeBlock_gives 0 1 ho
    obtain ⟨r, fsm', hok, hg⟩ := Code.wp_returns (Code.wp_mono hg (fun _ _ => id) (fun _ _ => id)
      fun hn => hn hf)
    have hs : fsm.StepBelow n (.getFreeBlock 0 1 r) fsm' := ⟨.getFreeBlock hok, trivial⟩
    cases hg
    case nothing hn =>
      -- a block on offer is in a chunk
      obtain ⟨key, hk, hm⟩ := (ho.holds.parts.mem_iff x).mp hx
      rcases hn with hn | hn
      · rw [u64_of_lt (by decide)] at hn
        omega
      · have := hn key hk
        have := FsmBtreeKey.mem_blocks.mp hm
        omega
    case blocks hr hsub hv ho' =>
      by_cases he : r = x
      case pos => exact ⟨_, _, .cons hs .nil, by simp [he]⟩
      case neg =>
        have hf' : fsm'.Fits := by
          obtain ⟨hb, hp⟩ := hf
          exact ⟨hv.bytes ▸ hb, by rwa [hv.bytes, hv.pages]⟩
        rw [Nat.Ico_succ_singleton] at ho' hsub
        have hcard : (s \ {r}).card = c := by
          rw [Finset.card_sdiff_of_subset hsub, hc, Finset.card_singleton, Nat.add_sub_cancel]
        obtain ⟨calls, fsm'', hrun, hm⟩ := ih hf' (hv.total ▸ ht) ho' (by simp [hx, Ne.symm he]) hcard
        exact ⟨_, fsm'', .cons hs hrun, List.mem_cons_of_mem _ hm⟩

end Below

section Mount

variable {sb : BitmapInfo} {data : Nat → BitVec 32} {fsm : FsmInfo}

theorem BitmapInfo.padded_of_dvd (hc : 1 ≤ sb.lebsBmBlocksCount) (hb : 8 ∣ sb.lebsBmBitsInLastBlock) :
    sb.Padded data := by
  intro x hn hx
  have hsub : u64Sub sb.lebsBmBlocksCount 1 ≤ sb.lebsBmBlocksCount - 1 := by
    simp only [u64Sub, u64]
    omega
  have hlen : sb.lengthInBytes ≤ (sb.lebsBmBlocksCount - 1) * 2 ^ sb.blockSize.shift +
      (sb.lebsBmBitsInLastBlock + 7) / 8 := by
    calc sb.lengthInBytes
      _ ≤ u64Sub sb.lebsBmBlocksCount 1 * 2 ^ sb.blockSize.shift +
          u32 (sb.lebsBmBitsInLastBlock + 7) >>> 3 :=
        (Nat.mod_le ..).trans ((Nat.mod_le ..).trans (Nat.add_le_add_right (Nat.mod_le ..) _))
      _ ≤ _ := by
        rw [Nat.shiftRight_eq_div_pow]
        exact Nat.add_le_add (Nat.mul_le_mul_right _ hsub) (Nat.div_le_div_right (Nat.mod_le ..))
  rw [describedBlocks] at hn
  omega

theorem fsmBuildManagement_manages (hm : fsmBuildManagement sb data = .ok () fsm) :
    fsm.data = data ∧ fsm.lengthInBytes = sb.lengthInBytes ∧
      fsm.Manages (clearBits data (8 * sb.lengthInBytes)) := by
  have h : (Code.onFail fsmGetTree fun _ => pure ()).wp (fun _ fsm => fsm.data = data ∧
      fsm.lengthInBytes = sb.lengthInBytes ∧ fsm.Manages (clearBits data (8 * sb.lengthInBytes)))
      (fun _ _ => False) False (sb.fsmInfo data) := by
    rw [Code.wp_onFail]
    exact Code.wp_mono (fsmGetTree_spec rfl (u32_lt _)) (fun _ _ => id) (fun _ _ => False.elim) id
  exact (Code.wp_of_ok hm).mp h

-- Whether the blocks that are handed out after the mount are blocks of the volume depends on the bits
-- that fill the last byte of the bitmap up. There are none if its number of bits fits into bytes.
theorem allocatesBelow_of_mount (hc : 1 ≤ sb.lebsBmBlocksCount)
    (hm : fsmBuildManagement sb data = .ok () fsm) :
    (sb.lengthInBytes ≤ 2 ^ 29 → sb.Padded data → fsm.AllocatesBelow sb.describedBlocks) ∧
    (fsm.Fits → 2 ≤ fsm.totalBlocks → fsm.AllocatesBelow sb.describedBlocks → sb.Padded data) ∧
    (8 ∣ sb.lebsBmBitsInLastBlock → sb.Padded data) := by
  obtain ⟨hd, hl, h⟩ := fsmBuildManagement_manages hm
  refine ⟨fun hb hp => ?_, fun hf ht ha x hn hx => ?_, BitmapInfo.padded_of_dvd hc⟩
  · have hbelow : fsm.Below sb.describedBlocks := by
      refine ⟨hl ▸ hb, _, h.offers, fun x hx => ?_⟩
      obtain ⟨hlt, hclear⟩ := mem_clearBits.mp hx
      by_contra hn
      simp [hp x (by omega) hlt] at hclear
    exact hbelow.allocatesBelow
  · by_contra hclear
    have hmem := mem_clearBits.mpr ⟨hx, Bool.not_eq_true _ ▸ hclear⟩
    obtain ⟨calls, fsm', hr, hm⟩ := exists_run_to (n := sb.describedBlocks) hf ht h.offers hmem
    have hne : x ≠ 0 := by
      rintro rfl
      have hbits : sb.lebsBmBitsInLastBlock = 0 := by
        rw [BitmapInfo.describedBlocks] at hn
        omega
      exact hclear (BitmapInfo.padded_of_dvd hc ⟨0, hbits⟩ 0 hn hx)
    have := ha calls fsm' hr 0 1 x hm hne
    omega

-- A bitmap of three blocks, all in use; the other bits are clear.
def threeBlocks : BitmapInfo where
  blockSize             := .page
  lebsBmBlocksCount     := 1
  lebsBmBitsInLastBlock := 3
  totalLebCount         := 3
  logBlocksInLeb        := 0

theorem allocatesBelow_of_mount_threeBlocks :
    ∃ fsm, fsmBuildManagement threeBlocks (fun _ => 0xFF#32) = .ok () fsm ∧
      fsm.AllocatesBelow 3 := by
  have hm : ∃ fsm, fsmBuildManagement threeBlocks (fun _ => 0xFF#32) = .ok () fsm := ⟨_, rfl⟩
  obtain ⟨fsm, hm⟩ := hm
  have hp : ∀ x < 8, 3 ≤ x → testBit (fun _ => 0xFF#32) x := by decide
  exact ⟨fsm, hm, (allocatesBelow_of_mount (by decide) hm).left (by decide) fun x hn hx => hp x hx hn⟩

-- The first request gets the block behind the last one.
theorem not_allocatesBelow_threeBlocks :
    ∃ fsm fsm', fsmBuildManagement threeBlocks (fun _ => 0x07#32) = .ok () fsm ∧
      fsmGetFreeBlock 1 1 fsm = .ok 3 fsm' ∧ ¬3 + 1 ≤ threeBlocks.describedBlocks :=
  ⟨_, _, rfl, rfl, by decide⟩

end Mount

end Emmcfs
