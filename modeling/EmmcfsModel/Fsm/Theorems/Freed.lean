import EmmcfsModel.Fsm.Theorems.Release

namespace Emmcfs

open Code

-- The blocks were in use, there is no block among them twice, and now they are free.
structure FsmInfo.Freed (blocks : List Nat) (fsm fsm' : FsmInfo) : Prop where
  nodup   : blocks.Nodup
  used    : ∀ x ∈ blocks, testBit fsm.data x
  bits    : ∀ x, testBit fsm'.data x = (testBit fsm.data x && decide (x ∉ blocks))
  manages : ∀ free, fsm.Manages free → fsm'.Manages (blocks.toFinset ∪ free)
  small   : fsm'.Small
  size    : fsm.SameSize fsm'

namespace FsmInfo.Freed

variable {fsm fsm' fsm'' : FsmInfo}

theorem nil (hsm : fsm.Small) : fsm.Freed [] fsm where
  nodup   := .nil
  used    := by simp
  bits    := by simp
  manages := by simp
  small   := hsm
  size    := ⟨rfl, rfl⟩

-- Blocks that are freed later are others.
theorem append (h' : fsm'.Freed later fsm'') (h : fsm.Freed blocks fsm') :
    fsm.Freed (later ++ blocks) fsm'' where
  nodup := by
    refine List.nodup_append.mpr ⟨h'.nodup, h.nodup, fun x hx y hy he => ?_⟩
    have := h'.used x hx
    simp [h.bits, he, hy] at this
  used x hx := by
    rcases List.mem_append.mp hx with hx | hx
    · have := h'.used x hx
      rw [h.bits, Bool.and_eq_true] at this
      exact this.left
    · exact h.used x hx
  bits x := by
    simp only [h'.bits, h.bits, List.mem_append, not_or, Bool.decide_and, Bool.and_assoc]
    rw [Bool.and_comm (decide (x ∉ blocks))]
  manages free hf := by
    rw [List.toFinset_append, Finset.union_assoc]
    exact h'.manages _ (h.manages free hf)
  small := h'.small
  size  := ⟨h'.size.bytes.trans h.size.bytes, h'.size.pages.trans h.size.pages⟩

end FsmInfo.Freed

section Chunk

variable {fsm : FsmInfo}

-- A call that returns has found all blocks in use.
theorem fsmFreeBlockChunk_allocated (hsm : fsm.Small) (hpos : 0 < blockOffset) (hlen : 0 < length)
    (hin : blockOffset + length ≤ 8 * fsm.lengthInBytes) :
    (fsmFreeBlockChunk blockOffset length).wp (fun _ _ => fsm.Allocated blockOffset length)
      (fun _ _ => True) True fsm := by
  have hb := hsm.bytes
  simp only [fsmFreeBlockChunk, wp_bind, wp_get, wp_modify, wp_haltOn]
  refine ⟨fun _ => trivial, fun _ => ?_⟩
  by_cases hall : ∀ i < length, u32 (blockOffset + i) < fsm.bitLimit ∧
      testBit fsm.data (u32 (blockOffset + i))
  case pos =>
    refine wp_imp wp_trivial (fun _ _ _ => ⟨hpos, hlen, hin, fun x hx hn => ?_⟩)
    obtain ⟨_, ht⟩ := hall (x - blockOffset) (by omega)
    rwa [show blockOffset + (x - blockOffset) = x by omega, u32_of_lt (by omega)] at ht
  case neg =>
    exact wp_mono (freeBits_fails hall) (fun _ _ => False.elim) (fun _ _ _ => trivial) fun _ => trivial

theorem fsmFreeBlockChunk_bits (hx : blockOffset + length ≤ 2 ^ 32) :
    (fsmFreeBlockChunk blockOffset length).wp (fun _ fsm' => fsm.SameSize fsm' ∧
      ∀ x, testBit fsm'.data x =
        (testBit fsm.data x && decide (x ∉ List.range' blockOffset length)))
      (fun _ _ => True) True fsm := by
  simp only [fsmFreeBlockChunk, wp_bind, wp_get, wp_modify, wp_haltOn]
  refine ⟨fun _ => trivial, fun _ => ?_⟩
  refine wp_mono (freeBits_spec hx) ?_ (fun _ _ _ => trivial) fun _ => trivial
  rintro _ _ ⟨data, rfl, hdata⟩
  exact ⟨⟨rfl, rfl⟩, fun x => by simp only [hdata, List.mem_range'_1, decide_not]⟩

theorem fsmFreeBlockChunk_freed (hsm : fsm.Small) (hpos : 0 < blockOffset) (hlen : 0 < length)
    (hin : blockOffset + length ≤ 8 * fsm.lengthInBytes) :
    (fsmFreeBlockChunk blockOffset length).wp
      (fun _ fsm' => fsm.Freed (List.range' blockOffset length) fsm') (fun _ _ => True) True fsm := by
  have hb := hsm.bytes
  refine forall_returned_iff.mp fun _ fsm' hok => ?_
  have ha := wp_ok (fsmFreeBlockChunk_allocated hsm hpos hlen hin) hok
  obtain ⟨hsize, hbits⟩ := wp_ok (fsmFreeBlockChunk_bits (by omega)) hok
  refine ⟨List.nodup_range', fun x hx => ?_, hbits, fun free hm => ?_, ⟨hsize.bytes ▸ hb, ?_⟩, hsize⟩
  · obtain ⟨hx, hn⟩ := List.mem_range'_1.mp hx
    exact ha.used x hx hn
  · rw [List.toFinset_range'_1]
    exact (wp_ok (fsmFreeBlockChunk_spec hm hsm ha) hok).left
  · simp [hbits, hsm.zero, hpos.ne']

end Chunk

end Emmcfs
