import EmmcfsModel.Fsm.Theorems.Chunk

namespace Emmcfs

section Bits

variable {data : Nat → BitVec 32} {x y : Nat}

theorem testBit_setBit : testBit (setBit data x) y = (testBit data y || decide (y = x)) := by
  have hd : y = x ↔ y / 32 = x / 32 ∧ y % 32 = x % 32 := by omega
  simp only [testBit, setBit, hd]
  split <;> simp_all [Nat.mod_lt]

theorem testBit_clearBit : testBit (clearBit data x) y = (testBit data y && !decide (y = x)) := by
  have hd : y = x ↔ y / 32 = x / 32 ∧ y % 32 = x % 32 := by omega
  simp only [testBit, clearBit, hd]
  split <;> simp_all [Nat.mod_lt]

-- The blocks below `n` whose bit is clear.
def clearBits (data : Nat → BitVec 32) (n : Nat) : Finset Nat :=
  (Finset.range n).filter fun x => testBit data x = false

theorem mem_clearBits : x ∈ clearBits data n ↔ x < n ∧ testBit data x = false := by
  simp [clearBits]

theorem card_clearBits_le (data : Nat → BitVec 32) (n : Nat) : (clearBits data n).card ≤ n := by
  have := Finset.card_filter_le (Finset.range n) (testBit data · = false)
  rwa [Finset.card_range] at this

end Bits

-- The free space manager agrees with itself on the free blocks: the chunks of the tree, the clear
-- bits and the counter.
structure FsmInfo.Manages (fsm : FsmInfo) (s : Finset Nat) : Prop where
  holds : fsm.tree.Holds s
  bits  : s = clearBits fsm.data (8 * fsm.lengthInBytes)
  count : fsm.freeBlocksCount = s.card

-- A volume has less than 2 ^ 32 blocks and its first one is not free.
structure FsmInfo.Small (fsm : FsmInfo) : Prop where
  bytes : fsm.lengthInBytes ≤ 2 ^ 29
  zero  : testBit fsm.data 0

section Loops

-- The loop halts only if it comes to a bit outside of the bitmap or one that is set.
theorem takeBits_spec {fsm : FsmInfo} : (takeBits x n).wp
    (fun _ fsm' => ∃ data, fsm' = { fsm with data := data } ∧
      ∀ y, testBit data y = (testBit fsm.data y || decide (x ≤ y ∧ y < x + n)))
    (fun _ _ => False)
    (¬∀ y, x ≤ y → y < x + n → y < fsm.bitLimit ∧ testBit fsm.data y = false) fsm := by
  induction n generalizing x fsm
  case zero =>
    refine ⟨fsm.data, rfl, fun y => ?_⟩
    have : ¬(x ≤ y ∧ y < x + 0) := by omega
    simp only [this, decide_false, Bool.or_false]
  case succ n ih =>
    simp only [takeBits, Code.wp_bind, Code.wp_get, Code.wp_haltOn, Code.wp_modify]
    refine ⟨fun hl hy => ?_, fun hl => ⟨fun ht hy => ?_, fun ht => ?_⟩⟩
    case refine_1 =>
      have := hy x (by omega) (by omega)
      omega
    case refine_2 => exact absurd (hy x le_rfl (by omega)).right (by simp [ht])
    case refine_3 =>
      have hrest (h : ¬∀ y, x + 1 ≤ y → y < x + 1 + n →
          y < fsm.bitLimit ∧ testBit (setBit fsm.data x) y = false) :
          ¬∀ y, x ≤ y → y < x + (n + 1) → y < fsm.bitLimit ∧ testBit fsm.data y = false := by
        refine fun hy => h fun y hx hn => ?_
        have hne : y ≠ x := by omega
        simpa [testBit_setBit, hne] using hy y (by omega) (by omega)
      refine Code.wp_mono ih (fun _ fsm' => ?_) (fun _ _ => id) hrest
      rintro ⟨data, rfl, hd⟩
      refine ⟨data, rfl, fun y => ?_⟩
      rw [hd, testBit_setBit, Bool.or_assoc, ← Bool.decide_or]
      congr 2
      simp only [eq_iff_iff]
      omega

-- The loop ends early only if it comes to a bit outside of the bitmap or one that is clear.
theorem freeBits_spec {fsm : FsmInfo} (hx : x + n ≤ 2 ^ 32) : (freeBits x n).wp
    (fun _ fsm' => ∃ data, fsm' = { fsm with data := data } ∧
      ∀ y, testBit data y = (testBit fsm.data y && !decide (x ≤ y ∧ y < x + n)))
    (fun _ _ => ¬∀ y, x ≤ y → y < x + n → y < fsm.bitLimit ∧ testBit fsm.data y)
    (¬∀ y, x ≤ y → y < x + n → y < fsm.bitLimit ∧ testBit fsm.data y) fsm := by
  induction n generalizing x fsm
  case zero =>
    refine ⟨fsm.data, rfl, fun y => ?_⟩
    have : ¬(x ≤ y ∧ y < x + 0) := by omega
    simp only [this, decide_false, Bool.not_false, Bool.and_true]
  case succ n ih =>
    have hu : u32 x = x := u32_of_lt (by omega)
    have hbad (h : ¬(x < fsm.bitLimit ∧ testBit fsm.data x)) :
        ¬∀ y, x ≤ y → y < x + (n + 1) → y < fsm.bitLimit ∧ testBit fsm.data y :=
      fun hy => h (hy x (by omega) (by omega))
    simp only [freeBits, efaultOrBug, Code.wp_bind, Code.wp_get, Code.wp_ite, Code.wp_modify,
      Code.wp_halt, Code.wp_fail, hu]
    refine ⟨fun hl => ?_, fun hl => ⟨fun ht => ?_, fun ht => ?_⟩⟩
    case refine_1 => exact ⟨fun _ => hbad fun h => by omega, fun _ => hbad fun h => by omega⟩
    case refine_2 => exact ⟨fun _ => hbad fun h => by simp [h] at ht, fun _ => hbad fun h => by simp [h] at ht⟩
    case refine_3 =>
      have hrest (h : ¬∀ y, x + 1 ≤ y → y < x + 1 + n →
          y < fsm.bitLimit ∧ testBit (clearBit fsm.data x) y) :
          ¬∀ y, x ≤ y → y < x + (n + 1) → y < fsm.bitLimit ∧ testBit fsm.data y := by
        refine fun hy => h fun y hx hn => ?_
        have hne : y ≠ x := by omega
        simpa [testBit_clearBit, hne] using hy y (by omega) (by omega)
      refine Code.wp_mono (ih (by omega)) (fun _ fsm' => ?_) (fun _ _ => hrest) hrest
      rintro ⟨data, rfl, hd⟩
      refine ⟨data, rfl, fun y => ?_⟩
      rw [hd, testBit_clearBit, Bool.and_assoc, ← Bool.not_or, ← Bool.decide_or]
      congr 3
      simp only [eq_iff_iff]
      omega

end Loops

section Calls

variable {fsm : FsmInfo} {s : Finset Nat}

theorem FsmInfo.Manages.card_le (h : fsm.Manages s) : s.card ≤ 8 * fsm.lengthInBytes :=
  h.bits ▸ card_clearBits_le ..

-- What a call of emmcfs_fsm_get_free_block does to the free blocks `s`: it fails and changes nothing,
-- or hands out blocks that were free.
inductive FsmInfo.Got (fsm : FsmInfo) (s : Finset Nat) (length : Nat) : Nat → FsmInfo → Prop
  | nothing : Got fsm s length 0 fsm
  | blocks : 0 < r → Finset.Ico r (r + length) ⊆ s →
    fsm'.Manages (s \ Finset.Ico r (r + length)) → fsm'.Small → Got fsm s length r fsm'

theorem fsmGetFreeBlock_spec (blockOffset length : Nat) (h : fsm.Manages s) (hsm : fsm.Small) :
    (fsmGetFreeBlock blockOffset length).wp (fun r fsm' => fsm.Got s length r fsm')
      (fun _ _ => False) True fsm := by
  have hz : 0 ∉ s := by
    rw [h.bits, mem_clearBits]
    simp [hsm.zero]
  simp only [fsmGetFreeBlock, Code.wp_bind, Code.wp_get, Code.wp_ite, Code.wp_pure, Code.wp_modify,
    Code.wp_haltOn, implies_true, true_and]
  refine ⟨fun _ => .nothing, fun _ => ?_⟩
  cases fsmBtreeLookup_holds blockOffset length h.holds
  case inl hl =>
    rw [hl]
    exact ⟨fun _ => .nothing, fun hn => absurd rfl hn⟩
  case inr hl =>
    obtain ⟨btree', r, hl, hsub, hh, key, hk, rfl⟩ := hl
    rw [hl]
    refine ⟨fun h₀ => ?_, fun h₀ _ => Code.wp_mono takeBits_spec ?_ (fun _ _ => id) fun _ => trivial⟩
    · have hpos := h.holds.pos key hk
      have h₀ : key.blockOffset = 0 := h₀
      have hm : 0 ∈ key.blocks := FsmBtreeKey.mem_blocks.mpr (by omega)
      exact absurd (h.holds.parts.subset hk hm) hz
    · rintro _ fsm' ⟨data, rfl, hd⟩
      have hbits : s \ Finset.Ico key.blockOffset (key.blockOffset + length) =
          clearBits data (8 * fsm.lengthInBytes) := by
        ext x
        simp only [h.bits, Finset.mem_sdiff, mem_clearBits, Finset.mem_Ico, hd, Bool.or_eq_false_iff,
          decide_eq_false_iff_not, and_assoc]
      refine .blocks (Nat.pos_of_ne_zero h₀) hsub ⟨hh, hbits, ?_⟩ ⟨hsm.bytes, ?_⟩
      · have hc := h.count
        have hle := h.card_le
        have hb := hsm.bytes
        have hl := Finset.card_le_card hsub
        rw [Nat.card_Ico, Nat.add_sub_cancel_left] at hl
        rw [Finset.card_sdiff_of_subset hsub, Nat.card_Ico, Nat.add_sub_cancel_left, ← hc]
        exact u64Sub_of_le (by omega) (by omega)
      · simp [hd, hsm.zero]

-- Blocks of the volume that are in use, the first one apart.
structure FsmInfo.Allocated (fsm : FsmInfo) (blockOffset length : Nat) : Prop where
  offset_pos : 0 < blockOffset
  length_pos : 0 < length
  inside     : blockOffset + length ≤ 8 * fsm.lengthInBytes
  used       : ∀ x, blockOffset ≤ x → x < blockOffset + length → testBit fsm.data x

theorem FsmInfo.Allocated.disjoint (ha : fsm.Allocated blockOffset length) (h : fsm.Manages s) :
    Disjoint (Finset.Ico blockOffset (blockOffset + length)) s := by
  refine Finset.disjoint_left.mpr fun x hx hs => ?_
  rw [Finset.mem_Ico] at hx
  rw [h.bits, mem_clearBits, ha.used x hx.left hx.right] at hs
  cases hs.right

-- The size of a volume does not change.
structure FsmInfo.SameSize (fsm fsm' : FsmInfo) : Prop where
  bytes : fsm'.lengthInBytes = fsm.lengthInBytes
  pages : fsm'.pageCount = fsm.pageCount

-- fsm_free_block_chunk makes used blocks free. It does so whenever the bitmap is not so long that the
-- number of its bits wraps, and the chunk does not end with the last bit of the last page.
theorem fsmFreeBlockChunk_spec (h : fsm.Manages s) (hsm : fsm.Small)
    (ha : fsm.Allocated blockOffset length) :
    (fsmFreeBlockChunk blockOffset length).wp
      (fun _ fsm' => fsm'.Manages (Finset.Ico blockOffset (blockOffset + length) ∪ s) ∧
        fsm'.Small ∧ fsm.SameSize fsm')
      (fun _ _ => 2 ^ 32 ≤ 8 * fsm.lengthInBytes)
      (fsm.OffPages blockOffset length ∨ 2 ^ 32 ≤ 8 * fsm.lengthInBytes) fsm := by
  have hb := hsm.bytes
  have hin := ha.inside
  have hd := ha.disjoint h
  simp only [fsmFreeBlockChunk, Code.wp_bind, Code.wp_get, Code.wp_modify, Code.wp_haltOn]
  refine ⟨.inl, fun _ => ?_⟩
  have hlong (hbits : ¬∀ y, blockOffset ≤ y → y < blockOffset + length →
      y < fsm.bitLimit ∧ testBit fsm.data y) : 2 ^ 32 ≤ 8 * fsm.lengthInBytes := by
    refine Nat.not_lt.mp fun hlt => hbits fun y hy hn => ⟨?_, ha.used y hy hn⟩
    rw [FsmInfo.bitLimit, Nat.shiftLeft_eq, u32_of_lt (by omega)]
    omega
  refine Code.wp_mono (freeBits_spec (by omega)) ?_ (fun _ _ => hlong) fun hbits => .inr (hlong hbits)
  rintro _ fsm' ⟨data, rfl, hdata⟩
  refine ⟨⟨fsmBtreeFree_holds h.holds ha.length_pos hd, ?_, ?_⟩, ⟨hb, ?_⟩, rfl, rfl⟩
  · ext x
    simp only [h.bits, Finset.mem_union, mem_clearBits, Finset.mem_Ico, hdata,
      Bool.and_eq_false_iff, Bool.not_eq_false', decide_eq_true_eq]
    constructor
    case mp =>
      rintro (hx | hx)
      · exact ⟨by omega, .inr hx⟩
      · exact ⟨hx.left, .inl hx.right⟩
    case mpr =>
      rintro ⟨hx, hc | hc⟩
      · exact .inr ⟨hx, hc⟩
      · exact .inl hc
  · have hle := h.card_le
    have hc := h.count
    rw [Finset.card_union_of_disjoint hd, Nat.card_Ico, Nat.add_sub_cancel_left, ← hc, Nat.add_comm]
    exact u64_of_lt (by omega)
  · have h₀ := ha.offset_pos
    have : ¬(blockOffset ≤ 0 ∧ 0 < blockOffset + length) := by omega
    simp only [hdata, hsm.zero, this, decide_false, Bool.not_false, Bool.and_true]

end Calls

end Emmcfs
