import EmmcfsModel.Fsm.Release
import EmmcfsModel.Fsm.Theorems.Runs

namespace Emmcfs

open Code

section Bits

variable {fsm : FsmInfo}

-- The loop over the bits comes to its end if all of them are set.
theorem freeBits_returns (hn : n ≤ 2 ^ 32) (h : ∀ i < n, u32 (x + i) < fsm.bitLimit ∧
    testBit fsm.data (u32 (x + i))) : (freeBits x n).wp (fun _ _ => True) (fun _ _ => False) False fsm := by
  induction n generalizing x fsm
  case zero => trivial
  case succ n ih =>
    obtain ⟨hl, ht⟩ := h 0 (by omega)
    rw [Nat.add_zero] at hl ht
    simp only [freeBits, wp_bind, wp_get, wp_ite, wp_modify, ht]
    refine ⟨fun hle => by omega, fun _ => ⟨by simp, fun _ => ih (by omega) fun i hi => ?_⟩⟩
    rw [show x + 1 + i = x + (i + 1) by omega]
    obtain ⟨hl, ht⟩ := h (i + 1) (by omega)
    have hne : u32 (x + (i + 1)) ≠ u32 x := by
      simp only [u32]
      omega
    exact ⟨hl, by simp [testBit_clearBit, ht, hne]⟩

-- Otherwise it does not. Behind the mount it halts, and before that the call fails when the counter
-- has its new value already.
theorem freeBits_fails
    (h : ¬∀ i < n, u32 (x + i) < fsm.bitLimit ∧ testBit fsm.data (u32 (x + i))) :
    (freeBits x n).wp (fun _ _ => False)
      (fun _ fsm' => fsm'.freeBlocksCount = fsm.freeBlocksCount) (fsm.isMountFinished = true) fsm := by
  induction n generalizing x fsm
  case zero => exact absurd (fun i hi => absurd hi (Nat.not_lt_zero i)) h
  case succ n ih =>
    simp only [freeBits, efaultOrBug, wp_bind, wp_get, wp_ite, wp_modify, wp_fail, wp_halt]
    refine ⟨fun _ => ⟨fun hm => hm, fun _ => trivial⟩, fun hl => ⟨fun _ => ⟨fun hm => hm, fun _ => trivial⟩,
      fun ht => ?_⟩⟩
    have ht : testBit fsm.data (u32 x) := by simpa using ht
    refine ih fun hrest => h fun i hi => ?_
    cases i
    case zero   => exact ⟨Nat.lt_of_not_le hl, ht⟩
    case succ i =>
      obtain ⟨hl, ht⟩ := hrest i (by omega)
      rw [show x + 1 + i = x + (i + 1) by omega] at hl ht
      rw [testBit_clearBit, Bool.and_eq_true] at ht
      exact ⟨hl, ht.left⟩

end Bits

namespace Release

variable {s : Release}

theorem Same.rfl : s.Same s :=
  ⟨.refl _, .refl _, .refl _⟩

theorem addChunks_spec : (addChunks n).wp (fun _ s' => ¬s.AddChunkFails n ∧ s.Same s')
    (fun _ s' => s.AddChunkFails n ∧ s.Same s') False s := by
  induction n generalizing s
  case zero => exact ⟨by simp [AddChunkFails], .rfl⟩
  case succ n ih =>
    rw [addChunks, wp_bind, wp_get, wp_bind, wp_modify]
    have hfails : s.AddChunkFails (n + 1) ↔ s.outcomes.head?.join.isSome ∨
        AddChunkFails { s with outcomes := s.outcomes.tail } n := by
      simp only [AddChunkFails]
      rcases s.outcomes with _ | ⟨_ | err, _⟩ <;> simp
    match ho : s.outcomes.head?.join with
    | none =>
      rw [hfails, ho]
      simp only [Option.isSome_none, Bool.false_eq_true, false_or]
      exact wp_mono ih (fun _ _ h => ⟨h.left, h.right.fsm, h.right.start, h.right.count⟩)
        (fun _ _ h => ⟨h.left, h.right.fsm, h.right.start, h.right.count⟩) id
    | some err => exact ⟨hfails.mpr (.inl (by simp [ho])), .refl _, .refl _, .refl _⟩

theorem u64_add_ne (h₀ : 0 < length) (hl : length < 2 ^ 32) : u64 (count + length) ≠ count := by
  simp only [u64]
  omega

-- The preallocated blocks change nothing that the loop over the bits reads.
theorem discardPreallocation_fsm :
    ∃ tree, s.discardPreallocation.fsm = { s.fsm with tree } := by
  unfold discardPreallocation
  split
  · exact ⟨_, rfl⟩
  · exact ⟨s.fsm.tree, rfl⟩

theorem wp_release (h : ∀ tree (s' : Release), wp (freeBits blockOffset length)
      (fun a fsm => Q a { s' with fsm := fsm }) (fun e fsm => E e { s' with fsm := fsm }) H
      { s.fsm with tree := tree, freeBlocksCount := u64 (s.fsm.freeBlocksCount + length) }) :
    (release inode blockOffset length).wp Q E H s := by
  obtain ⟨tree, ht⟩ := s.discardPreallocation_fsm
  cases inode <;> simp only [release, onFsm, wp_bind, wp_ite, wp_zoom, wp_modify]
  case false => exact ⟨by simp, fun _ => h _ s⟩
  case true  => exact ⟨fun _ => by rw [ht]; exact h _ s.discardPreallocation, by simp⟩

-- During the mount a free that fails leaves everything as it was if and only if the pages of the
-- bitmap cannot be had, or it cannot fail.
theorem freeBlockChunk_atomic_iff (hm : s.fsm.isMountFinished = false) (hl : length < 2 ^ 32) :
    (∀ err s', freeBlockChunk inode blockOffset length s = .fail err s' → s.Same s') ↔
    s.fsm.OffPages blockOffset length ∨ s.AddChunkFails (pages blockOffset length) ∨
      s.AllUsed blockOffset length := by
  by_cases hoff : s.fsm.OffPages blockOffset length
  case pos => simp [freeBlockChunk, hoff]
  case neg =>
    have hchunks := @addChunks_spec s (pages blockOffset length)
    simp only [hoff, false_or]
    constructor
    case mp =>
      intro h
      by_contra hn
      obtain ⟨hc, hu⟩ := not_or.mp hn
      -- the counter has changed when the loop finds the wrong bit
      have hfail : (freeBlockChunk inode blockOffset length).wp (fun _ _ => False)
          (fun _ s' => ¬s.Same s') False s := by
        simp only [freeBlockChunk, wp_bind, wp_get, wp_haltOn, wp_onFail, hoff, false_implies,
          not_false_eq_true, true_implies, true_and]
        refine wp_mono hchunks (fun _ s₁ h₁ => wp_release fun tree s₂ => ?_)
          (fun _ _ h => absurd h.left hc) id
        have hs := h₁.right.fsm
        refine wp_mono (freeBits_fails ?_) (fun _ _ => id) (fun _ fsm hcount hsame => ?_)
          fun hbug => by simp [hs, hm] at hbug
        · rw [hs]
          exact hu
        · have hpos : 0 < length := Nat.pos_of_ne_zero fun h₀ => hu fun i hi => by omega
          rw [show fsm = s.fsm from hsame.fsm, hs] at hcount
          exact u64_add_ne hpos hl hcount.symm
      obtain ⟨err, s', he, hne⟩ := wp_fails hfail
      exact hne (h err s' he)
    case mpr =>
      rw [forall_error_iff]
      intro hok
      simp only [freeBlockChunk, wp_bind, wp_get, wp_haltOn, wp_onFail, hoff, hm, false_implies,
          not_false_eq_true, true_implies, true_and, Bool.false_eq_true, if_false]
      refine wp_mono hchunks (fun _ s₁ h₁ => ?_) (fun _ _ h => h.right) False.elim
      refine wp_release fun tree s₂ => wp_mono (freeBits_returns hl.le ?_) (fun _ _ _ => trivial)
        (fun _ _ => False.elim) False.elim
      rw [h₁.right.fsm]
      exact hok.resolve_left h₁.left

-- The volume of forty blocks during the mount.
def fortyRelease : Release := ⟨fortyFree, 0, 0, []⟩

theorem freeBlockChunk_atomic_iff_fortyRelease :
    ¬∃ err s', freeBlockChunk true 2 2 fortyRelease = .fail err s' ∧ ¬fortyRelease.Same s' := by
  rintro ⟨err, s', hf, hn⟩
  have hu : fortyRelease.AllUsed 2 2 := by
    unfold AllUsed
    decide
  exact hn ((freeBlockChunk_atomic_iff rfl (by decide)).mpr (.inr (.inr hu)) err s' hf)

-- Block 3 is in use and block 4 is not. Both are in the tree when the second one is found wrong.
theorem not_atomic_fortyRelease :
    ∃ s', freeBlockChunk true 3 2 fortyRelease = .fail .efault s' ∧
      s'.fsm.freeBlocksCount = fortyFree.freeBlocksCount + 2 ∧
      s'.fsm.tree.keys = [⟨3, 2⟩, ⟨4, 24⟩, ⟨36, 4⟩] ∧
      testBit fortyFree.data 3 ∧ testBit s'.fsm.data 3 = false :=
  ⟨_, rfl, rfl, rfl, rfl, rfl⟩

section Refinement

variable {fsm : FsmInfo}

theorem addChunks_nil : addChunks n ⟨fsm, 0, 0, []⟩ = .ok () ⟨fsm, 0, 0, []⟩ := by
  induction n
  case zero      => rfl
  case succ n ih => exact ih

-- Without preallocated blocks and with all pages at hand only the manager counts.
theorem freeBlockChunk_eq : freeBlockChunk inode blockOffset length ⟨fsm, 0, 0, []⟩ =
    onFsm (fsmFreeBlockChunk blockOffset length) ⟨fsm, 0, 0, []⟩ := by
  have hchunks : onFail (addChunks (pages blockOffset length)) (fun err =>
      if fsm.isMountFinished then Code.halt else Code.fail err) ⟨fsm, 0, 0, []⟩ =
      .ok () ⟨fsm, 0, 0, []⟩ := by
    rw [onFail, addChunks_nil]
  simp only [freeBlockChunk, get_bind, haltOn_bind, bind_of_ok hchunks, onFsm, zoom,
    fsmFreeBlockChunk]
  by_cases hoff : fsm.OffPages blockOffset length
  case pos => simp [hoff]
  case neg => cases inode <;> simp [hoff, release, onFsm, zoom, discardPreallocation]

end Refinement

end Release

end Emmcfs
