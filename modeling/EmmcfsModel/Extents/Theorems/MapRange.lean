import EmmcfsModel.Btree.Theorems.Failure
import EmmcfsModel.Extents.MapRange

namespace Emmcfs

open Code

namespace MappedFile

variable {tree : ExttreeImage τ} {s s' : MappedFile τ} {iblock : Nat}

-- The loop stops at the extent that has the logical block.
theorem findInFork_some {fork : ForkInfo} (hu : left ≤ fork.usedExtents)
    (h : findInFork fork i left = some (b, m)) :
    ∃ j e, j < fork.usedExtents ∧ fork.extents[j]? = some e ∧
      fork.startOf j ≤ fork.startOf (fork.usedExtents - left) + i ∧
      fork.startOf (fork.usedExtents - left) + i < fork.startOf j + e.blockCount ∧
      b = u64 (e.firstBlock + (fork.startOf (fork.usedExtents - left) + i - fork.startOf j)) ∧
      m = fork.startOf j + e.blockCount - (fork.startOf (fork.usedExtents - left) + i) := by
  induction left generalizing i
  case zero => cases h
  case succ left ih =>
    rw [findInFork] at h
    split at h
    case h_1      => cases h
    case h_2 e he =>
      have hnext : fork.startOf (fork.usedExtents - left) =
          fork.startOf (fork.usedExtents - (left + 1)) + e.blockCount := by
        have hs : fork.usedExtents - left = fork.usedExtents - (left + 1) + 1 := by omega
        rw [Vector.getElem?_toList.symm] at he
        rw [hs, ForkInfo.startOf, ForkInfo.startOf, List.take_add_one, he]
        simp
      split at h
      case isTrue hi =>
        cases h
        exact ⟨_, e, by omega, he, by omega, by omega, by congr 2; omega, by omega⟩
      case isFalse hi =>
        obtain ⟨j, e', hj⟩ := ih (by omega) h
        rw [show fork.startOf (fork.usedExtents - left) + (i - e.blockCount) =
          fork.startOf (fork.usedExtents - (left + 1)) + i by omega] at hj
        exact ⟨j, e', hj⟩

theorem EndsAt.hasExtent (h : s.EndsAt tree iblock start e) : s.HasExtent tree start e := by
  match h with
  | .fork hi he _ _       => exact .fork hi he
  | .record _ hfind hid => exact .record (tree.find_has hfind) hid

-- A block and max_blocks as they are for a logical block of an extent.
def RunIn (iblock start : Nat) (e : ExtentInfo) (b m : Nat) : Prop :=
  start ≤ iblock → iblock < start + e.blockCount →
    b = u64 (e.firstBlock + (iblock - start)) ∧ m = start + e.blockCount - iblock

theorem inRecord_runIn {r : LextentRecord} (hi : iblock < 2 ^ 64) :
    RunIn iblock r.key.iblock r.lextent (inRecord iblock r).1 (inRecord iblock r).2 := by
  intro hge hlt
  have hc := r.lextent.count_lt
  rw [inRecord, u64Sub_of_le hge hi, u64Sub_of_le (by omega) (by omega), u32_of_lt (by omega)]
  exact ⟨rfl, by omega⟩

theorem findOldBlock_spec (hi : iblock < 2 ^ 64) : wp (findOldBlock tree iblock)
    (fun found _ => ∀ b m, found = some (b, m) →
      ∃ start e, s.EndsAt tree iblock start e ∧ RunIn iblock start e b m)
    (fun _ _ => True) True s := by
  rw [findOldBlock, wp_bind, wp_get]
  split
  case h_1 found hf =>
    intro b m he
    cases he
    obtain ⟨j, e, hj, he, hle, hlt, hb, hm⟩ := findInFork_some (le_refl _) hf
    have hzero : s.fork.startOf 0 + iblock = iblock := Nat.zero_add _
    rw [Nat.sub_self, hzero] at hle hlt hb hm
    exact ⟨_, e, .fork hj he hle hlt, fun _ _ => ⟨hb, hm⟩⟩
  case h_2 hf =>
    rw [exttreeGetBlock, wp_bind, wp_get, wp_onFail, wp_bind, wp_zoom]
    cases hfind : tree.find ⟨s.ino, iblock⟩ s.exttree
    case halt => simp [wp, hfind]
    case fail e t => exact (wp_of_fail hfind).mpr fun b m he => nomatch he
    case ok r t =>
      refine (wp_of_ok hfind).mpr fun b m he => ?_
      split at he
      case isFalse    => cases he
      case isTrue hid =>
        have hr := inRecord_runIn (r := r) hi
        rw [Option.some.inj he] at hr
        exact ⟨_, _, .record hf hfind hid, hr⟩

-- What is mapped begins in the extent at which the search ends.
theorem getBlock_spec : wp (getBlock tree iblock bSize)
    (fun range _ => ∀ r, range = some r → ∃ start e m, s.EndsAt tree iblock start e ∧
      RunIn iblock start e r.resBlock m ∧ r.length = min m (u32 (bSize >>> s.blockSizeShift)))
    (fun _ _ => True) True s := by
  rw [getBlock, wp_bind, wp_get, wp_ite, wp_bind]
  refine ⟨fun _ r hr => (nomatch hr), fun hi => ?_⟩
  have htotal := s.fork.total_lt
  refine wp_imp (findOldBlock_spec (by omega)) (fun found s₁ hf => ?_)
  split
  case h_1 => trivial
  case h_2 _ b m =>
    obtain ⟨start, e, hends, hrun⟩ := hf b m rfl
    rw [wp_ite, mapRange, wp_bind, wp_get, wp_ite, wp_ite]
    refine ⟨fun _ => trivial, fun _ => ⟨fun _ => ⟨fun _ => trivial, fun _ => trivial⟩, fun _ r hr => ?_⟩⟩
    cases hr
    exact ⟨start, e, m, hends, hrun, rfl⟩

-- A mapped range is covered if the extent that the search ends at has the logical block and the range
-- ends on the device. If no other extent has the logical block then only if so.
theorem getBlock_covered_iff (h : getBlock tree iblock bSize s = .ok (some range) s')
    (hl : 0 < range.length) : ∃ start e, s.EndsAt tree iblock start e ∧
      (s.Reaches iblock (u32 (bSize >>> s.blockSizeShift)) start e → s.Covered tree iblock range) ∧
      (s.Sole tree iblock start e → s.Covered tree iblock range →
        s.Reaches iblock (u32 (bSize >>> s.blockSizeShift)) start e) := by
  obtain ⟨start, e, m, hends, hrun, hlen⟩ := (wp_of_ok h).mp getBlock_spec range rfl
  refine ⟨start, e, hends, fun hr k hk => ?_, fun hs hc => ?_⟩
  · obtain ⟨hge, hlt, hdev⟩ := hr
    obtain ⟨hb, hm⟩ := hrun hge hlt
    have : s.deviceBlocks ≤ s.deviceSize := Nat.shiftRight_le _ _
    have := s.deviceSize_lt
    rw [u64_of_lt (by omega)] at hb
    refine ⟨⟨start, e, hends.hasExtent, ?_, ?_, ?_⟩, ?_⟩
    all_goals omega
  · obtain ⟨⟨start', e', hhas', ha⟩, _⟩ := hc 0 hl
    obtain ⟨hstart, he⟩ := hs start' e' _ hhas' ha
    subst hstart he
    obtain ⟨hb, hm⟩ := hrun ha.ge ha.lt
    have hlast := (hc (range.length - 1) (by omega)).right
    have := ha.block
    exact ⟨ha.ge, ha.lt, by omega⟩

section Image

-- The extents tree in its nodes.
def btreeImage (tree : BtreeOps ExttreeKey) (behind : Nat → ExtentInfo) :
    ExttreeImage (Btree ExttreeKey ExtentInfo) where
  find key := do
    let (id, pos) ← emmcfsBtreeFind tree key
    let b ← bnodeAt id
    let r ← getRecord b pos
    pure (r.asLextent behind)
  Has t r  := ∃ id, ∃ q ∈ (t.bnode id).recs, r = q.asLextent behind
  find_has := by
    intro key t r t' h
    have hw : wp (do
        let (id, pos) ← emmcfsBtreeFind tree key
        let b ← bnodeAt id
        let r ← getRecord b pos
        pure (r.asLextent behind))
        (fun r _ => ∃ id, ∃ q ∈ (t.bnode id).recs, r = q.asLextent behind)
        (fun _ _ => True) True t := by
      rw [emmcfsBtreeFind, wp_bind, wp_bind]
      refine wp_mono btreeFindLevel_spec (fun p t₁ ht => ?_) (fun _ _ _ => trivial) id
      rw [wp_pure, wp_bind, wp_bnodeAt, wp_bind]
      refine wp_mono getRecord_spec (fun q t₂ hq => ?_) (fun _ _ _ => trivial) id
      have hb : t₁.bnode p.1.1 = t.bnode p.1.1 := by rw [ht.left.unchanged]; rfl
      exact ⟨p.1.1, q, hb ▸ List.mem_of_getElem? hq.right, rfl⟩
    exact (wp_of_ok h).mp hw

-- A file of eight blocks on a device of 200 blocks, with the extents in its fork and one record in
-- the extents tree.
def eightBlocks (extents : List ExtentInfo) (lextent : ExtentInfo) :
    MappedFile (Btree ExttreeKey ExtentInfo) where
  ino             := 10
  fork            := ⟨8, Vector.ofFn fun i => extents.getD i .zero, extents.length, by decide⟩
  exttree         := ⟨[(1, ⟨.leaf, [⟨⟨10, 0⟩, 40, .data lextent⟩], 4000, 0, 0⟩)], 3, 2, 0, 1, 1, ⟨0, []⟩⟩
  deviceSize      := 200 * 4096
  blockSizeShift  := 12
  isMountFinished := true
  deviceSize_lt   := by decide

def oneLeaf : ExttreeImage (Btree ExttreeKey ExtentInfo) :=
  btreeImage (extTree true) fun _ => .zero

theorem eightBlocks_extent (h : (eightBlocks [] lextent).HasExtent oneLeaf start e) :
    start = 0 ∧ e = lextent := by
  cases h
  case fork hi _     => cases hi
  case record r hr _ =>
    obtain ⟨id, q, hq, hr⟩ := hr
    subst hr
    simp only [eightBlocks, Btree.bnode, Table.get] at hq
    split at hq
    case isTrue  =>
      cases List.mem_singleton.mp hq
      exact ⟨rfl, rfl⟩
    case isFalse => cases hq

theorem getBlock_covered_iff_eightBlocks :
    (eightBlocks [] (.of 100 8)).Covered oneLeaf 3 ⟨103, 4⟩ := by
  obtain ⟨_, s', h, ha⟩ := wp_returns (m := getBlock oneLeaf 3 (4 * 4096))
    (s := eightBlocks [] (.of 100 8)) (Q := fun r _ => r = some ⟨103, 4⟩) (by decide +kernel)
  subst ha
  obtain ⟨start, e, hends, hc, _⟩ := getBlock_covered_iff h (by decide)
  obtain ⟨rfl, rfl⟩ := eightBlocks_extent hends.hasExtent
  exact hc ⟨by decide, by decide, by decide⟩

-- The record that the search ends at does not reach the logical block, and block 200 is mapped.
theorem not_covered_eightBlocks :
    (∃ s', getBlock oneLeaf 5 (8 * 4096) (eightBlocks [] (.of 100 2)) =
      .ok (some ⟨105, 8⟩) s') ∧ ¬(eightBlocks [] (.of 100 2)).Covered oneLeaf 5 ⟨105, 8⟩ ∧
    (∃ s', getBlock oneLeaf 0 4096 (eightBlocks [.of 200 8] .zero) = .ok (some ⟨200, 1⟩) s') ∧
      ¬(eightBlocks [.of 200 8] .zero).Covered oneLeaf 0 ⟨200, 1⟩ := by
  obtain ⟨_, s₁, h₁, ha₁⟩ := wp_returns (m := getBlock oneLeaf 5 (8 * 4096))
    (s := eightBlocks [] (.of 100 2)) (Q := fun r _ => r = some ⟨105, 8⟩) (by decide +kernel)
  obtain ⟨_, s₂, h₂, ha₂⟩ := wp_returns (m := getBlock oneLeaf 0 4096)
    (s := eightBlocks [.of 200 8] .zero) (Q := fun r _ => r = some ⟨200, 1⟩) (by decide +kernel)
  subst ha₁ ha₂
  refine ⟨⟨s₁, h₁⟩, fun h => ?_, ⟨s₂, h₂⟩, fun h => ?_⟩
  · obtain ⟨⟨start, e, he, ha⟩, _⟩ := h 0 (by decide)
    obtain ⟨rfl, rfl⟩ := eightBlocks_extent he
    exact absurd ha.lt (by decide)
  · exact absurd (h 0 (by decide)).right (by decide)

end Image

end MappedFile

end Emmcfs
