import Mathlib.Algebra.Order.BigOperators.Group.List
import EmmcfsModel.Snapshot.Transaction
import EmmcfsModel.Catalog.Tree
import EmmcfsModel.Btree.Theorems.Insert

namespace Emmcfs

namespace SnapshotGeometry

variable {geometry : SnapshotGeometry}

theorem le_cattreeHeight {nodes height : Nat} : height ≤ geometry.cattreeHeight nodes height := by
  fun_induction cattreeHeight geometry nodes height
  case case1 ih => omega
  case case2    => rfl

-- The loop goes round once more for each factor that the nodes have room for.
theorem le_cattreeHeight_iff {nodes height j : Nat} :
    height + j + 1 ≤ geometry.cattreeHeight nodes height ↔
      2 * geometry.minRecNumInIndexBnode ^ j ≤ nodes := by
  have hm := geometry.one_lt_minRecNumInIndexBnode
  fun_induction cattreeHeight geometry nodes height generalizing j
  case case2 nodes height hle =>
    have := Nat.pow_pos (n := j) (Nat.zero_lt_of_lt hm)
    omega
  case case1 nodes height hlt ih =>
    cases j
    case zero =>
      have := @le_cattreeHeight geometry (nodes / geometry.minRecNumInIndexBnode) (height + 1)
      simp only [pow_zero]
      omega
    case succ j =>
      have hnext := @ih j
      have hassoc : height + (j + 1) + 1 = height + 1 + j + 1 := by omega
      rw [Nat.le_div_iff_mul_le (by omega), Nat.mul_assoc, ← pow_succ] at hnext
      rwa [hassoc]

theorem le_countMaxCattreeHeight_iff {height : Nat} : height ≤ geometry.countMaxCattreeHeight ↔
    height ≤ 1 ∨ 2 * geometry.minRecNumInIndexBnode ^ (height - 2) ≤ geometry.maxBnodesOnVolume := by
  rw [countMaxCattreeHeight]
  by_cases h : height ≤ 1
  case pos => exact iff_of_true (h.trans le_cattreeHeight) (.inl h)
  case neg =>
    have hj : 1 + (height - 2) + 1 = height := by omega
    rw [or_iff_right h, ← le_cattreeHeight_iff, hj]

end SnapshotGeometry

namespace Btree

variable {tree : BtreeOps κ} {s : Btree κ ν} {recs : List (BtreeRecord κ ν)} {ids : List Nat}
  {up : List (List Nat)} {type : NodeType}

-- The index nodes have at least `m` records, and the root at least two.
structure Filled (s : Btree κ ν) (m : Nat) (up : List (List Nat)) : Prop where
  root  : up ≠ [] → 2 ≤ (s.bnode s.rootBnodeId).recs.length
  other : ∀ id ∈ up.flatten, id ≠ s.rootBnodeId → m ≤ (s.bnode id).recs.length

-- A level has as many nodes as the level above has records.
theorem Levels.length_eq (hl : s.Levels tree type (ids :: ids' :: up) recs) :
    ids.length = (ids'.map fun id => (s.bnode id).recs.length).sum := by
  have hne (id) (hid : id ∈ ids) : (s.bnode id).recs ≠ [] := (hl.left.fits id hid).nonempty
  have hlen := @length_indexRecords _ _ tree s ids hne
  rw [← hlen, ← hl.right.left.records, recsOf, List.length_flatMap]

theorem Levels.pow_le (hl : s.Levels tree type (ids :: up) recs) (hd : (ids :: up).flatten.Nodup)
    (hf : s.Filled m up) (hup : up ≠ []) : 2 * m ^ (up.length - 1) ≤ ids.length := by
  induction up generalizing ids type recs
  case nil => exact absurd rfl hup
  case cons ids' up ih =>
    rw [hl.length_eq]
    by_cases htop : up = []
    case pos =>
      subst htop
      rw [hl.right.single]
      simpa using hf.root hup
    case neg =>
      have hdisj := List.disjoint_of_nodup_append hd.of_append_right
      have htop' : s.rootBnodeId ∈ up.flatten := by
        obtain ⟨ids'', up', rfl⟩ := List.exists_cons_of_ne_nil htop
        exact hl.right.right.root_mem
      have hge (id) (hid : id ∈ ids') : m ≤ (s.bnode id).recs.length :=
        hf.other id (List.mem_append_left _ hid) fun he => hdisj (he ▸ hid) htop'
      have hf' : s.Filled m up :=
        ⟨fun _ => hf.root hup, fun id hid => hf.other id (List.mem_append_right _ hid)⟩
      have hpow := ih hl.right hd.of_append_right hf' htop
      have hsum : ids'.length * m ≤ (ids'.map fun id => (s.bnode id).recs.length).sum := by
        have := List.card_nsmul_le_sum (ids'.map fun id => (s.bnode id).recs.length) m (by simpa using hge)
        simpa using this
      have hlen := List.length_pos_iff.mpr htop
      calc 2 * m ^ (up.length + 1 - 1)
        _ = 2 * m ^ (up.length - 1) * m := by
          rw [Nat.mul_assoc, ← pow_succ]
          congr 2
          omega
        _ ≤ ids'.length * m := Nat.mul_le_mul_right m hpow
        _ ≤ _ := hsum

end Btree

section Example

-- Files with names of the greatest length, one in each folder.
def longFile (n : Nat) : BtreeRecord CattreeKey Unit where
  key       := ⟨BitVec.ofNat 64 n, List.replicate catMaxName 0x61, by rw [List.length_replicate]⟩
  recordLen := 479
  payload   := .data ()

-- A tree of one leaf of eight pages with one record, in a file of 32 such nodes.
def oneFile : Btree CattreeKey Unit where
  bnodes      := [(1, ⟨.leaf, [longFile 0], 32741 - 483, 0, 0⟩)]
  bitmap      := 2 ^ 2 - 1
  firstFreeId := 2
  freeNum     := (catTree true false 3).bitsNum - 2
  rootBnodeId := 1
  btreeHeight := 1
  env         := ⟨256, []⟩

theorem oneFile_upper : oneFile.Upper (catTree true false 3) 1 [[1]] [longFile 0] where
  shape  := by
    refine ⟨⟨?_, ?_, ?_, ⟨rfl, rfl, trivial⟩, rfl⟩, _, rfl, rfl⟩
    all_goals rw [List.forall_mem_singleton]
    case refine_1 => decide
    case refine_2 => decide +kernel
    case refine_3 => rfl
  nodup  := by decide
  bitmap := .of_ones (k := 2) (by decide) rfl rfl rfl
  height := rfl

-- A device of one MiB with nodes of eight pages.
def eightPageNodes : SnapshotGeometry where
  area               := .pages64
  deviceSize         := 1024 * 1024
  logPagesPerNode    := 3
  logPagesPerNode_le := by decide

end Example

end Emmcfs
