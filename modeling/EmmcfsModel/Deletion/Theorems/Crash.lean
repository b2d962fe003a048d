import EmmcfsModel.Deletion.Theorems.Free
import EmmcfsModel.Fsm.Theorems.Fixed
import EmmcfsModel.Fsm.Theorems.Agreement

namespace Emmcfs.Deletion

open Code Contents

variable {ops : ExttreeOps τ} {valid : τ → Prop} {view : τ → Finset ExttreeRecord}
  {s : Deletion τ} {c d : Contents} {fork : ForkInfo}

section Fork

theorem blocksBelow_of_countBelow (h : fork.countBelow n = 0) : fork.blocksBelow n = ∅ := by
  induction n
  case zero => rfl
  case succ n ih =>
    rw [ForkInfo.countBelow] at h
    obtain ⟨he, hn⟩ := Nat.add_eq_zero_iff.mp h
    rw [ForkInfo.blocksBelow, ih hn, Finset.union_empty]
    cases hx : fork.extents[n]?
    case none   => rfl
    case some e =>
      rw [hx] at he
      simp [ExtentInfo.blocks, show e.blockCount = 0 from he]

-- The extents of the fork become free, and what is left of total_block_count is in the extents tree.
theorem freeForkExtents_spec (hb : 8 * bytes < 2 ^ 32) (h : s.At valid view bytes pages c d)
    (hn : n ≤ extentsCountInFork)
    (hw : ∀ i < n, ∀ e, fork.extents[i]? = some e → e.blockCount ≠ 0 → e.Within bytes pages)
    (hd : ∀ i < n, ∀ e, fork.extents[i]? = some e → Disjoint e.blocks (fork.blocksBelow i))
    (hf : Disjoint (fork.blocksBelow n) c.free) (ht : total = fork.countBelow n + rest)
    (hl : total < 2 ^ 32) :
    wp (freeForkExtents fork n total) (fun left s' => left = rest ∧
      s'.At valid view bytes pages { c with free := fork.blocksBelow n ∪ c.free } d)
      (fun _ _ => False) False s := by
  induction n generalizing s c total
  case zero =>
    refine ⟨ht.trans (Nat.zero_add _), ?_⟩
    rw [ForkInfo.blocksBelow, Finset.empty_union]
    exact h
  case succ n ih =>
    rw [freeForkExtents]
    refine wp_ite.mpr ⟨fun h₀ => ?_, fun h₀ => ?_⟩
    case refine_1 =>
      rw [blocksBelow_of_countBelow (n := n + 1) (by omega), Finset.empty_union]
      exact ⟨by omega, h⟩
    case refine_2 =>
      obtain ⟨e, he⟩ : ∃ e, fork.extents[n]? = some e := ⟨_, Vector.getElem?_eq_getElem (by omega)⟩
      have hw' := fun i hi => hw i (Nat.lt_succ_of_lt hi)
      have hd' := fun i hi => hd i (Nat.lt_succ_of_lt hi)
      simp only [ForkInfo.blocksBelow, ForkInfo.countBelow, he, Option.elim_some] at hf ht ⊢
      obtain ⟨hfe, hfn⟩ := Finset.disjoint_union_left.mp hf
      refine wp_ite.mpr ⟨fun hz => ?_, fun hz => ?_⟩
      case refine_1 =>
        have hempty : e.blocks = ∅ := by simp [ExtentInfo.blocks, hz]
        rw [hempty, Finset.empty_union]
        exact ih h (by omega) hw' hd' hfn (by omega) hl
      case refine_2 =>
        refine wp_bind.mpr (wp_imp (wp_freeExtent hb h (hw n (Nat.lt_succ_self n) e he hz) hfe) ?_)
        intro _ s' h'
        rw [Finset.union_comm e.blocks, Finset.union_assoc]
        refine ih h' (by omega) hw' hd' ?_ ?_ (by rw [u32Sub_of_le (by omega) hl]; omega)
        · exact Finset.disjoint_union_right.mpr ⟨(hd n (Nat.lt_succ_self n) e he).symm, hfn⟩
        · rw [u32Sub_of_le (by omega) hl]
          omega

end Fork

section Delete

variable (hs : ops.Serves valid view) (hb : 8 * bytes < 2 ^ 32)

include hs hb

-- After the first transaction recovery leads to where the deletion ends.
theorem fsmFreeRuntimeFork_spec (h : s.At valid view bytes pages c (c.deleted ino fork).cleared)
    (hr : c.Recoverable bytes pages) (ho : c.Owns ino fork bytes pages) :
    wp (transaction (fsmFreeRuntimeFork ops ino fork)) (fun total s' =>
      ∃ c', s'.At valid view bytes pages c' (c.deleted ino fork).cleared ∧
        c'.Recoverable bytes pages ∧ c'.cleared = (c.deleted ino fork).cleared ∧
        c' = if total = 0 then c.deleted ino fork else (c.released fork).orphaned ino)
      (fun _ _ => False) False s := by
  have hr' := hr.released ho
  refine wp_transaction.mpr (wp_bind.mpr (wp_imp (freeForkExtents_spec hb h ho.in_fork ho.extents
    ho.disjoint ho.used ho.total fork.total_lt) ?_))
  rintro total s₁ ⟨ht, h₁⟩
  refine wp_ite.mpr ⟨fun hne => wp_bind.mpr ?_, fun hz => wp_bind.mpr ?_⟩
  case refine_1 =>
    obtain ⟨low, hlow, hlt⟩ := hr.low
    have hk (q) (hq : q ∈ c.records) : exttreeCmpfn q.key ⟨orphanInodesIno, ino⟩ ≠ 0 := fun hk =>
      ho.live (mem_orphans.mpr ⟨q, hq, (exttreeCmpfn_eq_zero ho.wildcard).mp hk⟩)
    refine wp_imp (wp_insert hs h₁ ⟨low, hlow, exttreeCmpfn_neg hlt⟩ hk) ?_
    intro _ s₂ h₂
    have hrec := hr'.orphaned ho.file ho.wildcard ho.number ho.live
    have hcl : ((c.released fork).orphaned ino).cleared = (c.deleted ino fork).cleared := by
      rw [deleted, ← dropped_orphaned ho.file]
      refine (cleared_dropped ?_ fun hm => Nat.lt_irrefl _ (hrec.orphans _ hm).1).symm
      rw [orphans_orphaned]
      exact Finset.mem_insert_self ..
    exact ⟨_, At.stopped h₂ hrec hcl, hrec, hcl, (if_neg hne).symm⟩
  case refine_2 =>
    have hz := not_not.mp hz
    have hd : c.deleted ino fork = { c.released fork with numbers := c.numbers.erase ino } :=
      dropped_of_recordsOf (hr.sum_eq_zero ho.file (ht ▸ hz)) ho.live
    have hrec : (c.deleted ino fork).Recoverable bytes pages := by
      rw [hd]
      exact hr'.number ho.live
    refine wp_imp (wp_freeInodeN h₁ ho.number) ?_
    intro _ s₂ h₂
    exact ⟨_, At.stopped (hd ▸ h₂) hrec rfl, hrec, rfl, (if_pos hz).symm⟩

theorem deleteFile_spec (h : s.At valid view bytes pages c (c.deleted ino fork).cleared)
    (hr : c.Recoverable bytes pages) (ho : c.Owns ino fork bytes pages)
    (hn : c.records.card + 1 < rounds) :
    wp (deleteFile ops rounds ino fork) (fun _ s' =>
      s'.At valid view bytes pages (c.deleted ino fork) (c.deleted ino fork).cleared)
      (fun _ _ => False) False s := by
  refine wp_bind.mpr (wp_imp (fsmFreeRuntimeFork_spec hs hb h hr ho) ?_)
  rintro total s₁ ⟨c', h₁, hr₁, hcl, hc'⟩
  refine wp_ite.mpr ⟨fun hne => ?_, fun hz => ?_⟩
  case refine_1 =>
    rw [if_neg hne] at hc'
    subst hc'
    have hcard : ((c.released fork).orphaned ino).records.card ≤ c.records.card + 1 :=
      Finset.card_insert_le ..
    have hof := Finset.card_le_card (Finset.filter_subset (·.key.objectId = ino)
      ((c.released fork).orphaned ino).records)
    refine wp_onFail.mpr (wp_mono (fsmFreeExttree_spec hs hb h₁ hr₁ hcl ?_
      (Nat.lt_of_le_of_lt (hof.trans hcard) hn)) ?_ nofun id)
    · rw [orphans_orphaned]
      exact Finset.mem_insert_self ..
    · intro _ s₂ h₂
      rwa [dropped_orphaned ho.file] at h₂
  case refine_2 =>
    rw [if_pos (not_not.mp hz)] at hc'
    exact hc' ▸ h₁

end Delete

section Mount

-- The mount builds the tree of free chunks that fits the bitmap.
theorem fsmGetTree_at (hb : 8 * bytes < 2 ^ 32) (h : s.At valid view bytes pages c d) :
    wp (onFsm do
      Code.modify fun fsm => { fsm with tree.root := none, isMountFinished := false }
      fsmGetTree) (fun _ s' => s'.At valid view bytes pages c d) (fun _ _ => False) False s := by
  obtain ⟨hm, hz, hbytes, hpages, hv, hc, hn⟩ := h.volume
  rw [wp_onFsm, wp_bind, wp_modify]
  have hlong : s.volume.fsm.lengthInBytes < 2 ^ 32 := by omega
  have hfixed : FsmInfo.Fixed FsmInfo.pageCount := fun _ _ _ _ => rfl
  refine wp_mono (wp_and (fsmGetTree_spec rfl hlong) (hfixed.getTree _ hpages)) ?_
    (fun _ _ h => h.1) fun h => h.1
  rintro _ fsm ⟨⟨hdata, hlen, hm'⟩, hpages'⟩
  refine ⟨⟨?_, hdata ▸ hz, hlen.trans hbytes, hpages', hv, hc, hn⟩, h.boundaries⟩
  rw [hm.bits]
  exact hm'

theorem mount_spec (hs : ops.Serves valid view) (hb : 8 * bytes < 2 ^ 32)
    (h : s.At valid view bytes pages c d) (hr : c.Recoverable bytes pages) (hc : c.cleared = d)
    (hn : c.records.card < rounds) :
    wp (mount ops rounds) (fun _ s' => s'.At valid view bytes pages d d) (fun _ _ => False) False
      s := by
  refine wp_bind.mpr (wp_imp (fsmGetTree_at hb h) ?_)
  intro _ s' h'
  refine processOrphanInodes_spec hs hb h' hr hc (Nat.lt_of_le_of_lt ?_ hn) hn
  exact Finset.card_image_le.trans (Finset.card_le_card (Finset.filter_subset ..))

end Mount

theorem At.start {v : FileVolume τ} (hv : v.Has valid view bytes pages c) :
    At valid view bytes pages ⟨v, []⟩ c d :=
  ⟨hv, nofun⟩

-- The extents tree as a list of its records, in any order.
def listExttree : ExttreeOps (List ExttreeRecord) where
  find key := do
    let t ← Code.get
    match t.find? (exttreeCmpfn ·.key key = 0) with
    | some r => pure r
    | none   => t.head?.elim (Code.fail .enoent) pure
  insert r   := Code.modify (r :: ·)
  remove key := Code.modify (List.filter (exttreeCmpfn ·.key key ≠ 0))

theorem listExttree_serves : listExttree.Serves (fun _ => True) List.toFinset where
  find {t key} _ hne := by
    rw [listExttree, wp_bind, wp_get]
    cases hf : t.find? (exttreeCmpfn ·.key key = 0)
    case some r =>
      have hr := List.mem_of_find?_eq_some hf
      have hk := List.find?_some hf
      exact ⟨rfl, List.mem_toFinset.mpr hr, fun _ => by simpa using hk⟩
    case none =>
      cases t
      case nil      => simp at hne
      case cons r t =>
        refine ⟨rfl, by simp, fun ⟨q, hq, hk⟩ => ?_⟩
        have := List.find?_eq_none.mp hf q (List.mem_toFinset.mp hq)
        simp [hk] at this
  insert _ _ _         := ⟨trivial, List.toFinset_cons⟩
  remove _ hr hk _     := by
    refine ⟨trivial, ?_⟩
    ext q
    simp only [List.mem_toFinset] at hk
    simp only [List.mem_toFinset, List.mem_filter, Finset.mem_erase, decide_not]
    grind

-- A volume of 32 blocks, all of them in use. A file has one in its fork and one in the extents tree.
def fullFork : ForkInfo where
  totalBlockCount := 2
  extents         := (Vector.replicate _ .zero).set 0 (.of 2 1) extentsCountInFork_pos
  usedExtents     := 1
  total_lt        := by decide

def fullVolume : FileVolume (List ExttreeRecord) where
  fsm         := {
    tree            := ⟨32, fsmBtreeOrder_ge, none⟩
    data            := fun _ => BitVec.allOnes 32
    lengthInBytes   := 4
    pageCount       := 1
    freeBlocksCount := 0
    totalLebCount   := 32
    logBlocksInLeb  := 0
    isMountFinished := true
  }
  exttree     := [⟨⟨0, 0⟩, none⟩, ⟨⟨10, 1⟩, some (.of 4 1)⟩]
  inodeBitmap := {10}

def fullContents : Contents where
  free    := ∅
  records := {⟨⟨0, 0⟩, none⟩, ⟨⟨10, 1⟩, some (.of 4 1)⟩}
  numbers := {10}

theorem fullVolume_has : fullVolume.Has (fun _ => True) List.toFinset 4 1 fullContents where
  space   := by
    have hk : fullVolume.fsm.tree.keys = [] := rfl
    refine ⟨⟨(FsmBtree.represents_empty rfl).wf, by simp [hk], by rw [hk]; exact Owners.nil⟩, ?_, rfl⟩
    decide +kernel
  zero    := by decide
  bytes   := rfl
  pages   := rfl
  valid   := trivial
  records := by decide
  numbers := rfl

theorem fullContents_recoverable : fullContents.Recoverable 4 1 where
  low      := ⟨⟨⟨0, 0⟩, none⟩, by decide, by decide⟩
  keys     := by decide
  extents  := by
    have h : (ExtentInfo.of 4 1).Within 4 1 := ⟨by decide, by decide, by decide, by decide⟩
    simp [fullContents, ExttreeRecord.IsExtent, orphanInodesIno, iblockDoesNotMatter, h]
  used     := by simp [fullContents]
  disjoint := by simp [fullContents, ExttreeRecord.IsExtent, orphanInodesIno]
  orphans  := by decide

theorem fullContents_owns : fullContents.Owns 10 fullFork 4 1 where
  file         := by decide
  wildcard     := by decide
  number       := by decide
  live         := by decide
  in_fork      := by decide
  extents i hi e he _ := by
    obtain rfl : i = 0 := Nat.lt_one_iff.mp hi
    obtain rfl : ExtentInfo.of 2 1 = e := Option.some.inj he
    exact ⟨by decide, by decide, by decide, by decide⟩
  used         := by simp [fullContents]
  disjoint i hi e _ := by
    obtain rfl : i = 0 := Nat.lt_one_iff.mp hi
    exact Finset.disjoint_empty_right _
  apart        := by
    simp only [fullContents, ExttreeRecord.IsExtent]
    decide
  total        := by decide

section Lost

-- The system goes down and comes up with the volume of the last transaction boundary.
def crash : DeletionCode τ Unit :=
  Code.modify fun s => ⟨s.boundaries.headD s.volume, []⟩

-- A file of eleven blocks, nine in the fork and two in the extents tree, which has no other records.
def elevenBlocks : ForkInfo where
  totalBlockCount := 11
  extents         := #v[.of 2 1, .of 4 1, .of 6 1, .of 8 1, .of 10 1, .of 12 1, .of 14 1, .of 16 1,
    .of 18 1]
  usedExtents     := 9
  total_lt        := by decide

def twoRecords : FileVolume (Btree ExttreeKey (Option ExtentInfo)) where
  fsm         := {
    tree            := ⟨32, fsmBtreeOrder_ge, none⟩
    data            := fun i => if i = 0 then 0x555555#32 else 0#32
    lengthInBytes   := 4
    pageCount       := 1
    freeBlocksCount := 0
    totalLebCount   := 32
    logBlocksInLeb  := 0
    isMountFinished := false
  }
  exttree     := {
    bnodes       := (default : Table _).set 1
      ⟨.leaf, [⟨⟨10, 9⟩, 40, .data (some (.of 20 1))⟩, ⟨⟨10, 10⟩, 40, .data (some (.of 22 1))⟩],
        4096 - 27 - 88, 0, 0⟩
    bitmap       := 3
    firstFreeId  := 2
    freeNum      := 32638
    rootBnodeId  := 1
    btreeHeight  := 1
  }
  inodeBitmap := {10}

-- A deletion that goes down after its first transaction, between two mounts.
def deleteInterrupted (rounds ino : Nat) (fork : ForkInfo) :
    DeletionCode (Btree ExttreeKey (Option ExtentInfo)) Unit := do
  mount (btreeExttree (extTree false)) rounds
  let _ ← transaction (fsmFreeRuntimeFork (btreeExttree (extTree true)) ino fork)
  crash
  mount (btreeExttree (extTree false)) rounds

end Lost

end Emmcfs.Deletion
