import EmmcfsModel.Fsm.Theorems.Chunk

namespace Emmcfs

namespace FsmNode

variable {κ : Type}

-- The keys on the way along the last children, and those in the leaf at its end.
def lastKeys : Nat → FsmNode κ → List κ
  | 0, node     => node.keyVals
  | h + 1, node => node.keyVals ++ node.children[node.nrActive]?.elim [] (lastKeys h)

def lastLeaf : Nat → FsmNode κ → List κ
  | 0, node     => node.keyVals
  | h + 1, node => node.children[node.nrActive]?.elim [] (lastLeaf h)

end FsmNode

namespace FsmBtree

variable (btree : FsmBtree FsmBtreeKey)

-- Chunks that have blocks, and none in common.
structure Sound : Prop where
  wf       : btree.WF
  pos      : ∀ key ∈ btree.keys, 0 < key.length
  disjoint : btree.keys.Pairwise fun a b => Disjoint a.blocks b.blocks

def freeBlocks : Finset Nat :=
  btree.keys.toFinset.biUnion FsmBtreeKey.blocks

-- No chunk ends where another one starts.
def Maximal : Prop :=
  ∀ a ∈ btree.keys, ∀ b ∈ btree.keys, a.blockOffset + a.length ≠ b.blockOffset

instance : Decidable btree.Maximal :=
  inferInstanceAs (Decidable (∀ a ∈ btree.keys, ∀ b ∈ btree.keys,
    a.blockOffset + a.length ≠ b.blockOffset))

variable {btree} {s : Finset Nat}

theorem holds_iff : btree.Holds s ↔ btree.Sound ∧ btree.freeBlocks = s := by
  have hmem (x) : x ∈ btree.freeBlocks ↔ ∃ key ∈ btree.keys, x ∈ key.blocks := by
    simp [freeBlocks]
  constructor
  case mp =>
    rintro ⟨hw, hpos, hd, hm⟩
    exact ⟨⟨hw, hpos, hd⟩, Finset.ext fun x => (hmem x).trans (hm x).symm⟩
  case mpr =>
    rintro ⟨⟨hw, hpos, hd⟩, rfl⟩
    exact ⟨hw, hpos, hd, hmem⟩

-- Chunks in the order of the tree that have no block in common.
theorem sound_iff : btree.Sound ↔ (∀ root ∈ btree.root, root.Shape btree.order root.level 1) ∧
    (∀ key ∈ btree.keys, 0 < key.length) ∧
    btree.keys.Pairwise fun a b => a.blockOffset + a.length ≤ b.blockOffset := by
  constructor
  case mp =>
    intro h
    have hs := (holds_iff.mpr ⟨h, rfl⟩).sorted
    refine ⟨h.wf.shape, h.pos, (hs.and h.disjoint).imp_of_mem fun {a b} ha hb ⟨hlt, hd⟩ => ?_⟩
    have := h.pos a ha
    have := h.pos b hb
    by_contra hgt
    have hle : a.blockOffset ≤ b.blockOffset := by
      have := FsmBtreeKey.lt_iff.mp hlt
      omega
    have ha' : b.blockOffset ∈ a.blocks := FsmBtreeKey.mem_blocks.mpr (by omega)
    have hb' : b.blockOffset ∈ b.blocks := FsmBtreeKey.mem_blocks.mpr (by omega)
    exact Finset.disjoint_left.mp hd ha' hb'
  case mpr =>
    rintro ⟨hs, hpos, hp⟩
    have hsorted : SortedList.Sorted btree.keys := hp.imp_of_mem fun {a b} ha _ hle => by
      have := hpos a ha
      exact FsmBtreeKey.lt_iff.mpr (.inl (by omega))
    refine ⟨⟨hs, fun root hr => ?_⟩, hpos, hp.imp fun {a b} hle => ?_⟩
    · rwa [FsmBtree.keys, Option.mem_def.mp hr] at hsorted
    · refine Finset.disjoint_left.mpr fun x ha hb => ?_
      rw [FsmBtreeKey.mem_blocks] at ha hb
      omega

end FsmBtree

-- A small tree.
def threeChunks : FsmBtree FsmBtreeKey where
  order    := 2
  order_ge := le_rfl
  root     := some (.mk 1 .index [⟨8, 2⟩] [.mk 0 .leaf [⟨2, 1⟩] [], .mk 0 .leaf [⟨16, 4⟩] []])

theorem threeChunks_sound : threeChunks.Sound := by
  refine FsmBtree.sound_iff.mpr ⟨?_, by decide, by decide⟩
  rintro _ ⟨⟩
  refine .index (by decide) (by decide) rfl ?_
  simp only [List.forall_mem_cons, List.not_mem_nil, false_implies, implies_true, and_true]
  exact ⟨.leaf (by decide) (by decide), .leaf (by decide) (by decide)⟩

end Emmcfs
