import EmmcfsModel.Lib.Owners
import EmmcfsModel.Fsm.Theorems.Btree
import Mathlib.Order.Interval.Finset.Nat

namespace Emmcfs

open FsmNode SortedList
open scoped List

def FsmBtreeKey.blocks (key : FsmBtreeKey) : Finset Nat :=
  Finset.Ico key.blockOffset (key.blockOffset + key.length)

theorem FsmBtreeKey.mem_blocks {key : FsmBtreeKey} :
    x ∈ key.blocks ↔ key.blockOffset ≤ x ∧ x < key.blockOffset + key.length :=
  Finset.mem_Ico

-- A tree of chunks stands for the set of the free blocks.
structure FsmBtree.Holds (btree : FsmBtree FsmBtreeKey) (s : Finset Nat) : Prop where
  wf    : btree.WF
  pos   : ∀ key ∈ btree.keys, 0 < key.length
  parts : Owners FsmBtreeKey.blocks btree.keys s

namespace FsmBtree.Holds

variable {btree : FsmBtree FsmBtreeKey} {s : Finset Nat} {x : FsmBtreeKey}

theorem sorted (h : btree.Holds s) : Sorted btree.keys := by
  match hr : btree.root with
  | none      => simp [FsmBtree.keys, hr]
  | some root => simpa [FsmBtree.keys, hr] using h.wf.sorted root (by simp [hr])

theorem insert (h : btree.Holds s) (hx : 0 < x.length) (hd : Disjoint x.blocks s) :
    ∃ btree', fsmBtreeInsert fsmBtreeCmpFn btree x = (btree', none) ∧
      btree'.Holds (x.blocks ∪ s) := by
  obtain ⟨hw, hk, he⟩ := fsmBtreeInsert_wf fsmBtreeCmpFn_compares (x := x) h.wf
  have hn : x ∉ btree.keys := by
    intro hm
    have hx : x.blockOffset ∈ x.blocks := FsmBtreeKey.mem_blocks.mpr (by omega)
    exact Finset.disjoint_left.mp hd hx (h.parts.subset hm hx)
  have hp := (insertKey_perm h.sorted hn).symm
  rw [if_neg hn] at he
  refine ⟨_, Prod.ext rfl he, hw, ?_, ?_⟩
  · intro key hm
    rw [hk, mem_insertKey] at hm
    cases hm
    case inl hm => exact hm ▸ hx
    case inr hm => exact h.pos key hm
  · rw [hk]
    exact (h.parts.cons hd).perm hp

theorem delete (h : btree.Holds s) (hx : x ∈ btree.keys) :
    x.blocks ⊆ s ∧ (fsmBtreeDelete fsmBtreeCmpFn btree x).Holds (s \ x.blocks) := by
  obtain ⟨hw, hk⟩ := fsmBtreeDelete_wf fsmBtreeCmpFn_compares (x := x) h.wf
  obtain ⟨hs, hp⟩ := Owners.cons_iff.mp (h.parts.perm (perm_removeKey h.sorted hx))
  refine ⟨hs, hw, fun key hm => ?_, hk ▸ hp⟩
  rw [hk, mem_removeKey] at hm
  exact h.pos key hm.right

end FsmBtree.Holds

section Lookup

variable {btree : FsmBtree FsmBtreeKey} {s : Finset Nat} {key : FsmBtreeKey}

-- The rest of a chunk that gives its first blocks away.
theorem blocks_rest (hs : key.blocks ⊆ s) (hl : length ≤ key.length) :
    Disjoint (FsmBtreeKey.blocks ⟨key.blockOffset + length, key.length - length⟩) (s \ key.blocks) ∧
      FsmBtreeKey.blocks ⟨key.blockOffset + length, key.length - length⟩ ∪ s \ key.blocks =
        s \ Finset.Ico key.blockOffset (key.blockOffset + length) := by
  constructor
  case left =>
    refine Finset.disjoint_sdiff.mono_left fun x hx => ?_
    simp only [FsmBtreeKey.mem_blocks] at hx ⊢
    omega
  case right =>
    ext x
    have := @hs x
    simp only [FsmBtreeKey.mem_blocks, Finset.mem_union, Finset.mem_sdiff, Finset.mem_Ico] at this ⊢
    by_cases hx : x ∈ s
    case pos => simp [hx]; omega
    case neg => simp [hx] at this ⊢; omega

-- A chunk of the tree gives its first blocks away.
theorem takeChunk_holds (h : btree.Holds s) (hk : key ∈ btree.keys) (hl : length ≤ key.length) :
    Finset.Ico key.blockOffset (key.blockOffset + length) ⊆ s ∧
      ∃ btree', takeChunk btree key length = (btree', none) ∧
        btree'.Holds (s \ Finset.Ico key.blockOffset (key.blockOffset + length)) := by
  obtain ⟨hs, hd⟩ := h.delete hk
  have hsub : Finset.Ico key.blockOffset (key.blockOffset + length) ⊆ key.blocks :=
    Finset.Ico_subset_Ico_right (by omega)
  refine ⟨hsub.trans hs, ?_⟩
  simp only [takeChunk]
  split
  case isTrue hlt =>
    obtain ⟨hdr, hu⟩ := blocks_rest hs hl
    obtain ⟨btree', hi, hh⟩ := hd.insert (Nat.sub_pos_of_lt hlt) hdr
    exact ⟨btree', hi, hu ▸ hh⟩
  case isFalse hlt =>
    obtain rfl : length = key.length := by omega
    exact ⟨_, rfl, hd⟩

theorem lookupAt_mem {node : FsmNode FsmBtreeKey} (hs : node.Shape order h lo)
    (hl : lookupAt blockOffset length (h + 1) node = some key) :
    key ∈ toList h node ∧ blockOffset = key.blockOffset ∧ length ≤ key.length := by
  induction h generalizing node lo
  case zero =>
    rw [lookupAt] at hl
    split at hl
    case h_1 hf =>
      cases hl
      obtain ⟨hk, hp⟩ := Option.filter_eq_some_iff.mp hf
      exact ⟨List.mem_of_getElem? hk, by simpa using hp⟩
    case h_2 =>
      cases hs
      cases hl
  case succ h ih =>
    rw [lookupAt] at hl
    split at hl
    case h_1 hf =>
      cases hl
      obtain ⟨hk, hp⟩ := Option.filter_eq_some_iff.mp hf
      exact ⟨hs.keyVals_sublist.subset (List.mem_of_getElem? hk), by simpa using hp⟩
    case h_2 =>
      have hty : node.type = .index := by cases hs; rfl
      rw [hty] at hl
      obtain ⟨c, hc, hl⟩ := Option.bind_eq_some_iff.mp hl
      obtain ⟨hsc, hsub⟩ := hs.toList_subset (List.mem_of_getElem? hc)
      obtain ⟨hm, hk⟩ := ih hsc hl
      exact ⟨hsub hm, hk⟩

-- The queue holds subtrees of a tree with the keys `keys`.
theorem lookupAny_mem {queue : List (FsmNode FsmBtreeKey)} {keys : List FsmBtreeKey}
    (hq : ∀ node ∈ queue, ∃ h lo, node.Shape order h lo ∧ toList h node ⊆ keys)
    (hl : lookupAny length fuel queue = some key) : key ∈ keys ∧ length ≤ key.length := by
  induction fuel generalizing queue
  case zero => cases hl
  case succ fuel ih =>
    match queue with
    | []            => cases hl
    | node :: queue =>
      obtain ⟨h, lo, hs, hsub⟩ := hq node (by simp)
      have hq' : ∀ node ∈ queue, ∃ h lo, node.Shape order h lo ∧ toList h node ⊆ keys :=
        fun node hn => hq node (by simp [hn])
      rw [lookupAny] at hl
      split at hl
      case h_1 hf =>
        cases hl
        exact ⟨hsub (hs.keyVals_sublist.subset (List.mem_of_find?_eq_some hf)),
          by simpa using List.find?_some hf⟩
      case h_2 =>
        cases hs with
        | leaf => exact ih hq' hl
        | index hlo hu hc hsc =>
          have hs := Shape.index hlo hu hc hsc
          refine ih (fun node hn => ?_) hl
          cases List.mem_append.mp hn
          case inl hn => exact hq' node hn
          case inr hn =>
            obtain ⟨hsc, hsub'⟩ := hs.toList_subset (List.mem_of_mem_take hn)
            exact ⟨_, _, hsc, fun k hk => hsub (hsub' hk)⟩

-- fsm_btree_lookup finds free blocks and takes them, or leaves the tree as it is.
theorem fsmBtreeLookup_holds (blockOffset length : Nat) (h : btree.Holds s) :
    fsmBtreeLookup btree blockOffset length = (btree, 0) ∨
    ∃ btree' r, fsmBtreeLookup btree blockOffset length = (btree', r) ∧
      Finset.Ico r (r + length) ⊆ s ∧ btree'.Holds (s \ Finset.Ico r (r + length)) ∧
      ∃ key ∈ btree.keys, r = key.blockOffset := by
  match hr : btree.root with
  | none      => simp [fsmBtreeLookup, hr]
  | some root =>
    have hs := h.wf.shape root (by simp [hr])
    have hk : btree.keys = toList root.level root := by simp [FsmBtree.keys, hr]
    simp only [fsmBtreeLookup, hr]
    split
    case h_1 key hf =>
      obtain ⟨hm, he, hl⟩ := lookupAt_mem hs hf
      obtain ⟨hsub, btree', ht, hh⟩ := takeChunk_holds h (hk ▸ hm) hl
      rw [← he] at hsub hh
      simp only [ht]
      exact .inr ⟨btree', blockOffset, rfl, hsub, hh, key, hk ▸ hm, he⟩
    case h_2 =>
      split
      case h_1 key hf =>
        have hq : ∀ node ∈ [root], ∃ h lo, node.Shape btree.order h lo ∧
            toList h node ⊆ btree.keys := by
          intro node hn
          rw [List.mem_singleton.mp hn]
          exact ⟨_, _, hs, fun k h => hk ▸ h⟩
        obtain ⟨hm, hl⟩ := lookupAny_mem hq hf
        obtain ⟨hsub, btree', ht, hh⟩ := takeChunk_holds h hm hl
        simp only [ht]
        exact .inr ⟨btree', key.blockOffset, rfl, hsub, hh, key, hm, rfl⟩
      case h_2 => exact .inl rfl

end Lookup

section Free

variable {node : FsmNode FsmBtreeKey}

-- What the walk tells about the traversal of a subtree.
def FreeWalk.Found (order h lo blockOffset length : Nat) (node : FsmNode FsmBtreeKey) :
    FreeWalk → Prop
  | nothing          => True
  | before key       => key ∈ toList h node ∧ blockOffset + length = key.blockOffset
  | grown node' next => node'.Shape order h lo ∧ ∃ a k b, toList h node = a ++ k :: b ∧
    k.blockOffset + k.length = blockOffset ∧
    (∀ n ∈ next, n ∈ b ∧ n.blockOffset = blockOffset + length) ∧
    toList h node' = a ++ ⟨k.blockOffset, k.length + length + (next.map (·.length)).getD 0⟩ :: b

theorem growKey_found (hs : node.Shape order h lo) (hk : node.keyVals[i]? = some k)
    (he : k.blockOffset + k.length = blockOffset) :
    (growKey node i k length).Found order h lo blockOffset length node := by
  obtain ⟨a, b, ht, hn, hset⟩ := hs.exists_around hk
  simp only [growKey]
  split
  case h_1 => exact ⟨(hset _).left, a, k, b, ht, he, by simp, (hset _).right⟩
  case h_2 n hn' =>
    split
    case isTrue hb =>
      refine ⟨(hset _).left, a, k, b, ht, he, ?_, (hset _).right⟩
      rintro n ⟨⟩
      exact ⟨hn n hn', by omega⟩
    case isFalse => exact ⟨(hset _).left, a, k, b, ht, he, by simp, (hset _).right⟩

-- A chunk found in the last child.
theorem FreeWalk.Found.fill {H : Hole FsmBtreeKey} {c : FsmNode FsmBtreeKey}
    (hw : H.WF order h) (hs : (H.fill h c).Shape order (h + 1) lo) {child : FsmNode FsmBtreeKey}
    (hf : (FreeWalk.grown child next).Found order h (order - 1) blockOffset length c) :
    (FreeWalk.grown (H.fill h child) next).Found order (h + 1) lo blockOffset length
      (H.fill h c) := by
  obtain ⟨hsc, a, k, b, ht, he, hn, ht'⟩ := hf
  refine ⟨H.shape_fill hw hsc hs.le_nrActive hs.nrActive_le, H.pre h ++ a, k, b ++ H.post h, ?_, he,
    fun n hm => ⟨?_, (hn n hm).right⟩, ?_⟩
  · simp [H.toList_fill hw, ht]
  · exact List.mem_append_left _ (hn n hm).left
  · simp [H.toList_fill hw, ht']

-- A chunk next to the freed one is among the keys of the node.
theorem found_of_findIdx (hs : node.Shape order h lo) (hk : node.keyVals[i]? = some key)
    (hi : node.keyVals.findIdx (fun key => blockOffset = key.blockOffset + key.length ∨
      blockOffset + length = key.blockOffset) = i) :
    (if blockOffset = key.blockOffset + key.length then growKey node i key length
      else .before key).Found order h lo blockOffset length node := by
  obtain ⟨hlt, he⟩ := List.getElem?_eq_some_iff.mp hk
  have hp : blockOffset = key.blockOffset + key.length ∨ blockOffset + length = key.blockOffset := by
    subst hi he
    simpa using List.findIdx_getElem (w := hlt)
  split
  case isTrue h  => exact growKey_found hs hk h.symm
  case isFalse h =>
    exact ⟨hs.keyVals_sublist.subset (List.mem_of_getElem? hk), hp.resolve_left h⟩

theorem freeWalk_found (hs : node.Shape order h lo) :
    (freeWalk blockOffset length (h + 1) node).Found order h lo blockOffset length node := by
  induction h generalizing node lo
  case zero =>
    rw [freeWalk]
    split
    case h_1 hk => exact found_of_findIdx hs hk rfl
    case h_2    => cases hs; trivial
  case succ h ih =>
    have hty : node.type = .index := by cases hs; rfl
    rw [freeWalk]
    split
    case h_1 hk => exact found_of_findIdx hs hk rfl
    case h_2 hi =>
      -- the scan has passed all keys
      have hi := List.getElem?_eq_none_iff.mp hi
      have hle := hi.antisymm List.findIdx_le_length
      obtain ⟨H, c, rfl, hw, hk, hk', hlen, hsc⟩ := hs.exists_hole le_rfl
      rw [nrActive, hle] at hlen
      simp only [hty, ← hlen, H.child_fill hw]
      have hf := ih hsc
      split
      case h_1 child next hg =>
        rw [hg] at hf
        rw [H.setChild_fill hw]
        exact hf.fill hw hs
      case h_2 hg =>
        cases hw' : freeWalk blockOffset length (h + 1) c
        case nothing    => trivial
        case grown      => exact absurd hw' (hg _ _)
        case before key =>
          rw [hw'] at hf
          exact ⟨by rw [H.toList_fill hw]; simp [hf.left], hf.right⟩

variable {btree : FsmBtree FsmBtreeKey} {s : Finset Nat} {k : FsmBtreeKey} {a b : List FsmBtreeKey}

-- Chunks that have no block in common are told apart by their first blocks, so that one of them can
-- grow and keep its place.
theorem FsmBtree.Holds.sorted_grow (h : btree.Holds s) (hk : btree.keys = a ++ k :: b) (n : Nat) :
    Sorted (a ++ ⟨k.blockOffset, k.length + n⟩ :: b) := by
  have hs := h.sorted
  rw [hk] at hs
  obtain ⟨hsa, hsb, hb, ha⟩ := sorted_cons_iff_around.mp hs
  have hpos := h.pos
  have hd := h.parts.disjoint
  rw [hk] at hpos hd
  refine sorted_cons_iff_around.mpr ⟨hsa, hsb, fun y hy => ?_, fun y hy => ?_⟩
  · have := FsmBtreeKey.lt_iff.mp (hb y hy)
    rw [FsmBtreeKey.lt_iff]
    dsimp only
    omega
  · have hlt := FsmBtreeKey.lt_iff.mp (ha y hy)
    have hd := (List.pairwise_cons.mp (List.pairwise_append.mp hd).right.left).left y hy
    have hk := hpos k (by simp)
    have hy := hpos y (by simp [hy])
    have hne : k.blockOffset ≠ y.blockOffset := by
      intro he
      have hk' : k.blockOffset ∈ k.blocks := FsmBtreeKey.mem_blocks.mpr (by omega)
      have hy' : k.blockOffset ∈ y.blocks := FsmBtreeKey.mem_blocks.mpr (by omega)
      exact Finset.disjoint_left.mp hd hk' hy'
    rw [FsmBtreeKey.lt_iff]
    dsimp only
    omega

theorem blocks_join (length : Nat) (h : k.blockOffset + k.length = off) :
    FsmBtreeKey.blocks ⟨k.blockOffset, k.length + length⟩ =
        k.blocks ∪ FsmBtreeKey.blocks ⟨off, length⟩ ∧
      Disjoint k.blocks (FsmBtreeKey.blocks ⟨off, length⟩) := by
  constructor
  case left =>
    ext x
    simp only [FsmBtreeKey.mem_blocks, Finset.mem_union]
    omega
  case right =>
    refine Finset.disjoint_left.mpr fun x hx hy => ?_
    simp only [FsmBtreeKey.mem_blocks] at hx hy
    omega

-- The tree after a chunk has grown in place.
theorem FsmBtree.Holds.wf_grow (h : btree.Holds s) (hk : btree.keys = a ++ k :: b)
    (hs : node.Shape btree.order h' 1)
    (ht : toList h' node = a ++ ⟨k.blockOffset, k.length + n⟩ :: b) :
    ({ btree with root := some node } : FsmBtree FsmBtreeKey).WF ∧
      ({ btree with root := some node } : FsmBtree FsmBtreeKey).keys =
        a ++ ⟨k.blockOffset, k.length + n⟩ :: b := by
  obtain rfl := hs.level_eq
  refine ⟨⟨?_, ?_⟩, ht⟩
  · rintro _ ⟨⟩
    exact hs
  · rintro _ ⟨⟩
    rw [ht]
    exact h.sorted_grow hk n

theorem FsmBtree.Holds.pos_grow (h : btree.Holds s) (hk : btree.keys = a ++ k :: b) (n : Nat) :
    ∀ y ∈ a ++ ⟨k.blockOffset, k.length + n⟩ :: b, 0 < y.length := by
  have hpos := h.pos
  simp only [hk, List.mem_append, List.mem_cons] at hpos ⊢
  rintro y (hy | rfl | hy)
  · exact hpos y (.inl hy)
  · exact Nat.add_pos_left (hpos k (.inr (.inl rfl))) n
  · exact hpos y (.inr (.inr hy))

theorem FsmBtree.Holds.grow (h : btree.Holds s) (hk : btree.keys = a ++ k :: b)
    (he : k.blockOffset + k.length = off)
    (hd : Disjoint (FsmBtreeKey.blocks ⟨off, length⟩) s) :
    Owners FsmBtreeKey.blocks (⟨k.blockOffset, k.length + length⟩ :: (a ++ b))
      (FsmBtreeKey.blocks ⟨off, length⟩ ∪ s) := by
  have hp : Owners FsmBtreeKey.blocks (k :: (a ++ b)) s :=
    h.parts.perm (hk ▸ List.perm_middle)
  obtain ⟨hu, hd'⟩ := blocks_join length he
  exact (Owners.split_iff hu hd').mpr ((hp.cons hd).perm (List.Perm.swap ..))

-- The chunk has grown up to the next one, which is then deleted.
theorem FsmBtree.Holds.grow_next (h : btree.Holds s) (hk : btree.keys = a ++ k :: b)
    (he : k.blockOffset + k.length = off) (hd : Disjoint (FsmBtreeKey.blocks ⟨off, length⟩) s)
    (hb : next ∈ b) (hn : next.blockOffset = off + length) :
    Owners FsmBtreeKey.blocks
      (removeKey next (a ++ ⟨k.blockOffset, k.length + (length + next.length)⟩ :: b))
      (FsmBtreeKey.blocks ⟨off, length⟩ ∪ s) := by
  have hs := h.sorted_grow hk (length + next.length)
  have hp := h.grow hk he hd
  obtain ⟨b₁, b₂, rfl⟩ := List.append_of_mem hb
  have hp₁ : (a ++ (b₁ ++ next :: b₂)).Perm (next :: (a ++ (b₁ ++ b₂))) := by
    rw [← List.append_assoc, ← List.append_assoc]
    exact List.perm_middle
  have hj : k.blockOffset + (k.length + length) = next.blockOffset := by omega
  obtain ⟨hu, hd'⟩ := blocks_join (k := ⟨k.blockOffset, k.length + length⟩) next.length hj
  rw [Nat.add_assoc] at hu
  refine ((Owners.split_iff hu hd').mpr (hp.perm (hp₁.cons _))).perm ?_
  refine List.Perm.cons_inv (a := next) ?_
  calc next :: ⟨k.blockOffset, k.length + (length + next.length)⟩ :: (a ++ (b₁ ++ b₂))
    _ ~ ⟨k.blockOffset, k.length + (length + next.length)⟩ :: next :: (a ++ (b₁ ++ b₂)) := .swap ..
    _ ~ ⟨k.blockOffset, k.length + (length + next.length)⟩ :: (a ++ (b₁ ++ next :: b₂)) :=
      hp₁.symm.cons _
    _ ~ a ++ ⟨k.blockOffset, k.length + (length + next.length)⟩ :: (b₁ ++ next :: b₂) :=
      List.perm_middle.symm
    _ ~ _ := perm_removeKey hs (by simp)

-- Blocks in front of a chunk join it.
theorem blocks_before {key : FsmBtreeKey} (he : off + length = key.blockOffset)
    (hs : key.blocks ⊆ s) (hd : Disjoint (FsmBtreeKey.blocks ⟨off, length⟩) s) :
    Disjoint (FsmBtreeKey.blocks ⟨off, length + key.length⟩) (s \ key.blocks) ∧
      FsmBtreeKey.blocks ⟨off, length + key.length⟩ ∪ s \ key.blocks =
        FsmBtreeKey.blocks ⟨off, length⟩ ∪ s := by
  obtain ⟨hu, _⟩ := blocks_join (k := ⟨off, length⟩) key.length he
  have hu : FsmBtreeKey.blocks ⟨off, length + key.length⟩ =
      FsmBtreeKey.blocks ⟨off, length⟩ ∪ key.blocks := hu
  rw [hu, Finset.disjoint_union_left, Finset.union_assoc, Finset.union_sdiff_of_subset hs]
  exact ⟨⟨hd.mono_right Finset.sdiff_subset, Finset.disjoint_sdiff⟩, rfl⟩

-- fsm_btree_free adds blocks that were not free.
theorem fsmBtreeFree_holds (h : btree.Holds s) (hl : 0 < length)
    (hd : Disjoint (FsmBtreeKey.blocks ⟨off, length⟩) s) :
    (fsmBtreeFree btree off length).Holds (FsmBtreeKey.blocks ⟨off, length⟩ ∪ s) := by
  match hr : btree.root with
  | none =>
    obtain ⟨btree', hi, hh⟩ := h.insert hl hd
    simpa only [fsmBtreeFree, hr, hi] using hh
  | some root =>
    have hf : (freeWalk off length (root.level + 1) root).Found btree.order root.level 1 off length
        root := freeWalk_found (h.wf.shape root (by simp [hr]))
    have hk : btree.keys = toList root.level root := by simp [FsmBtree.keys, hr]
    simp only [fsmBtreeFree, hr]
    split
    case h_1 =>
      obtain ⟨btree', hi, hh⟩ := h.insert hl hd
      simpa only [hi] using hh
    case h_2 root' hw =>
      rw [hw] at hf
      obtain ⟨hs, a, k, b, ht, he, _, ht'⟩ := hf
      have hk := hk.trans ht
      obtain ⟨hw, hk'⟩ := h.wf_grow hk hs ht'
      refine ⟨hw, hk' ▸ h.pos_grow hk _, ?_⟩
      rw [hk']
      exact (h.grow hk he hd).perm List.perm_middle.symm
    case h_3 root' next hw =>
      rw [hw] at hf
      obtain ⟨hs, a, k, b, ht, he, hn, ht'⟩ := hf
      obtain ⟨hnb, hn⟩ := hn next rfl
      have hk := hk.trans ht
      rw [Option.map_some, Option.getD_some, Nat.add_assoc] at ht'
      obtain ⟨hw, hk'⟩ := h.wf_grow hk hs ht'
      obtain ⟨hw', hk''⟩ := fsmBtreeDelete_wf fsmBtreeCmpFn_compares (x := next) hw
      refine ⟨hw', fun y hy => ?_, ?_⟩
      · rw [hk'', hk', mem_removeKey] at hy
        exact h.pos_grow hk _ y hy.right
      · rw [hk'', hk']
        exact h.grow_next hk he hd hnb hn
    case h_4 key hw =>
      rw [hw] at hf
      obtain ⟨hm, he⟩ := hf
      obtain ⟨hsub, hh⟩ := h.delete (hk ▸ hm)
      obtain ⟨hx, hu⟩ := blocks_before he hsub hd
      obtain ⟨btree', hi, hh⟩ := hh.insert (Nat.add_pos_left hl _) hx
      rwa [hi, ← hu]

end Free

end Emmcfs
