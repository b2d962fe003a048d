import EmmcfsModel.Btree.RawRemove
import EmmcfsModel.Btree.Theorems.RawLayout
import EmmcfsModel.Btree.Theorems.RawSplit

namespace Emmcfs

open Code Store

section Table

open RawBtree (slotAddr)

variable {size n : Nat} {d d' : Store} {g : Nat → Nat}

-- The offsets up to the one with the index `n` are given by `g`, and what lies below them is as in `d`.
structure Retabled (size n : Nat) (d d' : Store) (g : Nat → Nat) : Prop where
  slots : ∀ j ≤ n, slotOf size d' j = g j
  below : ∀ a < slotAddr size n, d' a = d a

theorem Retabled.set (h : Retabled size n d d' g) (hn : 4 * n + 8 ≤ size) (hi : i ≤ n)
    (hv : v < 2 ^ 32) : Retabled size n d (Write.apply ⟨slotAddr size i, toLe sizeofBtOff v⟩ d')
      (Function.update g i v) where
  slots j hj := by
    by_cases he : j = i
    case pos =>
      subst he
      rw [Function.update_self, slotOf, hasAt_apply.readAt_eq length_toLe, ofLe_toLe hv]
    case neg =>
      rw [Function.update_of_ne he, ← h.slots j hj, slotOf, readAt_apply_of_apart, slotOf]
      simp only [length_toLe, slotAddr_eq, sizeofBtOff]
      omega
  below a ha := by
    rw [← h.below a ha]
    refine Write.apply_of_notMem fun hm => ?_
    simp only [Write.span, Set.mem_Ico, slotAddr_eq] at hm ha
    omega

-- The offsets before `i` have been set.
def tableAt (f g : Nat → Nat) (i j : Nat) : Nat :=
  if j < i then f j else g j

theorem tableAt_of_le (h : i ≤ j) : tableAt f g i j = g j :=
  if_neg h.not_gt

theorem tableAt_succ : tableAt f g (i + 1) = Function.update (tableAt f g i) i (f i) := by
  funext j
  simp only [tableAt, Function.update_apply]
  grind

theorem Retabled.get_field {f : DescrField} (h : Retabled size n d d' g) (hn : 4 * n + 27 ≤ size) :
    f.get d' = f.get d := by
  refine DescrField.get_congr (readAt_congr fun a ha => h.below a ?_)
  have := f.size_le
  simp only [Set.mem_Ico, slotAddr_eq, sizeofNodeDescr] at *
  omega

-- The descriptor is no part of it.
theorem Retabled.of_eqOn (h : Retabled size n d d' g) (hn : 4 * n + 27 ≤ size)
    (he : ∀ a, sizeofNodeDescr ≤ a → d'' a = d' a) : Retabled size n d'' d'' g where
  below _ _ := rfl
  slots j hj := by
    rw [← h.slots j hj]
    refine congrArg ofLe (readAt_congr fun a ha => he a ?_)
    simp only [Set.mem_Ico, slotAddr_eq, sizeofNodeDescr] at *
    omega

end Table

namespace RawBtree

variable {tree : BtreeOps κ} {s : RawBtree} {id n : Nat} {H : Prop} {E : Errno → RawBtree → Prop}
  {Q : Unit → RawBtree → Prop} {d : Store}

-- A loop over the offsets of a node: before the turn `i` they are those of `T i`.
theorem wp_turns {m : (turns i : Nat) → RawCode Unit} {T : Nat → Nat → Nat}
    (hstep : ∀ turns i d', k ≤ i → i < stop → Retabled tree.nodeSizeBytes n d d' (T i) →
      (∀ d'', Retabled tree.nodeSizeBytes n d d'' (T (i + 1)) →
        wp (m turns (i + 1)) Q E H (s.setNode id d'')) →
      wp (m (turns + 1) i) Q E H (s.setNode id d'))
    (hstop : ∀ turns d', Retabled tree.nodeSizeBytes n d d' (T stop) → Q () (s.setNode id d') →
      wp (m turns stop) Q E H (s.setNode id d'))
    (hk : k ≤ i) (hi : i ≤ stop) (ht : stop ≤ i + turns) (h : Retabled tree.nodeSizeBytes n d d' (T i))
    (hq : ∀ d', Retabled tree.nodeSizeBytes n d d' (T stop) → Q () (s.setNode id d')) :
    wp (m turns i) Q E H (s.setNode id d') := by
  induction turns generalizing i d'
  case zero =>
    cases Nat.le_antisymm hi (by simpa using ht)
    exact hstop 0 d' h (hq d' h)
  case succ turns ih =>
    by_cases hlt : i < stop
    case pos => exact hstep turns i d' hk hlt h fun d'' h'' => ih (by omega) hlt (by omega) h''
    case neg =>
      cases Nat.le_antisymm hi (not_lt.mp hlt)
      exact hstop _ d' h (hq d' h)

theorem wp_decreaseOffsets {g : Nat → Nat} (hn : 4 * n + 27 ≤ tree.nodeSizeBytes)
    (hc : DescrField.recsCount.get d = n) (h : Retabled tree.nodeSizeBytes n d d' g)
    (hg : ∀ j < n, del < g j → len < g j ∧ g j < tree.nodeSizeBytes) (ht : n ≤ turns)
    (hq : ∀ d', Retabled tree.nodeSizeBytes n d d' (tableAt (fun j => movedTo del len (g j)) g n) →
      Q () (s.setNode id d')) :
    wp (decreaseOffsets tree id del len turns 0) Q E H (s.setNode id d') := by
  have hle := tree.node_size_le
  refine wp_turns (T := tableAt (fun j => movedTo del len (g j)) g) (fun turns i d₁ _ hi h₁ hnext => ?_)
    (fun turns d₁ h₁ hq => ?_) (le_refl 0) (Nat.zero_le n) (by omega) h hq
  case refine_1 =>
    have hcur : slotOf tree.nodeSizeBytes d₁ i = g i := (h₁.slots i hi.le).trans (tableAt_of_le (le_refl i))
    rw [decreaseOffsets, wp_bind, wp_field, nodes_setNode_self, h₁.get_field hn, hc, if_pos hi, wp_bind,
      wp_getOffset (by omega), nodes_setNode_self, hcur]
    dsimp only
    split
    case isTrue hlt =>
      obtain ⟨hlen, hsize⟩ := hg i hi hlt
      rw [wp_bind, u32Sub_of_le hlen.le (by omega), wp_checkSetOffset (by omega) ⟨by omega, by omega⟩,
        nodes_setNode_self, setNode_setNode]
      refine hnext _ ?_
      rw [tableAt_succ, movedTo, if_pos hlt]
      exact h₁.set (by omega) hi.le (by omega)
    case isFalse hlt =>
      refine hnext d₁ ?_
      rwa [tableAt_succ, movedTo, if_neg hlt,
        Function.update_eq_self_iff.mpr (tableAt_of_le (le_refl i)).symm]
  case refine_2 =>
    cases turns
    case zero => exact hq
    case succ =>
      rw [decreaseOffsets, wp_bind, wp_field, nodes_setNode_self, h₁.get_field hn, hc,
        if_neg (lt_irrefl n)]
      exact hq

theorem wp_shiftOffsets {g : Nat → Nat} (hn : 4 * n + 27 ≤ tree.nodeSizeBytes)
    (hc : DescrField.recsCount.get d = n) (h : Retabled tree.nodeSizeBytes n d d' g)
    (hg : ∀ j ≤ n, IsOffsetCorrect tree (g j)) (hk : k ≤ n) (ht : n ≤ k + turns)
    (hq : ∀ d', Retabled tree.nodeSizeBytes n d d'
      (tableAt (fun j => if j < k then g j else g (j + 1)) g n) → Q () (s.setNode id d')) :
    wp (shiftOffsets tree id turns k) Q E H (s.setNode id d') := by
  have hle := tree.node_size_le
  have hstart : tableAt (fun j => if j < k then g j else g (j + 1)) g k = g := by
    funext j
    simp only [tableAt]
    grind
  refine wp_turns (T := tableAt (fun j => if j < k then g j else g (j + 1)) g)
    (fun turns i d₁ hki hi h₁ hnext => ?_) (fun turns d₁ h₁ hq => ?_) (le_refl k) hk ht
    (by rwa [hstart]) hq
  case refine_1 =>
    have hnew : slotOf tree.nodeSizeBytes d₁ (i + 1) = g (i + 1) :=
      (h₁.slots (i + 1) hi).trans (tableAt_of_le (Nat.le_add_right ..))
    have hcorrect := hg (i + 1) hi
    rw [shiftOffsets, wp_bind, wp_field, nodes_setNode_self, h₁.get_field hn, hc, if_pos hi, wp_bind,
      wp_getOffset (by omega), nodes_setNode_self, hnew, wp_bind, wp_checkSetOffset (by omega) hcorrect,
      nodes_setNode_self, setNode_setNode]
    refine hnext _ ?_
    have := hcorrect.right
    rw [tableAt_succ, if_neg hki.not_gt]
    exact h₁.set (by omega) hi.le (by omega)
  case refine_2 =>
    cases turns
    case zero => exact hq
    case succ =>
      rw [shiftOffsets, wp_bind, wp_field, nodes_setNode_self, h₁.get_field hn, hc, if_neg (lt_irrefl n)]
      exact hq

section Compact

variable {del len free : Nat}

-- A node after the memmove of delete_from_node.
def compacted (d : Store) (del len free : Nat) : Store :=
  Write.apply ⟨del, readAt d (del + len) (free - del - len)⟩ d

theorem get_compacted {f : DescrField} (h : sizeofNodeDescr ≤ del) :
    f.get (compacted d del len free) = f.get d :=
  DescrField.get_apply h

theorem compacted_of_lt (h : a < del) : compacted d del len free a = d a :=
  Write.apply_of_lt h

theorem compacted_of_le (ha : del + len ≤ a) (hlt : a < free) :
    compacted d del len free (a - len) = d a := by
  obtain ⟨i, rfl⟩ := Nat.exists_eq_add_of_le ha
  rw [show del + len + i - len = del + i by omega]
  exact apply_copy_add (by omega)

theorem retabled_compacted (hd : del ≤ free) (hf : free ≤ slotAddr size n) :
    Retabled size n (compacted d del len free) (compacted d del len free) (slotOf size d) where
  below _ _ := rfl
  slots j hj := by
    refine congrArg ofLe (readAt_apply_of_apart (.inl ?_))
    simp only [length_readAt, slotAddr_eq] at hf ⊢
    omega

-- The offsets after the two loops of delete_from_node.
def decreasedTable (size : Nat) (d : Store) (k n len : Nat) : Nat → Nat :=
  tableAt (fun j => movedTo (slotOf size d k) len (slotOf size d j)) (slotOf size d) n

def shiftedTable (size : Nat) (d : Store) (k n len : Nat) : Nat → Nat :=
  tableAt (fun j => if j < k then decreasedTable size d k n len j else decreasedTable size d k n len (j + 1))
    (decreasedTable size d k n len) n

theorem shiftedTable_eq (hj : j + 1 < n) : shiftedTable size d k n len j =
    movedTo (slotOf size d k) len (slotOf size d (if j < k then j else j + 1)) := by
  simp only [shiftedTable, decreasedTable, tableAt, hj, Nat.lt_of_succ_lt hj, if_true]
  split <;> rfl

-- What is written after them.
def deleteFields (size : Nat) (d : Store) (n len free : Nat) (d' : Store) : Store :=
  Write.apply ⟨slotAddr size (n - 1), toLe sizeofBtOff (free - len)⟩
    ((DescrField.freeSpace.set (DescrField.freeSpace.get d + (len + sizeofBtOff))).apply
      ((DescrField.recsCount.set (n + 2 ^ 16 - 1)).apply d'))

theorem deleted_of_retabled (h : NodeLayout size d recs) (hk : recs[k]? = some r) (hsize : size ≤ 65536)
    (ht : Retabled size recs.length
      (compacted d (slotOf size d k) r.length (slotOf size d recs.length)) d'
      (shiftedTable size d k recs.length r.length)) :
    RecordDeleted size d (deleteFields size d recs.length r.length (slotOf size d recs.length) d') k
      recs.length r.length := by
  have hlt := (List.getElem?_eq_some_iff.mp hk).choose
  have hfits := h.fits
  have hdel := (h.slot_bounds hlt.le).left
  obtain ⟨_, _, _, _, _, _, hend⟩ := h.split hk
  generalize hd₄ : (DescrField.freeSpace.set (DescrField.freeSpace.get d + (r.length + sizeofBtOff))).apply
    ((DescrField.recsCount.set (recs.length + 2 ^ 16 - 1)).apply d') = d₄
  have hsame (a) (ha : sizeofNodeDescr ≤ a) : d₄ a = d' a := by
    rw [← hd₄, DescrField.apply_set_of_le ha, DescrField.apply_set_of_le ha]
  have h₄ := ht.of_eqOn (by omega) hsame
  have h₅ := h₄.set (i := recs.length - 1) (v := slotOf size d recs.length - r.length) (by omega)
    (by omega) (by omega)
  rw [deleteFields, hd₄]
  -- Below the offsets the bytes are those after the memmove.
  have hdata (a) (ha : sizeofNodeDescr ≤ a) (hf : a < slotOf size d recs.length) :
      Write.apply ⟨slotAddr size (recs.length - 1), toLe sizeofBtOff
        (slotOf size d recs.length - r.length)⟩ d₄ a =
      compacted d (slotOf size d k) r.length (slotOf size d recs.length) a := by
    have hbelow : a < slotAddr size recs.length := by
      rw [slotAddr_eq]
      omega
    rw [h₅.below a hbelow, hsame a ha, ht.below a hbelow]
  refine ⟨?_, ?_, fun j hj => ?_, fun j hj => ?_, fun a ha hlt => ?_, fun a ha hlt => ?_⟩
  case refine_1 =>
    rw [h₅.get_field (by omega), ← hd₄, DescrField.get_set_of_ne (by decide), DescrField.get_set_self]
    simp only [DescrField.size]
    omega
  case refine_2 =>
    rw [h₅.get_field (by omega), ← hd₄, DescrField.get_set_self]
    simp only [DescrField.size, sizeofBtOff]
    omega
  case refine_3 =>
    rw [h₅.slots j (by omega), Function.update_of_ne (by omega), shiftedTable_eq hj]
  case refine_4 =>
    rw [h₅.slots j (by omega), show j = recs.length - 1 by omega, Function.update_self]
  case refine_5 => rw [hdata a ha (by omega), compacted_of_lt hlt]
  case refine_6 =>
    rw [hdata _ (by simp only [sizeofNodeDescr]; omega) (by omega), compacted_of_le ha hlt]

end Compact

theorem wp_fillFreeSpace (h : NodeLayout tree.nodeSizeBytes (s.nodes id) recs)
    (hq : ∀ d, NodeLayout tree.nodeSizeBytes d recs → Q () (s.setNode id d)) :
    wp (fillFreeSpace tree id) Q E H s := by
  have hfits := h.fits
  have hfree := h.slot_bounds (le_refl recs.length)
  have haddr : slotOf tree.nodeSizeBytes (s.nodes id) recs.length +
      DescrField.freeSpace.get (s.nodes id) = slotAddr tree.nodeSizeBytes recs.length := by
    rw [slotAddr_eq]
    omega
  rw [fillFreeSpace, wp_bind, wp_field, h.count, wp_bind, wp_getOffsetAddr (by omega), wp_bind, wp_load]
  change wp (if IsOffsetCorrect tree (slotOf ..) then do
    let freeSpace ← field id .freeSpace
    Code.haltOn (slotOf .. + freeSpace ≠ _)
    store id ⟨slotOf .., List.replicate freeSpace 0xA5#8⟩ else _) ..
  rw [if_pos ⟨by omega, by omega⟩, wp_bind, wp_field, wp_bind, wp_haltOn, wp_store]
  refine ⟨fun hne => absurd haddr hne, fun _ => hq _ (h.of_eqOn ?_ ?_ ?_ ?_)⟩
  case refine_1 => exact DescrField.get_apply hfree.left
  case refine_2 => exact DescrField.get_apply hfree.left
  all_goals
    refine fun a ha => Write.apply_of_notMem fun hm => ?_
    have hfree := h.free
    simp only [Write.span, List.length_replicate, Set.mem_Ico, Set.mem_Ici] at hm ha
    omega

theorem wp_deleteAt (h : NodeLayout tree.nodeSizeBytes (s.nodes id) recs) (hk : recs[k]? = some r)
    (hq : ∀ d, NodeLayout tree.nodeSizeBytes d (recs.eraseIdx k) → Q () (s.setNode id d)) :
    wp (deleteAt tree debug id k (slotOf tree.nodeSizeBytes (s.nodes id) k) r.length
      (slotOf tree.nodeSizeBytes (s.nodes id) recs.length) (slotOf tree.nodeSizeBytes (s.nodes id) k))
      Q E H s := by
  have hle := tree.node_size_le
  have hlt := (List.getElem?_eq_some_iff.mp hk).choose
  have hfits := h.fits
  obtain ⟨hdel, hdelfree⟩ := h.slot_bounds hlt.le
  obtain ⟨_, _, _, _, _, _, hend⟩ := h.split hk
  have hbehind (j) (hj : j < recs.length) := h.slot_behind hk hj
  have hbounds (j) (hj : j ≤ recs.length) := h.slot_bounds hj
  have hcount := h.count
  have hoffset (j) (hj : j ≤ recs.length) :
      IsOffsetCorrect tree (decreasedTable tree.nodeSizeBytes (s.nodes id) k recs.length r.length j) := by
    have := hbounds j hj
    rw [decreasedTable, tableAt]
    split
    case isFalse => exact ⟨by omega, by omega⟩
    case isTrue hj =>
      have := hbehind j hj
      rw [movedTo]
      split <;> exact ⟨by omega, by omega⟩
  rw [deleteAt, wp_bind, wp_load, wp_bind, wp_store, u32Sub_of_le hdelfree (by omega),
    u32Sub_of_le (by omega) (by omega), u32Sub_of_le (by omega) (by omega), ← compacted]
  have hc : DescrField.recsCount.get (compacted (s.nodes id) (slotOf tree.nodeSizeBytes (s.nodes id) k)
      r.length (slotOf tree.nodeSizeBytes (s.nodes id) recs.length)) = recs.length :=
    (get_compacted hdel).trans hcount
  have htable : slotOf tree.nodeSizeBytes (s.nodes id) recs.length ≤
      slotAddr tree.nodeSizeBytes recs.length := by
    rw [slotAddr_eq]
    omega
  rw [wp_bind]
  refine wp_decreaseOffsets (by omega) hc (retabled_compacted hdelfree htable) (fun j hj hlt => ?_)
    (by rw [maxTurns]; omega) fun d₂ h₂ => ?_
  · have := hbehind j hj hlt
    have := hbounds j hj.le
    omega
  rw [wp_bind]
  refine wp_shiftOffsets (by omega) hc h₂ hoffset hlt.le (by rw [maxTurns]; omega) fun d₃ h₃ => ?_
  have hcount₃ : DescrField.recsCount.get d₃ = recs.length := (h₃.get_field (by omega)).trans hc
  have hspace₃ : DescrField.freeSpace.get d₃ = DescrField.freeSpace.get (s.nodes id) :=
    (h₃.get_field (by omega)).trans (get_compacted hdel)
  have hless : (recs.length + 2 ^ 16 - 1) % 256 ^ DescrField.recsCount.size = recs.length - 1 := by
    simp only [DescrField.size]
    omega
  simp only [wp_bind, wp_field, wp_store, nodes_setNode_self, setNode_setNode, hcount₃]
  rw [DescrField.get_set_of_ne (by decide), DescrField.get_set_self, hless,
    DescrField.get_set_of_ne (by decide), hspace₃, wp_checkSetOffset (by omega) ⟨by omega, by omega⟩,
    nodes_setNode_self, setNode_setNode, ← deleteFields]
  have hlayout := h.delete hk (deleted_of_retabled h hk hle h₃)
  cases debug
  case false => exact hq _ hlayout
  case true  =>
    refine wp_fillFreeSpace (by rwa [nodes_setNode_self]) fun d hd => ?_
    rw [setNode_setNode]
    exact hq d hd

theorem wp_deleteFromNode (h : NodeLayout tree.nodeSizeBytes (s.nodes id) recs) (hk : k < recs.length)
    (hq : ∀ d, NodeLayout tree.nodeSizeBytes d (recs.eraseIdx k) → Q () (s.setNode id d)) :
    wp (deleteFromNode tree debug id k) Q E H s := by
  have hfits := h.fits
  have hr := List.getElem?_eq_getElem hk
  have hdel := h.slot_bounds hk.le
  have hok := h.ok _ (List.mem_of_getElem? hr)
  rw [deleteFromNode, wp_bind, wp_onFail]
  refine wp_getRecord h hr fun hheld => ?_
  have hlen : recordLen (fun a => s.nodes id (slotOf tree.nodeSizeBytes (s.nodes id) k + a)) =
      recs[k].length := by
    refine hok.recordLen_eq fun i b hb => ?_
    rw [Nat.zero_add]
    exact hheld i b hb
  have hfree := h.slot_bounds (le_refl recs.length)
  rw [wp_bind, wp_get, wp_bind, wp_field, h.count, wp_bind, wp_getOffset (by omega), wp_bind,
    wp_getOffset (by omega), if_pos ⟨⟨by omega, by omega⟩, by omega, by omega⟩, hlen]
  exact wp_deleteAt h hr hq

section Merge

variable {left right : Nat} {recs recs' : List (List Byte)} {size m : Nat} {dl dr d' : Store}

theorem wp_checkOffsets {Q : Bool → RawBtree → Prop}
    (h : NodeLayout tree.nodeSizeBytes (s.nodes id) recs) (hi : i + rest ≤ recs.length) (hq : Q true s) :
    wp (checkOffsets tree id rest i) Q E H s := by
  have hfits := h.fits
  induction rest generalizing i
  case zero => exact hq
  case succ rest ih =>
    have := h.slot_bounds (show i ≤ recs.length by omega)
    rw [checkOffsets, wp_bind, wp_getOffset (by omega), if_pos ⟨by omega, by omega⟩]
    exact ih (by omega)

theorem wp_checkBnodeOffsetArea {Q : Bool → RawBtree → Prop}
    (h : NodeLayout tree.nodeSizeBytes (s.nodes id) recs) (hq : Q true s) :
    wp (checkBnodeOffsetArea tree id) Q E H s := by
  rw [checkBnodeOffsetArea, wp_bind, wp_field, h.count]
  exact wp_checkOffsets h (Nat.zero_add _).le hq

-- The offsets of both nodes' records in the left one.
def mergedTable (size : Nat) (dl dr : Store) (n j : Nat) : Nat :=
  if j < n then slotOf size dl j else slotOf size dl n + slotOf size dr (j - n) - sizeofNodeDescr

theorem wp_mergeOffsets {g : Nat → Nat} (hne : right ≠ left) (hn : 4 * (n + m) + 27 ≤ tree.nodeSizeBytes)
    (hc : DescrField.recsCount.get d = n) (hm : DescrField.recsCount.get (s.nodes right) = m)
    (hoffset : ∀ j ≤ m, 19 ≤ slotOf tree.nodeSizeBytes (s.nodes right) j ∧
      start + slotOf tree.nodeSizeBytes (s.nodes right) j < tree.nodeSizeBytes + 19)
    (hstart : slotOf tree.nodeSizeBytes dl n = start) (hpos : 19 ≤ start)
    (h : Retabled tree.nodeSizeBytes (n + m) d d'
      (tableAt (mergedTable tree.nodeSizeBytes dl (s.nodes right) n) g n)) (ht : m < turns)
    (hq : ∀ d', Retabled tree.nodeSizeBytes (n + m) d d'
      (tableAt (mergedTable tree.nodeSizeBytes dl (s.nodes right) n) g (n + (m + 1))) →
      Q () (s.setNode left d')) :
    wp (mergeOffsets tree left right start turns 0) Q E H (s.setNode left d') := by
  have hle := tree.node_size_le
  refine wp_turns (T := fun i => tableAt (mergedTable tree.nodeSizeBytes dl (s.nodes right) n) g (n + i))
    (fun turns i d₁ _ hi h₁ hnext => ?_) (fun turns d₁ h₁ hq => ?_) (le_refl 0) (Nat.zero_le (m + 1))
    (by omega) h hq
  case refine_1 =>
    obtain ⟨hge, hlt⟩ := hoffset i (Nat.lt_succ_iff.mp hi)
    have h19 : sizeofNodeDescr = 19 := rfl
    have hnew : mergedTable tree.nodeSizeBytes dl (s.nodes right) n (n + i) =
        start + slotOf tree.nodeSizeBytes (s.nodes right) i - sizeofNodeDescr := by
      rw [mergedTable, if_neg (by omega), Nat.add_sub_cancel_left, hstart]
    rw [mergeOffsets, wp_bind, wp_field, nodes_setNode_of_ne hne, hm, if_pos (Nat.lt_succ_iff.mp hi),
      wp_bind, wp_field, nodes_setNode_self, h₁.get_field hn, hc, wp_bind, wp_getOffset (by omega),
      nodes_setNode_of_ne hne, wp_bind, wp_bugOnError,
      u32Sub_of_le (by omega) (by omega), wp_checkSetOffset (by omega) ⟨by omega, by omega⟩,
      nodes_setNode_self, setNode_setNode, Nat.add_comm i n]
    refine hnext _ ?_
    change Retabled _ _ _ _ (tableAt _ g (n + i + 1))
    rw [tableAt_succ, hnew]
    exact h₁.set (by omega) (by omega) (by omega)
  case refine_2 =>
    cases turns
    case zero => exact hq
    case succ =>
      rw [mergeOffsets, wp_bind, wp_field, nodes_setNode_of_ne hne, hm, if_neg (by omega)]
      exact hq

-- The left node with the bytes of the right one's records.
def joined (size : Nat) (dl dr : Store) (n m : Nat) : Store :=
  Write.apply ⟨slotOf size dl n, readAt dr sizeofNodeDescr (slotOf size dr m - sizeofNodeDescr)⟩ dl

theorem joined_of_lt (h : a < slotOf size dl n) : joined size dl dr n m a = dl a :=
  Write.apply_of_lt h

theorem joined_of_le (ha : sizeofNodeDescr ≤ a) (hlt : a < slotOf size dr m) :
    joined size dl dr n m (slotOf size dl n + a - sizeofNodeDescr) = dr a := by
  obtain ⟨i, rfl⟩ := Nat.exists_eq_add_of_le ha
  rw [show slotOf size dl n + (sizeofNodeDescr + i) - sizeofNodeDescr = slotOf size dl n + i by omega]
  exact apply_copy_add (by omega)

def mergedFields (size : Nat) (dl dr : Store) (n m : Nat) (d' : Store) : Store :=
  (DescrField.nextNodeId.set (DescrField.nextNodeId.get dr)).apply
    ((DescrField.recsCount.set (n + m)).apply
      ((DescrField.freeSpace.set (u64Sub (DescrField.freeSpace.get dl)
        (u64Sub (slotOf size dr m) sizeofNodeDescr + m * sizeofBtOff))).apply d'))

-- Both nodes' records fit into one.
structure Fits (size : Nat) (dl dr : Store) (n m : Nat) : Prop where
  left_ge  : 19 ≤ slotOf size dl n
  right_ge : 19 ≤ slotOf size dr m
  room     : slotOf size dl n + slotOf size dr m + 4 * (n + m) ≤ size + 11
  space    : slotOf size dr m + 4 * m ≤ DescrField.freeSpace.get dl + 19
  size_le  : size ≤ 65536

theorem fits_of_sum (h : NodeLayout size dl recs) (h' : NodeLayout size dr recs')
    (hsize : size ≤ 65536) (hsum : size ≤ DescrField.freeSpace.get dl + DescrField.freeSpace.get dr) :
    Fits size dl dr recs.length recs'.length := by
  have := h.fits
  have := h'.fits
  exact ⟨(h.slot_bounds (le_refl _)).left, (h'.slot_bounds (le_refl _)).left, by omega, by omega, hsize⟩

theorem merged_of_retabled (h : Fits size dl dr n m) (ht : Retabled size (n + m) (joined size dl dr n m) d'
    (tableAt (mergedTable size dl dr n) g (n + (m + 1)))) :
    RecordsMerged size dl dr (mergedFields size dl dr n m d') n m := by
  obtain ⟨hl, hr, hroom, hspace, hsize⟩ := h
  have h19 : sizeofNodeDescr = 19 := rfl
  have hsame (a) (ha : sizeofNodeDescr ≤ a) : mergedFields size dl dr n m d' a = d' a := by
    rw [mergedFields, DescrField.apply_set_of_le ha, DescrField.apply_set_of_le ha,
      DescrField.apply_set_of_le ha]
  have h₃ := ht.of_eqOn (by omega) hsame
  have hdata (a) (ha : sizeofNodeDescr ≤ a) (hlt : a < slotOf size dl n + slotOf size dr m - 19) :
      mergedFields size dl dr n m d' a = joined size dl dr n m a := by
    rw [hsame a ha, ht.below a (by rw [slotAddr_eq]; omega)]
  refine ⟨?_, ?_, fun j hj => ?_, fun j hj => ?_, fun a ha hlt => ?_, fun a ha hlt => ?_⟩
  case refine_1 =>
    rw [mergedFields, DescrField.get_set_of_ne (by decide), DescrField.get_set_self]
    simp only [DescrField.size]
    omega
  case refine_2 =>
    have hlt : DescrField.freeSpace.get dl < 256 ^ 2 := DescrField.get_lt ..
    have hbytes : u64Sub (slotOf size dr m) sizeofNodeDescr = slotOf size dr m - 19 :=
      u64Sub_of_le hr (by omega)
    rw [mergedFields, DescrField.get_set_of_ne (by decide), DescrField.get_set_of_ne (by decide),
      DescrField.get_set_self, hbytes]
    simp only [sizeofBtOff, DescrField.size]
    rw [u64Sub_of_le (by omega) (by omega)]
    omega
  case refine_3 => rw [h₃.slots j (by omega), tableAt, if_pos (by omega), mergedTable, if_pos hj]
  case refine_4 =>
    rw [h₃.slots _ (by omega), tableAt, if_pos (by omega), mergedTable, if_neg (by omega),
      Nat.add_sub_cancel_left]
  case refine_5 => rw [hdata a ha (by omega), joined_of_lt hlt]
  case refine_6 => rw [hdata _ (by omega) (by omega), joined_of_le ha hlt]

theorem get_joined {f : DescrField} (h : Fits size dl dr n m) : f.get (joined size dl dr n m) = f.get dl :=
  DescrField.get_apply h.left_ge

theorem slotOf_joined (h : Fits size dl dr n m) (hj : j ≤ n) :
    slotOf size (joined size dl dr n m) j = slotOf size dl j := by
  obtain ⟨hl, hr, hroom, _, _⟩ := h
  refine congrArg ofLe (readAt_apply_of_apart (.inl ?_))
  simp only [length_readAt, slotAddr_eq, sizeofNodeDescr]
  omega

theorem wp_mergeBytes (hl : DescrField.recsCount.get (s.nodes right) = m)
    (h : Fits tree.nodeSizeBytes (s.nodes left) (s.nodes right) n m) :
    wp (mergeBytes tree left right (slotOf tree.nodeSizeBytes (s.nodes left) n)) Q E H s ↔
      Q () (s.setNode left (joined tree.nodeSizeBytes (s.nodes left) (s.nodes right) n m)) := by
  obtain ⟨_, hr, hroom, _, hsize⟩ := h
  rw [mergeBytes, wp_bind, wp_field, hl, wp_bind, wp_getOffset (by omega), wp_bind, wp_load, wp_store,
    u64Sub_of_le (show sizeofNodeDescr ≤ _ from hr) (by omega), ← joined]

theorem wp_mergeFields (hne : right ≠ left) (hl : DescrField.recsCount.get d' = n)
    (hf : DescrField.freeSpace.get d' = DescrField.freeSpace.get (s.nodes left))
    (hr : DescrField.recsCount.get (s.nodes right) = m)
    (h : Fits tree.nodeSizeBytes (s.nodes left) (s.nodes right) n m) :
    wp (mergeFields tree left right) Q E H (s.setNode left d') ↔
      Q () (s.setNode left (mergedFields tree.nodeSizeBytes (s.nodes left) (s.nodes right) n m d')) := by
  obtain ⟨_, _, hroom, _, hsize⟩ := h
  simp only [mergeFields, wp_bind, wp_field, wp_getOffset (show 4 * m + 8 ≤ tree.nodeSizeBytes by omega),
    wp_store, nodes_setNode_self, setNode_setNode, nodes_setNode_of_ne hne, hf, hr,
    DescrField.get_set_of_ne (show DescrField.recsCount ≠ .freeSpace by decide), hl, mergedFields]

theorem wp_mergeNodes (hne : right ≠ left) (h : NodeLayout tree.nodeSizeBytes (s.nodes left) recs)
    (h' : NodeLayout tree.nodeSizeBytes (s.nodes right) recs')
    (hsum : tree.nodeSizeBytes ≤ DescrField.freeSpace.get (s.nodes left) +
      DescrField.freeSpace.get (s.nodes right))
    (hq : ∀ d, NodeLayout tree.nodeSizeBytes d (recs ++ recs') → Q () (s.setNode left d)) :
    wp (mergeNodes tree left right) Q E H s := by
  have hfits := fits_of_sum h h' tree.node_size_le hsum
  obtain ⟨hl, hr, hroom, _, hsize⟩ := fits_of_sum h h' tree.node_size_le hsum
  rw [mergeNodes, wp_bind]
  refine wp_checkBnodeOffsetArea h ?_
  rw [if_pos rfl, wp_bind]
  refine wp_checkBnodeOffsetArea h' ?_
  beta_reduce
  rw [if_pos rfl, wp_bind, wp_field, h.count, wp_bind, wp_getOffsetAddr (by omega), wp_bind, wp_load,
    ← slotOf, wp_bind, wp_mergeBytes h'.count hfits, wp_bind, wp_field, nodes_setNode_self,
    get_joined hfits, h.count, wp_bind, wp_getOffset (by omega), nodes_setNode_self,
    slotOf_joined hfits (le_refl _), wp_bind]
  have hfree := h'.fits
  have htable : Retabled tree.nodeSizeBytes (recs.length + recs'.length)
      (joined tree.nodeSizeBytes (s.nodes left) (s.nodes right) recs.length recs'.length)
      (joined tree.nodeSizeBytes (s.nodes left) (s.nodes right) recs.length recs'.length)
      (tableAt (mergedTable tree.nodeSizeBytes (s.nodes left) (s.nodes right) recs.length)
        (slotOf tree.nodeSizeBytes
          (joined tree.nodeSizeBytes (s.nodes left) (s.nodes right) recs.length recs'.length))
        recs.length) := by
    refine ⟨fun j _ => ?_, fun _ _ => rfl⟩
    rw [tableAt, mergedTable]
    split
    case isTrue hj => exact slotOf_joined hfits hj.le
    case isFalse   => rfl
  refine wp_mergeOffsets hne (by omega) ((get_joined hfits).trans h.count) h'.count (fun j hj => ?_) rfl hl
    htable (by rw [maxTurns]; omega) fun d₂ h₂ => ?_
  case refine_1 =>
    have := h'.slot_bounds hj
    omega
  case refine_2 =>
    rw [wp_mergeFields hne ((h₂.get_field (by omega)).trans ((get_joined hfits).trans h.count))
      ((h₂.get_field (by omega)).trans (get_joined hfits)) h'.count hfits]
    exact hq _ (h.merge h' (merged_of_retabled hfits h₂))

end Merge

section Operations

variable {recs before behind : List (List Byte)} {r : List Byte}

theorem insertIdx_length : (before ++ behind).insertIdx before.length r = before ++ r :: behind := by
  induction before
  case nil            => rfl
  case cons q before ih => simpa using ih

theorem returns_setNode {m : RawCode Unit} {P : Store → Prop}
    (h : wp m (fun _ s' => ∃ d, s' = s.setNode id d ∧ P d) (fun _ _ => False) False s) :
    ∃ d, m s = .ok () (s.setNode id d) ∧ P d := by
  obtain ⟨_, hrun, d, hs, hd⟩ := wp_returns_unit h
  exact ⟨d, hs ▸ hrun, hd⟩

theorem insertIntoNode_insertIdx {record : Store} (h : NodeLayout tree.nodeSizeBytes (s.nodes id) recs)
    (hr : RecordOk r) (hd : HasAt record 0 r) (hf : ¬IsNodeFull (s.nodes id) record)
    (hp : pos ≤ recs.length) :
    ∃ d, insertIntoNode tree id record pos s = .ok () (s.setNode id d) ∧
      NodeLayout tree.nodeSizeBytes d (recs.insertIdx pos r) := by
  rw [IsNodeFull, hr.recordLen_eq hd, not_lt] at hf
  have hlen : (recs.take pos).length = pos := List.length_take_of_le hp
  rw [← List.take_append_drop pos recs] at h
  have hrun := returns_setNode (wp_insertIntoNode h hr hd hf fun d hd _ _ => ⟨d, rfl, hd⟩)
  rwa [← insertIdx_length, hlen, List.take_append_drop] at hrun

-- The layout of a node is kept by insertions at any place that is_node_full admits, by deletions and
-- by merging with a node if the free space of both is a node's size; the records are those of the list
-- after the insertion, the deletion or the concatenation. Nothing fails, and no other node is changed.
theorem nodeLayout_preserved (h : NodeLayout tree.nodeSizeBytes (s.nodes id) recs) :
    (∀ record r pos, RecordOk r → HasAt record 0 r → ¬IsNodeFull (s.nodes id) record →
      pos ≤ recs.length → ∃ d, insertIntoNode tree id record pos s = .ok () (s.setNode id d) ∧
        NodeLayout tree.nodeSizeBytes d (recs.insertIdx pos r)) ∧
    (∀ debug k, k < recs.length → ∃ d, deleteFromNode tree debug id k s = .ok () (s.setNode id d) ∧
      NodeLayout tree.nodeSizeBytes d (recs.eraseIdx k)) ∧
    (∀ right recs', right ≠ id → NodeLayout tree.nodeSizeBytes (s.nodes right) recs' →
      tree.nodeSizeBytes ≤ DescrField.freeSpace.get (s.nodes id) +
        DescrField.freeSpace.get (s.nodes right) →
      ∃ d, mergeNodes tree id right s = .ok () (s.setNode id d) ∧
        NodeLayout tree.nodeSizeBytes d (recs ++ recs')) := by
  refine ⟨fun record r pos hr hd hf hp => insertIntoNode_insertIdx h hr hd hf hp,
    fun debug k hk => returns_setNode ?_, fun right recs' hne h' hsum => returns_setNode ?_⟩
  case refine_1 => exact wp_deleteFromNode h hk fun d hd => ⟨d, rfl, hd⟩
  case refine_2 => exact wp_mergeNodes hne h h' hsum fun d hd => ⟨d, rfl, hd⟩

theorem freeSpace_longNode (h : n ≤ 8) : DescrField.freeSpace.get (longNode n) + 483 * n = 4069 := by
  have hs := (layout_longNode h).left.space
  simp only [recordSpace, List.map_replicate, List.sum_replicate_nat, sizeofNodeDescr, sizeofBtOff,
    bnodeFirstOffset, length_longRecord] at hs
  omega

-- A record is put between two others, one is taken away, and the records of two nodes are put together.
theorem nodeLayout_preserved_longNode : ∃ s : RawBtree, s.nodes 1 = longNode 2 ∧ s.nodes 2 = longNode 3 ∧
    (∃ d, insertIntoNode (catTree true false 0) 1 longRecordAt 1 s = .ok () (s.setNode 1 d) ∧
      NodeLayout 4096 d (List.replicate 3 longRecord)) ∧
    (∃ d, deleteFromNode (catTree true false 0) true 1 0 s = .ok () (s.setNode 1 d) ∧
      NodeLayout 4096 d (List.replicate 1 longRecord)) ∧
    (∃ d, mergeNodes (catTree true false 0) 1 2 s = .ok () (s.setNode 1 d) ∧
      NodeLayout 4096 d (List.replicate 5 longRecord)) := by
  have h₂ := (layout_longNode (show 2 ≤ 8 by decide)).left
  have h₃ := (layout_longNode (show 3 ≤ 8 by decide)).left
  have hf₂ := freeSpace_longNode (show 2 ≤ 8 by decide)
  have hf₃ := freeSpace_longNode (show 3 ≤ 8 by decide)
  refine ⟨⟨fun i => if i = 1 then longNode 2 else longNode 3, 0b111, []⟩, rfl, rfl, ?_⟩
  generalize hs : (⟨fun i => if i = 1 then longNode 2 else longNode 3, 0b111, []⟩ : RawBtree) = s
  have hleft : s.nodes 1 = longNode 2 := hs ▸ rfl
  have hright : s.nodes 2 = longNode 3 := hs ▸ rfl
  have hl : NodeLayout (catTree true false 0).nodeSizeBytes (s.nodes 1) (List.replicate 2 longRecord) :=
    hleft ▸ h₂
  obtain ⟨hinsert, hdelete, hmerge⟩ := nodeLayout_preserved hl
  refine ⟨hinsert longRecordAt longRecord 1 recordOk_longRecord hasAt_apply ?_ (by decide),
    hdelete true 0 (by decide), hmerge 2 (List.replicate 3 longRecord) (by decide) (hright ▸ h₃) ?_⟩
  · rw [IsNodeFull, recordOk_longRecord.recordLen_eq hasAt_apply, length_longRecord, hleft]
    simp only [sizeofBtOff]
    omega
  · change 4096 ≤ _
    rw [hleft, hright]
    omega

end Operations

end RawBtree

end Emmcfs
