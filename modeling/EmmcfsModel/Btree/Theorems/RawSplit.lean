import EmmcfsModel.Btree.Theorems.Raw
import EmmcfsModel.Catalog.Tree

namespace Emmcfs

open Code Store

theorem RecordOk.recordLen_eq (hr : RecordOk r) (hd : HasAt record 0 r) :
    RawBtree.recordLen record = r.length := by
  have hlong := hr.long
  have h₈ : HasAt record 8 ((r.drop 8).take 4) := by
    intro i b hb
    rw [List.getElem?_take] at hb
    split at hb
    case isFalse => cases hb
    case isTrue  => exact (congrArg record (Nat.zero_add _)).symm.trans (hd (8 + i) b (by simpa using hb))
  rw [← hr.len, RawBtree.recordLen, h₈.readAt_eq (by simp; omega)]

-- The fields that do not depend on the records.
def SameLinks (d d' : Store) : Prop :=
  ∀ f : DescrField, f ≠ .recsCount → f ≠ .freeSpace → f.get d' = f.get d

theorem SameLinks.refl : SameLinks d d :=
  fun _ _ _ => rfl

theorem SameLinks.trans (h : SameLinks d d') (h' : SameLinks d' d'') : SameLinks d d'' :=
  fun f hc hf => (h' f hc hf).trans (h f hc hf)

namespace RawBtree

variable {tree : BtreeOps κ} {s : RawBtree} {id i index : Nat} {H : Prop}
  {E : Errno → RawBtree → Prop} {before behind recs : List (List Byte)}

section State

@[simp]
theorem nodes_setNode_self : (s.setNode id d).nodes id = d :=
  Function.update_self ..

theorem nodes_setNode_of_ne (h : i ≠ id) : (s.setNode id d).nodes i = s.nodes i :=
  Function.update_of_ne h ..

@[simp]
theorem setNode_setNode : (s.setNode id d).setNode id d' = s.setNode id d' := by
  simp [setNode]

@[simp]
theorem setNode_nodes : s.setNode id (s.nodes id) = s := by
  simp [setNode]

-- A field of a descriptor is set.
def link (s : RawBtree) (id : Nat) (f : DescrField) (v : Nat) : RawBtree :=
  s.setNode id ((f.set v).apply (s.nodes id))

theorem get_link_of_field (h : g ≠ f) :
    DescrField.get g ((s.link id f v).nodes i) = g.get (s.nodes i) := by
  rw [link]
  by_cases hi : i = id
  case neg => rw [nodes_setNode_of_ne hi]
  case pos => rw [hi, nodes_setNode_self, DescrField.get_set_of_ne h]

theorem get_link_of_node (h : i ≠ id) :
    DescrField.get g ((s.link id f v).nodes i) = g.get (s.nodes i) := by
  rw [link, nodes_setNode_of_ne h]

theorem get_link (hv : v < 256 ^ f.size) : DescrField.get f ((s.link id f v).nodes i) =
    if i = id then v else f.get (s.nodes i) := by
  split
  case isFalse h => exact get_link_of_node h
  case isTrue h  => rw [link, h, nodes_setNode_self, DescrField.get_set_self, Nat.mod_eq_of_lt hv]

-- Links are no part of the layout.
theorem layout_link (h : NodeLayout size (s.nodes i) recs) (hc : f ≠ .recsCount) (hf : f ≠ .freeSpace) :
    NodeLayout size ((s.link id f v).nodes i) recs := by
  rw [link]
  by_cases hi : i = id
  case neg => rwa [nodes_setNode_of_ne hi]
  case pos =>
    subst hi
    rw [nodes_setNode_self]
    exact h.congr (DescrField.get_set_of_ne hc.symm) (DescrField.get_set_of_ne hf.symm)
      fun a ha => DescrField.apply_set_of_le ha

end State

section Rules

variable {Q : Unit → RawBtree → Prop}

@[simp]
theorem wp_field {Q : Nat → RawBtree → Prop} :
    wp (field id f) Q E H s ↔ Q (f.get (s.nodes id)) s :=
  .rfl

@[simp]
theorem wp_load {Q : List Byte → RawBtree → Prop} :
    wp (load id addr n) Q E H s ↔ Q (readAt (s.nodes id) addr n) s :=
  .rfl

@[simp]
theorem wp_store : wp (store id w) Q E H s ↔ Q () (s.setNode id (w.apply (s.nodes id))) :=
  .rfl

theorem wp_store_set : wp (store id (DescrField.set f v)) Q E H s ↔ Q () (s.link id f v) :=
  .rfl

@[simp]
theorem wp_bugOnError {m : RawCode α} {Q : α → RawBtree → Prop} :
    wp (bugOnError m) Q E H s ↔ wp m Q (fun _ _ => H) H s :=
  wp_onFail

theorem wp_getOffsetAddr {Q : Nat → RawBtree → Prop} (h : 4 * index + 8 ≤ tree.nodeSizeBytes) :
    wp (getOffsetAddr tree index) Q E H s ↔ Q (slotAddr tree.nodeSizeBytes index) s := by
  rw [getOffsetAddr, if_pos (by simp only [bnodeFirstOffset, sizeofBtOff]; omega), wp_pure]

theorem wp_checkSetOffset (h : 4 * index + 8 ≤ tree.nodeSizeBytes)
    (hv : IsOffsetCorrect tree v) : wp (checkSetOffset tree id index v) Q E H s ↔
      Q () (s.setNode id
        (Write.apply ⟨slotAddr tree.nodeSizeBytes index, toLe sizeofBtOff v⟩ (s.nodes id))) := by
  rw [checkSetOffset, wp_bind, wp_getOffsetAddr h, if_pos hv, wp_store]

theorem wp_moveOffsets : wp (moveOffsets id addr recsCount insertPos) Q E H s ↔
    Q () (s.setNode id (Write.apply ⟨addr, readAt (s.nodes id) (addr + sizeofBtOff)
      ((recsCount - insertPos) * sizeofBtOff)⟩ (s.nodes id))) := by
  rw [moveOffsets]
  split
  case isTrue    => rw [wp_bind, wp_load, wp_store]
  case isFalse h =>
    rw [Nat.sub_eq_zero_of_le (not_lt.mp h), Nat.zero_mul]
    change Q () s ↔ Q () (s.setNode id (Write.apply ⟨addr, []⟩ (s.nodes id)))
    rw [Write.apply_nil, setNode_nodes]

theorem wp_getOffset {Q : Nat → RawBtree → Prop} (h : 4 * index + 8 ≤ tree.nodeSizeBytes) :
    wp (getOffset tree id index) Q E H s ↔ Q (slotOf tree.nodeSizeBytes (s.nodes id) index) s := by
  rw [getOffset, wp_onFail, wp_bind, wp_getOffsetAddr h]
  rfl

-- The offset of a record and the record there.
theorem wp_getRecord {Q : Nat → RawBtree → Prop}
    (h : NodeLayout tree.nodeSizeBytes (s.nodes id) recs) (hi : recs[i]? = some r)
    (hq : HasAt (s.nodes id) (slotOf tree.nodeSizeBytes (s.nodes id) i) r →
      Q (slotOf tree.nodeSizeBytes (s.nodes id) i) s) :
    wp (getRecord tree id i) Q E H s := by
  have hi' := (List.getElem?_eq_some_iff.mp hi).choose
  have hmem : (slotOf tree.nodeSizeBytes (s.nodes id) i, r) ∈
      placed tree.nodeSizeBytes (s.nodes id) recs :=
    List.mem_of_getElem? (i := i) (by simp [placed, List.getElem?_mapIdx, hi])
  have hb := h.bounds hmem
  have hs := h.space
  rw [recordSpace_eq] at hs
  simp only [sizeofNodeDescr, sizeofBtOff, bnodeFirstOffset] at hs hb
  rw [getRecord, wp_bind, wp_field, if_neg (by rw [h.count]; omega), wp_bind, wp_getOffset (by omega),
    if_pos ⟨by omega, by omega⟩, wp_pure]
  exact hq (h.held _ hmem)

-- The writes of insert_into_node, one after the other.
theorem wp_insertAt (h : Room tree.nodeSizeBytes (s.nodes id) n pos r) (hr : RecordOk r)
    (hd : HasAt newRecord 0 r) (hn : DescrField.recsCount.get (s.nodes id) = n)
    (hf : r.length + 4 ≤ DescrField.freeSpace.get (s.nodes id)) :
    wp (insertAt tree id newRecord pos (slotAddr tree.nodeSizeBytes n)
      (slotOf tree.nodeSizeBytes (s.nodes id) n)) Q E H s ↔
      Q () (s.setNode id
        (applyAll (insertWrites tree.nodeSizeBytes (s.nodes id) n pos r) (s.nodes id))) := by
  obtain ⟨h₁, h₂, h₃, h₄⟩ := h
  have hbehind : sizeofNodeDescr ≤ slotAddr tree.nodeSizeBytes n ∧
      sizeofNodeDescr ≤ slotAddr tree.nodeSizeBytes pos := by
    simp only [slotAddr_eq, sizeofNodeDescr]
    omega
  have hapart : slotOf tree.nodeSizeBytes (s.nodes id) n + r.length ≤
      slotAddr tree.nodeSizeBytes n + sizeofBtOff := by
    simp only [slotAddr_eq, sizeofBtOff]
    omega
  generalize hw : (⟨slotOf tree.nodeSizeBytes (s.nodes id) n, r⟩ : Write) = w₁
  have hcount : DescrField.recsCount.get (w₁.apply (s.nodes id)) = n :=
    (DescrField.get_apply (by rw [← hw]; exact h₁)).trans hn
  have hmoved : ∀ m, readAt (w₁.apply (s.nodes id)) (slotAddr tree.nodeSizeBytes n + sizeofBtOff) m =
      readAt (s.nodes id) (slotAddr tree.nodeSizeBytes n + sizeofBtOff) m := fun m =>
    readAt_apply_of_apart (by simpa [← hw] using .inl hapart)
  rw [insertAt, wp_bind, hr.recordLen_eq hd, hd.readAt_eq rfl, hw, wp_store, wp_bind, wp_field,
    nodes_setNode_self, hcount, wp_bind, wp_moveOffsets, nodes_setNode_self, setNode_setNode, hmoved,
    wp_bind, wp_checkSetOffset (by omega) ⟨by omega, by omega⟩, nodes_setNode_self, setNode_setNode]
  generalize hd₃ : Write.apply _ (Write.apply _ (w₁.apply (s.nodes id))) = d₃
  have hfree : DescrField.freeSpace.get d₃ = DescrField.freeSpace.get (s.nodes id) := by
    rw [← hd₃, DescrField.get_apply hbehind.right, DescrField.get_apply hbehind.left,
      DescrField.get_apply (by rw [← hw]; exact h₁)]
  rw [wp_bind, wp_field, nodes_setNode_self, hfree, wp_bind, wp_haltOn, and_iff_right (by
    simp only [sizeofBtOff]; omega), imp_iff_right (by simp only [sizeofBtOff]; omega), wp_bind, wp_store,
    wp_bind, wp_store, wp_bind, wp_field]
  simp only [nodes_setNode_self, setNode_setNode]
  rw [DescrField.get_set_of_ne (by decide), DescrField.get_set_self,
    Nat.mod_eq_of_lt (by simp only [DescrField.size]; omega),
    wp_checkSetOffset (by omega) ⟨by omega, by omega⟩, nodes_setNode_self, setNode_setNode]
  simp only [insertWrites, closeWrites, applyAll_cons, applyAll_nil, hw, hd₃]

theorem wp_insertIntoNode (h : NodeLayout tree.nodeSizeBytes (s.nodes id) (before ++ behind))
    (hr : RecordOk r) (hd : HasAt newRecord 0 r)
    (hf : r.length + 4 ≤ DescrField.freeSpace.get (s.nodes id))
    (hq : ∀ d, NodeLayout tree.nodeSizeBytes d (before ++ r :: behind) →
      SameLinks (s.nodes id) d →
      DescrField.freeSpace.get d = DescrField.freeSpace.get (s.nodes id) - (r.length + 4) → Q () (s.setNode id d)) :
    wp (insertIntoNode tree id newRecord before.length) Q E H s := by
  have hpos : before.length ≤ (before ++ behind).length := by simp
  have hroom := h.room tree.node_size_le hpos hf
  obtain ⟨h₁, h₂, h₃, _⟩ := h.room tree.node_size_le hpos hf
  have hoff : IsOffsetCorrect tree (slotOf tree.nodeSizeBytes (s.nodes id) (before ++ behind).length) :=
    ⟨by omega, by omega⟩
  rw [insertIntoNode, wp_bind, wp_field, wp_bind, wp_haltOn, hr.recordLen_eq hd]
  refine ⟨by omega, fun _ => ?_⟩
  rw [wp_bind, wp_field, h.count, wp_bind, wp_getOffsetAddr (by omega), wp_bind, wp_load]
  change wp (if IsOffsetCorrect tree (slotOf ..) then
    insertAt tree id newRecord before.length _ (slotOf ..) else _) ..
  rw [if_pos hoff, wp_insertAt hroom hr hd h.count hf]
  exact hq _ (h.insert tree.node_size_le hr hf) (fun _ => hroom.get_other) (hroom.get_freeSpace hf)

theorem wp_initNewNodeDescr
    (hq : ∀ d, NodeLayout tree.nodeSizeBytes d [] → DescrField.nodeId.get d = id % 2 ^ 32 →
      Q () (s.setNode id d)) :
    wp (initNewNodeDescr tree id type) Q E H s := by
  have hge := tree.node_size_ge
  have hle := tree.node_size_le
  simp only [initNewNodeDescr, wp_bind, wp_store, wp_bugOnError, nodes_setNode_self, setNode_setNode]
  rw [wp_checkSetOffset (by omega) ⟨by decide, by simp only [sizeofNodeDescr]; omega⟩,
    nodes_setNode_self, setNode_setNode]
  generalize hd : Write.apply (DescrField.prevNodeId.set 0) _ = d
  have hfield : ∀ f : DescrField, f.get (Write.apply ⟨slotAddr tree.nodeSizeBytes 0,
      toLe sizeofBtOff sizeofNodeDescr⟩ d) = f.get d := by
    refine fun f => DescrField.get_apply ?_
    simp only [slotAddr_eq, sizeofNodeDescr]
    omega
  have hslot : slotOf tree.nodeSizeBytes (Write.apply ⟨slotAddr tree.nodeSizeBytes 0,
      toLe sizeofBtOff sizeofNodeDescr⟩ d) 0 = sizeofNodeDescr := by
    rw [slotOf, hasAt_apply.readAt_eq length_toLe, ofLe_toLe (by decide)]
  have hspace : DescrField.freeSpace.get d + 27 = tree.nodeSizeBytes := by
    simp only [← hd, DescrField.get_set_self, ne_eq, reduceCtorEq, not_false_eq_true,
      DescrField.get_set_of_ne, DescrField.size, sizeofNodeDescr, sizeofBtOff, bnodeFirstOffset]
    omega
  refine hq _ ?_ ?_
  case refine_1 =>
    exact {
      count := (hfield _).trans (by
        simp [← hd, DescrField.get_set_self, DescrField.get_set_of_ne])
      space := by
        rw [hfield]
        simp only [recordSpace, List.map_nil, List.sum_nil, sizeofNodeDescr, sizeofBtOff,
          bnodeFirstOffset]
        omega
      ok    := by simp
      held  := by simp [placed]
      tiled := ⟨[], .nil, trivial⟩
      free  := hslot }
  case refine_2 =>
    rw [hfield]
    simp [← hd, DescrField.get_set_self, DescrField.get_set_of_ne, DescrField.size]

theorem wp_getBnode (hb : s.bitmap.testBit id) (hh : ∀ e, s.outcomes.head? = some (some e) → H)
    (hq : Q () { s with outcomes := s.outcomes.tail }) : wp (bugOnError (getBnode id)) Q E H s := by
  rw [wp_bugOnError, getBnode, wp_bind, wp_get, if_neg (by simp [hb]), request, wp_bind, wp_get]
  match ho : s.outcomes with
  | []           =>
    rw [ho] at hq
    change Q () { s with outcomes := [] } at hq
    rwa [← ho] at hq
  | none :: _    => rwa [ho] at hq
  | some e :: _  => exact hh e (by rw [ho]; rfl)

-- A neighbour that there is gets its link.
theorem wp_setLinkOf {new : Nat} (hn : DescrField.nodeId.get (s.nodes new) = new)
    (hb : i = 0 ∨ s.bitmap.testBit i) (hh : ∀ e, s.outcomes.head? = some (some e) → H)
    (hq : ∀ s', (∀ j, j ≠ 0 → s'.nodes j = (s.link i f new).nodes j) → s'.bitmap = s.bitmap →
      (s'.outcomes = s.outcomes ∨ s'.outcomes = s.outcomes.tail) → Q () s') :
    wp (setLinkOf i f new) Q E H s := by
  rw [setLinkOf]
  split
  case isTrue h0 =>
    refine hq s (fun j hj => ?_) rfl (.inl rfl)
    rw [link, nodes_setNode_of_ne (h0 ▸ hj)]
  case isFalse h0 =>
    rw [wp_bind]
    refine wp_getBnode (hb.resolve_left h0) hh ?_
    rw [wp_bind, wp_field, hn, wp_store]
    exact hq _ (fun _ _ => rfl) rfl (.inr rfl)

-- The links after set_next_prev_links.
def spliced (s : RawBtree) (p n part₁ part₂ : Nat) : RawBtree :=
  (((((s.link part₁ .nextNodeId part₂).link part₂ .prevNodeId part₁).link part₂ .nextNodeId n).link
    part₁ .prevNodeId p).link p .nextNodeId part₁).link n .prevNodeId part₂

theorem layout_spliced (h : NodeLayout size (s.nodes i) recs) :
    NodeLayout size ((s.spliced p n part₁ part₂).nodes i) recs := by
  iterate 6 refine layout_link ?_ (by decide) (by decide)
  exact h

theorem prev_spliced (h₁ : part₁ < 2 ^ 32) (h₂ : part₂ < 2 ^ 32) (hp : p < 2 ^ 32) :
    DescrField.prevNodeId.get ((s.spliced p n part₁ part₂).nodes i) =
    if i = n then part₂ else if i = part₁ then p else if i = part₂ then part₁
      else DescrField.prevNodeId.get (s.nodes i) := by
  rw [spliced, get_link h₂, get_link_of_field (by decide), get_link hp, get_link_of_field (by decide),
    get_link h₁, get_link_of_field (by decide)]

theorem next_spliced (h₁ : part₁ < 2 ^ 32) (h₂ : part₂ < 2 ^ 32) (hn : n < 2 ^ 32) :
    DescrField.nextNodeId.get ((s.spliced p n part₁ part₂).nodes i) =
    if i = p then part₁ else if i = part₂ then n else if i = part₁ then part₂
      else DescrField.nextNodeId.get (s.nodes i) := by
  rw [spliced, get_link_of_field (by decide), get_link h₁, get_link_of_field (by decide), get_link hn,
    get_link_of_field (by decide), get_link h₂]

theorem wp_setNextPrevLinks {source part₁ part₂ p n : Nat}
    (h₁ : DescrField.nodeId.get (s.nodes part₁) = part₁)
    (h₂ : DescrField.nodeId.get (s.nodes part₂) = part₂)
    (hp : DescrField.prevNodeId.get (s.nodes source) = p)
    (hn : DescrField.nextNodeId.get (s.nodes source) = n)
    (h0 : source ≠ 0 ∧ part₁ ≠ 0 ∧ part₂ ≠ 0)
    (hs : source ≠ part₁ ∧ source ≠ part₂ ∧ source ≠ p)
    (hpb : p = 0 ∨ s.bitmap.testBit p) (hnb : n = 0 ∨ s.bitmap.testBit n)
    (hh : ∀ e, some e ∈ s.outcomes.take 2 → H)
    (hq : ∀ s', (∀ i, i ≠ 0 → s'.nodes i = (s.spliced p n part₁ part₂).nodes i) → Q () s') :
    wp (setNextPrevLinks source part₁ part₂) Q E H s := by
  obtain ⟨hs₁, hs₂, hsp⟩ := hs
  have hhead : ∀ e, s.outcomes.head? = some (some e) → H := by
    refine fun e he => hh e ?_
    obtain ⟨os, ho⟩ := List.head?_eq_some_iff.mp he
    simp [ho]
  have htail : ∀ e, s.outcomes.tail.head? = some (some e) → H := by
    refine fun e he => hh e ?_
    obtain ⟨os, ho⟩ := List.head?_eq_some_iff.mp he
    cases hs : s.outcomes
    case nil       => simp [hs] at ho
    case cons o os => simp_all
  simp only [setNextPrevLinks, wp_bind, wp_field, wp_store_set, get_link_of_node hs₁,
    get_link_of_node hs₂, get_link_of_field, ne_eq, reduceCtorEq, not_false_eq_true, h₁, h₂, hp, hn]
  refine wp_setLinkOf ?_ hpb hhead fun s₁ hnodes hbits ho => ?_
  · simp [get_link_of_field, h₁]
  rw [wp_bind, wp_field, hnodes source h0.left]
  simp only [get_link_of_node hs₁, get_link_of_node hs₂, get_link_of_node hsp, hn]
  refine wp_setLinkOf ?_ (hnb.imp_right (hbits ▸ ·)) ?_ fun s₂ hnodes' _ _ => hq s₂ fun i hi => ?_
  · rw [hnodes part₂ h0.right.right]
    simp [get_link_of_field, h₂]
  · rcases ho with ho | ho <;> rw [ho]
    · exact hhead
    · exact htail
  · rw [hnodes' i hi, spliced, link, link]
    by_cases he : i = n
    case neg => rw [nodes_setNode_of_ne he, nodes_setNode_of_ne he, hnodes i hi]
    case pos =>
      subst he
      rw [nodes_setNode_self, nodes_setNode_self, hnodes i hi]

end Rules

section Loop

variable {Q : Unit → RawBtree → Prop} {source part₁ part₂ m turns used : Nat} {flag : Bool}
  {addingRecord : Store} {r q : List Byte}

-- How many records of the node have been taken after `m` turns.
def turnIndex (pos m : Nat) : Nat :=
  if m ≤ pos then m else m - 1

-- What split_node reads and does not change.
structure Splitting (tree : BtreeOps κ) (source : Nat) (addingRecord : Store)
    (before behind : List (List Byte)) (r : List Byte) (s : RawBtree) : Prop where
  layout : NodeLayout tree.nodeSizeBytes (s.nodes source) (before ++ behind)
  adding : HasAt addingRecord 0 r
  ok     : RecordOk r

namespace Splitting

theorem setNode (h : Splitting tree source addingRecord before behind r s) (hne : source ≠ id) :
    Splitting tree source addingRecord before behind r (s.setNode id d) :=
  ⟨by rw [nodes_setNode_of_ne hne]; exact h.layout, h.adding, h.ok⟩

variable (h : Splitting tree source addingRecord before behind r s)
include h

theorem recordOk (hq : q ∈ before ++ r :: behind) : RecordOk q := by
  rcases List.mem_append.mp hq with hq | hq
  · exact h.layout.ok q (List.mem_append_left _ hq)
  · cases List.mem_cons.mp hq
    case inl he => exact he ▸ h.ok
    case inr hm => exact h.layout.ok q (List.mem_append_right _ hm)

-- The turn takes the record that is next in the new order.
theorem wp_pickRecord {Q : Store → RawBtree → Prop} (hm : (before ++ r :: behind)[m]? = some q)
    (hq : ∀ key, HasAt key 0 q → Q key s) :
    wp (pickRecord tree source (turnIndex before.length m) (decide (m = before.length)) addingRecord)
      Q E H s := by
  rw [pickRecord]
  by_cases he : m = before.length
  case pos =>
    rw [if_pos (decide_eq_true he), wp_pure]
    rw [he, List.getElem?_append_right (le_refl _), Nat.sub_self] at hm
    cases hm
    exact hq _ h.adding
  case neg =>
    have hold : (before ++ behind)[turnIndex before.length m]? = some q := by
      rw [turnIndex]
      split
      case isTrue hle =>
        have hlt : m < before.length := by omega
        rwa [List.getElem?_append_left hlt] at hm ⊢
      case isFalse hlt =>
        rw [List.getElem?_append_right (by omega)] at hm ⊢
        rwa [show m - before.length = m - 1 - before.length + 1 by omega, List.getElem?_cons_succ] at hm
    rw [if_neg (by simpa using he), wp_bind, wp_bugOnError]
    refine wp_getRecord h.layout hold fun ho => hq _ fun i b hb => ?_
    rw [Nat.zero_add]
    exact ho i b hb

theorem wp_splitLoop_turn {p : Nat} (hm : (before ++ r :: behind)[m]? = some q)
    (hp : (if flag then part₂ else part₁) = p) (hl : NodeLayout tree.nodeSizeBytes (s.nodes p) recs)
    (hf : q.length + 4 ≤ DescrField.freeSpace.get (s.nodes p)) (hu : used + (q.length + 4) < 2 ^ 32)
    (hq : ∀ d, NodeLayout tree.nodeSizeBytes d (recs ++ [q]) → SameLinks (s.nodes p) d →
      DescrField.freeSpace.get d = DescrField.freeSpace.get (s.nodes p) - (q.length + 4) →
      wp (splitLoop tree source before.length addingRecord part₁ part₂ turns
        (turnIndex before.length (m + 1)) (decide (before.length < m + 1))
        (flag || decide (tree.nodeSizeBytes / 2 < used + (q.length + 4))) (used + (q.length + 4)))
        Q E H (s.setNode p d)) :
    wp (splitLoop tree source before.length addingRecord part₁ part₂ (turns + 1)
      (turnIndex before.length m) (decide (before.length < m)) flag used) Q E H s := by
  have hlt := (List.getElem?_eq_some_iff.mp hm).choose
  have hok := h.recordOk (List.mem_of_getElem? hm)
  rw [List.length_append, List.length_cons] at hlt
  have hmore : turnIndex before.length m < (before ++ behind).length ∨
      (!decide (before.length < m)) = true := by
    simp only [turnIndex, List.length_append, Bool.not_eq_true', decide_eq_false_iff_not]
    split <;> omega
  have hsel : decide (turnIndex before.length m = before.length ∧
      (!decide (before.length < m)) = true) = decide (m = before.length) := by
    simp only [turnIndex, Bool.not_eq_true', decide_eq_false_iff_not, decide_eq_decide]
    split <;> omega
  have hnext : (if decide (m = before.length) = true then turnIndex before.length m
      else turnIndex before.length m + 1) = turnIndex before.length (m + 1) := by
    simp only [turnIndex, decide_eq_true_eq]
    split <;> split <;> split <;> omega
  have hins : (decide (before.length < m) || decide (m = before.length)) =
      decide (before.length < m + 1) := by
    rw [← Bool.decide_or, decide_eq_decide]
    omega
  rw [splitLoop, wp_bind, wp_field, h.layout.count, if_pos hmore]
  simp only [hsel, hnext, hins]
  rw [wp_bind]
  refine h.wp_pickRecord hm fun key hkey => ?_
  rw [hok.recordLen_eq hkey, wp_bind, wp_field, hp, hl.count, wp_bind, wp_bugOnError]
  rw [← List.append_nil recs] at hl
  refine wp_insertIntoNode hl hok hkey hf fun d hd hs he => ?_
  rw [sizeofBtOff, u32, Nat.mod_eq_of_lt hu]
  exact hq d hd hs he

theorem wp_splitLoop_end (hm : m = (before ++ r :: behind).length) (hq : Q () s) :
    wp (splitLoop tree source before.length addingRecord part₁ part₂ (turns + 1)
      (turnIndex before.length m) (decide (before.length < m)) flag used) Q E H s := by
  rw [List.length_append, List.length_cons] at hm
  have hdone : ¬(turnIndex before.length m < (before ++ behind).length ∨
      (!decide (before.length < m)) = true) := by
    simp only [turnIndex, List.length_append, Bool.not_eq_true', decide_eq_false_iff_not]
    split <;> omega
  rw [splitLoop, wp_bind, wp_field, h.layout.count, if_neg hdone]
  exact hq

end Splitting

theorem recordSpace_cons : recordSpace (q :: recs) = q.length + 4 + recordSpace recs := by
  simp [recordSpace, sizeofBtOff]

-- When the first part is full, all that is left goes to the second.
theorem wp_splitLoop_second (h : Splitting tree source addingRecord before behind r s)
    (hne : source ≠ part₂) (hl : NodeLayout tree.nodeSizeBytes (s.nodes part₂) recs)
    (hsplit : before ++ r :: behind = taken ++ rest) (hm : m = taken.length)
    (hf : recordSpace rest ≤ DescrField.freeSpace.get (s.nodes part₂))
    (hu : used + recordSpace rest < 2 ^ 32)
    (hq : ∀ d, NodeLayout tree.nodeSizeBytes d (recs ++ rest) → SameLinks (s.nodes part₂) d →
      Q () (s.setNode part₂ d)) :
    wp (splitLoop tree source before.length addingRecord part₁ part₂ (rest.length + turns + 1)
      (turnIndex before.length m) (decide (before.length < m)) true used) Q E H s := by
  induction rest generalizing m s used recs taken
  case nil =>
    rw [List.append_nil] at hsplit
    rw [List.length_nil, Nat.zero_add]
    refine h.wp_splitLoop_end (hsplit ▸ hm) ?_
    have := hq (s.nodes part₂) (by rwa [List.append_nil]) .refl
    rwa [setNode_nodes] at this
  case cons q rest ih =>
    have hget : (before ++ r :: behind)[m]? = some q := by simp [hsplit, hm]
    rw [recordSpace_cons] at hf hu
    rw [List.length_cons, Nat.add_right_comm _ 1]
    refine h.wp_splitLoop_turn hget (if_pos rfl) hl (by omega) (by omega) fun d hd hs he => ?_
    rw [Bool.true_or]
    have hcons : taken ++ q :: rest = taken ++ [q] ++ rest := (List.append_cons ..)
    have hself : (s.setNode part₂ d).nodes part₂ = d := nodes_setNode_self
    refine ih (h.setNode hne) (hself.symm ▸ hd) (hsplit.trans hcons) (by simp [hm]) ?_ (by omega) ?_
    case refine_1 => rw [nodes_setNode_self]; omega
    case refine_2 =>
      intro d' hd' hs'
      rw [nodes_setNode_self] at hs'
      rw [setNode_setNode]
      exact hq d' (by rwa [List.append_cons]) (hs.trans hs')

-- The first records fill half of the first part, and the last of them may go beyond.
theorem wp_splitLoop_first (taken rest : List (List Byte)) (turns : Nat)
    (h : Splitting tree source addingRecord before behind r s)
    (h₁₂ : part₁ ≠ part₂) (hne₁ : source ≠ part₁) (hne₂ : source ≠ part₂)
    (hl₁ : NodeLayout tree.nodeSizeBytes (s.nodes part₁) recs)
    (hl₂ : NodeLayout tree.nodeSizeBytes (s.nodes part₂) [])
    (hsplit : before ++ r :: behind = taken ++ rest) (hm : m = taken.length)
    (hi : turnIndex before.length m = i) (hins : decide (before.length < m) = inserted)
    (hshort : ∀ q ∈ rest, q.length ≤ tree.maxRecordLen)
    (hused : DescrField.freeSpace.get (s.nodes part₁) + used = tree.nodeSizeBytes)
    (hhalf : used ≤ tree.nodeSizeBytes / 2)
    (hlt : tree.nodeSizeBytes / 2 < used + recordSpace rest)
    (hle : used + recordSpace rest ≤
      tree.nodeSizeBytes / 2 + DescrField.freeSpace.get (s.nodes part₂))
    (hq : ∀ d₁ d₂ rest₁ rest₂, rest = rest₁ ++ rest₂ → rest₁ ≠ [] →
      used + recordSpace rest₁ ≤ tree.nodeSizeBytes / 2 + (tree.maxRecordLen + 4) →
      NodeLayout tree.nodeSizeBytes d₁ (recs ++ rest₁) → NodeLayout tree.nodeSizeBytes d₂ rest₂ →
      SameLinks (s.nodes part₁) d₁ → SameLinks (s.nodes part₂) d₂ →
      Q () ((s.setNode part₁ d₁).setNode part₂ d₂)) :
    wp (splitLoop tree source before.length addingRecord part₁ part₂ (rest.length + turns + 1)
      i inserted false used) Q E H s := by
  have hN := tree.node_size_ge
  have hN' := tree.node_size_le
  have hM := tree.record_len_le
  have hfree : DescrField.freeSpace.get (s.nodes part₂) < 256 ^ 2 := DescrField.get_lt ..
  induction rest generalizing m s i inserted used recs taken
  case nil =>
    change _ < used + 0 at hlt
    omega
  case cons q rest ih =>
    subst hi hins
    have hget : (before ++ r :: behind)[m]? = some q := by simp [hsplit, hm]
    have hr := hshort q (by simp)
    have hcons : taken ++ q :: rest = taken ++ [q] ++ rest := (List.append_cons ..)
    rw [recordSpace_cons] at hlt hle
    rw [List.length_cons, Nat.add_right_comm _ 1]
    refine h.wp_splitLoop_turn hget (if_neg Bool.false_ne_true) hl₁ (by omega) (by omega)
      fun d hd hs he => ?_
    have hp₂ : (s.setNode part₁ d).nodes part₂ = s.nodes part₂ := nodes_setNode_of_ne h₁₂.symm
    rw [Bool.false_or]
    by_cases hover : tree.nodeSizeBytes / 2 < used + (q.length + 4)
    case pos =>
      rw [decide_eq_true hover]
      refine wp_splitLoop_second (h.setNode hne₁) hne₂ (by rwa [hp₂]) (hsplit.trans hcons)
        (by simp [hm]) (by rw [hp₂]; omega) (by omega) ?_
      intro d₂ hd₂ hs₂
      rw [hp₂] at hs₂
      refine hq d d₂ [q] rest rfl (by simp) ?_ hd hd₂ hs hs₂
      rw [recordSpace_cons]
      change _ + (_ + 0) ≤ _
      omega
    case neg =>
      rw [decide_eq_false hover]
      have hself : (s.setNode part₁ d).nodes part₁ = d := nodes_setNode_self
      refine ih _ (h.setNode hne₁) (hself.symm ▸ hd) (by rwa [hp₂]) (hsplit.trans hcons) (by simp [hm])
        rfl rfl (fun q hq => hshort q (by simp [hq])) ?_ (by omega) (by omega) (by rw [hp₂]; omega) ?_
        (by rwa [hp₂])
      case refine_1 => rw [nodes_setNode_self]; omega
      case refine_2 =>
        intro d₁ d₂ rest₁ rest₂ hrest _ hhigh hd₁ hd₂ hs₁ hs₂
        rw [nodes_setNode_self] at hs₁
        rw [hp₂] at hs₂
        rw [setNode_setNode]
        refine hq d₁ d₂ (q :: rest₁) rest₂ (by rw [hrest]; rfl) (by simp) ?_ ?_ hd₂ (hs.trans hs₁) hs₂
        · rw [recordSpace_cons]
          omega
        · rwa [List.append_cons]

end Loop

-- Two nodes stand in the chain of their level where one has been, and they have the records.
structure Parted (tree : BtreeOps κ) (s s' : RawBtree) (as bs : List Nat) (part₁ part₂ : Nat)
    (recs : List (List Byte)) : Prop where
  parts  : ∃ recs₁ recs₂, recs₁ ≠ [] ∧ recs₂ ≠ [] ∧ recs₁ ++ recs₂ = recs ∧
    NodeLayout tree.nodeSizeBytes (s'.nodes part₁) recs₁ ∧ NodeLayout tree.nodeSizeBytes (s'.nodes part₂) recs₂
  chain  : s'.Chain (as ++ [part₁, part₂] ++ bs)
  others : ∀ i recs, i ≠ 0 → i ≠ part₁ → i ≠ part₂ → NodeLayout tree.nodeSizeBytes (s.nodes i) recs →
    NodeLayout tree.nodeSizeBytes (s'.nodes i) recs

section Split

variable {as bs : List Nat} {part₁ part₂ : Nat}

-- The neighbours of a node of the chain.
theorem Chain.prev_eq (h : s.Chain (as ++ [id] ++ bs)) : s.prevOf id = as.getLastD 0 :=
  Linked.prev_eq (List.append_assoc as [id] bs ▸ h.linked)

theorem Chain.next_eq (h : s.Chain (as ++ [id] ++ bs)) : s.nextOf id = bs.headD 0 :=
  Linked.next_eq (List.append_assoc as [id] bs ▸ h.linked)

theorem getLastD_zero_or_mem : as.getLastD 0 = 0 ∨ as.getLastD 0 ∈ as := by
  cases as
  case nil       => exact .inl rfl
  case cons a as =>
    rw [List.getLastD_cons]
    exact .inr (List.getLastD_mem_cons ..)

theorem headD_zero_or_mem : bs.headD 0 = 0 ∨ bs.headD 0 ∈ bs := by
  cases bs
  case nil  => exact .inl rfl
  case cons => exact .inr (by simp)

-- The links of set_next_prev_links make a chain.
theorem Chain.replace {s' : RawBtree} (h : s.Chain (as ++ [id] ++ bs)) (h₁₂ : part₁ ≠ part₂)
    (hm₁ : part₁ ∉ as ++ [id] ++ bs) (hm₂ : part₂ ∉ as ++ [id] ++ bs) (h₁ : part₁ ≠ 0) (h₂ : part₂ ≠ 0)
    (hprev : ∀ i ≠ 0, s'.prevOf i = if i = bs.headD 0 then part₂ else if i = part₁ then as.getLastD 0
      else if i = part₂ then part₁ else s.prevOf i)
    (hnext : ∀ i ≠ 0, s'.nextOf i = if i = as.getLastD 0 then part₁ else if i = part₂ then bs.headD 0
      else if i = part₁ then part₂ else s.nextOf i) :
    s'.Chain (as ++ [part₁, part₂] ++ bs) := by
  have hsub : (as ++ bs).Sublist (as ++ [id] ++ bs) := by simp
  have hd := h.nodup.sublist hsub
  have h0 : 0 ∉ as ++ bs := fun hm => h.nonzero (hsub.subset hm)
  have hlast : ∀ i ∉ as ++ [id] ++ bs, i ≠ 0 → i ≠ as.getLastD 0 := by
    intro i hi hi' he
    exact getLastD_zero_or_mem.elim (fun hz => hi' (he.trans hz)) fun hm => hi (by simp [he ▸ hm])
  have hhead : ∀ i ∉ as ++ [id] ++ bs, i ≠ 0 → i ≠ bs.headD 0 := by
    intro i hi hi' he
    exact headD_zero_or_mem.elim (fun hz => hi' (he.trans hz)) fun hm => hi (by simp [he ▸ hm])
  have hmem : ∀ i ∈ as ++ bs, i ≠ 0 ∧ i ≠ part₁ ∧ i ≠ part₂ := fun i hi =>
    ⟨fun he => h0 (he ▸ hi), fun he => hm₁ (hsub.subset (he ▸ hi)), fun he => hm₂ (hsub.subset (he ▸ hi))⟩
  constructor
  case nodup =>
    refine (List.perm_append_comm.append_right bs).nodup_iff.mp ?_
    rw [List.append_assoc, List.cons_append, List.cons_append, List.nil_append]
    refine List.nodup_cons.mpr ⟨?_, List.nodup_cons.mpr ⟨fun hm => hm₂ (hsub.subset hm), hd⟩⟩
    rw [List.mem_cons, not_or]
    exact ⟨h₁₂, fun hm => hm₁ (hsub.subset hm)⟩
  case nonzero =>
    simp only [List.mem_append, List.mem_cons, List.not_mem_nil, or_false, not_or] at h0 ⊢
    exact ⟨⟨h0.left, h₁.symm, h₂.symm⟩, h0.right⟩
  case linked =>
    refine h.linked.replace hd h0 (fun i hi => ?_) (fun i hi => ?_) ⟨?_, ?_, ?_, ?_, trivial⟩
    case refine_1 =>
      obtain ⟨hz, hi₁, hi₂⟩ := hmem i hi
      rw [hprev i hz, if_neg hi₁, if_neg hi₂]
      rfl
    case refine_2 =>
      obtain ⟨hz, hi₁, hi₂⟩ := hmem i hi
      rw [hnext i hz, if_neg hi₁, if_neg hi₂]
      rfl
    case refine_3 => rw [hprev _ h₁, if_neg (hhead _ hm₁ h₁), if_pos rfl]
    case refine_4 =>
      rw [hnext _ h₁, if_neg (hlast _ hm₁ h₁), if_neg h₁₂, if_pos rfl]
      rfl
    case refine_5 => rw [hprev _ h₂, if_neg (hhead _ hm₂ h₂), if_neg h₁₂.symm, if_pos rfl]
    case refine_6 =>
      rw [hnext _ h₂, if_neg (hlast _ hm₂ h₂), if_pos rfl]
      rfl

-- The two nodes have no records yet, and the links are those of the chain to be.
structure Opened (tree : BtreeOps κ) (s s' : RawBtree) (as bs : List Nat) (part₁ part₂ : Nat) :
    Prop where
  first  : NodeLayout tree.nodeSizeBytes (s'.nodes part₁) []
  second : NodeLayout tree.nodeSizeBytes (s'.nodes part₂) []
  others : ∀ i recs, i ≠ 0 → i ≠ part₁ → i ≠ part₂ → NodeLayout tree.nodeSizeBytes (s.nodes i) recs →
    NodeLayout tree.nodeSizeBytes (s'.nodes i) recs
  prev   : ∀ i ≠ 0, s'.prevOf i = if i = bs.headD 0 then part₂ else if i = part₁ then as.getLastD 0
    else if i = part₂ then part₁ else s.prevOf i
  next   : ∀ i ≠ 0, s'.nextOf i = if i = as.getLastD 0 then part₁ else if i = part₂ then bs.headD 0
    else if i = part₁ then part₂ else s.nextOf i

section Open

variable {Q : Unit → RawBtree → Prop} {type : Nat} {rest : RawCode Unit}

theorem wp_opened (hc : s.Chain (as ++ [id] ++ bs)) (hlive : ∀ i ∈ as ++ bs, s.bitmap.testBit i)
    (h₁₂ : part₁ ≠ part₂) (hm₁ : part₁ ∉ as ++ [id] ++ bs) (hm₂ : part₂ ∉ as ++ [id] ++ bs)
    (h₁ : 0 < part₁ ∧ part₁ < 2 ^ 32) (h₂ : 0 < part₂ ∧ part₂ < 2 ^ 32)
    (hh : ∀ e, some e ∈ s.outcomes.take 2 → H)
    (hq : ∀ s', Opened tree s s' as bs part₁ part₂ → wp rest Q E H s') :
    wp (do
      initNewNodeDescr tree part₁ type
      initNewNodeDescr tree part₂ type
      setNextPrevLinks id part₁ part₂
      rest) Q E H s := by
  have hid : id ≠ 0 := fun h => hc.nonzero (by simp [h])
  have hid₁ : id ≠ part₁ := fun h => hm₁ (by simp [h])
  have hid₂ : id ≠ part₂ := fun h => hm₂ (by simp [h])
  have hidp : id ≠ as.getLastD 0 := by
    intro he
    rcases getLastD_zero_or_mem with hz | hm
    · exact hid (he.trans hz)
    · have := (List.nodup_append.mp (hc.nodup.sublist (List.sublist_append_left ..))).right.right
      exact this _ hm id (by simp) he.symm
  rw [wp_bind]
  refine wp_initNewNodeDescr fun d₁ hl₁ hn₁ => ?_
  rw [wp_bind]
  refine wp_initNewNodeDescr fun d₂ hl₂ hn₂ => ?_
  generalize hs : (s.setNode part₁ d₁).setNode part₂ d₂ = s₂
  have hnode₁ : s₂.nodes part₁ = d₁ := by rw [← hs, nodes_setNode_of_ne h₁₂, nodes_setNode_self]
  have hnode₂ : s₂.nodes part₂ = d₂ := by rw [← hs, nodes_setNode_self]
  have hold : ∀ i, i ≠ part₁ → i ≠ part₂ → s₂.nodes i = s.nodes i := fun i h h' => by
    rw [← hs, nodes_setNode_of_ne h', nodes_setNode_of_ne h]
  have hbits : s₂.bitmap = s.bitmap := by rw [← hs]; rfl
  have houts : s₂.outcomes = s.outcomes := by rw [← hs]; rfl
  rw [wp_bind]
  refine wp_setNextPrevLinks (p := as.getLastD 0) (n := bs.headD 0) ?_ ?_ ?_ ?_
    ⟨hid, h₁.left.ne', h₂.left.ne'⟩ ⟨hid₁, hid₂, hidp⟩ ?_ ?_ (houts ▸ hh) fun s₃ hnodes => hq s₃ ?_
  case refine_1 => rw [hnode₁, hn₁, Nat.mod_eq_of_lt h₁.right]
  case refine_2 => rw [hnode₂, hn₂, Nat.mod_eq_of_lt h₂.right]
  case refine_3 => rw [hold id hid₁ hid₂]; exact hc.prev_eq
  case refine_4 => rw [hold id hid₁ hid₂]; exact hc.next_eq
  case refine_5 =>
    rw [hbits]
    exact getLastD_zero_or_mem.imp_right fun hm => hlive _ (List.mem_append_left _ hm)
  case refine_6 =>
    rw [hbits]
    exact headD_zero_or_mem.imp_right fun hm => hlive _ (List.mem_append_right _ hm)
  case refine_7 =>
    have hlt : ∀ i, s.prevOf i < 2 ^ 32 ∧ s.nextOf i < 2 ^ 32 := fun i =>
      ⟨DescrField.get_lt .., DescrField.get_lt ..⟩
    exact {
      first  := by rw [hnodes _ h₁.left.ne']; exact layout_spliced (hnode₁ ▸ hl₁)
      second := by rw [hnodes _ h₂.left.ne']; exact layout_spliced (hnode₂ ▸ hl₂)
      others := fun i recs hi hi₁ hi₂ h => by
        rw [hnodes i hi]
        exact layout_spliced (hold i hi₁ hi₂ ▸ h)
      prev   := fun i hi => by
        rw [prevOf, hnodes i hi, prev_spliced h₁.right h₂.right (hc.prev_eq ▸ (hlt id).left)]
        split
        · rfl
        · split
          · rfl
          · split
            · rfl
            · rw [hold i ‹_› ‹_›]
              rfl
      next   := fun i hi => by
        rw [nextOf, hnodes i hi, next_spliced h₁.right h₂.right (hc.next_eq ▸ (hlt id).right)]
        split
        · rfl
        · split
          · rfl
          · split
            · rfl
            · rw [hold i ‹_› ‹_›]
              rfl }

end Open

-- A full node is split without loss. There is no BUG unless a neighbour cannot be read.
theorem splitNode_lossless {addingRecord : Store} {r : List Byte}
    (hl : NodeLayout tree.nodeSizeBytes (s.nodes id) (before ++ behind)) (hr : RecordOk r)
    (ha : HasAt addingRecord 0 r) (hshort : ∀ q ∈ before ++ r :: behind, q.length ≤ tree.maxRecordLen)
    (hfull : IsNodeFull (s.nodes id) addingRecord) (hc : s.Chain (as ++ [id] ++ bs))
    (hlive : ∀ i ∈ as ++ bs, s.bitmap.testBit i) (h₁₂ : part₁ ≠ part₂)
    (hm₁ : part₁ ∉ as ++ [id] ++ bs) (hm₂ : part₂ ∉ as ++ [id] ++ bs)
    (h₁ : 0 < part₁ ∧ part₁ < 2 ^ 32) (h₂ : 0 < part₂ ∧ part₂ < 2 ^ 32) :
    wp (splitNode tree id before.length addingRecord part₁ part₂)
      (fun _ s' => Parted tree s s' as bs part₁ part₂ (before ++ r :: behind)) (fun _ _ => False)
      (∃ e, some e ∈ s.outcomes.take 2) s := by
  have hN := tree.node_size_ge
  have hM := tree.record_len_le
  have hlen := hshort r (by simp)
  rw [IsNodeFull, hr.recordLen_eq ha, sizeofBtOff] at hfull
  have hid : id ≠ 0 := fun h => hc.nonzero (by simp [h])
  have hid₁ : id ≠ part₁ := fun h => hm₁ (by simp [h])
  have hid₂ : id ≠ part₂ := fun h => hm₂ (by simp [h])
  have hspace := hl.space
  have htotal : recordSpace (before ++ r :: behind) =
      recordSpace (before ++ behind) + (r.length + 4) := by
    simp only [recordSpace_eq, recordBytes_append, recordBytes_cons, List.length_append,
      List.length_cons, sizeofBtOff]
    omega
  rw [splitNode, wp_bind, wp_field]
  refine wp_opened hc hlive h₁₂ hm₁ hm₂ h₁ h₂ (fun e he => ⟨e, he⟩) fun s' ho => ?_
  have hl' := ho.others id _ hid hid₁ hid₂ hl
  have hf₁ := ho.first.space
  have hf₂ := ho.second.space
  simp only [recordSpace, List.map_nil, List.sum_nil] at hf₁ hf₂
  simp only [sizeofNodeDescr, sizeofBtOff, bnodeFirstOffset] at hspace hf₁ hf₂
  rw [wp_bind, wp_field, wp_bind, wp_field, hl'.count, wp_bind, wp_haltOn]
  constructor
  case left =>
    intro he
    rw [List.length_eq_zero_iff.mp he] at hspace
    change _ + 0 + 19 + 4 + 4 = _ at hspace
    omega
  case right =>
    intro _
    have hturns : (before ++ behind).length + 2 = (before ++ r :: behind).length + 0 + 1 := by
      simp [Nat.add_assoc]
    rw [hturns]
    refine wp_splitLoop_first [] (before ++ r :: behind) 0 ⟨hl', ha, hr⟩ h₁₂ hid₁ hid₂ ho.first
      ho.second rfl rfl (by simp [turnIndex]) (by simp) hshort (by omega) (by omega) (by omega)
      (by omega) ?_
    intro e₁ e₂ recs₁ recs₂ hsplit hne hhigh he₁ he₂ hs₁ hs₂
    have hnode₁ : ((s'.setNode part₁ e₁).setNode part₂ e₂).nodes part₁ = e₁ := by
      rw [nodes_setNode_of_ne h₁₂, nodes_setNode_self]
    have hlinks : ∀ i, SameLinks (s'.nodes i) (((s'.setNode part₁ e₁).setNode part₂ e₂).nodes i) := by
      intro i
      by_cases hi₂ : i = part₂
      case pos => rwa [hi₂, nodes_setNode_self]
      case neg =>
        rw [nodes_setNode_of_ne hi₂]
        by_cases hi₁ : i = part₁
        case pos => rwa [hi₁, nodes_setNode_self]
        case neg => rw [nodes_setNode_of_ne hi₁]; exact .refl
    exact {
      parts  := by
        refine ⟨recs₁, recs₂, hne, ?_, hsplit.symm, hnode₁.symm ▸ he₁, nodes_setNode_self.symm ▸ he₂⟩
        rintro rfl
        rw [List.append_nil] at hsplit
        rw [← hsplit, htotal] at hhigh
        omega
      chain  := hc.replace h₁₂ hm₁ hm₂ h₁.left.ne' h₂.left.ne'
        (fun i hi => (hlinks i _ (by decide) (by decide)).trans (ho.prev i hi))
        fun i hi => (hlinks i _ (by decide) (by decide)).trans (ho.next i hi)
      others := fun i recs hi hi₁ hi₂ h => by
        rw [nodes_setNode_of_ne hi₂, nodes_setNode_of_ne hi₁]
        exact ho.others i recs hi hi₁ hi₂ h }

-- A record as long as there can be, and a node of one page with `n` of them.
def longRecord : List Byte :=
  List.replicate 8 0 ++ toLe 4 479 ++ List.replicate 467 0

def longNode : Nat → Store
  | 0     => applyAll [DescrField.freeSpace.set 4069, ⟨slotAddr 4096 0, toLe 4 sizeofNodeDescr⟩] fun _ => 0
  | n + 1 => applyAll (insertWrites 4096 (longNode n) n n longRecord) (longNode n)

theorem length_longRecord : longRecord.length = 479 := by
  rw [longRecord, List.length_append, List.length_append, List.length_replicate, List.length_replicate,
    length_toLe]

theorem recordOk_longRecord : RecordOk longRecord :=
  ⟨by rw [length_longRecord]; decide, by rw [length_longRecord]; decide +kernel⟩

theorem layout_longNode (h : n ≤ 8) :
    NodeLayout 4096 (longNode n) (List.replicate n longRecord) ∧ SameLinks (longNode 0) (longNode n) := by
  induction n
  case zero =>
    refine ⟨⟨by decide, by decide, ?_, ?_, ⟨[], .nil, trivial⟩, by decide⟩, .refl⟩
    all_goals exact fun _ hm => nomatch hm
  case succ n ih =>
    obtain ⟨hl, hs⟩ := ih (by omega)
    have hfree : longRecord.length + 4 ≤ DescrField.freeSpace.get (longNode n) := by
      have := hl.space
      simp only [recordSpace, List.map_replicate, List.sum_replicate_nat, sizeofNodeDescr, sizeofBtOff,
        bnodeFirstOffset, length_longRecord] at this ⊢
      omega
    have hl' : NodeLayout 4096 (longNode n) (List.replicate n longRecord ++ []) := by
      rwa [List.append_nil]
    have hins := hl'.insert (by decide) recordOk_longRecord hfree
    have hroom := hl.room (by decide) (le_refl _) hfree
    rw [List.append_nil, List.length_replicate] at hins
    rw [List.length_replicate] at hroom
    rw [List.replicate_succ']
    exact ⟨hins, hs.trans fun _ hc hf => hroom.get_other hc hf⟩

def longTree : RawBtree :=
  ⟨fun _ => longNode 8, 0b1111, []⟩

def longRecordAt : Store :=
  Write.apply ⟨0, longRecord⟩ fun _ => 0

theorem chain_longTree : longTree.Chain ([] ++ [1] ++ []) where
  nodup   := by decide
  nonzero := by decide
  linked  :=
    have h := (layout_longNode (le_refl 8)).right
    ⟨h .prevNodeId (by decide) (by decide), h .nextNodeId (by decide) (by decide), trivial⟩

theorem isNodeFull_longTree : IsNodeFull (longTree.nodes 1) longRecordAt := by
  have hs := (layout_longNode (le_refl 8)).left.space
  rw [IsNodeFull, recordOk_longRecord.recordLen_eq hasAt_apply, length_longRecord]
  simp only [recordSpace, List.map_replicate, List.sum_replicate_nat, sizeofNodeDescr, sizeofBtOff,
    bnodeFirstOffset, length_longRecord] at hs ⊢
  change DescrField.freeSpace.get (longNode 8) < _
  omega

theorem splitNode_lossless_longTree : Code.wp
    (splitNode (catTree true false 0) 1 (List.replicate 3 longRecord).length longRecordAt 2 3)
    (fun _ s' => Parted (catTree true false 0) longTree s' [] [] 2 3
      (List.replicate 3 longRecord ++ longRecord :: List.replicate 5 longRecord)) (fun _ _ => False)
    (∃ e, some e ∈ longTree.outcomes.take 2) longTree := by
  have hl : NodeLayout (catTree true false 0).nodeSizeBytes (longTree.nodes 1)
      (List.replicate 3 longRecord ++ List.replicate 5 longRecord) := by
    rw [List.replicate_append_replicate]
    exact (layout_longNode (le_refl 8)).left
  have hshort : ∀ q ∈ List.replicate 3 longRecord ++ longRecord :: List.replicate 5 longRecord,
      q.length ≤ (catTree true false 0).maxRecordLen := by
    intro q hq
    have he : q = longRecord := by simpa [List.mem_replicate] using hq
    rw [he, length_longRecord]
    decide
  have hlive : ∀ i ∈ ([] ++ [] : List Nat), longTree.bitmap.testBit i := by decide
  have hc := chain_longTree
  have hfull := isNodeFull_longTree
  -- with the tree itself the goal would be run
  generalize longTree = s at hl hc hfull hlive ⊢
  exact splitNode_lossless hl recordOk_longRecord hasAt_apply hshort hfull hc hlive (by decide)
    (by decide) (by decide) (by decide) (by decide)

end Split

end RawBtree

end Emmcfs
