import EmmcfsModel.Btree.Theorems.Node
import EmmcfsModel.Btree.Theorems.RawRemove

namespace Emmcfs.RawBtree

open Code Store

variable {κ ν : Type} {tree : BtreeOps κ} {enc : BtreeRecord κ ν → List Byte} {s : RawBtree}
  {t : Btree κ ν} {d : Store} {b : Bnode κ ν} {r : BtreeRecord κ ν} {id : Nat}
  {before behind recs : List (BtreeRecord κ ν)}

-- The bytes of a node, where `enc` gives the bytes of a record.
structure Holds (tree : BtreeOps κ) (enc : BtreeRecord κ ν → List Byte) (d : Store) (b : Bnode κ ν) :
    Prop where
  layout    : NodeLayout tree.nodeSizeBytes d (b.recs.map enc)
  lengths   : ∀ r ∈ b.recs, (enc r).length = r.recordLen
  freeSpace : DescrField.freeSpace.get d = b.freeSpace

theorem recordSpace_map (h : ∀ r ∈ recs, (enc r).length = r.recordLen) :
    recordSpace (recs.map enc) = usedSpace recs := by
  rw [recordSpace, usedSpace, List.map_map]
  exact congrArg List.sum (List.map_congr_left fun r hr => congrArg (· + sizeofBtOff) (h r hr))

-- The free space of a node is what its records leave.
theorem holds_iff : Holds tree enc d b ↔ NodeLayout tree.nodeSizeBytes d (b.recs.map enc) ∧
    (∀ r ∈ b.recs, (enc r).length = r.recordLen) ∧ b.freeSpace + usedSpace b.recs = tree.capacity := by
  have hspace (hl : NodeLayout tree.nodeSizeBytes d (b.recs.map enc))
      (hr : ∀ r ∈ b.recs, (enc r).length = r.recordLen) :
      DescrField.freeSpace.get d + usedSpace b.recs = tree.capacity := by
    have hs := hl.space
    have hc := tree.capacity_eq
    rw [recordSpace_map hr] at hs
    simp only [sizeofNodeDescr, sizeofBtOff, bnodeFirstOffset] at hs
    omega
  constructor
  case mp  => exact fun h => ⟨h.layout, h.lengths, h.freeSpace ▸ hspace h.layout h.lengths⟩
  case mpr =>
    rintro ⟨hl, hr, hs⟩
    have := hspace hl hr
    exact ⟨hl, hr, by omega⟩

-- On the bytes of a node insert_into_node and delete_from_node do what they do on its records.
theorem insertIntoNode_refines {record : Store} (h : Holds tree enc (s.nodes id) (t.bnode id))
    (hb : (t.bnode id).recs = before ++ behind) (hr : RecordOk (enc r))
    (hlen : (enc r).length = r.recordLen) (hd : HasAt record 0 (enc r))
    (hf : r.recordLen + sizeofBtOff ≤ (t.bnode id).freeSpace) :
    ∃ d t', insertIntoNode tree id record before.length s = .ok () (s.setNode id d) ∧
      Emmcfs.insertIntoNode id r before.length t = .ok () t' ∧ Holds tree enc d (t'.bnode id) := by
  obtain ⟨hl, hlens, hs⟩ := holds_iff.mp h
  rw [hb, List.map_append] at hl
  rw [hb] at hlens
  have hroom : (enc r).length + 4 ≤ DescrField.freeSpace.get (s.nodes id) := by
    rw [hlen, h.freeSpace]
    exact hf
  have hraw := returns_setNode (wp_insertIntoNode hl hr hd hroom fun d hd _ _ => ⟨d, rfl, hd⟩)
  rw [List.length_map] at hraw
  obtain ⟨d, hraw, hd⟩ := hraw
  obtain ⟨t', hrun, ht⟩ := wp_returns_unit (Q := fun t' => t'.bnode id = _)
    ((Emmcfs.wp_insertIntoNode rfl hb hs hf).mpr Btree.bnode_setBnode_self)
  refine ⟨d, t', hraw, hrun, holds_iff.mpr ?_⟩
  rw [ht, List.map_append, List.map_cons]
  refine ⟨hd, fun q hq => ?_, ?_⟩
  case refine_1 =>
    rcases List.mem_append.mp hq with hq | hq
    · exact hlens q (List.mem_append_left _ hq)
    · cases List.mem_cons.mp hq
      case inl he => exact he ▸ hlen
      case inr hq => exact hlens q (List.mem_append_right _ hq)
  case refine_2 =>
    change (t.bnode id).freeSpace - (r.recordLen + sizeofBtOff) + usedSpace (before ++ r :: behind) = _
    rw [hb, usedSpace_append] at hs
    rw [usedSpace_append, usedSpace_cons]
    omega

theorem deleteFromNode_refines (h : Holds tree enc (s.nodes id) (t.bnode id))
    (hb : (t.bnode id).recs = before ++ r :: behind) :
    ∃ d t', deleteFromNode tree debug id before.length s = .ok () (s.setNode id d) ∧
      Emmcfs.deleteFromNode tree id before.length t = .ok () t' ∧ Holds tree enc d (t'.bnode id) := by
  obtain ⟨hl, hlens, hs⟩ := holds_iff.mp h
  have herase : ((t.bnode id).recs.map enc).eraseIdx before.length = (before ++ behind).map enc := by
    rw [hb, List.map_append, List.eraseIdx_append_of_length_le (by simp), List.length_map]
    simp
  have hlt : before.length < ((t.bnode id).recs.map enc).length := by simp [hb]
  obtain ⟨d, hraw, hd⟩ : ∃ d, deleteFromNode tree debug id before.length s = .ok () (s.setNode id d) ∧ _ :=
    returns_setNode (wp_deleteFromNode hl hlt fun d hd => ⟨d, rfl, hd⟩)
  obtain ⟨t', hrun, ht⟩ := wp_returns_unit (Q := fun t' => t'.bnode id = _)
    ((Emmcfs.wp_deleteFromNode rfl hb hs).mpr Btree.bnode_setBnode_self)
  refine ⟨d, t', hraw, hrun, holds_iff.mpr ?_⟩
  rw [ht]
  refine ⟨herase ▸ hd, fun q hq => hlens q ?_, ?_⟩
  case refine_1 =>
    rw [hb]
    exact List.mem_append.mpr ((List.mem_append.mp hq).imp_right (List.mem_cons_of_mem _))
  case refine_2 =>
    change (t.bnode id).freeSpace + (r.recordLen + sizeofBtOff) + usedSpace (before ++ behind) = _
    rw [hb, usedSpace_append, usedSpace_cons] at hs
    rw [usedSpace_append]
    omega

end Emmcfs.RawBtree
