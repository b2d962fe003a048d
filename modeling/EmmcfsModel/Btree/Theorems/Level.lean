import EmmcfsModel.Btree.Invariant

namespace Emmcfs.Btree

variable {tree : BtreeOps κ} {s s' s'' : Btree κ ν} {id i : Nat} {as bs ids ids' : List Nat}
  {recs recs' : List (BtreeRecord κ ν)} {levels up : List (List Nat)} {type : NodeType}

section Records

@[simp]
theorem recsOf_nil : s.recsOf [] = [] := rfl

@[simp]
theorem recsOf_cons : s.recsOf (id :: ids) = (s.bnode id).recs ++ s.recsOf ids := rfl

@[simp]
theorem recsOf_append : s.recsOf (as ++ bs) = s.recsOf as ++ s.recsOf bs :=
  List.flatMap_append

theorem recsOf_congr (h : ∀ id ∈ ids, (s'.bnode id).recs = (s.bnode id).recs) :
    s'.recsOf ids = s.recsOf ids :=
  List.flatMap_congr h

theorem indexRecord_of_recs (h : (s.bnode id).recs = r :: recs) : s.indexRecord tree id =
    some ⟨r.key, tree.keyLen r.key + sizeofIndexValue, .node id⟩ := by
  rw [indexRecord, h, List.head?_cons, Option.map_some]

@[simp]
theorem indexRecords_append :
    s.indexRecords tree (as ++ bs) = s.indexRecords tree as ++ s.indexRecords tree bs :=
  List.filterMap_append

theorem indexRecords_cons (h : s.indexRecord tree id = some r) :
    s.indexRecords tree (id :: ids) = r :: s.indexRecords tree ids :=
  List.filterMap_cons_some h

theorem indexRecords_congr
    (h : ∀ id ∈ ids, (s'.bnode id).recs.head? = (s.bnode id).recs.head?) :
    s'.indexRecords tree ids = s.indexRecords tree ids :=
  List.filterMap_congr fun id hid => by rw [indexRecord, h id hid, indexRecord]

theorem exists_indexRecord (h : (s.bnode id).recs ≠ []) :
    ∃ r rest, (s.bnode id).recs = r :: rest ∧ s.indexRecord tree id =
      some ⟨r.key, tree.keyLen r.key + sizeofIndexValue, .node id⟩ := by
  obtain ⟨r, rest, he⟩ := List.exists_cons_of_ne_nil h
  exact ⟨r, rest, he, indexRecord_of_recs he⟩

theorem length_indexRecords (h : ∀ id ∈ ids, (s.bnode id).recs ≠ []) :
    (s.indexRecords tree ids).length = ids.length := by
  induction ids
  case nil => rfl
  case cons id ids ih =>
    obtain ⟨r, rest, hr⟩ := List.exists_cons_of_ne_nil (h id (by simp))
    rw [indexRecords_cons (indexRecord_of_recs hr), List.length_cons, List.length_cons,
      ih fun i hi => h i (by simp [hi])]

end Records

section Congr

theorem Level.congr (h : s.Level tree type ids recs) (hl : ∀ id ∈ ids, s'.Live id)
    (hb : ∀ id ∈ ids, s'.bnode id = s.bnode id) : s'.Level tree type ids recs where
  live       := hl
  fits id hi := by rw [hb id hi]; exact h.fits id hi
  typed id hi := by rw [hb id hi]; exact h.typed id hi
  linked     := h.linked.congr (fun id hi => by rw [hb id hi]) fun id hi => by rw [hb id hi]
  records    := (recsOf_congr fun id hi => congrArg _ (hb id hi)).trans h.records

theorem Levels.congr (h : s.Levels tree type levels recs)
    (hl : ∀ id ∈ levels.flatten, s'.Live id)
    (hb : ∀ id ∈ levels.flatten, s'.bnode id = s.bnode id)
    (hr : s'.rootBnodeId = s.rootBnodeId) : s'.Levels tree type levels recs := by
  induction levels generalizing type recs
  case nil => rw [Levels, hr]; exact h
  case cons ids up ih =>
    obtain ⟨hlevel, hup⟩ := h
    rw [List.flatten_cons] at hl hb
    refine ⟨hlevel.congr (fun id hi => hl id (List.mem_append_left _ hi))
      fun id hi => hb id (List.mem_append_left _ hi), ?_⟩
    have he : s'.indexRecords tree ids = s.indexRecords tree ids :=
      indexRecords_congr fun id hi => by rw [hb id (List.mem_append_left _ hi)]
    rw [he]
    exact ih hup (fun id hi => hl id (List.mem_append_right _ hi))
      fun id hi => hb id (List.mem_append_right _ hi)

theorem Levels.live_and_fits (h : s.Levels tree type levels recs) :
    ∀ id ∈ levels.flatten, s.Live id ∧ (s.bnode id).Fits tree := by
  induction levels generalizing type recs
  case nil => simp
  case cons ids up ih =>
    intro id hi
    rw [List.flatten_cons] at hi
    cases List.mem_append.mp hi
    case inl hi => exact ⟨h.left.live id hi, h.left.fits id hi⟩
    case inr hi => exact ih h.right id hi

theorem Levels.live (h : s.Levels tree type levels recs) : ∀ id ∈ levels.flatten, s.Live id :=
  fun id hi => (h.live_and_fits id hi).left

namespace Replaced

theorem trans {mid : List Nat} (h : Replaced s s' ids mid) (h' : Replaced s' s'' mid ids') :
    Replaced s s'' ids ids' where
  keep id hi hl := by
    obtain ⟨hl', hb⟩ := h.keep id hi hl
    have hm : id ∉ mid := fun hm => (h.fresh id hm).elim hi fun hn => hn hl
    obtain ⟨hl'', hb'⟩ := h'.keep id hm hl'
    exact ⟨hl'', hb'.trans hb⟩
  fresh id hi := by
    have hback : ¬s'.Live id → id ∈ ids ∨ ¬s.Live id := by
      intro hn
      by_cases hm : id ∈ ids
      case pos => exact .inl hm
      case neg => exact .inr fun hl => hn (h.keep id hm hl).left
    exact (h'.fresh id hi).elim (h.fresh id) hback

end Replaced

end Congr

section Replace

-- A stretch of a level is replaced by other nodes.
theorem Level.replace {mid mid' : List Nat} (h : s.Level tree type (as ++ mid ++ bs) recs)
    (hd : (as ++ bs).Nodup)
    (hkeep : ∀ i ∈ as ++ bs, s'.Live i ∧ s'.bnode i = s.relinked (as.getLastD 0)
      (mid'.headD (bs.headD 0)) (bs.headD 0) (mid'.getLastD (as.getLastD 0)) i)
    (hmid : ∀ i ∈ mid', s'.Live i ∧ (s'.bnode i).Fits tree ∧ (s'.bnode i).type = type)
    (hlink : Linked (fun i => (s'.bnode i).prevNodeId) (fun i => (s'.bnode i).nextNodeId)
      (as.getLastD 0) mid' (bs.headD 0)) :
    s'.Level tree type (as ++ mid' ++ bs) (s.recsOf as ++ s'.recsOf mid' ++ s.recsOf bs) := by
  have hold : ∀ i ∈ as ++ bs, i ∈ as ++ mid ++ bs := by
    intro i hi
    simp only [List.mem_append] at hi ⊢
    tauto
  have hnew : ∀ i ∈ as ++ mid' ++ bs, i ∈ as ++ bs ∨ i ∈ mid' := by
    intro i hi
    simp only [List.mem_append] at hi ⊢
    tauto
  have hrecs : ∀ i ∈ as ++ bs, (s'.bnode i).recs = (s.bnode i).recs := fun i hi => by
    rw [(hkeep i hi).right]
    rfl
  exact {
    live := fun i hi => (hnew i hi).elim (fun hi => (hkeep i hi).left) fun hi => (hmid i hi).left
    fits := by
      intro i hi
      cases hnew i hi
      case inl hi =>
        have hf := h.fits i (hold i hi)
        rw [(hkeep i hi).right]
        exact ⟨hf.nonempty, hf.space, hf.short⟩
      case inr hi => exact (hmid i hi).right.left
    typed := by
      intro i hi
      cases hnew i hi
      case inl hi =>
        rw [(hkeep i hi).right]
        exact h.typed i (hold i hi)
      case inr hi => exact (hmid i hi).right.right
    linked := by
      refine h.linked.replace hd (fun h0 => (hkeep 0 h0).left.ne_zero rfl) ?_ ?_ hlink
      · intro i hi
        rw [(hkeep i hi).right]
        rfl
      · intro i hi
        rw [(hkeep i hi).right]
        rfl
    records := by
      rw [recsOf_append, recsOf_append,
        recsOf_congr fun i hi => hrecs i (List.mem_append_left _ hi),
        recsOf_congr fun i hi => hrecs i (List.mem_append_right _ hi)] }

end Replace

section Under

variable {level : Nat} {up' : List (List Nat)}

theorem Upper.apart (hu : s.Upper tree level (ids :: up) recs) :
    ids.Nodup ∧ ∀ i ∈ ids, i ∉ up.flatten := by
  obtain ⟨hnd, _, hdis⟩ := List.nodup_append.mp (List.flatten_cons ▸ hu.nodup)
  exact ⟨hnd, fun i hi hup => hdis i hi i hup rfl⟩

-- The levels above a level, when only that level has been changed.
theorem Upper.above (hu : s.Upper tree level (ids :: up) recs) (hl : 1 ≤ level)
    (hkeep : ∀ i ∈ up.flatten, s'.Live i ∧ s'.bnode i = s.bnode i) (hb : s'.BitmapOk tree)
    (hr : s'.rootBnodeId = s.rootBnodeId) (hh : s'.btreeHeight = s.btreeHeight) :
    s'.Upper tree (level + 1) up (s.indexRecords tree ids) where
  shape  := by
    rw [typeAt, if_neg (by omega)]
    exact hu.shape.right.congr (fun i hi => (hkeep i hi).left) (fun i hi => (hkeep i hi).right) hr
  nodup  := (List.nodup_append.mp (List.flatten_cons ▸ hu.nodup)).right.left
  bitmap := hb
  height := by
    have := hu.height
    rw [List.length_cons] at this
    omega

-- The levels above a level have been replaced and name its nodes. Its nodes are as they were.
theorem Level.under (h : s.Level tree (typeAt level) ids recs) (hnd : ids.Nodup)
    (hdis : ∀ i ∈ ids, i ∉ up.flatten) (hl : 1 ≤ level)
    (hu : s'.Upper tree (level + 1) up' (s.indexRecords tree ids))
    (hrep : Replaced s s' up.flatten up'.flatten) : s'.Upper tree level (ids :: up') recs ∧
      Replaced s s' (ids :: up).flatten (ids :: up').flatten := by
  have hkeep (i) (hi : i ∈ ids) := hrep.keep i (hdis i hi) (h.live i hi)
  have hindex : s'.indexRecords tree ids = s.indexRecords tree ids :=
    indexRecords_congr fun i hi => by rw [(hkeep i hi).right]
  refine ⟨⟨⟨?_, ?_⟩, ?_, hu.bitmap, ?_⟩, fun i hi hlive => ?_, fun i hi => ?_⟩
  · exact h.congr (fun i hi => (hkeep i hi).left) fun i hi => (hkeep i hi).right
  · rw [hindex]
    have := hu.shape
    rwa [typeAt, if_neg (by omega)] at this
  · refine List.nodup_append.mpr ⟨hnd, hu.nodup, fun i hi j hj he => ?_⟩
    subst he
    exact (hrep.fresh i hj).elim (hdis i hi) fun hn => hn (h.live i hi)
  · have := hu.height
    rw [List.length_cons]
    omega
  · exact hrep.keep i (fun hm => hi (List.mem_append_right _ hm)) hlive
  · rcases List.mem_append.mp hi with hi | hi
    · exact .inl (List.mem_append_left _ hi)
    · exact (hrep.fresh i hi).imp_left (List.mem_append_right _)

end Under

section Places

variable {k pos : Nat}

theorem length_places : (s.places ids).length = (s.recsOf ids).length := by
  simp [places, recsOf, List.length_flatMap]

theorem places_append : s.places (as ++ bs) = s.places as ++ s.places bs :=
  List.flatMap_append

theorem mem_of_places (h : (s.places ids)[k]? = some (id, pos)) : id ∈ ids := by
  obtain ⟨i, hi, hm⟩ := List.mem_flatMap.mp (List.mem_of_getElem? h)
  obtain ⟨_, _, he⟩ := List.mem_map.mp hm
  cases he
  exact hi

-- The node is among those in the middle if the place is.
theorem mem_middle_of_places {mid : List Nat}
    (h : (s.places (as ++ mid ++ bs))[k]? = some (id, pos)) (hle : (s.recsOf as).length ≤ k)
    (hlt : k < (s.recsOf as).length + (s.recsOf mid).length) : id ∈ mid := by
  rw [← length_places] at hle
  rw [← length_places, ← length_places] at hlt
  rw [List.append_assoc, places_append, places_append, List.getElem?_append_right hle,
    List.getElem?_append_left (by omega)] at h
  exact mem_of_places h

-- Where a path leads, and the places behind it in the same node.
theorem PathTo.places_add (h : s.PathTo (ids :: up) k ((id, pos) :: path))
    (hlt : pos + n < (s.bnode id).recs.length) : (s.places ids)[k + n]? = some (id, pos + n) := by
  obtain ⟨as, i, bs, p, path', rfl, he, _, rfl, _⟩ := h
  cases he
  rw [places_append, Nat.add_assoc, ← length_places, List.getElem?_append_right (Nat.le_add_right ..),
    Nat.add_sub_cancel_left, Btree.places, List.flatMap_cons, List.getElem?_append_left (by simpa using hlt)]
  simp [hlt]

theorem PathTo.place (h : s.PathTo (ids :: up) k ((id, pos) :: path)) :
    (s.places ids)[k]? = some (id, pos) := by
  have hlt : pos < (s.bnode id).recs.length := by
    obtain ⟨_, _, _, _, _, _, he, hlt, _⟩ := h
    cases he
    exact hlt
  exact h.places_add (n := 0) hlt

theorem Levels.typed (h : s.Levels tree .index up recs) (hid : id ∈ up.flatten) :
    (s.bnode id).type = .index := by
  induction up generalizing recs
  case nil => cases hid
  case cons ids up ih =>
    rcases List.mem_append.mp (List.flatten_cons ▸ hid) with hid | hid
    · exact h.left.typed id hid
    · exact ih h.right hid

theorem Upper.wide (hu : s.Upper tree level (ids :: up) recs) (hd : s.Dense (ids :: up).flatten) :
    s.Wide up.flatten := by
  intro i hi
  exact hd i (by rw [List.flatten_cons]; exact List.mem_append_right _ hi) (hu.shape.right.typed hi)

theorem Widened.wide (h : Widened s s' ids ids') (hw : s.Wide ids) : s'.Wide ids' := by
  intro i hi
  rcases h i hi with h | ⟨hi, hle⟩
  · exact h
  · exact (hw i hi).trans hle

end Places

end Emmcfs.Btree
