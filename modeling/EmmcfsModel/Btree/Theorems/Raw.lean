import EmmcfsModel.Btree.Raw

namespace Emmcfs

open Code Store

namespace DescrField

variable {f g : DescrField} {d : Store}

theorem size_le (f : DescrField) : f.addr + f.size ≤ sizeofNodeDescr := by
  cases f <;> decide

theorem get_lt (f : DescrField) (d : Store) : f.get d < 256 ^ f.size := by
  have h := @ofLe_lt (readAt d f.addr f.size)
  rwa [length_readAt] at h

theorem get_congr (h : readAt d' f.addr f.size = readAt d f.addr f.size) : f.get d' = f.get d :=
  congrArg ofLe h

-- Writes behind the descriptor do not change it.
theorem get_applyAll (h : ∀ w ∈ ws, sizeofNodeDescr ≤ w.addr) : f.get (applyAll ws d) = f.get d :=
  get_congr (readAt_applyAll_of_apart fun w hw => .inr (f.size_le.trans (h w hw)))

theorem get_apply {w : Write} (h : sizeofNodeDescr ≤ w.addr) : f.get (w.apply d) = f.get d :=
  get_congr (readAt_apply_of_apart (.inr (f.size_le.trans h)))

theorem get_set_self : f.get ((f.set v).apply d) = v % 256 ^ f.size := by
  rw [get, ← ofLe_toLe_mod]
  exact congrArg ofLe (hasAt_apply.readAt_eq length_toLe)

theorem apart (h : f ≠ g) : f.addr + f.size ≤ g.addr ∨ g.addr + g.size ≤ f.addr := by
  cases f <;> cases g <;> first | exact absurd rfl h | decide

theorem get_set_of_ne (h : f ≠ g) : f.get ((g.set v).apply d) = f.get d := by
  refine get_congr (readAt_apply_of_apart ?_)
  simpa [set] using (apart h).symm

theorem apply_set_of_le (h : sizeofNodeDescr ≤ a) : (f.set v).apply d a = d a := by
  refine Write.apply_of_notMem fun hm => ?_
  have hlt := (Set.mem_Ico.mp hm).right
  rw [set, length_toLe] at hlt
  exact absurd (hlt.trans_le f.size_le) (not_lt.mpr h)

end DescrField

section NodeLayout

variable {size : Nat} {d : Store} {recs before behind : List (List Byte)} {r : List Byte}

@[simp]
theorem recordBytes_nil : recordBytes [] = 0 := rfl

@[simp]
theorem recordBytes_cons : recordBytes (r :: recs) = r.length + recordBytes recs := by
  simp [recordBytes]

@[simp]
theorem recordBytes_append : recordBytes (before ++ behind) = recordBytes before + recordBytes behind := by
  simp [recordBytes]

theorem recordSpace_eq : recordSpace recs = recordBytes recs + sizeofBtOff * recs.length := by
  induction recs
  case nil           => rfl
  case cons r recs ih =>
    rw [recordSpace, List.map_cons, List.sum_cons, ← recordSpace, ih, recordBytes_cons, List.length_cons,
      Nat.mul_add]
    omega

-- The pieces are as long as they are together.
theorem Tiles.bounds {ps : List (Nat × List Byte)} (h : Tiles a ps) (hp : p ∈ ps) :
    a ≤ p.1 ∧ p.1 + p.2.length ≤ a + recordBytes (ps.map Prod.snd) := by
  induction ps generalizing a
  case nil => cases hp
  case cons q ps ih =>
    obtain ⟨hq, hps⟩ := h
    rw [List.map_cons, recordBytes_cons]
    cases List.mem_cons.mp hp
    case inl he =>
      subst he
      exact ⟨hq.ge, by omega⟩
    case inr hm =>
      have := ih hps hm
      omega

theorem tiles_append {ps qs : List (Nat × List Byte)} :
    Tiles a (ps ++ qs) ↔ Tiles a ps ∧ Tiles (a + recordBytes (ps.map Prod.snd)) qs := by
  induction ps generalizing a
  case nil => simp [Tiles]
  case cons q ps ih =>
    rw [List.map_cons, recordBytes_cons, ← Nat.add_assoc, List.cons_append, Tiles, Tiles, ih, and_assoc]

theorem map_snd_placed : (placed size d recs).map Prod.snd = recs :=
  List.ext_getElem (by simp [placed]) (by simp [placed])

theorem recordBytes_perm {recs' : List (List Byte)} (h : recs.Perm recs') :
    recordBytes recs = recordBytes recs' :=
  (h.map _).sum_nat

theorem NodeLayout.bounds (h : NodeLayout size d recs) (hp : p ∈ placed size d recs) :
    sizeofNodeDescr ≤ p.1 ∧ p.1 + p.2.length ≤ sizeofNodeDescr + recordBytes recs := by
  obtain ⟨ps, hperm, ht⟩ := h.tiled
  have := ht.bounds (hperm.mem_iff.mpr hp)
  rwa [recordBytes_perm (hperm.map _), map_snd_placed] at this

-- The layout is about two fields, the records and the offsets.
theorem NodeLayout.of_eqOn (h : NodeLayout size d recs)
    (hc : DescrField.recsCount.get d' = DescrField.recsCount.get d)
    (hf : DescrField.freeSpace.get d' = DescrField.freeSpace.get d)
    (hr : Set.EqOn d' d (Set.Ico sizeofNodeDescr (sizeofNodeDescr + recordBytes recs)))
    (ho : Set.EqOn d' d (Set.Ici (RawBtree.slotAddr size recs.length))) : NodeLayout size d' recs := by
  have hslot : ∀ i ≤ recs.length, slotOf size d' i = slotOf size d i := by
    intro i hi
    refine congrArg ofLe (readAt_congr (ho.mono fun a ha => le_trans ?_ (Set.mem_Ico.mp ha).left))
    simp only [RawBtree.slotAddr]
    gcongr
  have hplaced : placed size d' recs = placed size d recs :=
    List.mapIdx_eq_mapIdx_iff.mpr fun i hi => by rw [hslot i hi.le]
  exact {
    count := hc.trans h.count
    space := hf ▸ h.space
    ok    := h.ok
    held  := fun p hp => by
      rw [hplaced] at hp
      have hb := h.bounds hp
      exact (h.held p hp).congr (hr.mono (Set.Ico_subset_Ico hb.left hb.right))
    tiled := hplaced ▸ h.tiled
    free  := (hslot _ (le_refl _)).trans h.free }

theorem NodeLayout.congr (h : NodeLayout size d recs)
    (hc : DescrField.recsCount.get d' = DescrField.recsCount.get d)
    (hf : DescrField.freeSpace.get d' = DescrField.freeSpace.get d)
    (he : Set.EqOn d' d (Set.Ici sizeofNodeDescr)) : NodeLayout size d' recs := by
  have hs := h.space
  rw [recordSpace_eq] at hs
  refine h.of_eqOn hc hf (he.mono fun a ha => (Set.mem_Ico.mp ha).left)
    (he.mono (Set.Ici_subset_Ici.mpr ?_))
  simp only [RawBtree.slotAddr, sizeofNodeDescr, sizeofBtOff, bnodeFirstOffset] at hs ⊢
  omega

section Insert

open RawBtree (slotAddr)

-- What insert_into_node writes: the record, the offsets behind the new one, the new one, the fields and
-- the offset of the free space.
def closeWrites (size : Nat) (d : Store) (n : Nat) (r : List Byte) : List Write :=
  [DescrField.recsCount.set (n + 1),
    DescrField.freeSpace.set (DescrField.freeSpace.get d + 2 ^ 64 - (r.length + sizeofBtOff)),
    ⟨slotAddr size (n + 1), toLe sizeofBtOff (slotOf size d n + r.length)⟩]

def insertWrites (size : Nat) (d : Store) (n pos : Nat) (r : List Byte) : List Write :=
  ⟨slotOf size d n, r⟩ ::
    ⟨slotAddr size n, readAt d (slotAddr size n + sizeofBtOff) ((n - pos) * sizeofBtOff)⟩ ::
    ⟨slotAddr size pos, toLe sizeofBtOff (slotOf size d n)⟩ :: closeWrites size d n r

-- There is room for one more record and its offset.
structure Room (size : Nat) (d : Store) (n pos : Nat) (r : List Byte) : Prop where
  offset_ge : 19 ≤ slotOf size d n
  room      : slotOf size d n + r.length + 4 * n + 12 ≤ size
  pos_le    : pos ≤ n
  size_le   : size ≤ 65536

theorem slotAddr_eq : slotAddr size i = size - 4 - 4 * (i + 1) := rfl

namespace Room

variable {n pos j : Nat} (h : Room size d n pos r)
include h

-- The last writes are to the descriptor and to the place behind the offsets.
theorem close_apart (ha : 19 ≤ a)
    (hb : a + m ≤ slotAddr size (n + 1) ∨ slotAddr size n ≤ a) :
    ∀ w ∈ closeWrites size d n r, w.addr + w.bytes.length ≤ a ∨ a + m ≤ w.addr := by
  obtain ⟨h₁, h₂, h₃, _⟩ := h
  simp only [slotAddr_eq] at hb
  simp only [closeWrites, List.forall_mem_cons, length_toLe, DescrField.set, DescrField.addr,
    DescrField.size, slotAddr_eq, sizeofBtOff, List.not_mem_nil, false_imp_iff, implies_true, and_true]
  omega

theorem apart (ha : 19 ≤ a) (hr : a + m ≤ slotOf size d n ∨ slotOf size d n + r.length ≤ a)
    (hb : a + m ≤ slotAddr size (n + 1) ∨ slotAddr size pos + 4 ≤ a) :
    ∀ w ∈ insertWrites size d n pos r, w.addr + w.bytes.length ≤ a ∨ a + m ≤ w.addr := by
  have h₁ := h.offset_ge
  have h₂ := h.room
  have h₃ := h.pos_le
  have hclose : a + m ≤ slotAddr size (n + 1) ∨ slotAddr size n ≤ a := by
    simp only [slotAddr_eq] at *
    omega
  simp only [insertWrites, List.forall_mem_cons, length_readAt, length_toLe]
  refine ⟨by omega, ?_, ?_, h.close_apart ha hclose⟩
  all_goals
    simp only [slotAddr_eq, sizeofBtOff] at *
    omega

theorem slot_lt (hj : j < pos) :
    slotOf size (applyAll (insertWrites size d n pos r) d) j = slotOf size d j := by
  have h₁ := h.offset_ge
  have h₂ := h.room
  have h₃ := h.pos_le
  refine congrArg ofLe (readAt_applyAll_of_apart (h.apart ?_ ?_ ?_))
  all_goals
    simp only [slotAddr_eq, sizeofBtOff]
    omega

theorem slot_pos : slotOf size (applyAll (insertWrites size d n pos r) d) pos = slotOf size d n := by
  have h₁ := h.offset_ge
  have h₂ := h.room
  have h₃ := h.pos_le
  have h₄ := h.size_le
  rw [insertWrites, applyAll_cons, applyAll_cons, applyAll_cons, slotOf,
    readAt_applyAll_of_apart (h.close_apart ?_ ?_)]
  · rw [hasAt_apply.readAt_eq length_toLe, ofLe_toLe]
    simp only [sizeofBtOff]
    omega
  all_goals
    simp only [slotAddr_eq]
    omega

-- An offset behind the new one has been moved down by one place.
theorem slot_gt (hj : pos ≤ j) (hn : j < n) :
    slotOf size (applyAll (insertWrites size d n pos r) d) (j + 1) = slotOf size d j := by
  have h₁ := h.offset_ge
  have h₂ := h.room
  have h₃ := h.pos_le
  have hslot : slotAddr size (j + 1) = slotAddr size n + (n - (j + 1)) * sizeofBtOff := by
    simp only [slotAddr_eq, sizeofBtOff]
    omega
  have hsrc : slotAddr size n + sizeofBtOff + (n - (j + 1)) * sizeofBtOff = slotAddr size j := by
    simp only [slotAddr_eq, sizeofBtOff]
    omega
  rw [insertWrites, applyAll_cons, applyAll_cons, slotOf, readAt_applyAll_of_apart, hslot, readAt_copy,
    hsrc, slotOf]
  · simp only [sizeofBtOff]
    omega
  · rw [List.forall_mem_cons, length_toLe]
    refine ⟨?_, h.close_apart ?_ ?_⟩
    all_goals
      simp only [slotAddr_eq, sizeofBtOff]
      omega

theorem slot_free : slotOf size (applyAll (insertWrites size d n pos r) d) (n + 1) =
    slotOf size d n + r.length := by
  obtain ⟨h₁, h₂, h₃, _⟩ := h
  simp only [insertWrites, closeWrites, applyAll_cons, applyAll_nil]
  rw [slotOf, hasAt_apply.readAt_eq length_toLe, ofLe_toLe]
  simp only [sizeofBtOff]
  omega

-- The new record and what lay before the free space.
theorem hasAt_new : HasAt (applyAll (insertWrites size d n pos r) d) (slotOf size d n) r := by
  have h₁ := h.offset_ge
  have h₂ := h.room
  have h₃ := h.pos_le
  rw [insertWrites, applyAll_cons]
  refine (hasAt_apply (w := ⟨slotOf size d n, r⟩)).applyAll_of_apart ?_
  rw [List.forall_mem_cons, List.forall_mem_cons, length_toLe, length_readAt]
  refine ⟨?_, ?_, h.close_apart ?_ ?_⟩
  all_goals
    simp only [slotAddr_eq, sizeofBtOff]
    omega

theorem hasAt_old (hd : HasAt d a bs) (ha : 19 ≤ a) (hb : a + bs.length ≤ slotOf size d n) :
    HasAt (applyAll (insertWrites size d n pos r) d) a bs := by
  have h₁ := h.offset_ge
  have h₂ := h.room
  have h₃ := h.pos_le
  refine hd.applyAll_of_apart (h.apart ha (.inl hb) (.inl ?_))
  simp only [slotAddr_eq]
  omega

-- Of the descriptor, two fields are written.
theorem get_field : ∃ d₃ : Store, (∀ f : DescrField, f.get d₃ = f.get d) ∧ ∀ f : DescrField,
    f.get (applyAll (insertWrites size d n pos r) d) =
      f.get ((DescrField.freeSpace.set (DescrField.freeSpace.get d + 2 ^ 64 -
        (r.length + sizeofBtOff))).apply ((DescrField.recsCount.set (n + 1)).apply d₃)) := by
  obtain ⟨h₁, h₂, h₃, _⟩ := h
  refine ⟨applyAll ((insertWrites size d n pos r).take 3) d, fun f => ?_, fun f => ?_⟩
  · refine DescrField.get_applyAll ?_
    simp only [insertWrites, List.take_succ_cons, List.take_zero, List.forall_mem_cons,
      List.not_mem_nil, false_imp_iff, implies_true, and_true, slotAddr_eq, sizeofNodeDescr]
    omega
  · refine DescrField.get_apply ?_
    simp only [slotAddr_eq, sizeofNodeDescr]
    omega

theorem get_recsCount :
    DescrField.recsCount.get (applyAll (insertWrites size d n pos r) d) = n + 1 := by
  obtain ⟨d₃, _, hf⟩ := h.get_field
  obtain ⟨h₁, h₂, h₃, _⟩ := h
  rw [hf, DescrField.get_set_of_ne (by decide), DescrField.get_set_self]
  exact Nat.mod_eq_of_lt (by simp only [DescrField.size]; omega)

theorem get_freeSpace (hf : r.length + 4 ≤ DescrField.freeSpace.get d) :
    DescrField.freeSpace.get (applyAll (insertWrites size d n pos r) d) =
      DescrField.freeSpace.get d - (r.length + 4) := by
  obtain ⟨d₃, _, hfield⟩ := h.get_field
  have hlt : DescrField.freeSpace.get d < 256 ^ 2 := DescrField.get_lt ..
  rw [hfield, DescrField.get_set_self]
  simp only [DescrField.size, sizeofBtOff]
  omega

theorem get_other {f : DescrField} (hc : f ≠ .recsCount) (hf : f ≠ .freeSpace) :
    f.get (applyAll (insertWrites size d n pos r) d) = f.get d := by
  obtain ⟨d₃, h₃, hfield⟩ := h.get_field
  rw [hfield, DescrField.get_set_of_ne hf, DescrField.get_set_of_ne hc, h₃]

end Room

theorem NodeLayout.room (h : NodeLayout size d recs) (hsize : size ≤ 65536) (hp : pos ≤ recs.length)
    (hf : r.length + 4 ≤ DescrField.freeSpace.get d) : Room size d recs.length pos r := by
  have hs := h.space
  have hfree := h.free
  rw [recordSpace_eq] at hs
  simp only [sizeofNodeDescr, sizeofBtOff, bnodeFirstOffset] at hs hfree
  exact ⟨by omega, by omega, hp, hsize⟩

-- Each record is where it was, and the new one where the free space began.
theorem Room.placed_perm (h : Room size d (before ++ behind).length before.length r) :
    (placed size (applyAll (insertWrites size d (before ++ behind).length before.length r) d)
      (before ++ r :: behind)).Perm
      ((slotOf size d (before ++ behind).length, r) :: placed size d (before ++ behind)) := by
  have hbefore : before.mapIdx (fun i q => (slotOf size (applyAll (insertWrites size d
      (before ++ behind).length before.length r) d) i, q)) =
        before.mapIdx fun i q => (slotOf size d i, q) :=
    List.mapIdx_eq_mapIdx_iff.mpr fun i hi => by rw [h.slot_lt hi]
  have hbehind : behind.mapIdx (fun i q => (slotOf size (applyAll (insertWrites size d
      (before ++ behind).length before.length r) d) (i + 1 + before.length), q)) =
        behind.mapIdx fun i q => (slotOf size d (i + before.length), q) := by
    refine List.mapIdx_eq_mapIdx_iff.mpr fun i hi => ?_
    rw [Nat.add_right_comm, h.slot_gt (by omega) (by rw [List.length_append]; omega)]
  rw [placed, placed, List.mapIdx_append, List.mapIdx_append, List.mapIdx_cons, hbefore, hbehind,
    Nat.zero_add, h.slot_pos]
  exact List.perm_middle

-- A record is inserted into the list of records.
theorem NodeLayout.insert (h : NodeLayout size d (before ++ behind)) (hsize : size ≤ 65536) (hr : RecordOk r)
    (hf : r.length + 4 ≤ DescrField.freeSpace.get d) :
    NodeLayout size (applyAll (insertWrites size d (before ++ behind).length before.length r) d)
      (before ++ r :: behind) := by
  have hpos : before.length ≤ (before ++ behind).length := by simp
  have hroom := h.room hsize hpos hf
  have hn : (before ++ r :: behind).length = (before ++ behind).length + 1 := by simp [Nat.add_assoc]
  have hperm := hroom.placed_perm
  exact {
    count := hroom.get_recsCount.trans hn.symm
    space := by
      have := h.space
      rw [hroom.get_freeSpace hf]
      rw [recordSpace_eq] at *
      simp only [recordBytes_append, recordBytes_cons, hn, sizeofBtOff] at *
      omega
    ok    := fun q hq => by
      rcases List.mem_append.mp hq with hq | hq
      · exact h.ok q (List.mem_append_left _ hq)
      · cases List.mem_cons.mp hq
        case inl he => exact he ▸ hr
        case inr hm => exact h.ok q (List.mem_append_right _ hm)
    held  := fun p hp => by
      cases List.mem_cons.mp (hperm.mem_iff.mp hp)
      case inl he => exact he ▸ hroom.hasAt_new
      case inr hm =>
        have hb := h.bounds hm
        exact hroom.hasAt_old (h.held p hm) hb.left (by rw [h.free]; exact hb.right)
    tiled := by
      obtain ⟨ps, hps, ht⟩ := h.tiled
      refine ⟨ps ++ [(slotOf size d (before ++ behind).length, r)], ?_, tiles_append.mpr ⟨ht, ?_, trivial⟩⟩
      case refine_2 => rw [recordBytes_perm (hps.map _), map_snd_placed, h.free]
      exact (List.perm_append_singleton ..).trans ((hps.cons _).trans hperm.symm)
    free  := by
      rw [hn, hroom.slot_free, h.free]
      simp only [recordBytes_append, recordBytes_cons]
      omega }

end Insert

end NodeLayout

end Emmcfs
