import Mathlib.Data.List.Perm.Basic
import EmmcfsModel.Btree.Theorems.Raw

namespace Emmcfs

open Code Store

section Places

variable {size : Nat} {d d' : Store} {recs : List (List Byte)} {ps qs : List (Nat × List Byte)}

-- The same pieces from another address on.
theorem Tiles.map {f : Nat → Nat} (h : Tiles a ps) (hf : ∀ i, f (a + i) = b + i) :
    Tiles b (ps.map fun p => (f p.1, p.2)) := by
  induction ps generalizing a b
  case nil => trivial
  case cons p ps ih =>
    refine ⟨h.left ▸ hf 0, ih h.right fun i => ?_⟩
    rw [Nat.add_assoc, hf, Nat.add_assoc]

theorem placed_eq (hs : ∀ j p, qs[j]? = some p → slotOf size d j = p.1) :
    placed size d (qs.map Prod.snd) = qs := by
  refine List.ext_getElem? fun j => ?_
  rw [placed, List.getElem?_mapIdx, List.getElem?_map]
  cases hq : qs[j]?
  case none   => rfl
  case some p => rw [Option.map_some, Option.map_some, hs j p hq]

theorem getElem?_placed : (placed size d recs)[j]? = recs[j]?.map fun r => (slotOf size d j, r) := by
  rw [placed, List.getElem?_mapIdx]

-- A layout with the records at given places.
theorem NodeLayout.of_places (hc : DescrField.recsCount.get d = qs.length)
    (hs : DescrField.freeSpace.get d + recordSpace (qs.map Prod.snd) + sizeofNodeDescr + sizeofBtOff +
      bnodeFirstOffset = size) (ho : ∀ p ∈ qs, RecordOk p.2)
    (hslot : ∀ j p, qs[j]? = some p → slotOf size d j = p.1) (hd : ∀ p ∈ qs, HasAt d p.1 p.2)
    (ht : ∃ ps, ps.Perm qs ∧ Tiles sizeofNodeDescr ps)
    (hf : slotOf size d qs.length = sizeofNodeDescr + recordBytes (qs.map Prod.snd)) :
    NodeLayout size d (qs.map Prod.snd) where
  count := by rw [hc, List.length_map]
  space := hs
  ok    := List.forall_mem_map.mpr ho
  held  := by rwa [placed_eq hslot]
  tiled := by rwa [placed_eq hslot]
  free  := by rwa [List.length_map]

-- Between the records and the offsets lies the free space.
theorem NodeLayout.fits (h : NodeLayout size d recs) :
    slotOf size d recs.length + DescrField.freeSpace.get d + 4 * recs.length + 8 = size := by
  have hs := h.space
  rw [recordSpace_eq] at hs
  rw [h.free]
  simp only [sizeofBtOff, bnodeFirstOffset] at hs
  omega

theorem NodeLayout.slot_bounds (h : NodeLayout size d recs) (hj : j ≤ recs.length) :
    19 ≤ slotOf size d j ∧ slotOf size d j ≤ slotOf size d recs.length := by
  have hfree := h.free
  rcases Nat.lt_or_eq_of_le hj with hj | rfl
  case inr => exact ⟨hfree ▸ Nat.le_add_right .., le_refl _⟩
  case inl =>
    have hp : (slotOf size d j, recs[j]) ∈ placed size d recs :=
      List.mem_of_getElem? (i := j) (by simp [getElem?_placed, List.getElem?_eq_getElem hj])
    have hb := h.bounds hp
    exact ⟨hb.left, by omega⟩

end Places

section Delete

variable {size : Nat} {d d' : Store} {recs : List (List Byte)} {k : Nat} {r : List Byte}

-- Where a record is after `len` bytes at `del` have been taken out.
def movedTo (del len offset : Nat) : Nat :=
  if del < offset then offset - len else offset

-- A node without its record `k`, which had `len` bytes.
structure RecordDeleted (size : Nat) (d d' : Store) (k n len : Nat) : Prop where
  count : DescrField.recsCount.get d' + 1 = n
  space : DescrField.freeSpace.get d' = DescrField.freeSpace.get d + len + sizeofBtOff
  slots : ∀ j, j + 1 < n → slotOf size d' j =
    movedTo (slotOf size d k) len (slotOf size d (if j < k then j else j + 1))
  free  : ∀ j, j + 1 = n → slotOf size d' j = slotOf size d n - len
  below : ∀ a, sizeofNodeDescr ≤ a → a < slotOf size d k → d' a = d a
  above : ∀ a, slotOf size d k + len ≤ a → a < slotOf size d n → d' (a - len) = d a

-- The other records lie before and behind it.
theorem NodeLayout.split (h : NodeLayout size d recs) (hk : recs[k]? = some r) :
    ∃ ps₁ ps₂, (ps₁ ++ ps₂).Perm ((placed size d recs).eraseIdx k) ∧ Tiles sizeofNodeDescr ps₁ ∧
      slotOf size d k = sizeofNodeDescr + recordBytes (ps₁.map Prod.snd) ∧
      Tiles (slotOf size d k + r.length) ps₂ ∧
      slotOf size d recs.length = slotOf size d k + r.length + recordBytes (ps₂.map Prod.snd) := by
  obtain ⟨ps, hperm, ht⟩ := h.tiled
  have hk' : (placed size d recs)[k]? = some (slotOf size d k, r) := by simp [getElem?_placed, hk]
  obtain ⟨hlt, he⟩ := List.getElem?_eq_some_iff.mp hk'
  obtain ⟨ps₁, ps₂, rfl⟩ := List.append_of_mem (hperm.mem_iff.mpr (List.mem_of_getElem? hk'))
  obtain ⟨h₁, hat, h₂⟩ := tiles_append.mp ht
  have hbytes : recordBytes (ps₁.map Prod.snd) + (r.length + recordBytes (ps₂.map Prod.snd)) =
      recordBytes recs := by
    have := recordBytes_perm (hperm.map Prod.snd)
    rwa [map_snd_placed, List.map_append, recordBytes_append, List.map_cons, recordBytes_cons] at this
  refine ⟨ps₁, ps₂, ?_, h₁, hat, hat ▸ h₂, ?_⟩
  case refine_1 =>
    have hout := List.getElem_cons_eraseIdx_perm hlt
    rw [he] at hout
    exact (List.perm_middle.symm.trans (hperm.trans hout.symm)).cons_inv
  case refine_2 =>
    rw [h.free]
    omega

-- What does not lie before it lies behind its end.
theorem NodeLayout.slot_behind (h : NodeLayout size d recs) (hk : recs[k]? = some r) (hj : j < recs.length)
    (hlt : slotOf size d k < slotOf size d j) : slotOf size d k + r.length ≤ slotOf size d j := by
  obtain ⟨ps₁, ps₂, hperm, h₁, hat, h₂, _⟩ := h.split hk
  have hne : j ≠ k := fun he => absurd hlt (he ▸ lt_irrefl _)
  have hp : (slotOf size d j, recs[j]) ∈ (placed size d recs).eraseIdx k :=
    List.mem_eraseIdx_iff_getElem?.mpr
      ⟨j, hne, by simp [getElem?_placed, List.getElem?_eq_getElem hj]⟩
  rcases List.mem_append.mp (hperm.mem_iff.mpr hp) with hp | hp
  case inl =>
    have := h₁.bounds hp
    omega
  case inr => exact (h₂.bounds hp).left

theorem movedTo_of_le (h : offset ≤ del) : movedTo del len offset = offset :=
  if_neg h.not_gt

theorem movedTo_add (hl : 0 < len) (i : Nat) : movedTo del len (del + len + i) = del + i := by
  rw [movedTo, if_pos (by omega)]
  omega

theorem RecordOk.length_pos (h : RecordOk r) : 0 < r.length :=
  Nat.lt_of_lt_of_le (by decide) h.long

theorem recordBytes_eraseIdx (hk : recs[k]? = some r) :
    recordBytes (recs.eraseIdx k) + r.length = recordBytes recs := by
  obtain ⟨hlt, rfl⟩ := List.getElem?_eq_some_iff.mp hk
  rw [← recordBytes_perm (List.getElem_cons_eraseIdx_perm hlt), recordBytes_cons, Nat.add_comm]

-- The places of the records that are left.
def movedPlaces (size : Nat) (d : Store) (recs : List (List Byte)) (k len : Nat) :
    List (Nat × List Byte) :=
  ((placed size d recs).eraseIdx k).map fun p => (movedTo (slotOf size d k) len p.1, p.2)

theorem map_snd_movedPlaces : (movedPlaces size d recs k len).map Prod.snd = recs.eraseIdx k := by
  rw [movedPlaces, List.map_map]
  change ((placed size d recs).eraseIdx k).map Prod.snd = _
  rw [← List.eraseIdx_map, map_snd_placed]

theorem NodeLayout.tiles_movedPlaces (h : NodeLayout size d recs) (hk : recs[k]? = some r) :
    ∃ ps, ps.Perm (movedPlaces size d recs k r.length) ∧ Tiles sizeofNodeDescr ps := by
  obtain ⟨ps₁, ps₂, hperm, h₁, hat, h₂, _⟩ := h.split hk
  have hpos := (h.ok r (List.mem_of_getElem? hk)).length_pos
  refine ⟨_, hperm.map _, ?_⟩
  have hfirst : ps₁.map (fun p => (movedTo (slotOf size d k) r.length p.1, p.2)) = ps₁ := by
    refine (List.map_congr_left fun p hp => ?_).trans (List.map_id ps₁)
    have := h₁.bounds hp
    exact Prod.ext (movedTo_of_le (by omega)) rfl
  rw [List.map_append, tiles_append, hfirst, ← hat]
  exact ⟨h₁, h₂.map fun i => movedTo_add hpos i⟩

theorem RecordDeleted.hasAt (h : NodeLayout size d recs) (hk : recs[k]? = some r)
    (hd : RecordDeleted size d d' k recs.length r.length) (hp : p ∈ movedPlaces size d recs k r.length) :
    HasAt d' p.1 p.2 := by
  obtain ⟨ps₁, ps₂, hperm, h₁, hat, h₂, hend⟩ := h.split hk
  have hpos := (h.ok r (List.mem_of_getElem? hk)).length_pos
  obtain ⟨q, hq, rfl⟩ := List.mem_map.mp hp
  have hheld := h.held q (List.mem_of_mem_eraseIdx hq)
  rcases List.mem_append.mp (hperm.mem_iff.mpr hq) with hq | hq
  case inl =>
    have hb := h₁.bounds hq
    rw [movedTo_of_le (by omega)]
    refine hheld.congr fun a ha => hd.below a ?_ ?_ <;> rw [Set.mem_Ico] at ha <;> omega
  case inr =>
    have hb := h₂.bounds hq
    obtain ⟨i, hi⟩ := Nat.exists_eq_add_of_le hb.left
    intro j b hj
    have hlt : j < q.2.length := (List.getElem?_eq_some_iff.mp hj).choose
    have hmove := hd.above (q.1 + j) (by omega) (by omega)
    rw [hheld j b hj] at hmove
    rw [← hmove, hi, movedTo_add hpos]
    congr 1
    omega

theorem NodeLayout.delete (h : NodeLayout size d recs) (hk : recs[k]? = some r)
    (hd : RecordDeleted size d d' k recs.length r.length) : NodeLayout size d' (recs.eraseIdx k) := by
  have hlt := (List.getElem?_eq_some_iff.mp hk).choose
  have hbytes := recordBytes_eraseIdx hk
  have hlength : (recs.eraseIdx k).length + 1 = recs.length := by
    rw [List.length_eraseIdx_of_lt hlt]
    omega
  have hrecs : (movedPlaces size d recs k r.length).map Prod.snd = recs.eraseIdx k :=
    map_snd_movedPlaces
  have hplaces : (movedPlaces size d recs k r.length).length = (recs.eraseIdx k).length := by
    rw [← hrecs, List.length_map]
  rw [← hrecs]
  refine .of_places ?_ ?_ (fun p hp => ?_) (fun j p hj => ?_) (fun p => hd.hasAt h hk)
    (h.tiles_movedPlaces hk) ?_
  case refine_1 =>
    have := hd.count
    omega
  case refine_2 =>
    have hs := h.space
    rw [hd.space, hrecs]
    rw [recordSpace_eq] at hs ⊢
    simp only [sizeofBtOff] at hs ⊢
    omega
  case refine_3 =>
    have := List.mem_map_of_mem (f := Prod.snd) hp
    rw [hrecs] at this
    exact h.ok _ (List.mem_of_mem_eraseIdx this)
  case refine_4 =>
    have hjlt := (List.getElem?_eq_some_iff.mp hj).choose
    rw [hd.slots j (by omega)]
    simp only [movedPlaces, List.getElem?_map, List.getElem?_eraseIdx, getElem?_placed,
      Option.map_eq_some_iff] at hj
    obtain ⟨q, hq, rfl⟩ := hj
    by_cases hjk : j < k
    case pos =>
      rw [if_pos hjk] at hq ⊢
      obtain ⟨_, _, rfl⟩ := Option.map_eq_some_iff.mp hq
      rfl
    case neg =>
      rw [if_neg hjk] at hq ⊢
      obtain ⟨_, _, rfl⟩ := Option.map_eq_some_iff.mp hq
      rfl
  case refine_5 =>
    rw [hplaces, hd.free _ hlength, hrecs, h.free]
    omega

end Delete

section Merge

variable {size : Nat} {dl dr d' : Store} {recs recs' : List (List Byte)}

-- A node with its `n` records and the `m` records of another one.
structure RecordsMerged (size : Nat) (dl dr d' : Store) (n m : Nat) : Prop where
  count : DescrField.recsCount.get d' = n + m
  space : DescrField.freeSpace.get d' + (slotOf size dr m - sizeofNodeDescr) + m * sizeofBtOff =
    DescrField.freeSpace.get dl
  left  : ∀ j < n, slotOf size d' j = slotOf size dl j
  right : ∀ j ≤ m, slotOf size d' (n + j) = slotOf size dl n + slotOf size dr j - sizeofNodeDescr
  below : ∀ a, sizeofNodeDescr ≤ a → a < slotOf size dl n → d' a = dl a
  above : ∀ a, sizeofNodeDescr ≤ a → a < slotOf size dr m →
    d' (slotOf size dl n + a - sizeofNodeDescr) = dr a

def mergedPlaces (size : Nat) (dl dr : Store) (recs recs' : List (List Byte)) :
    List (Nat × List Byte) :=
  placed size dl recs ++ (placed size dr recs').map fun p =>
    (slotOf size dl recs.length + p.1 - sizeofNodeDescr, p.2)

theorem map_snd_mergedPlaces : (mergedPlaces size dl dr recs recs').map Prod.snd = recs ++ recs' := by
  rw [mergedPlaces, List.map_append, map_snd_placed, List.map_map]
  change recs ++ (placed size dr recs').map Prod.snd = _
  rw [map_snd_placed]

theorem RecordsMerged.hasAt (h : NodeLayout size dl recs) (h' : NodeLayout size dr recs')
    (hm : RecordsMerged size dl dr d' recs.length recs'.length) (hp : p ∈ mergedPlaces size dl dr recs recs') :
    HasAt d' p.1 p.2 := by
  rcases List.mem_append.mp hp with hp | hp
  case inl =>
    have hb := h.bounds hp
    have hfree := h.free
    refine (h.held p hp).congr fun a ha => hm.below a ?_ ?_ <;> rw [Set.mem_Ico] at ha <;> omega
  case inr =>
    obtain ⟨q, hq, rfl⟩ := List.mem_map.mp hp
    have hb := h'.bounds hq
    have hfree := h'.free
    intro j b hj
    have hlt : j < q.2.length := (List.getElem?_eq_some_iff.mp hj).choose
    have hmove := hm.above (q.1 + j) (by omega) (by omega)
    rw [h'.held q hq j b hj] at hmove
    rw [← hmove]
    congr 1
    change slotOf size dl recs.length + q.1 - sizeofNodeDescr + j = _
    omega

theorem NodeLayout.merge (h : NodeLayout size dl recs) (h' : NodeLayout size dr recs')
    (hm : RecordsMerged size dl dr d' recs.length recs'.length) : NodeLayout size d' (recs ++ recs') := by
  have hrecs : (mergedPlaces size dl dr recs recs').map Prod.snd = recs ++ recs' := map_snd_mergedPlaces
  have hplaces : (mergedPlaces size dl dr recs recs').length = recs.length + recs'.length := by
    rw [← List.length_append, ← hrecs, List.length_map]
  have hfree := h.free
  have hfree' := h'.free
  rw [← hrecs]
  refine .of_places ?_ ?_ (fun p hp => ?_) (fun j p hj => ?_) (fun p => hm.hasAt h h') ?_ ?_
  case refine_1 => rw [hm.count, hplaces]
  case refine_2 =>
    have hs := h.space
    have hspace := hm.space
    rw [hrecs]
    rw [recordSpace_eq] at hs ⊢
    rw [recordBytes_append, List.length_append]
    simp only [sizeofBtOff] at hs hspace ⊢
    omega
  case refine_3 =>
    have hp := List.mem_map_of_mem (f := Prod.snd) hp
    rw [hrecs, List.mem_append] at hp
    exact hp.elim (h.ok _) (h'.ok _)
  case refine_4 =>
    by_cases hjn : j < recs.length
    case pos =>
      rw [mergedPlaces, List.getElem?_append_left (by simpa [placed] using hjn), getElem?_placed] at hj
      obtain ⟨_, _, rfl⟩ := Option.map_eq_some_iff.mp hj
      exact hm.left j hjn
    case neg =>
      obtain ⟨i, rfl⟩ := Nat.exists_eq_add_of_le (not_lt.mp hjn)
      have hlen : (placed size dl recs).length = recs.length := by simp [placed]
      rw [mergedPlaces, List.getElem?_append_right (by omega), hlen, Nat.add_sub_cancel_left,
        List.getElem?_map, getElem?_placed] at hj
      obtain ⟨q, hq, rfl⟩ := Option.map_eq_some_iff.mp hj
      obtain ⟨_, hi, rfl⟩ := Option.map_eq_some_iff.mp hq
      exact hm.right i (List.getElem?_eq_some_iff.mp hi).choose.le
  case refine_5 =>
    obtain ⟨ps, hps, ht⟩ := h.tiled
    obtain ⟨ps', hps', ht'⟩ := h'.tiled
    refine ⟨_, hps.append (hps'.map _), tiles_append.mpr ⟨ht,
      ht'.map (f := fun o => slotOf size dl recs.length + o - sizeofNodeDescr) fun i => ?_⟩⟩
    rw [recordBytes_perm (hps.map _), map_snd_placed]
    omega
  case refine_6 =>
    rw [hplaces, hm.right _ (le_refl _), hrecs, recordBytes_append]
    omega

end Merge

end Emmcfs
