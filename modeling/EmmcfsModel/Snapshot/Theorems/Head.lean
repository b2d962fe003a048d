import EmmcfsModel.Snapshot.Commit

namespace Emmcfs

open Store

section Pages

theorem mem_pageWrites_readPages {d : Store} : w ∈ Volume.pageWrites addr (Volume.readPages d src n) ↔
    ∃ k < n, w = ⟨addr + pageCacheSize * k, readAt d (src + pageCacheSize * k) pageCacheSize⟩ := by
  induction n generalizing addr src
  case zero => simp [Volume.readPages, Volume.pageWrites]
  case succ n ih =>
    simp only [Volume.readPages, Volume.pageWrites, List.mem_cons, ih]
    constructor
    case mp =>
      rintro (rfl | ⟨k, hk, rfl⟩)
      · exact ⟨0, by omega, by simp⟩
      · exact ⟨k + 1, by omega, by simp [Nat.mul_add, Nat.add_assoc, Nat.add_comm]⟩
    case mpr =>
      rintro ⟨k, hk, rfl⟩
      cases k
      case zero   => exact .inl (by simp)
      case succ k =>
        exact .inr ⟨k, by omega, by simp [Nat.mul_add, Nat.add_assoc, Nat.add_comm]⟩

-- A copy of pages, byte by byte.
theorem applyAll_copy_eq {d m : Store} (hi : i < pageCacheSize * n) :
    applyAll (Volume.pageWrites addr (Volume.readPages d src n)) m (addr + i) = d (src + i) := by
  refine applyAll_eq ?_ (.inr ?_)
  · intro w hw j b hj hb
    obtain ⟨k, hk, rfl⟩ := mem_pageWrites_readPages.mp hw
    dsimp only at hj hb
    rw [← hasAt_readAt j b hb, show src + pageCacheSize * k + j = src + i by omega]
  · refine ⟨_, mem_pageWrites_readPages.mpr ⟨i / pageCacheSize, ?_, rfl⟩, ?_⟩
    · exact Nat.div_lt_of_lt_mul hi
    · have := Nat.div_add_mod i pageCacheSize
      have := Nat.mod_lt i (show 0 < pageCacheSize by decide)
      simp only [Write.span, length_readAt, Set.mem_Ico]
      omega

theorem span_pageWrites {pages : List (List Byte)} (hl : ∀ page ∈ pages, page.length = pageCacheSize)
    (hw : w ∈ Volume.pageWrites addr pages) :
    w.span ⊆ Set.Ico addr (addr + pageCacheSize * pages.length) := by
  induction pages generalizing addr
  case nil => simp [Volume.pageWrites] at hw
  case cons page pages ih =>
    have hp : page.length = pageCacheSize := hl page (by simp)
    rw [List.length_cons, Nat.mul_add, Nat.mul_one]
    cases List.mem_cons.mp hw
    case inl he =>
      subst he
      exact Set.Ico_subset_Ico_right (by dsimp only; omega)
    case inr hw =>
      refine (ih (fun page h => hl page (by simp [h])) hw).trans ?_
      exact Set.Ico_subset_Ico (by omega) (by omega)

theorem length_of_mem_toPages (h : page ∈ Volume.toPages bytes n) : page.length = pageCacheSize := by
  induction n generalizing bytes
  case zero => simp [Volume.toPages] at h
  case succ n ih =>
    cases List.mem_cons.mp h
    case inl he =>
      subst he
      simp
      omega
    case inr h => exact ih h

theorem length_toPages : (Volume.toPages bytes n).length = n := by
  induction n generalizing bytes
  case zero      => rfl
  case succ n ih => rw [Volume.toPages, List.length_cons, ih]

theorem hasAt_toPages {d : Store} (h : bytes.length ≤ pageCacheSize * n) :
    HasAt (applyAll (Volume.pageWrites addr (Volume.toPages bytes n)) d) addr bytes := by
  induction n generalizing bytes addr d
  case zero =>
    obtain rfl : bytes = [] := List.eq_nil_of_length_eq_zero (by omega)
    exact fun i b hb => by simp at hb
  case succ n ih =>
    rw [Volume.toPages, Volume.pageWrites, applyAll_cons]
    have htl : ∀ page ∈ Volume.toPages (bytes.drop pageCacheSize) n, page.length = pageCacheSize :=
      fun _ => length_of_mem_toPages
    rw [← List.take_append_drop pageCacheSize bytes, hasAt_append, List.take_append_drop]
    constructor
    case left =>
      -- the later pages lie behind this one
      refine (hasAt_append.mp hasAt_apply).left.congr (eqOn_applyAll fun w hw => ?_)
      refine Disjoint.mono_left (span_pageWrites htl hw) ?_
      refine Set.disjoint_left.mpr fun a ha hb => ?_
      have := List.length_take_le pageCacheSize bytes
      simp only [Set.mem_Ico] at ha hb
      omega
    case right =>
      by_cases hlen : bytes.length ≤ pageCacheSize
      case pos =>
        intro i b hb
        simp [List.drop_eq_nil_of_le hlen] at hb
      case neg =>
        rw [List.length_take_of_le (by omega)]
        exact ih (by rw [List.length_drop]; rw [Nat.mul_add] at h; omega)

end Pages

section Head

variable {d : Store} {root : List TransactionData}

-- What the 16 bits of the checksum's offset and the widths of the fields can hold.
structure Representable (root : List TransactionData) : Prop where
  offset : 16 + sizeofTransaction * root.length < 2 ^ 16
  fields : ∀ t ∈ root, t.onVolume < 2 ^ 64 ∧ t.onSnapshot < 2 ^ 64 ∧ t.pagesCount < 2 ^ 16

theorem ofLe_readAt (h : HasAt d a (toLe n v)) (hv : v < 256 ^ n) : ofLe (readAt d a n) = v := by
  rw [h.readAt_eq length_toLe, ofLe_toLe hv]

theorem length_transactionBytes : (Volume.transactionBytes t).length = sizeofTransaction := by
  simp [Volume.transactionBytes, sizeofTransaction]

theorem length_flatMap_transactionBytes :
    (root.flatMap Volume.transactionBytes).length = sizeofTransaction * root.length := by
  induction root
  case nil => rfl
  case cons t root ih =>
    rw [List.flatMap_cons, List.length_append, length_transactionBytes, ih, List.length_cons,
      Nat.mul_add, Nat.mul_one, Nat.add_comm]

theorem readTransaction_eq (h : HasAt d a (Volume.transactionBytes t)) (hv : t.onVolume < 2 ^ 64)
    (hs : t.onSnapshot < 2 ^ 64) (hp : t.pagesCount < 2 ^ 16) :
    Volume.readTransaction d a = t := by
  simp only [Volume.transactionBytes, hasAt_append, length_toLe, List.length_append] at h
  obtain ⟨⟨h₁, h₂⟩, h₃⟩ := h
  rw [Volume.readTransaction, ofLe_readAt h₁ hv, ofLe_readAt h₂ hs, ofLe_readAt h₃ hp]

theorem readTransaction_range (h : HasAt d a (root.flatMap Volume.transactionBytes))
    (hf : ∀ t ∈ root, t.onVolume < 2 ^ 64 ∧ t.onSnapshot < 2 ^ 64 ∧ t.pagesCount < 2 ^ 16) :
    (List.range root.length).map
      (fun i => Volume.readTransaction d (a + sizeofTransaction * i)) = root := by
  induction root generalizing a
  case nil => rfl
  case cons t root ih =>
    rw [List.flatMap_cons, hasAt_append, length_transactionBytes] at h
    obtain ⟨hv, hs, hp⟩ := hf t (by simp)
    have ih := ih h.right fun t ht => hf t (by simp [ht])
    rw [List.length_cons, List.range_succ_eq_map, List.map_cons, List.map_map]
    rw [Nat.mul_zero, Nat.add_zero, readTransaction_eq h.left hv hs hp]
    refine congrArg (t :: ·) (Eq.trans (List.map_congr_left fun i _ => ?_) ih)
    rw [Function.comp_apply, Nat.succ_eq_add_one, Nat.mul_add, Nat.mul_one, Nat.add_assoc,
      Nat.add_comm sizeofTransaction]

theorem length_headFields : (Volume.headFields mountCount version root).length =
    16 + sizeofTransaction * root.length := by
  simp only [Volume.headFields, List.length_append, length_toLe, length_flatMap_transactionBytes]

-- The fields of a head, where its parts lie.
theorem hasAt_headFields : HasAt d a (Volume.headFields mountCount version root) ↔
    HasAt d a (toLe 4 emmcfsSnapshotMagic) ∧ HasAt d (a + 4) (toLe 4 mountCount) ∧
    HasAt d (a + 8) (toLe 4 version) ∧ HasAt d (a + 12) (toLe 2 root.length) ∧
    HasAt d (a + 14) (toLe 2 (16 + sizeofTransaction * root.length)) ∧
    HasAt d (a + 16) (root.flatMap Volume.transactionBytes) := by
  simp only [Volume.headFields, hasAt_append, length_toLe, List.length_append, and_assoc]

variable {vol : Volume}

-- A head is read back as it was written.
theorem readTransactions_eq (hr : Representable root)
    (h : HasAt d vol.headAddr (vol.transactionTreeToSnapshot mountCount version root)) :
    vol.IsSnapshotPresent d ∧ vol.readTransactions d = some root := by
  have hoff := hr.offset
  have hcount : root.length < 256 ^ 2 := by
    simp only [sizeofTransaction] at hoff
    omega
  rw [Volume.transactionTreeToSnapshot, hasAt_append, length_headFields, Nat.mod_eq_of_lt hoff,
    List.take_of_length_le length_headFields.le] at h
  obtain ⟨hhead, hsum⟩ := h
  have hall := hhead.readAt_eq length_headFields
  obtain ⟨hmagic, _, _, hn, ho, hroot⟩ := hasAt_headFields.mp hhead
  refine ⟨hmagic.readAt_eq length_toLe, ?_⟩
  simp only [Volume.readTransactions]
  rw [ofLe_readAt hn hcount, ofLe_readAt ho hoff, hall, ofLe_readAt hsum (BitVec.isLt _), if_pos rfl,
    readTransaction_range hroot hr.fields]

end Head

end Emmcfs
