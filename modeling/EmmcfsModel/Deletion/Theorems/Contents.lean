import EmmcfsModel.Deletion.Contents

namespace Emmcfs

section Compare

theorem cmp2Le64_eq_zero : cmp2Le64 a b = 0 ↔ a = b := by
  unfold cmp2Le64
  split
  · simp [*]
  · split <;> simp [*]

-- The wildcard finds the records of an object, and nothing else does more than one.
theorem exttreeCmpfn_wildcard : exttreeCmpfn key ⟨n, iblockDoesNotMatter⟩ = 0 ↔ key.objectId = n := by
  simp [exttreeCmpfn, cmp2Le64_eq_zero]

theorem exttreeCmpfn_eq_zero (hb : b ≠ iblockDoesNotMatter) :
    exttreeCmpfn key ⟨n, b⟩ = 0 ↔ key = ⟨n, b⟩ := by
  obtain ⟨objectId, iblock⟩ := key
  by_cases hn : objectId = n
  · simp [exttreeCmpfn, hn, hb, cmp2Le64_eq_zero]
  · simp [exttreeCmpfn, hn, cmp2Le64_eq_zero]

theorem exttreeCmpfn_neg (h : key.objectId < n) : exttreeCmpfn key ⟨n, b⟩ < 0 := by
  have hne : key.objectId ≠ n := Nat.ne_of_lt h
  simp [exttreeCmpfn, cmp2Le64, hne, Nat.lt_asymm h]

end Compare

namespace Contents

variable {c : Contents} {r : ExttreeRecord}

theorem mem_recordsOf : r ∈ c.recordsOf ino ↔ r ∈ c.records ∧ r.key.objectId = ino :=
  Finset.mem_filter

theorem mem_blocksOf : x ∈ c.blocksOf ino ↔
    ∃ r ∈ c.records, r.key.objectId = ino ∧ x ∈ r.blocks := by
  simp [blocksOf, mem_recordsOf, and_assoc]

theorem mem_orphans : ino ∈ c.orphans ↔ ∃ r ∈ c.records, r.key = ⟨orphanInodesIno, ino⟩ := by
  simp only [orphans, Finset.mem_image, mem_recordsOf]
  constructor
  case mp =>
    rintro ⟨r, ⟨hr, ho⟩, hi⟩
    exact ⟨r, hr, by rw [← ho, ← hi]⟩
  case mpr =>
    rintro ⟨r, hr, hk⟩
    exact ⟨r, ⟨hr, by rw [hk]⟩, by rw [hk]⟩

theorem recordsOf_freed : (c.freed r).recordsOf ino = (c.recordsOf ino).erase r :=
  Finset.filter_erase ..

theorem orphans_freed (hr : r.IsExtent) : (c.freed r).orphans = c.orphans := by
  ext ino
  simp only [mem_orphans, freed, Finset.mem_erase]
  constructor
  case mp =>
    rintro ⟨q, ⟨_, hq⟩, hk⟩
    exact ⟨q, hq, hk⟩
  case mpr =>
    rintro ⟨q, hq, hk⟩
    refine ⟨q, ⟨fun he => ?_, hq⟩, hk⟩
    have : orphanInodesIno < q.key.objectId := he ▸ hr
    simp [hk] at this

theorem orphans_dropped (hi : ino ≠ orphanInodesIno) :
    (c.dropped ino).orphans = c.orphans.erase ino := by
  ext n
  simp only [mem_orphans, dropped, Finset.mem_filter, Finset.mem_erase]
  constructor
  case mp =>
    rintro ⟨q, ⟨hq, _, hne⟩, hk⟩
    exact ⟨fun he => hne (he ▸ hk), q, hq, hk⟩
  case mpr =>
    rintro ⟨hn, q, hq, hk⟩
    exact ⟨q, ⟨hq, by simp [hk, hi.symm], by simp [hk, hn]⟩, hk⟩

-- Processing the orphans comes to the same if some of it has been done already.
theorem cleared_freed (hr : r ∈ c.records) (he : r.IsExtent) (ho : r.key.objectId ∈ c.orphans) :
    (c.freed r).cleared = c.cleared := by
  have hf := orphans_freed (c := c) he
  ext x
  case free =>
    simp only [cleared, hf, Finset.mem_union, Finset.mem_biUnion, mem_blocksOf]
    grind [freed]
  case records =>
    simp only [cleared, hf, Finset.mem_filter]
    grind [freed]
  case numbers =>
    rw [cleared, cleared, hf]
    rfl

theorem dropped_freed (hr : r ∈ c.records) (hi : r.key.objectId = ino) :
    (c.freed r).dropped ino = c.dropped ino := by
  ext x
  case free =>
    simp only [dropped, Finset.mem_union, mem_blocksOf]
    grind [freed]
  case records =>
    simp only [dropped, Finset.mem_filter]
    grind [freed]
  case numbers => rfl

-- When all extents of an inode have been freed, only its orphan record and its number are left.
theorem dropped_of_orphan (h : c.recordsOf ino = ∅)
    (hk : ∀ q ∈ c.records, q.key = ⟨orphanInodesIno, ino⟩ ↔ q = r) :
    c.dropped ino =
      { c with records := c.records.erase r, numbers := c.numbers.erase ino } := by
  have ho (q) (hq : q ∈ c.records) : q.key.objectId ≠ ino := by
    intro he
    have := mem_recordsOf.mpr ⟨hq, he⟩
    simp [h] at this
  ext x
  case free    => simp [dropped, blocksOf, h]
  case records =>
    simp only [dropped, Finset.mem_filter, Finset.mem_erase]
    grind
  case numbers => rfl

theorem mem_dropped_free : x ∈ (c.dropped ino).free ↔
    (∃ r ∈ c.records, r.key.objectId = ino ∧ x ∈ r.blocks) ∨ x ∈ c.free := by
  rw [dropped, Finset.mem_union, mem_blocksOf]

theorem mem_dropped_records : r ∈ (c.dropped ino).records ↔
    r ∈ c.records ∧ r.key.objectId ≠ ino ∧ r.key ≠ ⟨orphanInodesIno, ino⟩ :=
  Finset.mem_filter

theorem cleared_dropped (ho : ino ∈ c.orphans) (h₀ : orphanInodesIno ∉ c.orphans) :
    (c.dropped ino).cleared = c.cleared := by
  have hd := orphans_dropped (c := c) fun he : ino = orphanInodesIno => h₀ (he ▸ ho)
  ext x
  case free =>
    simp only [cleared, hd, Finset.mem_union, Finset.mem_biUnion, Finset.mem_erase, mem_blocksOf,
      mem_dropped_free, mem_dropped_records]
    grind
  case records =>
    simp only [cleared, hd, Finset.mem_filter, mem_dropped_records]
    grind
  case numbers =>
    simp only [cleared, hd]
    grind [dropped]

theorem cleared_of_orphans (h : c.orphans = ∅) : c.cleared = c := by
  have hr (r) (hr : r ∈ c.records) : r.key.objectId ≠ orphanInodesIno := by
    intro ho
    have := mem_orphans.mpr ⟨r, hr, (by rw [← ho] : r.key = ⟨orphanInodesIno, r.key.iblock⟩)⟩
    simp [h] at this
  ext x
  case free    => simp [cleared, h]
  case records =>
    simp only [cleared, h, Finset.mem_filter]
    grind
  case numbers => simp [cleared, h]

namespace Recoverable

theorem freed (h : c.Recoverable bytes pages) (hr : r ∈ c.records) (he : r.IsExtent) :
    (c.freed r).Recoverable bytes pages where
  low          := by
    obtain ⟨q, hq, hl⟩ := h.low
    refine ⟨q, Finset.mem_erase.mpr ⟨fun hqr => ?_, hq⟩, hl⟩
    have : orphanInodesIno < q.key.objectId := hqr ▸ he
    omega
  keys q hq p hp       := h.keys q (Finset.mem_of_mem_erase hq) p (Finset.mem_of_mem_erase hp)
  extents q hq         := h.extents q (Finset.mem_of_mem_erase hq)
  used q hq hx         := by
    obtain ⟨hne, hq⟩ := Finset.mem_erase.mp hq
    exact Finset.disjoint_union_right.mpr ⟨h.disjoint q hq r hr hx he hne, h.used q hq hx⟩
  disjoint q hq p hp   := h.disjoint q (Finset.mem_of_mem_erase hq) p (Finset.mem_of_mem_erase hp)
  orphans n hn         := h.orphans n (orphans_freed he ▸ hn)

theorem dropped (h : c.Recoverable bytes pages) (ho : ino ∈ c.orphans) :
    (c.dropped ino).Recoverable bytes pages where
  low          := by
    obtain ⟨q, hq, hl⟩ := h.low
    have hi := (h.orphans ino ho).1
    refine ⟨q, mem_dropped_records.mpr ⟨hq, by omega, fun hk => ?_⟩, hl⟩
    simp [hk] at hl
  keys q hq p hp       := h.keys q (Finset.mem_of_mem_filter q hq) p (Finset.mem_of_mem_filter p hp)
  extents q hq         := h.extents q (Finset.mem_of_mem_filter q hq)
  used q hq hx         := by
    obtain ⟨hq, hne, _⟩ := mem_dropped_records.mp hq
    refine Finset.disjoint_left.mpr fun x hx' hf => ?_
    cases mem_dropped_free.mp hf
    case inl hf =>
      obtain ⟨p, hp, hi, hxp⟩ := hf
      have hpx : p.IsExtent := by rw [ExttreeRecord.IsExtent, hi]; exact (h.orphans ino ho).1
      have hd := h.disjoint q hq p hp hx hpx fun he => hne (he ▸ hi)
      exact Finset.disjoint_left.mp hd hx' hxp
    case inr hf => exact Finset.disjoint_left.mp (h.used q hq hx) hx' hf
  disjoint q hq p hp   :=
    h.disjoint q (Finset.mem_of_mem_filter q hq) p (Finset.mem_of_mem_filter p hp)
  orphans n hn         := by
    have hi := (h.orphans ino ho).1
    rw [orphans_dropped (by omega)] at hn
    obtain ⟨hne, hn⟩ := Finset.mem_erase.mp hn
    obtain ⟨h₁, h₂, h₃⟩ := h.orphans n hn
    exact ⟨h₁, h₂, Finset.mem_erase.mpr ⟨hne, h₃⟩⟩

end Recoverable

section File

variable {fork : ForkInfo}

theorem mem_orphaned_records : r ∈ (c.orphaned ino).records ↔
    r = ⟨⟨orphanInodesIno, ino⟩, none⟩ ∨ r ∈ c.records :=
  Finset.mem_insert

theorem orphans_orphaned : (c.orphaned ino).orphans = insert ino c.orphans := by
  ext n
  simp only [mem_orphans, Finset.mem_insert, mem_orphaned_records]
  grind

theorem dropped_orphaned (hi : orphanInodesIno < ino) : (c.orphaned ino).dropped ino = c.dropped ino := by
  ext x
  case free =>
    simp only [mem_dropped_free, mem_orphaned_records]
    grind [orphaned]
  case records =>
    simp only [mem_dropped_records, mem_orphaned_records]
    grind
  case numbers => rfl

-- An inode without records has only its number.
theorem dropped_of_recordsOf (h : c.recordsOf ino = ∅) (ho : ino ∉ c.orphans) :
    c.dropped ino = { c with numbers := c.numbers.erase ino } := by
  have hi (q) (hq : q ∈ c.records) : q.key.objectId ≠ ino := by
    intro he
    have := mem_recordsOf.mpr ⟨hq, he⟩
    simp [h] at this
  have hk (q) (hq : q ∈ c.records) : q.key ≠ ⟨orphanInodesIno, ino⟩ :=
    fun hk => ho (mem_orphans.mpr ⟨q, hq, hk⟩)
  ext x
  case free    => simp [dropped, blocksOf, h]
  case records =>
    simp only [dropped, Finset.mem_filter]
    grind
  case numbers => rfl

theorem Recoverable.released (h : c.Recoverable bytes pages)
    (ho : c.Owns ino fork bytes pages) : (c.released fork).Recoverable bytes pages where
  low            := h.low
  keys           := h.keys
  extents        := h.extents
  used q hq hx   := Finset.disjoint_union_right.mpr ⟨ho.apart q hq hx, h.used q hq hx⟩
  disjoint       := h.disjoint
  orphans        := h.orphans

theorem Recoverable.orphaned (h : c.Recoverable bytes pages) (hi : orphanInodesIno < ino)
    (hw : ino ≠ iblockDoesNotMatter) (hn : ino ∈ c.numbers) (ho : ino ∉ c.orphans) :
    (c.orphaned ino).Recoverable bytes pages := by
  have hx {q} (hq : q ∈ (c.orphaned ino).records) (hx : q.IsExtent) : q ∈ c.records := by
    refine (mem_orphaned_records.mp hq).resolve_left fun he => ?_
    subst he
    exact Nat.lt_irrefl _ hx
  have hk {q} (hq : q ∈ c.records) : q.key ≠ ⟨orphanInodesIno, ino⟩ :=
    fun hk => ho (mem_orphans.mpr ⟨q, hq, hk⟩)
  constructor
  case low =>
    obtain ⟨q, hq, hl⟩ := h.low
    exact ⟨q, mem_orphaned_records.mpr (.inr hq), hl⟩
  case keys =>
    intro q hq p hp he
    cases mem_orphaned_records.mp hq <;> cases mem_orphaned_records.mp hp
    case inl.inl hq hp => rw [hq, hp]
    case inl.inr hq hp => exact absurd (he.symm.trans (by rw [hq])) (hk hp)
    case inr.inl hq hp => exact absurd (he.trans (by rw [hp])) (hk hq)
    case inr.inr hq hp => exact h.keys q hq p hp he
  case extents  => exact fun q hq hqx => h.extents q (hx hq hqx) hqx
  case used     => exact fun q hq hqx => h.used q (hx hq hqx) hqx
  case disjoint => exact fun q hq p hp hqx hpx => h.disjoint q (hx hq hqx) p (hx hp hpx) hqx hpx
  case orphans  =>
    intro n hn'
    rw [orphans_orphaned] at hn'
    cases Finset.mem_insert.mp hn'
    case inl he  => subst he; exact ⟨hi, hw, hn⟩
    case inr hn' => exact h.orphans n hn'

theorem Recoverable.number (h : c.Recoverable bytes pages) (ho : ino ∉ c.orphans) :
    Recoverable { c with numbers := c.numbers.erase ino } bytes pages where
  low          := h.low
  keys         := h.keys
  extents      := h.extents
  used         := h.used
  disjoint     := h.disjoint
  orphans n hn := by
    obtain ⟨h₁, h₂, h₃⟩ := h.orphans n hn
    exact ⟨h₁, h₂, Finset.mem_erase.mpr ⟨fun he => ho (he ▸ hn), h₃⟩⟩

-- The blocks of a file that the fork does not account for are those of its records.
theorem Recoverable.sum_eq_zero (h : c.Recoverable bytes pages) (hi : orphanInodesIno < ino)
    (hs : (c.recordsOf ino).sum ExttreeRecord.blockCount = 0) : c.recordsOf ino = ∅ := by
  refine Finset.eq_empty_of_forall_notMem fun r hr => ?_
  obtain ⟨hrc, hri⟩ := mem_recordsOf.mp hr
  have hx : r.IsExtent := by rw [ExttreeRecord.IsExtent, hri]; exact hi
  obtain ⟨_, e, he, hw⟩ := h.extents r hrc hx
  have hz := Finset.sum_eq_zero_iff.mp hs r hr
  rw [ExttreeRecord.blockCount, he] at hz
  exact Nat.ne_of_gt hw.count_pos hz

end File

end Contents

end Emmcfs
