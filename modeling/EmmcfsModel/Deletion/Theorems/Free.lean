import EmmcfsModel.Deletion.Theorems.Contents

namespace Emmcfs.Deletion

open Code Contents

section Rules

variable {s : Deletion τ} {Q : α → Deletion τ → Prop} {E : Errno → Deletion τ → Prop} {H : Prop}

def stopped (s : Deletion τ) : Deletion τ :=
  { s with boundaries := s.volume :: s.boundaries }

theorem wp_onFsm {m : Driver FsmInfo α} : wp (onFsm m) Q E H s ↔
    wp m (fun a fsm => Q a { s with volume.fsm := fsm })
      (fun e fsm => E e { s with volume.fsm := fsm }) H s.volume.fsm :=
  wp_zoom

theorem wp_onExttree {m : Driver τ α} : wp (onExttree m) Q E H s ↔
    wp m (fun a t => Q a { s with volume.exttree := t })
      (fun e t => E e { s with volume.exttree := t }) H s.volume.exttree :=
  wp_zoom

theorem wp_transaction {m : DeletionCode τ α} : wp (transaction m) Q E H s ↔
    wp m (fun a s' => Q a s'.stopped) (fun e s' => E e s'.stopped) H s := by
  simp only [transaction, stopTransaction, wp_onFail, wp_bind]
  rfl

end Rules

variable {ops : ExttreeOps τ} {valid : τ → Prop} {view : τ → Finset ExttreeRecord}
  {s : Deletion τ} {c d : Contents} {r : ExttreeRecord} {e : ExtentInfo}

-- The boundary that a transaction ends with.
theorem At.stopped (h : s.At valid view bytes pages c d) (hr : c.Recoverable bytes pages)
    (hc : c.cleared = d) : s.stopped.At valid view bytes pages c d where
  volume         := h.volume
  boundaries b hb := by
    cases hb
    case head      => exact ⟨c, h.volume, hr, hc⟩
    case tail hb   => exact h.boundaries b hb

section Parts

theorem wp_freeExtent (hb : 8 * bytes < 2 ^ 32) (h : s.At valid view bytes pages c d)
    (he : e.Within bytes pages) (hd : Disjoint e.blocks c.free) :
    wp (onFsm (fsmFreeBlockChunk e.firstBlock e.blockCount))
      (fun _ s' => s'.At valid view bytes pages { c with free := e.blocks ∪ c.free } d)
      (fun _ _ => False) False s := by
  obtain ⟨hm, hz, hbytes, hpages, hv, hr, hn⟩ := h.volume
  have ha : s.volume.fsm.Allocated e.firstBlock e.blockCount := {
    offset_pos := he.first_pos
    length_pos := he.count_pos
    inside     := hbytes ▸ he.inside
    used x hx hx' := by
      have hf := Finset.disjoint_left.mp hd (Finset.mem_Ico.mpr ⟨hx, hx'⟩)
      rw [hm.bits, mem_clearBits, hbytes] at hf
      have := he.inside
      simpa using not_and.mp hf (by omega) }
  have hsm : s.volume.fsm.Small := ⟨by omega, hz⟩
  have hlong : ¬2 ^ 32 ≤ 8 * s.volume.fsm.lengthInBytes := by omega
  have hoff : ¬s.volume.fsm.OffPages e.firstBlock e.blockCount := by
    have hp := he.page
    simp only [FsmInfo.OffPages, hpages, Nat.shiftRight_eq_div_pow] at hp ⊢
    have := Nat.div_le_div_right (c := 2 ^ (pageCacheShift + 3))
      (Nat.le_add_right e.firstBlock e.blockCount)
    omega
  refine wp_onFsm.mpr (wp_mono (fsmFreeBlockChunk_spec hm hsm ha) ?_ (fun _ _ => hlong)
    fun hh => hh.elim hoff hlong)
  rintro _ fsm' ⟨hm', hsm', hsize⟩
  exact ⟨⟨hm', hsm'.zero, hsize.bytes.trans hbytes, hsize.pages.trans hpages, hv, hr, hn⟩,
    h.boundaries⟩

theorem wp_find (hs : ops.Serves valid view) (h : s.At valid view bytes pages c d)
    (hne : c.records.Nonempty) :
    wp (onExttree (ops.find key)) (fun r s' => s' = s ∧ r ∈ c.records ∧
      ((∃ q ∈ c.records, exttreeCmpfn q.key key = 0) → exttreeCmpfn r.key key = 0))
      (fun _ _ => False) False s := by
  have hv := h.volume
  refine wp_onExttree.mpr (wp_imp (hs.find hv.valid (hv.records ▸ hne)) ?_)
  rintro r t ⟨ht, hr, hk⟩
  rw [hv.records] at hr hk
  exact ⟨by rw [ht], hr, hk⟩

theorem wp_remove (hs : ops.Serves valid view) (h : s.At valid view bytes pages c d)
    (hr : r ∈ c.records) (hk : ∀ q ∈ c.records, exttreeCmpfn q.key key = 0 ↔ q = r)
    (ho : ∃ q ∈ c.records, q ≠ r) :
    wp (onExttree (ops.remove key))
      (fun _ s' => s'.At valid view bytes pages { c with records := c.records.erase r } d)
      (fun _ _ => False) False s := by
  obtain ⟨hm, hz, hbytes, hpages, hv, hc, hn⟩ := h.volume
  rw [← hc] at hr hk ho
  refine wp_onExttree.mpr (wp_imp (hs.remove hv hr hk ho) ?_)
  rintro _ t ⟨hv', ht⟩
  exact ⟨⟨hm, hz, hbytes, hpages, hv', by rw [ht, hc], hn⟩, h.boundaries⟩

theorem wp_insert (hs : ops.Serves valid view) (h : s.At valid view bytes pages c d)
    (hl : ∃ q ∈ c.records, exttreeCmpfn q.key r.key < 0)
    (hk : ∀ q ∈ c.records, exttreeCmpfn q.key r.key ≠ 0) :
    wp (onExttree (ops.insert r))
      (fun _ s' => s'.At valid view bytes pages { c with records := insert r c.records } d)
      (fun _ _ => False) False s := by
  obtain ⟨hm, hz, hbytes, hpages, hv, hc, hn⟩ := h.volume
  rw [← hc] at hl hk
  refine wp_onExttree.mpr (wp_imp (hs.insert hv hl hk) ?_)
  rintro _ t ⟨hv', ht⟩
  exact ⟨⟨hm, hz, hbytes, hpages, hv', by rw [ht, hc], hn⟩, h.boundaries⟩

theorem wp_freeInodeN (h : s.At valid view bytes pages c d) (hi : ino ∈ c.numbers) :
    wp (freeInodeN ino)
      (fun _ s' => s'.At valid view bytes pages { c with numbers := c.numbers.erase ino } d)
      (fun _ _ => False) False s := by
  obtain ⟨hm, hz, hbytes, hpages, hv, hc, hn⟩ := h.volume
  simp only [freeInodeN, wp_bind, wp_get, wp_haltOn, wp_modify]
  exact ⟨fun hni => hni (hn ▸ hi),
    fun _ => ⟨⟨hm, hz, hbytes, hpages, hv, hc, by rw [hn]⟩, h.boundaries⟩⟩

end Parts

section Exttree

variable (hs : ops.Serves valid view) (hb : 8 * bytes < 2 ^ 32)

include hs hb

-- A round frees one of the extents of an orphan, or drops the orphan when it has none.
theorem freeExttreeRound_spec (h : s.At valid view bytes pages c d)
    (hr : c.Recoverable bytes pages) (hc : c.cleared = d) (ho : ino ∈ c.orphans) :
    wp (freeExttreeRound ops ino) (fun r s' => r.elim
      (∃ q ∈ c.recordsOf ino, s'.At valid view bytes pages (c.freed q) d)
      fun _ => s'.At valid view bytes pages (c.dropped ino) d) (fun _ _ => False) False s := by
  obtain ⟨hi, hw, hn⟩ := hr.orphans ino ho
  obtain ⟨low, hlow, hlt⟩ := hr.low
  refine wp_transaction.mpr (wp_bind.mpr (wp_imp (wp_find hs h ⟨low, hlow⟩) ?_))
  rintro r s' ⟨he, hrec, hm⟩
  subst he
  simp only [exttreeCmpfn_wildcard] at hm
  refine wp_ite.mpr ⟨fun hne => ?_, fun heq => ?_⟩
  case refine_1 =>
    have hnone : c.recordsOf ino = ∅ := by
      refine Finset.eq_empty_of_forall_notMem fun q hq => hne ?_
      have hq := mem_recordsOf.mp hq
      exact hm ⟨q, hq⟩
    obtain ⟨o, hoc, hok⟩ := mem_orphans.mp ho
    have hkey (q) (hq : q ∈ c.records) : q.key = ⟨orphanInodesIno, ino⟩ ↔ q = o :=
      ⟨fun hk => hr.keys q hq o hoc (hk.trans hok.symm), fun he => he ▸ hok⟩
    have hlo : low ≠ o := fun he => by simp [he, hok] at hlt
    refine wp_bind.mpr (wp_imp (wp_remove hs h hoc (fun q hq =>
      (exttreeCmpfn_eq_zero hw).trans (hkey q hq)) ⟨low, hlow, hlo⟩) ?_)
    intro _ s₁ h₁
    refine wp_bind.mpr (wp_imp (wp_freeInodeN h₁ hn) ?_)
    intro _ s₂ h₂
    rw [← dropped_of_orphan hnone hkey] at h₂
    have h₀ : orphanInodesIno ∉ c.orphans := fun hm => Nat.lt_irrefl _ (hr.orphans _ hm).1
    exact h₂.stopped (hr.dropped ho) ((cleared_dropped ho h₀).trans hc)
  case refine_2 =>
    have heq := not_not.mp heq
    have hx : r.IsExtent := by rw [ExttreeRecord.IsExtent, heq]; exact hi
    obtain ⟨hib, e, hle, hwithin⟩ := hr.extents r hrec hx
    have hblocks : r.blocks = e.blocks := by rw [ExttreeRecord.blocks, hle]; rfl
    have hkey (q) (hq : q ∈ c.records) : q.key = ⟨ino, r.key.iblock⟩ ↔ q = r := by
      rw [← heq]
      exact ⟨hr.keys q hq r hrec, congrArg _⟩
    have hlr : low ≠ r := fun he => by
      subst he
      exact Nat.lt_asymm hx hlt
    rw [hle]
    refine wp_bind.mpr (wp_imp (wp_remove hs h hrec (fun q hq =>
      (exttreeCmpfn_eq_zero hib).trans (hkey q hq)) ⟨low, hlow, hlr⟩) ?_)
    intro _ s₁ h₁
    refine wp_bind.mpr (wp_imp (wp_freeExtent hb h₁ hwithin (hblocks ▸ hr.used r hrec hx)) ?_)
    intro _ s₂ h₂
    rw [← hblocks] at h₂
    exact ⟨r, mem_recordsOf.mpr ⟨hrec, heq⟩,
      h₂.stopped (hr.freed hrec hx) ((cleared_freed hrec hx (heq ▸ ho)).trans hc)⟩

-- The loop ends after as many rounds as the orphan has extents, and one more.
theorem fsmFreeExttree_spec (h : s.At valid view bytes pages c d)
    (hr : c.Recoverable bytes pages) (hc : c.cleared = d) (ho : ino ∈ c.orphans)
    (hn : (c.recordsOf ino).card < rounds) :
    wp (fsmFreeExttree ops rounds ino)
      (fun _ s' => s'.At valid view bytes pages (c.dropped ino) d) (fun _ _ => False) False s := by
  induction rounds generalizing s c
  case zero => exact absurd hn (Nat.not_lt_zero _)
  case succ rounds ih =>
    refine wp_bind.mpr (wp_imp (freeExttreeRound_spec hs hb h hr hc ho) ?_)
    intro r s' hs'
    cases r
    case some => exact hs'
    case none =>
      obtain ⟨q, hq, h'⟩ := hs'
      obtain ⟨hqc, hqi⟩ := mem_recordsOf.mp hq
      have hx : q.IsExtent := by rw [ExttreeRecord.IsExtent, hqi]; exact (hr.orphans ino ho).1
      rw [← dropped_freed hqc hqi]
      refine ih h' (hr.freed hqc hx) ((cleared_freed hqc hx (hqi ▸ ho)).trans hc)
        (by rwa [orphans_freed hx]) ?_
      rw [recordsOf_freed, Finset.card_erase_of_mem hq]
      have := Finset.card_pos.mpr ⟨q, hq⟩
      omega

-- So does the loop over the orphans.
theorem processOrphanInodes_spec (h : s.At valid view bytes pages c d)
    (hr : c.Recoverable bytes pages) (hc : c.cleared = d) (hn : c.orphans.card < n)
    (hrounds : c.records.card < rounds) :
    wp (loop (processOrphanRound ops rounds) n) (fun _ s' => s'.At valid view bytes pages d d)
      (fun _ _ => False) False s := by
  induction n generalizing s c
  case zero => exact absurd hn (Nat.not_lt_zero _)
  case succ n ih =>
    obtain ⟨low, hlow, _⟩ := hr.low
    refine wp_bind.mpr (wp_bind.mpr (wp_imp (wp_find hs h ⟨low, hlow⟩) ?_))
    rintro r s' ⟨he, hrec, hm⟩
    subst he
    simp only [exttreeCmpfn_wildcard] at hm
    refine wp_ite.mpr ⟨fun hne => ?_, fun heq => ?_⟩
    case refine_1 =>
      have hnone : c.orphans = ∅ := by
        refine Finset.eq_empty_of_forall_notMem fun i hi => hne ?_
        obtain ⟨q, hq, hk⟩ := mem_orphans.mp hi
        exact hm ⟨q, hq, by rw [hk]⟩
      rw [cleared_of_orphans hnone] at hc
      exact hc ▸ h
    case refine_2 =>
      have heq := not_not.mp heq
      have ho : r.key.iblock ∈ c.orphans := mem_orphans.mpr ⟨r, hrec, by rw [← heq]⟩
      have hcard := Finset.card_le_card (Finset.filter_subset (·.key.objectId = r.key.iblock) c.records)
      refine wp_bind.mpr (wp_imp (fsmFreeExttree_spec hs hb h hr hc ho
        (Nat.lt_of_le_of_lt hcard hrounds)) ?_)
      intro _ s₁ h₁
      have h₀ : orphanInodesIno ∉ c.orphans := fun hm => Nat.lt_irrefl _ (hr.orphans _ hm).1
      refine ih h₁ (hr.dropped ho) ((cleared_dropped ho h₀).trans hc) ?_
        (Nat.lt_of_le_of_lt (Finset.card_le_card (Finset.filter_subset _ _)) hrounds)
      rw [orphans_dropped fun he => h₀ (he ▸ ho), Finset.card_erase_of_mem ho]
      have := Finset.card_pos.mpr ⟨_, ho⟩
      omega

end Exttree

end Emmcfs.Deletion
