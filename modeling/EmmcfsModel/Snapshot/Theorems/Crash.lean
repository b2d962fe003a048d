import Mathlib.Data.List.Pairwise
import EmmcfsModel.Lib.Run
import EmmcfsModel.Snapshot.Theorems.Slots
import EmmcfsModel.Snapshot.Theorems.Commit

namespace Emmcfs

open Store

namespace Round

variable {vol : Volume} {c : Round vol} {d d' m : Store} {exsb : List Byte}

section Crash

variable (c)

theorem idle_start : c.Idle c.exsb₀ c.disk c.disk where
  none   := c.no_snapshot
  first  := c.first
  length := c.exsb₀_ok.left
  valid  := c.exsb₀_ok.right
  copy   := ⟨c.exsb₀, c.second, c.exsb₀_ok⟩
  eqOn   := Set.eqOn_refl ..

theorem slots_subset_sdiff : c.slots ⊆ vol.areaBytes \ vol.headBytes :=
  fun _ ha => ⟨c.slots_subset ha, Set.disjoint_left.mp c.slots_head ha⟩

theorem idle_bodies (h : ∀ w ∈ ws, w ∈ c.bodies) :
    c.Idle c.exsb₀ c.disk (applyAll ws c.disk) :=
  c.idle_start.applyAll fun w hw => (c.span_bodies (h w hw)).trans c.slots_subset_sdiff

theorem idle_commit (n : Nat) : c.Idle c.exsb c.disk
    (applyAll ((c.firstSuper ++ [c.history]).take (n + 1)) (applyAll c.bodies c.disk)) := by
  have hb := c.idle_bodies fun _ => id
  have hh : ∀ n, ∀ w ∈ [c.history].take n, w.span ⊆ vol.areaBytes \ vol.headBytes := by
    intro n w hw
    rw [List.mem_singleton.mp (List.mem_of_mem_take hw)]
    exact c.span_history
  rw [firstSuper]
  split
  case isTrue =>
    rw [List.singleton_append, List.take_succ_cons, applyAll_cons]
    exact hb.apply_exsb.applyAll (hh n)
  case isFalse hd =>
    rw [← c.pending (Bool.eq_false_iff.mpr hd)] at hb
    exact hb.applyAll (hh (n + 1))

-- The slots are apart, so that each keeps its pages.
theorem saved_bodies (ht : t ∈ c.root) (hi : i < pageCacheSize * t.pagesCount) :
    applyAll c.bodies c.disk (t.onSnapshot * sectorSize + i) =
      c.disk (t.onVolume * sectorSize + i) := by
  have hslot : t.onSnapshot * sectorSize + i ∈ t.slot := Set.mem_Ico.mpr (by omega)
  refine applyAll_eq (fun w hw j b hj hb => ?_) (.inr ?_)
  · obtain ⟨u, hu, hw⟩ := List.mem_flatMap.mp hw
    obtain ⟨k, hk, rfl⟩ := mem_pageWrites_readPages.mp hw
    dsimp only at hj hb
    have hj' := (List.getElem?_eq_some_iff.mp hb).choose
    rw [length_readAt] at hj'
    by_cases he : u = t
    case pos =>
      subst he
      rw [← hasAt_readAt j b hb]
      exact congrArg c.disk (by omega)
    case neg =>
      have : Std.Symm fun t u : TransactionData => Disjoint t.sectors u.sectors :=
        ⟨fun _ _ h => h.symm⟩
      have hd := c.slots_clear.disjoint.forall (c.added_perm.mem_iff.mp hu) ht he
      refine absurd (t.slot_subset hslot) (Set.disjoint_left.mp (disjoint_bytesOf hd) ?_)
      refine u.slot_subset (Set.mem_Ico.mpr ?_)
      simp only [pageCacheSize] at hj hj' ⊢
      omega
  · refine ⟨_, List.mem_flatMap.mpr ⟨t, c.added_perm.mem_iff.mpr ht,
      mem_pageWrites_readPages.mpr ⟨i / pageCacheSize, Nat.div_lt_of_lt_mul hi, rfl⟩⟩, ?_⟩
    have := Nat.div_add_mod i pageCacheSize
    have := Nat.mod_lt i (show 0 < pageCacheSize by decide)
    simp only [Write.span, length_readAt, Set.mem_Ico]
    omega

theorem span_firstSuper (h : w ∈ c.firstSuper) : w.span = Volume.exsbBytes := by
  rw [firstSuper] at h
  split at h
  case isTrue  => rw [List.mem_singleton.mp h, span_exsb c.exsb_ok.left]
  case isFalse => simp at h

theorem commit_eq (hne : c.root ≠ []) :
    c.commit = c.firstSuper ++ [c.history] ++ c.head := by
  have h0 : c.info.transactionsCount ≠ 0 := by
    rw [c.count_eq]
    exact mt List.eq_nil_of_length_eq_zero hne
  rw [commit, Volume.commitSnapshot, if_neg h0]
  rfl

-- Until the metadata is written, neither it nor the second superblock is touched.
theorem eqOn_commit (hne : c.root ≠ []) :
    Set.EqOn (applyAll (c.bodies ++ c.commit) c.disk) c.disk (vol.exsbCopyBytes ∪ c.home) := by
  have hspan : ∀ w ∈ c.bodies ++ c.commit, w.span ⊆ vol.areaBytes ∪ Volume.exsbBytes := by
    intro w hw
    rw [c.commit_eq hne] at hw
    simp only [List.mem_append, List.mem_singleton] at hw
    rcases hw with hw | (hw | rfl) | hw
    · exact (c.span_bodies hw).trans (c.slots_subset.trans (Set.subset_union_left ..))
    · exact (c.span_firstSuper hw).le.trans (Set.subset_union_right ..)
    · exact fun a ha => .inl (c.span_history ha).left
    · exact fun a ha => .inl (Volume.headBytes_subset c.room (c.span_head hw ha))
  refine eqOn_applyAll fun w hw => Disjoint.mono_left (hspan w hw) ?_
  exact Disjoint.union_right c.copy_apart.symm
    (c.home_disjoint.mono_right (Set.subset_union_left ..)).symm

theorem logged_commit (hne : c.root ≠ []) :
    c.Logged (applyAll (c.bodies ++ c.commit) c.disk) := by
  have hcopy := (c.eqOn_commit hne).mono (Set.subset_union_left ..)
  have hidle := c.idle_commit (c.firstSuper ++ [c.history]).length
  rw [List.take_of_length_le (Nat.le_succ _)] at hidle
  have hslots : Set.EqOn (applyAll c.commit (applyAll c.bodies c.disk))
      (applyAll c.bodies c.disk) c.slots := by
    refine eqOn_applyAll fun w hw => ?_
    rw [c.commit_eq hne] at hw
    simp only [List.mem_append, List.mem_singleton] at hw
    rcases hw with (hw | rfl) | hw
    · rw [c.span_firstSuper hw]
      exact c.exsb_apart.mono_right c.slots_subset
    · exact c.slots_history.symm
    · exact (c.slots_head.mono_right (c.span_head hw)).symm
  have hhead : Set.EqOn (applyAll (c.bodies ++ c.commit) c.disk) (applyAll
      (c.firstSuper ++ [c.history]) (applyAll c.bodies c.disk)) Volume.exsbBytes := by
    rw [c.commit_eq hne, applyAll_append, applyAll_append]
    refine eqOn_applyAll fun w hw => ?_
    exact (c.exsb_apart.mono_right
      ((c.span_head hw).trans (Volume.headBytes_subset c.room))).symm
  exact {
    head  := by
      rw [c.commit_eq hne, applyAll_append, applyAll_append]
      exact hasAt_toPages c.length_head_le
    saved := fun t ht i hi => by
      rw [applyAll_append, hslots ⟨t, ht, Set.mem_Ico.mpr (by omega)⟩]
      exact c.saved_bodies ht hi
    first := hidle.first.congr (by rw [c.exsb_ok.left]; exact hhead)
    copy  := c.second.congr (by rw [c.exsb₀_ok.left]; exact hcopy) }

-- Behind how many writes the head begins, the head is complete and the clearing begins.
def headBegin : Nat := (c.bodies ++ c.firstSuper ++ [c.history]).length

def headEnd : Nat := (c.bodies ++ c.commit).length

def clearBegin : Nat := (c.bodies ++ c.commit ++ c.metadata).length

-- A crash in the middle of the head's pages.
def TornHead (k : Nat) : Prop := c.headBegin < k ∧ k < c.headEnd

instance : Decidable (c.TornHead k) :=
  inferInstanceAs (Decidable (_ ∧ _))

theorem crash_of_append (hw : c.writes = ws ++ (vs ++ us)) (hl : ws.length ≤ k)
    (hr : k ≤ (ws ++ vs).length) :
    c.crash k = applyAll (vs.take (k - ws.length)) (applyAll ws c.disk) := by
  rw [List.length_append] at hr
  rw [crash, hw, List.take_append, List.take_of_length_le hl, applyAll_append, List.take_append,
    show k - ws.length - vs.length = 0 by omega, List.take_zero, List.append_nil]

theorem idle_crash_bodies (hk : k ≤ c.bodies.length) : c.Idle c.exsb₀ c.disk (c.crash k) := by
  have hw : c.writes =
      [] ++ (c.bodies ++ (c.commit ++ (c.metadata ++ vol.clearSnapshot c.exsb c.dirty))) := by
    simp only [writes, List.append_assoc, List.nil_append]
  rw [c.crash_of_append hw (Nat.zero_le _) hk]
  exact c.idle_bodies fun w h => List.mem_of_mem_take h

theorem idle_crash_commit (hne : c.root ≠ []) (hl : c.bodies.length < k) (hr : k ≤ c.headBegin) :
    c.Idle c.exsb c.disk (c.crash k) := by
  have hw : c.writes = c.bodies ++ ((c.firstSuper ++ [c.history]) ++
      (c.head ++ (c.metadata ++ vol.clearSnapshot c.exsb c.dirty))) := by
    simp only [writes, c.commit_eq hne, List.append_assoc]
  rw [headBegin, List.append_assoc] at hr
  have hn : k - c.bodies.length = k - c.bodies.length - 1 + 1 := by omega
  rw [c.crash_of_append hw hl.le hr, hn]
  exact c.idle_commit _

theorem logged_crash (hne : c.root ≠ []) (hl : c.headEnd ≤ k) (hr : k ≤ c.clearBegin) :
    c.Logged (c.crash k) := by
  have hw : c.writes =
      (c.bodies ++ c.commit) ++ (c.metadata ++ vol.clearSnapshot c.exsb c.dirty) := by
    simp only [writes, List.append_assoc]
  rw [c.crash_of_append hw hl hr]
  exact (c.logged_commit hne).applyAll fun w h => c.span_metadata (List.mem_of_mem_take h)

theorem idle_clearing {c : Round vol} (n : Nat)
    (h : c.Idle exsb m (Write.apply ⟨vol.headAddr, List.replicate sectorSize 0#8⟩ d)) :
    c.Idle exsb m (applyAll ((vol.clearSnapshot c.exsb c.dirty).take (n + 1)) d) := by
  rw [Volume.clearSnapshot, List.take_succ_cons, applyAll_cons]
  split
  case isFalse => rwa [List.take_nil, applyAll_nil]
  case isTrue  =>
    cases n
    case zero   => rwa [List.take_zero, applyAll_nil]
    case succ n =>
      rw [List.take_succ_cons, List.take_nil, applyAll_cons, applyAll_nil]
      exact h.apply_exsbCopy

theorem idle_crash_clear (hne : c.root ≠ []) (hl : c.clearBegin < k) :
    c.Idle c.exsb c.after (c.crash k) := by
  have hlog := (c.logged_commit hne).applyAll fun w h => c.span_metadata h
  have heq : Set.EqOn (applyAll c.metadata (applyAll (c.bodies ++ c.commit) c.disk)) c.after
      c.home := eqOn_applyAll_congr ((c.eqOn_commit hne).mono (Set.subset_union_right ..))
  rw [crash, writes, List.take_append, List.take_of_length_le hl.le, applyAll_append,
    ← clearBegin, show k - c.clearBegin = k - c.clearBegin - 1 + 1 by omega]
  refine idle_clearing _ ?_
  rw [applyAll_append]
  exact hlog.clear heq

-- Without transactions there is only the clearing, and nothing that could be mixed.
theorem idle_crash_empty (h : c.root = []) : c.Idle c.exsb₀ c.disk (c.crash k) := by
  have hadded : c.added = [] := List.Perm.eq_nil (h ▸ c.added_perm)
  have hmeta : c.metadata = [] := List.eq_nil_iff_forall_not_mem.mpr fun w hw => by
    obtain ⟨t, ht, _⟩ := c.metadata_in w hw
    rw [← root, h] at ht
    exact List.not_mem_nil ht
  have hcount : c.info.transactionsCount = 0 := by
    rw [c.count_eq, ← root, h, List.length_nil]
  have hw : c.writes = vol.clearSnapshot c.exsb c.dirty := by
    rw [writes, bodies, hadded, commit, Volume.commitSnapshot, if_pos hcount, hmeta]
    rfl
  rw [crash, hw]
  cases k
  case zero   => exact c.idle_start
  case succ k => exact idle_clearing k (idle_clear c.first c.exsb₀_ok c.second (Set.eqOn_refl ..))

end Crash

section Recovery

theorem Idle.mounted (h : c.Idle exsb m d) (hi : vol.Interrupted d k d') : d' = d := by
  obtain ⟨ws, e, hm, rfl⟩ := hi
  rw [h.mount_eq] at hm
  cases hm
  rw [List.take_nil, applyAll_nil]

theorem Idle.recovers_iff_consistent (h : c.Idle exsb m d) : c.Recovers d ↔ c.Consistent d exsb := by
  constructor
  case mp =>
    rintro ⟨ws, e, hm, hc⟩
    rw [h.mount_eq] at hm
    cases hm
    rwa [applyAll_nil] at hc
  case mpr =>
    intro hc
    exact ⟨[], exsb, h.mount_eq, hc⟩

theorem Consistent.congr (h : c.Consistent d exsb) (he : Set.EqOn d' d c.home) :
    c.Consistent d' exsb :=
  h.imp (fun h => ⟨he.trans h.left, h.right⟩) fun h => ⟨he.trans h.left, h.right⟩

-- Old metadata beside the new superblock.
theorem consistent_mixed_iff :
    c.Consistent c.disk c.exsb ↔ c.exsb = c.exsb₀ ∨ Set.EqOn c.after c.disk c.home := by
  have hr : Set.EqOn c.disk c.disk c.home := Set.eqOn_refl ..
  simp only [Consistent, hr, true_and, and_true]
  exact or_congr_right ⟨Set.EqOn.symm, Set.EqOn.symm⟩

theorem Logged.recovers (hrep : 16 + sizeofTransaction * c.root.length < 2 ^ 16)
    (h : c.Logged d) : c.Recovers d :=
  ⟨_, _, h.mount_eq hrep, .inl ⟨h.restored.eqOn, rfl⟩⟩

-- A volume without a snapshot stays as it is.
theorem Idle.run (h : c.Idle exsb m d) (hc : c.Consistent d exsb)
    (hr : Run vol.Interrupted d ks d') : c.Recovers d' := by
  have hstep : ∀ d₁ k d₂, d₁ = d → vol.Interrupted d₁ k d₂ → d₂ = d :=
    fun _ _ _ he hs => h.mounted (he ▸ hs)
  rw [hr.invariant hstep rfl]
  exact h.recovers_iff_consistent.mpr hc

-- Behind a recovery the old metadata stand beside the new superblock.
theorem Logged.run (hrep : 16 + sizeofTransaction * c.root.length < 2 ^ 16) (h : c.Logged d)
    (hmix : c.Consistent c.disk c.exsb) (hr : Run vol.Interrupted d ks d') : c.Recovers d' := by
  have hstep : ∀ d₁ k d₂, c.Logged d₁ ∨ c.Idle c.exsb c.disk d₁ → vol.Interrupted d₁ k d₂ →
      c.Logged d₂ ∨ c.Idle c.exsb c.disk d₂ := by
    intro d₁ k d₂ h hs
    cases h
    case inl h => exact h.mounted hrep hs
    case inr h => exact .inr (h.mounted hs ▸ h)
  cases hr.invariant hstep (.inl h)
  case inl h => exact h.recovers hrep
  case inr h => exact h.recovers_iff_consistent.mpr (hmix.congr h.eqOn)

theorem Logged.mixed (hrep : 16 + sizeofTransaction * c.root.length < 2 ^ 16) (h : c.Logged d) :
    ∃ ks d', Run vol.Interrupted d ks d' ∧ c.Idle c.exsb c.disk d' := by
  have hm := h.mount_eq hrep
  refine ⟨[(Volume.restoreTransactions d c.root ++ vol.clearSnapshot [] false).length], _,
    .cons ⟨_, _, hm, rfl⟩ .nil, ?_⟩
  rw [List.take_length]
  exact h.restored

-- Between the first write of the commit and the end of the metadata's writes, there are mounts that
-- come to use the new superblock with the old metadata.
theorem reaches_mixed (hrep : 16 + sizeofTransaction * c.root.length < 2 ^ 16)
    (ht : ¬c.TornHead k) (hne : c.root ≠ []) (hl : c.bodies.length < k) (hr : k ≤ c.clearBegin) :
    ∃ ks d, Run vol.Interrupted (c.crash k) ks d ∧ c.Idle c.exsb c.disk d := by
  by_cases hk : k ≤ c.headBegin
  case pos => exact ⟨[], _, .nil, c.idle_crash_commit hne hl hk⟩
  case neg =>
    have he : c.headEnd ≤ k := Nat.not_lt.mp fun h => ht ⟨Nat.not_le.mp hk, h⟩
    exact (c.logged_crash hne he hr).mixed hrep

theorem home_eq_empty (h : c.root = []) : c.home = ∅ := by
  simp [home, h]

end Recovery

section Pending

-- A volume of 1000 sectors whose snapshot has eight pages from block 1 on.
def pageVolume : Volume where
  area      := .ofPages 1 8 (by decide)
  page_size := rfl
  sectors   := 1000
  crc32     := fun _ => 0#32

theorem mem_areaBytes_pageVolume : a ∈ pageVolume.areaBytes ↔ 4096 ≤ a ∧ a < 36864 := by
  have hs : pageVolume.area.sectors = Set.Ico 8 72 := pageVolume.area_sectors
  simp only [Volume.areaBytes, hs, bytesOf, sectorSize, Set.mem_ofPred_eq, Set.mem_Ico]
  omega

theorem mem_exsbBytes : a ∈ Volume.exsbBytes ↔ 1536 ≤ a ∧ a < 4096 := Set.mem_Ico

theorem mem_exsbCopyBytes_pageVolume : a ∈ pageVolume.exsbCopyBytes ↔ 508416 ≤ a ∧ a < 510976 :=
  Set.mem_Ico

def pageTransaction : TransactionData := ⟨160, 16, 1⟩

theorem mem_home_pageTransaction : a ∈ pageTransaction.home ↔ 81920 ≤ a ∧ a < 86016 := Set.mem_Ico

theorem pageTransaction_slotClear : pageVolume.area.SlotClear pageTransaction :=
  (SnapshotArea.slotClear_iff_of_pageBlocks (k := 1) rfl (by decide) rfl (by decide)).mpr (by decide)

-- A superblock of zeros but for its first byte.
def exsbOf (b : Byte) : List Byte := b :: List.replicate 2559 0#8

theorem exsbOf_ok (hc : vol.crc32 = fun _ => 0#32) :
    (exsbOf b).length = esbSizeInSector * sectorSize ∧ vol.VerifyExsb (exsbOf b) := by
  refine ⟨by rw [exsbOf, List.length_cons, List.length_replicate]; rfl, ?_⟩
  rw [Volume.VerifyExsb, exsbOf, show sizeofExsb - 4 = 2043 + 1 from rfl, List.drop_succ_cons,
    List.drop_replicate, List.take_replicate, hc]
  rfl

theorem hasAt_exsbOf {a : Nat} : HasAt (fun _ => 0#8) a (exsbOf 0#8) := by
  intro i b hb
  rw [exsbOf, ← List.replicate_succ, List.getElem?_replicate] at hb
  split at hb
  case isTrue  => exact Option.some.inj hb
  case isFalse => cases hb

theorem pageVolume_exsb_apart : Disjoint Volume.exsbBytes pageVolume.areaBytes := by
  simp only [Set.disjoint_left, mem_areaBytes_pageVolume, mem_exsbBytes]
  omega

theorem pageVolume_copy_apart :
    Disjoint pageVolume.exsbCopyBytes (pageVolume.areaBytes ∪ Volume.exsbBytes) := by
  simp only [Set.disjoint_left, Set.mem_union, mem_areaBytes_pageVolume, mem_exsbBytes,
    mem_exsbCopyBytes_pageVolume]
  omega

theorem pageTransaction_apart : ∀ t ∈ [pageTransaction],
    Disjoint t.home (pageVolume.areaBytes ∪ Volume.exsbBytes ∪ pageVolume.exsbCopyBytes) := by
  simp only [List.mem_singleton, forall_eq, Set.disjoint_left, mem_home_pageTransaction,
    Set.mem_union, mem_areaBytes_pageVolume, mem_exsbBytes, mem_exsbCopyBytes_pageVolume]
  omega

theorem pageTransaction_covers :
    ∀ w ∈ [(⟨81920, [1#8]⟩ : Write)], ∃ t ∈ [pageTransaction], w.span ⊆ t.home := by
  simp only [List.mem_singleton, forall_eq, exists_eq_left, Set.subset_def,
    mem_home_pageTransaction, Write.span, Set.mem_Ico, List.length_singleton]
  omega

theorem pageVolume_exsb_ok : (exsbOf b).length = esbSizeInSector * sectorSize ∧
    pageVolume.VerifyExsb (exsbOf b) :=
  exsbOf_ok rfl

-- One page is to change while a change of the first byte of the superblock is pending.
def pendingRound : Round pageVolume where
  disk        := fun _ => 0#8
  info        := ⟨1, 6, 1, 2, 0, [pageTransaction]⟩
  added       := [pageTransaction]
  metadata    := [⟨81920, [1#8]⟩]
  mountCount  := 1
  dirty       := true
  exsb₀       := exsbOf 0#8
  exsb        := exsbOf 1#8
  count_eq    := rfl
  added_perm  := .refl _
  fields_lt   := by simp [pageTransaction]
  slots_clear := ⟨List.pairwise_singleton .., by simpa using pageTransaction_slotClear⟩
  room        := by decide
  head_le     := by decide
  home_apart  := pageTransaction_apart
  exsb_apart  := pageVolume_exsb_apart
  copy_apart  := pageVolume_copy_apart
  metadata_in := pageTransaction_covers
  no_snapshot := by decide
  first       := hasAt_exsbOf
  second      := hasAt_exsbOf
  exsb₀_ok    := pageVolume_exsb_ok
  exsb_ok     := pageVolume_exsb_ok
  pending     := by simp

end Pending

end Round

end Emmcfs
