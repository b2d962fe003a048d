import EmmcfsModel.Snapshot.Theorems.Crash

namespace Emmcfs

open Store

-- What happens to a volume: flushes of metadata, which a crash may cut short, and mounts, which may be
-- interrupted.
inductive VolumeEvent
  | flush (metadata : List Write)
  | crash (metadata : List Write)
  | interrupted
  | mounted

-- What the snapshot is for. A flush changes the metadata at once, and after a crash they are the old
-- ones or the new ones, which is settled by the first mount that gets through.
inductive Atomic
  | up (m : Store)
  | down (old new : Store)

inductive Atomic.Step : Atomic → VolumeEvent → Atomic → Prop
  | flush       : Step (.up m) (.flush metadata) (.up (applyAll metadata m))
  | crash       : Step (.up m) (.crash metadata) (.down m (applyAll metadata m))
  | interrupted : Step (.down old new) .interrupted (.down old new)
  | old         : Step (.down old new) .mounted (.up old)
  | new         : Step (.down old new) .mounted (.up new)

inductive Device
  | up (d : Store)
  | down (d : Store)

-- A round with no change of the superblock, whose head has an offset of 16 bits.
def Round.Plain (c : Round vol) : Prop :=
  c.dirty = false ∧ 16 + sizeofTransaction * c.root.length < 2 ^ 16

namespace Volume

inductive Step (vol : Volume) : Device → VolumeEvent → Device → Prop
  | flush {c : Round vol} : c.Plain →
    Step vol (.up c.disk) (.flush c.metadata) (.up (c.crash c.writes.length))
  | crash {c : Round vol} : c.Plain → ¬c.TornHead k →
    Step vol (.up c.disk) (.crash c.metadata) (.down (c.crash k))
  | interrupted : vol.Interrupted d k d' → Step vol (.down d) .interrupted (.down d')
  | mounted : vol.mount d = some (ws, exsb) → Step vol (.down d) .mounted (.up (applyAll ws d))

-- What a round asks of the device before it begins.
structure Ready (vol : Volume) (d : Store) : Prop where
  none : ¬vol.IsSnapshotPresent d
  exsb : ∃ exsb, HasAt d exsbAddr exsb ∧ HasAt d vol.exsbCopyAddr exsb ∧
    exsb.length = esbSizeInSector * sectorSize ∧ vol.VerifyExsb exsb

-- A device that is down shows what the next mount makes of it.
def Shows (vol : Volume) : Device → Atomic → Prop
  | .up d, .up m => vol.Ready d ∧ Set.EqOn d m vol.areaBytesᶜ
  | .down d, .down old new => ∃ ws exsb, vol.mount d = some (ws, exsb) ∧ vol.Ready (applyAll ws d) ∧
    (Set.EqOn (applyAll ws d) old vol.areaBytesᶜ ∨ Set.EqOn (applyAll ws d) new vol.areaBytesᶜ)
  | _, _ => False

end Volume

namespace Round

variable {vol : Volume} {c : Round vol} {d d' m old new : Store} {exsb : List Byte} {ws : List Write}

-- All that a round and the mounts behind it write to.
def reach (c : Round vol) : Set Nat := vol.areaBytes ∪ c.home

-- A device that has gone down in the round `c`.
structure Crashed (c : Round vol) (old new d : Store) : Prop where
  plain : c.Plain
  old   : Set.EqOn c.disk old vol.areaBytesᶜ
  new   : Set.EqOn c.after new vol.areaBytesᶜ
  frame : Set.EqOn d c.disk c.reachᶜ
  state : c.Logged d ∨ c.Idle c.exsb c.disk d ∨ c.Idle c.exsb c.after d

section Frame

variable (c)

theorem span_clearSnapshot (hw : w ∈ vol.clearSnapshot exsb false) : w.span ⊆ c.reach := by
  rw [List.mem_singleton.mp hw, span_clear]
  exact (c.sector_subset.trans (Volume.headBytes_subset c.room)).trans Set.subset_union_left

theorem span_commit (hd : c.dirty = false) (hw : w ∈ c.commit) : w.span ⊆ vol.areaBytes := by
  by_cases h0 : c.info.transactionsCount = 0
  case pos =>
    rw [commit, Volume.commitSnapshot, if_pos h0] at hw
    cases hw
  case neg =>
    rw [c.commit_eq fun he => h0 (by rw [c.count_eq, ← root, he]; rfl), firstSuper, hd] at hw
    rcases List.mem_cons.mp hw with rfl | hw
    · exact fun a ha => (c.span_history ha).left
    · exact (c.span_head hw).trans (Volume.headBytes_subset c.room)

theorem span_writes (hd : c.dirty = false) (hw : w ∈ c.writes) : w.span ⊆ c.reach := by
  simp only [writes, List.mem_append, or_assoc, hd] at hw
  rcases hw with hw | hw | hw | hw
  · exact ((c.span_bodies hw).trans c.slots_subset).trans Set.subset_union_left
  · exact (c.span_commit hd hw).trans Set.subset_union_left
  · exact (c.span_metadata hw).trans Set.subset_union_right
  · exact c.span_clearSnapshot hw

variable {c}

theorem eqOn_reach (h : ∀ w ∈ ws, w.span ⊆ c.reach) : Set.EqOn (applyAll (ws.take k) d) d c.reachᶜ :=
  eqOn_applyAll fun w hw => disjoint_compl_right.mono_left (h w (List.mem_of_mem_take hw))

theorem exsb_subset_compl : Volume.exsbBytes ∪ vol.exsbCopyBytes ⊆ c.reachᶜ := by
  have hhome := c.home_disjoint
  rw [Set.union_assoc] at hhome
  refine Set.subset_compl_iff_disjoint_right.mpr (Disjoint.union_right ?_ ?_)
  · exact c.exsb_apart.union_left (c.copy_apart.mono_right Set.subset_union_left)
  · exact (hhome.mono_right Set.subset_union_right).symm

-- What is neither in the area nor among the metadata of the round is as it was before.
theorem Idle.shown (h : c.Idle exsb m d) (hf : Set.EqOn d c.disk c.reachᶜ)
    (hm : Set.EqOn m c.disk c.homeᶜ) : vol.Ready d ∧ Set.EqOn d m vol.areaBytesᶜ := by
  have hexsb := hf.mono exsb_subset_compl
  refine ⟨⟨h.none, c.exsb₀, c.first.congr ?_, c.second.congr ?_, c.exsb₀_ok⟩, fun a ha => ?_⟩
  · rw [c.exsb₀_ok.left]
    exact hexsb.mono Set.subset_union_left
  · rw [c.exsb₀_ok.left]
    exact hexsb.mono Set.subset_union_right
  · by_cases hh : a ∈ c.home
    case pos => exact h.eqOn hh
    case neg => exact (hf fun hr => hr.elim ha hh).trans (hm hh).symm

theorem eqOn_after : Set.EqOn c.after c.disk c.homeᶜ :=
  eqOn_applyAll fun _ hw => disjoint_compl_right.mono_left (c.span_metadata hw)

end Frame

section Steps

theorem Plain.idle_writes (h : c.Plain) : c.Idle c.exsb c.after (c.crash c.writes.length) := by
  by_cases hne : c.root = []
  case pos =>
    have hi := @idle_crash_empty _ c c.writes.length hne
    rw [← c.pending h.left] at hi
    exact ⟨hi.none, hi.first, hi.length, hi.valid, hi.copy, by simp [home_eq_empty hne]⟩
  case neg =>
    refine c.idle_crash_clear hne ?_
    rw [writes, List.length_append, ← clearBegin, Volume.clearSnapshot, List.length_cons]
    omega

theorem Plain.crashed (h : c.Plain) (ht : ¬c.TornHead k) (hm : Set.EqOn c.disk m vol.areaBytesᶜ) :
    c.Crashed m (applyAll c.metadata m) (c.crash k) := by
  refine ⟨h, hm, eqOn_applyAll_congr hm, eqOn_reach fun _ => c.span_writes h.left, ?_⟩
  have hexsb := c.pending h.left
  by_cases hne : c.root = []
  case pos => exact .inr (.inl (hexsb ▸ c.idle_crash_empty hne))
  case neg =>
    rcases Nat.lt_or_ge c.clearBegin k with hk | hk
    · exact .inr (.inr (c.idle_crash_clear hne hk))
    rcases Nat.lt_or_ge c.bodies.length k with hl | hl
    · by_cases hb : k ≤ c.headBegin
      case pos => exact .inr (.inl (c.idle_crash_commit hne hl hb))
      case neg => exact .inl (c.logged_crash hne (Nat.not_lt.mp fun he => ht ⟨Nat.not_le.mp hb, he⟩) hk)
    · exact .inr (.inl (hexsb ▸ c.idle_crash_bodies hl))

theorem Logged.frame (h : c.Logged d) (hp : c.Plain) (hm : vol.mount d = some (ws, exsb)) :
    Set.EqOn (Store.applyAll (ws.take k) d) d c.reachᶜ := by
  rw [h.mount_eq hp.right] at hm
  cases hm
  refine eqOn_reach fun w hw => (List.mem_append.mp hw).elim (fun hw => ?_) c.span_clearSnapshot
  exact (h.span_restore w hw).trans Set.subset_union_right

theorem Crashed.interrupted (h : c.Crashed old new d) (hi : vol.Interrupted d k d') :
    c.Crashed old new d' := by
  obtain ⟨hp, ho, hn, hf, hl | hd | hd⟩ := h
  case inl =>
    refine ⟨hp, ho, hn, ?_, (hl.mounted hp.right hi).imp_right .inl⟩
    obtain ⟨ws, exsb, hm, rfl⟩ := hi
    exact (hl.frame hp hm).trans hf
  case inr.inl => exact hd.mounted hi ▸ ⟨hp, ho, hn, hf, .inr (.inl hd)⟩
  case inr.inr => exact hd.mounted hi ▸ ⟨hp, ho, hn, hf, .inr (.inr hd)⟩

-- The mount succeeds and ends with the one or the other.
theorem Crashed.shows (h : c.Crashed old new d) : vol.Shows (.down d) (.down old new) := by
  obtain ⟨hp, ho, hn, hf, hl | hd | hd⟩ := h
  case inl =>
    have hm := hl.mount_eq hp.right
    have hframe := hl.frame (k := (Volume.restoreTransactions d c.root ++
      vol.clearSnapshot [] false).length) hp hm
    rw [List.take_length] at hframe
    obtain ⟨hr, he⟩ := hl.restored.shown (hframe.trans hf) (Set.eqOn_refl ..)
    exact ⟨_, _, hm, hr, .inl (he.trans ho)⟩
  case inr.inl =>
    obtain ⟨hr, he⟩ := hd.shown hf (Set.eqOn_refl ..)
    exact ⟨[], _, hd.mount_eq, hr, .inl (he.trans ho)⟩
  case inr.inr =>
    obtain ⟨hr, he⟩ := hd.shown hf eqOn_after
    exact ⟨[], _, hd.mount_eq, hr, .inr (he.trans hn)⟩

end Steps

end Round

namespace Volume

variable {vol : Volume} {v v' : Device} {a : Atomic}

inductive Represents (vol : Volume) : Device → Atomic → Prop
  | up : vol.Ready d → Set.EqOn d m vol.areaBytesᶜ → Represents vol (.up d) (.up m)
  | down {c : Round vol} : c.Crashed old new d → Represents vol (.down d) (.down old new)

theorem Represents.step (h : vol.Represents v a) (hs : vol.Step v e v') :
    ∃ a', Atomic.Step a e a' ∧ vol.Represents v' a' := by
  cases hs
  case flush hp =>
    cases h
    case up _ hm =>
      obtain ⟨hr, he⟩ := hp.idle_writes.shown (Round.eqOn_reach fun _ => Round.span_writes _ hp.left)
        Round.eqOn_after
      exact ⟨_, .flush, .up hr (he.trans (eqOn_applyAll_congr hm))⟩
  case crash hp ht =>
    cases h
    case up _ hm => exact ⟨_, .crash, .down (hp.crashed ht hm)⟩
  case interrupted hi =>
    cases h
    case down hc => exact ⟨_, .interrupted, .down (hc.interrupted hi)⟩
  case mounted hm =>
    cases h
    case down hc =>
      obtain ⟨ws, exsb, hm', hr, he | he⟩ := hc.shows
      all_goals cases hm.symm.trans hm'
      · exact ⟨_, .old, .up hr he⟩
      · exact ⟨_, .new, .up hr he⟩

-- The round of one page without a change of the superblock.
def flushRound : Round Round.pageVolume :=
  { Round.pendingRound with
    dirty   := false
    exsb    := Round.pendingRound.exsb₀
    exsb_ok := Round.pendingRound.exsb₀_ok
    pending := fun _ => rfl }

end Volume

end Emmcfs
