import EmmcfsModel.Namespace.History
import EmmcfsModel.Namespace.Theorems.Rules

namespace Emmcfs

open Code Namei

namespace CallState

-- At every transaction boundary so far the new name resolved to the old target or to the inode
-- that is moved.
def Covered (s : CallState) (before : Metadata) (old new : NameKey) : Prop :=
  ∀ b ∈ s.boundaries, b.resolve new = before.resolve new ∨ b.resolve new = before.resolve old

-- At some boundary there was no such name.
def Exposed (s : CallState) (new : NameKey) : Prop :=
  ∃ b ∈ s.boundaries, new ∉ b.catalog

-- The name is gone in the transaction that is open.
@[mk_iff removed_iff]
structure Removed (s : CallState) (key : NameKey) : Prop where
  level   : s.level = 1
  removed : key ∉ s.mount.disk.catalog

end CallState

open CallState

-- Rename is atomic for the new name: it is covered throughout, and an error leaves both names as
-- they were.
def RenameAtomic (before : Metadata) (old new : NameKey) : Outcome Errno CallState Unit → Prop
  | .ok _ s   => s.Covered before old new
  | .fail _ s => s.Covered before old new ∧
    s.mount.disk.resolve old = before.resolve old ∧ s.mount.disk.resolve new = before.resolve new
  | .halt     => True

section Exposed

variable {s : CallState} {key new : NameKey}

theorem Metadata.resolve_of_notMem {disk : Metadata} (h : key ∉ disk.catalog) :
    disk.resolve key = none := by
  rw [resolve, AList.lookup_eq_none.mpr h, Option.bind_none]

theorem Metadata.mem_of_resolve {disk : Metadata} (h : disk.resolve key = some ino) :
    key ∈ disk.catalog := by
  apply Decidable.by_contra
  intro hk
  rw [resolve_of_notMem hk] at h
  cases h

theorem CallState.Exposed.not_covered (h : s.Exposed new) (hn : before.resolve new ≠ none)
    (ho : before.resolve old ≠ none) : ¬s.Covered before old new := by
  intro hc
  obtain ⟨b, hb, hk⟩ := h
  cases hc b hb
  case inl h => exact hn (h ▸ Metadata.resolve_of_notMem hk)
  case inr h => exact ho (h ▸ Metadata.resolve_of_notMem hk)

theorem CallState.Exposed.stopped (h : s.Exposed new) : s.stopped.Exposed new := by
  obtain ⟨b, hb, hk⟩ := h
  exact ⟨b, mem_stopped_boundaries hb, hk⟩

theorem CallState.Removed.stopped (h : s.Removed key) : s.stopped.Exposed key :=
  ⟨s.mount.disk, by simp [CallState.stopped, h.level], h.removed⟩

-- A record is only written over where there is one.
theorem writeInodeToBnode_removed :
    Keeps (fun s => s.Removed key) (writeInodeToBnode o ino) := by
  intro s hs
  simp only [writeInodeToBnode, writeHlinkSlot, wp_ite, wp_pure, wp_bind, wp_inode, wp_attempt]
  refine ⟨fun _ => hs, fun _ => ⟨fun c _ => ⟨fun _ => ?_, fun _ _ => hs⟩, fun _ => trivial⟩⟩
  split
  · rw [wp_modifyDisk]
    split
    · exact ⟨hs.level, hs.removed⟩
    · exact hs
  · exact trivial
  · simp only [wp_bind, wp_disk, wp_failOn, wp_modifyDisk]
    refine ⟨fun _ => hs, fun hk => ⟨hs.level, ?_⟩⟩
    rw [AList.mem_insert, not_or]
    exact ⟨fun h => hk (h ▸ hs.removed), hs.removed⟩

theorem freeInodeN_removed : Keeps (fun s => s.Removed key) (freeInodeN o ino) :=
  .bind keeps_attempt fun _ => .bind .gets fun _ => .bind .haltOn fun _ =>
    .modify fun _ h => ⟨h.level, h.removed⟩

theorem fsmFreeRuntimeFork_removed :
    Keeps (fun s => s.Removed key) (fsmFreeRuntimeFork o ino) :=
  .bind keeps_attempt fun _ => .bind (.modify fun _ h => ⟨h.level, h.removed⟩) fun _ =>
    .bind .gets fun _ => .ite
      (.bind keeps_attempt fun _ => .bind (.modify fun _ h => ⟨h.level, h.removed⟩) fun _ => .pure)
      (.bind freeInodeN_removed fun _ => .pure)

theorem deleteInode_removed : Keeps (fun s => s.Removed key) (deleteInode o ino c) := by
  refine .bind ?_ fun _ => .bind (.modify fun _ h => ⟨h.level, h.removed⟩) fun _ =>
    .ite fsmFreeRuntimeFork_removed (.bind (keeps_bugOnFail freeInodeN_removed) fun _ => .pure)
  cases c.hlinkId
  case none => exact .pure
  case some =>
    exact .bind keeps_attempt fun _ => .bind .gets fun _ => .bind .haltOn fun _ =>
      .modify fun _ h => ⟨h.level, h.removed⟩

theorem cattreeRemove_removed (hs : s.level = 1) (hm : key ∈ s.mount.disk.catalog) :
    wp (cattreeRemove none key) (fun _ s => s.Removed key) (fun _ _ => False) True s := by
  simp [cattreeRemove, hm, CallState.removed_iff, hs]

theorem dropLink_removed : Keeps (fun s => s.Removed key) (dropLink o key ino) :=
  have hi (s : CallState) i (h : s.Removed key) : Removed { s with mount.inodes := i } key :=
    ⟨h.level, h.removed⟩
  .bind (keeps_modifyInode hi) fun _ => .bind (keeps_modifyInode hi) fun _ =>
    .bind (keeps_ignoring writeInodeToBnode_removed) fun _ => .bind keeps_inode fun _ => .ite
      (.bind (keeps_ignoring writeInodeToBnode_removed) fun _ => .pure) deleteInode_removed

-- Once the record is removed, nothing in the same transaction brings it back.
theorem unlinkName_removed (hs : s.level = 1) (hm : key ∈ s.mount.disk.catalog)
    (ho : o.remove = none) :
    wp (unlinkName o key ino) (fun _ s => s.Removed key) (fun _ s => s.Removed key) True s := by
  rw [unlinkName, ho, wp_bind]
  exact wp_mono (cattreeRemove_removed hs hm) (fun _ => dropLink_removed) (fun _ _ h => h.elim) id

theorem keeps_exposed_transaction {m : Namei α} (hm : Keeps (fun s => s.Exposed new) m) :
    Keeps (fun s => s.Exposed new) (transaction m) :=
  keeps_transaction hm (fun _ h => h) fun _ h => h.stopped

theorem freeInodeN_exposed : Keeps (fun s => s.Exposed new) (freeInodeN o ino) :=
  .bind keeps_attempt fun _ => .bind .gets fun _ => .bind .haltOn fun _ => .modify fun _ h => h

theorem fsmFreeExttree_exposed : Keeps (fun s => s.Exposed new) (fsmFreeExttree o ino) :=
  .bind (keeps_exposed_transaction (.bind keeps_attempt fun _ => .modify fun _ h => h)) fun _ =>
    keeps_exposed_transaction (.bind keeps_attempt fun _ => .bind (.modify fun _ h => h) fun _ =>
      freeInodeN_exposed)

theorem writeInodeToBnode_exposed :
    Keeps (fun s => s.Exposed new) (writeInodeToBnode o ino) := by
  refine .ite .pure (.bind keeps_inode fun c => .bind keeps_attempt fun _ => ?_)
  split
  · exact .modify fun _ h => h
  · exact fun _ _ => trivial
  · exact .bind .gets fun _ => .bind keeps_failOn fun _ => .modify fun _ h => h

theorem cattreeInsert_exposed : Keeps (fun s => s.Exposed new) (cattreeInsert o key r) :=
  .bind keeps_attempt fun _ => .bind .gets fun _ => .bind keeps_failOn fun _ =>
    .modify fun _ h => h

theorem cattreeRemove_exposed : Keeps (fun s => s.Exposed new) (cattreeRemove o key) :=
  .bind keeps_attempt fun _ => .bind .gets fun _ => .bind keeps_failOn fun _ =>
    .modify fun _ h => h

theorem addNewCattreeObject_exposed :
    Keeps (fun s => s.Exposed new) (addNewCattreeObject o₁ o₂ ino key) := by
  refine .bind .haltOn fun _ => .bind keeps_inode fun c => .bind keeps_attempt fun _ => ?_
  split
  · exact cattreeInsert_exposed
  · exact cattreeInsert_exposed

theorem cattreeFind_exposed : Keeps (fun s => s.Exposed new) (cattreeFind o key) := by
  refine .bind keeps_attempt fun _ => .bind .gets fun _ => ?_
  split
  · exact .pure
  · exact .fail

theorem moveName_exposed : Keeps (fun s => s.Exposed new) (moveName o old key mv) :=
  have hi {ino f} : Keeps (fun s => s.Exposed new) (modifyInode ino f) :=
    keeps_modifyInode fun _ _ h => h
  .bind cattreeFind_exposed fun _ => .bind keeps_attempt fun _ => .bind keeps_attempt fun _ =>
    .bind addNewCattreeObject_exposed fun _ => .bind (keeps_bugOnFail cattreeRemove_exposed) fun _ =>
      .bind hi fun _ => .bind hi fun _ =>
        .bind (.bind keeps_inode fun _ =>
          .ite (.bind hi fun _ => .bind keeps_attempt fun _ => hi) .pure) fun _ =>
            .bind writeInodeToBnode_exposed fun _ => writeInodeToBnode_exposed

end Exposed

section Atomic

variable {m : Mount} {old new : NameKey}

-- The target's own transaction closes without its name.
theorem unlinkTarget_exposed (hm : new ∈ m.disk.catalog) (ht : m.inodes t = some c)
    (hc : ¬(c.kind = .dir ∧ 0 < c.size)) (ha : o.allocKey = none) (hr : o.remove = none) :
    wp (unlinkTarget o new (some t)) (fun _ s => s.Exposed new) (fun _ s => s.Exposed new) True
      m.start := by
  have hu : wp (unlinkName o new t) (fun _ s => s.Removed new) (fun _ s => s.Removed new) True
      m.start.started := unlinkName_removed rfl hm hr
  simp only [unlinkTarget, unlink, wp_bind, wp_inode, wp_failOn, wp_attempt, wp_transaction]
  refine ⟨fun c' hc' => ?_, fun _ => trivial⟩
  cases ht.symm.trans hc'
  refine ⟨fun h => (hc h).elim, fun _ => ⟨fun _ => ⟨fun _ _ => ?_, fun _ => trivial⟩, ?_⟩⟩
  · refine wp_mono hu (fun left s hs => ?_) (fun _ _ hs => hs.stopped) id
    exact (Keeps.ite (keeps_bugOnFail fsmFreeExttree_exposed) .pure) _ hs.stopped
  · intro e he
    cases ha.symm.trans he

-- A call that gets as far as removing the target exposes the missing name.
theorem rename_exposed (hm : new ∈ m.disk.catalog) (ht : m.inodes t = some c)
    (hl : ¬catMaxName < new.name.length) (hc : ¬(c.kind = .dir ∧ 0 < c.size))
    (ha : o.target.allocKey = none) (hr : o.target.remove = none) :
    wp (rename o old new mv (some t)) (fun _ s => s.Exposed new) (fun _ s => s.Exposed new) True
      m.start := by
  simp only [rename, wp_bind, wp_failOn]
  refine ⟨fun h => (hl h).elim, fun _ => ?_⟩
  exact wp_imp (unlinkTarget_exposed hm ht hc ha hr)
    (fun _ => keeps_exposed_transaction moveName_exposed)

-- A call that does not get so far fails with the volume as it was.
theorem rename_unchanged (ht : m.inodes t = some c) (h : catMaxName < new.name.length ∨
    (c.kind = .dir ∧ 0 < c.size) ∨ o.target.allocKey ≠ none ∨ o.target.remove ≠ none) :
    wp (rename o old new mv (some t)) (fun _ _ => False)
      (fun _ s => s.mount.disk = m.disk ∧ ∀ b ∈ s.boundaries, b = m.disk) True m.start := by
  have hs : m.start.mount.disk = m.disk ∧ ∀ b ∈ m.start.boundaries, b = m.disk :=
    ⟨rfl, fun _ => nofun⟩
  simp only [rename, unlinkTarget, unlink, unlinkName, cattreeRemove, wp_bind, wp_inode, wp_failOn,
    wp_attempt, wp_transaction]
  refine ⟨fun _ => hs, fun hl => ⟨fun c' hc' => ?_, fun _ => trivial⟩⟩
  cases ht.symm.trans hc'
  refine ⟨fun _ => hs, fun hc => ⟨fun ha => ⟨fun _ _ => ⟨fun hr => ?_, fun _ _ => ?_⟩,
    fun _ => trivial⟩, fun _ _ => hs⟩⟩
  · simp [hl, hc, ha, hr] at h
  · simp [CallState.stopped, Mount.start]

-- A folder with the two files a and b.
def twoFiles : Mount where
  disk :=
    { catalog     := (AList.insert ⟨1, [0x61#8]⟩ (.object ⟨10, .reg, 1, 0⟩) ∅).insert
        ⟨1, [0x62#8]⟩ (.object ⟨11, .reg, 1, 0⟩)
      hardLinks   := ∅
      inodeBitmap := {10, 11}
      forks       := ∅
      exttree     := ∅
      orphans     := ∅ }
  inodes
    | 1  => some ⟨.dir, 1, 2, none, 0, none⟩
    | 10 => some ⟨.reg, 1, 0, none, 1, some [0x61#8]⟩
    | 11 => some ⟨.reg, 1, 0, none, 1, some [0x62#8]⟩
    | _  => none

def UnlinkOutcomes.success : UnlinkOutcomes :=
  ⟨none, none, none, none, none, none, none, none, none⟩

def RenameOutcomes.success : RenameOutcomes :=
  ⟨.success, none, none, none, none, none, none, none, none, none⟩

end Atomic

end Emmcfs
