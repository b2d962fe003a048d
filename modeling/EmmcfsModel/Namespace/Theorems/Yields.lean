import EmmcfsModel.Namespace.Theorems.Layout
import EmmcfsModel.Namespace.Theorems.Records
import EmmcfsModel.Namespace.Theorems.Rules

namespace Emmcfs

open Code Namei
open Function (update)

-- Code that starts on the layout `v` has `Q` for the layout in which it returns.
def Yields (m : Namei α) (v : Layout) (Q : α → Layout → Prop) : Prop :=
  ∀ s : CallState, s.mount.layout = v →
    wp m (fun a s' => Q a s'.mount.layout) (fun _ _ => True) True s

namespace Yields

variable {v : Layout} {Q : α → Layout → Prop} {m : Namei α} {k : NameKey} {r : NameRecord}

theorem pure (h : Q a v) : Yields (pure a) v Q := by
  intro s hs
  subst hs
  exact h

theorem bind {Q : β → Layout → Prop} {f : α → Namei β}
    (h : Yields m v fun a v' => Yields (f a) v' Q) : Yields (m >>= f) v Q :=
  fun s hs => wp_bind.mpr (wp_imp (h s hs) (fun _ _ h' => h' _ rfl))

theorem mono {Q' : α → Layout → Prop} (h : Yields m v Q) (hq : ∀ a v', Q a v' → Q' a v') :
    Yields m v Q' :=
  fun s hs => wp_imp (h s hs) (fun a _ => hq a _)

theorem returned (h : Yields m v Q) (hs : s.mount.layout = v) (hr : m s = .ok a s') :
    Q a s'.mount.layout :=
  have hq := wp_ok (h s hs) hr
  hq

-- The counts of a layout are those of a volume.
theorem counted (h : v.Counted → Yields m v Q) : Yields m v Q :=
  fun s hs => h (hs ▸ Metadata.counted s.mount) s hs

theorem ite {c : Prop} [Decidable c] {n : Namei α} (hm : c → Yields m v Q)
    (hn : ¬c → Yields n v Q) : Yields (if c then m else n) v Q :=
  fun s hs => wp_ite.mpr ⟨fun hc => hm hc s hs, fun hc => hn hc s hs⟩

theorem attempt {Q : Unit → Layout → Prop} (h : o = none → Q () v) :
    Yields (attempt o) v Q := by
  intro s hs
  subst hs
  exact wp_attempt.mpr ⟨h, fun _ _ => trivial⟩

theorem failOn {Q : Unit → Layout → Prop} {c : Prop} [Decidable c] (h : ¬c → Q () v) :
    Yields (failOn c e) v Q :=
  .ite (fun _ _ _ => trivial) fun hc => .pure (h hc)

theorem haltOn {Q : Unit → Layout → Prop} {c : Prop} [Decidable c] (h : ¬c → Q () v) :
    Yields (haltOn c) v Q :=
  .ite (fun _ _ _ => trivial) fun hc => .pure (h hc)

theorem fail : Yields (fail e) v Q :=
  fun _ _ => trivial

theorem returns : Yields m v fun _ _ => True := by
  intro s _
  unfold wp
  split <;> trivial

theorem onFail {h : Errno → Namei α} (hm : Yields m v Q) (hh : ∀ e v', Yields (h e) v' Q) :
    Yields (onFail m h) v Q :=
  fun s hs => wp_onFail.mpr (wp_mono (hm s hs) (fun _ _ => id) (fun e s' _ => hh e _ s' rfl) id)

theorem bugOnFail (h : Yields m v Q) : Yields (bugOnFail m) v Q :=
  fun s hs => wp_bugOnFail.mpr (wp_imp (h s hs) (fun _ _ => id))

theorem transaction (h : Yields m v Q) : Yields (transaction m) v Q :=
  fun s hs => wp_transaction.mpr (wp_imp (h s.started hs) (fun _ _ => id))

theorem disk {Q : Metadata → Layout → Prop} (h : ∀ m : Mount, m.layout = v → Q m.disk v) :
    Yields disk v Q := by
  intro s hs
  subst hs
  exact h s.mount rfl

theorem modifyDisk {Q : Unit → Layout → Prop} {f : Metadata → Metadata}
    (h : ∀ m : Mount, m.layout = v → Q () (Mount.layout ⟨f m.disk, m.inodes⟩)) :
    Yields (modifyDisk f) v Q :=
  fun s hs => h s.mount hs

theorem modifyLayout {Q : Unit → Layout → Prop} {f : Metadata → Metadata} (g : Layout → Layout)
    (hg : ∀ m : Mount, Mount.layout ⟨f m.disk, m.inodes⟩ = g m.layout) (h : Q () (g v)) :
    Yields (Namei.modifyDisk f) v Q :=
  .modifyDisk fun m hm => by rw [hg, hm]; exact h

theorem inode {Q : VfsInode → Layout → Prop} (h : ∀ c, v.inodes n = some c → Q c v) :
    Yields (inode n) v Q := by
  intro s hs
  subst hs
  exact wp_inode.mpr ⟨h, fun _ => trivial⟩

theorem setInode {Q : Unit → Layout → Prop}
    (h : Q () { v with inodes := update v.inodes n c }) : Yields (setInode n c) v Q := by
  intro s hs
  subst hs
  exact h

theorem modifyInode {Q : Unit → Layout → Prop} {f : VfsInode → VfsInode}
    (h : ∀ c, v.inodes n = some c → Q () { v with inodes := update v.inodes n (some (f c)) }) :
    Yields (modifyInode n f) v Q :=
  .bind (.inode fun c hc => .setInode (h c hc))

section Records

theorem cattreeFind {Q : NameRecord → Layout → Prop}
    (h : ∀ r, v.entry k = some (r.place k) → v.node (.record k) = r.data? → Q r v) :
    Yields (cattreeFind o k) v Q := by
  refine .bind (.attempt fun _ => .bind (.disk fun m hm => ?_))
  subst hm
  split
  case h_1 r hr =>
    exact .pure (h r (Metadata.entry_eq_some.mpr ⟨r, hr, rfl⟩)
      (by simp [Mount.layout, Metadata.node, hr]))
  case h_2 => exact fun _ _ => trivial

theorem cattreeInsert {Q : Unit → Layout → Prop}
    (h : v.entry k = none →
      Q () { v.addName k (r.place k) with node := update v.node (.record k) r.data? }) :
    Yields (cattreeInsert o k r) v Q := by
  refine .bind (.attempt fun _ => .bind (.disk fun m hm => .bind (.failOn fun hk => .modifyDisk
    fun m' hm' => ?_)))
  have he : v.entry k = none := hm ▸ Metadata.entry_eq_none.mpr hk
  subst hm'
  rw [Metadata.layout_insert (Metadata.entry_eq_none.mp he)]
  exact h he

theorem cattreeRemove {Q : Unit → Layout → Prop}
    (h : ∀ p, v.entry k = some p →
      Q () { v.dropName k p with node := update v.node (.record k) none }) :
    Yields (cattreeRemove o k) v Q := by
  refine .bind (.attempt fun _ => .bind (.disk fun m hm => .bind (.failOn fun hk => .modifyDisk
    fun m' hm' => ?_)))
  obtain ⟨p, hp⟩ : ∃ p, v.entry k = some p := by
    subst hm
    exact Option.ne_none_iff_exists'.mp fun he => hk (Metadata.entry_eq_none.mp he)
  subst hm'
  obtain ⟨r, hr, hrp⟩ := Metadata.entry_eq_some.mp hp
  rw [Metadata.layout_erase hr, hrp]
  exact h p hp

end Records

end Yields

section Write

-- An inode can be written back: its place holds an object.
def Layout.Writable (v : Layout) (n : Nat) : Prop :=
  ∀ c, firstFileIno ≤ n → v.inodes n = some c → ∃ p, c.place = some p ∧ (v.node p).isSome

theorem wp_writeInodeToBnode {Q : Unit → CallState → Prop} {E : Errno → CallState → Prop}
    {s : CallState} (hl : s.mount.layout.Writable n)
    (hQ : ∀ s', s'.mount.layout = s.mount.layout.flush n → Q () s')
    (hE : ∀ e, o = some e → E e s) : wp (writeInodeToBnode o n) Q E True s := by
  simp only [writeInodeToBnode, wp_ite, wp_pure, wp_bind, wp_inode, wp_attempt]
  refine ⟨fun hn => hQ s (Layout.flush_of_lt hn).symm, fun hn => ⟨fun c hc => ⟨fun _ => ?_, hE⟩,
    fun _ => trivial⟩⟩
  have hn := Nat.not_lt.mp hn
  obtain ⟨p, hp, hs⟩ := hl c hn hc
  have hf := Layout.flush_of_place hn (v := s.mount.layout) hc hp
  split
  case h_1 _ _ id hi =>
    obtain rfl : p = .slot id := by simpa [VfsInode.place, hi, eq_comm] using hp
    have hm : id ∈ s.mount.disk.hardLinks := AList.lookup_isSome.mp hs
    refine hQ _ ?_
    simp only [hm, if_true]
    rw [hf, ← Metadata.layout_insertSlot]
  case h_2 => exact trivial
  case h_3 _ _ name hi hm =>
    obtain rfl : p = .record ⟨c.parentId, name⟩ := by
      simpa [VfsInode.place, hi, hm, eq_comm] using hp
    obtain ⟨d, hd⟩ := Option.isSome_iff_exists.mp hs
    obtain ⟨r, hr, hrd⟩ := Option.bind_eq_some_iff.mp hd
    cases r
    case hlink  => cases hrd
    case object =>
      simp only [wp_bind, wp_disk, wp_failOn, wp_modifyDisk]
      refine ⟨fun hk => absurd (AList.lookup_isSome.mp (by rw [hr]; rfl)) hk, fun _ => hQ _ ?_⟩
      rw [hf, ← Metadata.layout_overwrite hr]

namespace Yields

variable {v : Layout} {Q : Unit → Layout → Prop}

theorem writeInodeToBnode (hl : v.Writable n) (h : Q () (v.flush n)) :
    Yields (writeInodeToBnode o n) v Q := by
  intro s hs
  subst hs
  exact wp_writeInodeToBnode hl (fun s' hs' => hs' ▸ h) fun _ _ => trivial

-- A write-back that succeeds can be ignored.
theorem ignoring_write (hl : v.Writable n) (h : Q () (v.flush n)) :
    Yields (ignoring (Emmcfs.writeInodeToBnode none n)) v Q := by
  intro s hs
  subst hs
  exact wp_ignoring.mpr (wp_writeInodeToBnode hl (fun s' hs' => hs' ▸ h) nofun)

end Yields

end Write

end Emmcfs
