import EmmcfsModel.Namespace.Operations

namespace Emmcfs

namespace CallState

variable {s : CallState}

@[simp]
theorem started_mount : s.started.mount = s.mount := rfl

@[simp]
theorem stopped_mount : s.stopped.mount = s.mount := rfl

@[simp]
theorem started_boundaries : s.started.boundaries = s.boundaries := rfl

@[simp]
theorem started_level : s.started.level = s.level + 1 := rfl

theorem mem_stopped_boundaries (h : b ∈ s.boundaries) : b ∈ s.stopped.boundaries := by
  unfold stopped
  split
  · exact List.mem_cons_of_mem _ h
  · exact h

end CallState

namespace Namei

open Code

variable {Q : α → CallState → Prop} {E : Errno → CallState → Prop} {H : Prop} {s : CallState}

@[simp]
theorem wp_attempt {Q : Unit → CallState → Prop} :
    wp (attempt o) Q E H s ↔ (o = none → Q () s) ∧ ∀ e, o = some e → E e s := by
  cases o <;> simp [attempt]

@[simp]
theorem wp_failOn {c : Prop} [Decidable c] {Q : Unit → CallState → Prop} :
    wp (failOn c e) Q E H s ↔ (c → E e s) ∧ (¬c → Q () s) := by
  simp only [failOn, wp_ite, wp_fail, wp_pure]

@[simp]
theorem wp_ignoring {m : Namei Unit} {Q : Unit → CallState → Prop} :
    wp (ignoring m) Q E H s ↔ wp m Q (fun _ => Q ()) H s :=
  wp_onFail

@[simp]
theorem wp_bugOnFail {m : Namei α} :
    wp (bugOnFail m) Q E H s ↔ wp m Q (fun _ _ => H) H s :=
  wp_onFail

@[simp]
theorem wp_disk {Q : Metadata → CallState → Prop} : wp disk Q E H s ↔ Q s.mount.disk s :=
  .rfl

@[simp]
theorem wp_modifyDisk {f : Metadata → Metadata} {Q : Unit → CallState → Prop} :
    wp (modifyDisk f) Q E H s ↔ Q () { s with mount.disk := f s.mount.disk } :=
  .rfl

@[simp]
theorem wp_inode {Q : VfsInode → CallState → Prop} : wp (inode ino) Q E H s ↔
    (∀ c, s.mount.inodes ino = some c → Q c s) ∧ (s.mount.inodes ino = none → H) := by
  unfold wp inode
  cases s.mount.inodes ino <;> simp

@[simp]
theorem wp_setInode {Q : Unit → CallState → Prop} : wp (setInode ino c) Q E H s ↔
    Q () { s with mount.inodes := Function.update s.mount.inodes ino c } :=
  .rfl

@[simp]
theorem wp_modifyInode {f : VfsInode → VfsInode} {Q : Unit → CallState → Prop} :
    wp (modifyInode ino f) Q E H s ↔
      (∀ c, s.mount.inodes ino = some c →
        Q () { s with mount.inodes := Function.update s.mount.inodes ino (some (f c)) }) ∧
      (s.mount.inodes ino = none → H) := by
  simp only [modifyInode, wp_bind, wp_inode, wp_setInode]

@[simp]
theorem wp_transaction {m : Namei α} : wp (transaction m) Q E H s ↔
    wp m (fun a s' => Q a s'.stopped) (fun e s' => E e s'.stopped) H s.started := by
  rw [transaction, wp_bind, wp_modify, wp_onFail, wp_bind]
  rfl

section Keeps

variable {P : CallState → Prop} {m : Namei α}

theorem keeps_attempt : Keeps P (attempt o) :=
  fun _ h => wp_attempt.mpr ⟨fun _ => h, fun _ _ => h⟩

theorem keeps_failOn {c : Prop} [Decidable c] : Keeps P (failOn c e) :=
  .ite .fail .pure

theorem keeps_ignoring {m : Namei Unit} (h : Keeps P m) : Keeps P (ignoring m) :=
  .onFail h fun _ => .pure

theorem keeps_bugOnFail (h : Keeps P m) : Keeps P (bugOnFail m) :=
  .onFail h fun _ _ _ => trivial

theorem keeps_inode : Keeps P (inode ino) :=
  fun _ h => wp_inode.mpr ⟨fun _ _ => h, fun _ => trivial⟩

theorem keeps_modifyInode {f : VfsInode → VfsInode}
    (h : ∀ s i, P s → P { s with mount.inodes := i }) : Keeps P (modifyInode ino f) :=
  .bind keeps_inode fun _ => .modify fun s => h s _

theorem keeps_transaction (hm : Keeps P m) (hb : ∀ s, P s → P s.started)
    (he : ∀ s, P s → P s.stopped) : Keeps P (transaction m) :=
  .bind (.modify hb) fun _ =>
    .onFail (.bind hm fun _ => .bind (.modify he) fun _ => .pure) fun _ =>
      .bind (.modify he) fun _ => .fail

end Keeps

end Namei

end Emmcfs
