import Mathlib.Data.Finset.Basic
import EmmcfsModel.Namespace.History
import EmmcfsModel.Namespace.Theorems.Retains
import EmmcfsModel.Namespace.Theorems.Yields

namespace Emmcfs

open Code Namei
open Function (update)

namespace Layout

variable {v v' : Layout} {L : Place → Nat} {C : Nat → Nat} {c c' : VfsInode}

-- Inodes can be written back as long as they stay at their places.
theorem Writable.setInode {e : VfsInode} (h : v.Writable m) (hc : v.inodes n = some c)
    (hp : e.place = c.place) : Writable { v with inodes := update v.inodes n (some e) } m := by
  intro c' hn hc'
  by_cases hm : m = n
  case pos =>
    subst hm
    simp only [Function.update_self, Option.some.injEq] at hc'
    obtain ⟨p, hq, hd⟩ := h c hn hc
    exact ⟨p, hc' ▸ hp.trans hq, hd⟩
  case neg => exact h c' hn (by simpa [hm] using hc')

theorem Writable.flush (h : v.Writable m) : (v.flush n).Writable m := by
  intro c hm hc
  rw [flush_inodes] at hc
  obtain ⟨p, hp, hs⟩ := h c hm hc
  refine ⟨p, hp, ?_⟩
  unfold Layout.flush
  split
  · exact hs
  · split
    · exact hs
    · split
      · grind [Function.update_apply]
      · exact hs

theorem Sound.writable (h : v.Sound L C) : v.Writable m := by
  intro c hm hc
  obtain ⟨p, hp, hd⟩ := h.cached m c hm hc
  exact ⟨p, hp, by simp [hd]⟩

theorem Sound.flush_eq_self (h : v.Sound L C) (hc : v.inodes n = some c) : v.flush n = v := by
  by_cases hn : n < firstFileIno
  case pos => exact flush_of_lt hn
  case neg =>
    obtain ⟨p, hp, hd⟩ := h.cached n c (Nat.not_lt.mp hn) hc
    rw [flush_of_place (Nat.not_lt.mp hn) hc hp, ← hd, Function.update_eq_self]

def IsDir (v : Layout) (n : Nat) : Prop :=
  ∃ c, v.inodes n = some c ∧ c.kind = .dir

-- A name resolves to an inode.
def Leads (v : Layout) (k : NameKey) (n : Nat) : Prop :=
  ∃ p d, v.entry k = some p ∧ v.node p = some d ∧ d.objectId = n

theorem Leads.place (h : v.Leads k n) (hs : v.Sound L C) (hn : firstFileIno ≤ n)
    (hc : v.inodes n = some c) : ∃ p, v.entry k = some p ∧ c.place = some p := by
  obtain ⟨p, d, he, hd, ho⟩ := h
  obtain ⟨q, hq, hf⟩ := hs.cached n c hn hc
  exact ⟨p, he, hs.unique p q _ _ hd hf ho ▸ hq⟩

-- What a call has to leave: a consistent volume, on which nothing is lost that is still in use.
structure Follows (v v' : Layout) : Prop where
  consistent : v'.Consistent
  retains    : v.Retains v'

theorem Change.follows (hv : v.Change v') (h : v.Consistent) (hc : v.Counted) : v.Follows v' :=
  ⟨hv.consistent h hc, hv.retains h hc⟩

end Layout

open Layout

variable {v : Layout}

section Create

theorem newInode_yields {Q : Unit → Layout → Prop}
    (h : firstFileIno ≤ n → n ∉ v.used →
      Q () { v with
        used   := insert n v.used
        inodes := update v.inodes n (some ⟨kind, 1, 0, none, 0, none⟩) }) :
    Yields (newInode o kind n) v Q := by
  refine .bind (.attempt fun _ => .bind (.disk fun m hm => .bind (.haltOn fun hn =>
    .bind (.modifyLayout (fun v => { v with used := insert n v.used }) (fun _ => rfl)
      (.bind (.attempt fun _ => .setInode ?_))))))
  obtain ⟨hf, hu⟩ := not_or.mp hn
  exact h (Nat.not_lt.mp hf) (hm ▸ hu)

theorem addNewCattreeObject_yields {Q : Unit → Layout → Prop}
    (h : ∀ c, firstFileIno ≤ n → v.inodes n = some c → v.entry k = none →
      (c.hlinkId = none → Q () { v.addName k (.record k) with
        node := update v.node (.record k) (some (c.fillCattreeValue n)) }) ∧
      ∀ i, c.hlinkId = some i → Q () { v.addName k (.slot i) with
        node := update v.node (.record k) none }) :
    Yields (addNewCattreeObject o o' n k) v Q := by
  refine .bind (.haltOn fun hn => .bind (.inode fun c hc => .bind (.attempt fun _ => ?_)))
  have h := h c (Nat.not_lt.mp hn) hc
  split
  case h_1 hi   => exact .cattreeInsert fun he => (h he).1 hi
  case h_2 i hi => exact .cattreeInsert fun he => (h he).2 i hi

-- A new object in a folder.
theorem create_yields (h : v.Consistent) (hd : v.IsDir dir) :
    Yields (create o dir name kind n) v fun _ v' => v.Change v' ∧ firstFileIno ≤ n ∧
      v'.inodes n = some ⟨kind, 1, 0, none, dir, some name⟩ := by
  refine .bind (.failOn fun _ => .transaction (.bind (newInode_yields fun hn hu =>
    .bind (.attempt fun _ => .bind (.modifyInode fun c hc => .bind (.onFail
      (addNewCattreeObject_yields fun e _ he hk => ⟨fun _ => ?_, fun i hi => ?_⟩)
        fun _ _ => .bind (Yields.returns.mono fun _ _ _ => .fail)))))))
  case refine_2 =>
    simp only [Function.update_self, Option.some.injEq] at hc he
    subst hc he
    cases hi
  case refine_1 =>
    simp only [Function.update_self, Option.some.injEq] at hc he
    subst hc he
    obtain ⟨cd, hcd, hf⟩ := hd
    have h₁ := h.addObject (c := ⟨kind, 1, 0, none, dir, some name⟩) hk hn hu
      (Consistent.hasParent h hcd hf rfl) rfl Nat.one_pos
    have hne : dir ≠ n := by
      intro he
      obtain ⟨p, _, hp⟩ := h.cached n cd hn (he ▸ hcd)
      exact hu ((h.used n hn).mpr ⟨p, _, hp, rfl⟩)
    simp only [Function.update_idem]
    change Yields _ (v.addObject ⟨dir, name⟩ n ⟨kind, 1, 0, none, dir, some name⟩) _
    refine .bind (.modifyInode fun c hc => .writeInodeToBnode ?_ ?_)
    case refine_1 =>
      apply Writable.setInode h₁.writable hc
      rfl
    rw [flush_setInode]
    obtain rfl : cd = c := by
      simpa [Function.update_of_ne hne, hcd] using hc
    exact ⟨.create hk hn hu hcd hf, hn, by simp [Function.update_of_ne hne.symm]⟩

theorem create_follows (h : v.Consistent) (hd : v.IsDir dir) :
    Yields (create o dir name kind n) v fun _ v' => v.Follows v' :=
  .counted fun hc => (create_yields h hd).mono fun _ _ hv => hv.1.follows h hc

theorem mknod_follows (h : v.Consistent) (hd : v.IsDir dir) :
    Yields (mknod o writeInode validDev dir name kind n) v fun _ v' => v.Follows v' := by
  refine .counted fun hc => .transaction (.bind (.failOn fun _ => .bind
    ((create_yields h hd).mono fun _ v' hv => ?_)))
  have hv' := hv.1.follows h hc
  -- the new inode is already in its record
  refine .writeInodeToBnode hv'.consistent.writable ?_
  rw [hv'.consistent.flush_eq_self hv.2.2]
  exact hv'

theorem symlink_follows (h : v.Consistent) (hd : v.IsDir dir) :
    Yields (symlink o pageSymlink dir name symname n) v fun _ v' => v.Follows v' := by
  refine .counted fun hc => .bind (.failOn fun _ => .transaction (.bind
    ((create_yields h hd).mono fun _ v' ⟨hv, hn, hi⟩ => .bind (.attempt fun _ =>
      .counted fun hc' => .modifyLayout (fun v => { v with forks := insert n v.forks })
        (fun _ => rfl) ?_))))
  have hv' := hv.follows h hc
  obtain ⟨p, hp, hd⟩ := hv'.consistent.cached n _ hn hi
  have hf := (Change.fork hd (.inr rfl)).follows hv'.consistent hc'
  exact ⟨hf.consistent, hv'.retains.trans hf.retains (Finset.Subset.refl _)⟩

end Create

section Records

-- Code that writes the inode `n` back if that is possible and nothing fails.
def WritesBack (m : Namei Unit) (n : Nat) : Prop :=
  ∀ ⦃v⦄ ⦃Q : Unit → Layout → Prop⦄, v.Writable n → Q () (v.flush n) → Yields m v Q

theorem WritesBack.write : WritesBack (writeInodeToBnode o n) n :=
  fun _ _ => .writeInodeToBnode

theorem WritesBack.ignoring : WritesBack (ignoring (writeInodeToBnode none n)) n :=
  fun _ _ => .ignoring_write

variable {Q : Unit → Layout → Prop} {L : Place → Nat} {C : Nat → Nat} {c c' e e' : VfsInode}

-- Where there is no folder or file record, a hardlink record comes and goes with its name only.
theorem Layout.Sound.update_node (h : v.Sound L C) (hk : v.entry k ≠ some (.record k)) :
    update v.node (.record k) none = v.node := by
  rw [Function.update_eq_self_iff]
  exact (h.node_eq_none hk).symm

theorem insertHlink_yields (h : v.Sound L C) (hQ : v.entry k = none → Q () (v.addName k (.slot i))) :
    Yields (cattreeInsert o k (.hlink i)) v Q := by
  refine .cattreeInsert fun hk => ?_
  rw [NameRecord.data?, h.update_node (by simp [hk])]
  exact hQ hk

theorem removeHlink_yields (h : v.Sound L C) (hk : v.entry k = some (.slot i))
    (hQ : Q () (v.dropName k (.slot i))) : Yields (cattreeRemove o k) v Q := by
  refine .cattreeRemove fun p hp => ?_
  cases hp.symm.trans hk
  rw [h.update_node (by simp [hk])]
  exact hQ

theorem removeRecord_yields (hk : v.entry k = some (.record k))
    (hQ : Q () { v.dropName k (.record k) with node := update v.node (.record k) none }) :
    Yields (cattreeRemove o k) v Q := by
  refine .cattreeRemove fun p hp => ?_
  cases hp.symm.trans hk
  exact hQ

-- Two inodes have been changed and are written back.
theorem writeBoth_yields {m₁ m₂ : Namei Unit} (h : v.Sound L C) (hm₁ : WritesBack m₁ n)
    (hm₂ : WritesBack m₂ m) (hc : v.inodes n = some c) (hp : c'.place = c.place)
    (he : update v.inodes n (some c') m = some e) (hp' : e'.place = e.place)
    (hQ : Q () ((v.touch n c').touch m e')) :
    Yields (do m₁; m₂)
      { v with inodes := update (update v.inodes n (some c')) m (some e') } Q := by
  have hl {x} :
      Writable { v with inodes := update (update v.inodes n (some c')) m (some e') } x :=
    Writable.setInode (v := { v with inodes := update v.inodes n (some c') })
      (h.writable.setInode hc hp) he hp'
  refine .bind (hm₁ hl (hm₂ hl.flush ?_))
  rw [flush_flush]
  · exact hQ
  · intro hnm
    subst hnm
    simp only [Function.update_self, Option.some.injEq] at he
    rw [hp', he]

end Records

section Link

theorem moveToHlinkArea_yields {Q : Unit → Layout → Prop} (hc : v.inodes n = some c)
    (hk : v.entry k = some (.record k))
    (h : v.node (.slot i) = none →
      Q () (v.relocate k k (.slot i) n { c with name := none, hlinkId := some i })) :
    Yields (moveToHlinkArea o k n (c.fillCattreeValue n) i) v Q := by
  refine .bind (.bind (.onFail (.attempt fun _ => .bind (.disk fun m hm => .bind (.haltOn
    fun hi => .modifyDisk fun m' hm' => .bind (.attempt fun _ => .bind (.cattreeRemove
      fun p hp => .bind (.bugOnFail (.cattreeInsert fun _ => .modifyInode fun e he => ?_)))))))
        fun _ _ => .fail))
  have hi : v.node (.slot i) = none := hm ▸ AList.lookup_eq_none.mpr hi
  subst hm'
  cases hp.symm.trans hk
  cases he.symm.trans hc
  rw [Metadata.layout_insertSlot]
  have hnode : update (update (update m'.layout.node (.slot i) (some (c.fillCattreeValue n)))
      (.record k) none) (.record k) none = update (update m'.layout.node (.record k) none) (.slot i)
        (some (c.fillCattreeValue n)) := by
    rw [Function.update_idem]
    exact Function.update_comm (by simp) ..
  have hl := congrArg (fun x => { m'.layout.relocate k k (.slot i) n
    { c with name := none, hlinkId := some i } with node := x }) hnode
  exact (congrArg (Q ()) hl).mpr (h hi)

-- Afterwards the inode is in the slot whose number is returned.
theorem obtainHlinkId_yields (h : v.Consistent) (hn : firstFileIno ≤ n)
    (hc : v.inodes n = some c) (hp : c.place = some (r.place k)) (hk : c.kind ≠ .dir)
    (hr : v.node (.record k) = r.data?) (hd : v.IsDir dir) :
    Yields (obtainHlinkId o k n i r) v fun j v' => v.Follows v' ∧ v'.IsDir dir ∧
      ∃ e, v'.inodes n = some e ∧ e.place = some (.slot j) := by
  cases r
  case hlink j =>
    exact .pure ⟨⟨h, .of_eq rfl rfl fun _ => rfl⟩, hd, c, hc, hp⟩
  case object d =>
    have hf := h.node_of_cached hc hn hp
    obtain rfl : d = c.fillCattreeValue n := by
      simpa [NameRecord.data?, NameRecord.place, hr] using hf
    refine .counted fun hct => .bind (moveToHlinkArea_yields hc
      ((h.held k).mp (by rw [hr]; rfl)) fun hs => .pure ?_)
    have hv : v.Change _ := .toSlot hn hc hp hk hs
    refine ⟨hv.follows h hct, ?_, _, Function.update_self .., rfl⟩
    obtain ⟨cd, hcd, hf⟩ := hd
    exact ⟨cd, by grind [relocate_inodes, Function.update_apply], hf⟩

-- The new name of an inode that is in a slot.
theorem addLink_yields (h : v.Consistent) (hn : firstFileIno ≤ n) (hc : v.inodes n = some c)
    (hp : c.place = some (.slot i)) (hd : v.IsDir k.parentId) (hw : o.writeDir = none)
    (hw' : o.writeInode = none) :
    Yields (addLink o k n i) v fun _ v' => v.Change v' ∧ v'.used = v.used := by
  obtain ⟨cd, hcd, hf⟩ := hd
  have hs := h.node_of_cached hc hn hp
  have hne := h.ne_of_slot hn hc hp hcd hf
  refine .bind (insertHlink_yields h fun hk => .bind (.modifyInode fun c' hc' => .bind
    (.modifyInode fun cd' hcd' => ?_)))
  cases hc'.symm.trans hc
  obtain rfl : cd' = cd := by simpa [Function.update_of_ne hne, hcd, eq_comm] using hcd'
  have h₁ := h.addName (i := i) hk (by simp [hs]) (Consistent.hasParent h hcd hf rfl)
  rw [hw, hw', Function.update_comm hne.symm]
  refine writeBoth_yields h₁ .ignoring .ignoring hcd ?_ (?_ : _ = some c) ?_ ⟨.addLink hn hc hp hk hcd hf, rfl⟩
  · rfl
  · simpa [Function.update_of_ne hne.symm] using hc
  · rfl

theorem link_follows (h : v.Consistent) (hl : v.Leads old n) (hn : firstFileIno ≤ n)
    (hd : v.IsDir dir) (hw : o.writeDir = none) (hw' : o.writeInode = none) :
    Yields (link o old n dir name i) v fun _ v' => v.Follows v' := by
  refine .bind (.failOn fun _ => .bind (.inode fun c hc => .bind (.haltOn fun hk => .bind
    (.failOn fun _ => .bind (.disk fun m hm => .bind (.failOn fun _ => .transaction (.bind
      (.cattreeFind fun r he hr => .bind (.attempt fun _ => ?_)))))))))
  obtain ⟨p, hp, hpc⟩ := hl.place h hn hc
  cases hp.symm.trans he
  refine .bind ((obtainHlinkId_yields h hn hc hpc hk hr hd).mono
    fun j w ⟨hv, hd, e, he, hj⟩ => .counted fun hct => ?_)
  refine (addLink_yields hv.consistent hn he hj hd hw hw').mono fun _ w' hw => ?_
  have hf := hw.1.follows hv.consistent hct
  exact ⟨hf.consistent, hv.retains.trans hf.retains (Finset.subset_of_eq hw.2)⟩

end Link

section Unlink

-- The layout in which an inode has been deleted, or still has an orphan record and its records in
-- the extents tree.
def Deleted (v : Layout) (n : Nat) (hlinkId : Option Nat) (left : Bool) (v' : Layout) : Prop :=
  let node := match hlinkId with
    | some i => update v.node (.slot i) none
    | none   => v.node
  if left then
    n ∈ v.exttree ∧ v' = { v with
      node    := node
      inodes  := update v.inodes n none
      forks   := v.forks.erase n
      orphans := insert n v.orphans }
  else
    v' = { v with
      node    := node
      inodes  := update v.inodes n none
      forks   := v.forks.erase n
      used    := v.used.erase n
      exttree := v.exttree.erase n }

theorem freeInodeN_yields {Q : Unit → Layout → Prop}
    (h : Q () { v with used := v.used.erase n }) : Yields (freeInodeN o n) v Q := by
  exact .bind (.attempt fun _ => .bind (.disk fun m hm => .bind (.haltOn fun _ =>
    .modifyLayout (fun v => { v with used := v.used.erase n }) (fun _ => rfl) h)))

theorem freeHlinkData_yields {Q : Unit → Layout → Prop}
    (h : Q () { v with
      node := match i with
        | some i => update v.node (.slot i) none
        | none   => v.node }) :
    Yields (freeHlinkData o i) v Q := by
  cases i
  case none => exact .pure h
  case some =>
    refine .bind (.attempt fun _ => .bind (.disk fun m hm => .bind (.haltOn fun _ => .modifyDisk
      fun m' hm' => ?_)))
    subst hm'
    rw [Metadata.layout_eraseSlot]
    exact h

theorem deleteInode_yields (hf : n ∈ v.forks → c.kind = .reg ∨ c.kind = .lnk)
    (hx : n ∈ v.exttree → c.kind = .reg) :
    Yields (deleteInode o n c) v (Deleted v n c.hlinkId) := by
  refine .bind (freeHlinkData_yields (.bind (.setInode (.ite (fun hk => ?_) fun hk => ?_))))
  case refine_1 =>
    refine .bind (.attempt fun _ => .bind (.modifyLayout
      (fun v => { v with forks := v.forks.erase n }) (fun _ => rfl) (.bind (.disk fun m hm =>
        .ite (fun hl => .bind (.attempt fun _ => .bind (.modifyLayout
          (fun v => { v with orphans := insert n v.orphans }) (fun _ => rfl) (.pure ?_))))
        fun hl => .bind (freeInodeN_yields (.pure ?_))))))
    all_goals
      have he : m.disk.exttree = v.exttree := congrArg Layout.exttree hm
      rw [he] at hl
    · simp [Deleted, hl]
    · simp [Deleted, Finset.erase_eq_of_notMem hl]
  case refine_2 =>
    refine .bind (.bugOnFail (freeInodeN_yields (.pure ?_)))
    have hf : v.forks.erase n = v.forks := Finset.erase_eq_of_notMem fun h => hk (hf h)
    have hx : v.exttree.erase n = v.exttree := Finset.erase_eq_of_notMem fun h => hk (.inl (hx h))
    simp [Deleted, hf, hx]

theorem Deleted.of_setInode (h : Deleted { v with inodes := update v.inodes n c } n i left v') :
    Deleted v n i left v' := by
  simpa only [Deleted, Function.update_idem] using h

variable {c cd : VfsInode}

-- The last name of an inode has been removed.
theorem dropLink_deletes (hd : v.inodes k.parentId = some cd) (hc : v.inodes n = some c)
    (hne : k.parentId ≠ n) (hl : v.Writable k.parentId) (h₁ : c.nlink = 1)
    (hf : n ∈ v.forks → c.kind = .reg ∨ c.kind = .lnk) (hx : n ∈ v.exttree → c.kind = .reg)
    (hw : o.writeDir = none) :
    Yields (dropLink o k n) v
      (Deleted (v.touch k.parentId { cd with size := cd.size - 1 }) n c.hlinkId) := by
  refine .bind (.modifyInode fun cd' hcd' => .bind (.modifyInode fun c' hc' => ?_))
  cases hd.symm.trans hcd'
  obtain rfl : c = c' := by simpa [Function.update_of_ne hne.symm, hc] using hc'
  rw [hw]
  refine .bind (.ignoring_write ?_ (.bind (.inode fun c' hc' => .ite (fun hn => ?_) fun _ => ?_)))
  case refine_1 =>
    have hl := hl.setInode hd (e := { cd with size := cd.size - 1 }) rfl
    exact hl.setInode hc' rfl
  all_goals
    obtain rfl : { c with nlink := c.nlink - 1 } = c' := by simpa using hc'
  case refine_2 => simp [h₁] at hn
  case refine_3 =>
    rw [flush_setInode_of_ne (v := v) hne]
    exact (deleteInode_yields (v := { v.touch k.parentId _ with inodes := _ }) hf hx).mono
      fun _ _ => Deleted.of_setInode

-- There are other names.
theorem dropLink_keeps {L : Place → Nat} {C : Nat → Nat} (h : v.Sound L C)
    (hd : v.inodes k.parentId = some cd) (hc : v.inodes n = some c) (hne : k.parentId ≠ n)
    (h₁ : 1 < c.nlink) (hw : o.writeDir = none) (hw' : o.writeInode = none) :
    Yields (dropLink o k n) v fun left v' => left = false ∧
      v' = (v.touch k.parentId { cd with size := cd.size - 1 }).touch n
        { c with nlink := c.nlink - 1 } := by
  refine .bind (.modifyInode fun cd' hcd' => .bind (.modifyInode fun c' hc' => ?_))
  cases hd.symm.trans hcd'
  obtain rfl : c = c' := by simpa [Function.update_of_ne hne.symm, hc] using hc'
  have hl {x} : Writable (Layout.mk _ _ _ _ _ _ _ _ _) x :=
    (h.writable.setInode hd (e := { cd with size := cd.size - 1 }) rfl).setInode hc'
      (e := { c with nlink := c.nlink - 1 }) rfl
  rw [hw, hw']
  refine .bind (.ignoring_write hl (.bind (.inode fun c' hc' => .ite (fun _ => ?_) fun hn => ?_)))
  case refine_1 =>
    refine .bind (.ignoring_write hl.flush (.pure ⟨rfl, ?_⟩))
    exact flush_flush fun he => absurd he hne
  case refine_2 =>
    obtain rfl : { c with nlink := c.nlink - 1 } = c' := by simpa using hc'
    have : c.nlink - 1 = 0 := by simpa using hn
    omega

theorem fsmFreeExttree_yields {Q : Unit → Layout → Prop}
    (h : Q () { v with
      exttree := v.exttree.erase n
      orphans := v.orphans.erase n
      used    := v.used.erase n }) :
    Yields (fsmFreeExttree o n) v Q := by
  refine .bind (.transaction (.bind (.attempt fun _ => .modifyLayout
    (fun v => { v with exttree := v.exttree.erase n }) (fun _ => rfl) (.transaction (.bind
      (.attempt fun _ => .bind (.modifyLayout
        (fun v => { v with orphans := v.orphans.erase n }) (fun _ => rfl)
          (freeInodeN_yields h))))))))

-- An inode that is deleted leaves nothing behind, in the extents tree either.
theorem unlink_deletes {w : Layout} (hc : v.inodes n = some c)
    (h : Yields (unlinkName o k n) v (Deleted w n i)) (hx : n ∈ w.exttree → c.kind = .reg)
    (ho : w.orphans = ∅) :
    Yields (unlink o k n) v fun _ v' => Deleted w n i false v' := by
  refine .bind (.attempt fun _ => .bind (.inode fun c' hc' => .bind (.transaction
    (h.mono fun left v' hv => .ite (fun hl => ?_) fun hl => .pure ?_))))
  all_goals cases hc.symm.trans hc'
  case refine_1 =>
    refine .bugOnFail (fsmFreeExttree_yields ?_)
    simp only [hl.2, Deleted, if_true] at hv
    rw [hv.2]
    simp [Deleted, Finset.erase_insert (ho ▸ Finset.notMem_empty n)]
  case refine_2 =>
    cases left
    case false => exact hv
    case true  =>
      simp only [Deleted, if_true] at hv
      exact absurd ⟨hx hv.1, rfl⟩ hl

-- The names that there still are, and the inodes in memory, stay where they are.
structure Spares (v v' : Layout) (k : NameKey) : Prop where
  entry  : ∀ q, v'.entry q ≠ none → v'.entry q = v.entry q
  inodes : ∀ m c', v'.inodes m = some c' →
    ∃ c, v.inodes m = some c ∧ c'.place = c.place ∧ c'.kind = c.kind
  parent : v'.IsDir k.parentId

attribute [local grind =] Function.update_apply dropName_entry dropName_inodes touch_entry
  touch_inodes delete_entry delete_inodes

theorem unlink_slot (h : v.Consistent) (hn : firstFileIno ≤ n) (hc : v.inodes n = some c)
    (hp : c.place = some (.slot i)) (hk : v.entry k = some (.slot i))
    (hd : v.inodes k.parentId = some cd) (hf : cd.kind = .dir) (hw : o.writeDir = none)
    (hw' : o.writeInode = none) :
    Yields (unlink o k n) v fun _ v' => v.Change v' ∧ Spares v v' k := by
  have hne := h.ne_of_slot hn hc hp hd hf
  have h₁ := h.dropName hk
  have hl := h.links _ _ (h.node_of_cached hc hn hp) hn
  by_cases hn₁ : c.nlink = 1
  case pos =>
    have hx := h.kind_of_exttree hn hc
    refine (unlink_deletes hc (.bind (removeHlink_yields h hk (dropLink_deletes hd hc hne
      h₁.writable hn₁ (h.kind_of_forks hn hc) hx hw))) hx h.orphans).mono fun _ v' hv => ?_
    rw [VfsInode.place_eq_slot.mp hp] at hv
    simp only [Deleted, Bool.false_eq_true, if_false] at hv
    subst hv
    refine ⟨.dropSlot hn hc hp hn₁ hk hd hf, ?_, ?_, { cd with size := cd.size - 1 }, ?_, hf⟩
    all_goals grind
  case neg =>
    refine .bind (.attempt fun _ => .bind (.inode fun c' hc' => .bind (.transaction
      (.bind (removeHlink_yields h hk ((dropLink_keeps h₁ hd hc hne (by grind) hw hw').mono
        fun left v' hv => ?_))))))
    rw [hv.1, hv.2]
    refine .ite (fun hl => absurd hl.2 Bool.false_ne_true) fun _ => .pure
      ⟨.dropLink hn hc hp (by grind) hk hd hf, ?_, ?_, { cd with size := cd.size - 1 }, ?_, hf⟩
    all_goals grind

theorem unlink_record (h : v.Consistent) (hn : firstFileIno ≤ n) (hc : v.inodes n = some c)
    (hp : c.place = some (.record k)) (hk : c.kind = .dir → c.size = 0)
    (hd : v.inodes k.parentId = some cd) (hf : cd.kind = .dir) (hw : o.writeDir = none) :
    Yields (unlink o k n) v fun _ v' => v.Change v' ∧ Spares v v' k := by
  refine .counted fun hct => ?_
  have hs := h.node_of_cached hc hn hp
  have he : v.entry k = some (.record k) := (h.held k).mp (by simp [hs])
  have hne : k.parentId ≠ n := by
    intro hkn
    have hcd : cd = c := by grind
    have hz := Consistent.size_eq h hd hf (hkn ▸ hn)
    have := hct.items_pos k (by simp [he])
    grind
  -- the folder is somewhere else
  have hpd (hm : firstFileIno ≤ k.parentId) : cd.place ≠ some (.record k) := by
    intro hp'
    have hs' := h.node_of_cached hd hm hp'
    exact hne (congrArg ObjectData.objectId (Option.some.inj (hs'.symm.trans hs)))
  have hl : Writable { v.dropName k (.record k) with node := update v.node (.record k) none }
      k.parentId := by
    intro e hm he'
    cases hd.symm.trans he'
    obtain ⟨p, hp', hq⟩ := h.cached k.parentId cd hm hd
    have := hpd hm
    exact ⟨p, hp', by grind⟩
  have hx := h.kind_of_exttree hn hc
  have hn₁ := (Consistent.nlink_eq h hc hn hp).trans (hct.links_record h he)
  refine (unlink_deletes hc (.bind (removeRecord_yields he (dropLink_deletes hd hc hne hl hn₁
    (h.kind_of_forks hn hc) hx hw))) hx h.orphans).mono fun _ v' hv => ?_
  rw [VfsInode.hlinkId_of_record hp] at hv
  simp only [Deleted, Bool.false_eq_true, if_false] at hv
  have hnode := node_touch_comm (v := v) (c := { cd with size := cd.size - 1 }) hpd
  have hl := congrArg (fun x => { ((v.touch k.parentId { cd with size := cd.size - 1 }).dropName k
    (.record k)).delete (.record k) n with node := x }) hnode
  have hv : v' = ((v.touch k.parentId { cd with size := cd.size - 1 }).dropName k
    (.record k)).delete (.record k) n := hv.trans hl
  subst hv
  refine ⟨.dropRecord hn hc hp hk hd hf, ?_, ?_, { cd with size := cd.size - 1 }, ?_, hf⟩
  all_goals grind

theorem unlink_yields (h : v.Consistent) (hl : v.Leads k n) (hn : firstFileIno ≤ n)
    (hc : v.inodes n = some c) (hk : c.kind = .dir → c.size = 0) (hd : v.IsDir k.parentId)
    (hw : o.writeDir = none) (hw' : o.writeInode = none) :
    Yields (unlink o k n) v fun _ v' => v.Change v' ∧ Spares v v' k := by
  obtain ⟨cd, hcd, hf⟩ := hd
  obtain ⟨p, he, hp⟩ := hl.place h hn hc
  cases p
  case slot i    => exact unlink_slot h hn hc hp he hcd hf hw hw'
  case record k' =>
    cases h.records k k' he
    exact unlink_record h hn hc hp hk hcd hf hw

theorem unlink_follows (h : v.Consistent) (hl : v.Leads k n) (hn : firstFileIno ≤ n)
    (hc : v.inodes n = some c) (hk : c.kind = .dir → c.size = 0) (hd : v.IsDir k.parentId)
    (hw : o.writeDir = none) (hw' : o.writeInode = none) :
    Yields (unlink o k n) v fun _ v' => v.Follows v' :=
  .counted fun hct => (unlink_yields h hl hn hc hk hd hw hw').mono
    fun _ _ hv => hv.1.follows h hct

theorem rmdir_follows (h : v.Consistent) (hl : v.Leads k n) (hn : firstFileIno ≤ n)
    (hd : v.IsDir k.parentId) (hw : o.writeDir = none) (hw' : o.writeInode = none) :
    Yields (rmdir o k n) v fun _ v' => v.Follows v' :=
  .bind (.inode fun _ hc => .bind (.failOn fun hs =>
    unlink_follows h hl hn hc (fun _ => not_not.mp hs) hd hw hw'))

end Unlink

section Rename

variable {c cd ce : VfsInode}

attribute [local grind =] Function.update_apply addName_entry addName_inodes dropName_inodes
  relocate_inodes touch_inodes

theorem unlinkTarget_yields (h : v.Consistent) (hd : v.IsDir k.parentId)
    (ht : ∀ n, t = some n → v.Leads k n ∧ firstFileIno ≤ n) (hw : o.writeDir = none)
    (hw' : o.writeInode = none) :
    Yields (unlinkTarget o k t) v fun _ v' => v.Follows v' ∧ Spares v v' k := by
  cases t
  case none   => exact .pure ⟨⟨h, .of_eq rfl rfl fun _ => rfl⟩, fun _ _ => rfl,
    fun _ c hc => ⟨c, hc, rfl, rfl⟩, hd⟩
  case some n =>
    obtain ⟨hl, hn⟩ := ht n rfl
    refine .counted fun hct => .bind (.inode fun c hc => .bind (.failOn fun hk => ?_))
    exact (unlink_yields h hl hn hc (by grind) hd hw hw').mono
      fun _ _ hv => ⟨hv.1.follows h hct, hv.2⟩

theorem changeName_yields {Q : Unit → Layout → Prop} (hc : v.inodes n = some c)
    (hr : c.hlinkId = none → Q () { v with
      inodes := update v.inodes n
        (some { c with parentId := k.parentId, name := some k.name }) })
    (hs : c.hlinkId ≠ none → Q () v) : Yields (changeName o k n) v Q := by
  refine .bind (.inode fun c' hc' => .ite (fun hi => .bind (.modifyInode fun e he => .bind
    (.attempt fun _ => .modifyInode fun e' he' => ?_))) fun hi => .pure ?_)
  all_goals cases hc.symm.trans hc'
  case refine_1 =>
    cases hc.symm.trans he
    simp only [Function.update_self, Option.some.injEq] at he'
    subst he'
    simp only [Function.update_idem]
    exact hr hi
  case refine_2 => exact hs hi

-- The record under the new name is inserted before that under the old name is removed.
theorem relocate_eq (hne : k ≠ k') (hi : 0 < v.items k.parentId) :
    ({ dropName { v.addName k' (.record k') with
        node := update v.node (.record k') (some (c.fillCattreeValue n)) } k (.record k) with
      node := update (update v.node (.record k') (some (c.fillCattreeValue n))) (.record k) none } :
        Layout) = { v.relocate k k' (.record k') n c with inodes := v.inodes } := by
  have hr : Place.record k ≠ .record k' := by simpa using hne
  simp only [dropName, addName, relocate, Layout.mk.injEq, and_true]
  refine ⟨Function.update_comm hne.symm .., Function.update_comm hr.symm .., ?_, ?_⟩
  · funext p
    grind
  · funext m
    grind

theorem moveName_yields (h : v.Consistent) (hn : firstFileIno ≤ n)
    (hp : ∀ c, v.inodes n = some c → v.entry old ≠ none → c.place = v.entry old)
    (hd : ∀ c, v.inodes old.parentId = some c → c.kind = .dir) (hd' : v.IsDir new.parentId)
    (hne : n ≠ old.parentId) (hne' : n ≠ new.parentId) :
    Yields (moveName o old new n) v fun _ v' => v.Change v' ∧ v'.used = v.used := by
  refine .counted fun hct => .bind (.cattreeFind fun r he hr => .bind (.attempt fun _ => .bind
    (.attempt fun _ => .bind (addNewCattreeObject_yields fun c _ hc hk => ⟨fun hi => ?_,
      fun i hi => ?_⟩))))
  case refine_1 =>
    have hne₀ : old ≠ new := by grind
    have hpc : c.place = some (.record old) := by
      have := hp c hc (by simp [he])
      rw [he] at this
      cases r
      case object => exact this
      case hlink  => cases (VfsInode.place_eq_slot.mp this).symm.trans hi
    have hs := h.node_of_cached hc hn hpc
    have hrec := (h.held old).mp (by simp [hs])
    refine .bind (.bugOnFail (removeRecord_yields (by grind) (.bind ?_)))
    rw [relocate_eq hne₀ (hct.items_pos old (by simp [he]))]
    refine .modifyInode fun cd hcd => .bind
      (.modifyInode fun ce hce => .bind (changeName_yields (c := c) ?_ (fun _ => ?_)
        fun hj => absurd hi hj))
    case refine_1 => grind
    case refine_2 =>
      have hnew : VfsInode.place { c with parentId := new.parentId, name := some new.name } =
        some (.record new) := by simp [VfsInode.place, hi]
      obtain ⟨_, hcp, hfp⟩ := hd'
      have hpar := Consistent.hasParent h hcp hfp rfl
      have hw := h.relocate hc hn hpc (.inr hk) (h.node_eq_none (by simp [hk])) (.inl rfl) hpar
        hnew rfl
      rw [Function.update_comm hne'.symm, Function.update_comm hne.symm]
      have hcd : v.inodes old.parentId = some cd := hcd
      have hce : update v.inodes old.parentId (some _) new.parentId = some ce := hce
      have hcd' := hd cd hcd
      refine writeBoth_yields hw .write .write (c := cd) ?_ rfl (?_ : _ = some ce) rfl
        ⟨.moveRecord hn hc hpc hk hpar rfl ?_ hcd' ?_ ?_, rfl⟩
      all_goals grind
  case refine_2 =>
    have hold : v.entry old = some (.slot i) := by
      rw [← hp c hc (by simp [he])]
      exact VfsInode.place_eq_slot.mpr hi
    have hs := h.node_of_cached hc hn (VfsInode.place_eq_slot.mpr hi)
    obtain ⟨_, hcp, hfp⟩ := hd'
    have hpar := Consistent.hasParent h hcp hfp rfl
    have h₁ := h.addName (i := i) hk (by simp [hs]) hpar
    have hold₁ : (v.addName new (.slot i)).entry old = some (.slot i) := by grind
    have hw := h₁.dropName hold₁
    rw [h.update_node (by simp [hk])]
    refine .bind (.bugOnFail (removeHlink_yields h₁ hold₁ (.bind (.modifyInode fun cd hcd => .bind
      (.modifyInode fun ce hce => .bind (changeName_yields (c := c) ?_
        (fun hj => by cases hi.symm.trans hj) fun _ => ?_))))))
    case refine_1 => grind
    case refine_2 =>
      have hcd : v.inodes old.parentId = some cd := hcd
      have hce : update v.inodes old.parentId (some _) new.parentId = some ce := hce
      have hcd' := hd cd hcd
      refine writeBoth_yields hw .write .write (c := cd) ?_ rfl (?_ : _ = some ce) rfl
        ⟨.moveHlink hold hk hpar rfl ?_ hcd' ?_ ?_, rfl⟩
      all_goals grind

theorem rename_follows (h : v.Consistent) (hl : v.Leads old n) (hn : firstFileIno ≤ n)
    (hd : v.IsDir old.parentId) (hd' : v.IsDir new.parentId) (hne : n ≠ old.parentId)
    (hne' : n ≠ new.parentId) (ht : ∀ m, t = some m → v.Leads new m ∧ firstFileIno ≤ m)
    (hw : o.target.writeDir = none) (hw' : o.target.writeInode = none) :
    Yields (rename o old new n t) v fun _ v' => v.Follows v' := by
  refine .bind (.failOn fun _ => .bind ((unlinkTarget_yields h hd' ht hw hw').mono
    fun _ w ⟨hv, hs⟩ => .counted fun hct => .transaction ((moveName_yields hv.consistent hn ?_ ?_
      hs.parent hne hne').mono fun _ w' hw' => ?_)))
  case refine_1 =>
    intro c hc he
    obtain ⟨c₀, hc₀, hp, _⟩ := hs.inodes n c hc
    obtain ⟨p, hk, hp₀⟩ := hl.place h hn hc₀
    rw [hs.entry old he, hk, hp, hp₀]
  case refine_2 =>
    intro c hc
    obtain ⟨c₀, hc₀, _, hk⟩ := hs.inodes old.parentId c hc
    obtain ⟨cd, hcd, hf⟩ := hd
    cases hc₀.symm.trans hcd
    exact hk.trans hf
  case refine_3 =>
    have hf := hw'.1.follows hv.consistent hct
    exact ⟨hf.consistent, hv.retains.trans hf.retains (Finset.subset_of_eq hw'.2)⟩

end Rename

end Emmcfs
