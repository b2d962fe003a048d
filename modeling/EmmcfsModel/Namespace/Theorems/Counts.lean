import EmmcfsModel.Namespace.Theorems.History
import EmmcfsModel.Namespace.Theorems.Rename

namespace Emmcfs

open Code Namei Layout

variable {m m' : Mount} {L : Place → Nat} {C : Nat → Nat}

-- The names that resolve to an inode are those that lead to its place.
theorem Metadata.namesOf_eq_linksOf (h : m.layout.Sound L C) (hd : m.disk.node p = some d) :
    m.disk.namesOf d.objectId = m.disk.linksOf p := by
  refine List.countP_congr fun ⟨k, r⟩ hr => ?_
  have hr := AList.mem_lookup_iff.mpr hr
  have ho : m.disk.objectOf r = m.disk.node (r.place k) :=
    objectOf_eq_node (m := m) rfl (by simp [Mount.layout, Metadata.node, Option.mem_def.mp hr])
  simp only [decide_eq_true_eq, ho]
  constructor
  case mp =>
    intro hn
    obtain ⟨e, he, hi⟩ := Option.map_eq_some_iff.mp hn
    exact h.unique _ p e d he hd hi
  case mpr =>
    intro hp
    simp [hp, hd]

theorem Metadata.live_of_namesOf (hn : m.disk.namesOf n ≠ 0) : m.layout.Live n := by
  obtain ⟨⟨k, r⟩, hr, hp⟩ := List.countP_pos_iff.mp (Nat.pos_of_ne_zero hn)
  have hr := AList.mem_lookup_iff.mpr hr
  have ho : m.disk.objectOf r = m.disk.node (r.place k) :=
    objectOf_eq_node (m := m) rfl (by simp [Mount.layout, Metadata.node, Option.mem_def.mp hr])
  obtain ⟨d, hd, hi⟩ := Option.map_eq_some_iff.mp (of_decide_eq_true hp)
  exact ⟨r.place k, d, ho.symm.trans hd, hi⟩

namespace Mount

-- Nothing on the volume belongs to the inode any more.
structure Released (m : Mount) (ino : Nat) : Prop where
  number  : ino ∉ m.disk.inodeBitmap
  slots   : ∀ id data, m.disk.hardLinks.lookup id = some data → data.objectId ≠ ino
  forks   : ino ∉ m.disk.forks
  exttree : ino ∉ m.disk.exttree
  orphans : ino ∉ m.disk.orphans

-- The inode has what it had before.
structure Kept (m m' : Mount) (ino : Nat) : Prop where
  number  : ino ∈ m'.disk.inodeBitmap
  slots   : ∀ id data, m.disk.hardLinks.lookup id = some data → data.objectId = ino →
    ∃ data', m'.disk.hardLinks.lookup id = some data' ∧ data'.objectId = ino
  forks   : ino ∈ m.disk.forks → ino ∈ m'.disk.forks
  exttree : ino ∈ m.disk.exttree → ino ∈ m'.disk.exttree

theorem released (h : m.layout.Consistent) (hn : firstFileIno ≤ n) (h₀ : m.disk.namesOf n = 0) :
    m.Released n := by
  -- an object with a number has a name
  have hl (p d) (hd : m.layout.node p = some d) : d.objectId ≠ n := by
    intro ho
    obtain ⟨hc, hp⟩ := h.links p d hd (ho ▸ hn)
    have := Metadata.namesOf_eq_linksOf h hd
    have hz : m.disk.linksOf p = 0 := by rw [← this, ho, h₀]
    exact Nat.ne_of_gt hp (hc.trans hz)
  exact {
    number  := fun hu => have ⟨p, d, hd, ho⟩ := (h.used n hn).mp hu; hl p d hd ho
    slots   := fun i d hd => hl (.slot i) d hd
    forks   := fun hf => have ⟨p, d, hd, ho, _⟩ := h.forks n hf; hl p d hd ho
    exttree := fun hx => have ⟨p, d, hd, ho, _⟩ := h.exttree n hx; hl p d hd ho
    orphans := fun ho => by simp [show m.disk.orphans = ∅ from h.orphans] at ho }

theorem kept (h : m.layout.Follows m'.layout) (hn : firstFileIno ≤ n)
    (h₀ : m'.disk.namesOf n ≠ 0) : m.Kept m' n := by
  have hu : n ∈ m'.layout.used := (h.consistent.used n hn).mpr (Metadata.live_of_namesOf h₀)
  exact {
    number  := hu
    slots   := fun i d hd ho => ho ▸ h.retains.slots i d hd (ho ▸ hu)
    forks   := h.retains.forks n hu
    exttree := h.retains.exttree n hu }

end Mount

-- A volume with nothing but its root folder, which is in memory.
def emptyVolume : Mount where
  disk   := ⟨∅, ∅, ∅, ∅, ∅, ∅⟩
  inodes
    | 1 => some ⟨.dir, 1, 0, none, 0, none⟩
    | _ => none

theorem emptyVolume_node : emptyVolume.layout.node p = none := by
  cases p <;> rfl

theorem emptyVolume_consistent : emptyVolume.layout.Consistent where
  used _ _           := ⟨nofun, fun ⟨_, _, hd, _⟩ => by cases emptyVolume_node.symm.trans hd⟩
  forks _            := nofun
  exttree _          := nofun
  orphans            := rfl
  records _ _        := nofun
  held _             := ⟨nofun, nofun⟩
  slots _ _          := nofun
  unique _ _ _ _ hd  := by cases emptyVolume_node.symm.trans hd
  folders _ _        := nofun
  parents _ hk       := absurd rfl hk
  links _ _ hd       := by cases emptyVolume_node.symm.trans hd
  items _ _ hd       := by cases emptyVolume_node.symm.trans hd
  cached n c hn hc   := by
    match n with
    | 1     => exact absurd hn (by decide)
    | 0     => cases hc
    | n + 2 => cases hc

def CreateOutcomes.success : CreateOutcomes :=
  ⟨none, none, none, none, none, none, none⟩

def LinkOutcomes.success : LinkOutcomes :=
  ⟨none, none, none, none, none, none, none, none, none, none⟩

-- The number of items is what keeps a folder with children from being removed.
theorem Mount.Step.rmdir_empty (hs : m.Step (.rmdir o k n) m') (h : m.layout.Consistent) :
    m.disk.itemsOf n = 0 := by
  obtain ⟨⟨⟨_, hn, _⟩, hd⟩, s, hr, _⟩ := hs
  obtain ⟨c, hc, hk⟩ := hd.layout
  have hy : Yields (rmdir o k n) m.layout fun _ _ => c.size = 0 := by
    refine .bind (.inode fun c' hc' => .bind (.failOn fun hz => Yields.returns.mono fun _ _ _ => ?_))
    cases hc.symm.trans hc'
    exact not_not.mp hz
  exact (Consistent.size_eq h hc hk hn).symm.trans (hy.returned rfl hr)

theorem Mount.Step.rename_empty (hs : m.Step (.rename o old new mv (some n)) m')
    (hd : m.IsDir n) (h : m.layout.Consistent) : m.disk.itemsOf n = 0 := by
  obtain ⟨⟨_, _, _, _, ht⟩, s, hr, _⟩ := hs
  have hn := (ht n rfl).2.1
  obtain ⟨c, hc, hk⟩ := hd.layout
  have hy : Yields (rename o old new mv (some n)) m.layout fun _ _ => c.size = 0 := by
    refine .bind (.failOn fun _ => .bind (.bind (.inode fun c' hc' => .bind (.failOn fun hz =>
      Yields.returns.mono fun _ _ _ => Yields.returns.mono fun _ _ _ => ?_))))
    cases hc.symm.trans hc'
    exact Nat.eq_zero_of_not_pos fun hp => hz ⟨hk, hp⟩
  exact (Consistent.size_eq h hc hk hn).symm.trans (hy.returned rfl hr)

end Emmcfs
