import EmmcfsModel.Namespace.Theorems.Consistent

namespace Emmcfs.Layout

variable {v v' v'' : Layout} {k k' : NameKey} {p : Place} {c c' : VfsInode}

-- An inode number that is still in use has kept its blocks and its slot.
structure Retains (v v' : Layout) : Prop where
  forks   : ∀ n ∈ v'.used, n ∈ v.forks → n ∈ v'.forks
  exttree : ∀ n ∈ v'.used, n ∈ v.exttree → n ∈ v'.exttree
  slots   : ∀ i d, v.node (.slot i) = some d → d.objectId ∈ v'.used →
    ∃ e, v'.node (.slot i) = some e ∧ e.objectId = d.objectId

theorem Retains.trans (h : Retains v v') (h' : Retains v' v'') (hu : v''.used ⊆ v'.used) :
    Retains v v'' where
  forks n hn hf   := h'.forks n hn (h.forks n (hu hn) hf)
  exttree n hn hf := h'.exttree n hn (h.exttree n (hu hn) hf)
  slots i d hd hn := by
    obtain ⟨e, he, ho⟩ := h.slots i d hd (hu hn)
    obtain ⟨e', he', ho'⟩ := h'.slots i e he (ho ▸ hn)
    exact ⟨e', he', ho'.trans ho⟩

-- Nothing happens to the blocks and the slots.
theorem Retains.of_eq (hf : v'.forks = v.forks) (he : v'.exttree = v.exttree)
    (hs : ∀ i, v'.node (.slot i) = v.node (.slot i)) : Retains v v' where
  forks _ _       := by simp [hf]
  exttree _ _     := by simp [he]
  slots i d hd _  := ⟨d, (hs i).trans hd, rfl⟩

-- The inodes in memory are at their places.
def Placed (v : Layout) : Prop :=
  ∀ n c p, firstFileIno ≤ n → v.inodes n = some c → c.place = some p →
    ∃ d, v.node p = some d ∧ d.objectId = n

theorem Sound.placed (h : v.Sound L C) : v.Placed :=
  fun n c _ hn hc hp => ⟨c.fillCattreeValue n, h.node_of_cached hc hn hp, rfl⟩

theorem Placed.touch (h : v.Placed) (hc : v.inodes n = some c) (hp : c'.place = c.place) :
    (v.touch n c').Placed ∧ Retains v (v.touch n c') := by
  by_cases hn : n < firstFileIno
  case pos =>
    rw [touch_of_lt hn]
    exact ⟨fun m e q hm he => h m e q hm (by grind [Function.update_apply]),
      .of_eq rfl rfl fun _ => rfl⟩
  case neg =>
    have hn := Nat.not_lt.mp hn
    cases he : c.place
    case none =>
      have ht : (v.touch n c').node = v.node := by simp [Layout.touch, hp, he]
      refine ⟨fun m e q hm hi hq => ?_, .of_eq rfl rfl fun _ => by rw [ht]⟩
      rw [ht]
      grind [Placed, touch_inodes, Function.update_apply]
    case some p =>
      have ht (q) : (v.touch n c').node q =
          if q = p then some (c'.fillCattreeValue n) else v.node q := by
        rw [node_touch hn (hp.trans he), Function.update_apply]
      obtain ⟨d, hd, ho⟩ := h n c p hn hc he
      refine ⟨fun m e q hm hi hq => ?_, ⟨fun _ _ => id, fun _ _ => id, fun i e hi _ => ?_⟩⟩
      · rw [ht]
        grind [Placed, touch_inodes, Function.update_apply]
      · rw [ht]
        grind

theorem Retains.touch_touch (hv : Retains v v') (h : v'.Placed) (hc : v'.inodes n = some c)
    (hp : c'.place = c.place) (he : (v'.touch n c').inodes m = some e)
    (hp' : e'.place = e.place) : Retains v ((v'.touch n c').touch m e') := by
  obtain ⟨h₁, r₁⟩ := h.touch hc hp
  obtain ⟨_, r₂⟩ := h₁.touch he hp'
  exact (hv.trans r₁ (Finset.Subset.refl _)).trans r₂ (Finset.Subset.refl _)

-- A slot is given up together with the number of the inode in it.
theorem Retains.delete (hv : Retains v v')
    (hp : ∀ i d, p = .slot i → v'.node p = some d → d.objectId = n) :
    Retains v (v'.delete p n) := by
  refine hv.trans ⟨fun m hm => ?_, fun m hm => ?_, fun i d hd hm => ⟨d, ?_, rfl⟩⟩
    (Finset.erase_subset n v'.used)
  · exact Finset.mem_erase_of_ne_of_mem (Finset.ne_of_mem_erase hm)
  · exact Finset.mem_erase_of_ne_of_mem (Finset.ne_of_mem_erase hm)
  · have hne := Finset.ne_of_mem_erase hm
    grind [delete_node, Function.update_apply]

theorem Retains.addName : Retains v (v.addName k p) :=
  .of_eq rfl rfl fun _ => rfl

theorem Retains.dropName : Retains v (v.dropName k p) :=
  .of_eq rfl rfl fun _ => rfl

theorem Retains.touch (hv : Retains v v') (h : v'.Placed) (hc : v'.inodes n = some c)
    (hp : c'.place = c.place) : Retains v (v'.touch n c') :=
  hv.trans (h.touch hc hp).2 (Finset.Subset.refl _)

theorem Change.retains (hv : v.Change v') (h : v.Consistent) (hc : v.Counted) :
    v.Retains v' := by
  cases hv
  case create k n kind cd hk hn hu hd hf =>
    have h₁ := h.addObject (c := ⟨kind, 1, 0, none, k.parentId, some k.name⟩) hk hn hu
      (Consistent.hasParent h hd hf rfl) rfl Nat.one_pos
    refine Retains.touch (.of_eq rfl rfl fun i => by simp) h₁.placed (?_ : _ = some cd) rfl
    have := h.cached n cd hn
    have := h.used n hn
    grind [addObject_inodes, Function.update_apply, Live]
  case toSlot n k i c hn hi hp hk hf =>
    exact ⟨fun _ _ => id, fun _ _ => id,
      fun j d hd _ => ⟨d, by grind [relocate_node, Function.update_apply], rfl⟩⟩
  case addLink n i k c cd hn hi hp hk hd hf =>
    refine Retains.touch_touch .addName h.placed hd rfl (?_ : _ = some c) rfl
    have := h.folders i _ (h.node_of_cached hi hn hp)
    grind [touch_inodes, addName_inodes, Function.update_apply]
  case dropLink n i k c cd hn hi hp hl hk hd hf =>
    refine Retains.touch_touch .dropName h.placed hd rfl (?_ : _ = some c) rfl
    have := h.folders i _ (h.node_of_cached hi hn hp)
    grind [touch_inodes, dropName_inodes, Function.update_apply]
  case dropSlot n i k c cd hn hi hp hl hk hd hf =>
    have hs := h.node_of_cached hi hn hp
    have r : Retains v ((v.dropName k (.slot i)).touch k.parentId
      { cd with size := cd.size - 1 }) := Retains.dropName.touch h.placed hd rfl
    refine r.delete fun j d _ hd => ?_
    obtain ⟨e, he, ho⟩ := r.slots i _ hs ((h.used n hn).mpr ⟨_, _, hs, rfl⟩)
    cases he.symm.trans hd
    exact ho
  case dropRecord n k c cd hn hi hp hz hd hf =>
    have r : Retains v (v.touch k.parentId { cd with size := cd.size - 1 }) :=
      .touch (.of_eq rfl rfl fun _ => rfl) h.placed hd rfl
    exact (r.trans .dropName (Finset.Subset.refl _)).delete nofun
  case moveRecord n k k' w c cd ce hn hi hp hk hk' hw hd hf he hg =>
    have hek : v.entry k = some (.record k) :=
      (h.held k).mp (by simp [h.node_of_cached hi hn hp])
    have h₁ := h.moveRecord hn hi hp hk hk' (hc.links_record h hek) (hc.links_record_zero h hk)
    subst hw
    exact Retains.touch_touch (.of_eq rfl rfl fun i => by simp) h₁.placed hd rfl he rfl
  case moveHlink k i k' w cd ce hi hk hk' hw hd hf he hg =>
    subst hw
    exact Retains.touch_touch (.of_eq rfl rfl fun _ => rfl) h.placed hd rfl he rfl
  case evict n hn => exact .of_eq rfl rfl fun _ => rfl
  case load n p c hp hd => exact .of_eq rfl rfl fun _ => rfl
  case fork p d hd hk =>
    exact ⟨fun _ _ => Finset.mem_insert_of_mem, fun _ _ => id, fun i d hd _ => ⟨d, hd, rfl⟩⟩
  case extent p d hd hk =>
    exact ⟨fun _ _ => id, fun _ _ => Finset.mem_insert_of_mem, fun i d hd _ => ⟨d, hd, rfl⟩⟩

end Emmcfs.Layout
