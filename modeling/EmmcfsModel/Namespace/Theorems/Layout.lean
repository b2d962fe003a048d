import EmmcfsModel.Namespace.Layout

namespace Emmcfs

namespace VfsInode

variable {c : VfsInode}

@[simp, grind =]
theorem fillCattreeValue_objectId : (c.fillCattreeValue n).objectId = n := rfl

@[simp, grind =]
theorem fillCattreeValue_kind : (c.fillCattreeValue n).kind = c.kind := rfl

@[simp, grind =]
theorem fillCattreeValue_linksCount : (c.fillCattreeValue n).linksCount = c.nlink := rfl

@[simp, grind =]
theorem fillCattreeValue_totalItemsCount : (c.fillCattreeValue n).totalItemsCount = c.size := rfl

@[simp, grind =]
theorem place_size : VfsInode.place { c with size := x } = c.place := rfl

@[simp, grind =]
theorem place_nlink : VfsInode.place { c with nlink := x } = c.place := rfl

theorem place_eq_slot : c.place = some (.slot i) ↔ c.hlinkId = some i := by
  unfold place
  split <;> simp_all

theorem hlinkId_of_record (h : c.place = some (.record k)) : c.hlinkId = none := by
  unfold place at h
  split at h
  · cases h
  · assumption

end VfsInode

namespace Layout

variable {v v' : Layout} {L L' : Place → Nat} {C C' : Nat → Nat} {k k' : NameKey} {p p' : Place}
  {c c' : VfsInode} {d d' : ObjectData}

attribute [local grind =] Function.update_apply
  addName_entry addName_node addName_inodes dropName_entry dropName_node dropName_inodes
  addObject_entry addObject_node addObject_inodes relocate_entry relocate_node relocate_inodes
  touch_entry touch_inodes delete_entry delete_node delete_inodes

theorem touch_of_lt (hn : n < firstFileIno) :
    v.touch n c = { v with inodes := Function.update v.inodes n (some c) } := by
  simp [touch, hn]

theorem node_touch (hn : firstFileIno ≤ n) (hp : c.place = some p) :
    (v.touch n c).node = Function.update v.node p (some (c.fillCattreeValue n)) := by
  simp [touch, Nat.not_lt.mpr hn, hp]

theorem node_touch_comm (hp : firstFileIno ≤ n → c.place ≠ some p) :
    (touch { v with node := Function.update v.node p none } n c).node =
      Function.update (v.touch n c).node p none := by
  simp only [touch]
  split
  case isTrue => rfl
  case isFalse hn =>
    have := hp (Nat.not_lt.mp hn)
    split
    · exact Function.update_comm (by grind) ..
    · rfl

theorem flush_setInode :
    flush { v with inodes := Function.update v.inodes n (some c) } n = v.touch n c := by
  unfold flush touch
  simp only [Function.update_self]
  split
  · rfl
  · split <;> rfl

theorem flush_setInode_of_ne (hne : n ≠ m) :
    flush { v with
      inodes := Function.update (Function.update v.inodes n (some c)) m (some c') } n =
      { v.touch n c with inodes := Function.update (v.touch n c).inodes m (some c') } := by
  unfold flush touch
  simp only [Function.update_of_ne hne, Function.update_self]
  split
  · rfl
  · split <;> rfl

theorem flush_of_lt (hn : n < firstFileIno) : v.flush n = v := by
  simp [flush, hn]

theorem flush_of_place (hn : firstFileIno ≤ n) (hc : v.inodes n = some c)
    (hp : c.place = some p) :
    v.flush n = { v with node := Function.update v.node p (some (c.fillCattreeValue n)) } := by
  simp [flush, Nat.not_lt.mpr hn, hc, hp]

@[simp]
theorem flush_inodes : (v.flush n).inodes = v.inodes := by
  unfold flush
  split
  · rfl
  · split
    · rfl
    · split <;> rfl

-- Two inodes are changed one after the other and then written back; they may be the same.
theorem flush_flush (h : n = m → c.place = c'.place) :
    flush (flush { v with
      inodes := Function.update (Function.update v.inodes n (some c)) m (some c') } n) m =
      (v.touch n c).touch m c' := by
  by_cases hnm : n = m
  case pos =>
    subst hnm
    simp only [flush, touch, Function.update_self, Function.update_idem, h rfl]
    by_cases hn : n < firstFileIno
    case pos => simp [hn]
    case neg => cases hp : c'.place <;> simp [hn, hp]
  case neg =>
    simp only [flush, touch, Function.update_self, Function.update_of_ne hnm]
    by_cases hn : n < firstFileIno <;> by_cases hm : m < firstFileIno <;>
      cases c.place <;> cases hp : c'.place <;> simp [hn, hm, hp]

-- Every object of `v` is one of `v'`, of the same kind.
def Covers (v v' : Layout) : Prop :=
  ∀ p d, v.node p = some d →
    ∃ q e, v'.node q = some e ∧ e.objectId = d.objectId ∧ e.kind = d.kind

namespace Covers

theorem live (h : Covers v v') (hl : v.Live n) : v'.Live n := by
  obtain ⟨p, d, hd, he⟩ := hl
  obtain ⟨q, e, hq, ho, _⟩ := h p d hd
  exact ⟨q, e, hq, ho.trans he⟩

theorem hasParent (h : Covers v v') (hp : v.HasParent k) : v'.HasParent k := by
  cases hp
  case inl hp => exact .inl hp
  case inr hp =>
    obtain ⟨p, d, hd, he, hf⟩ := hp
    obtain ⟨q, e, hq, ho, hg⟩ := h p d hd
    exact .inr ⟨q, e, hq, ho.trans he, hg.trans hf⟩

theorem accounted (h : Covers v v') (h' : Covers v' v) (ha : v.Accounted)
    (hu : v'.used = v.used) (hf : v'.forks = v.forks) (he : v'.exttree = v.exttree)
    (ho : v'.orphans = v.orphans) : v'.Accounted where
  used n hn := by rw [hu, ha.used n hn]; exact ⟨h.live, h'.live⟩
  forks n hn := by
    obtain ⟨p, d, hd, hid, hk⟩ := ha.forks n (hf ▸ hn)
    obtain ⟨q, e, hq, hqd, hqk⟩ := h p d hd
    exact ⟨q, e, hq, hqd.trans hid, hqk ▸ hk⟩
  exttree n hn := by
    obtain ⟨p, d, hd, hid, hk⟩ := ha.exttree n (he ▸ hn)
    obtain ⟨q, e, hq, hqd, hqk⟩ := h p d hd
    exact ⟨q, e, hq, hqd.trans hid, hqk ▸ hk⟩
  orphans := ho.trans ha.orphans

end Covers

namespace Sound

theorem congr (h : v.Sound L C) (hL : ∀ p d, v.node p = some d → firstFileIno ≤ d.objectId →
    L p = L' p) (hC : ∀ p d, v.node p = some d → firstFileIno ≤ d.objectId → d.kind = .dir →
    C d.objectId = C' d.objectId) : v.Sound L' C' where
  links p d hd hn := hL p d hd hn ▸ h.links p d hd hn
  items p d hd hn hk := hC p d hd hn hk ▸ h.items p d hd hn hk
  __ := h

theorem addName (h : v.Sound L C) (hk : v.entry k = none) (hi : (v.node (.slot i)).isSome)
    (hp : v.HasParent k) : (v.addName k (.slot i)).Sound L C where
  records := by grind [h.records]
  held    := by grind [h.held]
  slots   := by grind [h.slots]
  parents := fun q hq => by
    by_cases hk : q = k
    · subst hk; exact hp
    · exact h.parents q (by grind)
  __      := h

theorem dropName (h : v.Sound L C) (hk : v.entry k = some (.slot i)) :
    (v.dropName k (.slot i)).Sound L C where
  records := by grind [h.records]
  held    := by grind [h.held]
  slots   := by grind [h.slots]
  parents := fun q hq => h.parents q (by grind)
  __      := h

theorem node_of_cached (h : v.Sound L C) (hc : v.inodes n = some c) (hn : firstFileIno ≤ n)
    (hp : c.place = some p) : v.node p = some (c.fillCattreeValue n) := by
  obtain ⟨q, hq, hd⟩ := h.cached n c hn hc
  cases hp.symm.trans hq
  exact hd

-- What is hard-linked is not a folder.
theorem ne_of_slot (h : v.Sound L C) (hn : firstFileIno ≤ n) (hc : v.inodes n = some c)
    (hp : c.place = some (.slot i)) (hd : v.inodes m = some c') (hf : c'.kind = .dir) : m ≠ n := by
  intro he
  have := h.folders i _ (h.node_of_cached hc hn hp)
  grind

theorem kind_of_forks (h : v.Sound L C) (hn : firstFileIno ≤ n) (hc : v.inodes n = some c)
    (hf : n ∈ v.forks) : c.kind = .reg ∨ c.kind = .lnk := by
  obtain ⟨p, hp, hd⟩ := h.cached n c hn hc
  obtain ⟨q, e, he, ho, hk⟩ := h.forks n hf
  grind [h.unique p q]

theorem kind_of_exttree (h : v.Sound L C) (hn : firstFileIno ≤ n) (hc : v.inodes n = some c)
    (hx : n ∈ v.exttree) : c.kind = .reg := by
  obtain ⟨p, hp, hd⟩ := h.cached n c hn hc
  obtain ⟨q, e, he, ho, hk⟩ := h.exttree n hx
  grind [h.unique p q]

theorem touch_low (h : v.Sound L C) (hn : n < firstFileIno) : (v.touch n c).Sound L C := by
  rw [touch_of_lt hn]
  exact {
    cached := fun m c hm hc => h.cached m c hm (by grind)
    __     := h }

theorem node_eq_none (h : v.Sound L C) (hk : v.entry k ≠ some (.record k)) :
    v.node (.record k) = none :=
  Option.not_isSome_iff_eq_none.mp fun hs => hk ((h.held k).mp hs)

-- New counts for an inode.
theorem touch (h : v.Sound L C) (hn : firstFileIno ≤ n) (hc : v.inodes n = some c)
    (hp : c.place = some p) (hp' : c'.place = c.place) (hk : c'.kind = c.kind)
    (h0 : 0 < c'.nlink) :
    (v.touch n c').Sound (Function.update L p c'.nlink) (Function.update C n c'.size) := by
  have hd := h.node_of_cached hc hn hp
  have hnode (q) :
      (v.touch n c').node q = if q = p then some (c'.fillCattreeValue n) else v.node q := by
    rw [node_touch hn (hp'.trans hp), Function.update_apply]
  have hto : Covers v (v.touch n c') := by
    intro q d hq
    by_cases hqp : q = p
    · exact ⟨p, c'.fillCattreeValue n, by grind, by grind, by grind⟩
    · exact ⟨q, d, by grind, rfl, rfl⟩
  have hof : Covers (v.touch n c') v := by
    intro q d hq
    by_cases hqp : q = p
    · exact ⟨p, _, hd, by grind, by grind⟩
    · exact ⟨q, d, by grind, rfl, rfl⟩
  exact {
    toAccounted := hto.accounted hof h.toAccounted rfl rfl rfl rfl
    records     := h.records
    held        := fun k => by have := h.held k; grind
    slots       := by grind [h.slots]
    unique      := by grind [h.unique]
    folders     := fun i e => by have := h.folders i; grind
    parents     := fun k hk => hto.hasParent (h.parents k hk)
    links       := by grind [h.links]
    items       := by grind [h.items, h.unique]
    cached      := by grind [h.cached, h.unique] }

theorem touch_size (h : v.Sound L C) (hc : v.inodes n = some c) :
    (v.touch n { c with size := x }).Sound L (Function.update C n x) := by
  by_cases hn : n < firstFileIno
  case pos =>
    exact (h.touch_low hn).congr (fun _ _ _ _ => rfl) fun _ d _ hd _ => by grind
  case neg =>
    have hn := Nat.not_lt.mp hn
    obtain ⟨p, hp, hd⟩ := h.cached n c hn hc
    have hl := h.links p _ hd hn
    have ht : (v.touch n { c with size := x }).Sound (Function.update L p c.nlink)
      (Function.update C n x) := h.touch hn hc hp rfl rfl hl.2
    exact ht.congr (fun q _ _ _ => by grind) fun _ _ _ _ _ => rfl

theorem touch_nlink (h : v.Sound L C) (hn : firstFileIno ≤ n) (hc : v.inodes n = some c)
    (hp : c.place = some p) (h0 : 0 < x) :
    (v.touch n { c with nlink := x }).Sound (Function.update L p x) C := by
  have hd := h.node_of_cached hc hn hp
  have ht : (v.touch n { c with nlink := x }).Sound (Function.update L p x)
    (Function.update C n c.size) := h.touch hn hc hp rfl rfl h0
  refine ht.congr (fun _ _ _ _ => rfl) fun q e hq ho hk => ?_
  have hi := h.items p _ hd hn
  have hp' : VfsInode.place { c with nlink := x } = some p := hp
  rw [node_touch hn hp'] at hq
  grind [h.unique]

-- The data of an object move from a record to another place, under a name that leads there.
theorem relocate (h : v.Sound L C) (hc : v.inodes n = some c) (hn : firstFileIno ≤ n)
    (hp : c.place = some (.record k)) (hk : k' = k ∨ v.entry k' = none) (hf : v.node p = none)
    (hp' : p = .record k' ∨ ∃ i, p = .slot i ∧ c.kind ≠ .dir) (hk' : v.HasParent k')
    (hc' : c'.place = some p) (hs : c'.fillCattreeValue n = c.fillCattreeValue n) :
    (v.relocate k k' p n c').Sound (Function.update L p (L (.record k))) C := by
  have hd := h.node_of_cached hc hn hp
  have hto : Covers v (v.relocate k k' p n c') := by
    intro q d hq
    by_cases hqk : q = .record k
    · exact ⟨p, c'.fillCattreeValue n, by grind, by grind, by grind⟩
    · exact ⟨q, d, by grind, rfl, rfl⟩
  have hof : Covers (v.relocate k k' p n c') v := by
    intro q d hq
    by_cases hqp : q = p
    · exact ⟨.record k, _, hd, by grind, by grind⟩
    · exact ⟨q, d, by grind, rfl, rfl⟩
  exact {
    toAccounted := hto.accounted hof h.toAccounted rfl rfl rfl rfl
    records     := by grind [h.records]
    held        := fun k => by have := h.held k; grind
    slots       := by grind [h.slots]
    unique      := by grind [h.unique]
    folders     := fun i e => by have := h.folders i; grind
    parents     := fun q hq => by
      by_cases hqk : q = k'
      · exact hto.hasParent (hqk ▸ hk')
      · exact hto.hasParent (h.parents q (by grind))
    links       := by grind [h.links]
    items       := by grind [h.items, h.unique]
    cached      := by grind [h.cached, h.unique] }

theorem addObject (h : v.Sound L C) (hk : v.entry k = none) (hn : firstFileIno ≤ n)
    (hu : n ∉ v.used) (hp : v.HasParent k) (hc : c.place = some (.record k))
    (h0 : 0 < c.nlink) : (v.addObject k n c).Sound (Function.update L (.record k) c.nlink)
      (Function.update C n c.size) := by
  have hl (p d) (hd : v.node p = some d) : d.objectId ≠ n :=
    fun ho => hu ((h.used n hn).mpr ⟨p, d, hd, ho⟩)
  have hr : v.node (.record k) = none := h.node_eq_none (by simp [hk])
  have hto : Covers v (v.addObject k n c) := by
    intro q d hq
    exact ⟨q, d, by grind, rfl, rfl⟩
  exact {
    used        := fun m hm => by
      rw [addObject_used, Finset.mem_insert, h.used m hm]
      constructor
      case mp =>
        intro hm
        cases hm
        case inl hm => exact ⟨.record k, c.fillCattreeValue n, by grind, hm.symm⟩
        case inr hm => exact hto.live hm
      case mpr =>
        intro hm
        obtain ⟨q, d, hq, ho⟩ := hm
        by_cases hqk : q = .record k
        · exact .inl (by grind)
        · exact .inr ⟨q, d, by grind, ho⟩
    forks       := fun m hm => by
      obtain ⟨q, d, hq, ho⟩ := h.forks m hm
      exact ⟨q, d, by grind, ho⟩
    exttree     := fun m hm => by
      obtain ⟨q, d, hq, ho⟩ := h.exttree m hm
      exact ⟨q, d, by grind, ho⟩
    orphans     := h.orphans
    records     := by grind [h.records]
    held        := fun k => by have := h.held k; grind
    slots       := by grind [h.slots]
    unique      := by grind [h.unique]
    folders     := fun i e => by have := h.folders i; grind
    parents     := fun q hq => by
      by_cases hqk : q = k
      · exact hto.hasParent (hqk ▸ hp)
      · exact hto.hasParent (h.parents q (by grind))
    links       := by grind [h.links]
    items       := by grind [h.items, h.unique]
    cached      := by grind [h.cached, h.unique] }

-- An object goes, with its inode number and its blocks, when no name leads to its place any more
-- and no name has it as its parent.
theorem delete_of (h : v.Sound L C) (hd : v.node p = some d)
    (he : ∀ k, v'.entry k = if v.entry k = some p then none else v.entry k)
    (hk : d.kind = .dir → ∀ k, v'.entry k ≠ none → k.parentId ≠ d.objectId)
    (hv : ∀ q, v'.node q = v.node q) (hi : ∀ n, v'.inodes n = v.inodes n)
    (hu : v'.used = v.used) (hf : v'.forks = v.forks) (ht : v'.exttree = v.exttree)
    (hr : v'.orphans = v.orphans) :
    (v'.delete p d.objectId).Sound L C := by
  have ho (q e) (hq : v.node q = some e) : e.objectId = d.objectId ↔ q = p :=
    ⟨h.unique q _ e d hq hd, by grind⟩
  exact {
    used        := fun m hm => by
      rw [delete_used, hu, Finset.mem_erase, h.used m hm]
      constructor
      case mp =>
        rintro ⟨hm, q, e, hq, he⟩
        exact ⟨q, e, by grind, he⟩
      case mpr =>
        rintro ⟨q, e, hq, he⟩
        exact ⟨by grind, q, e, by grind, he⟩
    forks       := fun m hm => by
      rw [delete_forks, hf, Finset.mem_erase] at hm
      obtain ⟨hm, hf⟩ := hm
      obtain ⟨q, e, hq, he⟩ := h.forks m hf
      exact ⟨q, e, by grind, he⟩
    exttree     := fun m hm => by
      rw [delete_exttree, ht, Finset.mem_erase] at hm
      obtain ⟨hm, hf⟩ := hm
      obtain ⟨q, e, hq, he⟩ := h.exttree m hf
      exact ⟨q, e, by grind, he⟩
    orphans     := hr.trans h.orphans
    records     := by grind [h.records]
    held        := fun k => by have := h.held k; grind
    slots       := fun k i => by have := h.slots k i; grind
    unique      := by grind [h.unique]
    folders     := fun i e => by have := h.folders i; grind
    parents     := fun k hn => by
      have hn : v'.entry k ≠ none := hn
      cases h.parents k (by grind)
      case inl hp => exact .inl hp
      case inr hp =>
        obtain ⟨q, e, hq, ho, hk⟩ := hp
        exact .inr ⟨q, e, by grind, ho, hk⟩
    links       := by grind [h.links]
    items       := by grind [h.items]
    cached      := by grind [h.cached] }

theorem deleteSlot (h : v.Sound L C) (hd : v.node (.slot i) = some d)
    (he : ∀ k, v.entry k ≠ some (.slot i)) : (v.delete (.slot i) d.objectId).Sound L C :=
  h.delete_of hd (fun k => (if_neg (he k)).symm) (fun hk => (h.folders i d hd hk).elim)
    (fun _ => rfl) (fun _ => rfl) rfl rfl rfl rfl

theorem deleteRecord (h : v.Sound L C) (hd : v.node (.record k) = some d)
    (hk : d.kind = .dir → ∀ k, v.entry k ≠ none → k.parentId ≠ d.objectId) :
    ((v.dropName k (.record k)).delete (.record k) d.objectId).Sound L C := by
  refine h.delete_of hd (fun q => ?_) (fun hf q hq => hk hf q ?_)
    (fun _ => rfl) (fun _ => rfl) rfl rfl rfl rfl
  case refine_1 => grind [h.records, (h.held k).mp (by simp [hd])]
  case refine_2 => grind

end Sound

end Layout

end Emmcfs
