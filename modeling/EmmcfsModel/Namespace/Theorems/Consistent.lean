import EmmcfsModel.Namespace.Theorems.Layout

namespace Emmcfs.Layout

variable {v v' : Layout} {L : Place → Nat} {C : Nat → Nat} {k k' : NameKey} {p : Place} {c cd : VfsInode}

attribute [local grind =] Function.update_apply
  addName_entry addName_inodes addName_links addName_items
  dropName_entry dropName_inodes dropName_links dropName_items
  addObject_entry addObject_inodes addObject_links addObject_items
  relocate_entry relocate_node relocate_inodes relocate_links relocate_items
  touch_entry touch_inodes touch_links touch_items
  delete_entry delete_node delete_inodes delete_links delete_items

namespace Consistent

theorem hasParent (h : v.Sound L C) (hd : v.inodes n = some cd) (hf : cd.kind = .dir)
    (hn : k.parentId = n) : v.HasParent k := by
  by_cases hl : n < firstFileIno
  case pos => exact .inl (hn ▸ hl)
  case neg =>
    obtain ⟨p, _, hp⟩ := h.cached n cd (Nat.not_lt.mp hl) hd
    exact .inr ⟨p, _, hp, hn.symm, hf⟩

-- The number of items that a folder in memory has.
theorem size_eq (h : v.Sound L C) (hd : v.inodes n = some cd) (hf : cd.kind = .dir)
    (hn : firstFileIno ≤ n) : cd.size = C n := by
  obtain ⟨p, _, hp⟩ := h.cached n cd hn hd
  exact h.items p _ hp hn hf

theorem nlink_eq (h : v.Sound L C) (hc : v.inodes n = some c) (hn : firstFileIno ≤ n)
    (hp : c.place = some p) : c.nlink = L p :=
  (h.links p _ (h.node_of_cached hc hn hp) hn).1

theorem create (h : v.Consistent) (hk : v.entry k = none) (hn : firstFileIno ≤ n)
    (hu : n ∉ v.used) (hd : v.inodes k.parentId = some cd) (hf : cd.kind = .dir)
    (hl : v.links (.record k) = 0) (hi : v.items n = 0) :
    ((v.addObject k n ⟨kind, 1, 0, none, k.parentId, some k.name⟩).touch k.parentId
      { cd with size := cd.size + 1 }).Consistent := by
  have hne : k.parentId ≠ n := by
    intro he
    obtain ⟨p, _, hp⟩ := h.cached n cd hn (he ▸ hd)
    exact hu ((h.used n hn).mpr ⟨p, _, hp, rfl⟩)
  have h₁ := h.addObject hk hn hu (hasParent h hd hf rfl)
    (c := ⟨kind, 1, 0, none, k.parentId, some k.name⟩) rfl Nat.one_pos
  have h₂ := h₁.touch_size (n := k.parentId) (c := cd) (x := cd.size + 1) (by grind)
  have hs := size_eq h hd hf
  exact h₂.congr (by grind) (by grind)

-- A first link: the data move to a slot, and the name leads there.
theorem toSlot (h : v.Consistent) (hn : firstFileIno ≤ n) (hc : v.inodes n = some c)
    (hp : c.place = some (.record k)) (hk : c.kind ≠ .dir) (hf : v.node (.slot i) = none)
    (h₁ : v.links (.record k) = 1) (h₀ : v.links (.slot i) = 0) (hi : 0 < v.items k.parentId) :
    (v.relocate k k (.slot i) n { c with name := none, hlinkId := some i }).Consistent := by
  have hd := h.node_of_cached hc hn hp
  have he : v.entry k = some (.record k) := (h.held k).mp (by simp [hd])
  have hr : (v.relocate k k (.slot i) n { c with name := none, hlinkId := some i }).Sound
      (Function.update v.links (.slot i) (v.links (.record k))) v.items :=
    h.relocate hc hn hp (.inl rfl) hf (.inr ⟨i, rfl, hk⟩) (h.parents k (by simp [he])) rfl rfl
  exact hr.congr (by grind) (by grind)

theorem addLink (h : v.Consistent) (hn : firstFileIno ≤ n) (hc : v.inodes n = some c)
    (hp : c.place = some (.slot i)) (hk : v.entry k = none) (hd : v.inodes k.parentId = some cd)
    (hf : cd.kind = .dir) :
    (((v.addName k (.slot i)).touch k.parentId { cd with size := cd.size + 1 }).touch n
      { c with nlink := c.nlink + 1 }).Consistent := by
  have hs := h.node_of_cached hc hn hp
  have hne := h.ne_of_slot hn hc hp hd hf
  have h₁ := h.addName (i := i) hk (by simp [hs]) (hasParent h hd hf rfl)
  have h₂ := h₁.touch_size (n := k.parentId) (c := cd) (x := cd.size + 1) hd
  have h₃ := h₂.touch_nlink (n := n) (c := c) (p := .slot i) (x := c.nlink + 1) hn (by grind) hp
    (by omega)
  have hl := nlink_eq h hc hn hp
  have hz := size_eq h hd hf
  exact h₃.congr (by grind) (by grind)

-- A name goes, and others lead to the inode.
theorem dropLink (h : v.Consistent) (hn : firstFileIno ≤ n) (hc : v.inodes n = some c)
    (hp : c.place = some (.slot i)) (hk : v.entry k = some (.slot i))
    (hd : v.inodes k.parentId = some cd) (hf : cd.kind = .dir) (hl : 1 < c.nlink) :
    (((v.dropName k (.slot i)).touch k.parentId { cd with size := cd.size - 1 }).touch n
      { c with nlink := c.nlink - 1 }).Consistent := by
  have hne := h.ne_of_slot hn hc hp hd hf
  have h₁ := h.dropName hk
  have h₂ := h₁.touch_size (n := k.parentId) (c := cd) (x := cd.size - 1) hd
  have h₃ := h₂.touch_nlink (n := n) (c := c) (p := .slot i) (x := c.nlink - 1) hn (by grind) hp
    (by omega)
  have hl := nlink_eq h hc hn hp
  have hz := size_eq h hd hf
  exact h₃.congr (by grind) (by grind)

-- The last name of a hard-linked inode goes.
theorem dropSlot (h : v.Consistent) (hn : firstFileIno ≤ n) (hc : v.inodes n = some c)
    (hp : c.place = some (.slot i)) (hk : v.entry k = some (.slot i))
    (hd : v.inodes k.parentId = some cd) (hf : cd.kind = .dir)
    (hl : ∀ q, v.entry q = some (.slot i) → q = k) :
    (((v.dropName k (.slot i)).touch k.parentId { cd with size := cd.size - 1 }).delete
      (.slot i) n).Consistent := by
  have hne := h.ne_of_slot hn hc hp hd hf
  have h₁ := h.dropName hk
  have h₂ := h₁.touch_size (n := k.parentId) (c := cd) (x := cd.size - 1) hd
  have hs₂ := h₂.node_of_cached (n := n) (c := c) (p := .slot i) (by grind) hn hp
  have h₃ := h₂.deleteSlot hs₂ (by grind)
  have hz := size_eq h hd hf
  exact h₃.congr (by grind) (by grind)

-- The name of an inode that is not hard-linked goes; a folder is empty then.
theorem dropRecord (h : v.Consistent) (hn : firstFileIno ≤ n) (hc : v.inodes n = some c)
    (hp : c.place = some (.record k)) (hd : v.inodes k.parentId = some cd) (hf : cd.kind = .dir)
    (hi : c.kind = .dir → ∀ q, v.entry q ≠ none → q.parentId ≠ n) :
    (((v.touch k.parentId { cd with size := cd.size - 1 }).dropName k (.record k)).delete
      (.record k) n).Consistent := by
  have hs := h.node_of_cached hc hn hp
  have he : v.entry k = some (.record k) := (h.held k).mp (by simp [hs])
  have hne : k.parentId ≠ n := by
    intro hkn
    have := hi (by grind) k (by simp [he])
    exact this hkn
  have h₁ := h.touch_size (n := k.parentId) (c := cd) (x := cd.size - 1) hd
  have hs₁ := h₁.node_of_cached (n := n) (c := c) (p := .record k) (by grind) hn hp
  have h₂ := h₁.deleteRecord hs₁ (by grind)
  have hz := size_eq h hd hf
  exact h₂.congr (by grind) (by grind)

-- A name has moved from one folder to another, or within its folder, whose inodes follow one after
-- the other.
theorem moveItems (h : v.Sound v.links C) (hd : v.inodes n = some cd) (hf : cd.kind = .dir)
    (he : (v.touch n { cd with size := cd.size - 1 }).inodes m = some ce) (hg : ce.kind = .dir)
    (hv : ∀ x, v.items x = Function.update (Function.update C n (C n - 1)) m
      (Function.update C n (C n - 1) m + 1) x) :
    ((v.touch n { cd with size := cd.size - 1 }).touch m
      { ce with size := ce.size + 1 }).Consistent := by
  have h₁ := h.touch_size (n := n) (c := cd) (x := cd.size - 1) hd
  have h₂ := h₁.touch_size (n := m) (c := ce) (x := ce.size + 1) he
  have hz := size_eq h hd hf
  have hw := size_eq h₁ he hg
  exact h₂.congr (fun _ _ _ _ => rfl) (by grind)

theorem moveRecord (h : v.Consistent) (hn : firstFileIno ≤ n) (hc : v.inodes n = some c)
    (hp : c.place = some (.record k)) (hk : v.entry k' = none) (hk' : v.HasParent k')
    (h₁ : v.links (.record k) = 1) (h₀ : v.links (.record k') = 0) :
    (v.relocate k k' (.record k') n
      { c with parentId := k'.parentId, name := some k'.name }).Sound
    (v.relocate k k' (.record k') n
      { c with parentId := k'.parentId, name := some k'.name }).links v.items := by
  have hl : c.hlinkId = none := by
    unfold VfsInode.place at hp
    split at hp
    · cases hp
    · assumption
  have hp' : VfsInode.place { c with parentId := k'.parentId, name := some k'.name } =
      some (.record k') := by
    simp [VfsInode.place, hl]
  have hr := h.relocate hc hn hp (.inr hk) (h.node_eq_none (by simp [hk])) (.inl rfl) hk' hp' rfl
  exact hr.congr (by grind) (fun _ _ _ _ _ => rfl)

theorem moveHlink (h : v.Consistent) (hi : v.entry k = some (.slot i)) (hk : v.entry k' = none)
    (hk' : v.HasParent k') :
    ((v.addName k' (.slot i)).dropName k (.slot i)).Sound
      ((v.addName k' (.slot i)).dropName k (.slot i)).links v.items := by
  have h₁ := h.addName hk (h.slots k i hi) hk'
  have h₂ := h₁.dropName (k := k) (i := i) (by grind)
  exact h₂.congr (by grind) (fun _ _ _ _ _ => rfl)

end Consistent

-- The names that lead to the place of an object, and those in a folder.
theorem Counted.links_record (h : v.Counted) (hs : v.Sound L C)
    (hk : v.entry k = some (.record k)) : v.links (.record k) = 1 :=
  h.links_one _ k hk fun q hq => (hs.records q k hq).symm

theorem Counted.links_record_zero (h : v.Counted) (hs : v.Sound L C) (hk : v.entry k = none) :
    v.links (.record k) = 0 :=
  h.links_zero _ fun q hq => by grind [hs.records q k hq]

theorem Counted.links_slot_zero (h : v.Counted) (hs : v.Sound L C)
    (hi : v.node (.slot i) = none) : v.links (.slot i) = 0 :=
  h.links_zero _ fun k hk => by simpa [hi] using hs.slots k i hk

theorem Counted.no_items (h : v.Counted) (hn : v.items n = 0) (hk : v.entry k ≠ none) :
    k.parentId ≠ n := by
  intro he
  have := h.items_pos k hk
  rw [he, hn] at this
  exact Nat.lt_irrefl 0 this

theorem Change.consistent (hv : v.Change v') (h : v.Consistent) (hc : v.Counted) :
    v'.Consistent := by
  cases hv
  case create k n kind cd hk hn hu hd hf =>
    refine h.create hk hn hu hd hf (hc.links_record_zero h hk) (hc.items_zero n fun q hq hp => ?_)
    cases h.parents q hq
    case inl hl => omega
    case inr hl =>
      obtain ⟨p, d, hd, ho, _⟩ := hl
      exact hu ((h.used n hn).mpr ⟨p, d, hd, ho.trans hp⟩)
  case toSlot n k i c hn hi hp hk hf =>
    have he : v.entry k = some (.record k) :=
      (h.held k).mp (by simp [h.node_of_cached hi hn hp])
    exact h.toSlot hn hi hp hk hf (hc.links_record h he) (hc.links_slot_zero h hf)
      (hc.items_pos k (by simp [he]))
  case addLink hn hi hp hk hd hf => exact h.addLink hn hi hp hk hd hf
  case dropLink hn hi hp hl hk hd hf => exact h.dropLink hn hi hp hk hd hf hl
  case dropSlot n i k c cd hn hi hp hl hk hd hf =>
    refine h.dropSlot hn hi hp hk hd hf fun q hq => ?_
    have := Consistent.nlink_eq h hi hn hp
    have := hc.links_two _ k q hk hq
    grind
  case dropRecord hn hi hp hz hd hf =>
    refine h.dropRecord hn hi hp hd hf fun hk q hq => hc.no_items ?_ hq
    rw [← Consistent.size_eq h hi hk hn, hz hk]
  case moveRecord n k k' w c cd ce hn hi hp hk hk' hw hd hf he hg =>
    have hek : v.entry k = some (.record k) :=
      (h.held k).mp (by simp [h.node_of_cached hi hn hp])
    subst hw
    refine Consistent.moveItems (h.moveRecord hn hi hp hk hk' (hc.links_record h hek)
      (hc.links_record_zero h hk)) hd hf he hg fun x => ?_
    rfl
  case moveHlink k i k' w cd ce hi hk hk' hw hd hf he hg =>
    have := hc.items_pos k (by simp [hi])
    subst hw
    exact Consistent.moveItems (h.moveHlink hi hk hk') hd hf he hg fun x => by grind
  case evict n hn =>
    exact { cached := fun m c hm hc => h.cached m c hm (by grind), __ := h }
  case load n p c hp hd =>
    exact { cached := fun m c hm hc => by grind [h.cached], __ := h }
  case fork p d hd hk =>
    exact { forks := fun n hn => by grind [h.forks], __ := h }
  case extent p d hd hk =>
    exact { exttree := fun n hn => by grind [h.exttree], __ := h }

end Emmcfs.Layout
