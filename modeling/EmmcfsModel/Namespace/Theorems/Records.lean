import EmmcfsModel.Lib.AssocCount
import EmmcfsModel.Namespace.Layout

namespace Emmcfs.Metadata

variable {disk : Metadata} {k : NameKey} {r : NameRecord} {p : Place}

open Function (update)

section Insert

theorem entry_insert : entry { disk with catalog := disk.catalog.insert k r } =
    update disk.entry k (some (r.place k)) := by
  funext q
  by_cases h : q = k
  case pos => subst h; simp [entry]
  case neg => simp [entry, h, AList.lookup_insert_ne]

theorem node_insert : node { disk with catalog := disk.catalog.insert k r } =
    update disk.node (.record k) r.data? := by
  funext p
  cases p
  case slot     => simp [node]
  case record q =>
    by_cases h : q = k
    case pos => subst h; simp [node]
    case neg => simp [node, h, AList.lookup_insert_ne]

theorem linksOf_insert (h : k ∉ disk.catalog) :
    linksOf { disk with catalog := disk.catalog.insert k r } =
      update disk.linksOf (r.place k) (disk.linksOf (r.place k) + 1) := by
  funext p
  simp only [linksOf, AList.countP_insert _ h, Function.update_apply, decide_eq_true_eq]
  grind

theorem itemsOf_insert (h : k ∉ disk.catalog) :
    itemsOf { disk with catalog := disk.catalog.insert k r } =
      update disk.itemsOf k.parentId (disk.itemsOf k.parentId + 1) := by
  funext n
  simp only [itemsOf, AList.countP_insert _ h, Function.update_apply, decide_eq_true_eq]
  grind

end Insert

section Erase

theorem entry_erase : entry { disk with catalog := disk.catalog.erase k } =
    update disk.entry k none := by
  funext q
  by_cases h : q = k
  case pos => subst h; simp [entry]
  case neg => simp [entry, h, AList.lookup_erase_ne]

theorem node_erase : node { disk with catalog := disk.catalog.erase k } =
    update disk.node (.record k) none := by
  funext p
  cases p
  case slot     => simp [node]
  case record q =>
    by_cases h : q = k
    case pos => subst h; simp [node]
    case neg => simp [node, h, AList.lookup_erase_ne]

theorem linksOf_erase (h : disk.catalog.lookup k = some r) :
    linksOf { disk with catalog := disk.catalog.erase k } =
      update disk.linksOf (r.place k) (disk.linksOf (r.place k) - 1) := by
  funext p
  simp only [linksOf, AList.countP_erase _ h, Function.update_apply, decide_eq_true_eq]
  grind

theorem itemsOf_erase (h : disk.catalog.lookup k = some r) :
    itemsOf { disk with catalog := disk.catalog.erase k } =
      update disk.itemsOf k.parentId (disk.itemsOf k.parentId - 1) := by
  funext n
  simp only [itemsOf, AList.countP_erase _ h, Function.update_apply, decide_eq_true_eq]
  grind

end Erase

section Slots

variable {data : ObjectData}

theorem node_insertSlot : node { disk with hardLinks := disk.hardLinks.insert i data } =
    update disk.node (.slot i) (some data) := by
  funext p
  cases p
  case record => simp [node]
  case slot j =>
    by_cases h : j = i
    case pos => subst h; simp [node]
    case neg => simp [node, h, AList.lookup_insert_ne]

theorem node_eraseSlot : node { disk with hardLinks := disk.hardLinks.erase i } =
    update disk.node (.slot i) none := by
  funext p
  cases p
  case record => simp [node]
  case slot j =>
    by_cases h : j = i
    case pos => subst h; simp [node]
    case neg => simp [node, h, AList.lookup_erase_ne]

end Slots

section Counts

theorem entry_eq_some :
    disk.entry k = some p ↔ ∃ r, disk.catalog.lookup k = some r ∧ r.place k = p :=
  Option.map_eq_some_iff

theorem entry_eq_none : disk.entry k = none ↔ k ∉ disk.catalog := by
  rw [entry, Option.map_eq_none_iff, AList.lookup_eq_none]

theorem linksOf_eq_zero (h : ∀ k, disk.entry k ≠ some p) : disk.linksOf p = 0 := by
  rw [linksOf, List.countP_eq_zero]
  rintro ⟨k, r⟩ hr hp
  exact h k (entry_eq_some.mpr ⟨r, AList.mem_lookup_iff.mpr hr, of_decide_eq_true hp⟩)

theorem linksOf_pos (h : disk.entry k = some p) : 0 < disk.linksOf p := by
  obtain ⟨r, hr, hp⟩ := entry_eq_some.mp h
  exact List.countP_pos_iff.mpr ⟨⟨k, r⟩, AList.mem_lookup_iff.mp hr, decide_eq_true hp⟩

-- The names that lead to `p` are `k` and those on the volume without `k`.
theorem linksOf_eq_erase (h : disk.entry k = some p) :
    disk.linksOf p = linksOf { disk with catalog := disk.catalog.erase k } p + 1 := by
  obtain ⟨r, hr, hp⟩ := entry_eq_some.mp h
  have h0 := linksOf_pos h
  rw [linksOf_erase hr, hp, Function.update_self]
  omega

theorem counted (m : Mount) : m.layout.Counted where
  links_zero p h := linksOf_eq_zero h
  links_one p k hk h := by
    change linksOf _ _ = 1
    rw [linksOf_eq_erase hk, linksOf_eq_zero]
    intro q hq
    rw [entry_erase, Function.update_apply] at hq
    split at hq
    · cases hq
    · exact absurd (h q hq) ‹_›
  links_two p k q hk hq hne := by
    change 1 < linksOf _ _
    rw [linksOf_eq_erase hk]
    have hq' : entry { m.disk with catalog := m.disk.catalog.erase k } q = some p := by
      rw [entry_erase, Function.update_of_ne hne]
      exact hq
    exact Nat.succ_lt_succ (linksOf_pos hq')
  items_zero n h := by
    change itemsOf _ _ = 0
    rw [itemsOf, List.countP_eq_zero]
    rintro ⟨k, r⟩ hr hp
    have hk : m.disk.entry k = some (r.place k) :=
      entry_eq_some.mpr ⟨r, AList.mem_lookup_iff.mpr hr, rfl⟩
    exact h k (by simp [Mount.layout, hk]) (of_decide_eq_true hp)
  items_pos k hk := by
    obtain ⟨p, hp⟩ := Option.ne_none_iff_exists'.mp hk
    obtain ⟨r, hr, _⟩ := entry_eq_some.mp hp
    exact List.countP_pos_iff.mpr ⟨⟨k, r⟩, AList.mem_lookup_iff.mp hr, decide_eq_true rfl⟩

end Counts

section Layout

variable {m : Mount}

theorem layout_insert (h : k ∉ m.disk.catalog) :
    Mount.layout ⟨{ m.disk with catalog := m.disk.catalog.insert k r }, m.inodes⟩ =
      { m.layout.addName k (r.place k) with node := update m.layout.node (.record k) r.data? } := by
  simp only [Mount.layout, Layout.addName, entry_insert, node_insert, linksOf_insert h,
    itemsOf_insert h]

theorem layout_erase (h : m.disk.catalog.lookup k = some r) :
    Mount.layout ⟨{ m.disk with catalog := m.disk.catalog.erase k }, m.inodes⟩ =
      { m.layout.dropName k (r.place k) with node := update m.layout.node (.record k) none } := by
  simp only [Mount.layout, Layout.dropName, entry_erase, node_erase, linksOf_erase h,
    itemsOf_erase h]

theorem layout_insertSlot :
    Mount.layout ⟨{ m.disk with hardLinks := m.disk.hardLinks.insert i data }, m.inodes⟩ =
      { m.layout with node := update m.layout.node (.slot i) (some data) } := by
  rw [Mount.layout, node_insertSlot]
  rfl

theorem layout_eraseSlot :
    Mount.layout ⟨{ m.disk with hardLinks := m.disk.hardLinks.erase i }, m.inodes⟩ =
      { m.layout with node := update m.layout.node (.slot i) none } := by
  rw [Mount.layout, node_eraseSlot]
  rfl

-- A folder or file record that is written over leads to the same place.
theorem layout_overwrite (h : m.disk.catalog.lookup k = some (.object data)) :
    Mount.layout ⟨{ m.disk with catalog := m.disk.catalog.insert k (.object data') }, m.inodes⟩ =
      { m.layout with node := update m.layout.node (.record k) (some data') } := by
  have he : entry { m.disk with catalog := m.disk.catalog.insert k (.object data') } =
      m.disk.entry := by
    rw [entry_insert, Function.update_eq_self_iff]
    exact (entry_eq_some.mpr ⟨_, h, rfl⟩).symm
  have hl : linksOf { m.disk with catalog := m.disk.catalog.insert k (.object data') } =
      m.disk.linksOf := by
    funext p
    exact AList.countP_insert_of_eq _ h rfl
  have hi : itemsOf { m.disk with catalog := m.disk.catalog.insert k (.object data') } =
      m.disk.itemsOf := by
    funext n
    exact AList.countP_insert_of_eq _ h rfl
  rw [Mount.layout, he, hl, hi, node_insert]
  rfl

end Layout

end Emmcfs.Metadata
