import EmmcfsModel.Lib.Run
import EmmcfsModel.Catalog.Readdir
import EmmcfsModel.Catalog.Theorems.Key

namespace Emmcfs

open KeyOrder

variable {fold : BitVec 8 → BitVec 8} {ino : BitVec 64} {recs : CatalogRecords}
  {a b c k : CattreeKey} {accepts : Nat → Bool}

theorem cattreeCmp_self : cattreeCmp fold k k = 0 := by
  have h : nameDiff fold k.name k.name = 0#8 := by
    induction k.name
    case nil          => rfl
    case cons ch n ih => simp [nameDiff, ih]
  simp [cattreeCmp, h]

-- Between two folders only the folders are compared.
theorem cattreeCmp_congr_parent (hb : b.parentId = c.parentId) (ha : a.parentId ≠ c.parentId) :
    cattreeCmp fold a b = cattreeCmp fold a c := by
  simp [cattreeCmp, hb, ha]

theorem cattreeCmp_firstKey (h : a.parentId = ino) :
    cattreeCmp fold a (CatalogRecords.firstKey ino) = a.name.length := by
  have hn : nameDiff fold a.name [] = 0#8 := by cases a.name <;> rfl
  simp [cattreeCmp, CatalogRecords.firstKey, h, hn]

-- A catalog whose records are in the order of a comparison function that is an order on them, and
-- on the key with which the first child of a folder is looked for.
structure Listable (fold : BitVec 8 → BitVec 8) (ino : BitVec 64) (recs : CatalogRecords) : Prop where
  sorted : recs.Pairwise (cattreeCmp fold · · < 0)
  spread : CattreeKey.Spread fold ({k | k ∈ recs} ∪ {CatalogRecords.firstKey ino})

namespace Listable

theorem orderedBy (h : Listable fold ino recs) :
    OrderedBy (CattreeKey.folded fold) (cattreeCmp fold)
      ({k | k ∈ recs} ∪ {CatalogRecords.firstKey ino}) :=
  (cattreeCmp_orderedBy_iff fold _).mpr h.spread

theorem pos_of_neg (h : Listable fold ino recs) (ha : a ∈ recs) (hb : b ∈ recs)
    (hlt : cattreeCmp fold a b < 0) : 0 < cattreeCmp fold b a := by
  have hs := h.orderedBy.swap b (.inl hb) a (.inl ha)
  rw [Int.sign_eq_neg_one_of_neg hlt] at hs
  exact Int.sign_eq_one_iff_pos.mp hs

-- The records of a folder are next to each other.
theorem between (h : Listable fold ino recs) (ha : a ∈ recs) (hb : b ∈ recs)
    (hab : cattreeCmp fold a b < 0) (hbc : cattreeCmp fold b c < 0) (hp : a.parentId = c.parentId) :
    b.parentId = c.parentId := by
  by_contra hne
  have hpos := h.pos_of_neg ha hb hab
  rw [cattreeCmp_congr_parent hp hne] at hpos
  omega

theorem nodup (h : Listable fold ino recs) : recs.Nodup :=
  h.sorted.imp fun hlt he => by
    rw [he, cattreeCmp_self] at hlt
    omega

theorem filter (h : Listable fold ino recs) (p : CattreeKey → Bool) :
    Listable fold ino (recs.filter p) where
  sorted := h.sorted.sublist List.filter_sublist
  spread := by
    rw [← cattreeCmp_orderedBy_iff]
    have ho := h.orderedBy
    have hsub : ({k | k ∈ recs.filter p} ∪ {CatalogRecords.firstKey ino} : Set CattreeKey) ⊆
        {k | k ∈ recs} ∪ {CatalogRecords.firstKey ino} :=
      Set.union_subset_union_left _ fun k hk => (List.mem_filter.mp hk).left
    exact ⟨fun x hx y hy => ho.tie x (hsub hx) y (hsub hy),
      fun x hx y hy => ho.swap x (hsub hx) y (hsub hy),
      fun x hx y hy z hz => ho.trans x (hsub hx) y (hsub hy) z (hsub hz)⟩

section Around

variable {xs ys zs l : CatalogRecords}

theorem below (h : Listable fold ino (xs ++ k :: ys)) (ha : a ∈ xs) : cattreeCmp fold a k < 0 :=
  (List.pairwise_append.mp h.sorted).right.right a ha k (by simp)

theorem above (h : Listable fold ino (xs ++ k :: ys)) (hb : b ∈ ys) : cattreeCmp fold k b < 0 :=
  (List.pairwise_cons.mp (List.pairwise_append.mp h.sorted).right.left).left b hb

theorem after (h : Listable fold ino (xs ++ k :: ys)) (hb : b ∈ ys) : 0 < cattreeCmp fold b k :=
  h.pos_of_neg (by simp) (by simp [hb]) (h.above hb)

theorem countP_around {p : CattreeKey → Bool} (hx : ∀ a ∈ xs, p a = true)
    (hy : ∀ b ∈ ys, p b = false) :
    (xs ++ k :: ys).countP p = xs.length + if p k then 1 else 0 := by
  have hy : ys.countP p = 0 := List.countP_eq_zero.mpr fun b hb => by simp [hy b hb]
  rw [List.countP_append, List.countP_eq_length.mpr hx, List.countP_cons, hy, Nat.zero_add]

-- A record is found at its place.
theorem btreeFind_eq (h : Listable fold ino (xs ++ k :: ys)) :
    CatalogRecords.btreeFind fold (xs ++ k :: ys) k = .ok xs.length := by
  rw [CatalogRecords.btreeFind, if_neg (by simp), countP_around
    (fun a ha => by simpa using (h.below ha).le) (fun b hb => by simpa using h.after hb)]
  simp [cattreeCmp_self]

-- The first child of a folder is found.
theorem findFirstCatalogChild_eq (h : Listable fold ino (xs ++ k :: ys)) (hk : k.parentId = ino)
    (hx : ∀ a ∈ xs, a.parentId ≠ ino) :
    CatalogRecords.findFirstCatalogChild fold (xs ++ k :: ys) ino = .ok xs.length := by
  have hother : ∀ a, a.parentId ≠ ino →
      cattreeCmp fold a (CatalogRecords.firstKey ino) = cattreeCmp fold a k :=
    fun a ha => cattreeCmp_congr_parent hk.symm (hk ▸ ha)
  have hbelow : ∀ a ∈ xs, decide (cattreeCmp fold a (CatalogRecords.firstKey ino) ≤ 0) = true := by
    intro a ha
    have := h.below ha
    rw [hother a (hx a ha), decide_eq_true_eq]
    omega
  have habove : ∀ b ∈ ys, decide (cattreeCmp fold b (CatalogRecords.firstKey ino) ≤ 0) = false := by
    intro b hb
    have hpos := h.after hb
    rw [decide_eq_false_iff_not, not_le]
    by_cases hp : b.parentId = ino
    case pos =>
      -- only the first name of a folder can be empty
      rw [cattreeCmp_firstKey hp]
      have hn : b.name ≠ [] := by
        intro hn
        simp only [cattreeCmp, hp, hk, hn, nameDiff, ne_eq, not_true_eq_false, if_false,
          List.length_nil] at hpos
        omega
      exact_mod_cast List.length_pos_iff.mpr hn
    case neg => rwa [hother b hp]
  rw [CatalogRecords.findFirstCatalogChild, CatalogRecords.btreeFind, if_neg (by simp),
    countP_around hbelow habove, cattreeCmp_firstKey hk]
  have hat : (xs ++ k :: ys)[xs.length]? = some k := by simp
  change (if _ then _ else _ : Except Errno Nat) = _
  by_cases hn : ((k.name.length : Int) ≤ 0) ∨ xs = []
  case pos =>
    have hpos : xs.length + (if decide ((k.name.length : Int) ≤ 0) then 1 else 0) - 1 =
        xs.length := by
      cases hn
      case inl hn =>
        rw [decide_eq_true hn]
        rfl
      case inr hn =>
        subst hn
        split <;> rfl
    rw [hpos, hat, if_pos (by rw [Option.map_some, hk])]
    rfl
  case neg =>
    simp only [not_or] at hn
    have hlen := List.length_pos_iff.mpr hn.right
    have hlast : (xs ++ k :: ys)[xs.length - 1]? = some (xs.getLast hn.right) := by
      rw [List.getElem?_append_left (by omega), List.getLast_eq_getElem]
      exact List.getElem?_eq_getElem (by omega)
    have hne := hx _ (List.getLast_mem hn.right)
    have hpos : xs.length + (if decide ((k.name.length : Int) ≤ 0) then 1 else 0) - 1 =
        xs.length - 1 := by
      rw [decide_eq_false hn.left]
      rfl
    rw [hpos, hlast, if_neg (by simpa using hne), Nat.sub_add_cancel hlen, hat,
      if_pos (by rw [Option.map_some, hk])]
    rfl

-- A folder without children has none to be found.
theorem findFirstCatalogChild_error (fold : BitVec 8 → BitVec 8) (hx : ∀ a ∈ recs, a.parentId ≠ ino) :
    ∃ err, CatalogRecords.findFirstCatalogChild fold recs ino = .error err := by
  rw [CatalogRecords.findFirstCatalogChild, CatalogRecords.btreeFind]
  split
  case isTrue  => exact ⟨_, rfl⟩
  case isFalse =>
    have hnone : ∀ i : Nat, recs[i]?.map (·.parentId) ≠ some ino := by
      intro i hi
      obtain ⟨a, ha, hp⟩ := Option.map_eq_some_iff.mp hi
      exact hx a (List.mem_of_getElem? ha) hp
    refine ⟨.enoent, ?_⟩
    change (if _ then _ else _ : Except Errno Nat) = _
    rw [if_neg (hnone _), if_neg (hnone _)]
    rfl

-- The loop lists the records of the folder up to one that filldir refuses, or all of them.
theorem scanLoop_eq (accepts : Nat → Bool) (n : Nat) (ys : CatalogRecords) (hk : k.parentId = ino) :
    (∃ l x zs, scanLoop ino accepts n k ys = (l.map .child, .refused x) ∧
      k :: ys = l ++ x :: zs ∧ x.parentId = ino ∧ ∀ c ∈ l, c.parentId = ino) ∨
    (∃ l zs, scanLoop ino accepts n k ys = (l.map .child, .finished) ∧
      k :: ys = l ++ zs ∧ (∀ c ∈ l, c.parentId = ino) ∧ l ≠ [] ∧
      ∀ c ∈ zs.head?, c.parentId ≠ ino) := by
  induction ys generalizing n k
  case nil =>
    rw [scanLoop, if_neg (not_not.mpr hk)]
    split
    case isTrue  => exact .inl ⟨[], k, [], rfl, rfl, hk, nofun⟩
    case isFalse => exact .inr ⟨[k], [], rfl, rfl, by simpa using hk, by simp, by simp⟩
  case cons next ys ih =>
    rw [scanLoop, if_neg (not_not.mpr hk)]
    split
    case isTrue  => exact .inl ⟨[], k, next :: ys, rfl, rfl, hk, nofun⟩
    case isFalse =>
      by_cases hnext : next.parentId = ino
      case neg =>
        refine .inr ⟨[k], next :: ys, ?_, rfl, by simpa using hk, by simp, by simpa using hnext⟩
        simp [hnext]
      case pos =>
        simp only [if_neg (not_not.mpr hnext)]
        cases ih (n + 1) hnext
        case inl h =>
          obtain ⟨l, x, zs, hl, he, hx, hall⟩ := h
          refine .inl ⟨k :: l, x, zs, by rw [hl]; rfl, by rw [he]; rfl, hx, ?_⟩
          exact List.forall_mem_cons.mpr ⟨hk, hall⟩
        case inr h =>
          obtain ⟨l, zs, hl, he, hall, -, hz⟩ := h
          refine .inr ⟨k :: l, zs, by rw [hl]; rfl, by rw [he]; rfl, ?_, by simp, hz⟩
          exact List.forall_mem_cons.mpr ⟨hk, hall⟩

-- Nothing of the folder comes after the end of its records.
theorem notMem_of_head (h : Listable fold ino (xs ++ k :: ys)) (hk : k.parentId = ino)
    (he : k :: ys = l ++ zs) (hl : l ≠ []) (hz : ∀ c ∈ zs.head?, c.parentId ≠ ino) :
    ∀ c ∈ zs, c.parentId ≠ ino := by
  cases zs
  case nil => nofun
  case cons d zs =>
    have hd : d.parentId ≠ ino := hz d rfl
    intro c hc hp
    cases l
    case nil => exact hl rfl
    case cons k' l =>
      obtain ⟨rfl, rfl⟩ := List.cons.inj he
      have hdc : d ∈ l ++ d :: zs := by simp
      cases List.mem_cons.mp hc
      case inl hc => exact hd (hc ▸ hp)
      case inr hc =>
        have hlt : cattreeCmp fold d c < 0 := by
          have hs := (List.pairwise_cons.mp (List.pairwise_append.mp h.sorted).right.left).right
          exact (List.pairwise_cons.mp (List.pairwise_append.mp hs).right.left).left c hc
        exact hd ((h.between (by simp) (by simp) (h.above hdc) hlt (hk.trans hp.symm)).trans hp)

end Around

end Listable

section Children

variable {xs ys l names : CatalogRecords} {file : DirFile} {n : Nat}

-- What a call of readdir that goes on at a record of the folder does.
theorem readChildren_eq (accepts : Nat → Bool) (n : Nat) (h : Listable fold ino (xs ++ k :: ys)) (hk : k.parentId = ino)
    (hpos : startPos fold ino (xs ++ k :: ys) file.privateData = .ok xs.length) :
    ∃ l, (readChildren fold ino (xs ++ k :: ys) accepts true n file).listed = l.map .child ∧
      ((∃ x zs, (readChildren fold ino (xs ++ k :: ys) accepts true n file).file =
          { file with privateData := some x } ∧ k :: ys = l ++ x :: zs ∧ x.parentId = ino) ∨
        (∃ zs, (readChildren fold ino (xs ++ k :: ys) accepts true n file).file =
          { file with privateData := none } ∧ k :: ys = l ++ zs ∧ ∀ c ∈ zs, c.parentId ≠ ino)) := by
  simp only [readChildren, hpos, List.drop_left]
  cases Listable.scanLoop_eq accepts n ys hk
  case inl hs =>
    obtain ⟨l, x, zs, hl, he, hx, -⟩ := hs
    refine ⟨l, ?_, .inl ⟨x, zs, ?_, he, hx⟩⟩
    all_goals simp [hl, finishScan]
  case inr hs =>
    obtain ⟨l, zs, hl, he, -, hne, hz⟩ := hs
    refine ⟨l, ?_, .inr ⟨zs, ?_, he, h.notMem_of_head hk he hne hz⟩⟩
    all_goals simp [hl, finishScan]

-- The names listed so far are those of the folder's records in `xs`, each once.
def Counted (ino : BitVec 64) (recs xs names : CatalogRecords) : Prop :=
  ∀ c ∈ recs, c.parentId = ino → names.count c = if c ∈ xs then 1 else 0

theorem count_of_nodup (h : l.Nodup) : l.count c = if c ∈ l then 1 else 0 := by
  split
  case isTrue hc  => exact List.count_eq_one_of_mem h hc
  case isFalse hc => exact List.count_eq_zero_of_not_mem hc

theorem Counted.append (hnd : (xs ++ ys).Nodup) (hl : ys = l ++ zs)
    (h : Counted ino (xs ++ ys) xs names) : Counted ino (xs ++ ys) (xs ++ l) (names ++ l) := by
  intro c hc hp
  have hsub : (xs ++ l).Nodup := by
    rw [hl, ← List.append_assoc] at hnd
    exact (List.nodup_append.mp hnd).left
  rw [List.count_append, h c hc hp, ← count_of_nodup (List.nodup_append.mp hsub).left,
    ← List.count_append, count_of_nodup hsub]

end Children

namespace DirScan

variable {s s' : DirScan} {e : ScanEvent}

-- Where a scan is: before its first call, at a saved record, or at the end.
inductive Progress (fold : BitVec 8 → BitVec 8) (ino : BitVec 64) (s : DirScan) : Prop
  | fresh (file : s.file = ⟨0, none⟩) (listed : s.listed = [])
  | saved (names xs ys : CatalogRecords) (k : CattreeKey) (file : s.file = ⟨2, some k⟩)
    (listed : s.listed = .dot :: .dotDot :: names.map .child) (recs : s.recs = xs ++ k :: ys)
    (parent : k.parentId = ino) (counted : Counted ino s.recs xs names)
  | ended (names : CatalogRecords) (file : s.file = ⟨2, none⟩)
    (listed : s.listed = .dot :: .dotDot :: names.map .child)
    (counted : Counted ino s.recs s.recs names)

-- The events after which a scan is still complete and without repetition: filldir takes the dot
-- entries, the copy of a key gets its memory, and the name of the saved key is not removed.
def Keeps (fold : BitVec 8 → BitVec 8) (s : DirScan) : ScanEvent → Prop
  | .readdir accepts allocates =>
    allocates = true ∧ (s.file.fPos = 0 → accepts 0 = true ∧ accepts 1 = true)
  | .unlink key => ∀ k ∈ s.file.privateData, cattreeCmp fold k key ≠ 0

theorem Progress.unlink (h : s.Progress fold ino) (hk : s.Keeps fold (.unlink key)) :
    (s.step fold ino (.unlink key)).Progress fold ino := by
  cases h
  case fresh file listed => exact .fresh file listed
  case saved names xs ys k file listed recs parent counted =>
    have hk : cattreeCmp fold k key ≠ 0 := hk k (by rw [file]; rfl)
    refine .saved names (xs.filter (cattreeCmp fold · key ≠ 0))
      (ys.filter (cattreeCmp fold · key ≠ 0)) k file listed ?_ parent fun c hc hp => ?_
    case refine_1 => simp [step, recs, hk]
    case refine_2 =>
      obtain ⟨hc, hne⟩ := List.mem_filter.mp hc
      rw [counted c hc hp]
      simp only [List.mem_filter, hne, and_true]
  case ended names file listed counted =>
    refine .ended names file listed fun c hc hp => ?_
    rw [if_pos hc, counted c (List.mem_filter.mp hc).left hp, if_pos (List.mem_filter.mp hc).left]

-- A call that goes on at the record `k`.
theorem Progress.of_children {xs ys : CatalogRecords} (names : CatalogRecords)
    (accepts : Nat → Bool) (n : Nat) (file : DirFile) (h : Listable fold ino (xs ++ k :: ys)) (hk : k.parentId = ino) (hf : file.fPos = 2)
    (hpos : startPos fold ino (xs ++ k :: ys) file.privateData = .ok xs.length)
    (hc : Counted ino (xs ++ k :: ys) xs names)
    (hrecs : s.recs = xs ++ k :: ys)
    (hfile : s.file = (readChildren fold ino (xs ++ k :: ys) accepts true n file).file)
    (hlisted : s.listed = .dot :: .dotDot :: names.map .child ++
      (readChildren fold ino (xs ++ k :: ys) accepts true n file).listed) :
    s.Progress fold ino := by
  obtain ⟨l, hl, hend⟩ := readChildren_eq accepts n h hk hpos
  have hlisted : s.listed = .dot :: .dotDot :: (names ++ l).map .child := by
    rw [hlisted, hl, List.map_append]
    rfl
  cases hend
  case inl hend =>
    obtain ⟨x, zs, hx, he, hp⟩ := hend
    refine .saved (names ++ l) (xs ++ l) zs x ?_ hlisted ?_ hp (hrecs ▸ hc.append h.nodup he)
    case refine_1 => rw [hfile, hx, hf]
    case refine_2 => rw [hrecs, he, List.append_assoc]
  case inr hend =>
    obtain ⟨zs, hx, he, hz⟩ := hend
    refine .ended (names ++ l) (by rw [hfile, hx, hf]) hlisted ?_
    rw [hrecs]
    intro c hmem hp
    have hin : c ∈ xs ++ l := by
      rw [he, ← List.append_assoc] at hmem
      exact (List.mem_append.mp hmem).resolve_right fun hc => hz c hc hp
    rw [hc.append h.nodup he c hmem hp, if_pos hin, if_pos hmem]

theorem Progress.readdir (h : s.Progress fold ino) (hl : Listable fold ino s.recs)
    (hk : s.Keeps fold (.readdir accepts allocates)) :
    (s.step fold ino (.readdir accepts allocates)).Progress fold ino := by
  obtain ⟨rfl, hdots⟩ := hk
  cases h
  case fresh file listed =>
    obtain ⟨h0, h1⟩ := hdots (by rw [file])
    have hresult : Emmcfs.readdir fold ino s.recs accepts true s.file =
        (readChildren fold ino s.recs accepts true 2 ⟨2, none⟩ |>.after .dotDot |>.after .dot) := by
      simp [Emmcfs.readdir, file, h0, h1]
    cases hfind : s.recs.find? (·.parentId = ino)
    case none =>
      have hnone : ∀ a ∈ s.recs, a.parentId ≠ ino := by simpa using List.find?_eq_none.mp hfind
      obtain ⟨err, herr⟩ := Listable.findFirstCatalogChild_error fold hnone
      have hchildren : readChildren fold ino s.recs accepts true 2 ⟨2, none⟩ =
          ⟨.error err, ⟨2, none⟩, []⟩ := by
        simp [readChildren, startPos, herr]
      refine .ended [] ?_ ?_ fun c hc hp => absurd hp (hnone c hc)
      all_goals simp [step, hresult, hchildren, ReaddirResult.after, listed]
    case some k =>
      obtain ⟨hp, xs, ys, hrecs, hx⟩ := List.find?_eq_some_iff_append.mp hfind
      have hp : k.parentId = ino := by simpa using hp
      have hx : ∀ a ∈ xs, a.parentId ≠ ino := by simpa using hx
      rw [hrecs] at hl hresult
      refine of_children [] accepts 2 ⟨2, none⟩ hl hp rfl
        (hl.findFirstCatalogChild_eq hp hx) ?_ hrecs ?_ ?_
      case refine_1 => exact fun c _ hc => by rw [if_neg fun hmem => hx c hmem hc]; rfl
      all_goals simp [step, hrecs, hresult, ReaddirResult.after, listed]
  case saved names xs ys k file listed recs parent counted =>
    have hresult : Emmcfs.readdir fold ino s.recs accepts true s.file =
        readChildren fold ino (xs ++ k :: ys) accepts true 0 ⟨2, some k⟩ := by
      simp [Emmcfs.readdir, file, recs]
    rw [recs] at hl counted
    refine of_children names accepts 0 ⟨2, some k⟩ hl parent rfl hl.btreeFind_eq counted recs ?_ ?_
    all_goals simp [step, hresult, listed]
  case ended names file listed counted =>
    have hresult : Emmcfs.readdir fold ino s.recs accepts true s.file = ⟨.ok (), s.file, []⟩ := by
      simp [Emmcfs.readdir, file]
    refine .ended names (Eq.trans ?_ file) (Eq.trans ?_ listed) counted
    all_goals simp [step, hresult]

theorem Progress.step (h : s.Progress fold ino) (hl : Listable fold ino s.recs)
    (hk : s.Keeps fold e) :
    (s.step fold ino e).Progress fold ino ∧ Listable fold ino (s.step fold ino e).recs := by
  cases e
  case readdir accepts allocates => exact ⟨h.readdir hl hk, hl⟩
  case unlink key                => exact ⟨h.unlink hk, hl.filter _⟩

theorem count_child (names : CatalogRecords) (k : CattreeKey) :
    (.dot :: .dotDot :: names.map .child : List DirEntry).count (.child k) = names.count k := by
  simp only [List.count_cons, beq_iff_eq, reduceCtorEq, if_false, Nat.add_zero]
  exact List.count_map_of_injective names DirEntry.child (fun _ _ => DirEntry.child.inj) k

-- Three names in the directory 10, after a record of the root directory.
def threeNames : CatalogRecords :=
  [⟨1, [0x64], by decide⟩, ⟨10, [0x61], by decide⟩, ⟨10, [0x62], by decide⟩, ⟨10, [0x63], by decide⟩]

theorem listable_threeNames : Listable id 10 threeNames where
  sorted := by decide
  spread := by
    have hmem : ∀ k, k ∈ ({k | k ∈ threeNames} ∪ {CatalogRecords.firstKey 10} : Set CattreeKey) ↔
        k ∈ CatalogRecords.firstKey 10 :: threeNames := by
      simp [or_comm]
    rw [← cattreeCmp_orderedBy_iff]
    constructor
    all_goals
      simp only [hmem]
      decide

end DirScan

end Emmcfs
