import EmmcfsModel.Btree.Reader
import EmmcfsModel.Btree.Theorems.Raw

namespace Emmcfs

open Code Store

section Keys

variable {fold : BitVec 8 → BitVec 8} {d : Store} {a n record : Nat}

theorem mem_nameReads (h : span ∈ (nameReads fold d a name).2) :
    span.1 + span.2 ≤ a + name.length := by
  induction name generalizing a
  case nil => cases h
  case cons c name ih =>
    rw [nameReads] at h
    rw [List.length_cons]
    split at h
    case isTrue =>
      rw [List.mem_singleton.mp h]
      omega
    case isFalse =>
      cases List.mem_cons.mp h
      case inl he =>
        subst he
        simp
      case inr hm =>
        have := ih hm
        omega

-- A name is compared to its end with itself.
theorem nameReads_readAt :
    (nameReads fold d a (readAt d a n)).2 = (List.range' a n).map fun ch => (ch, 1) := by
  induction n generalizing a
  case zero => rfl
  case succ n ih =>
    rw [readAt_succ, nameReads, if_neg (by simp), List.range'_succ, List.map_cons, ← ih]

theorem nameDiff_nil : nameDiff fold name [] = 0#8 := by
  cases name <;> rfl

theorem nameReads_fst :
    (nameReads fold d a (name.take n)).1 = nameDiff fold (readAt d a n) name := by
  induction name generalizing a n
  case nil =>
    rw [List.take_nil, nameDiff_nil]
    rfl
  case cons c name ih =>
    cases n
    case zero   => rfl
    case succ n =>
      rw [List.take_succ_cons, nameReads, readAt_succ, nameDiff]
      split
      case isTrue  => rfl
      case isFalse => exact ih

-- The key that stands at an address, with as much of its name as a key can have.
def keyAt (d : Store) (record : Nat) : CattreeKey where
  parentId       := parentIdAt d record
  name           := readAt d (unicodeStrAt record) (min (nameLengthAt d record) catMaxName)
  name_length_le := by
    rw [length_readAt]
    exact min_le_right ..

-- The comparison of the bytes of a key is that of the key.
theorem cattreeReads_fst (h : nameLengthAt d record ≤ catMaxName) (key : CattreeKey) :
    (cattreeReads fold d record key).1 = cattreeCmp fold (keyAt d record) key := by
  rw [cattreeReads, cattreeCmp]
  by_cases hp : parentIdAt d record ≠ key.parentId
  case pos => rw [if_pos hp, keyAt, if_pos hp]
  case neg =>
    have hn : (keyAt d record).name = readAt d (unicodeStrAt record) (nameLengthAt d record) :=
      congrArg (readAt d (unicodeStrAt record)) (min_eq_left h)
    have hlen := key.name_length_le
    rw [catMaxName] at h hlen
    rw [if_neg hp, if_neg (by exact hp), hn, length_readAt, ← nameReads_fst]
    exact if_congr .rfl rfl (Int.bmod_eq_of_le (by omega) (by omega))

theorem mem_cattreeReads (h : span ∈ (cattreeReads fold d record key).2) :
    span.1 + span.2 ≤ unicodeStrAt record + min (nameLengthAt d record) catMaxName := by
  rw [cattreeReads] at h
  split at h
  case isTrue =>
    rw [List.mem_singleton.mp h, unicodeStrAt]
    omega
  case isFalse =>
    simp only [List.mem_cons] at h
    obtain rfl | rfl | h := h
    case inl    => simp only [unicodeStrAt]; omega
    case inr.inl => simp only [unicodeStrAt]; omega
    case inr.inr =>
      have hl := mem_nameReads h
      have := key.name_length_le
      rw [List.length_take] at hl
      omega

-- The names of equal keys are read to the end.
theorem cattreeReads_keyAt : (cattreeReads fold d record (keyAt d record)).2 =
    (record + 14, 8) :: (record + 22, 4) ::
      (List.range' (unicodeStrAt record) (min (nameLengthAt d record) catMaxName)).map (·, 1) := by
  rw [cattreeReads, if_neg (by simp [keyAt]), ← @nameReads_readAt fold d]
  simp [keyAt, List.take_of_length_le]

def cattreeKeys (caseInsensitive : Bool) : KeyReader CattreeKey where
  compFn              := cattreeReads (if caseInsensitive then tolower else id)
  keyEnd d record     := unicodeStrAt record + min (nameLengthAt d record) catMaxName
  generic_le _ record := by
    rw [unicodeStrAt]
    omega
  reach d record size := by
    constructor
    case mp =>
      intro h
      have hk := h (keyAt d record)
      rw [cattreeReads_keyAt] at hk
      have hl := hk (record + 22, 4) (by simp)
      generalize min (nameLengthAt d record) catMaxName = n at hk
      cases n
      case zero   => exact hl
      case succ n => exact hk (unicodeStrAt record + n, 1) (by simp)
    case mpr => exact fun h _ _ hs => (mem_cattreeReads hs).trans h

def exttreeKeys : KeyReader ExttreeKey where
  compFn              := exttreeReads
  keyEnd _ record     := record + sizeofExttreeKey
  generic_le _ record := by
    rw [sizeofExttreeKey]
    omega
  reach d record size := by
    rw [sizeofExttreeKey]
    constructor
    case mp =>
      intro h
      refine h ⟨ofLe (readAt d (record + 12) 8), 0⟩ (record + 20, 8) ?_
      rw [exttreeReads, if_neg (by simp [iblockDoesNotMatter])]
      simp
    case mpr =>
      intro h key span hs
      rw [exttreeReads] at hs
      split at hs <;> simp only [List.mem_cons, List.not_mem_nil, or_false] at hs
      case isTrue  => rw [hs]; omega
      case isFalse => cases hs <;> (subst_vars; simp only; omega)

end Keys

namespace NodeReader

variable {tree : BtreeOps κ} {keys : KeyReader κ} {s₀ s : NodeReader} {d : Store} {key : κ}
variable {id i : Nat}

-- Only the reads and the requests left have changed, and the reads are inside.
structure Calm (size : Nat) (s₀ s : NodeReader) : Prop where
  nodes  : s.nodes = s₀.nodes
  bitmap : s.bitmap = s₀.bitmap
  inside : ∀ span ∈ s.reads, span.1 + span.2 ≤ size

theorem Calm.log (h : Calm size s₀ s) (hs : ∀ span ∈ spans, span.1 + span.2 ≤ size) :
    Calm size s₀ (s.log spans) where
  nodes  := h.nodes
  bitmap := h.bitmap
  inside := List.forall_mem_append.mpr ⟨hs, h.inside⟩

theorem wp_read_iff : wp (read id addr n) Q E H s ↔
    Q (ofLe (readAt (s.nodes id) addr n)) (s.log [(addr, n)]) :=
  .rfl

theorem wp_read (h : Calm size s₀ s) (ha : addr + n ≤ size) :
    wp (read id addr n) (fun v s' => v = ofLe (readAt (s₀.nodes id) addr n) ∧ Calm size s₀ s')
      E H s := by
  rw [wp_read_iff, h.nodes]
  exact ⟨rfl, h.log (List.forall_mem_singleton.mpr ha)⟩

theorem wp_field (h : Calm tree.nodeSizeBytes s₀ s) (f : DescrField) :
    wp (field id f) (fun v s' => v = f.get (s₀.nodes id) ∧ Calm tree.nodeSizeBytes s₀ s')
      E H s := by
  refine wp_read h (f.size_le.trans ?_)
  exact (by decide : sizeofNodeDescr ≤ 4096).trans tree.node_size_ge

theorem wp_getOffset (h : Calm tree.nodeSizeBytes s₀ s) (hm : tree.isMountFinished = false) :
    wp (getOffset tree id i) (fun v s' => (RawBtree.IsOffsetCorrect tree v →
      bnodeFirstOffset + sizeofBtOff * (i + 1) ≤ tree.nodeSizeBytes ∧
      v = slotOf tree.nodeSizeBytes (s₀.nodes id) i) ∧ Calm tree.nodeSizeBytes s₀ s') E H s := by
  rw [getOffset, wp_onFail, wp_bind, onBtree, wp_zoom, RawBtree.getOffsetAddr]
  by_cases hf : bnodeFirstOffset + sizeofBtOff * (i + 1) ≤ tree.nodeSizeBytes
  case pos =>
    rw [if_pos hf, wp_pure]
    have ha : RawBtree.slotAddr tree.nodeSizeBytes i + sizeofBtOff ≤ tree.nodeSizeBytes := by
      rw [RawBtree.slotAddr, bnodeFirstOffset, sizeofBtOff] at *
      omega
    exact wp_imp (wp_read h ha) (fun _ _ hv => ⟨fun _ => ⟨hf, hv.left⟩, hv.right⟩)
  case neg =>
    rw [if_neg hf, RawBtree.faultOrBug, hm]
    refine ⟨fun hc => ?_, h⟩
    exact absurd (hc.right.trans_le tree.node_size_le) (by decide)

-- get_record gives an entry of the node for an index below recs_count.
theorem wp_getRecord (h : Calm tree.nodeSizeBytes s₀ s) (hm : tree.isMountFinished = false) :
    wp (getRecord tree id i) (fun r s' => r = slotOf tree.nodeSizeBytes (s₀.nodes id) i ∧
      (i < DescrField.recsCount.get (s₀.nodes id) → IsEntry tree.nodeSizeBytes (s₀.nodes id) i) ∧
      Calm tree.nodeSizeBytes s₀ s') (fun _ _ => True) False s := by
  rw [getRecord, wp_bind]
  refine wp_imp (wp_field h .recsCount) (fun count s₁ ⟨_, h₁⟩ => ?_)
  rw [wp_ite]
  refine ⟨fun _ => trivial, fun _ => ?_⟩
  rw [wp_bind]
  refine wp_imp (wp_getOffset h₁ hm) (fun v s₂ ⟨hv, h₂⟩ => ?_)
  rw [wp_ite]
  refine ⟨fun hc => ?_, fun _ => trivial⟩
  obtain ⟨hf, he⟩ := hv hc
  exact ⟨he, fun hi => ⟨hi, hf, he ▸ hc⟩, h₂⟩

theorem wp_compFn (h : Calm tree.nodeSizeBytes s₀ s)
    (hk : keys.keyEnd (s₀.nodes id) record ≤ tree.nodeSizeBytes) :
    wp (compFn keys id record key) (fun v s' => v = (keys.compFn (s₀.nodes id) record key).1 ∧
      Calm tree.nodeSizeBytes s₀ s') E H s := by
  rw [compFn, wp_bind, wp_get, wp_bind, wp_modify, wp_pure, h.nodes]
  exact ⟨rfl, h.log ((keys.reach ..).mpr hk key)⟩

-- The keys of the entries of a node are inside.
def KeysInside (tree : BtreeOps κ) (keys : KeyReader κ) (d : Store) : Prop :=
  ∀ i, IsEntry tree.nodeSizeBytes d i →
    keys.keyEnd d (slotOf tree.nodeSizeBytes d i) ≤ tree.nodeSizeBytes

-- A record and its comparison, as each step of the search takes them.
theorem wp_compRecord (h : Calm tree.nodeSizeBytes s₀ s) (hm : tree.isMountFinished = false)
    (hk : KeysInside tree keys (s₀.nodes id)) (hi : i < DescrField.recsCount.get (s₀.nodes id))
    {f : Nat → Int → ReadCode α}
    (hf : ∀ s', IsEntry tree.nodeSizeBytes (s₀.nodes id) i → Calm tree.nodeSizeBytes s₀ s' →
      wp (f (slotOf tree.nodeSizeBytes (s₀.nodes id) i)
        (keys.compFn (s₀.nodes id) (slotOf tree.nodeSizeBytes (s₀.nodes id) i) key).1) Q
        (fun _ _ => True) False s') :
    wp (getRecord tree id i >>= fun r => compFn keys id r key >>= f r) Q (fun _ _ => True)
      False s := by
  rw [wp_bind]
  refine wp_imp (wp_getRecord h hm) ?_
  rintro r s₁ ⟨rfl, he, h₁⟩
  rw [wp_bind]
  refine wp_imp (wp_compFn h₁ (hk i (he hi))) ?_
  rintro v s₂ ⟨rfl, h₂⟩
  exact hf s₂ (he hi) h₂

-- A place holds the record of an entry.
def HoldsEntry (tree : BtreeOps κ) (d : Store) (place : RecordPlace) : Prop :=
  ∃ i, IsEntry tree.nodeSizeBytes d i ∧ place.record = some (slotOf tree.nodeSizeBytes d i)

-- The search ends, with the record of an entry: if there is none before the one in the middle, the
-- search starts at the first record, which is not above the key.
theorem wp_searchLoop (h : Calm tree.nodeSizeBytes s₀ s) (hm : tree.isMountFinished = false)
    (hk : KeysInside tree keys (s₀.nodes id))
    (hl : last ≤ DescrField.recsCount.get (s₀.nodes id)) (hfuel : last - first < fuel)
    (hcur : HoldsEntry tree (s₀.nodes id) cur)
    (hprev : HoldsEntry tree (s₀.nodes id) prev ∨ first = 0 ∧ 0 < last ∧
      (keys.compFn (s₀.nodes id) (slotOf tree.nodeSizeBytes (s₀.nodes id) 0) key).1 ≤ 0) :
    wp (searchLoop tree keys id key fuel first last cur cmpRes prev)
      (fun place s' => HoldsEntry tree (s₀.nodes id) place ∧ Calm tree.nodeSizeBytes s₀ s')
      (fun _ _ => True) False s := by
  induction fuel generalizing first last cur cmpRes prev s
  case zero => omega
  case succ fuel ih =>
    rw [searchLoop, wp_ite]
    constructor
    case left =>
      intro hlt
      rw [Nat.shiftRight_one]
      refine wp_compRecord h hm hk (by omega) fun s' he hs' => ?_
      have hof : ∀ pos, HoldsEntry tree (s₀.nodes id) ⟨some _, pos⟩ := fun pos => ⟨_, he, rfl⟩
      rw [wp_ite]
      refine ⟨fun _ => ⟨hof _, hs'⟩, fun _ => ?_⟩
      rw [wp_ite]
      refine ⟨fun hpos => ?_, fun hneg => ?_⟩
      case refine_1 =>
        refine ih hs' (by omega) (by omega) (hof _) (hprev.imp_right ?_)
        rintro ⟨hz, _, hle⟩
        refine ⟨hz, Nat.pos_of_ne_zero fun hmid => ?_, hle⟩
        rw [hmid] at hpos
        exact absurd hpos (not_lt.mpr hle)
      case refine_2 => exact ih hs' hl (by omega) (hof _) (.inl (hof _))
    case right =>
      intro hge
      refine ⟨?_, h⟩
      have hp := hprev.resolve_right (by omega)
      split
      case isTrue  => exact hp
      case isFalse => exact hcur

theorem wp_searchBnode (h : Calm tree.nodeSizeBytes s₀ s) (hm : tree.isMountFinished = false)
    (hk : KeysInside tree keys (s₀.nodes id)) :
    wp (searchBnode tree keys id key)
      (fun place s' => HoldsEntry tree (s₀.nodes id) place ∧ Calm tree.nodeSizeBytes s₀ s')
      (fun _ _ => True) False s := by
  rw [searchBnode, wp_bind]
  refine wp_imp (wp_field h .recsCount) ?_
  rintro count s₁ ⟨rfl, h₁⟩
  rw [wp_ite]
  refine ⟨fun _ => trivial, fun hc => ?_⟩
  refine wp_compRecord h₁ hm hk (by omega) fun s₂ he₀ h₂ => ?_
  refine wp_compRecord h₂ hm hk (by omega) fun s₃ he h₃ => ?_
  rw [wp_ite]
  refine ⟨fun _ => ⟨⟨_, he, rfl⟩, h₃⟩, fun _ => ?_⟩
  refine wp_searchLoop h₃ hm hk (le_refl _) (by omega) ⟨_, he, rfl⟩ ?_
  split
  case isTrue  => exact .inl ⟨0, he₀, rfl⟩
  case isFalse => exact .inr ⟨rfl, Nat.pos_of_ne_zero hc, not_lt.mp ‹_›⟩

-- A node that emmcfs_get_bnode gives has its bit and its magic.
theorem wp_getBnode (h : Calm size s₀ s) (hs : 2 ≤ size) :
    wp (getBnode id) (fun _ s' => (id ≠ 0 → ¬s₀.Refuses id) ∧ Calm size s₀ s') (fun _ _ => True)
      False s := by
  rw [getBnode, wp_bind, onBtree, wp_zoom, RawBtree.getBnode, wp_bind, wp_get, wp_ite]
  refine ⟨fun _ => trivial, fun hbit => ?_⟩
  have hrest : ∀ s₁, Calm size s₀ s₁ → wp (if id = 0 then pure () else do
      let magic ← read id 0 2
      if magic ≠ nodeDescrMagic then Code.fail .enoent else pure ())
      (fun _ s' => (id ≠ 0 → ¬s₀.Refuses id) ∧ Calm size s₀ s') (fun _ _ => True) False s₁ := by
    intro s₁ h₁
    rw [wp_ite]
    refine ⟨fun h0 => ⟨fun hne => absurd h0 hne, h₁⟩, fun h0 => ?_⟩
    rw [wp_bind]
    refine wp_imp (wp_read h₁ hs) ?_
    rintro magic s₂ ⟨rfl, h₂⟩
    rw [wp_ite]
    refine ⟨fun _ => trivial, fun hmagic => ⟨fun _ hr => ?_, h₂⟩⟩
    obtain hr | hr | hr := hr
    case inl     => exact h0 hr
    case inr.inl => exact hbit ⟨h0, by rw [h.bitmap, hr]; rfl⟩
    case inr.inr => exact hr (not_not.mp hmagic)
  rw [RawBtree.request, wp_bind, wp_get]
  split
  case h_1        => exact hrest _ h
  case h_2 o os _ =>
    rw [wp_bind, wp_modify]
    cases o
    case none   => exact hrest _ ⟨h.nodes, h.bitmap, h.inside⟩
    case some e => trivial

theorem wp_getChildBnode (h : Calm size s₀ s) (hm : tree.isMountFinished = false)
    (hk : record + 8 ≤ size) (hc : record + keyLenAt (s₀.nodes id) record + 4 ≤ size) :
    wp (getChildBnode tree id record) (fun child s' => child = childAt (s₀.nodes id) record ∧
      ¬s₀.Refuses child ∧ Calm size s₀ s') (fun _ _ => True) False s := by
  rw [getChildBnode, wp_bind]
  refine wp_imp (wp_read h (by omega)) ?_
  rintro keyLen s₁ ⟨rfl, h₁⟩
  rw [wp_bind]
  refine wp_imp (wp_read h₁ hc) ?_
  rintro child s₂ ⟨rfl, h₂⟩
  rw [wp_ite]
  constructor
  case left =>
    intro _
    rw [onBtree, wp_zoom, RawBtree.faultOrBug, hm]
    trivial
  case right =>
    intro hne
    rw [wp_bind]
    exact wp_imp (wp_getBnode h₂ (by omega)) (fun _ _ hb => ⟨rfl, hb.left hne, hb.right⟩)

-- If the id of a child is read outside of the node, no node is given for it.
theorem wp_child (h : Calm tree.nodeSizeBytes s₀ s) (hm : tree.isMountFinished = false)
    (he : s₀.Encloses keys tree.nodeSizeBytes id record) :
    wp (getChildBnode tree id record) (fun child s' => HasMagic (s₀.nodes child) ∧
      Calm tree.nodeSizeBytes s₀ s') (fun _ _ => True) False s := by
  have hk := (keys.generic_le (s₀.nodes id) record).trans he.key
  obtain hc | hr := he.child
  case inl =>
    refine wp_imp (wp_getChildBnode h hm (by omega) hc) ?_
    exact fun child s' ⟨_, hb, hs'⟩ => ⟨by_contra fun hn => hb (.inr (.inr hn)), hs'⟩
  case inr =>
    let size := tree.nodeSizeBytes + (record + keyLenAt (s₀.nodes id) record + 4)
    have hsize : Calm size s₀ s :=
      ⟨h.nodes, h.bitmap, fun span hs => (h.inside span hs).trans (Nat.le_add_right ..)⟩
    refine wp_imp (wp_getChildBnode hsize hm (by omega) (Nat.le_add_left ..)) ?_
    rintro child s' ⟨rfl, hb, _⟩
    exact absurd hr hb

theorem wp_descend (h : Calm tree.nodeSizeBytes s₀ s) (hm : tree.isMountFinished = false)
    (hE : s₀.EnclosesAll keys tree.nodeSizeBytes) (hd : HasMagic (s₀.nodes id)) :
    wp (descend tree keys key n id) (fun _ s' => Calm tree.nodeSizeBytes s₀ s') (fun _ _ => True)
      False s := by
  have hk : ∀ id, HasMagic (s₀.nodes id) → KeysInside tree keys (s₀.nodes id) :=
    fun id hd i hi => (hE id hd i hi).key
  induction n generalizing id s
  case zero =>
    rw [descend, wp_bind]
    exact wp_imp (wp_searchBnode h hm (hk id hd)) (fun _ _ hs => hs.right)
  case succ n ih =>
    rw [descend, wp_bind]
    refine wp_imp (wp_searchBnode h hm (hk id hd)) ?_
    rintro ⟨_, pos⟩ s₁ ⟨⟨i, hi, rfl⟩, h₁⟩
    rw [wp_bind]
    exact wp_imp (wp_child h₁ hm (hE id hd i hi)) (fun child s₂ ⟨hc, h₂⟩ => ih h₂ hc)

theorem wp_btreeFind (h : Calm tree.nodeSizeBytes s₀ s) (hm : tree.isMountFinished = false)
    (hE : s₀.EnclosesAll keys tree.nodeSizeBytes) (hd : HasMagic (s₀.nodes s.rootBnodeId)) :
    wp (btreeFind tree keys key level pos) (fun _ s' => Calm tree.nodeSizeBytes s₀ s')
      (fun _ _ => True) False s := by
  have hs : 2 ≤ tree.nodeSizeBytes := le_trans (by decide) tree.node_size_ge
  rw [btreeFind, wp_bind, wp_get, wp_bind]
  refine wp_imp (wp_getBnode h hs) (fun _ s₁ ⟨_, h₁⟩ => ?_)
  rw [wp_ite]
  exact ⟨fun _ => h₁, fun _ => wp_descend h₁ hm hE hd⟩

section Necessary

-- get_record on an entry.
theorem getRecord_entry (he : IsEntry tree.nodeSizeBytes (s.nodes id) i) :
    getRecord tree id i s = .ok (slotOf tree.nodeSizeBytes (s.nodes id) i)
      (s.log [(RawBtree.slotAddr tree.nodeSizeBytes i, sizeofBtOff),
        (DescrField.recsCount.addr, DescrField.recsCount.size)]) := by
  have hf : field id .recsCount s = .ok (DescrField.recsCount.get (s.nodes id))
      (s.log [(DescrField.recsCount.addr, DescrField.recsCount.size)]) := rfl
  have ho : getOffset tree id i (s.log [(DescrField.recsCount.addr, DescrField.recsCount.size)]) =
      .ok (slotOf tree.nodeSizeBytes (s.nodes id) i)
        (s.log [(RawBtree.slotAddr tree.nodeSizeBytes i, sizeofBtOff),
          (DescrField.recsCount.addr, DescrField.recsCount.size)]) := by
    rw [getOffset, RawBtree.getOffsetAddr, if_pos he.slot]
    rfl
  rw [getRecord, bind_of_ok hf, ite_run, if_neg (not_lt.mpr he.count.le), bind_of_ok ho, ite_run,
    if_pos (show RawBtree.IsOffsetCorrect tree _ from he.correct), pure_apply]

-- emmcfs_get_bnode on an id that is not refused, if no request fails.
theorem getBnode_open (s : NodeReader) (hn : s.nodes = s₀.nodes) (hb : s.bitmap = s₀.bitmap)
    (ho : s.outcomes = []) (hid : ¬s₀.Refuses id) : getBnode id s = .ok () (s.log [(0, 2)]) := by
  simp only [Refuses, not_or, Bool.not_eq_false, not_not] at hid
  obtain ⟨hne, hbit, hmagic⟩ := hid
  have hg : onBtree (RawBtree.getBnode id) s = .ok () s := by
    rw [onBtree, zoom, RawBtree.getBnode, get_bind, if_neg (by simp [hb, hbit]), RawBtree.request,
      get_bind, ho]
    rfl
  have hr : read id 0 2 s = .ok nodeDescrMagic (s.log [(0, 2)]) := by
    rw [← hmagic, ← hn]
    rfl
  rw [getBnode, bind_of_ok hg, ite_run, if_neg hne, bind_of_ok hr]
  rfl

theorem getChildBnode_open (s : NodeReader) (hn : s.nodes = s₀.nodes) (hb : s.bitmap = s₀.bitmap)
    (ho : s.outcomes = []) (hr : ¬s₀.Refuses (childAt (s₀.nodes id) record)) :
    getChildBnode tree id record s = .ok (childAt (s₀.nodes id) record)
      (s.log [(0, 2), (record + keyLenAt (s₀.nodes id) record, 4), (record + 4, 4)]) := by
  have hk : read id (record + 4) 4 s =
      .ok (keyLenAt (s₀.nodes id) record) (s.log [(record + 4, 4)]) := by
    rw [← hn]
    rfl
  have hc : read id (record + keyLenAt (s₀.nodes id) record) 4 (s.log [(record + 4, 4)]) =
      .ok (childAt (s₀.nodes id) record)
        (s.log [(record + keyLenAt (s₀.nodes id) record, 4), (record + 4, 4)]) := by
    rw [← hn]
    rfl
  rw [getChildBnode, bind_of_ok hk, bind_of_ok hc, ite_run, if_neg fun h0 => hr (.inl h0),
    bind_of_ok (getBnode_open (s.log _) hn hb ho hr)]
  rfl

theorem keyEnd_of_stays (he : IsEntry tree.nodeSizeBytes (s.nodes id) i)
    (h : ∀ key, Stays tree (do compFn keys id (← getRecord tree id i) key) s) :
    keys.keyEnd (s.nodes id) (slotOf tree.nodeSizeBytes (s.nodes id) i) ≤ tree.nodeSizeBytes := by
  refine (keys.reach ..).mp fun key span hs => ?_
  have hk := h key
  rw [Stays, wp_bind, wp_of_ok (getRecord_entry (s := { s with reads := [] }) he)] at hk
  exact hk span (List.mem_append_left _ hs)

theorem child_of_stays (he : IsEntry tree.nodeSizeBytes (s.nodes id) i) (ho : s.outcomes = [])
    (h : Stays tree (do getChildBnode tree id (← getRecord tree id i)) s) :
    slotOf tree.nodeSizeBytes (s.nodes id) i +
        keyLenAt (s.nodes id) (slotOf tree.nodeSizeBytes (s.nodes id) i) + 4 ≤ tree.nodeSizeBytes ∨
      s.Refuses (childAt (s.nodes id) (slotOf tree.nodeSizeBytes (s.nodes id) i)) := by
  refine or_iff_not_imp_right.mpr fun hr => ?_
  rw [Stays, wp_bind, wp_of_ok (getRecord_entry (s := { s with reads := [] }) he)] at h
  change wp (getChildBnode tree id (slotOf tree.nodeSizeBytes (s.nodes id) i)) _ _ _ _ at h
  rw [wp_of_ok (getChildBnode_open (log _ { s with reads := [] }) rfl rfl ho hr)] at h
  exact h _ (.tail _ (.head _))

end Necessary

section Mount

theorem ReadsInside.enclosesAll (h : s.ReadsInside tree keys) :
    s.EnclosesAll keys tree.nodeSizeBytes := fun id hd i he => {
  key   := keyEnd_of_stays he fun key => h.comp s.outcomes id i key hd he.count
  child := child_of_stays (s := { s with outcomes := [] }) he rfl (h.child [] id i hd he.count) }

-- A run starts with nothing read.
theorem calm_start (outcomes : List (Option Errno)) :
    Calm size s { s with outcomes, reads := [] } where
  nodes  := rfl
  bitmap := rfl
  inside := nofun

theorem readsInside_of_enclosesAll (hm : tree.isMountFinished = false)
    (h : s.EnclosesAll keys tree.nodeSizeBytes) : s.ReadsInside tree keys where
  record outcomes id index _ :=
    wp_imp (wp_getRecord (calm_start outcomes) hm) fun _ _ hs => hs.right.right.inside
  comp outcomes id index key hd hi := by
    rw [Stays, wp_bind]
    refine wp_imp (wp_getRecord (calm_start outcomes) hm) ?_
    rintro r s' ⟨rfl, he, hs⟩
    exact wp_imp (wp_compFn hs (h id hd index (he hi)).key) fun _ _ hs => hs.right.inside
  child outcomes id index hd hi := by
    rw [Stays, wp_bind]
    refine wp_imp (wp_getRecord (calm_start outcomes) hm) ?_
    rintro r s' ⟨rfl, he, hs⟩
    exact wp_imp (wp_child hs hm (h id hd index (he hi))) fun _ _ hs => hs.right.inside
  find outcomes key level pos hd :=
    wp_imp (wp_btreeFind (calm_start outcomes) hm h hd) fun _ _ hs => hs.inside

-- The entries of a node with a right layout are enclosed if its records hold their keys and values.
theorem encloses_of_layout (h : NodeLayout size (s.nodes id) recs) (he : IsEntry size (s.nodes id) i)
    (hr : ∀ p ∈ placed size (s.nodes id) recs, keys.keyEnd (s.nodes id) p.1 ≤ p.1 + p.2.length ∧
      keyLenAt (s.nodes id) p.1 + 4 ≤ p.2.length) :
    s.Encloses keys size id (slotOf size (s.nodes id) i) := by
  have hi : i < recs.length := h.count ▸ he.count
  have hp : (slotOf size (s.nodes id) i, recs[i]) ∈ placed size (s.nodes id) recs :=
    List.mem_mapIdx.mpr ⟨i, hi, rfl⟩
  have hs := h.space
  have hb := (h.bounds hp).right
  obtain ⟨hk, hc⟩ := hr _ hp
  dsimp only at hb hk hc
  rw [recordSpace_eq] at hs
  exact ⟨by omega, .inl (by omega)⟩

-- During mount the reads through the nodes of the catalog tree and of the extents tree stay inside
-- them exactly if the entries are enclosed.
theorem readsInside_iff (s : NodeReader) :
    (∀ caseInsensitive logPagesPerNode,
      s.ReadsInside (catTree false caseInsensitive logPagesPerNode) (cattreeKeys caseInsensitive) ↔
        s.EnclosesAll (cattreeKeys caseInsensitive)
          (catTree false caseInsensitive logPagesPerNode).nodeSizeBytes) ∧
    ∀ tree : BtreeOps ExttreeKey,
      s.ReadsInside tree.duringMount exttreeKeys ↔
        s.EnclosesAll exttreeKeys tree.nodeSizeBytes := by
  constructor
  case left  => exact fun _ _ => ⟨fun h => h.enclosesAll, readsInside_of_enclosesAll rfl⟩
  case right =>
    intro tree
    have hm : tree.duringMount.isMountFinished = false := rfl
    exact ⟨fun h => h.enclosesAll, readsInside_of_enclosesAll hm⟩

-- The offset of the only record of the root is that of the last byte of the node.
def lastByte : NodeReader where
  nodes _     := applyAll [⟨0, toLe 2 nodeDescrMagic⟩, DescrField.recsCount.set 1,
    ⟨RawBtree.slotAddr 4096 0, toLe sizeofBtOff 4095⟩] fun _ => 0
  bitmap      := 2
  outcomes    := []
  rootBnodeId := 1
  btreeHeight := 1
  reads       := []

-- The search returns the root, and has read the parent id of the key behind it.
theorem not_stays_lastByte : HasMagic (lastByte.nodes 1) ∧
    ¬Stays (catTree false false 0)
      (btreeFind (catTree false false 0) (cattreeKeys false) ⟨1, [], Nat.zero_le _⟩ 1 (-1))
      lastByte := by
  refine ⟨by decide +kernel, ?_⟩
  unfold Stays Inside
  decide +kernel

end Mount

end NodeReader

end Emmcfs
