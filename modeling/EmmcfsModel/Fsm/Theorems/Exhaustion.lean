import EmmcfsModel.Fsm.Exhaustion
import EmmcfsModel.Fsm.Theorems.Lookup
import EmmcfsModel.Fsm.Theorems.Memory

namespace Emmcfs

open FsmNode FsmMemory SortedList

variable {m m' : FsmMemory FsmBtreeKey} {btree btree' : FsmBtree FsmBtreeKey} {s s' : Finset Nat}
  {x key : FsmBtreeKey}

theorem FsmBtree.Holds.of_keys (h : btree.Holds s) (hs : btree'.Shaped)
    (hk : btree'.keys = btree.keys) : btree'.Holds s :=
  ⟨FsmBtree.wf_iff.mpr ⟨hs, hk ▸ h.sorted⟩, hk ▸ h.pos, hk ▸ h.parts⟩

def FsmMemory.Holds (m : FsmMemory FsmBtreeKey) (s : Finset Nat) : Prop :=
  m.rootIsErr = false ∧ m.btree.Holds s

theorem FsmMemory.holds_iff : m.Holds s ↔ m.Sound ∧ m.btree.freeBlocks = s := by
  rw [FsmMemory.Holds, FsmBtree.holds_iff, ← and_assoc]
  exact and_congr_left fun _ => ⟨fun h => ⟨h.left, h.right⟩, fun h => ⟨h.root, h.tree⟩⟩

theorem FsmOperation.survives_iff {op : FsmOperation} : op.Survives m ↔
    Code.wp op.call (fun _ m' => m'.Holds (op.after m.btree).freeBlocks)
      (fun _ m' => m'.Holds m.btree.freeBlocks) False m := by
  simp only [FsmOperation.Survives, FsmMemory.holds_iff]

namespace FsmMemory.Holds

theorem unique (h : m.Holds s) (h' : m.Holds s') : s = s' :=
  (FsmMemory.holds_iff.mp h).right.symm.trans (FsmMemory.holds_iff.mp h').right

-- No block is in two chunks.
theorem not_twice (h : m.Holds s) (hp : m.btree.keys.Perm (x :: keys)) (hk : key ∈ keys)
    (hx : b ∈ x.blocks) (hb : b ∈ key.blocks) : False := by
  have hd := (h.right.parts.perm hp).disjoint
  exact Finset.disjoint_left.mp ((List.pairwise_cons.mp hd).left key hk) hx hb

theorem of_perm (h : m.Holds s) (hp : m'.btree.keys.Perm m.btree.keys) (h' : m'.Holds s') :
    s' = s := by
  ext b
  rw [h.right.parts.mem_iff, h'.right.parts.mem_iff]
  simp only [hp.mem_iff]

-- A chunk that has a block in common with one of the tree must not be added, and without it the set
-- is the same.
theorem not_unsettled (h : m.Holds s) (hp : keys.Perm m.btree.keys) (hk : key ∈ m.btree.keys)
    (hx : b ∈ x.blocks) (hb : b ∈ key.blocks) (hu : m'.Unsettled x keys) (hne : s' ≠ s) :
    ¬m'.Holds s' := by
  intro h'
  rcases hu with (hr | hs) | ha | ha
  · exact absurd h'.left (by simp [hr])
  · exact hs h'.right.wf.shape
  · exact hne (h.of_perm (ha.trans hp) h')
  · exact h'.not_twice ha (hp.mem_iff.mpr hk) hx hb

theorem of_refused (h : m.Holds s) (hr : Refused m.btree.keys res) :
    ∃ m', res = .fail .enomem m' ∧ m'.Holds s := by
  obtain ⟨btree, outcomes, rfl, hs, hk⟩ := hr
  exact ⟨_, rfl, rfl, h.right.of_keys hs hk⟩

theorem insert (h : m.Holds s) (hi : fsmBtreeInsert fsmBtreeCmpFn m.btree x = (btree', err))
    (hb : btree'.Holds s') :
    match firstFailure (insertAllocs fsmBtreeCmpFn m.btree x) m.outcomes with
    | none       => ∃ m', insert fsmBtreeCmpFn x m = ending err m' ∧ m'.Holds s'
    | some false => ∃ m', insert fsmBtreeCmpFn x m = .fail .enomem m' ∧ m'.Holds s
    | some true  => Broken (FsmMemory.insert fsmBtreeCmpFn x m) := by
  have hspec : Inserts fsmBtreeCmpFn x m _ := insert_spec h.left h.right.wf.shape
  unfold Inserts at hspec
  match hf : firstFailure (insertAllocs fsmBtreeCmpFn m.btree x) m.outcomes with
  | none       =>
    rw [hf, hi] at hspec
    exact ⟨_, hspec, rfl, hb⟩
  | some false => rw [hf] at hspec; exact h.of_refused hspec
  | some true  => rwa [hf] at hspec

theorem delete (h : m.Holds s) (key : FsmBtreeKey) :
    match firstFailure (deleteAllocs fsmBtreeCmpFn m.btree key) m.outcomes with
    | none      => delete fsmBtreeCmpFn key m = .ok () ⟨fsmBtreeDelete fsmBtreeCmpFn m.btree key, false,
      m.outcomes.drop (deleteAllocs fsmBtreeCmpFn m.btree key).length⟩
    | some harm => ∃ m', delete fsmBtreeCmpFn key m = .fail .enomem m' ∧ m'.rootIsErr = false ∧
      m'.btree.Shaped ∧ m'.btree.keys.Perm m.btree.keys ∧
      if harm then ∀ s', ¬m'.Holds s' else m'.Holds s := by
  have hspec := @delete_spec _ _ key m _ fsmBtreeCmpFn_compares h.left h.right.wf
  cases hf : firstFailure (deleteAllocs fsmBtreeCmpFn m.btree key) m.outcomes
  case none      => rwa [hf] at hspec
  case some harm =>
    rw [hf] at hspec
    obtain ⟨btree, outcomes, hres, hs, hk⟩ := hspec
    refine ⟨_, hres, rfl, hs, hk.perm, ?_⟩
    cases harm
    case false => exact ⟨rfl, h.right.of_keys hs hk.order⟩
    case true  => exact fun s' h' => hk.order h'.right.sorted

end FsmMemory.Holds

theorem FsmMemory.Broken.not_wp {c : FsmCode FsmBtreeKey Unit} (hb : Broken (c m))
    {E : Errno → FsmMemory FsmBtreeKey → Prop} (he : ∀ e m', E e m' → ∃ s, m'.Holds s) :
    ¬Code.wp c Q E False m := by
  refine Code.not_wp ?_
  unfold Code.wp
  match hm : c m, hb with
  | .halt, _      => trivial
  | .fail _ _, hb =>
    intro h
    obtain ⟨s, h⟩ := he _ _ h
    exact hb.elim (fun hr => absurd h.left (by simp [hr])) (fun hs => hs h.right.wf.shape)

@[simp]
theorem FsmMemory.wp_ignore {c : FsmCode FsmBtreeKey Unit} :
    Code.wp (ignore c) Q E H m ↔ Code.wp c Q (fun _ => Q ()) H m := by
  rw [ignore, Code.wp_onFail]
  rfl

theorem firstFailure_allHarmful {outcomes : List Bool} :
    firstFailure (allHarmful allocs) outcomes ≠ some true ↔ firstFailure allocs outcomes = none := by
  rw [allHarmful, firstFailure_map]
  cases firstFailure allocs outcomes <;> simp

namespace FsmOperation

theorem insert_survives (hm : m.Sound) (ha : (insert x).Admissible m.btree) :
    (insert x).Survives m ↔ firstFailure ((insert x).allocs m.btree) m.outcomes ≠ some true := by
  have h := FsmMemory.holds_iff.mpr ⟨hm, rfl⟩
  -- the chunk is there already, or it is new
  obtain ⟨btree', err, s', hi, hb, hs'⟩ : ∃ btree' err s',
      fsmBtreeInsert fsmBtreeCmpFn m.btree x = (btree', err) ∧ btree'.Holds s' ∧
        (s' = m.btree.freeBlocks ∨ err = none) := by
    cases ha
    case inl hx =>
      obtain ⟨hw, hk, _⟩ := fsmBtreeInsert_wf fsmBtreeCmpFn_compares (x := x) hm.tree.wf
      rw [insertKey_of_mem h.right.sorted hx] at hk
      exact ⟨_, _, _, rfl, h.right.of_keys hw.shape hk, .inl rfl⟩
    case inr hx =>
      obtain ⟨btree', hi, hb⟩ := h.right.insert hx.left hx.right
      exact ⟨btree', none, _, hi, hb, .inr rfl⟩
  have hins := h.insert hi hb
  have hafter : ((insert x).after m.btree).freeBlocks = s' := by
    simp only [after, hi, (FsmBtree.holds_iff.mp hb).right]
  rw [survives_iff, hafter]
  simp only [call, allocs]
  split at hins
  case h_1 hf =>
    obtain ⟨m', hres, hh⟩ := hins
    cases err
    case none => simpa [Code.wp_of_ok hres, hf] using hh
    case some => simpa [Code.wp_of_fail hres, hf, ← hs'.resolve_right (by simp)] using hh
  case h_2 hf =>
    obtain ⟨m', hres, hh⟩ := hins
    simpa [Code.wp_of_fail hres, hf] using hh
  case h_3 hf => simpa [hf] using hins.not_wp fun _ _ h => ⟨_, h⟩

theorem delete_sound (h : btree.Sound) : (fsmBtreeDelete fsmBtreeCmpFn btree key).Sound := by
  have hh := FsmBtree.holds_iff.mpr ⟨h, rfl⟩
  by_cases hk : key ∈ btree.keys
  case pos => exact (FsmBtree.holds_iff.mp (hh.delete hk).right).left
  case neg =>
    obtain ⟨hw, hkeys⟩ := fsmBtreeDelete_wf fsmBtreeCmpFn_compares (x := key) h.wf
    rw [removeKey_of_notMem hk] at hkeys
    exact (FsmBtree.holds_iff.mp (hh.of_keys hw.shape hkeys)).left

theorem delete_survives (hm : m.Sound) : (delete key).Survives m ↔
    firstFailure ((delete key).allocs m.btree) m.outcomes ≠ some true := by
  have h := FsmMemory.holds_iff.mpr ⟨hm, rfl⟩
  have hdel := h.delete key
  rw [survives_iff]
  simp only [call, allocs]
  split at hdel
  case h_1 hf =>
    have hs : FsmMemory.Sound ⟨fsmBtreeDelete fsmBtreeCmpFn m.btree key, false,
      m.outcomes.drop (deleteAllocs fsmBtreeCmpFn m.btree key).length⟩ := ⟨rfl, delete_sound hm.tree⟩
    simpa [Code.wp_of_ok hdel, hf, after] using FsmMemory.holds_iff.mpr ⟨hs, rfl⟩
  case h_2 harm hf =>
    obtain ⟨m', hres, _, _, _, hh⟩ := hdel
    rw [Code.wp_of_fail hres, hf]
    cases harm
    case false => simpa using hh
    case true  => simpa using hh m.btree.freeBlocks

theorem union_ne (hl : 0 < length) (hd : Disjoint (FsmBtreeKey.blocks ⟨off, length⟩) s) :
    FsmBtreeKey.blocks ⟨off, length⟩ ∪ s ≠ s := by
  intro he
  have hb : off ∈ FsmBtreeKey.blocks ⟨off, length⟩ := FsmBtreeKey.mem_blocks.mpr (by simp [hl])
  exact Finset.disjoint_left.mp hd hb (he ▸ Finset.mem_union_left _ hb)

-- A chunk that is not inserted is lost.
theorem wp_insert_new (h : m.Holds s) (hx : 0 < x.length) (hd : Disjoint x.blocks s)
    (hu : x.blocks ∪ s = s') (ht : t ≠ s) : Code.wp (FsmMemory.insert fsmBtreeCmpFn x)
      (fun _ m' => m'.Holds s') (fun _ m' => m'.Holds t) False m ↔
      firstFailure (insertAllocs fsmBtreeCmpFn m.btree x) m.outcomes = none := by
  obtain ⟨btree', hi, hb⟩ := h.right.insert hx hd
  have hins := h.insert hi (hu ▸ hb)
  split at hins
  case h_1 hf =>
    obtain ⟨m', hres, hh⟩ := hins
    simpa [Code.wp_of_ok hres, hf] using hh
  case h_2 hf =>
    obtain ⟨m', hres, hh⟩ := hins
    simp only [Code.wp_of_fail hres, hf, reduceCtorEq, iff_false]
    exact fun hh' => ht (hh'.unique hh)
  case h_3 hf => simpa [hf] using hins.not_wp fun _ _ h => ⟨_, h⟩

-- Without a root there is no error but the ERR_PTR.
theorem wp_insert_first (h : m.Holds s) (hroot : m.btree.root = none) (hx : 0 < x.length)
    (hd : Disjoint x.blocks s) : Code.wp (FsmMemory.insert fsmBtreeCmpFn x)
      (fun _ m' => m'.Holds (x.blocks ∪ s)) (fun _ m' => m'.Holds s) False m ↔
      firstFailure (insertAllocs fsmBtreeCmpFn m.btree x) m.outcomes = none := by
  obtain ⟨btree', hi, hb⟩ := h.right.insert hx hd
  have hins := h.insert hi hb
  split at hins
  case h_1 hf =>
    obtain ⟨m', hres, hh⟩ := hins
    simpa [Code.wp_of_ok hres, hf] using hh
  case h_2 hf =>
    rw [insertAllocs, hroot, firstFailure_cons] at hf
    split at hf
    case isTrue  => simp [firstFailure] at hf
    case isFalse => cases hf
  case h_3 hf => simpa [hf] using hins.not_wp fun _ _ h => ⟨_, h⟩

-- What comes after a deletion that has failed cannot make it good.
theorem not_wp_insert (h : m.Holds s) (hr : m'.rootIsErr = false) (hs : m'.btree.Shaped)
    (hp : m'.btree.keys.Perm m.btree.keys) (hk : key ∈ m.btree.keys) (hx : b ∈ x.blocks)
    (hb : b ∈ key.blocks) (hne : s' ≠ s) : ¬Code.wp (FsmMemory.insert fsmBtreeCmpFn x)
      (fun _ m' => m'.Holds s') (fun _ m' => m'.Holds s') False m' := by
  refine Code.not_wp (Code.wp_mono (insert_added hr hs) ?_ ?_ id)
  · exact fun _ _ hu => h.not_unsettled hp hk hx hb hu hne
  · exact fun _ _ hu => h.not_unsettled hp hk hx hb hu hne

theorem free_survives (hm : m.Sound) (ha : (free off length).Admissible m.btree) :
    (free off length).Survives m ↔
      firstFailure ((free off length).allocs m.btree) m.outcomes ≠ some true := by
  have h := FsmMemory.holds_iff.mpr ⟨hm, rfl⟩
  obtain ⟨hl, hd⟩ := ha
  have hfree := fsmBtreeFree_holds h.right hl hd
  have hafter : ((free off length).after m.btree).freeBlocks = _ := (FsmBtree.holds_iff.mp hfree).right
  rw [survives_iff, hafter, allocs, firstFailure_allHarmful]
  simp only [call, FsmMemory.free, Code.wp_bind, Code.wp_get, Code.wp_haltOn, hm.root,
    Bool.false_eq_true, false_implies, true_and, not_false_iff, true_implies]
  cases hroot : m.btree.root
  case none      => exact wp_insert_first h hroot hl hd
  case some root =>
    have hf : (freeWalk off length (root.level + 1) root).Found m.btree.order root.level 1 off length
        root := freeWalk_found (hm.tree.wf.shape root hroot)
    have hk : m.btree.keys = toList root.level root := by rw [FsmBtree.keys, hroot]
    rw [fsmBtreeFree, hroot] at hfree
    simp only at hfree ⊢
    split
    case h_1 =>
      simp only [FsmMemory.wp_ignore]
      exact wp_insert_new h hl hd rfl (union_ne hl hd)
    case h_2 root' hw =>
      rw [hw] at hfree
      simp only [setRoot, Code.wp_modify, firstFailure, iff_true]
      exact ⟨hm.root, hfree⟩
    case h_3 root' next hw =>
      rw [hw] at hf hfree
      obtain ⟨hs, a, k, b, ht, he, hn, ht'⟩ := hf
      obtain ⟨hnb, hn⟩ := hn next rfl
      have hk := hk.trans ht
      have hpos : 0 < next.length := hm.tree.pos next (by simp [hk, hnb])
      rw [Option.map_some, Option.getD_some, Nat.add_assoc] at ht'
      obtain ⟨hw, hk'⟩ := h.right.wf_grow hk hs ht'
      have hdel := @delete_spec _ _ next { m with btree := { m.btree with root := some root' } } _
        fsmBtreeCmpFn_compares hm.root hw
      simp only [setRoot, Code.wp_bind, Code.wp_modify]
      split at hdel
      case h_1 hff =>
        simp only [Code.wp_of_ok hdel, hff, iff_true]
        exact ⟨rfl, hfree⟩
      case h_2 harm hff =>
        obtain ⟨btree', outcomes', hres, _, hkept⟩ := hdel
        simp only [Code.wp_of_fail hres, hff, reduceCtorEq, iff_false]
        intro hh
        refine hh.not_twice ((hk' ▸ hkept.perm).trans List.perm_middle)
          (List.mem_append_right a hnb) (b := next.blockOffset) ?_ ?_
        · exact FsmBtreeKey.mem_blocks.mpr (by dsimp only; omega)
        · exact FsmBtreeKey.mem_blocks.mpr (by omega)
    case h_4 key hw =>
      rw [hw] at hf
      obtain ⟨hmem, he⟩ := hf
      rw [← hk] at hmem
      obtain ⟨hsub, hh⟩ := h.right.delete hmem
      obtain ⟨hx, hu⟩ := blocks_before he hsub hd
      have hdel := h.delete key
      simp only [Code.wp_bind, FsmMemory.wp_ignore, firstFailure_append]
      split at hdel
      case h_1 hff =>
        rw [Code.wp_of_ok hdel, FsmMemory.wp_ignore, hff, Option.none_or]
        have hl' : 0 < length + key.length := Nat.add_pos_left hl _
        exact wp_insert_new ⟨rfl, hh⟩ hl' hx hu (hu ▸ union_ne hl' hx)
      case h_2 harm hff =>
        obtain ⟨m', hres, hr', hs', hp', _⟩ := hdel
        have hpos := hm.tree.pos key hmem
        simp only [Code.wp_of_fail hres, FsmMemory.wp_ignore, hff, Option.some_or, reduceCtorEq,
          iff_false]
        refine not_wp_insert h hr' hs' hp' hmem (b := key.blockOffset) ?_ ?_ ?_
        · exact FsmBtreeKey.mem_blocks.mpr (by dsimp only; omega)
        · exact FsmBtreeKey.mem_blocks.mpr (by omega)
        · exact union_ne hl hd

-- What a chunk has too much goes back when the chunk is gone.
theorem wp_insertRest (h : m.Holds (s \ key.blocks)) (hs : key.blocks ⊆ s)
    (hl : length ≤ key.length) (ht : length < key.length → t ≠ s \ key.blocks) :
    Code.wp (insertRest key length)
      (fun _ m' => m'.Holds (s \ Finset.Ico key.blockOffset (key.blockOffset + length)))
      (fun _ m' => m'.Holds t) False m ↔
      firstFailure (if length < key.length then insertAllocs fsmBtreeCmpFn m.btree
        ⟨key.blockOffset + length, key.length - length⟩ else []) m.outcomes = none := by
  unfold insertRest
  by_cases hlt : length < key.length
  case pos =>
    obtain ⟨hd, hu⟩ := blocks_rest hs hl
    simp only [if_pos hlt]
    exact wp_insert_new h (Nat.sub_pos_of_lt hlt) hd hu (ht hlt)
  case neg =>
    obtain rfl : length = key.length := by omega
    simp only [if_neg hlt, firstFailure, iff_true]
    exact h

theorem sdiff_ne (hs : key.blocks ⊆ s) (hpos : 0 < key.length) : s ≠ s \ key.blocks := by
  intro he
  have hb : key.blockOffset ∈ key.blocks := FsmBtreeKey.mem_blocks.mpr (by omega)
  exact (Finset.mem_sdiff.mp (he ▸ hs hb)).right hb

-- The first search: a failure to delete the chunk is reported, a failure to give the rest back too.
theorem wp_takeFirst (h : m.Holds s) (hk : key ∈ m.btree.keys) (hl : length ≤ key.length) :
    Code.wp (FsmMemory.delete fsmBtreeCmpFn key) (fun _ => Code.wp (insertRest key length)
        (fun _ m' => m'.Holds (s \ Finset.Ico key.blockOffset (key.blockOffset + length)))
        (fun _ m' => m'.Holds s) False) (fun _ m' => m'.Holds s) False m ↔
      firstFailure (deleteAllocs fsmBtreeCmpFn m.btree key ++
        allHarmful (restAllocs m.btree key length)) m.outcomes ≠ some true := by
  have hdel := h.delete key
  obtain ⟨hsub, hh⟩ := h.right.delete hk
  rw [firstFailure_append]
  split at hdel
  case h_1 hff =>
    rw [Code.wp_of_ok hdel, hff, Option.none_or, firstFailure_allHarmful]
    exact wp_insertRest ⟨rfl, hh⟩ hsub hl fun _ => sdiff_ne hsub (h.right.pos key hk)
  case h_2 harm hff =>
    obtain ⟨m', hres, _, _, _, hh⟩ := hdel
    rw [Code.wp_of_fail hres, hff]
    cases harm
    case false => simpa using hh
    case true  => simpa using hh s

-- The second search: nobody looks at the results.
theorem wp_takeAny (h : m.Holds s) (hk : key ∈ m.btree.keys) (hl : length ≤ key.length)
    (hpos : 0 < length) (hs' : s \ Finset.Ico key.blockOffset (key.blockOffset + length) = s') :
    Code.wp (FsmMemory.delete fsmBtreeCmpFn key)
      (fun _ => Code.wp (insertRest key length) (fun _ m' => m'.Holds s') (fun _ m' => m'.Holds s') False)
      (fun _ => Code.wp (insertRest key length) (fun _ m' => m'.Holds s') (fun _ m' => m'.Holds s') False)
      False m ↔
      firstFailure (deleteAllocs fsmBtreeCmpFn m.btree key ++ restAllocs m.btree key length)
        m.outcomes = none := by
  have hdel := h.delete key
  obtain ⟨hsub, hh⟩ := h.right.delete hk
  subst hs'
  rw [firstFailure_append]
  split at hdel
  case h_1 hff =>
    rw [Code.wp_of_ok hdel, hff, Option.none_or]
    refine wp_insertRest ⟨rfl, hh⟩ hsub hl fun hlt => ?_
    obtain ⟨hd, hu⟩ := blocks_rest hsub hl
    exact hu ▸ union_ne (Nat.sub_pos_of_lt hlt) hd
  case h_2 harm hff =>
    obtain ⟨m', hres, hr', hs', hp', _⟩ := hdel
    simp only [Code.wp_of_fail hres, hff, Option.some_or, reduceCtorEq, iff_false]
    have hsub' : FsmBtreeKey.blocks ⟨key.blockOffset, length⟩ ⊆ s :=
      (Finset.Ico_subset_Ico_right (by dsimp only; omega)).trans hsub
    have hne := (sdiff_ne hsub' hpos).symm
    unfold insertRest
    split
    case isTrue hlt =>
      refine not_wp_insert h hr' hs' hp' hk (b := key.blockOffset + length) ?_ ?_ hne
      · exact FsmBtreeKey.mem_blocks.mpr (by dsimp only; omega)
      · exact FsmBtreeKey.mem_blocks.mpr (by omega)
    case isFalse => exact fun hh' => hne (h.of_perm hp' hh')

theorem lookup_survives (hm : m.Sound) (ha : (lookup off length).Admissible m.btree) :
    (lookup off length).Survives m ↔
      firstFailure ((lookup off length).allocs m.btree) m.outcomes ≠ some true := by
  have h := FsmMemory.holds_iff.mpr ⟨hm, rfl⟩
  obtain ⟨hl, h0⟩ := ha
  rw [survives_iff, after, allocs, fsmBtreeLookup]
  simp only [call, FsmMemory.lookup, Code.wp_bind, Code.wp_get, Code.wp_haltOn, hm.root,
    Bool.false_eq_true, false_implies, true_and, not_false_iff, true_implies]
  cases hroot : m.btree.root
  case none      => simp [firstFailure, h]
  case some root =>
    have hkeys : m.btree.keys = toList root.level root := by rw [FsmBtree.keys, hroot]
    simp only
    cases hat : lookupAt off length (root.level + 1) root
    case some key =>
      obtain ⟨hmem, he, hlk⟩ := lookupAt_mem (hm.tree.wf.shape root hroot) hat
      rw [← hkeys] at hmem
      obtain ⟨hsub, btree', ht, hb⟩ := takeChunk_holds h.right hmem hlk
      have hne : key.blockOffset ≠ 0 := fun hz => h0 (hz ▸ hsub (Finset.mem_Ico.mpr (by omega)))
      simp only [he, ht, (FsmBtree.holds_iff.mp hb).right, Code.wp_onFail, Code.wp_bind]
      refine (Code.wp_congr (fun _ m => ?_) (fun _ m => ?_)).trans (wp_takeFirst h hmem hlk)
      · rw [Code.wp_bind]
        exact Code.wp_congr (fun _ m => by simp [hne]) (fun _ m => by simp)
      · simp
    case none =>
      simp only
      cases hany : lookupAny length (nodeCount root.level root) [root]
      case none     => simp [firstFailure, h]
      case some key =>
        have hfound := @lookupAny_root _ _ _ _ length (hm.tree.wf.shape root hroot)
        rw [hany, ← hkeys] at hfound
        obtain ⟨hmem, hlk⟩ := hfound
        obtain ⟨hsub, btree', ht, hb⟩ := takeChunk_holds h.right hmem hlk
        have hne : key.blockOffset ≠ 0 := fun hz => h0 (hz ▸ hsub (Finset.mem_Ico.mpr (by omega)))
        simp only [ht, (FsmBtree.holds_iff.mp hb).right, Code.wp_bind, FsmMemory.wp_ignore,
          firstFailure_allHarmful]
        refine (Code.wp_congr (fun _ m => ?_) (fun _ m => ?_)).trans (wp_takeAny h hmem hlk hl rfl)
        · rw [Code.wp_bind, FsmMemory.wp_ignore]
          exact Code.wp_congr (fun _ m => by simp [hne]) (fun _ m => by simp [hne])
        · rw [Code.wp_bind, FsmMemory.wp_ignore]
          exact Code.wp_congr (fun _ m => by simp [hne]) (fun _ m => by simp [hne])

-- The operations survive memory exhaustion unless the first allocation that fails is one that does
-- harm.
theorem survives_iff_harmless {op : FsmOperation} (hm : m.Sound) (ha : op.Admissible m.btree) :
    op.Survives m ↔ firstFailure (op.allocs m.btree) m.outcomes ≠ some true := by
  cases op
  case insert => exact insert_survives hm ha
  case delete => exact delete_survives hm
  case free   => exact free_survives hm ha
  case lookup => exact lookup_survives hm ha

-- The children of the root are to be merged before the key is reached.
theorem survives_iff_harmless_threeChunks :
    (delete ⟨2, 1⟩).allocs threeChunks = [false] ∧
      (delete ⟨2, 1⟩).Survives ⟨threeChunks, false, [false]⟩ := by
  have hm : FsmMemory.Sound ⟨threeChunks, false, [false]⟩ := ⟨rfl, threeChunks_sound⟩
  have ha : (delete ⟨2, 1⟩).Admissible threeChunks := trivial
  exact ⟨by decide, (survives_iff_harmless hm ha).mpr (by decide)⟩

-- The chunk at block 8 is not deleted, and its rest is inserted: block 8 is given away and is still
-- free, and block 9 is in two chunks.
theorem not_survives_threeChunks : threeChunks.Sound ∧ (lookup 5 1).Admissible threeChunks ∧
    Code.wp (lookup 5 1).call
      (fun _ m => m.btree.keys = [⟨2, 1⟩, ⟨8, 2⟩, ⟨9, 1⟩, ⟨16, 4⟩]) (fun _ _ => False) False
      ⟨threeChunks, false, [false]⟩ ∧
    ¬(lookup 5 1).Survives ⟨threeChunks, false, [false]⟩ := by
  have hm : FsmMemory.Sound ⟨threeChunks, false, [false]⟩ := ⟨rfl, threeChunks_sound⟩
  have ha : (lookup 5 1).Admissible threeChunks := ⟨by decide, by decide⟩
  refine ⟨threeChunks_sound, ha, by decide, fun h => ?_⟩
  exact (lookup_survives hm ha).mp h (by decide)

end FsmOperation

end Emmcfs
