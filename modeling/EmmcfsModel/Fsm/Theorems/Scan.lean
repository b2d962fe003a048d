import EmmcfsModel.Fsm.Scan
import EmmcfsModel.Fsm.Theorems.Shape
import Mathlib.Algebra.Order.Ring.Nat

namespace Emmcfs

open FsmNode Queue

section Append

variable {next next' : NextPtrs} {tail tail' a : List Nat} {q : List (List Nat)}

-- The ways to the children are appended one after the other.
theorem appendChildren_threaded (h : Threaded next tail q)
    (hq : ∀ i < n, a ++ [i] ∉ q) (he : appendChildren a n next tail = (next', tail')) :
    Threaded next' tail' (q ++ (List.range n).map fun i => a ++ [i]) ∧
      (n ≠ 0 ∨ next tail = none → next' tail' = none) := by
  induction n generalizing next' tail'
  case zero =>
    cases he
    simpa using h
  case succ n ih =>
    rw [appendChildren, List.range_succ, List.foldl_append] at he
    obtain ⟨h', _⟩ := ih (fun i hi => hq i (by omega)) rfl
    have hn : a ++ [n] ∉ q ++ (List.range n).map fun i => a ++ [i] := by
      simpa using hq n (by omega)
    have hl := h'.link hn
    simp only [List.foldl_cons, List.foldl_nil, Prod.mk.injEq] at he
    obtain ⟨rfl, rfl⟩ := he
    rw [List.range_succ, List.map_append, ← List.append_assoc]
    exact ⟨hl, fun _ => link_self⟩

end Append

-- A node that is to be visited, with the way to it and its height.
structure Visit (κ : Type) where
  way    : List Nat
  height : Nat
  node   : FsmNode κ

namespace Visit

variable {κ : Type} {root : FsmNode κ} {v w : Visit κ}

def children (v : Visit κ) : List (Visit κ) :=
  v.node.children.mapIdx fun i c => ⟨v.way ++ [i], v.height - 1, c⟩

def Of (order : Nat) (root : FsmNode κ) (v : Visit κ) : Prop :=
  root.get v.way = some v.node ∧ ∃ lo, v.node.Shape order v.height lo

-- Neither node lies below the other.
def Apart (v w : Visit κ) : Prop :=
  ¬v.way <+: w.way ∧ ¬w.way <+: v.way

theorem get_snoc : {root node : FsmNode κ} → {a : List Nat} → root.get a = some node →
    root.get (a ++ [i]) = node.children[i]?
  | _, _, [], h => by
    cases h
    simp [FsmNode.get]
  | _, _, _ :: _, h => by
    obtain ⟨c, hc, h⟩ := Option.bind_eq_some_iff.mp h
    rw [List.cons_append, FsmNode.get, hc, Option.bind_some, get_snoc h]

theorem mem_children (h : w ∈ v.children) : ∃ i, v.node.children[i]? = some w.node ∧
    w.way = v.way ++ [i] ∧ w.height = v.height - 1 := by
  obtain ⟨i, hlt, rfl⟩ := List.mem_mapIdx.mp h
  exact ⟨i, List.getElem?_eq_getElem hlt, rfl, rfl⟩

theorem map_way_children :
    v.children.map way = (List.range v.node.children.length).map fun i => v.way ++ [i] :=
  List.ext_getElem (by simp [children]) (by simp [children])

theorem map_node_children : v.children.map node = v.node.children :=
  List.ext_getElem (by simp [children]) (by simp [children])

theorem map_count_children : (v.children.map fun w => nodeCount w.height w.node) =
    v.node.children.map (nodeCount (v.height - 1)) :=
  List.ext_getElem (by simp [children]) (by simp [children])

theorem exists_child (hc : c ∈ v.node.children) :
    ∃ w ∈ v.children, w.node = c ∧ w.height = v.height - 1 := by
  rw [← map_node_children] at hc
  obtain ⟨w, hw, he⟩ := List.mem_map.mp hc
  obtain ⟨_, _, _, hh⟩ := mem_children hw
  exact ⟨w, hw, he, hh⟩

theorem shape_children (hs : v.node.Shape order v.height lo) (hi : v.node.type = .index) :
    (∀ w ∈ v.children, w.node.Shape order w.height (order - 1)) ∧
      v.node.children.length = v.node.nrActive + 1 ∧
      nodeCount v.height v.node =
        1 + (v.children.map fun w => nodeCount w.height w.node).sum ∧
      (∀ k ∈ toList v.height v.node,
        k ∈ v.node.keyVals ∨ ∃ w ∈ v.children, k ∈ toList w.height w.node) := by
  obtain ⟨a, height, node⟩ := v
  cases hs with
  | leaf => cases hi
  | index _ _ hl hc =>
    refine ⟨fun w hw => ?_, hl, by rw [map_count_children]; rfl, fun k hk => ?_⟩
    · obtain ⟨i, hn, _, hh⟩ := mem_children hw
      rw [hh]
      exact hc _ (List.mem_of_getElem? hn)
    · refine (Interleave.mem_all hk).imp_right fun ⟨c, hc, hk⟩ => ?_
      obtain ⟨w, hw, he, hh⟩ := exists_child (v := ⟨a, _, _⟩) hc
      exact ⟨w, hw, by rw [he, hh]; exact hk⟩

theorem Of.children (h : v.Of order root) (hi : v.node.type = .index) :
    ∀ w ∈ v.children, w.Of order root := by
  intro w hw
  obtain ⟨hg, lo, hs⟩ := h
  obtain ⟨i, hn, hway, _⟩ := mem_children hw
  exact ⟨hway ▸ (get_snoc hg).trans hn, _, (shape_children hs hi).left w hw⟩

theorem apart_of_snoc (h : i ≠ j) : ¬a ++ [i] <+: a ++ [j] := by
  rw [List.prefix_append_right_inj]
  simpa using h

theorem pairwise_children : v.children.Pairwise Apart := by
  refine List.pairwise_iff_getElem.mpr fun i j hi hj hij => ?_
  simp only [children, List.getElem_mapIdx]
  exact ⟨apart_of_snoc hij.ne, apart_of_snoc hij.ne'⟩

theorem Apart.symm (h : Apart v w) : Apart w v :=
  ⟨h.right, h.left⟩

theorem Apart.children (h : Apart w v) : ∀ c ∈ v.children, Apart w c := by
  intro c hc
  obtain ⟨i, _, hway, _⟩ := mem_children hc
  rw [Apart, hway]
  refine ⟨fun hp => ?_, fun hp => h.right ((List.prefix_append ..).trans hp)⟩
  rcases List.prefix_concat_iff.mp hp with he | hp
  · exact h.right (he ▸ List.prefix_append ..)
  · exact h.left hp

end Visit

variable {root : FsmNode FsmBtreeKey} {next next' : NextPtrs} {tail tail' : List Nat}

theorem lookupAny_nil : lookupAny length fuel [] = none := by
  cases fuel <;> rfl

theorem nodeCount_pos (h : Nat) (node : FsmNode κ) : 0 < nodeCount h node := by
  cases h
  case zero   => exact Nat.one_pos
  case succ h => exact Nat.lt_add_right _ Nat.one_pos

-- The first node of the queue makes place for its children at the end.
theorem appendChildren_pop {v : Visit FsmBtreeKey} {q : List (Visit FsmBtreeKey)}
    (hlen : v.node.children.length = v.node.nrActive + 1) (hv : ∀ w ∈ q, v.Apart w)
    (ht : Threaded next tail ((v :: q).map Visit.way))
    (he : appendChildren v.way (v.node.nrActive + 1) next tail = (next', tail')) :
    next' v.way = ((q ++ v.children).map Visit.way).head? ∧
      Threaded next' tail' ((q ++ v.children).map Visit.way) ∧ next' tail' = none := by
  have hnew : ∀ i < v.node.nrActive + 1, v.way ++ [i] ∉ (v :: q).map Visit.way := by
    intro i _ hm
    rcases List.mem_cons.mp hm with hw | hm
    · simp at hw
    · obtain ⟨w, hw, hway⟩ := List.mem_map.mp hm
      exact (hv w hw).left (hway ▸ List.prefix_append ..)
  obtain ⟨ht', hend⟩ := appendChildren_threaded ht hnew he
  rw [List.map_cons, List.cons_append, ← hlen, ← Visit.map_way_children, ← List.map_append] at ht'
  have hcs : v.children ≠ [] := by
    intro he
    simp [Visit.children, ← List.length_eq_zero_iff, hlen] at he
  obtain ⟨w, rest, hrest⟩ := List.exists_cons_of_ne_nil
    (List.append_ne_nil_of_right_ne_nil q hcs)
  rw [hrest] at ht' ⊢
  obtain ⟨hn, ht'⟩ := ht'.pop
  exact ⟨hn, ht', hend (.inl (by omega))⟩

-- The nodes are visited in the order of the queue, each once.
theorem lookupScan_eq {q : List (Visit FsmBtreeKey)} (hof : ∀ v ∈ q, v.Of order root)
    (hap : q.Pairwise Visit.Apart) (ht : Threaded next tail (q.map Visit.way))
    (hend : next tail = none ∨ ∃ v, q = [v] ∧ v.node.type = .index)
    (hf : (q.map fun v => nodeCount v.height v.node).sum ≤ fuel) :
    ∃ next', lookupScan root length (fuel + 1) next tail (q.map Visit.way).head? =
      some (lookupAny length fuel (q.map Visit.node), next') := by
  induction fuel generalizing q next tail
  case zero =>
    match q with
    | []     => cases ht.last
    | v :: q =>
      have := nodeCount_pos v.height v.node
      simp at hf
      omega
  case succ fuel ih =>
    match q with
    | []     => cases ht.last
    | v :: q =>
      obtain ⟨hg, lo, hs⟩ := hof v (by simp)
      have hof' : ∀ v ∈ q, v.Of order root := fun w hw => hof w (by simp [hw])
      obtain ⟨hv, hap'⟩ := List.pairwise_cons.mp hap
      have hpos := nodeCount_pos v.height v.node
      rw [List.map_cons, List.sum_cons] at hf
      simp only [List.map_cons, List.head?_cons, lookupScan, hg, lookupAny]
      cases hfind : v.node.keyVals.find? fun key => length ≤ key.length
      case some key => exact ⟨next, rfl⟩
      case none =>
        simp only
        cases hty : v.node.type
        case leaf =>
          match q with
          | []     =>
            have hend := hend.resolve_right fun ⟨w, hw, hi⟩ => by
              cases hw
              rw [hty] at hi
              cases hi
            rw [← ht.eq_tail] at hend
            simp only [hend, List.map_nil, lookupAny_nil]
            exact ⟨next, rfl⟩
          | w :: q =>
            obtain ⟨hn, ht⟩ := ht.pop
            simp only [hn]
            refine ih hof' hap' ht (.inl (hend.resolve_right ?_)) (by omega)
            rintro ⟨_, hw, _⟩
            cases hw
        case index =>
          have hofc := (hof v (by simp)).children hty
          obtain ⟨_, hlen, hcount, _⟩ := Visit.shape_children hs hty
          obtain ⟨next', tail', he⟩ :
            ∃ n t, appendChildren v.way (v.node.nrActive + 1) next tail = (n, t) := ⟨_, _, rfl⟩
          obtain ⟨hn, ht', hend'⟩ := appendChildren_pop hlen hv ht he
          have hq : q.map Visit.node ++ v.node.children.take (v.node.nrActive + 1) =
              (q ++ v.children).map Visit.node := by
            rw [List.map_append, Visit.map_node_children, ← hlen, List.take_length]
          simp only [he, hn, hq]
          refine ih (fun w hw => ?_) ?_ ht' (.inl hend') ?_
          · exact (List.mem_append.mp hw).elim (hof' w) (hofc w)
          · refine List.pairwise_append.mpr ⟨hap', Visit.pairwise_children, fun w hw c hc => ?_⟩
            exact (hv w hw).symm.children c hc
          · rw [List.map_append, List.sum_append]
            omega

theorem lookupScan_root (hs : root.Shape order root.level lo)
    (hn : root.type = .leaf → next [] = none) :
    ∃ next', lookupScan root length (nodeCount root.level root + 1) next [] (some []) =
      some (lookupAny length (nodeCount root.level root) [root], next') := by
  let v : Visit FsmBtreeKey := ⟨[], root.level, root⟩
  have hof : ∀ w ∈ [v], w.Of order root := fun w hw => by
    cases List.mem_singleton.mp hw
    exact ⟨rfl, lo, hs⟩
  have hend : next [] = none ∨ ∃ w, [v] = [w] ∧ w.node.type = .index := by
    cases hty : root.type
    case leaf  => exact .inl (hn hty)
    case index => exact .inr ⟨v, rfl, hty⟩
  exact lookupScan_eq hof (List.pairwise_singleton ..) .singleton hend (by simp [v])

theorem type_of_growKey (h : growKey node i key length = .grown node' more) :
    node'.type = node.type := by
  simp only [growKey] at h
  split at h
  case h_1 => cases h; rfl
  case h_2 => split at h <;> cases h <;> rfl

theorem type_of_freeWalk (h : freeWalk blockOffset length fuel node = .grown node' more) :
    node'.type = node.type := by
  cases fuel
  case zero => cases h
  case succ fuel =>
    simp only [freeWalk] at h
    split at h
    case h_1 =>
      split at h
      · exact type_of_growKey h
      · cases h
    case h_2 =>
      split at h
      case h_1 => cases h
      case h_2 =>
        split at h
        case h_1 => cases h
        case h_2 =>
          split at h
          case h_1 => cases h; rfl
          case h_2 hn => exact absurd h (hn _ _)

namespace ThreadedTree

variable {t t' : ThreadedTree}

-- So many turns of the loop are enough, and the pointers that earlier walks have left behind make no
-- difference.
theorem LeafRootClear.lookupThreaded_eq (h : t.LeafRootClear) (hr : t.btree.root = some root)
    (hs : root.Shape order root.level lo) :
    lookupThreaded (nodeCount root.level root + 1) t.next t.btree blockOffset length =
      some (fsmBtreeLookup t.btree blockOffset length) := by
  obtain ⟨next', hscan⟩ := @lookupScan_root _ _ _ _ length hs (h root hr)
  simp only [lookupThreaded, fsmBtreeLookup, hr, hscan]
  split
  case h_1 => split <;> simp_all
  case h_2 => split <;> simp_all

theorem LeafRootClear.renewed (h : t.LeafRootClear) (hr : t.Renewed t') : t'.LeafRootClear := by
  intro root' hroot' hty
  rw [hr]
  split
  case isTrue he =>
    rw [rootKind, Option.mem_def.mp hroot', Option.map_some] at he
    obtain ⟨root, hroot, hk⟩ := Option.map_eq_some_iff.mp he.symm
    exact h root hroot (by rw [← hty, (Prod.mk.inj hk).right])
  case isFalse => rfl

theorem Step.leafRootClear (h : t.LeafRootClear) (hs : Step t e t') : t'.LeafRootClear := by
  cases hs
  case insert hr   => exact h.renewed hr
  case delete hr   => exact h.renewed hr
  case grow hg hr  =>
    rintro _ ⟨⟩ hty
    exact h _ hr (type_of_freeWalk hg ▸ hty)
  case scan length fuel found next' hr hsc =>
    intro root' hroot hty
    obtain rfl : _ = root' := Option.some.inj (hr.symm.trans hroot)
    have hnext := h _ hr hty
    -- the walk ends at the root and sets no pointer
    match fuel with
    | 0        => cases hsc
    | fuel + 1 =>
      simp only [lookupScan, FsmNode.get, hty, hnext] at hsc
      split at hsc
      case h_1 => cases hsc; exact hnext
      case h_2 =>
        cases fuel
        case zero => cases hsc
        case succ => cases hsc; exact hnext

-- From a tree that has never had a node.
theorem leafRootClear_of_run (h : t.btree.root = none) (hr : Run Step t es t') : t'.LeafRootClear :=
  hr.invariant (fun _ _ _ => Step.leafRootClear) fun root hroot => by
    rw [h] at hroot
    cases hroot

end ThreadedTree

end Emmcfs
