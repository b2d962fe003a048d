import EmmcfsModel.Fsm.Invariant

namespace Emmcfs.FsmNode

open SortedList

variable {κ : Type}

@[simp] theorem level_mk : (mk l ty ks cs : FsmNode κ).level = l := rfl
@[simp] theorem type_mk : (mk l ty ks cs : FsmNode κ).type = ty := rfl
@[simp] theorem keyVals_mk : (mk l ty ks cs : FsmNode κ).keyVals = ks := rfl
@[simp] theorem children_mk : (mk l ty ks cs : FsmNode κ).children = cs := rfl
@[simp] theorem nrActive_mk : (mk l ty ks cs : FsmNode κ).nrActive = ks.length := rfl

@[simp]
theorem toList_zero (node : FsmNode κ) : toList 0 node = node.keyVals := rfl

theorem toList_succ (node : FsmNode κ) :
    toList (h + 1) node = Interleave.all (toList h) node.keyVals node.children := rfl

namespace Shape

variable {node : FsmNode κ}

theorem level_eq (hs : Shape order h lo node) : node.level = h := by
  cases hs <;> rfl

theorem le_nrActive (hs : Shape order h lo node) : lo ≤ node.nrActive := by
  cases hs <;> assumption

theorem nrActive_le (hs : Shape order h lo node) : node.nrActive ≤ 2 * order - 1 := by
  cases hs <;> assumption

-- Only the number of keys in the root depends on the lower bound.
theorem of_le_nrActive (hs : Shape order h lo node) (hl : lo' ≤ node.nrActive) :
    Shape order h lo' node := by
  cases hs
  case leaf hu _        => exact .leaf hl hu
  case index hu hc hs _ => exact .index hl hu hc hs

theorem keyVals_sublist (hs : Shape order h lo node) : node.keyVals.Sublist (toList h node) := by
  cases hs
  case leaf => simp
  case index h ks cs _ hc _ _ =>
    match cs, hc with
    | c :: cs, hc =>
      have hl : ks.length = cs.length := by simpa using hc.symm
      exact (Interleave.sublist_after hl).trans (List.sublist_append_right ..)

theorem toList_ne_nil (hs : Shape order h lo node) (hl : 0 < lo) : toList h node ≠ [] := by
  intro he
  have := he ▸ hs.keyVals_sublist
  have hn := hs.le_nrActive
  simp only [List.sublist_nil] at this
  simp [nrActive, this] at hn
  omega

end Shape

namespace Hole

variable {H : Hole κ} {c : FsmNode κ}

@[simp] theorem level_fill : (H.fill h c).level = h + 1 := rfl
@[simp] theorem type_fill : (H.fill h c).type = .index := rfl
@[simp] theorem keyVals_fill : (H.fill h c).keyVals = H.keys ++ H.keys' := rfl
@[simp] theorem children_fill : (H.fill h c).children = H.children ++ c :: H.children' := rfl

theorem toList_fill (hw : H.WF order h) :
    toList (h + 1) (H.fill h c) = H.pre h ++ toList h c ++ H.post h :=
  Interleave.all_focus hw.left

theorem child_fill (hw : H.WF order h) : (H.fill h c).children[H.keys.length]? = some c := by
  simp [← hw.left]

theorem setChild_fill (hw : H.WF order h) :
    (H.fill h c).setChild H.keys.length c' = H.fill h c' := by
  simp [setChild, fill, ← hw.left]

theorem setChild_fill_eq (hw : H.WF order h) :
    (H.fill h c).setChild H.keys.length = H.fill h :=
  funext fun _ => setChild_fill hw

-- Nothing is around the only child of a node without keys.
theorem around_of_nrActive (hw : H.WF order h) (hn : (H.fill h c).nrActive = 0) :
    H.pre h = [] ∧ H.post h = [] := by
  have hk : H.keys = [] ∧ H.keys' = [] := by simpa [nrActive] using hn
  have hch : H.children = [] := List.eq_nil_of_length_eq_zero (by rw [hw.left, hk.left]; rfl)
  simp [pre, post, hk.right, hch]

theorem shape_fill (hw : H.WF order h) (hc : Shape order h (order - 1) c)
    (hl : lo ≤ (H.fill h c).nrActive) (hu : (H.fill h c).nrActive ≤ 2 * order - 1) :
    Shape order (h + 1) lo (H.fill h c) := by
  refine .index hl hu ?_ ?_
  · simp only [List.length_append, List.length_cons, hw.left, hw.right]
    omega
  · intro d hd
    cases List.mem_append.mp hd
    case inl hd => exact hw.shape d (by simp [hd])
    case inr hd =>
      cases List.mem_cons.mp hd
      case inl hd => exact hd ▸ hc
      case inr hd => exact hw.shape d (by simp [hd])

end Hole

-- Every child of an index node is in a hole of it.
theorem Shape.exists_hole {node : FsmNode κ} (hs : Shape order (h + 1) lo node)
    (hi : i ≤ node.nrActive) : ∃ (H : Hole κ) (c : FsmNode κ), node = H.fill h c ∧ H.WF order h ∧
      H.keys = node.keyVals.take i ∧ H.keys' = node.keyVals.drop i ∧ H.keys.length = i ∧
      Shape order h (order - 1) c := by
  cases hs
  case index ks cs _ hc hs _ =>
    have hi' : i < cs.length := by simp at hi; omega
    refine ⟨⟨ks.take i, cs.take i, ks.drop i, cs.drop (i + 1)⟩, cs[i], ?_, ?_, rfl, rfl, ?_, ?_⟩
    · simp [Hole.fill]
    · constructor
      case left  => simp at hi ⊢; omega
      case right => simp at hi ⊢; omega
      case shape =>
        intro d hd
        cases List.mem_append.mp hd
        case inl hd => exact hs d (List.mem_of_mem_take hd)
        case inr hd => exact hs d (List.mem_of_mem_drop hd)
    · exact List.length_take_of_le hi
    · exact hs _ (List.getElem_mem ..)

theorem Shape.toList_subset {node c : FsmNode κ} (hs : Shape order (h + 1) lo node)
    (hc : c ∈ node.children) : Shape order h (order - 1) c ∧ toList h c ⊆ toList (h + 1) node := by
  obtain ⟨i, hi, he⟩ := List.getElem_of_mem hc
  have hn : i ≤ node.nrActive := by
    cases hs with
    | index _ _ hl => simp at hi ⊢; omega
  obtain ⟨H, c', rfl, hw, _, _, hlen, hsc⟩ := hs.exists_hole hn
  have hc' := H.child_fill (c := c') hw
  simp only [hlen, List.getElem?_eq_getElem hi, he, Option.some.injEq] at hc'
  subst hc'
  refine ⟨hsc, fun k hk => ?_⟩
  rw [H.toList_fill hw]
  simp [hk]

-- A key of the root in the traversal, and what becomes of the traversal with another key there.
theorem Shape.exists_around {node : FsmNode κ} (hs : Shape order h lo node)
    (hk : node.keyVals[i]? = some k) :
    ∃ a b, toList h node = a ++ k :: b ∧ (∀ y ∈ node.keyVals[i + 1]?, y ∈ b) ∧
      ∀ k', Shape order h lo (mk node.level node.type (node.keyVals.set i k') node.children) ∧
        toList h (mk node.level node.type (node.keyVals.set i k') node.children) = a ++ k' :: b := by
  cases h
  case zero =>
    cases hs with
    | leaf hl hu =>
      obtain ⟨a, b, rfl, rfl⟩ := exists_append_of_getElem? hk
      refine ⟨a, b, rfl, fun y hy => ?_, fun k' => ⟨.leaf ?_ ?_, by simp⟩⟩
      · exact mem_of_next hy
      · simpa using hl
      · simpa using hu
  case succ h =>
    have hi := (List.getElem?_eq_some_iff.mp hk).choose
    obtain ⟨⟨ks, cs, ks', cs'⟩, c, rfl, hw, hk₁, hk₂, hlen, hsc⟩ := hs.exists_hole hi.le
    subst hlen
    match ks', cs', hw.right with
    | [], _, _ => simp at hk
    | k₀ :: ks', r :: cs', hr =>
      obtain rfl : k₀ = k := by simpa using hk
      have hl : cs.length = ks.length := hw.left
      refine ⟨Interleave.before (toList h) cs ks ++ toList h c,
        toList h r ++ Interleave.after (toList h) ks' cs', ?_, fun y hy => ?_, fun k' => ⟨?_, ?_⟩⟩
      · rw [Hole.toList_fill hw]
        simp [Hole.pre, Hole.post]
      · have hy : y ∈ ks' := mem_of_next hy
        have hr : ks'.length = cs'.length := by simpa using hr.symm
        exact List.mem_append_right _ ((Interleave.sublist_after hr).subset hy)
      · have hw' : Hole.WF order h ⟨ks, cs, k' :: ks', r :: cs'⟩ := ⟨hl, hr, hw.shape⟩
        have := Hole.shape_fill hw' hsc (by simpa [nrActive] using hs.le_nrActive)
          (by simpa [nrActive] using hs.nrActive_le)
        simpa [Hole.fill] using this
      · have hw' : Hole.WF order h ⟨ks, cs, k' :: ks', r :: cs'⟩ := ⟨hl, hr, hw.shape⟩
        have := Hole.toList_fill (c := c) hw'
        simpa [Hole.fill, Hole.pre, Hole.post] using this

section Order

variable [LinearOrder κ] {H : Hole κ} {c : FsmNode κ} {x : κ}

theorem Hole.sorted_pre (hw : H.WF order h) (hs : Sorted (toList (h + 1) (H.fill h c))) :
    Sorted (H.pre h) := by
  rw [toList_fill hw, List.append_assoc] at hs
  exact (List.pairwise_append.mp hs).left

theorem Hole.sorted_post (hw : H.WF order h) (hs : Sorted (toList (h + 1) (H.fill h c))) :
    Sorted (H.post h) := by
  rw [toList_fill hw] at hs
  exact (List.pairwise_append.mp hs).right.left

theorem Hole.sorted_child (hw : H.WF order h) (hs : Sorted (toList (h + 1) (H.fill h c))) :
    Sorted (toList h c) := by
  rw [toList_fill hw, List.append_assoc] at hs
  exact (List.pairwise_append.mp (List.pairwise_append.mp hs).right.left).left

theorem Hole.pre_lt (hw : H.WF order h) (hs : Sorted (toList (h + 1) (H.fill h c)))
    (hk : ∀ k ∈ H.keys, k < x) : ∀ y ∈ H.pre h, y < x :=
  Interleave.before_lt (sorted_pre hw hs) hk

theorem Hole.lt_post (hw : H.WF order h) (hs : Sorted (toList (h + 1) (H.fill h c)))
    (hk : ∀ k ∈ H.keys', x < k) : ∀ y ∈ H.post h, x < y :=
  Interleave.lt_after (sorted_post hw hs) hk

end Order

end Emmcfs.FsmNode
