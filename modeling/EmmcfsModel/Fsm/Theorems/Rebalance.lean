import EmmcfsModel.Fsm.Theorems.Shape

namespace Emmcfs

open FsmNode SortedList

variable {κ : Type}

namespace FsmNode

-- An index node around two neighbouring children.
def pair (h : Nat) (ks : List κ) (cs : List (FsmNode κ)) (l : FsmNode κ) (k : κ) (r : FsmNode κ)
    (ks' : List κ) (cs' : List (FsmNode κ)) : FsmNode κ :=
  mk (h + 1) .index (ks ++ k :: ks') (cs ++ l :: r :: cs')

section Pair

variable {ks ks' : List κ} {cs cs' : List (FsmNode κ)} {l r : FsmNode κ} {k : κ}

theorem pair_eq_fill_left : pair h ks cs l k r ks' cs' =
    Hole.fill ⟨ks, cs, k :: ks', r :: cs'⟩ h l := rfl

theorem pair_eq_fill_right : pair h ks cs l k r ks' cs' =
    Hole.fill ⟨ks ++ [k], cs ++ [l], ks', cs'⟩ h r := by
  simp [pair, Hole.fill]

theorem toList_pair (hl : cs.length = ks.length) : toList (h + 1) (pair h ks cs l k r ks' cs') =
    Interleave.before (toList h) cs ks ++ (toList h l ++ k :: toList h r) ++
      Interleave.after (toList h) ks' cs' :=
  Interleave.all_focus_two hl

variable (hl : cs.length = ks.length)

include hl in
theorem pair_left : (pair h ks cs l k r ks' cs').children[ks.length]? = some l := by
  simp [pair, ← hl]

include hl in
theorem pair_right : (pair h ks cs l k r ks' cs').children[ks.length + 1]? = some r := by
  simp [pair, ← hl]

theorem pair_key : (pair h ks cs l k r ks' cs').keyVals[ks.length]? = some k := by
  simp [pair]

include hl in
theorem take_children_pair : (cs ++ l :: r :: cs').take ks.length = cs := by
  simp [← hl]

include hl in
theorem drop_children_pair : (cs ++ l :: r :: cs').drop (ks.length + 2) = cs' := by
  simp [← hl]

theorem drop_keys_pair : (ks ++ k :: ks').drop (ks.length + 1) = ks' := by
  simp

include hl in
theorem mergeAt_pair : mergeAt (pair h ks cs l k r ks' cs') ks.length =
    Hole.fill ⟨ks, cs, ks', cs'⟩ h (mergeNodes l k r) := by
  simp only [mergeAt, pair_left hl, pair_right hl, pair_key]
  simp only [pair, Hole.fill, level_mk, type_mk, keyVals_mk, children_mk, List.take_left,
    drop_keys_pair, take_children_pair hl, drop_children_pair hl]

include hl in
theorem moveKey_left (hr : r.keyVals = k' :: rks) :
    moveKey (pair h ks cs l k r ks' cs') ks.length .left = pair h ks cs
      (mk l.level l.type (l.keyVals ++ [k]) (l.children ++ r.children.take 1)) k'
      (mk r.level r.type rks (r.children.drop 1)) ks' cs' := by
  simp only [moveKey, pair_left hl, pair_right hl, pair_key]
  simp only [pair, level_mk, type_mk, keyVals_mk, children_mk, List.take_left, drop_keys_pair,
    take_children_pair hl, drop_children_pair hl, hr]
  simp

include hl in
theorem moveKey_right (hlk : l.keyVals = lks ++ [k']) :
    moveKey (pair h ks cs l k r ks' cs') (ks.length + 1) .right = pair h ks cs
      (mk l.level l.type lks (l.children.take l.nrActive)) k'
      (mk r.level r.type (k :: r.keyVals) (l.children.drop l.nrActive ++ r.children)) ks' cs' := by
  simp only [moveKey, Nat.add_sub_cancel, pair_left hl, pair_right hl, pair_key]
  simp only [pair, level_mk, type_mk, keyVals_mk, children_mk, List.take_left, drop_keys_pair,
    take_children_pair hl, drop_children_pair hl, hlk, nrActive]
  simp

end Pair

section Merge

variable {l r : FsmNode κ} {k : κ}

theorem toList_mergeNodes (hl : Shape order h lo l) (hr : Shape order h lo' r) :
    toList h (mergeNodes l k r) = toList h l ++ k :: toList h r := by
  cases hl with
  | leaf => cases hr; rfl
  | index _ _ hcl => cases hr with
    | index _ _ hcr => exact Interleave.all_append hcl hcr

theorem shape_mergeNodes (hl : Shape order h lo l) (hr : Shape order h lo' r)
    (hn : l.nrActive + 1 + r.nrActive ≤ 2 * order - 1) (hm : lo'' ≤ l.nrActive + 1 + r.nrActive) :
    Shape order h lo'' (mergeNodes l k r) := by
  have hlen : (l.keyVals ++ k :: r.keyVals).length = l.nrActive + 1 + r.nrActive := by
    simp [nrActive]
    omega
  cases hl with
  | leaf => cases hr; exact .leaf (hlen ▸ hm) (hlen ▸ hn)
  | index _ _ hcl hsl => cases hr with
    | index _ _ hcr hsr =>
      refine .index (hlen ▸ hm) (hlen ▸ hn) (by simp; omega) fun c hc => ?_
      cases List.mem_append.mp hc
      case inl hc => exact hsl c hc
      case inr hc => exact hsr c hc

end Merge

section Move

variable {l r : FsmNode κ} {k : κ}

-- The first key of `r` and what precedes it move out, `l` takes `k` and what was before that key.
theorem Shape.move_left (hl : Shape order h lo l) (hr : Shape order h lo' r)
    (hln : l.nrActive < 2 * order - 1) (hrn : 0 < r.nrActive) :
    ∃ k' rks m, r.keyVals = k' :: rks ∧
      Shape order h (l.nrActive + 1)
        (mk l.level l.type (l.keyVals ++ [k]) (l.children ++ r.children.take 1)) ∧
      Shape order h (r.nrActive - 1) (mk r.level r.type rks (r.children.drop 1)) ∧
      toList h r = m ++ k' :: toList h (mk r.level r.type rks (r.children.drop 1)) ∧
      toList h (mk l.level l.type (l.keyVals ++ [k]) (l.children ++ r.children.take 1)) =
        toList h l ++ k :: m := by
  match hk : r.keyVals with
  | [] => simp [nrActive, hk] at hrn
  | k' :: rks =>
    have hrl := hr.nrActive_le
    cases hl with
    | leaf => cases hr with
      | leaf =>
        simp only [keyVals_mk] at hk
        subst hk
        refine ⟨k', rks, [], rfl, .leaf ?_ ?_, .leaf ?_ ?_, rfl, by simp⟩ <;> simp at * <;> omega
    | @index h _ _ _ _ _ hcl hsl => cases hr with
      | @index _ _ _ rcs _ _ hcr hsr =>
        simp only [keyVals_mk] at hk
        subst hk
        match rcs, hcr with
        | c :: rcs, hcr =>
          simp only [List.length_cons, Nat.add_right_cancel_iff] at hcr
          refine ⟨k', rks, toList h c, rfl, .index ?_ ?_ ?_ ?_, .index ?_ ?_ ?_ ?_, ?_, ?_⟩
          case refine_4 =>
            intro d hd
            simp only [children_mk, List.take_succ_cons, List.take_zero, List.mem_append,
              List.mem_singleton] at hd
            rcases hd with hd | rfl
            exacts [hsl d hd, hsr d (by simp)]
          case refine_8 => exact fun d hd => hsr d (List.mem_of_mem_drop hd)
          case refine_9 =>
            match rcs, hcr with
            | d :: rcs, hcr => simp [toList_succ]
          case refine_10 =>
            have hone : [c].length = ([] : List κ).length + 1 := rfl
            have := Interleave.all_append (f := toList h) (k := k) hcl hone
            simpa [toList_succ] using this
          all_goals simp at *
          all_goals omega

-- The last key of `l` and what follows it move out, `r` takes `k` and what was after that key.
theorem Shape.move_right (hl : Shape order h lo l) (hr : Shape order h lo' r)
    (hln : 0 < l.nrActive) (hrn : r.nrActive < 2 * order - 1) :
    ∃ k' lks m, l.keyVals = lks ++ [k'] ∧
      Shape order h (l.nrActive - 1) (mk l.level l.type lks (l.children.take l.nrActive)) ∧
      Shape order h (r.nrActive + 1)
        (mk r.level r.type (k :: r.keyVals) (l.children.drop l.nrActive ++ r.children)) ∧
      toList h l = toList h (mk l.level l.type lks (l.children.take l.nrActive)) ++ k' :: m ∧
      toList h (mk r.level r.type (k :: r.keyVals) (l.children.drop l.nrActive ++ r.children)) =
        m ++ k :: toList h r := by
  have hne : l.keyVals ≠ [] := by
    intro he
    simp [nrActive, he] at hln
  obtain ⟨lks, k', hk⟩ : ∃ lks k', l.keyVals = lks ++ [k'] :=
    ⟨_, _, (List.dropLast_append_getLast hne).symm⟩
  have hll := hl.nrActive_le
  cases hl with
  | leaf => cases hr with
    | leaf =>
      simp only [keyVals_mk] at hk
      subst hk
      simp only [children_mk, List.take_nil, List.drop_nil, List.append_nil, level_mk, type_mk]
      refine ⟨k', lks, [], rfl, .leaf ?_ ?_, .leaf ?_ ?_, by simp, by simp⟩ <;> simp at * <;> omega
  | @index h _ _ lcs _ _ hcl hsl => cases hr with
    | @index _ _ _ rcs _ _ hcr hsr =>
      simp only [keyVals_mk] at hk
      subst hk
      obtain ⟨lcs, c, rfl⟩ : ∃ lcs' c, lcs = lcs' ++ [c] :=
        ⟨_, _, (List.dropLast_append_getLast (List.ne_nil_of_length_eq_add_one hcl)).symm⟩
      have hlc : lcs.length = lks.length + 1 := by simpa using hcl
      have htk : (lcs ++ [c]).take (lks ++ [k']).length = lcs := by
        simp [← hlc]
      have hdr : (lcs ++ [c]).drop (lks ++ [k']).length = [c] := by
        simp [← hlc]
      simp only [nrActive_mk, children_mk, keyVals_mk, level_mk, type_mk, htk, hdr]
      refine ⟨k', lks, toList h c, rfl, .index ?_ ?_ hlc ?_, .index ?_ ?_ ?_ ?_, ?_, ?_⟩
      case refine_3 => exact fun d hd => hsl d (by simp [hd])
      case refine_7 =>
        intro d hd
        cases List.mem_cons.mp hd
        case inl hd => exact hd ▸ hsl c (by simp)
        case inr hd => exact hsr d hd
      case refine_8 =>
        have hone : [c].length = ([] : List κ).length + 1 := rfl
        have := Interleave.all_append (f := toList h) (k := k') hlc hone
        simpa [toList_succ] using this
      case refine_9 =>
        match rcs, hcr with
        | d :: rcs, hcr => simp [toList_succ]
      all_goals simp at *
      all_goals omega

end Move

-- The child that a deletion goes on in gets a key to spare, and the traversal is the same.
structure Refocused (order h : Nat) (H : Hole κ) (c : FsmNode κ) (H' : Hole κ) (c' : FsmNode κ) :
    Prop where
  wf    : H'.WF order h
  shape : Shape order h order c'
  same  : toList (h + 1) (H'.fill h c') = toList (h + 1) (H.fill h c)
  pre   : ∀ y ∈ H'.pre h, y ∈ H.pre h
  post  : ∀ y ∈ H'.post h, y ∈ H.post h
  le    : (H'.fill h c').nrActive ≤ (H.fill h c).nrActive
  ge    : (H.fill h c).nrActive ≤ (H'.fill h c').nrActive + 1

section Refocus

variable {ks ks' : List κ} {cs cs' : List (FsmNode κ)} {l r : FsmNode κ} {k : κ}

theorem Hole.WF.shift_iff (hl : Shape order h (order - 1) l) (hr : Shape order h (order - 1) r) :
    Hole.WF order h ⟨ks ++ [k], cs ++ [l], ks', cs'⟩ ↔
      Hole.WF order h ⟨ks, cs, k' :: ks', r :: cs'⟩ := by
  constructor
  case mp =>
    intro hw
    refine ⟨by simpa using hw.left, by simpa using hw.right, fun d hd => ?_⟩
    simp only [List.mem_append, List.mem_cons] at hd
    rcases hd with hd | rfl | hd
    exacts [hw.shape d (by simp [hd]), hr, hw.shape d (by simp [hd])]
  case mpr =>
    intro hw
    refine ⟨by simpa using hw.left, by simpa using hw.right, fun d hd => ?_⟩
    simp only [List.mem_append, List.mem_singleton] at hd
    rcases hd with (hd | rfl) | hd
    exacts [hw.shape d (by simp [hd]), hl, hw.shape d (by simp [hd])]

theorem Hole.WF.replace_right (hw : Hole.WF order h ⟨ks, cs, k :: ks', r :: cs'⟩)
    (hr : Shape order h (order - 1) r') : Hole.WF order h ⟨ks, cs, k' :: ks', r' :: cs'⟩ := by
  refine ⟨hw.left, by simpa using hw.right, fun d hd => ?_⟩
  simp only [List.mem_append, List.mem_cons] at hd
  rcases hd with hd | rfl | hd
  exacts [hw.shape d (by simp [hd]), hr, hw.shape d (by simp [hd])]

theorem Hole.WF.replace_left (hw : Hole.WF order h ⟨ks ++ [k], cs ++ [l], ks', cs'⟩)
    (hl : Shape order h (order - 1) l') : Hole.WF order h ⟨ks ++ [k'], cs ++ [l'], ks', cs'⟩ := by
  refine ⟨by simpa using hw.left, hw.right, fun d hd => ?_⟩
  simp only [List.mem_append, List.mem_singleton] at hd
  rcases hd with (hd | rfl) | hd
  exacts [hw.shape d (by simp [hd]), hl, hw.shape d (by simp [hd])]

theorem Hole.WF.drop_right (hw : Hole.WF order h ⟨ks, cs, k :: ks', r :: cs'⟩) :
    Hole.WF order h ⟨ks, cs, ks', cs'⟩ := by
  refine ⟨hw.left, by simpa using hw.right, fun d hd => hw.shape d ?_⟩
  simp only [List.mem_append, List.mem_cons] at hd ⊢
  exact hd.imp_right .inr

theorem Hole.pre_snoc (hl : cs.length = ks.length) :
    Hole.pre h ⟨ks ++ [k], cs ++ [l], ks', cs'⟩ =
      Interleave.before (toList h) cs ks ++ toList h l ++ [k] := by
  simp only [Hole.pre, Interleave.before]
  rw [List.zipWith_append (by exact hl)]
  simp

-- The child in the hole takes a key from its right sibling.
theorem refocused_left (hw : Hole.WF order h ⟨ks, cs, k :: ks', r :: cs'⟩)
    (hl : Shape order h (order - 1) l) (hln : l.nrActive = order - 1) (ho : 2 ≤ order)
    (hrn : order - 1 < r.nrActive) :
    ∃ H' c', moveKey (Hole.fill ⟨ks, cs, k :: ks', r :: cs'⟩ h l) ks.length .left = H'.fill h c' ∧
      H'.keys.length = ks.length ∧ Refocused order h ⟨ks, cs, k :: ks', r :: cs'⟩ l H' c' := by
  have hr : Shape order h (order - 1) r := hw.shape r (by simp)
  obtain ⟨k', rks, m, hrk, hsl, hsr, htr, htl⟩ := hl.move_left (k := k) hr (by omega) (by omega)
  have hlen : r.nrActive = rks.length + 1 := by simp [nrActive, hrk]
  have hr' : Shape order h (order - 1) (mk r.level r.type rks (r.children.drop 1)) :=
    hsr.of_le_nrActive (by simp; omega)
  have hw' : Hole.WF order h ⟨ks, cs, k' :: ks', mk r.level r.type rks (r.children.drop 1) :: cs'⟩ :=
    hw.replace_right hr'
  rw [← pair_eq_fill_left, moveKey_left (by exact hw.left) hrk, pair_eq_fill_left]
  refine ⟨_, _, rfl, rfl, hw', ?_, ?_, fun y hy => hy, fun y hy => ?_, ?_, ?_⟩
  · exact hsl.of_le_nrActive (by simp [nrActive] at hln ⊢; omega)
  · rw [Hole.toList_fill hw', Hole.toList_fill hw]
    simp [Hole.pre, Hole.post, htr, htl]
  · simp only [Hole.post, Interleave.after_cons, htr, List.mem_cons, List.mem_append] at hy ⊢
    tauto
  · simp [nrActive]
  · simp [nrActive]

-- The child in the hole takes a key from its left sibling.
theorem refocused_right (hw : Hole.WF order h ⟨ks ++ [k], cs ++ [l], ks', cs'⟩)
    (hr : Shape order h (order - 1) r) (hrn : r.nrActive = order - 1) (ho : 2 ≤ order)
    (hln : order - 1 < l.nrActive) :
    ∃ H' c', moveKey (Hole.fill ⟨ks ++ [k], cs ++ [l], ks', cs'⟩ h r) (ks.length + 1) .right =
      H'.fill h c' ∧ H'.keys.length = ks.length + 1 ∧
      Refocused order h ⟨ks ++ [k], cs ++ [l], ks', cs'⟩ r H' c' := by
  have hlen : cs.length = ks.length := by simpa using hw.left
  have hl : Shape order h (order - 1) l := hw.shape l (by simp)
  obtain ⟨k', lks, m, hlk, hsl, hsr, htl, htr⟩ := hl.move_right (k := k) hr (by omega) (by omega)
  have hlen' : l.nrActive = lks.length + 1 := by simp [nrActive, hlk]
  have hl' : Shape order h (order - 1) (mk l.level l.type lks (l.children.take l.nrActive)) :=
    hsl.of_le_nrActive (by simp; omega)
  have hw' : Hole.WF order h ⟨ks ++ [k'], cs ++ [mk l.level l.type lks
      (l.children.take l.nrActive)], ks', cs'⟩ := hw.replace_left hl'
  rw [← pair_eq_fill_right, moveKey_right hlen hlk, pair_eq_fill_right]
  refine ⟨_, _, rfl, by simp, hw', ?_, ?_, fun y hy => ?_, fun y hy => hy, ?_, ?_⟩
  · exact hsr.of_le_nrActive (by simp [nrActive] at hrn ⊢; omega)
  · rw [Hole.toList_fill hw', Hole.toList_fill hw, Hole.pre_snoc hlen, Hole.pre_snoc hlen]
    simp [Hole.post, htr, htl]
  · simp only [Hole.pre_snoc hlen, htl, List.mem_cons, List.mem_append] at hy ⊢
    tauto
  · simp [nrActive]
  · simp [nrActive]

-- The child in the hole is merged with its right sibling.
theorem refocused_merge (hw : Hole.WF order h ⟨ks, cs, k :: ks', r :: cs'⟩)
    (hl : Shape order h (order - 1) l) (ho : 2 ≤ order)
    (hn : l.nrActive + 1 + r.nrActive ≤ 2 * order - 1) :
    Refocused order h ⟨ks, cs, k :: ks', r :: cs'⟩ l ⟨ks, cs, ks', cs'⟩ (mergeNodes l k r) := by
  have hr : Shape order h (order - 1) r := hw.shape r (by simp)
  have hm := toList_mergeNodes (k := k) hl hr
  have := hl.le_nrActive
  refine ⟨hw.drop_right, shape_mergeNodes hl hr hn (by omega), ?_, fun y hy => hy, fun y hy => ?_,
    ?_, ?_⟩
  · rw [Hole.toList_fill hw, Hole.toList_fill hw.drop_right, hm]
    simp [Hole.pre, Hole.post]
  · simp only [Hole.post, Interleave.after_cons, List.mem_cons, List.mem_append] at hy ⊢
    exact .inr (.inr hy)
  · simp [nrActive]
  · simp [nrActive]
    omega

-- The child in the hole, the last one, is merged with its left sibling.
theorem refocused_merge_last (hw : Hole.WF order h ⟨ks ++ [k], cs ++ [l], [], []⟩)
    (hr : Shape order h (order - 1) r) (ho : 2 ≤ order)
    (hn : l.nrActive + 1 + r.nrActive ≤ 2 * order - 1) :
    Refocused order h ⟨ks ++ [k], cs ++ [l], [], []⟩ r ⟨ks, cs, [], []⟩ (mergeNodes l k r) := by
  have hl : Shape order h (order - 1) l := hw.shape l (by simp)
  have hlen : cs.length = ks.length := by simpa using hw.left
  have hw₁ : Hole.WF order h ⟨ks, cs, [k], [r]⟩ := Hole.WF.shift_iff hl hr |>.mp hw
  have hm := refocused_merge hw₁ hl ho hn
  refine ⟨hm.wf, hm.shape, ?_, fun y hy => ?_, by simp [Hole.post], ?_, ?_⟩
  · rw [hm.same, ← pair_eq_fill_left, pair_eq_fill_right]
  · rw [Hole.pre_snoc hlen]
    simp only [Hole.pre] at hy
    simp [hy]
  · simp [nrActive]
  · simp [nrActive]

end Refocus

-- The keys of the siblings of the child in a hole, as fixChild sees them.
theorem Hole.rsibling {H : Hole κ} (hw : H.WF order h) :
    (if H.keys.length = (H.fill h c).nrActive then none
      else (H.fill h c).children[H.keys.length + 1]?.map nrActive) =
      H.children'.head?.map nrActive := by
  have hl := hw.right
  rw [children_fill, List.getElem?_append_right (by rw [hw.left]; omega)]
  match hk : H.keys', hc : H.children', hl with
  | [], [], _         => simp [nrActive, hk]
  | k :: ks, r :: cs, _ => simp [nrActive, hk, hw.left]

theorem Hole.lsibling {H : Hole κ} (hw : H.WF order h) :
    (if H.keys.length = 0 then none
      else (H.fill h c).children[H.keys.length - 1]?.map nrActive) =
      H.children.getLast?.map nrActive := by
  split
  case isTrue hk =>
    have : H.children = [] := List.eq_nil_of_length_eq_zero (hw.left.trans hk)
    simp [this]
  case isFalse hk =>
    rw [children_fill, List.getElem?_append_left (by rw [hw.left]; omega),
      List.getLast?_eq_getElem?, hw.left]

-- A last child that is merged, or another one, as mergeSiblings decides.
theorem mergeSiblings_refocused {H : Hole κ} {c : FsmNode κ} (ho : 2 ≤ order) (hw : H.WF order h)
    (hc : Shape order h (order - 1) c) (hn : 0 < (H.fill h c).nrActive)
    (hfull : c.nrActive = order - 1) (hr : ∀ r ∈ H.children'.head?, r.nrActive = order - 1)
    (hl : H.keys' = [] → ∀ l ∈ H.children.getLast?, l.nrActive = order - 1) :
    ∃ H' c', mergeSiblings (H.fill h c) H.keys.length = (H'.fill h c', H'.keys.length) ∧
      Refocused order h H c H' c' := by
  obtain ⟨ks, cs, ks', cs'⟩ := H
  match ks', cs', hw.right with
  | k :: ks', r :: cs', _ =>
    have hr : r.nrActive = order - 1 := hr r (by simp)
    refine ⟨⟨ks, cs, ks', cs'⟩, mergeNodes c k r, ?_, refocused_merge hw hc ho (by omega)⟩
    have hi : ¬ks.length = (Hole.fill ⟨ks, cs, k :: ks', r :: cs'⟩ h c).nrActive := by simp [nrActive]
    simp only [mergeSiblings, if_neg hi]
    rw [← pair_eq_fill_left, mergeAt_pair (by exact hw.left)]
  | [], [], _ =>
    have hne : ks ≠ [] := by
      rintro rfl
      simp [nrActive] at hn
    obtain ⟨ks, k, rfl⟩ : ∃ ks₀ k, ks = ks₀ ++ [k] :=
      ⟨_, _, (List.dropLast_append_getLast hne).symm⟩
    have hlen : cs.length = ks.length + 1 := by simpa using hw.left
    obtain ⟨cs, l, rfl⟩ : ∃ cs₀ l, cs = cs₀ ++ [l] :=
      ⟨_, _, (List.dropLast_append_getLast (List.ne_nil_of_length_eq_add_one hlen)).symm⟩
    have hl : l.nrActive = order - 1 := hl rfl l (by simp)
    refine ⟨⟨ks, cs, [], []⟩, mergeNodes l k c, ?_, refocused_merge_last hw hc ho (by omega)⟩
    rw [← pair_eq_fill_right]
    have hi : ks.length + 1 = (pair h ks cs l k c [] []).nrActive := by simp [nrActive, pair]
    simp only [mergeSiblings, List.length_append, List.length_singleton, if_pos hi,
      Nat.add_sub_cancel]
    rw [mergeAt_pair (by simpa using hlen)]

theorem fixChild_refocused {H : Hole κ} {c : FsmNode κ} (ho : 2 ≤ order) (hw : H.WF order h)
    (hc : Shape order h (order - 1) c) (hn : 0 < (H.fill h c).nrActive) :
    ∃ H' c', fixChild order (H.fill h c) H.keys.length = (H'.fill h c', H'.keys.length) ∧
      Refocused order h H c H' c' := by
  have hcn := hc.le_nrActive
  simp only [fixChild, Hole.child_fill hw, Option.map_some, Option.some.injEq, Hole.rsibling hw,
    Hole.lsibling hw]
  by_cases hfull : c.nrActive = order - 1
  case neg =>
    rw [if_neg hfull]
    refine ⟨_, _, rfl, hw, hc.of_le_nrActive (by omega), rfl, ?_, ?_, le_rfl, by omega⟩ <;> simp
  case pos =>
    rw [if_pos hfull]
    have hge : ∀ d ∈ H.children ++ H.children', order - 1 ≤ d.nrActive :=
      fun d hd => (hw.shape d hd).le_nrActive
    split
    case isTrue hr =>
      obtain ⟨ks, cs, ks', cs'⟩ := H
      match ks', cs', hw.right with
      | [], [], _             => simp at hr
      | k :: ks', r :: cs', _ =>
        obtain ⟨H', c', hm, hk, href⟩ := refocused_left hw hc hfull ho (by simpa using hr)
        exact ⟨H', c', by rw [hm, hk], href⟩
    case isFalse hr =>
      have hr' : ∀ r ∈ H.children'.head?, r.nrActive = order - 1 := by
        intro r hr'
        have := hge r (by simp [List.mem_of_mem_head? hr'])
        simp only [Option.mem_def.mp hr', Option.map_some, Option.any_some, decide_eq_true_eq] at hr
        omega
      split
      case isTrue hl =>
        obtain ⟨ks, cs, ks', cs'⟩ := H
        have hne : cs ≠ [] := by
          rintro rfl
          simp at hl
        have hne' : ks ≠ [] := by
          rintro rfl
          exact hne (List.eq_nil_of_length_eq_zero hw.left)
        obtain ⟨ks, k, rfl⟩ : ∃ ks₀ k, ks = ks₀ ++ [k] :=
          ⟨_, _, (List.dropLast_append_getLast hne').symm⟩
        obtain ⟨cs, l, rfl⟩ : ∃ cs₀ l, cs = cs₀ ++ [l] :=
          ⟨_, _, (List.dropLast_append_getLast hne).symm⟩
        obtain ⟨H', c', hm, hk, href⟩ := refocused_right hw hc hfull ho (by simpa using hl)
        refine ⟨H', c', ?_, href⟩
        simp only [List.length_append, List.length_singleton]
        rw [hm, hk]
      case isFalse hl =>
        have hl' : ∀ l ∈ H.children.getLast?, l.nrActive = order - 1 := by
          intro l hl'
          have := hge l (by simp [List.mem_of_mem_getLast? hl'])
          simp only [Option.mem_def.mp hl', Option.map_some, Option.any_some, decide_eq_true_eq] at hl
          omega
        have hmerge := mergeSiblings_refocused ho hw hc hn hfull hr' fun _ => hl'
        split
        case isTrue => exact hmerge
        case isFalse hls =>
          split
          case isTrue => exact hmerge
          case isFalse hrs =>
            -- with a key in the node the child has a sibling
            have hl₀ : H.children.length = 0 := by
              rw [List.length_eq_zero_iff, ← List.getLast?_eq_none_iff, ← Option.not_isSome_iff_eq_none,
                Option.isSome_iff_exists]
              exact fun ⟨l, hl⟩ => hls (by rw [hl, Option.map_some, hl' l hl])
            have hr₀ : H.children'.length = 0 := by
              rw [List.length_eq_zero_iff, ← List.head?_eq_none_iff, ← Option.not_isSome_iff_eq_none,
                Option.isSome_iff_exists]
              exact fun ⟨r, hr⟩ => hrs (by rw [hr, Option.map_some, hr' r hr])
            have := hw.left
            have := hw.right
            simp only [nrActive, Hole.keyVals_fill, List.length_append] at hn
            omega

end FsmNode

end Emmcfs
