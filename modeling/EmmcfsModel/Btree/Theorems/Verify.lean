import EmmcfsModel.Btree.Verify
import EmmcfsModel.Catalog.Tree
import Mathlib.Data.Multiset.DershowitzManna

namespace Emmcfs

open Code

namespace Verification

variable {tree : BtreeOps κ} {s s' : Verification κ ν}

-- The walk changes nothing in the tree but takes the outcomes of its requests.
def Looks (s s' : Verification κ ν) : Prop :=
  ∃ env, s'.btree = { s.btree with env := env }

theorem Looks.refl : Looks s s :=
  ⟨s.btree.env, rfl⟩

theorem Looks.trans (h : Looks s s') (h' : Looks s' s'') : Looks s s'' := by
  obtain ⟨_, h⟩ := h
  obtain ⟨env, h'⟩ := h'
  exact ⟨env, by rw [h', h]⟩

theorem Looks.bnode (h : Looks s s') : s'.btree.bnode = s.btree.bnode := by
  obtain ⟨_, h⟩ := h
  rw [h]
  rfl

section Tree

variable {b : Btree κ ν}

theorem request_env : wp request (fun _ t => ∃ env, t = { b with env := env })
    (fun _ t => ∃ env, t = { b with env := env }) False b := by
  rw [request, wp_bind, wp_get]
  match b.env.outcomes with
  | []          => exact ⟨b.env, rfl⟩
  | none :: _   => exact ⟨_, rfl⟩
  | some _ :: _ => exact ⟨_, rfl⟩

theorem getBnode_env : wp (getBnode n)
    (fun r t => (∃ env, t = { b with env := env }) ∧ b.InUse n ∧ r = b.bnode n)
    (fun _ t => ∃ env, t = { b with env := env }) False b := by
  rw [getBnode, wp_bind, wp_get, wp_ite, wp_bind]
  refine ⟨fun _ => ⟨b.env, rfl⟩, fun h => ?_⟩
  refine wp_imp request_env (fun _ _ hr => ⟨hr, ?_, rfl⟩)
  by_contra hn
  rw [Btree.InUse, not_or] at hn
  exact h ⟨hn.left, by simpa using hn.right⟩

theorem getChildBnode_env (hf : tree.isMountFinished = false) : wp (getChildBnode tree r)
    (fun n t => (∃ env, t = { b with env := env }) ∧ n = r.nodeId)
    (fun _ t => ∃ env, t = { b with env := env }) False b := by
  rw [getChildBnode, wp_ite, faultOrBug, hf, wp_bind]
  refine ⟨fun _ => ⟨b.env, rfl⟩, fun _ => ?_⟩
  exact wp_imp getBnode_env (fun _ _ h => ⟨h.left, rfl⟩)

end Tree

-- The walk goes on with more entries in the query.
structure Queued (added : List (Except Errno Nat)) (s s' : Verification κ ν) : Prop where
  looks : Looks s s'
  query : s'.query.toList = s.query.toList ++ added

theorem errPtr_queued {m : BtreeCode κ ν Nat} {P : Nat → Prop}
    (hm : wp m (fun n t => (∃ env, t = { s.btree with env := env }) ∧ P n)
      (fun _ t => ∃ env, t = { s.btree with env := env }) False s.btree) :
    wp (errPtr m) (fun x s' => Queued [] s s' ∧ ∀ n, x = .ok n → P n) (fun _ _ => False) False s := by
  rw [errPtr, wp_onFail, wp_bind]
  refine wp_zoom.mpr (wp_mono hm (fun n t ht => ?_) (fun _ t ht => ?_) id)
  · exact ⟨⟨ht.left, (List.append_nil _).symm⟩, fun n' he => by cases he; exact ht.right⟩
  · exact ⟨⟨ht, (List.append_nil _).symm⟩, fun n' he => nomatch he⟩

theorem pushQuery_queued : wp (pushQuery x)
    (fun _ s' => Queued [] s s' ∨ Queued [x] s s') (fun _ _ => False) False s := by
  rw [pushQuery, wp_bind, wp_get]
  split
  case h_1        => exact .inl ⟨.refl, (List.append_nil _).symm⟩
  case h_2 q hq => exact .inr ⟨.refl, RingBuffer.toList_push hq⟩

-- There is room in an empty query.
theorem pushQuery_nil (h : s.query.toList = []) : wp (pushQuery x)
    (fun r s' => r = none ∧ s'.btree = s.btree ∧ s'.query.toList = [x] ∧ s'.err = s.err)
    (fun _ _ => False) False s := by
  rw [pushQuery, wp_bind, wp_get]
  split
  case h_1 hp =>
    have hl := RingBuffer.push_eq_none_iff.mp hp
    rw [← RingBuffer.length_toList, h] at hl
    cases hl
  case h_2 q hp => exact ⟨rfl, rfl, by rw [RingBuffer.toList_push hp, h]; rfl, rfl⟩

theorem Queued.trans (h : Queued as s s') (h' : Queued bs s' s'') : Queued (as ++ bs) s s'' :=
  ⟨h.looks.trans h'.looks, by rw [h'.query, h.query, List.append_assoc]⟩

-- Entries for some of the records.
theorem pushChildren_queued (hf : tree.isMountFinished = false) : wp (pushChildren tree recs)
    (fun _ s' => ∃ added, Queued added s s' ∧
      ∀ n, .ok n ∈ added → ∃ r ∈ recs, n = r.nodeId) (fun _ _ => False) False s := by
  induction recs generalizing s
  case nil => exact ⟨[], ⟨.refl, (List.append_nil _).symm⟩, fun n hn => nomatch hn⟩
  case cons r recs ih =>
    rw [pushChildren, wp_bind]
    refine wp_imp (errPtr_queued (P := (· = r.nodeId)) (getChildBnode_env hf)) (fun x s₁ h₁ => ?_)
    rw [wp_bind]
    refine wp_imp pushQuery_queued (fun e s₂ h₂ => ?_)
    obtain ⟨added, hq, hr⟩ : ∃ added, Queued added s s₂ ∧
        ∀ n, .ok n ∈ added → ∃ r' ∈ r :: recs, n = r'.nodeId := by
      rcases h₂ with h₂ | h₂
      · exact ⟨_, h₁.left.trans h₂, fun n hn => by simp at hn⟩
      · refine ⟨_, h₁.left.trans h₂, fun n hn => ⟨r, by simp, h₁.right n ?_⟩⟩
        exact (List.mem_singleton.mp hn).symm
    rw [wp_bind, wp_modify, wp_ite]
    refine ⟨fun _ => ⟨added, ⟨hq.looks, hq.query⟩, hr⟩, fun _ => ?_⟩
    refine wp_imp ih (fun _ s₃ ⟨more, h₃, hm⟩ => ?_)
    refine ⟨added ++ more, hq.trans ⟨h₃.looks, h₃.query⟩, fun n hn => ?_⟩
    rcases List.mem_append.mp hn with hn | hn
    · exact hr n hn
    · obtain ⟨r', hr', he⟩ := hm n hn
      exact ⟨r', by simp [hr'], he⟩

-- A round that is not the last one has replaced the first entry by entries for the children of its
-- node.
structure Replaces (n : Nat) (rest added : List (Except Errno Nat)) (s s' : Verification κ ν) :
    Prop where
  looks  : Looks s s'
  first  : s.query.toList = .ok n :: rest
  query  : s'.query.toList = rest ++ added
  nodes  : ∀ m, .ok m ∈ added → (s.btree.bnode n).type = .index ∧
    ∃ r ∈ (s.btree.bnode n).recs, m = r.nodeId

theorem finish_spec {P : Verification κ ν → Prop} :
    wp finish (fun r s' => r = none → P s') (fun _ _ => True) False s := by
  rw [finish, wp_bind, wp_get]
  split
  case h_1 => exact fun h => nomatch h
  case h_2 => trivial

theorem verifyBnode_queued (hf : tree.isMountFinished = false) : wp (verifyBnode tree n)
    (fun r s' => r = none → ∃ added, Queued added s s' ∧ ∀ m, .ok m ∈ added →
      (s.btree.bnode n).type = .index ∧ ∃ r ∈ (s.btree.bnode n).recs, m = r.nodeId)
    (fun _ _ => True) False s := by
  rw [verifyBnode, wp_bind, wp_get, wp_ite, wp_bind]
  refine ⟨fun _ => finish_spec, fun _ => wp_zoom.mpr ?_⟩
  refine wp_mono getBnode_env (fun _ t ⟨ht, _⟩ => ?_) (fun _ _ _ => trivial) id
  rw [wp_ite, wp_ite, wp_bind]
  refine ⟨fun _ => trivial, fun _ => ⟨fun _ _ => ?_, fun hleaf => ?_⟩⟩
  · exact ⟨[], ⟨ht, (List.append_nil _).symm⟩, fun m hm => nomatch hm⟩
  · have hindex : (s.btree.bnode n).type = .index := by
      cases ht : (s.btree.bnode n).type
      case index => rfl
      case leaf  => exact absurd ht hleaf
    refine wp_mono (pushChildren_queued hf) (fun _ s' ⟨added, hq, hr⟩ _ => ?_)
      (fun _ _ => False.elim) id
    exact ⟨added, ⟨Looks.trans ⟨_, ht.choose_spec⟩ hq.looks, hq.query⟩, fun m hm => ⟨hindex, hr m hm⟩⟩

theorem verifyRound_replaces (hf : tree.isMountFinished = false) : wp (verifyRound tree)
    (fun r s' => r = none → ∃ n rest added, Replaces n rest added s s')
    (fun _ _ => True) False s := by
  rw [verifyRound, popQuery, wp_bind, wp_bind, wp_get]
  split
  case h_1             => exact finish_spec
  case h_2 x q hp =>
    rw [wp_bind, wp_modify, wp_pure]
    match x with
    | .error e => trivial
    | .ok n    =>
      refine wp_imp (verifyBnode_queued hf) (fun r s' h hr => ?_)
      obtain ⟨added, hq, hn⟩ := h hr
      exact ⟨n, q.toList, added, hq.looks, RingBuffer.toList_pop hp, hq.query, hn⟩

-- The entries of the query by how far their nodes are from the leaves.
def weight (rank : Nat → Nat) : Except Errno Nat → Nat
  | .ok n    => rank n + 1
  | .error _ => 0

theorem Replaces.lt {rank : Nat → Nat} (h : Replaces n rest added s s')
    (hr : ∀ n, (s.btree.bnode n).type = .index → ∀ r ∈ (s.btree.bnode n).recs,
      rank r.nodeId < rank n) :
    Multiset.IsDershowitzMannaLT (s'.query.toList.map (weight rank) : Multiset Nat)
      (s.query.toList.map (weight rank)) := by
  refine ⟨rest.map (weight rank), added.map (weight rank), {weight rank (.ok n)}, ?_, ?_, ?_, ?_⟩
  case refine_1 => exact Multiset.singleton_ne_zero _
  case refine_2 => rw [h.query, List.map_append, Multiset.coe_add]
  case refine_3 =>
    rw [h.first, List.map_cons, ← Multiset.cons_coe, Multiset.add_comm, Multiset.singleton_add]
  case refine_4 =>
    refine fun y hy => ⟨_, Multiset.mem_singleton_self _, ?_⟩
    obtain ⟨x, hx, he⟩ := List.mem_map.mp hy
    subst he
    match x with
    | .error _ => exact Nat.succ_pos _
    | .ok m    =>
      obtain ⟨hi, r, hmem, he⟩ := h.nodes m hx
      subst he
      exact Nat.succ_lt_succ (hr n hi r hmem)

-- The walk through a tree whose index records lead from level to level comes to an end.
theorem ends_of_ranked (hf : tree.isMountFinished = false) (h : s.btree.Ranked) :
    ∃ n, Ends (verifyRound tree) n s := by
  obtain ⟨rank, hr⟩ := h
  generalize hm : (s.query.toList.map (weight rank) : Multiset Nat) = m
  have hwf := @Multiset.wellFounded_isDershowitzMannaLT Nat _ _
  induction m using hwf.induction generalizing s
  case h m ih =>
    have hw := verifyRound_replaces (s := s) hf
    rw [wp] at hw
    match he : verifyRound tree s with
    | .halt       => simp [he] at hw
    | .fail e s'  => exact ⟨1, by simp [Ends, wp, he]⟩
    | .ok r s'    =>
      cases r
      case some => exact ⟨1, by simp [Ends, wp, he]⟩
      case none =>
        rw [he] at hw
        obtain ⟨n, rest, added, h⟩ := hw rfl
        have hlt := h.lt hr
        rw [hm] at hlt
        obtain ⟨k, hk⟩ := ih _ hlt (s := s') (by rw [h.looks.bnode]; exact hr) rfl
        exact ⟨k + 1, by simpa [Ends, wp, he] using hk⟩

theorem verifyRound_ne_halt (hf : tree.isMountFinished = false) (s : Verification κ ν) :
    verifyRound tree s ≠ .halt :=
  ne_halt_iff.mpr (wp_imp (verifyRound_replaces hf) (fun _ _ _ => trivial))

section Start

theorem request_quiet {b : Btree κ ν} (h : ∀ e, some e ∉ b.env.outcomes.take (n + 1)) :
    wp request (fun _ t => ∃ env, t = { b with env := env } ∧ ∀ e, some e ∉ env.outcomes.take n)
      (fun _ _ => False) False b := by
  rw [request, wp_bind, wp_get]
  match ho : b.env.outcomes with
  | []             => exact ⟨b.env, rfl, by simp [ho]⟩
  | none :: rest   => exact ⟨_, rfl, fun e he => h e (by simp [ho, he])⟩
  | some e :: rest => exact absurd (by simp [ho]) (h e)

theorem initQuery_spec (h : s.Quiet (n + 1)) : wp initQuery
    (fun _ s' => Looks s s' ∧ s'.Quiet n ∧ s'.query.toList = [] ∧ s'.err = none)
    (fun _ _ => False) False s := by
  rw [initQuery, wp_bind, wp_onFail, onBtree, wp_zoom, kmalloc, wp_onFail]
  refine wp_mono (request_quiet h) (fun _ _ ⟨env, ht, hq⟩ => ?_) (fun _ _ => False.elim) id
  subst ht
  exact ⟨⟨env, rfl⟩, hq, RingBuffer.toList_empty _, rfl⟩

theorem pushRoot_looks (h : s.Quiet 1) :
    wp pushRoot (fun _ s' => Looks s s') (fun _ _ => False) False s := by
  rw [pushRoot, wp_bind]
  refine wp_imp (initQuery_spec h) (fun _ s₁ h₁ => ?_)
  rw [wp_bind, wp_get, wp_bind]
  refine wp_imp (errPtr_queued (P := fun _ => True) ?_) (fun x s₂ h₂ => ?_)
  · rw [wp_bind]
    exact wp_imp getBnode_env (fun _ _ h => ⟨h.left, trivial⟩)
  · rw [wp_bind]
    refine wp_imp pushQuery_queued (fun _ s₃ h₃ => ?_)
    exact h₁.left.trans (h₂.left.looks.trans (h₃.elim (·.looks) (·.looks)))

-- The root is the first node of the walk.
theorem pushRoot_inUse (h : s.Quiet 2) (hr : s.btree.InUse s.btree.rootBnodeId) : wp pushRoot
    (fun _ s' => Looks s s' ∧ s'.query.toList = [.ok s.btree.rootBnodeId] ∧ s'.err = none)
    (fun _ _ => False) False s := by
  rw [pushRoot, wp_bind]
  refine wp_imp (initQuery_spec h) ?_
  rintro _ s₁ ⟨⟨env, hb⟩, hq, he, herr⟩
  rw [wp_bind, wp_get, wp_bind, errPtr, wp_onFail, wp_bind, onBtree, wp_zoom, wp_bind, getBnode,
    wp_bind, wp_get, if_neg (fun hn => hr.elim (by simpa [hb] using hn.left)
      (by simpa [hb] using hn.right)), wp_bind]
  refine wp_mono (request_quiet hq) ?_ (fun _ _ => False.elim) id
  rintro _ _ ⟨env', rfl, _⟩
  simp only [wp_pure, wp_bind, hb]
  refine wp_imp (pushQuery_nil he) ?_
  rintro _ s' ⟨_, hb', hq', he'⟩
  exact ⟨⟨env', hb'⟩, hq', he'.trans herr⟩

end Start

-- A root without a next node is the only node that is looked at.
theorem verifyRound_root (hq : s.query.toList = .ok n :: rest) (he : s.err = none)
    (hn : (s.btree.bnode n).nextNodeId = 0) :
    wp (verifyRound tree) (fun r _ => r = some ()) (fun _ _ => False) False s := by
  rw [verifyRound, popQuery, wp_bind, wp_bind, wp_get]
  split
  case h_1 hp =>
    rw [RingBuffer.pop_eq_none_iff.mp hp] at hq
    cases hq
  case h_2 x q hp =>
    rw [RingBuffer.toList_pop hp] at hq
    cases hq
    rw [wp_bind, wp_modify, wp_pure]
    simp only [verifyBnode, wp_bind, wp_get, hn, if_true, finish, he]
    rfl

theorem emmcfsVerifyBtree_eq (hp : pushRoot s = .ok () s') :
    emmcfsVerifyBtree tree n s = Code.loop (verifyRound tree) n s' :=
  bind_of_ok hp

-- What ends within some rounds gives the check its result.
theorem ends_of_pushRoot (hf : tree.isMountFinished = false) (hp : pushRoot s = .ok () s')
    (h : Ends (verifyRound tree) n s') : emmcfsVerifyBtree tree n s ≠ .halt ∧
      ∀ k, emmcfsVerifyBtree tree (n + k) s = emmcfsVerifyBtree tree n s := by
  simp only [emmcfsVerifyBtree_eq hp]
  exact ⟨h.ne_halt (verifyRound_ne_halt hf), fun k => h.loop_add⟩

section Images

-- The start of the check of a tree with root 1.
def ofImage (bnodes : Table (Bnode CattreeKey Unit)) (bitmap height : Nat) :
    Verification CattreeKey Unit where
  btree := ⟨bnodes, bitmap, 0, 0, 1, height, ⟨0, []⟩⟩
  query := letI : Inhabited (Except Errno Nat) := ⟨.ok 0⟩; RingBuffer.empty bnodeCacheItems_pos
  err   := none

def imageRecord (ch : BitVec 8) (payload : Payload Unit) : BtreeRecord CattreeKey Unit :=
  ⟨⟨1, [ch], by simp [catMaxName]⟩, 32, payload⟩

-- A leaf with one record.
def leafImage : Verification CattreeKey Unit :=
  ofImage [(1, ⟨.leaf, [imageRecord 0x61 (.data ())], 4000, 0, 0⟩)] 0b11 1

theorem leafImage_ranked : leafImage.btree.Ranked := by
  refine ⟨fun _ => 0, fun id hi => ?_⟩
  simp only [leafImage, ofImage, Btree.bnode, Table.get] at hi
  split at hi <;> cases hi

theorem leafImage_linksOk : leafImage.btree.LinksOk := by
  intro id _ hn
  simp only [leafImage, ofImage, Btree.bnode, Table.get] at hn
  split at hn <;> exact absurd rfl hn

-- The second leaf does not point back to the first.
def unlinkedImage : Verification CattreeKey Unit :=
  ofImage [(1, ⟨.index, [imageRecord 0x61 (.node 2), imageRecord 0x62 (.node 3)], 4000, 0, 0⟩),
    (2, ⟨.leaf, [imageRecord 0x61 (.data ())], 4000, 0, 3⟩),
    (3, ⟨.leaf, [imageRecord 0x62 (.data ())], 4000, 0, 0⟩)] 0b1111 2

-- The root is its own neighbour and its own child.
def cyclicImage : Verification CattreeKey Unit :=
  ofImage [(1, ⟨.index, [imageRecord 0x61 (.node 1)], 4000, 1, 1⟩)] 0b11 2

theorem unlinkedImage_not_linksOk : ¬unlinkedImage.btree.LinksOk := by
  intro h
  have hr : unlinkedImage.btree.Reachable 2 :=
    .child (r := imageRecord 0x61 (.node 2)) (.root (.inr rfl)) rfl (.head _) (by decide) (.inr rfl)
  exact absurd (h 2 hr (by decide)).right (by decide)

-- The query holds the root again after each round.
theorem cyclicImage_round {s : Verification CattreeKey Unit} (hb : s.btree = cyclicImage.btree)
    (hq : s.query.toList = [.ok 1]) :
    wp (verifyRound (catTree false false 0)) (fun r s' => r = none ∧
      s'.btree = cyclicImage.btree ∧ s'.query.toList = [.ok 1]) (fun _ _ => False) False s := by
  obtain ⟨btree, query, err⟩ := s
  subst hb
  rw [verifyRound, popQuery, wp_bind, wp_bind, wp_get]
  split
  case h_1 hp =>
    rw [RingBuffer.pop_eq_none_iff.mp hp] at hq
    cases hq
  case h_2 x q hp =>
    rw [RingBuffer.toList_pop hp] at hq
    obtain ⟨hx, hrest⟩ := List.cons.inj hq
    subst hx
    have hget : getBnode 1 cyclicImage.btree = .ok (cyclicImage.btree.bnode 1) cyclicImage.btree := rfl
    have hchild : getChildBnode (catTree false false 0) (imageRecord 0x61 (.node 1))
        cyclicImage.btree = .ok 1 cyclicImage.btree := rfl
    have hroot : cyclicImage.btree.bnode 1 = ⟨.index, [imageRecord 0x61 (.node 1)], 4000, 1, 1⟩ := rfl
    rw [wp_bind, wp_modify, wp_pure]
    simp only
    rw [verifyBnode, wp_bind, wp_get]
    simp only [hroot, Nat.one_ne_zero, if_false]
    rw [wp_bind, onBtree, wp_zoom, wp_of_ok hget]
    simp only [hroot, ne_eq, not_true, if_false, reduceCtorEq]
    rw [wp_bind, pushChildren, wp_bind, errPtr, wp_onFail, wp_bind, onBtree, wp_zoom, wp_of_ok hchild]
    rw [wp_pure, wp_bind]
    refine wp_imp (pushQuery_nil hrest) (fun r s' hs => ?_)
    obtain ⟨hr, hb, hq', _⟩ := hs
    subst hr
    exact ⟨rfl, hb, hq'⟩

end Images

end Verification

end Emmcfs
