import EmmcfsModel.Btree.Map
import EmmcfsModel.Btree.Theorems.Remove

namespace Emmcfs

open Code Search SortedList

variable [LinearOrder κ] {tree : BtreeOps κ} {s s' : Btree κ ν} {key least : κ}
  {recs l l' : List (BtreeRecord κ ν)} {r q : BtreeRecord κ ν} {leaves : List Nat}
  {up : List (List Nat)} {m : κ → Option (BtreeRecord κ ν)} {call : BtreeCall κ ν}

section Records

variable (hs : Sorted ((l ++ q :: l').map (·.key)))

include hs

theorem keyed_remove (hk : Keyed (·.key) (l ++ q :: l') m) :
    Keyed (·.key) (l ++ l') (Function.update m q.key none) := by
  obtain ⟨_, _, hl, hl'⟩ := sorted_around.mp hs
  refine hk.update (fun _ h => absurd h (by simp)) fun a => ?_
  simp only [List.mem_append, List.mem_cons, reduceCtorEq, false_or]
  constructor
  case mp =>
    rintro (ha | ha)
    · exact ⟨.inl ha, (hl a ha).ne⟩
    · exact ⟨.inr (.inr ha), (hl' a ha).ne'⟩
  case mpr =>
    rintro ⟨ha | rfl | ha, hne⟩
    · exact .inl ha
    · exact absurd rfl hne
    · exact .inr ha

-- What is above the least record has a record in front of it.
theorem ne_nil_of_lt (hx : x ∈ l ++ q :: l') (hlt : x.key < q.key) : l ≠ [] := by
  rintro rfl
  rcases List.mem_cons.mp hx with rfl | hx
  · exact hlt.false
  · exact hlt.not_gt ((List.pairwise_cons.mp (List.pairwise_map.mp hs)).left x hx)

end Records

theorem keyed_insert (hs : Sorted ((l ++ q :: r :: l').map (·.key)))
    (hk : Keyed (·.key) (l ++ q :: l') m) :
    m r.key = none ∧ Keyed (·.key) (l ++ q :: r :: l') (Function.update m r.key (some r)) := by
  have hne : ∀ a ∈ l ++ q :: l', a.key ≠ r.key := by
    rw [List.append_cons] at hs ⊢
    obtain ⟨_, _, hl, hl'⟩ := sorted_around.mp hs
    exact fun a ha => (List.mem_append.mp ha).elim (fun ha => (hl a ha).ne) fun ha => (hl' a ha).ne'
  refine ⟨hk.none_iff.mpr hne, hk.update (fun a h => by rw [Option.some.inj h]) fun a => ?_⟩
  have hmem : a ∈ l ++ q :: r :: l' ↔ r = a ∨ a ∈ l ++ q :: l' := by
    simp only [List.mem_append, List.mem_cons]
    tauto
  rw [hmem, Option.some.injEq, and_iff_left_of_imp (hne a)]

section Calls

variable (hcmp : Compares tree.compFn) (hrep : s.Represents tree least m)

include hcmp hrep

theorem insert_represents (hlt : least < r.key) (hr : r.Short tree) :
    wp (emmcfsBtreeInsert tree r)
      (fun _ s' => m r.key = none ∧
        s'.Represents tree least (Function.update m r.key (some r)))
      (fun e s' => (e = .eexist ∧ s' = s ∧ ∃ q, m r.key = some q) ∨ e = .enospc) False s := by
  obtain ⟨hc, hleast, leaves, up, recs, hu, hs, hk⟩ := hrep
  refine wp_mono (emmcfsBtreeInsert_spec hc hu (rising_of_sorted hcmp hs) hr) ?_ ?_ (fun h => h)
  · rintro - s' ⟨l, q, l', rfl, hne, hend, hcalm, leaves', up', hu', -⟩
    obtain ⟨x, hx, hxe⟩ := List.mem_map.mp (hk.isSome_iff.mp hleast)
    have hs' := (sorted_insert_iff hcmp hs hend rfl fun he => hne ((against_zero_iff hcmp).mpr he)).mpr
      ⟨x, hx, (hxe ▸ hlt).le⟩
    obtain ⟨hnone, hk'⟩ := keyed_insert hs' hk
    refine ⟨hnone, hcalm, ?_, leaves', up', _, hu', hs', hk'⟩
    rwa [Function.update_of_ne hlt.ne]
  · rintro e s' (⟨rfl, rfl, q, hq, h₀⟩ | he)
    · refine .inl ⟨rfl, rfl, q, ?_⟩
      rw [← (against_zero_iff hcmp).mp h₀]
      exact hk.of_mem hq
    · exact .inr he

theorem remove_represents (hlt : least < key) :
    wp (emmcfsBtreeRemove tree key)
      (fun _ s' => (∃ q, m key = some q) ∧ s'.Represents tree least (Function.update m key none))
      (fun e s' => (e = .enoent ∧ s' = s ∧ m key = none) ∨ e = .enospc) True s := by
  obtain ⟨hc, hleast, leaves, up, recs, hu, hs, hk⟩ := hrep
  cases hm : m key
  case none =>
    refine wp_mono (emmcfsBtreeRemove_absent hcmp hc hu hs (hk.none_iff.mp hm))
      (fun _ _ => False.elim) ?_ False.elim
    rintro e s' ⟨he, hs'⟩
    exact .inl ⟨he, hs', rfl⟩
  case some q =>
    obtain ⟨hq, rfl⟩ := (hk key q).mp hm
    obtain ⟨l, l', rfl⟩ := List.append_of_mem hq
    obtain ⟨x, hx, rfl⟩ := List.mem_map.mp (hk.isSome_iff.mp hleast)
    refine wp_mono (emmcfsBtreeRemove_present hcmp hc hu hs (ne_nil_of_lt hs hx hlt)
      (.inl trivial)) ?_ (fun _ _ he => .inr he.left) (fun h => h)
    rintro - s' ⟨hcalm, leaves', up', hu'⟩
    refine ⟨⟨q, rfl⟩, hcalm, ?_, leaves', up', l ++ l', hu', ?_, keyed_remove hs hk⟩
    · rwa [Function.update_of_ne hlt.ne]
    · exact hs.sublist (((List.sublist_cons_self ..).append_left l).map _)

theorem find_represents (hle : least ≤ key) :
    ∃ id pos r, emmcfsBtreeFind tree key s = .ok (id, pos) s ∧ (s.bnode id).recs[pos]? = some r ∧
      m r.key = some r ∧ IsGreatest { k | m k ≠ none ∧ k ≤ key } r.key := by
  obtain ⟨hc, hleast, leaves, up, recs, hu, hs, hk⟩ := hrep
  obtain ⟨id, pos, hok, k, path, hf⟩ := emmcfsBtreeFind_returns hu (rising_of_sorted hcmp hs) hc
  obtain ⟨l, q, l', rfl, rfl, _⟩ := hf.ends.exists_append
  have hget : (s.bnode id).recs[pos]? = some q := by
    rw [← hf.node]
    simp
  obtain ⟨x, hx, hxe⟩ := List.mem_map.mp (hk.isSome_iff.mp hleast)
  refine ⟨id, pos, q, hok, hget, hk.of_mem (by simp), ?_⟩
  simp only [hk.isSome_iff]
  exact (isGreatest_iff hcmp hs hf.ends).mpr ⟨x, hx, hxe ▸ hle⟩

theorem step_refines (hstep : BtreeStep tree least s e s') :
    ∃ m', MapStep m e m' ∧ s'.Represents tree least m' := by
  cases hstep
  case done call hallow hrun =>
    cases call
    case insert r =>
      have hw := insert_represents hcmp hrep hallow.left hallow.right
      obtain ⟨hnone, hrep'⟩ := (wp_of_ok hrun).mp hw
      exact ⟨_, .insert hnone, hrep'⟩
    case remove key =>
      have hw := remove_represents hcmp hrep hallow
      obtain ⟨hsome, hrep'⟩ := (wp_of_ok hrun).mp hw
      exact ⟨_, .remove hsome.choose_spec, hrep'⟩
  case refused e hne call hallow hrun =>
    cases call
    case insert r =>
      have hw := insert_represents hcmp hrep hallow.left hallow.right
      rcases (wp_of_fail hrun).mp hw with ⟨rfl, rfl, q, hq⟩ | rfl
      · exact ⟨m, .exist hq, hrep⟩
      · exact absurd rfl hne
    case remove key =>
      have hw := remove_represents hcmp hrep hallow
      rcases (wp_of_fail hrun).mp hw with ⟨rfl, rfl, hnone⟩ | rfl
      · exact ⟨m, .absent hnone, hrep⟩
      · exact absurd rfl hne

end Calls

-- A tree of two leaves whose keys are numbers.
def twoNumberLeaves : Btree Nat Unit where
  bnodes      := [
    (1, ⟨.index, [⟨5, 12, .node 2⟩, ⟨20, 12, .node 3⟩], 4069 - 2 * 16, 0, 0⟩),
    (2, ⟨.leaf, [numberRecord 5, numberRecord 7], 4069 - 2 * 20, 0, 3⟩),
    (3, ⟨.leaf, [numberRecord 20, numberRecord 21], 4069 - 2 * 20, 2, 0⟩)]
  bitmap      := 2 ^ 4 - 1
  firstFreeId := 4
  freeNum     := 8 * 4096 - 4
  rootBnodeId := 1
  btreeHeight := 2

theorem twoNumberLeaves_upper : twoNumberLeaves.Upper numberTree 1 [[2, 3], [1]]
    [numberRecord 5, numberRecord 7, numberRecord 20, numberRecord 21] where
  shape  := by decide +kernel
  nodup  := by decide
  bitmap := .of_ones (k := 4) (by decide) rfl rfl rfl
  height := rfl

end Emmcfs
