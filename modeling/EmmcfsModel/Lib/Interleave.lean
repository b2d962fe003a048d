import EmmcfsModel.Lib.SortedList

-- Blocks of elements with single elements between them, as the in-order traversal of a search tree
-- node lists its children and its keys: first block, key, block, key, .., last block.

namespace Interleave

variable {α γ : Type} (f : γ → List α)

-- Each key with the block that follows it.
def after (ks : List α) (cs : List γ) : List α :=
  (List.zipWith (fun k c => k :: f c) ks cs).flatten

-- Each key with the block that comes before it.
def before (cs : List γ) (ks : List α) : List α :=
  (List.zipWith (fun c k => f c ++ [k]) cs ks).flatten

def all (ks : List α) : List γ → List α
  | []      => ks
  | c :: cs => f c ++ after f ks cs

variable {f}

@[simp]
theorem after_nil : after f [] cs = [] := rfl

@[simp]
theorem after_cons : after f (k :: ks) (c :: cs) = k :: (f c ++ after f ks cs) := by
  simp [after]

@[simp]
theorem before_nil : before f [] ks = [] := rfl

@[simp]
theorem before_cons : before f (c :: cs) (k :: ks) = f c ++ k :: before f cs ks := by
  simp [before]

@[simp]
theorem all_cons : all f ks (c :: cs) = f c ++ after f ks cs := rfl

-- One block in focus.
theorem all_focus (hl : cs.length = ks.length) :
    all f (ks ++ ks') (cs ++ c :: cs') = before f cs ks ++ f c ++ after f ks' cs' := by
  induction cs generalizing ks <;> cases ks
  case nil.nil => simp
  case cons.cons d cs ih k ks =>
    have ih := @ih ks (by simpa using hl)
    cases cs <;> simp_all
  all_goals cases hl

-- Two neighbouring blocks and the key between them in focus.
theorem all_focus_two (hl : cs.length = ks.length) :
    all f (ks ++ k :: ks') (cs ++ c :: d :: cs') =
      before f cs ks ++ (f c ++ k :: f d) ++ after f ks' cs' := by
  rw [all_focus hl]
  simp

-- The blocks up to a key and those from it on.
theorem all_append (hl : cs.length = ks.length + 1) (hd : cs'.length = ks'.length + 1) :
    all f (ks ++ k :: ks') (cs ++ cs') = all f ks cs ++ k :: all f ks' cs' := by
  match cs', hd with
  | d :: cs', _ =>
    induction cs generalizing ks <;> cases ks
    case cons.nil c cs _ =>
      obtain rfl : cs = [] := by simpa using hl
      simp
    case cons.cons c cs ih k' ks =>
      match cs, hl with
      | c' :: cs, hl =>
        have ih := @ih ks (by simpa using hl)
        simp_all
    all_goals cases hl

theorem sublist_after : {ks : List α} → {cs : List γ} → ks.length = cs.length →
    ks.Sublist (after f ks cs)
  | [], _, _ => by simp
  | k :: ks, c :: cs, hl => by
    rw [after_cons]
    exact (sublist_after (by simpa using hl)).trans (List.sublist_append_right ..) |>.cons_cons k

theorem sublist_before : {cs : List γ} → {ks : List α} → cs.length = ks.length →
    ks.Sublist (before f cs ks)
  | _, [], _ => by simp
  | c :: cs, k :: ks, hl => by
    rw [before_cons]
    exact ((sublist_before (by simpa using hl)).cons_cons k).trans (List.sublist_append_right ..)

theorem mem_after : {ks : List α} → {cs : List γ} → x ∈ after f ks cs →
    x ∈ ks ∨ ∃ c ∈ cs, x ∈ f c
  | [], _, hx => by simp at hx
  | _ :: _, [], hx => by simp [after] at hx
  | k :: ks, c :: cs, hx => by
    rw [after_cons, List.mem_cons, List.mem_append] at hx
    rcases hx with hx | hx | hx
    · exact .inl (by simp [hx])
    · exact .inr ⟨c, by simp, hx⟩
    · exact (mem_after hx).imp (by simp +contextual) fun ⟨d, hd, hx⟩ => ⟨d, by simp [hd], hx⟩

theorem mem_all (hx : x ∈ all f ks cs) : x ∈ ks ∨ ∃ c ∈ cs, x ∈ f c := by
  cases cs
  case nil => exact .inl hx
  case cons c cs =>
    rw [all_cons, List.mem_append] at hx
    rcases hx with hx | hx
    · exact .inr ⟨c, by simp, hx⟩
    · exact (mem_after hx).imp_right fun ⟨d, hd, hx⟩ => ⟨d, by simp [hd], hx⟩

section Order

variable [LinearOrder α]

theorem exists_key_ge : {cs : List γ} → {ks : List α} →
    SortedList.Sorted (before f cs ks) → y ∈ before f cs ks → ∃ k ∈ ks, y ≤ k
  | [], _, _, hy => by simp at hy
  | _ :: _, [], _, hy => by simp [before] at hy
  | c :: cs, k :: ks, hs, hy => by
    rw [before_cons] at hs hy
    obtain ⟨_, hs', hb, _⟩ := SortedList.sorted_cons_iff_around.mp hs
    cases List.mem_append.mp hy
    case inl hy => exact ⟨k, by simp, (hb y hy).le⟩
    case inr hy =>
      cases List.mem_cons.mp hy
      case inl hy => exact ⟨k, by simp, hy.le⟩
      case inr hy =>
        obtain ⟨k', hk, hle⟩ := exists_key_ge hs' hy
        exact ⟨k', by simp [hk], hle⟩

theorem exists_key_le : {ks : List α} → {cs : List γ} →
    SortedList.Sorted (after f ks cs) → y ∈ after f ks cs → ∃ k ∈ ks, k ≤ y
  | [], _, _, hy => by simp at hy
  | _ :: _, [], _, hy => by simp [after] at hy
  | k :: ks, c :: cs, hs, hy => by
    rw [after_cons] at hs hy
    obtain ⟨hk, hs⟩ := List.pairwise_cons.mp hs
    cases List.mem_cons.mp hy
    case inl hy => exact ⟨k, by simp, hy.ge⟩
    case inr hy => exact ⟨k, by simp, (hk y hy).le⟩

variable {x : α}

-- The keys tell on which side of `x` the blocks lie.
theorem before_lt (hs : SortedList.Sorted (before f cs ks)) (h : ∀ k ∈ ks, k < x) :
    ∀ y ∈ before f cs ks, y < x := by
  intro y hy
  obtain ⟨k, hk, hle⟩ := exists_key_ge hs hy
  exact hle.trans_lt (h k hk)

theorem lt_after (hs : SortedList.Sorted (after f ks cs)) (h : ∀ k ∈ ks, x < k) :
    ∀ y ∈ after f ks cs, x < y := by
  intro y hy
  obtain ⟨k, hk, hle⟩ := exists_key_le hs hy
  exact (h k hk).trans_le hle

end Order

end Interleave
