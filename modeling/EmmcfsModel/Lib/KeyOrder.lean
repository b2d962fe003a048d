import Mathlib.Data.Int.ModEq
import Mathlib.Tactic.Linarith

-- Comparison functions in the style of `strcmp`: the sign of an integer says how two values are
-- ordered. The results of this module say on which sets of values such a function is an order, for
-- functions that compare one digit by a difference that wraps around, and for lexicographic ones.

namespace KeyOrder

-- `cmp` orders the values of `s`, and its ties are exactly the pairs with the same image under `f`.
structure OrderedBy (f : α → β) (cmp : α → α → Int) (s : Set α) : Prop where
  tie   : ∀ a ∈ s, ∀ b ∈ s, cmp a b = 0 ↔ f a = f b
  swap  : ∀ a ∈ s, ∀ b ∈ s, (cmp a b).sign = -(cmp b a).sign
  trans : ∀ a ∈ s, ∀ b ∈ s, ∀ c ∈ s, cmp a b ≤ 0 → cmp b c ≤ 0 → cmp a c ≤ 0

abbrev Ordered (cmp : α → α → Int) (s : Set α) : Prop :=
  OrderedBy id cmp s

theorem orderedBy_comp_iff {f : α → β} {cmp : β → β → Int} {s : Set α} :
    OrderedBy f (fun a b => cmp (f a) (f b)) s ↔ Ordered cmp (f '' s) where
  mp h := by
    constructor
    case tie   => rintro _ ⟨a, ha, rfl⟩ _ ⟨b, hb, rfl⟩; exact h.tie a ha b hb
    case swap  => rintro _ ⟨a, ha, rfl⟩ _ ⟨b, hb, rfl⟩; exact h.swap a ha b hb
    case trans =>
      rintro _ ⟨a, ha, rfl⟩ _ ⟨b, hb, rfl⟩ _ ⟨c, hc, rfl⟩
      exact h.trans a ha b hb c hc
  mpr h := {
    tie   := fun _ ha _ hb => h.tie _ ⟨_, ha, rfl⟩ _ ⟨_, hb, rfl⟩
    swap  := fun _ ha _ hb => h.swap _ ⟨_, ha, rfl⟩ _ ⟨_, hb, rfl⟩
    trans := fun _ ha _ hb _ hc => h.trans _ ⟨_, ha, rfl⟩ _ ⟨_, hb, rfl⟩ _ ⟨_, hc, rfl⟩
  }

namespace Ordered

variable {cmp : α → α → Int} {s : Set α}

theorem neg_iff (h : Ordered cmp s) (ha : a ∈ s) (hb : b ∈ s) : cmp a b < 0 ↔ 0 < cmp b a := by
  rw [← Int.sign_eq_neg_one_iff_neg, ← Int.sign_eq_one_iff_pos, h.swap a ha b hb]
  omega

theorem lt_trans (h : Ordered cmp s) (ha : a ∈ s) (hb : b ∈ s) (hc : c ∈ s)
    (h₁ : cmp a b < 0) (h₂ : cmp b c < 0) : cmp a c < 0 := by
  have hle := h.trans a ha b hb c hc h₁.le h₂.le
  have hne : cmp a c ≠ 0 := by
    intro he
    obtain rfl : a = c := h.tie a ha c hc |>.mp he
    have := h.neg_iff ha hb |>.mp h₁
    omega
  omega

-- A strict order is enough: ties are equalities, so the other cases of transitivity are trivial.
theorem of_strict (tie : ∀ a ∈ s, ∀ b ∈ s, cmp a b = 0 ↔ a = b)
    (swap : ∀ a ∈ s, ∀ b ∈ s, cmp a b < 0 ↔ 0 < cmp b a)
    (trans : ∀ a ∈ s, ∀ b ∈ s, ∀ c ∈ s, cmp a b < 0 → cmp b c < 0 → cmp a c < 0) :
    Ordered cmp s := by
  refine ⟨tie, fun a ha b hb => ?_, fun a ha b hb c hc h₁ h₂ => ?_⟩
  case refine_1 =>
    rcases lt_trichotomy (cmp a b) 0 with h | h | h
    · rw [Int.sign_eq_neg_one_of_neg h, Int.sign_eq_one_of_pos (swap a ha b hb |>.mp h)]
    · obtain rfl := tie a ha b hb |>.mp h
      simp [h]
    · rw [Int.sign_eq_one_of_pos h, Int.sign_eq_neg_one_of_neg (swap b hb a ha |>.mpr h)]
      rfl
  case refine_2 =>
    rcases h₁.lt_or_eq with h₁ | h₁
    · rcases h₂.lt_or_eq with h₂ | h₂
      · exact trans a ha b hb c hc h₁ h₂ |>.le
      · exact tie b hb c hc |>.mp h₂ ▸ h₁.le
    · exact (tie a ha b hb |>.mp h₁) ▸ h₂

end Ordered

-- Comparison of `f x` and `f y` by their difference, seen through a window of `2 * h` values.
def wrapped (h : Nat) (f : α → Int) (x y : α) : Int :=
  Int.bmod (f x - f y) (2 * h)

-- How far `y` lies ahead of `x` on the circle of `2 * h` values.
def ahead (h : Nat) (f : α → Int) (x y : α) : Int :=
  (f y - f x) % (2 * h : Nat)

-- No two values lie on one spot or opposite each other, and no three of them go round the circle.
structure Spread (h : Nat) (f : α → Int) (s : Set α) : Prop where
  apart : ∀ x ∈ s, ∀ y ∈ s, x ≠ y → ahead h f x y ≠ 0 ∧ ahead h f x y ≠ h
  noLap : ∀ x ∈ s, ∀ y ∈ s, ∀ z ∈ s,
    ¬(0 < ahead h f x y ∧ ahead h f x y < h ∧ 0 < ahead h f y z ∧ ahead h f y z < h ∧
      0 < ahead h f z x ∧ ahead h f z x < h)

section Wrapped

variable {h : Nat} {f : α → Int} {s : Set α}

theorem ahead_nonneg (hp : 0 < h) (x y : α) : 0 ≤ ahead h f x y :=
  Int.emod_nonneg _ (by omega)

theorem ahead_lt (hp : 0 < h) (x y : α) : ahead h f x y < 2 * h := by
  have := Int.emod_lt_of_pos (f y - f x) (b := (2 * h : Nat)) (by omega)
  simpa [ahead] using this

theorem ahead_swap (x y : α) (hn : ahead h f x y ≠ 0) :
    ahead h f y x = 2 * h - ahead h f x y := by
  have hd : f x - f y = -(f y - f x) := by omega
  have hnd : ¬((2 * h : Nat) : Int) ∣ f y - f x := fun hd => hn (Int.emod_eq_zero_of_dvd hd)
  rw [ahead, hd, Int.neg_emod, if_neg hnd]
  simp [ahead]

theorem wrapped_eq (x y : α) :
    wrapped h f x y = if ahead h f y x < h then ahead h f y x else ahead h f y x - 2 * h := by
  have : ((2 * h : Nat) + 1 : Int) / 2 = h := by omega
  simp only [wrapped, Int.bmod, ahead, this]
  norm_cast

theorem wrapped_pos_iff (hp : 0 < h) (x y : α) :
    0 < wrapped h f x y ↔ 0 < ahead h f y x ∧ ahead h f y x < h := by
  have := ahead_lt (f := f) hp y x
  rw [wrapped_eq]
  split <;> omega

theorem wrapped_neg_iff (hp : 0 < h) (x y : α) (hn : ahead h f x y ≠ h) :
    wrapped h f x y < 0 ↔ 0 < wrapped h f y x := by
  have hl := ahead_lt (f := f) hp y x
  have hg := ahead_nonneg (f := f) hp y x
  have hg' := ahead_nonneg (f := f) hp x y
  rw [wrapped_pos_iff hp, wrapped_eq]
  by_cases hz : ahead h f x y = 0
  case pos =>
    by_cases hz' : ahead h f y x = 0
    · simp [hz, hz', hp]
    · have := ahead_swap y x hz'
      omega
  case neg =>
    have := ahead_swap x y hz
    split <;> omega

theorem Spread.of_ordered (hp : 0 < h) (ho : Ordered (wrapped h f) s) : Spread h f s where
  apart x hx y hy hne := by
    have hz : ahead h f x y ≠ 0 := by
      intro hz
      refine hne <| (ho.tie y hy x hx |>.mp ?_).symm
      simp [wrapped_eq, hz, hp]
    refine ⟨hz, fun hh => ?_⟩
    -- opposite values are each below the other
    have hl : wrapped h f y x < 0 := by rw [wrapped_eq]; split <;> omega
    have hr : wrapped h f x y < 0 := by rw [wrapped_eq, ahead_swap x y hz]; split <;> omega
    have := ho.neg_iff hx hy |>.mp hr
    omega
  noLap x hx y hy z hz := by
    rintro ⟨h₁, h₁', h₂, h₂', h₃, h₃'⟩
    have hxy := ho.neg_iff hx hy |>.mpr <| wrapped_pos_iff hp y x |>.mpr ⟨h₁, h₁'⟩
    have hyz := ho.neg_iff hy hz |>.mpr <| wrapped_pos_iff hp z y |>.mpr ⟨h₂, h₂'⟩
    have hzx := wrapped_pos_iff hp x z |>.mpr ⟨h₃, h₃'⟩
    have := ho.lt_trans hx hy hz hxy hyz
    omega

theorem Spread.ordered (hp : 0 < h) (hs : Spread h f s) : Ordered (wrapped h f) s := by
  have swap : ∀ a ∈ s, ∀ b ∈ s, wrapped h f a b < 0 ↔ 0 < wrapped h f b a := by
    intro a ha b hb
    by_cases he : a = b
    · subst he
      simp [wrapped]
    · exact wrapped_neg_iff hp a b (hs.apart a ha b hb he).right
  have tie : ∀ a ∈ s, ∀ b ∈ s, wrapped h f a b = 0 ↔ a = b := by
    intro a ha b hb
    refine ⟨fun he => ?_, fun he => by simp [he, wrapped]⟩
    by_contra hne
    have := hs.apart b hb a ha (Ne.symm hne)
    have := ahead_lt (f := f) hp b a
    rw [wrapped_eq] at he
    split at he <;> omega
  refine .of_strict tie swap fun a ha b hb c hc hab hbc => ?_
  rcases lt_trichotomy (wrapped h f a c) 0 with hac | hac | hac
  · exact hac
  · obtain rfl := tie a ha c hc |>.mp hac
    have := swap a ha b hb |>.mp hab
    omega
  · have h₁ := swap a ha b hb |>.mp hab
    have h₂ := swap b hb c hc |>.mp hbc
    rw [wrapped_pos_iff hp] at h₁ h₂ hac
    exact absurd ⟨h₁.1, h₁.2, h₂.1, h₂.2, hac.1, hac.2⟩ (hs.noLap a ha b hb c hc)

theorem ordered_wrapped_iff (hp : 0 < h) : Ordered (wrapped h f) s ↔ Spread h f s :=
  ⟨Spread.of_ordered hp, Spread.ordered hp⟩

end Wrapped

-- Lexicographic comparison of strings: the first digit that compares as different decides, and
-- the lengths decide when there is none.
def lexCmp (cmp : α → α → Int) : List α → List α → Int
  | x :: xs, y :: ys => if cmp x y ≠ 0 then cmp x y else lexCmp cmp xs ys
  | xs, ys           => (xs.length : Int) - ys.length

-- The digits that follow the string `p` in the strings of `s`.
def digitsAfter (s : Set (List α)) (p : List α) : Set α :=
  { x | ∃ l, p ++ x :: l ∈ s }

-- What is left of the strings of `s` that start with `x`.
def tails (s : Set (List α)) (x : α) : Set (List α) :=
  { l | x :: l ∈ s }

section Lex

variable {cmp : α → α → Int} {s : Set (List α)}

theorem mem_digitsAfter_nil (h : x :: l ∈ s) : x ∈ digitsAfter s [] :=
  ⟨l, h⟩

@[simp]
theorem lexCmp_cons_cons_of_ne (h : cmp x y ≠ 0) :
    lexCmp cmp (x :: xs) (y :: ys) = cmp x y := by
  simp [lexCmp, h]

@[simp]
theorem lexCmp_cons_cons_of_eq (h : cmp x y = 0) :
    lexCmp cmp (x :: xs) (y :: ys) = lexCmp cmp xs ys := by
  simp [lexCmp, h]

@[simp]
theorem lexCmp_nil_left : lexCmp cmp [] ys = -ys.length := by
  cases ys <;> simp [lexCmp]

@[simp]
theorem lexCmp_nil_right : lexCmp cmp xs [] = xs.length := by
  cases xs <;> simp [lexCmp]

variable (hz : ∀ x y, cmp x y = 0 ↔ x = y)

include hz in
theorem lexCmp_append_left (p : List α) : lexCmp cmp (p ++ xs) (p ++ ys) = lexCmp cmp xs ys := by
  induction p <;> simp_all

include hz in
theorem lexCmp_eq_zero_iff : {xs ys : List α} → (lexCmp cmp xs ys = 0 ↔ xs = ys)
  | [], [] | [], _ :: _ | _ :: _, [] => by simp <;> omega
  | x :: xs, y :: ys => by
    by_cases h : x = y
    · simp [h, hz, lexCmp_eq_zero_iff]
    · simp [h, hz]

include hz in
theorem lexCmp_neg_iff {s : Set (List α)} (ho : ∀ p, Ordered cmp (digitsAfter s p)) :
    {xs ys : List α} → (hx : xs ∈ s) → (hy : ys ∈ s) →
    (lexCmp cmp xs ys < 0 ↔ 0 < lexCmp cmp ys xs)
  | [], _, _, _ | _, [], _, _ => by simp
  | x :: xs, y :: ys, hx, hy => by
    by_cases h : x = y
    · subst h
      have ih := lexCmp_neg_iff (s := tails s x) (fun p => ho (x :: p)) hx hy
      simpa [hz] using ih
    · have hne : cmp x y ≠ 0 := by simpa [hz] using h
      have hne' : cmp y x ≠ 0 := by simpa [hz] using Ne.symm h
      simp only [ne_eq, hne, hne', not_false_eq_true, lexCmp_cons_cons_of_ne]
      exact ho [] |>.neg_iff (mem_digitsAfter_nil hx) (mem_digitsAfter_nil hy)

include hz in
theorem lexCmp_lt_trans {s : Set (List α)} (ho : ∀ p, Ordered cmp (digitsAfter s p)) :
    {xs ys zs : List α} → (hx : xs ∈ s) → (hy : ys ∈ s) → (hw : zs ∈ s) →
    lexCmp cmp xs ys < 0 → lexCmp cmp ys zs < 0 → lexCmp cmp xs zs < 0
  | [], [], _, _, _, _, h, _ | [], _ :: _, [], _, _, _, _, h | _ :: _, [], _, _, _, _, h, _
  | _ :: _, _ :: _, [], _, _, _, _, h => by simp at h <;> omega
  | [], _ :: _, _ :: _, _, _, _, _, _ => by simp; omega
  | x :: xs, y :: ys, z :: zs, hx, hy, hw, h₁, h₂ => by
    have hx' := mem_digitsAfter_nil hx
    have hy' := mem_digitsAfter_nil hy
    have hw' := mem_digitsAfter_nil hw
    by_cases hxy : x = y <;> by_cases hyz : y = z
    · subst hxy hyz
      simp only [hz, lexCmp_cons_cons_of_eq] at h₁ h₂ ⊢
      exact lexCmp_lt_trans (s := tails s x) (fun p => ho (x :: p)) hx hy hw h₁ h₂
    · subst hxy
      simpa [hz, hyz] using h₂
    · subst hyz
      simpa [hz, hxy] using h₁
    · simp only [ne_eq, hz, hxy, hyz, not_false_eq_true, lexCmp_cons_cons_of_ne] at h₁ h₂
      have h₃ := ho [] |>.lt_trans hx' hy' hw' h₁ h₂
      rwa [lexCmp_cons_cons_of_ne h₃.ne]

include hz in
theorem Ordered.digitsAfter (ho : Ordered (lexCmp cmp) s) (p : List α) :
    Ordered cmp (digitsAfter s p) := by
  -- two strings that share `p` and go on with different digits compare as these digits do
  have hd : ∀ {x y l l'}, x ≠ y → lexCmp cmp (p ++ x :: l) (p ++ y :: l') = cmp x y := by
    intro x y l l' h
    rw [lexCmp_append_left hz, lexCmp_cons_cons_of_ne (by simpa [hz] using h)]
  have swap : ∀ x ∈ KeyOrder.digitsAfter s p, ∀ y ∈ KeyOrder.digitsAfter s p,
      cmp x y < 0 ↔ 0 < cmp y x := by
    rintro x ⟨l, hx⟩ y ⟨l', hy⟩
    by_cases h : x = y
    · simp [h, hz y y |>.mpr rfl]
    · simpa [hd h, hd (Ne.symm h)] using ho.neg_iff hx hy
  refine .of_strict (fun x _ y _ => hz x y) swap ?_
  rintro x ⟨l, hx⟩ y ⟨l', hy⟩ z ⟨l'', hw⟩ h₁ h₂
  have hxy : x ≠ y := fun h => h₁.ne (hz x y |>.mpr h)
  have hyz : y ≠ z := fun h => h₂.ne (hz y z |>.mpr h)
  have hxz : x ≠ z := by
    rintro rfl
    have := swap x ⟨l, hx⟩ y ⟨l', hy⟩ |>.mp h₁
    omega
  have := ho.lt_trans hx hy hw (by rwa [hd hxy]) (by rwa [hd hyz])
  rwa [hd hxz] at this

include hz in
theorem ordered_lexCmp_iff : Ordered (lexCmp cmp) s ↔ ∀ p, Ordered cmp (digitsAfter s p) where
  mp ho  := ho.digitsAfter hz
  mpr ho := .of_strict (fun _ _ _ _ => lexCmp_eq_zero_iff hz)
    (fun _ hx _ hy => lexCmp_neg_iff hz ho hx hy)
    (fun _ hx _ hy _ hw => lexCmp_lt_trans hz ho hx hy hw)

end Lex

-- Comparison of pairs: the first components decide whenever they differ.
def pairCmp [DecidableEq α] (cmp₁ : α → α → Int) (cmp₂ : β → β → Int) (a b : α × β) : Int :=
  if a.1 ≠ b.1 then cmp₁ a.1 b.1 else cmp₂ a.2 b.2

section Pair

variable [DecidableEq α] {cmp₁ : α → α → Int} {cmp₂ : β → β → Int} {s : Set (α × β)}

@[simp]
theorem pairCmp_of_ne (h : x ≠ x') : pairCmp cmp₁ cmp₂ (x, y) (x', y') = cmp₁ x x' := by
  simp [pairCmp, h]

@[simp]
theorem pairCmp_of_eq : pairCmp cmp₁ cmp₂ (x, y) (x, y') = cmp₂ y y' := by
  simp [pairCmp]

theorem Ordered.second (ho : Ordered (pairCmp cmp₁ cmp₂) s) (x : α) :
    Ordered cmp₂ { y | (x, y) ∈ s } where
  tie   := fun y hy y' hy' => by simpa using ho.tie (x, y) hy (x, y') hy'
  swap  := fun y hy y' hy' => by simpa using ho.swap (x, y) hy (x, y') hy'
  trans := fun y hy y' hy' y'' hy'' => by simpa using ho.trans (x, y) hy (x, y') hy' (x, y'') hy''

variable (hr : ∀ x, cmp₁ x x = 0)

include hr in
theorem Ordered.first (ho : Ordered (pairCmp cmp₁ cmp₂) s) : Ordered cmp₁ (Prod.fst '' s) := by
  have swap : ∀ x ∈ Prod.fst '' s, ∀ x' ∈ Prod.fst '' s, cmp₁ x x' < 0 ↔ 0 < cmp₁ x' x := by
    rintro _ ⟨⟨x, y⟩, h, rfl⟩ _ ⟨⟨x', y'⟩, h', rfl⟩
    by_cases hx : x = x'
    · simp [hx, hr]
    · simpa [hx, Ne.symm hx] using ho.neg_iff h h'
  refine .of_strict ?_ swap ?_
  · rintro _ ⟨⟨x, y⟩, h, rfl⟩ _ ⟨⟨x', y'⟩, h', rfl⟩
    by_cases hx : x = x'
    · simp [hx, hr]
    · simpa [hx] using ho.tie _ h _ h'
  · rintro _ ⟨⟨x, y⟩, h, rfl⟩ _ ⟨⟨x', y'⟩, h', rfl⟩ _ ⟨⟨x'', y''⟩, h'', rfl⟩ h₁ h₂
    have hx  : x ≠ x'   := by rintro rfl; simp [hr] at h₁
    have hx' : x' ≠ x'' := by rintro rfl; simp [hr] at h₂
    have hxx : x ≠ x''  := by
      rintro rfl
      have := swap _ ⟨_, h, rfl⟩ _ ⟨_, h', rfl⟩ |>.mp h₁
      simp at this h₂
      omega
    have := ho.lt_trans h h' h'' (by simpa [hx] using h₁) (by simpa [hx'] using h₂)
    simpa [hxx] using this

theorem ordered_pairCmp (h₁ : Ordered cmp₁ (Prod.fst '' s))
    (h₂ : ∀ x, Ordered cmp₂ { y | (x, y) ∈ s }) : Ordered (pairCmp cmp₁ cmp₂) s := by
  refine .of_strict ?_ ?_ ?_
  · rintro ⟨x, y⟩ h ⟨x', y'⟩ h'
    by_cases hx : x = x'
    · subst hx
      simpa using h₂ x |>.tie y h y' h'
    · simpa [hx] using h₁.tie x ⟨_, h, rfl⟩ x' ⟨_, h', rfl⟩
  · rintro ⟨x, y⟩ h ⟨x', y'⟩ h'
    by_cases hx : x = x'
    · subst hx
      simpa using h₂ x |>.neg_iff h h'
    · simpa [hx, Ne.symm hx] using h₁.neg_iff ⟨_, h, rfl⟩ ⟨_, h', rfl⟩
  · rintro ⟨x, y⟩ h ⟨x', y'⟩ h' ⟨x'', y''⟩ h'' hl hl'
    by_cases hx : x = x' <;> by_cases hx' : x' = x''
    · subst hx hx'
      simp only [pairCmp_of_eq] at hl hl' ⊢
      exact h₂ x |>.lt_trans h h' h'' hl hl'
    · subst hx
      simpa [hx'] using hl'
    · subst hx'
      simpa [hx] using hl
    · simp only [ne_eq, hx, hx', not_false_eq_true, pairCmp_of_ne] at hl hl'
      have hlt := h₁.lt_trans ⟨_, h, rfl⟩ ⟨_, h', rfl⟩ ⟨_, h'', rfl⟩ hl hl'
      have hxx : x ≠ x'' := fun he => hlt.ne (h₁.tie _ ⟨_, h, rfl⟩ _ ⟨_, h'', rfl⟩ |>.mpr he)
      simpa [hxx] using hlt

include hr in
theorem ordered_pairCmp_iff : Ordered (pairCmp cmp₁ cmp₂) s ↔
    Ordered cmp₁ (Prod.fst '' s) ∧ ∀ x, Ordered cmp₂ { y | (x, y) ∈ s } where
  mp ho := ⟨ho.first hr, ho.second⟩
  mpr h := ordered_pairCmp h.left h.right

end Pair

end KeyOrder
