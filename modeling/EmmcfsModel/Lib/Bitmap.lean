import Mathlib.Data.Nat.Bitwise
import Mathlib.Order.Bounds.Basic

-- Bitmaps: a number is a row of bits, and a long bitmap is cut into pages of `n` bits.

-- The first clear bit of a row from `i` on, with the number of bits that are left.
def findNextZeroBit (bitmap : Nat) : (left i : Nat) → Nat
  | 0, i        => i
  | left + 1, i => if bitmap.testBit i then findNextZeroBit bitmap left (i + 1) else i

theorem findNextZeroBit_spec : i ≤ findNextZeroBit m left i ∧ findNextZeroBit m left i ≤ i + left ∧
    (∀ j, i ≤ j → j < findNextZeroBit m left i → m.testBit j = true) ∧
    (findNextZeroBit m left i < i + left → m.testBit (findNextZeroBit m left i) = false) := by
  induction left generalizing i
  case zero =>
    simp only [findNextZeroBit]
    exact ⟨Nat.le_refl _, Nat.le_refl _, fun j h₁ h₂ => by omega, fun h => by omega⟩
  case succ left ih =>
    rw [findNextZeroBit]
    split
    case isTrue hb =>
      obtain ⟨h₁, h₂, h₃, h₄⟩ := @ih (i + 1)
      refine ⟨by omega, by omega, fun j hj hlt => ?_, fun h => h₄ (by omega)⟩
      by_cases he : j = i
      case pos => exact he ▸ hb
      case neg => exact h₃ j (by omega) hlt
    case isFalse hb =>
      exact ⟨Nat.le_refl _, by omega, fun j h₁ h₂ => by omega, fun _ => by simpa using hb⟩

namespace Bitmap

theorem testBit_set (m i j : Nat) : (m ||| 1 <<< i).testBit j = (m.testBit j || decide (i = j)) := by
  simp only [Nat.testBit_or, Nat.one_shiftLeft, Nat.testBit_two_pow]

theorem testBit_flip (m i j : Nat) : (m ^^^ 1 <<< i).testBit j = (m.testBit j ^^ decide (i = j)) := by
  simp only [Nat.testBit_xor, Nat.one_shiftLeft, Nat.testBit_two_pow]

-- The bit of a number in the page that it belongs to.
def bit (n : Nat) (page : Nat → Nat) (i : Nat) : Bool :=
  (page (i / n)).testBit (i % n)

-- The numbers from `i` on whose bits are clear.
def clearFrom (n : Nat) (page : Nat → Nat) (i : Nat) : Set Nat :=
  { j | i ≤ j ∧ bit n page j = false }

variable {n p offset b i : Nat} {page page' : Nat → Nat}

theorem bit_page (hb : b < n) : bit n page (n * p + b) = (page p).testBit b := by
  rw [bit, Nat.mul_add_div (by omega), Nat.div_eq_of_lt hb, Nat.add_zero, Nat.mul_add_mod,
    Nat.mod_eq_of_lt hb]

-- The bit that a search in one page finds is the first clear one from there on.
theorem isLeast_of_found (hf : findNextZeroBit (page p) (n - offset) offset = b) (hb : b < n) :
    IsLeast (clearFrom n page (n * p + offset)) (n * p + b) := by
  obtain ⟨h₁, h₂, h₃, h₄⟩ := @findNextZeroBit_spec offset (page p) (n - offset)
  rw [hf] at h₁ h₂ h₃ h₄
  refine ⟨⟨by omega, ?_⟩, fun j hj => Nat.le_of_not_lt fun hlt => ?_⟩
  case refine_1 =>
    rw [bit_page hb]
    exact h₄ (by omega)
  case refine_2 =>
    obtain ⟨c, rfl⟩ : ∃ c, j = n * p + c := ⟨j - n * p, by have := hj.left; omega⟩
    have hle := hj.left
    have hclear := hj.right
    rw [bit_page (by omega), h₃ c (by omega) (by omega)] at hclear
    cases hclear

-- If there is none in the page it goes on at the start of the next one.
theorem clearFrom_of_not_found (hf : findNextZeroBit (page p) (n - offset) offset = b)
    (hb : ¬b < n) (ho : offset ≤ n) :
    clearFrom n page (n * p + offset) = clearFrom n page (n * (p + 1)) := by
  obtain ⟨h₁, h₂, h₃, h₄⟩ := @findNextZeroBit_spec offset (page p) (n - offset)
  rw [hf] at h₁ h₂ h₃ h₄
  ext j
  refine ⟨fun hj => ⟨Nat.le_of_not_lt fun hlt => ?_, hj.right⟩, fun hj => ⟨?_, hj.right⟩⟩
  case refine_1 =>
    obtain ⟨c, rfl⟩ : ∃ c, j = n * p + c := ⟨j - n * p, by have := hj.left; omega⟩
    have hle := hj.left
    have hclear := hj.right
    rw [Nat.mul_add_one] at hlt
    rw [bit_page (by omega), h₃ c (by omega) (by omega)] at hclear
    cases hclear
  case refine_2 =>
    have := hj.left
    rw [Nat.mul_add_one] at this
    omega

-- A change of the bit of `i` in its page.
theorem bit_of_change {f : Bool → Bool → Bool} (hf : ∀ a, f a false = a)
    (h : ∀ b, (page' (i / n)).testBit b = f ((page (i / n)).testBit b) (decide (i % n = b)))
    (hp : ∀ q ≠ i / n, page' q = page q) (j : Nat) :
    bit n page' j = f (bit n page j) (decide (i = j)) := by
  by_cases hq : j / n = i / n
  case pos =>
    have he : i % n = j % n ↔ i = j := by
      refine ⟨fun hm => ?_, fun he => by rw [he]⟩
      rw [← Nat.div_add_mod i n, ← Nat.div_add_mod j n, hq, hm]
    rw [bit, bit, hq, h, decide_eq_decide.mpr he]
  case neg =>
    have hne : i ≠ j := fun he => hq (by rw [he])
    rw [bit, bit, hp _ hq, decide_eq_false hne, hf]

end Bitmap
