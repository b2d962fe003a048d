import EmmcfsModel.Catalog.Key
import Mathlib.Data.BitVec
import Mathlib.Tactic.Ring

namespace Emmcfs

open KeyOrder

-- A difference of machine words that is cut to `w + 1` bits and read as a signed number.
theorem toInt_setWidth_sub {v w : Nat} (hw : w + 1 ≤ v) (x y : BitVec v) :
    ((x - y).setWidth (w + 1)).toInt = wrapped (2 ^ w) (fun b : BitVec v => (b.toNat : Int)) x y := by
  have hm : 2 * 2 ^ w = 2 ^ (w + 1) := by ring
  have hd : ((2 ^ (w + 1) : Nat) : Int) ∣ (2 ^ v : Nat) := by
    exact_mod_cast Nat.pow_dvd_pow 2 hw
  have he : ((x - y).toNat : Int) % (2 ^ (w + 1) : Nat) =
      ((x.toNat : Int) - y.toNat) % (2 ^ (w + 1) : Nat) := by
    rw [BitVec.toNat_sub, Int.natCast_mod, Int.emod_emod_of_dvd _ hd, Int.natCast_add,
      Int.natCast_sub y.isLt.le, Int.emod_eq_emod_iff_emod_sub_eq_zero]
    refine Int.emod_eq_zero_of_dvd ?_
    convert hd using 1
    ring
  rw [BitVec.toInt_setWidth, wrapped, hm, Int.bmod_def, Int.bmod_def, he]

abbrev byteCmp : BitVec 8 → BitVec 8 → Int :=
  wrapped (2 ^ 7) fun ch => (ch.toNat : Int)

abbrev parentCmp : BitVec 64 → BitVec 64 → Int :=
  wrapped (2 ^ 31) fun id => (id.toNat : Int)

theorem toInt_sub_eq_byteCmp (x y : BitVec 8) : (x - y).toInt = byteCmp x y := by
  rw [byteCmp, ← toInt_setWidth_sub (v := 8) (w := 7) le_rfl x y, BitVec.setWidth_eq]

theorem byte_sub_eq_zero_iff {x y : BitVec 8} : x - y = 0#8 ↔ x = y := by
  bv_omega

theorem byteCmp_eq_zero_iff (x y : BitVec 8) : byteCmp x y = 0 ↔ x = y := by
  rw [← toInt_sub_eq_byteCmp, ← byte_sub_eq_zero_iff, ← BitVec.toInt_inj, BitVec.toInt_zero]

-- The loop over the characters with the final comparison of the lengths is the lexicographic
-- comparison of the folded names.
theorem nameDiff_lexCmp (fold : BitVec 8 → BitVec 8) : (n₁ n₂ : List (BitVec 8)) →
    (if nameDiff fold n₁ n₂ ≠ 0#8 then (nameDiff fold n₁ n₂).toInt
      else (n₁.length : Int) - n₂.length) = lexCmp byteCmp (n₁.map fold) (n₂.map fold)
  | [], [] | [], _ :: _ | _ :: _, [] => by simp [nameDiff]
  | ch₁ :: n₁, ch₂ :: n₂ => by
    have ih := nameDiff_lexCmp fold n₁ n₂
    have hz := byteCmp_eq_zero_iff (fold ch₁) (fold ch₂)
    by_cases h : fold ch₁ = fold ch₂
    · rw [List.map_cons, List.map_cons, lexCmp_cons_cons_of_eq (hz.mpr h), ← ih]
      simp [nameDiff, h]
    · have hd : fold ch₁ - fold ch₂ ≠ 0#8 := byte_sub_eq_zero_iff.not.mpr h
      rw [List.map_cons, List.map_cons, lexCmp_cons_cons_of_ne (hz.not.mpr h),
        ← toInt_sub_eq_byteCmp]
      simp only [nameDiff, if_pos hd]

theorem cattreeCmp_eq_pairCmp (fold : BitVec 8 → BitVec 8) (a b : CattreeKey) :
    cattreeCmp fold a b = pairCmp parentCmp (lexCmp byteCmp) (a.folded fold) (b.folded fold) := by
  by_cases h : a.parentId = b.parentId
  · simp only [cattreeCmp, pairCmp, CattreeKey.folded, h, ne_eq, not_true_eq_false, if_false,
      ← nameDiff_lexCmp]
  · simp only [cattreeCmp, pairCmp, CattreeKey.folded, h, ne_eq, not_false_eq_true, if_true]
    exact toInt_setWidth_sub (by decide) _ _

-- The names under one parent, and the characters that follow a string in them.
theorem digitsAfter_folded (fold : BitVec 8 → BitVec 8) (s : Set CattreeKey) (id p) :
    digitsAfter { n | (id, n) ∈ CattreeKey.folded fold '' s } p =
      CattreeKey.charsAfter fold s id p := by
  ext ch
  simp only [digitsAfter, CattreeKey.charsAfter, CattreeKey.folded, Set.mem_ofPred_eq,
    Set.mem_image, Prod.mk.injEq]
  constructor
  · rintro ⟨l, key, hk, hp, hn⟩
    exact ⟨key, hk, hp, l, hn⟩
  · rintro ⟨key, hk, hp, l, hn⟩
    exact ⟨l, key, hk, hp, hn⟩

theorem fst_image_folded (fold : BitVec 8 → BitVec 8) (s : Set CattreeKey) :
    Prod.fst '' (CattreeKey.folded fold '' s) = CattreeKey.parentId '' s := by
  rw [Set.image_image]
  rfl

-- A comparison function of the catalog is an order, up to folding, exactly on spread sets of keys.
theorem cattreeCmp_orderedBy_iff (fold : BitVec 8 → BitVec 8) (s : Set CattreeKey) :
    OrderedBy (CattreeKey.folded fold) (cattreeCmp fold) s ↔ CattreeKey.Spread fold s := by
  have hc : cattreeCmp fold = fun a b =>
      pairCmp parentCmp (lexCmp byteCmp) (a.folded fold) (b.folded fold) := by
    funext a b
    exact cattreeCmp_eq_pairCmp fold a b
  have hr : ∀ id, parentCmp id id = 0 := by simp [wrapped]
  rw [hc, orderedBy_comp_iff, ordered_pairCmp_iff hr, fst_image_folded,
    ordered_wrapped_iff (by decide)]
  simp only [ordered_lexCmp_iff byteCmp_eq_zero_iff, digitsAfter_folded,
    ordered_wrapped_iff (h := 2 ^ 7) (by decide)]
  exact ⟨fun h => ⟨h.left, h.right⟩, fun h => ⟨h.parents, h.chars⟩⟩

theorem folded_id_injective : Function.Injective (CattreeKey.folded id) := by
  intro a b h
  simp only [CattreeKey.folded, List.map_id, Prod.mk.injEq] at h
  exact CattreeKey.ext h.left h.right

theorem orderedBy_folded_id_iff {cmp : CattreeKey → CattreeKey → Int} {s : Set CattreeKey} :
    OrderedBy (CattreeKey.folded id) cmp s ↔ Ordered cmp s where
  mp h  := ⟨fun a ha b hb => (h.tie a ha b hb).trans folded_id_injective.eq_iff, h.swap, h.trans⟩
  mpr h := ⟨fun a ha b hb => (h.tie a ha b hb).trans folded_id_injective.eq_iff.symm,
    h.swap, h.trans⟩

-- The comparison functions are orders exactly on the sets of keys whose parent ids and first
-- differing characters lie close enough together.
theorem cattreeCmpfn_orders_iff (s : Set CattreeKey) :
    (Ordered cattreeCmpfn s ↔ CattreeKey.Spread id s) ∧
    (OrderedBy (CattreeKey.folded tolower) cattreeCmpfnCi s ↔
      CattreeKey.Spread tolower s) :=
  ⟨orderedBy_folded_id_iff.symm.trans (cattreeCmp_orderedBy_iff id s),
    cattreeCmp_orderedBy_iff tolower s⟩

-- Parent ids 2 ^ 32 apart compare as equal, the one-character names 0x00 and 0x80 are each below
-- the other, and the names 0x00, 0x60, 0xb0 go round: neither function orders all keys.
theorem cattreeCmpfn_not_ordered :
    (let a : CattreeKey := ⟨1, [], by decide⟩
     let b : CattreeKey := ⟨2 ^ 32 + 1, [], by decide⟩
     a ≠ b ∧ cattreeCmpfn a b = 0 ∧ cattreeCmpfnCi a b = 0) ∧
    (let a : CattreeKey := ⟨1, [0x00], by decide⟩
     let b : CattreeKey := ⟨1, [0x80], by decide⟩
     cattreeCmpfn a b < 0 ∧ cattreeCmpfn b a < 0 ∧
     cattreeCmpfnCi a b < 0 ∧ cattreeCmpfnCi b a < 0) ∧
    (let a : CattreeKey := ⟨1, [0x00], by decide⟩
     let b : CattreeKey := ⟨1, [0x60], by decide⟩
     let c : CattreeKey := ⟨1, [0xb0], by decide⟩
     cattreeCmpfn a b < 0 ∧ cattreeCmpfn b c < 0 ∧ cattreeCmpfn c a < 0 ∧
     cattreeCmpfnCi a b < 0 ∧ cattreeCmpfnCi b c < 0 ∧
     cattreeCmpfnCi c a < 0) := by
  refine ⟨⟨fun h => ?_, by decide, by decide⟩, by decide, by decide⟩
  exact absurd (congrArg CattreeKey.parentId h) (by decide)

end Emmcfs
