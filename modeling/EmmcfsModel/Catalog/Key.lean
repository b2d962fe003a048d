import EmmcfsModel.Lib.KeyOrder

namespace Emmcfs

-- EMMCFS_CAT_MAX_NAME
def catMaxName : Nat := 255

-- The part of a catalog tree key that is compared: the object id of the parent folder and the name
-- of the child, a string of bytes.
@[ext]
structure CattreeKey where
  parentId       : BitVec 64
  name           : List (BitVec 8)
  name_length_le : name.length ≤ catMaxName

-- The kernel's `isupper` and `tolower`, which go by the Latin-1 character table.
def isupper (c : BitVec 8) : Bool :=
  (0x41#8 ≤ c ∧ c ≤ 0x5a#8) ∨ (0xc0#8 ≤ c ∧ c ≤ 0xd6#8) ∨ (0xd8#8 ≤ c ∧ c ≤ 0xde#8)

def tolower (c : BitVec 8) : BitVec 8 :=
  if isupper c then c + 0x20#8 else c

-- The loop over the common length of two names: the first difference that is not 0 as a signed
-- 8-bit number, 0 if there is none.
def nameDiff (fold : BitVec 8 → BitVec 8) : List (BitVec 8) → List (BitVec 8) → BitVec 8
  | ch₁ :: n₁, ch₂ :: n₂ =>
    let diff := fold ch₁ - fold ch₂
    if diff ≠ 0#8 then diff else nameDiff fold n₁ n₂
  | _, _ => 0#8

-- The two comparison functions differ in what is applied to the characters. The result is an `int`:
-- the 64-bit difference of the parent ids is cut to its low 32 bits.
def cattreeCmp (fold : BitVec 8 → BitVec 8) (key₁ key₂ : CattreeKey) : Int :=
  if key₁.parentId ≠ key₂.parentId then
    ((key₁.parentId - key₂.parentId).setWidth 32).toInt
  else
    let diff := nameDiff fold key₁.name key₂.name
    if diff ≠ 0#8 then diff.toInt else (key₁.name.length : Int) - key₂.name.length

def cattreeCmpfn : CattreeKey → CattreeKey → Int :=
  cattreeCmp id

def cattreeCmpfnCi : CattreeKey → CattreeKey → Int :=
  cattreeCmp tolower

namespace CattreeKey

-- A key as the pair that a comparison function sees.
def folded (fold : BitVec 8 → BitVec 8) (key : CattreeKey) : BitVec 64 × List (BitVec 8) :=
  (key.parentId, key.name.map fold)

-- The characters that follow the string `p` in the folded names under one parent.
def charsAfter (fold : BitVec 8 → BitVec 8) (s : Set CattreeKey) (parentId : BitVec 64)
    (p : List (BitVec 8)) : Set (BitVec 8) :=
  { ch | ∃ key ∈ s, key.parentId = parentId ∧ ∃ l, key.name.map fold = p ++ ch :: l }

-- Of the parent ids, and of the characters in which names under one parent first differ, no two
-- are a multiple of half the comparison's range apart and no three go round it.
structure Spread (fold : BitVec 8 → BitVec 8) (s : Set CattreeKey) : Prop where
  parents : KeyOrder.Spread (2 ^ 31) (fun id : BitVec 64 => (id.toNat : Int)) (parentId '' s)
  chars   : ∀ id p, KeyOrder.Spread (2 ^ 7) (fun ch : BitVec 8 => (ch.toNat : Int))
    (charsAfter fold s id p)

end CattreeKey

end Emmcfs
