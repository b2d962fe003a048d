import Mathlib.Data.Set.Lattice
import Mathlib.Order.CompletePartialOrder
import Mathlib.Order.Interval.Set.LinearOrder
import Mathlib.Tactic.Ring

-- Byte-addressed stores: contiguous writes and what they leave alone, stretches of known content,
-- numbers in little-endian order.

abbrev Byte := BitVec 8

abbrev Store := Nat → Byte

structure Write where
  addr  : Nat
  bytes : List Byte

namespace Write

variable {w : Write} {d : Store}

def span (w : Write) : Set Nat := Set.Ico w.addr (w.addr + w.bytes.length)

def Apart (v w : Write) : Prop :=
  v.addr + v.bytes.length ≤ w.addr ∨ w.addr + w.bytes.length ≤ v.addr

def apply (w : Write) (d : Store) : Store := fun a =>
  if w.addr ≤ a then w.bytes[a - w.addr]?.getD (d a) else d a

theorem apply_of_notMem (h : a ∉ w.span) : w.apply d a = d a := by
  rw [span, Set.mem_Ico, not_and, not_lt] at h
  rw [apply]
  split
  case isTrue hl  => rw [List.getElem?_eq_none (Nat.le_sub_of_add_le' (h hl)), Option.getD_none]
  case isFalse    => rfl

theorem apply_of_lt (h : a < w.addr) : w.apply d a = d a :=
  if_neg h.not_ge

theorem apply_nil : apply ⟨a, []⟩ d = d := by
  funext x
  simp [apply]

theorem apply_add (h : w.bytes[i]? = some b) : w.apply d (w.addr + i) = b := by
  rw [apply, if_pos (Nat.le_add_right ..), Nat.add_sub_cancel_left, h, Option.getD_some]

end Write

namespace Store

def applyAll (ws : List Write) (d : Store) : Store :=
  ws.foldl (fun d w => w.apply d) d

variable {d d' : Store} {ws vs : List Write} {bs cs : List Byte} {s : Set Nat}

@[simp]
theorem applyAll_nil : applyAll [] d = d := rfl

@[simp]
theorem applyAll_cons : applyAll (w :: ws) d = applyAll ws (w.apply d) := rfl

theorem applyAll_append : applyAll (ws ++ vs) d = applyAll vs (applyAll ws d) :=
  List.foldl_append

-- Writes leave alone what they do not reach.
theorem eqOn_applyAll (h : ∀ w ∈ ws, Disjoint w.span s) : Set.EqOn (applyAll ws d) d s := by
  induction ws generalizing d
  case nil => exact Set.eqOn_refl d s
  case cons w ws ih =>
    intro a ha
    rw [applyAll_cons, ih (fun w hw => h w (by simp [hw])) ha]
    exact Write.apply_of_notMem fun hm => Set.disjoint_left.mp (h w (by simp)) hm ha

-- The same writes on stores that agree.
theorem eqOn_applyAll_congr (h : Set.EqOn d d' s) :
    Set.EqOn (applyAll ws d) (applyAll ws d') s := by
  induction ws generalizing d d'
  case nil => exact h
  case cons w ws ih =>
    refine ih fun a ha => ?_
    simp only [Write.apply, h ha]

-- A byte that no write reaches can be changed before or after them.
theorem applyAll_update (h : ∀ w ∈ ws, a ∉ w.span) :
    applyAll ws (Function.update d a b) = Function.update (applyAll ws d) a b := by
  funext x
  by_cases hx : x = a
  case pos =>
    subst hx
    rw [Function.update_self, eqOn_applyAll (s := {x}) (fun w hw => by simp [h w hw]) rfl,
      Function.update_self]
  case neg =>
    rw [Function.update_of_ne hx]
    exact eqOn_applyAll_congr (s := {a}ᶜ) (fun y hy => Function.update_of_ne hy ..) hx

-- Writes that agree on the byte at `a` put it there, unless it is there already.
theorem applyAll_eq (hw : ∀ w ∈ ws, ∀ i b, w.addr + i = a → w.bytes[i]? = some b → b = v)
    (ha : d a = v ∨ ∃ w ∈ ws, a ∈ w.span) : applyAll ws d a = v := by
  induction ws generalizing d
  case nil => simpa using ha
  case cons w ws ih =>
    rw [applyAll_cons]
    refine ih (fun w' hw' => hw w' (by simp [hw'])) ?_
    by_cases hm : a ∈ w.span
    case pos =>
      obtain ⟨i, rfl⟩ := Nat.exists_eq_add_of_le (Set.mem_Ico.mp hm).left
      have hi : i < w.bytes.length := Nat.lt_of_add_lt_add_left (Set.mem_Ico.mp hm).right
      have hb := List.getElem?_eq_getElem hi
      exact .inl ((w.apply_add hb).trans (hw w (by simp) i _ rfl hb))
    case neg =>
      rw [Write.apply_of_notMem hm]
      refine ha.imp_right fun ⟨w', hw', hm'⟩ => ?_
      cases List.mem_cons.mp hw'
      case inl he  => exact absurd (he ▸ hm') hm
      case inr hw' => exact ⟨w', hw', hm'⟩

-- The bytes `bs` are what the store holds from address `a` on.
def HasAt (d : Store) (a : Nat) (bs : List Byte) : Prop :=
  ∀ i b, bs[i]? = some b → d (a + i) = b

def readAt (d : Store) (a n : Nat) : List Byte :=
  (List.range n).map fun i => d (a + i)

theorem hasAt_apply {w : Write} : HasAt (w.apply d) w.addr w.bytes :=
  fun _ _ h => w.apply_add h

theorem HasAt.congr (h : HasAt d a bs) (he : Set.EqOn d' d (Set.Ico a (a + bs.length))) :
    HasAt d' a bs := by
  intro i b hb
  have hi := (List.getElem?_eq_some_iff.mp hb).choose
  rw [he (Set.mem_Ico.mpr ⟨Nat.le_add_right .., by omega⟩)]
  exact h i b hb

-- Writes to places that are apart all stay.
theorem hasAt_of_apart (h : ws.Pairwise Write.Apart) (hm : w ∈ ws) :
    HasAt (applyAll ws d) w.addr w.bytes := by
  induction ws generalizing d
  case nil => cases hm
  case cons v ws ih =>
    obtain ⟨hv, hws⟩ := List.pairwise_cons.mp h
    rw [applyAll_cons]
    cases hm
    case tail hm => exact ih hws hm
    case head    =>
      refine hasAt_apply.congr (eqOn_applyAll fun u hu => Set.disjoint_left.mpr fun x hx hx' => ?_)
      have := hv u hu
      simp only [Write.Apart, Write.span, Set.mem_Ico] at this hx hx'
      omega

theorem hasAt_append : HasAt d a (bs ++ cs) ↔ HasAt d a bs ∧ HasAt d (a + bs.length) cs := by
  constructor
  case mp =>
    intro h
    constructor
    case left =>
      intro i b hb
      have hi := (List.getElem?_eq_some_iff.mp hb).choose
      exact h i b ((List.getElem?_append_left hi).trans hb)
    case right =>
      intro i b hb
      rw [Nat.add_assoc]
      refine h _ b ((List.getElem?_append_right (Nat.le_add_right ..)).trans ?_)
      rwa [Nat.add_sub_cancel_left]
  case mpr =>
    rintro ⟨hl, hr⟩ i b hb
    by_cases hi : i < bs.length
    case pos => exact hl i b ((List.getElem?_append_left hi).symm.trans hb)
    case neg =>
      rw [List.getElem?_append_right (not_lt.mp hi)] at hb
      have := hr _ b hb
      rwa [Nat.add_assoc, Nat.add_sub_cancel' (not_lt.mp hi)] at this

theorem HasAt.of_isPrefix (h : HasAt d a bs) (hp : cs <+: bs) : HasAt d a cs := by
  obtain ⟨rest, rfl⟩ := hp
  exact (hasAt_append.mp h).left

theorem HasAt.readAt_eq (h : HasAt d a bs) (hn : bs.length = n) : readAt d a n = bs := by
  subst hn
  refine List.ext_getElem (by simp [readAt]) fun i hi hi' => ?_
  simpa [readAt] using h i bs[i] (List.getElem?_eq_getElem hi')

theorem readAt_congr (h : Set.EqOn d' d (Set.Ico a (a + n))) : readAt d' a n = readAt d a n := by
  refine List.map_congr_left fun i hi => h ?_
  rw [List.mem_range] at hi
  exact Set.mem_Ico.mpr ⟨by omega, by omega⟩

theorem readAt_update_of_le (h : a + n ≤ x) : readAt (Function.update d x b) a n = readAt d a n :=
  readAt_congr fun y hy => Function.update_of_ne (by have := Set.mem_Ico.mp hy; omega) ..

-- The last byte of what is read has been changed.
theorem readAt_update_last : readAt (Function.update d (a + n) b) a (n + 1) = readAt d a n ++ [b] := by
  rw [readAt, List.range_succ, List.map_append, List.map_singleton, Function.update_self]
  exact congrArg (· ++ [b]) (readAt_update_of_le (le_refl _))

@[simp]
theorem length_readAt : (readAt d a n).length = n := by
  simp [readAt]

theorem readAt_succ : readAt d a (n + 1) = d a :: readAt d (a + 1) n := by
  simp [readAt, List.range_succ_eq_map, Nat.add_assoc, Nat.add_comm 1]

theorem hasAt_readAt : HasAt d a (readAt d a n) := by
  intro i b hb
  obtain ⟨hi, he⟩ := List.getElem?_eq_some_iff.mp hb
  simpa [readAt] using he

-- What lies apart from all writes is read as before.
theorem readAt_applyAll_of_apart (h : ∀ w ∈ ws, w.addr + w.bytes.length ≤ a ∨ a + n ≤ w.addr) :
    readAt (applyAll ws d) a n = readAt d a n := by
  refine readAt_congr (eqOn_applyAll fun w hw => Set.disjoint_left.mpr fun x hx hy => ?_)
  have := h w hw
  simp only [Write.span, Set.mem_Ico] at hx hy
  omega

theorem readAt_apply_of_apart {w : Write} (h : w.addr + w.bytes.length ≤ a ∨ a + n ≤ w.addr) :
    readAt (w.apply d) a n = readAt d a n := by
  have hw : ∀ v ∈ [w], v.addr + v.bytes.length ≤ a ∨ a + n ≤ v.addr :=
    List.forall_mem_singleton.mpr h
  exact readAt_applyAll_of_apart hw

theorem HasAt.applyAll_of_apart (hd : HasAt d a bs)
    (h : ∀ w ∈ ws, w.addr + w.bytes.length ≤ a ∨ a + bs.length ≤ w.addr) :
    HasAt (applyAll ws d) a bs := by
  refine hd.congr (eqOn_applyAll fun w hw => Set.disjoint_left.mpr fun x hx hy => ?_)
  have := h w hw
  simp only [Write.span, Set.mem_Ico] at hx hy
  omega

-- What has been copied, and a part of it.
theorem apply_copy_add (h : i < n) : Write.apply ⟨a, readAt d' src n⟩ d (a + i) = d' (src + i) := by
  refine Write.apply_add (w := ⟨a, readAt d' src n⟩) ?_
  rw [readAt, List.getElem?_map, List.getElem?_range h, Option.map_some]

theorem readAt_copy (h : i + m ≤ n) :
    readAt (Write.apply ⟨a, readAt d' src n⟩ d) (a + i) m = readAt d' (src + i) m := by
  refine List.map_congr_left fun j hj => ?_
  rw [List.mem_range] at hj
  rw [Nat.add_assoc, Nat.add_assoc]
  exact apply_copy_add (by omega)

end Store

-- The `n` low bytes of a number, the lowest first, and the number that bytes stand for.
def toLe : Nat → Nat → List Byte
  | 0, _     => []
  | n + 1, v => BitVec.ofNat 8 v :: toLe n (v / 256)

def ofLe : List Byte → Nat
  | []      => 0
  | b :: bs => b.toNat + 256 * ofLe bs

@[simp]
theorem length_toLe : (toLe n v).length = n := by
  induction n generalizing v
  case zero      => rfl
  case succ n ih => rw [toLe, List.length_cons, ih]

-- The bytes keep as much of a number as there is room.
theorem ofLe_toLe_mod : ofLe (toLe n v) = v % 256 ^ n := by
  induction n generalizing v
  case zero      => rw [pow_zero, Nat.mod_one]; rfl
  case succ n ih => rw [toLe, ofLe, ih, BitVec.toNat_ofNat, pow_succ' 256 n, Nat.mod_mul]

theorem ofLe_toLe (h : v < 256 ^ n) : ofLe (toLe n v) = v := by
  rw [ofLe_toLe_mod, Nat.mod_eq_of_lt h]

theorem ofLe_lt : ofLe bs < 256 ^ bs.length := by
  induction bs
  case nil          => decide
  case cons b bs ih =>
    have := b.isLt
    rw [ofLe, List.length_cons, pow_succ]
    omega
