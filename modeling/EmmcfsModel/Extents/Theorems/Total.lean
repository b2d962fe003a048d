import EmmcfsModel.Extents.GetBlock
import EmmcfsModel.Extents.Theorems.Reach

namespace Emmcfs

open Code

namespace Expansion

-- What depends on the lengths of the files and on the size of the LEBs only.
def ByTotals (P : Expansion → Prop) : Prop :=
  ∀ s s', P s → s'.forks = s.forks → s'.fsm.logBlocksInLeb = s.fsm.logBlocksInLeb → P s'

namespace ByTotals

variable {P : Expansion → Prop} (hP : ByTotals P)
include hP

theorem onFsm {m : Driver FsmInfo α}
    (h : FsmInfo.Fixed FsmInfo.logBlocksInLeb → ∀ g, Keeps (·.logBlocksInLeb = g) m) :
    Keeps P (onFsm m) := fun s hs =>
  wp_zoom.mpr <| wp_mono (h (fun _ _ _ _ => rfl) _ s.fsm rfl) (fun _ _ hl => hP s _ hs rfl hl)
    (fun _ _ hl => hP s _ hs rfl hl) id

theorem getFreeBlock : Keeps P (Expansion.onFsm (fsmGetFreeBlock blockOffset length)) :=
  hP.onFsm fun hf _ => hf.getFreeBlock

theorem request : Keeps P request := by
  refine .get_bind fun s _ => ?_
  cases s.outcomes
  case nil         => exact .pure
  case cons o rest =>
    refine .bind (.modify fun s h => hP s _ h rfl rfl) fun _ => ?_
    cases o
    case none => exact .pure
    case some => exact .fail

theorem extentFind : Keeps P (extentFind ino iblock) := by
  refine .bind hP.request fun _ => .bind .get fun s => ?_
  split
  case h_1 => exact .pure
  case h_2 => exact .pure
  case h_3 => exact .fail

theorem exttreeAdd : Keeps P (exttreeAdd ino iblock start cnt) :=
  .bind hP.request fun _ => .bind .get fun _ => .ite .fail <| .bind hP.request fun _ =>
    .modify fun s h => hP s _ h rfl rfl

theorem exttreeAddAfter : Keeps P (exttreeAddAfter ino iblock cnt record) := by
  have hadd (rc : Nat) : Keeps P
      (Code.onFail (do Expansion.exttreeAdd ino iblock rc cnt; pure rc) fun _ => pure 0) :=
    .onFail (.bind hP.exttreeAdd fun _ => .pure) fun _ => .pure
  refine .bind .get fun s => ?_
  split
  case isFalse => exact .bind hP.getFreeBlock fun rc => .ite .pure (hadd rc)
  case isTrue  =>
    split
    case h_1 => exact .halt
    case h_2 =>
      exact .bind hP.getFreeBlock fun rc => .ite .pure <|
        .ite (.bind (.modify fun s h => hP s _ h rfl rfl) fun _ => .pure) (hadd rc)

theorem exttreeAddBlock : Keeps P (exttreeAddBlock ino iblock cnt) := by
  refine .bind (.onFail (.bind hP.extentFind fun _ => .pure) fun _ => .pure) fun r => ?_
  cases r
  case none   => exact .pure
  case some r => exact hP.exttreeAddAfter

theorem exttreeGetBlock : Keeps P (exttreeGetBlock ino iblock) :=
  .onFail (.bind hP.extentFind fun _ => .ite .pure .pure) fun _ => .pure

theorem findOldBlock : Keeps P (findOldBlock ino iblock) := by
  refine .bind .get fun s => ?_
  split
  case h_1 => exact .pure
  case h_2 => exact hP.exttreeGetBlock

end ByTotals

-- The length of a file and the size of the LEBs.
def HasTotal (ino g total : Nat) (s : Expansion) : Prop :=
  s.fsm.logBlocksInLeb = g ∧ (s.forks ino).totalBlockCount = total

theorem byTotals_hasTotal : ByTotals (HasTotal ino g total) :=
  fun _ _ h hf hl => ⟨hl.trans h.left, hf ▸ h.right⟩

-- The file is as long as before, or longer by `cnt` blocks. It is longer if `grown` says so.
def MayGrow (ino g total cnt : Nat) (grown : Prop) (s : Expansion) : Prop :=
  (s.HasTotal ino g total ∧ ¬grown) ∨ s.HasTotal ino g (u32 (total + cnt))

section Grow

variable {s : Expansion} (h : s.HasTotal ino g total)
include h

-- The end of an expansion: the new fork is set.
theorem setFork_total {fork : ForkInfo} (hf : fork.totalBlockCount = n) :
    wp (do setFork ino fork; pure r) (fun _ => HasTotal ino g n) E True s :=
  ⟨h.left, by simpa using hf⟩

theorem expandFork_total : wp (expandFork ino cnt)
    (fun _ => HasTotal ino g (u32 (total + cnt))) (fun _ => HasTotal ino g total) True s := by
  have hget (offset : Nat) : wp (onFsm (fsmGetFreeBlock offset (u32 cnt)))
      (fun _ => HasTotal ino g total) (fun _ => HasTotal ino g total) True s :=
    byTotals_hasTotal.getFreeBlock s h
  have hexpand (used i : Nat) (e : ExtentInfo) :
      ((s.forks ino).expand used i e cnt).totalBlockCount = u32 (total + cnt) :=
    congrArg (fun n => u32 (n + cnt)) h.right
  rw [expandFork, wp_bind, wp_get, wp_ite, wp_ite]
  refine ⟨fun _ => ⟨fun _ => h, fun _ => ?_⟩, fun _ => ?_⟩
  case refine_1 =>
    rw [wp_bind]
    exact wp_imp (hget _) (fun r s' h' => wp_ite.mpr ⟨fun _ => h',
      fun _ => setFork_total h' (hexpand ..)⟩)
  case refine_2 =>
    split
    case h_2 => trivial
    case h_1 =>
      rw [wp_ite, wp_ite, wp_bind]
      refine ⟨fun _ => h, fun _ => ⟨fun _ => h, fun _ => ?_⟩⟩
      refine wp_imp (hget _) (fun r s' h' => ?_)
      rw [wp_ite, wp_ite, wp_ite]
      refine ⟨fun _ => h', fun _ => ⟨fun _ => setFork_total h' (hexpand ..), fun _ =>
        ⟨fun _ => wp_bind.mpr (wp_onFail.mpr ?_), fun _ => setFork_total h' (hexpand ..)⟩⟩⟩
      exact wp_mono (byTotals_hasTotal.onFsm (fun hf _ => hf.freeBlockChunk) s' h')
        (fun _ _ => id) (fun _ _ _ => trivial) id

theorem addOverflow_total : wp (addOverflow ino cnt)
    (fun rc => MayGrow ino g total cnt (rc ≠ 0)) (fun _ => HasTotal ino g total) True s := by
  rw [addOverflow, wp_bind, wp_get, wp_bind, wp_haltOn, wp_bind]
  refine ⟨fun _ => trivial, fun _ => ?_⟩
  refine wp_imp (byTotals_hasTotal.exttreeAddBlock s h) (fun rc s' h' => ?_)
  rw [wp_ite]
  refine ⟨fun hrc => .inl ⟨h', fun hne => hne rfl⟩, fun _ => ?_⟩
  exact wp_imp (setFork_total h' (congrArg (fun n => u32 (n + cnt)) h.right)) (fun _ _ => .inr)

theorem findNewBlock_total : wp (findNewBlock ino iblock cnt)
    (fun rc => MayGrow ino g total cnt (rc ≠ 0)) (fun _ => HasTotal ino g total) True s := by
  have hlast (total' rc : Nat) (s' : Expansion) (h' : MayGrow ino g total cnt (rc ≠ 0) s') :
      wp (if rc = 0 then pure 0 else pure (u64 (rc + u64Sub iblock total')) : ExpandCode Nat)
        (fun rc => MayGrow ino g total cnt (rc ≠ 0)) (fun _ => HasTotal ino g total) True s' := by
    rw [wp_ite]
    refine ⟨fun hrc => ?_, fun hrc => ?_⟩
    · exact h'.imp_left fun ⟨h', _⟩ => ⟨h', fun hne => hne rfl⟩
    · exact .inr (h'.resolve_left fun h' => h'.right hrc)
  have hexpand (e : Errno → ExpandCode Nat) (he : ∀ errno s', s'.HasTotal ino g total →
      wp (e errno) (fun rc => MayGrow ino g total cnt (rc ≠ 0)) (fun _ => HasTotal ino g total) True s') :
      wp (onFail (expandFork ino cnt) e) (fun rc => MayGrow ino g total cnt (rc ≠ 0))
        (fun _ => HasTotal ino g total) True s :=
    wp_onFail.mpr (wp_mono (expandFork_total h) (fun _ _ => .inr) he id)
  have hnone (s' : Expansion) (h' : s'.HasTotal ino g total) :
      MayGrow ino g total cnt ((0 : Nat) ≠ 0) s' := .inl ⟨h', fun hne => hne rfl⟩
  rw [findNewBlock, wp_bind, wp_get, wp_ite, wp_ite, wp_bind, wp_bind, wp_bind]
  refine ⟨fun _ => ?_, fun _ => ⟨fun _ => ?_, fun _ => ?_⟩⟩
  case refine_1 =>
    exact wp_imp (hexpand _ fun _ => hnone) (hlast _)
  case refine_2 =>
    refine wp_imp (hexpand _ fun _ s' h' => wp_ite.mpr ⟨fun _ => addOverflow_total h', fun _ => ?_⟩)
      (hlast _)
    exact hnone s' h'
  case refine_3 => exact wp_imp (addOverflow_total h) (hlast _)

-- A request that fails is the last one if there may be no smaller one.
theorem expandLoop_total (hg : g < 31) (hd : 2 ^ g ∣ req) (hr : req < 2 ^ 63) :
    wp (expandLoop ino iblock req g turns req) (fun _ => HasTotal ino g (u32 (total + req)))
      (fun _ => MayGrow ino g total req False) True s := by
  have hpow : 2 ^ g ≤ 2 ^ 30 := Nat.pow_le_pow_right (by decide) (by omega)
  cases turns
  case zero       => exact .inl ⟨h, id⟩
  case succ turns =>
    rw [expandLoop, wp_ite, wp_bind]
    refine ⟨fun _ => ?_, fun hle => absurd le_rfl hle⟩
    refine wp_mono (findNewBlock_total h) (fun rc s' h' => ?_) (fun _ _ h' => .inl ⟨h', id⟩) id
    rw [wp_ite, wp_ite]
    have hany : MayGrow ino g total req False s' := h'.imp_left fun h' => ⟨h'.left, id⟩
    refine ⟨fun hrc => h'.resolve_left fun h' => h'.right hrc, fun _ => ⟨fun _ => hany, fun hh => ?_⟩⟩
    rw [Nat.shiftRight_one] at hh ⊢
    have hlt : alignUp (req / 2) g < req := by
      have := alignUp_lt (v := req / 2) (g := g) (by omega)
      omega
    cases turns
    case zero => exact hany
    case succ => exact wp_ite.mpr ⟨fun hle => absurd hle (not_le.mpr hlt), fun _ => hany⟩

end Grow

section Leb

variable {g : Nat}

theorem alignUp_eq_lebEnd (h : v + 2 ^ g ≤ 2 ^ 64) : alignUp v g = lebEnd g v := by
  have := Nat.two_pow_pos g
  rw [alignUp, u64_of_lt (by omega), lebEnd, Nat.div_mul_self_eq_mod_sub_self]

theorem dvd_lebEnd : 2 ^ g ∣ lebEnd g n :=
  Nat.dvd_mul_left ..

theorem le_lebEnd : n ≤ lebEnd g n := by
  have := Nat.div_add_mod (n + 2 ^ g - 1) (2 ^ g)
  have := Nat.mod_lt (n + 2 ^ g - 1) (Nat.two_pow_pos g)
  rw [lebEnd, Nat.mul_comm]
  omega

theorem lebEnd_le (hd : 2 ^ g ∣ m) (h : n ≤ m) : lebEnd g n ≤ m := by
  obtain ⟨k, rfl⟩ := hd
  have := Nat.two_pow_pos g
  rw [lebEnd, Nat.mul_comm]
  refine Nat.mul_le_mul_left _ (Nat.le_of_lt_succ (Nat.div_lt_of_lt_mul ?_))
  rw [Nat.mul_succ]
  omega

theorem lebEnd_mono (h : m ≤ n) : lebEnd g m ≤ lebEnd g n :=
  lebEnd_le dvd_lebEnd (h.trans le_lebEnd)

theorem lebEnd_add (hd : 2 ^ g ∣ m) : lebEnd g (m + n) = m + lebEnd g n := by
  obtain ⟨k, rfl⟩ := hd
  have := Nat.two_pow_pos g
  have he : 2 ^ g * k + n + 2 ^ g - 1 = n + 2 ^ g - 1 + 2 ^ g * k := by omega
  rw [lebEnd, he, Nat.add_mul_div_left _ _ this, Nat.add_mul, Nat.mul_comm k, Nat.add_comm, lebEnd]

theorem lebEnd_lt : lebEnd g n < n + 2 ^ g := by
  have := Nat.two_pow_pos g
  have := Nat.div_mul_le_self (n + 2 ^ g - 1) (2 ^ g)
  rw [lebEnd]
  omega

theorem lebEnd_of_dvd (h : 2 ^ g ∣ n) : lebEnd g n = n :=
  Nat.le_antisymm (lebEnd_le h le_rfl) le_lebEnd

end Leb

theorem special_of_mem : ∀ ino ∈ bitmapInos,
    ino ≠ extentsTreeIno ∧ ino ≠ catTreeIno ∧ ino ≠ lebBitmapIno ∧ ino < firstFileIno := by
  decide

section Special

variable {s : Expansion} (hino : ino ∈ bitmapInos) (h : s.HasTotal ino g total)
include hino h

theorem granLog2_eq : granLog2 ino s = g := by
  rw [granLog2, if_pos (special_of_mem ino hino).right.right.right, h.left]

variable (hle : total ≤ iblock) (hlt : iblock < 2 ^ 62) (hg : g < 31)
include hle hlt hg

-- These files ask for as many blocks as they need, in whole LEBs.
theorem minRequest_eq : minRequest ino iblock s = lebEnd g (iblock - total + 1) := by
  have hpow : 2 ^ g ≤ 2 ^ 30 := Nat.pow_le_pow_right (by decide) (by omega)
  rw [minRequest, if_neg (special_of_mem ino hino).left, granLog2_eq hino h, h.right,
    u64Sub_of_le hle (by omega), u64_of_lt (by omega), alignUp_eq_lebEnd (by omega)]

theorem firstRequest_eq : firstRequest ino iblock s = lebEnd g (iblock - total + 1) := by
  have hpow : 2 ^ g ≤ 2 ^ 30 := Nat.pow_le_pow_right (by decide) (by omega)
  have hup : iblock - total + 1 ≤ lebEnd g (iblock - total + 1) := le_lebEnd
  have hdown : lebEnd g (iblock - total + 1) < iblock - total + 1 + 2 ^ g := lebEnd_lt
  rw [firstRequest, if_neg (special_of_mem ino hino).right.left, minRequest_eq hino h hle hlt hg,
    granLog2_eq hino h, Nat.max_eq_right (by omega), alignUp_eq_lebEnd (by omega),
    lebEnd_of_dvd dvd_lebEnd]

-- The length that the file has when it has been made to reach a block.
theorem expandFile_total (hd : 2 ^ g ∣ total) : wp (expandFile ino iblock)
    (fun _ => HasTotal ino g (u32 (lebEnd g (iblock + 1))))
    (fun _ s' => s'.HasTotal ino g total ∨ s'.HasTotal ino g (u32 (lebEnd g (iblock + 1))))
    True s := by
  have hdown : lebEnd g (iblock - total + 1) < iblock - total + 1 + 2 ^ g := lebEnd_lt
  have hpow : 2 ^ g ≤ 2 ^ 30 := Nat.pow_le_pow_right (by decide) (by omega)
  have he : total + lebEnd g (iblock - total + 1) = lebEnd g (iblock + 1) := by
    rw [← lebEnd_add hd]
    congr 1
    omega
  rw [wp_expandFile, minRequest_eq hino h hle hlt hg, firstRequest_eq hino h hle hlt hg,
    granLog2_eq hino h]
  refine ⟨fun _ => .inl h, fun _ => ?_⟩
  refine wp_mono (expandLoop_total h hg dvd_lebEnd (by omega)) (fun _ s' h' => ?_)
    (fun _ s' h' => ?_) id
  · rwa [he] at h'
  · rw [MayGrow, he] at h'
    exact h'.imp_left And.left

end Special

end Expansion

namespace BlockMap

open Expansion

-- The length of a file after emmcfs_get_block has created a block.
def totalAfter (g total iblock : Nat) : Nat :=
  if iblock < total then total else u32 (lebEnd g (iblock + 1))

variable {s : BlockMap}

theorem mapBlock_total (h : s.volume.HasTotal ino g total) :
    wp (mapBlock finished block alloc) (fun r s' => s'.volume.HasTotal ino g total ∧ r.isSome)
      (fun _ s' => s'.volume.HasTotal ino g total) True s := by
  simp only [mapBlock, wp_bind, wp_get, wp_ite, wp_halt, wp_fail, wp_pure]
  exact ⟨fun _ => ⟨fun _ => trivial, fun _ => h⟩, fun _ => ⟨h, rfl⟩⟩

theorem findOldBlock_total (h : s.volume.HasTotal ino g total) (finished : Bool) :
    wp (do
        let resBlock ← onVolume (findOldBlock ino iblock)
        if resBlock.getD 0 = 0 then Code.fail .enospc
        else mapBlock finished (resBlock.getD 0) false)
      (fun r s' => s'.volume.HasTotal ino g total ∧ r.isSome)
      (fun _ s' => s'.volume.HasTotal ino g total) True s := by
  refine wp_bind.mpr (wp_zoom.mpr ?_)
  refine wp_imp (byTotals_hasTotal.findOldBlock s.volume h) (fun r v hv => ?_)
  exact wp_ite.mpr ⟨fun _ => hv, fun _ => mapBlock_total hv⟩

-- Without `create` nothing grows, and the blocks of the file are those that are mapped.
theorem getBlock_read (h : s.volume.HasTotal ino g total) : wp (getBlock ino iblock false)
    (fun r s' => s'.volume.HasTotal ino g total ∧ (r.isSome ↔ iblock < total))
    (fun _ s' => s'.volume.HasTotal ino g total) True s := by
  rw [getBlock, wp_bind, wp_get, wp_ite, h.right]
  refine ⟨fun hle => ⟨h, by simpa using hle⟩, fun hlt => ?_⟩
  exact wp_imp (findOldBlock_total h _) (fun r s' h' => ⟨h'.left, iff_of_true h'.right (by omega)⟩)

theorem getBlock_create (hino : ino ∈ bitmapInos) (h : s.volume.HasTotal ino g total)
    (hlt : iblock < 2 ^ 62) (hg : g < 31) (hd : 2 ^ g ∣ total) : wp (getBlock ino iblock true)
    (fun _ s' => s'.volume.HasTotal ino g (totalAfter g total iblock))
    (fun _ s' => s'.volume.HasTotal ino g total ∨
      s'.volume.HasTotal ino g (totalAfter g total iblock)) True s := by
  obtain ⟨_, _, hleb, hfile⟩ := special_of_mem ino hino
  rw [getBlock, wp_bind, wp_get, wp_ite, h.right]
  refine ⟨fun hle => ?_, fun hnot => ?_⟩
  case refine_1 =>
    have ht : totalAfter g total iblock = u32 (lebEnd g (iblock + 1)) := if_neg (not_lt.mpr hle)
    rw [ht, if_pos rfl, wp_bind, wp_haltOn, expandFile, wp_bind, wp_bind]
    refine ⟨fun _ => trivial, fun _ => wp_zoom.mpr ?_⟩
    refine wp_imp (Expansion.expandFile_total hino h hle hlt hg hd) (fun r v hv => ?_)
    rw [if_neg (by omega)]
    exact wp_pure.mpr (wp_mono (mapBlock_total (s := { s with volume := v }) hv)
      (fun _ _ => And.left) (fun _ _ => .inr) id)
  case refine_2 =>
    have ht : totalAfter g total iblock = total := if_pos (not_le.mp hnot)
    rw [ht]
    exact wp_mono (findOldBlock_total h _) (fun _ _ => And.left) (fun _ _ => .inl) id

end BlockMap

end Emmcfs
