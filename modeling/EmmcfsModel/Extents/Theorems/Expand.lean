import EmmcfsModel.Extents.Expand
import EmmcfsModel.Fsm.Theorems.Fixed
import EmmcfsModel.Lib.Run
import Mathlib.Algebra.BigOperators.Ring.List

namespace Emmcfs

open Code

section Arithmetic

variable {g leb : Nat}

theorem dvd_u32 (hg : g < 31) (h : 2 ^ g ∣ n) : 2 ^ g ∣ u32 n :=
  (Nat.dvd_mod_iff (pow_dvd_pow 2 (by omega))).mpr h

theorem dvd_alignUp : 2 ^ g ∣ Expansion.alignUp v g :=
  Nat.dvd_sub_mod _

-- Between a multiple and the next one there is no other.
theorem add_lt_iff_of_dvd (hi : i < leb) (hm : leb ∣ m) (hn : leb ∣ n) : m + i < n ↔ m < n := by
  constructor
  · omega
  · intro h
    have := Nat.le_of_dvd (by omega) (Nat.dvd_sub hn hm)
    omega

end Arithmetic

theorem ForkInfo.dvd_startOf {fork : ForkInfo}
    (h : ∀ i < fork.usedExtents, ∀ e ∈ fork.extents[i]?, leb ∣ e.blockCount)
    (hi : i ≤ fork.usedExtents) : leb ∣ fork.startOf i := by
  refine List.dvd_sum fun c hc => ?_
  obtain ⟨e, he, hec⟩ := List.mem_map.mp hc
  obtain ⟨j, hj, hje⟩ := List.mem_take_iff_getElem.mp he
  rw [← hec]
  exact h j (by omega) e (by simp [← hje])

-- The used extents have the lengths of whole LEBs.
structure ForkInfo.Aligned (leb : Nat) (fork : ForkInfo) : Prop where
  used    : fork.usedExtents ≤ extentsCountInFork
  total   : leb ∣ fork.totalBlockCount
  extents : ∀ i < fork.usedExtents, ∀ e ∈ fork.extents[i]?, leb ∣ e.blockCount

namespace ForkInfo.Aligned

variable {fork : ForkInfo} {g : Nat}

theorem expand (h : fork.Aligned (2 ^ g)) (hg : g < 31) (hu : n ≤ extentsCountInFork)
    (hj : ∀ j < n, j = i ∨ j < fork.usedExtents) (he : 2 ^ g ∣ e.blockCount) (hb : 2 ^ g ∣ bcnt) :
    (fork.expand n i e bcnt).Aligned (2 ^ g) where
  used  := hu
  total := dvd_u32 hg (Nat.dvd_add h.total hb)
  extents j hlt e' he' := by
    rw [ForkInfo.expand, Vector.getElem?_setIfInBounds] at he'
    split at he'
    · split at he' <;> simp_all
    · exact h.extents j ((hj j hlt).resolve_left (Ne.symm ‹_›)) e' he'

end ForkInfo.Aligned

namespace Expansion

structure Aligned (g : Nat) (s : Expansion) : Prop where
  log     : s.fsm.logBlocksInLeb = g
  forks   : ∀ ino ∈ treeInos, (s.forks ino).Aligned (2 ^ g)
  records : ∀ r ∈ s.exttree, r.key.objectId ∈ treeInos →
    2 ^ g ∣ r.key.iblock ∧ ∀ e ∈ r.lextent, 2 ^ g ∣ e.blockCount

namespace Aligned

variable {g : Nat}

-- The size of the LEBs is not changed.
theorem onFsm {m : Driver FsmInfo α}
    (h : FsmInfo.Fixed FsmInfo.logBlocksInLeb → Keeps (·.logBlocksInLeb = g) m) :
    Keeps (Aligned g) (onFsm m) := fun s hs =>
  wp_zoom.mpr <| wp_mono (h (fun _ _ _ _ => rfl) s.fsm hs.log) (fun _ _ hl => ⟨hl, hs.forks, hs.records⟩)
    (fun _ _ hl => ⟨hl, hs.forks, hs.records⟩) id

theorem setFork (h : fork.Aligned (2 ^ g)) : Keeps (Aligned g) (setFork ino fork) :=
  .modify fun s hs => {
    log         := hs.log
    forks i hi  := by
      dsimp only
      split
      · exact h
      · exact hs.forks i hi
    records     := hs.records
  }

theorem request : Keeps (Aligned g) request := by
  refine .get_bind fun s _ => ?_
  cases s.outcomes
  case nil         => exact .pure
  case cons o rest =>
    refine .bind (.modify fun _ h => ⟨h.log, h.forks, h.records⟩) fun _ => ?_
    cases o
    case none => exact .pure
    case some => exact .fail

section Expand

variable (hg : g < 31)
include hg

theorem exttreeAdd (hi : 2 ^ g ∣ iblock) (hb : 2 ^ g ∣ cnt) :
    Keeps (Aligned g) (exttreeAdd ino iblock start cnt) := by
  refine .bind request fun _ => .bind .get fun _ => .ite .fail <| .bind request fun _ =>
    .modify fun s hs => ⟨hs.log, hs.forks, fun r hr hm => ?_⟩
  rcases List.mem_append.mp hr with hr | hr
  · exact hs.records r (List.takeWhile_subset _ hr) hm
  · cases hr
    case head        => exact ⟨hi, fun e he => by cases he; exact dvd_u32 hg hb⟩
    case tail _ hr   => exact hs.records r (List.dropWhile_subset _ hr) hm

theorem exttreeAddAfter (hi : 2 ^ g ∣ iblock) (hb : 2 ^ g ∣ cnt)
    (hr : ∀ e ∈ record.lextent, record.key.objectId = ino → 2 ^ g ∣ e.blockCount) :
    Keeps (Aligned g) (exttreeAddAfter ino iblock cnt record) := by
  have hadd : ∀ rc, Keeps (Aligned g)
      (Code.onFail (do Expansion.exttreeAdd ino iblock rc cnt; pure rc) fun _ => pure 0) :=
    fun _ => .onFail (.bind (exttreeAdd hg hi hb) fun _ => .pure) fun _ => .pure
  refine .bind .get fun s => ?_
  split
  case isFalse => exact .bind (onFsm (·.getFreeBlock)) fun rc => .ite .pure (hadd rc)
  case isTrue ho =>
    split
    case h_1            => exact .halt
    case h_2 lextent hl =>
      refine .bind (onFsm (·.getFreeBlock)) fun rc => .ite .pure <|
        .ite (.bind (.modify fun s hs => ⟨hs.log, hs.forks, fun r' hr' hm => ?_⟩) fun _ => .pure)
          (hadd rc)
      obtain ⟨r, hmem, heq⟩ := List.mem_map.mp hr'
      split at heq
      case isFalse => exact hs.records r' (heq ▸ hmem) hm
      case isTrue  =>
        subst heq
        obtain ⟨hkey, _⟩ := hs.records r hmem hm
        refine ⟨hkey, fun e he => ?_⟩
        cases he
        exact dvd_u32 hg (Nat.dvd_add (hr lextent hl ho) hb)

omit hg in
theorem extentFind (h : Aligned g s) : wp (extentFind ino iblock)
    (fun record s' => Aligned g s' ∧ ∀ e ∈ record.lextent, record.key.objectId ∈ treeInos →
      2 ^ g ∣ e.blockCount) (fun _ => Aligned g) True s := by
  refine wp_bind.mpr (wp_imp (request s h) (fun _ s h => ?_))
  have hrec : ∀ r ∈ s.exttree, ∀ e ∈ r.lextent, r.key.objectId ∈ treeInos → 2 ^ g ∣ e.blockCount :=
    fun r hr e he hm => (h.records r hr hm).right e he
  refine wp_bind.mpr (wp_get.mpr ?_)
  split
  case h_1 r hr     => exact ⟨h, hrec r (List.mem_of_mem_filter (List.mem_of_getLast? hr))⟩
  case h_2 r _ _ hs => exact ⟨h, hrec r (hs ▸ List.mem_cons_self ..)⟩
  case h_3          => exact h

variable (hino : ino ∈ treeInos)
include hino

theorem expandFork (hb : 2 ^ g ∣ bcnt) : Keeps (Aligned g) (expandFork ino bcnt) := by
  refine .get_bind fun s hs => ?_
  have hf := hs.forks ino hino
  refine .ite (.ite .fail <| .bind (onFsm (·.getFreeBlock)) fun result => .ite .fail <|
    .bind (setFork ?_) fun _ => .pure) ?_
  case refine_1 =>
    exact hf.expand hg (by decide) (fun j hj => .inl (by omega)) (dvd_u32 hg hb) hb
  case refine_2 =>
    split
    case h_2 => exact .halt
    case h_1 used last hu hl =>
      have hlast := hf.extents used (by omega) last (by simpa [hu] using hl)
      refine .ite .fail <| .ite .fail <| .bind (onFsm (·.getFreeBlock)) fun result =>
        .ite .fail <| .ite (.bind (setFork ?_) fun _ => .pure) ?_
      case refine_1 =>
        exact hf.expand hg (by have := hf.used; omega) (fun j hj => .inr (by omega))
          (dvd_u32 hg (Nat.dvd_add hlast hb)) hb
      case refine_2 =>
        split
        case isTrue =>
          exact .bind (.onFail (onFsm (·.freeBlockChunk)) fun _ => .halt) fun _ => .fail
        case isFalse hlt =>
          refine .bind (setFork ?_) fun _ => .pure
          exact hf.expand hg (by omega) (fun j hj => by omega) (dvd_u32 hg hb) hb

theorem exttreeAddBlock (hi : 2 ^ g ∣ iblock) (hb : 2 ^ g ∣ cnt) :
    Keeps (Aligned g) (exttreeAddBlock ino iblock cnt) := by
  intro s hs
  refine wp_bind.mpr (wp_onFail.mpr (wp_bind.mpr (wp_mono (extentFind hs) ?_ ?_ id)))
  · rintro record s ⟨h, hr⟩
    exact exttreeAddAfter hg hi (dvd_u32 hg hb) (fun e he ho => hr e he (ho ▸ hino)) s h
  · intro _ s h
    exact h

theorem addOverflow (hb : 2 ^ g ∣ cnt) : Keeps (Aligned g) (addOverflow ino cnt) := by
  refine .get_bind fun s hs => .bind .haltOn fun _ => ?_
  have hf := hs.forks ino hino
  exact .bind (exttreeAddBlock hg hino hf.total hb) fun rc => .ite .pure <| .bind
    (setFork ⟨hf.used, dvd_u32 hg (Nat.dvd_add hf.total hb), hf.extents⟩) fun _ => .pure

theorem findNewBlock (hb : 2 ^ g ∣ cnt) : Keeps (Aligned g) (findNewBlock ino iblock cnt) := by
  have hexpand := expandFork hg hino hb
  have hadd := addOverflow hg hino hb
  exact .bind .get fun s => .ite (.bind (.onFail hexpand fun _ => .pure) fun _ => .ite .pure .pure) <|
    .ite (.bind (.onFail hexpand fun _ => .ite hadd .pure) fun _ => .ite .pure .pure) <|
    .bind hadd fun _ => .ite .pure .pure

theorem expandLoop (hb : 2 ^ g ∣ expandReq) :
    Keeps (Aligned g) (expandLoop ino iblock expandMin g turns expandReq) := by
  induction turns generalizing expandReq
  case zero          => exact .fail
  case succ turns ih =>
    exact .ite (.bind (findNewBlock hg hino hb) fun _ => .ite .pure <|
      .ite .fail (ih dvd_alignUp)) .fail

theorem expandFile : Keeps (Aligned g) (expandFile ino iblock) := by
  have hlt : ino < firstFileIno := by revert hino ino; decide
  refine .get_bind fun s hs => ?_
  simp only [hlt, if_true, hs.log]
  exact .ite .fail (expandLoop hg hino dvd_alignUp)

end Expand

theorem step (hg : g < 31) (hs : Aligned g s) (h : Step s u s') : Aligned g s' := by
  cases h
  case expand hino h      => exact (wp_ok (expandFile hg hino s hs) h :)
  case expandError hino h => exact (wp_error (expandFile hg hino s hs) h :)
  case other hf hl hr     =>
    exact ⟨hl.trans hs.log, fun ino hino => hf ino hino ▸ hs.forks ino hino,
      fun r hmem hm => hs.records r (hr r hmem hm) hm⟩

end Aligned

section Mapping

theorem findInFork_add (hf : fork.Aligned leb) (hi : i < leb) (hn : leb ∣ n) :
    left ≤ fork.usedExtents →
    findInFork fork (n + i) left = (findInFork fork n left).map fun b => u64 (b + i) := by
  induction left generalizing n
  case zero         => intro; rfl
  case succ left ih =>
    intro hl
    simp only [findInFork]
    cases he : fork.extents[fork.usedExtents - (left + 1)]?
    case none   => rfl
    case some e =>
      have hc := hf.extents _ (by omega) e he
      simp only [add_lt_iff_of_dvd hi hn hc]
      split
      case isTrue    => simp [u64, Nat.add_assoc]
      case isFalse h =>
        rw [show n + i - e.blockCount = n - e.blockCount + i by omega]
        exact ih (Nat.dvd_sub hn hc) (by omega)

theorem startOf_succ {fork : ForkInfo} (he : fork.extents[i]? = some e) :
    fork.startOf (i + 1) = fork.startOf i + e.blockCount := by
  have he : fork.extents.toList[i]? = some e := by simpa using he
  simp [ForkInfo.startOf, List.take_add_one, he]

-- The extents that are left hold the block.
theorem findInFork_isSome (hu : fork.usedExtents ≤ extentsCountInFork) :
    left ≤ fork.usedExtents →
    fork.startOf (fork.usedExtents - left) + n < fork.startOf fork.usedExtents →
    (findInFork fork n left).isSome := by
  induction left generalizing n
  case zero         => intro _ h; rw [Nat.sub_zero] at h; omega
  case succ left ih =>
    intro hl h
    have hlt : fork.usedExtents - (left + 1) < extentsCountInFork := by omega
    have he : fork.extents[fork.usedExtents - (left + 1)]? = some _ := Vector.getElem?_eq_getElem hlt
    have hs := startOf_succ he
    rw [show fork.usedExtents - (left + 1) + 1 = fork.usedExtents - left by omega] at hs
    simp only [findInFork, he]
    split
    case isTrue  => rfl
    case isFalse => exact ih (by omega) (by omega)

theorem cmp2Le64_nonpos : cmp2Le64 a b ≤ 0 ↔ a ≤ b := by
  unfold cmp2Le64
  split
  · simp_all
  · split <;> simp <;> omega

theorem exttreeCmpfn_add {r : ExttreeRecord} (hi : i < leb) (hn : leb ∣ n)
    (hr : r.key.objectId = ino → leb ∣ r.key.iblock) (hlt : n + i < iblockDoesNotMatter) :
    exttreeCmpfn r.key ⟨ino, n + i⟩ ≤ 0 ↔ exttreeCmpfn r.key ⟨ino, n⟩ ≤ 0 := by
  by_cases h : r.key.objectId = ino
  case neg => simp [exttreeCmpfn, h]
  case pos =>
    have := add_lt_iff_of_dvd hi hn (hr h)
    simp only [exttreeCmpfn, h, ne_eq, not_true_eq_false, false_or, hlt.ne,
      show n ≠ iblockDoesNotMatter by omega, if_false, cmp2Le64_nonpos]
    omega

-- Where the search ends when its requests succeed.
theorem extentFind_eq (ho : s.outcomes = []) : extentFind ino iblock s =
    match (s.exttree.filter fun r => exttreeCmpfn r.key ⟨ino, iblock⟩ ≤ 0).getLast?, s.exttree with
    | some r, _    => .ok r s
    | none, r :: _ => .ok r s
    | none, []     => .fail .enoent s := by
  have hreq : request s = .ok () s := by simp [request, ho]
  change Code.bind request _ s = _
  simp only [Code.bind, hreq, get_bind]
  generalize (s.exttree.filter _).getLast? = found
  generalize s.exttree = records
  cases found
  case none => cases records <;> rfl
  case some => rfl

theorem extentFind_add (hs : Aligned g s) (hino : ino ∈ treeInos) (hi : i < 2 ^ g)
    (hn : 2 ^ g ∣ n) (hlt : n + i < iblockDoesNotMatter) (ho : s.outcomes = []) :
    extentFind ino (n + i) s = extentFind ino n s := by
  have hcmp : s.exttree.filter (fun r => exttreeCmpfn r.key ⟨ino, n + i⟩ ≤ 0) =
      s.exttree.filter (fun r => exttreeCmpfn r.key ⟨ino, n⟩ ≤ 0) :=
    List.filter_congr fun r hr => decide_eq_decide.mpr <|
      exttreeCmpfn_add hi hn (fun h => (hs.records r hr (h ▸ hino)).left) hlt
  rw [extentFind_eq ho, extentFind_eq ho, hcmp]

-- The search changes nothing.
theorem extentFind_pure (ho : s.outcomes = []) (ino iblock) :
    (∃ r, extentFind ino iblock s = .ok r s) ∨ ∃ e, extentFind ino iblock s = .fail e s := by
  rw [extentFind_eq ho]
  split
  · exact .inl ⟨_, rfl⟩
  · exact .inl ⟨_, rfl⟩
  · exact .inr ⟨_, rfl⟩

theorem u64Sub_add : u64Sub (m + i) n = u64 (u64Sub m n + i) := by
  simp only [u64Sub, u64]
  omega

theorem exttreeGetBlock_add (hs : Aligned g s) (hino : ino ∈ treeInos) (hn : 2 ^ g ∣ n)
    (hlt : n + 2 ^ g ≤ iblockDoesNotMatter) (ho : s.outcomes = []) :
    ∃ block : Option Nat, ∀ i < 2 ^ g,
      exttreeGetBlock ino (n + i) s = .ok (block.map fun b => u64 (b + i)) s := by
  have heq : ∀ i < 2 ^ g, extentFind ino (n + i) s = extentFind ino n s := fun i hi =>
    extentFind_add hs hino hi hn (by omega) ho
  rcases extentFind_pure ho ino n with ⟨r, hr⟩ | ⟨e, he⟩
  case inr =>
    refine ⟨none, fun i hi => ?_⟩
    change Code.onFail (Code.bind _ _) _ s = _
    simp [Code.onFail, Code.bind, heq i hi, he]
  case inl =>
    refine ⟨if r.key.objectId = ino then r.lextent.map fun lextent =>
      u64 (lextent.firstBlock + u64Sub n r.key.iblock) else none, fun i hi => ?_⟩
    change Code.onFail (Code.bind _ _) _ s = _
    by_cases hobj : r.key.objectId = ino
    case neg => simp [Code.onFail, Code.bind, heq i hi, hr, hobj]
    case pos => simp [Code.onFail, Code.bind, heq i hi, hr, hobj, u64Sub_add, Function.comp_def,
      u64, Nat.add_assoc]

theorem contiguous (hs : Aligned g s) (hino : ino ∈ treeInos)
    (hnode : node * 2 ^ g < (s.forks ino).totalBlockCount) (ho : s.outcomes = []) :
    Contiguous ino node s := by
  have hf := hs.forks ino hino
  have hn : 2 ^ g ∣ node * 2 ^ g := Nat.dvd_mul_left ..
  have hfork : ∀ i < 2 ^ g, findInFork _ (node * 2 ^ g + i) _ = _ := fun i hi =>
    findInFork_add hf hi hn (le_refl _)
  rw [Contiguous, blocksInLeb, hs.log]
  cases hin : findInFork (s.forks ino) (node * 2 ^ g) (s.forks ino).usedExtents
  case some b =>
    refine ⟨some b, fun i hi => ?_, fun _ => rfl⟩
    simp [findOldBlock, hfork i hi, hin]
  case none =>
    have hlast : node * 2 ^ g + 2 ^ g ≤ iblockDoesNotMatter := by
      have := Nat.le_of_dvd (by omega) (Nat.dvd_sub hf.total hn)
      have := (s.forks ino).total_lt
      unfold iblockDoesNotMatter
      omega
    obtain ⟨block, hb⟩ := exttreeGetBlock_add hs hino hn hlast ho
    refine ⟨block, fun i hi => ?_, fun h => ?_⟩
    · simp [findOldBlock, hfork i hi, hin, hb i hi]
    · have := findInFork_isSome hf.used (le_refl _) (by simpa [ForkInfo.startOf] using h)
      simp [hin] at this

end Mapping

theorem Formatted.aligned (h : Formatted s) : Aligned s.fsm.logBlocksInLeb s where
  log             := rfl
  forks i hi      := ⟨h.used i hi, h.total i hi ▸ ForkInfo.dvd_startOf (h.extents i hi) le_rfl,
    h.extents i hi⟩
  records r hr hm := absurd hm (h.records r hr)

theorem Aligned.wholeLebs (h : Aligned g s) (hino : ino ∈ treeInos) : WholeLebs ino s := by
  have hf := h.forks ino hino
  rw [← h.log] at hf h
  exact {
    extents i hi e he := ⟨ForkInfo.dvd_startOf hf.extents hi.le, hf.extents i hi e he⟩
    records r hr hm   := h.records r hr (hm ▸ hino)
  }

-- LEBs of two blocks, a catalog in one of them and free blocks behind it.
def oneNode : Expansion where
  forks ino      := ⟨if ino = catTreeIno then 2 else 0, .replicate 9 (.of 4 2),
    if ino = catTreeIno then 1 else 0, by split <;> decide⟩
  fsm            := {
    tree            := ⟨32, fsmBtreeOrder_ge, some (.mk 0 .leaf [⟨6, 10⟩] [])⟩
    data            := fun _ => 0xffff003f#32
    lengthInBytes   := 4
    pageCount       := 1
    freeBlocksCount := 10
    totalLebCount   := 16
    logBlocksInLeb  := 1
    isMountFinished := true
  }
  freeSpaceStart := 4
  exttree        := []
  outcomes       := []

theorem formatted_oneNode : Formatted oneNode where
  log     := by decide
  used    := by decide
  total   := by decide
  extents ino _ i _ e he := by
    have he : (Vector.replicate extentsCountInFork (ExtentInfo.of 4 2))[i]? = some e := he
    rw [Vector.getElem?_replicate] at he
    split at he <;> cases he
    decide
  records := by decide

end Expansion

end Emmcfs
