import EmmcfsModel.Fsm.Runs
import EmmcfsModel.Fsm.Theorems.Space

namespace Emmcfs

section Scan

variable {data : Nat → BitVec 32} {bytes : Nat}

-- The scanner stands before bit `p`: what it has passed is in the tree, up to the free chunk that it
-- is in.
structure Scanned (data : Nat → BitVec 32) (bytes p : Nat) (scan : Scan) (fsm : FsmInfo) : Prop where
  data_eq  : fsm.data = data
  bytes_eq : fsm.lengthInBytes = bytes
  le       : p ≤ 8 * bytes
  start    : scan.1 = .setBit → scan.2 < p ∧ ∀ x, scan.2 ≤ x → x < p → testBit data x = false
  holds    : fsm.tree.Holds (clearBits data (if scan.1 = .setBit then scan.2 else p))
  count    : fsm.freeBlocksCount = (clearBits data (if scan.1 = .setBit then scan.2 else p)).card

theorem clearBits_of_set (hp : p ≤ q) (hs : ∀ x, p ≤ x → x < q → testBit data x) :
    clearBits data q = clearBits data p := by
  ext x
  simp only [mem_clearBits]
  constructor
  case mp =>
    rintro ⟨hx, hc⟩
    refine ⟨?_, hc⟩
    by_contra hn
    simp [hs x (by omega) hx] at hc
  case mpr => exact fun ⟨hx, hc⟩ => ⟨by omega, hc⟩

theorem clearBits_of_clear (hp : p ≤ q) (hs : ∀ x, p ≤ x → x < q → testBit data x = false) :
    clearBits data q = FsmBtreeKey.blocks ⟨p, q - p⟩ ∪ clearBits data p := by
  ext x
  simp only [mem_clearBits, Finset.mem_union, FsmBtreeKey.mem_blocks]
  constructor
  case mp =>
    rintro ⟨hx, hc⟩
    by_cases hlt : x < p
    case pos => exact .inr ⟨hlt, hc⟩
    case neg => exact .inl (by omega)
  case mpr =>
    rintro (hx | hx)
    · exact ⟨by omega, hs x hx.left (by omega)⟩
    · exact ⟨by omega, hx.right⟩

namespace Scanned

variable {fsm : FsmInfo}

theorem skip_set (h : Scanned data bytes p (.clearBit, n) fsm) (hp : p ≤ q) (hq : q ≤ 8 * bytes)
    (hs : ∀ x, p ≤ x → x < q → testBit data x) : Scanned data bytes q (.clearBit, m) fsm := by
  have heq := clearBits_of_set hp hs
  exact ⟨h.data_eq, h.bytes_eq, hq, nofun, heq ▸ h.holds, heq ▸ h.count⟩

theorem skip_clear (h : Scanned data bytes p (.setBit, n) fsm) (hp : p ≤ q) (hq : q ≤ 8 * bytes)
    (hs : ∀ x, p ≤ x → x < q → testBit data x = false) : Scanned data bytes q (.setBit, n) fsm := by
  refine ⟨h.data_eq, h.bytes_eq, hq, fun _ => ?_, h.holds, h.count⟩
  obtain ⟨hlt, hc⟩ := h.start rfl
  refine ⟨hlt.trans_le hp, fun x hx hq => ?_⟩
  by_cases hxp : x < p
  case pos => exact hc x hx hxp
  case neg => exact hs x (by omega) hq

theorem pass_set (h : Scanned data bytes p (.clearBit, n) fsm) (hq : p < 8 * bytes)
    (hs : testBit data p) : Scanned data bytes (p + 1) (.clearBit, m) fsm := by
  refine h.skip_set p.le_succ hq fun x hx hx' => ?_
  obtain rfl : x = p := by omega
  exact hs

theorem start_chunk (h : Scanned data bytes p (.clearBit, n) fsm) (hq : p < 8 * bytes)
    (hs : testBit data p = false) : Scanned data bytes (p + 1) (.setBit, p) fsm := by
  refine ⟨h.data_eq, h.bytes_eq, hq, fun _ => ⟨Nat.lt_succ_self p, fun x hx hp => ?_⟩, h.holds, h.count⟩
  obtain rfl : x = p := by dsimp only at hx; omega
  exact hs

-- The end of a free chunk puts it into the tree.
theorem insert_chunk (h : Scanned data bytes p (.setBit, n) fsm) (hb : bytes < 2 ^ 32) :
    (fsmInsert n (p - n)).wp (fun _ fsm' => Scanned data bytes p (.clearBit, n) fsm')
      (fun _ _ => False) False fsm := by
  obtain ⟨hlt, hc⟩ := h.start rfl
  have hle := h.le
  dsimp only at hlt hc
  have heq := clearBits_of_clear hlt.le hc
  have hd : Disjoint (FsmBtreeKey.blocks ⟨n, p - n⟩) (clearBits data n) := by
    refine Finset.disjoint_left.mpr fun x hx hs => ?_
    simp only [FsmBtreeKey.mem_blocks, mem_clearBits] at hx hs
    omega
  obtain ⟨tree, hi, hh⟩ := h.holds.insert (Nat.sub_pos_of_lt hlt) hd
  simp only [fsmInsert, Code.wp_bind, Code.wp_get, Code.wp_modify, Code.wp_ite, Code.wp_fail, hi,
    Option.isSome_none, Bool.false_eq_true, false_implies, not_false_eq_true, true_implies, true_and]
  have hcard : (clearBits data p).card = (clearBits data n).card + (p - n) := by
    rw [heq, Finset.card_union_of_disjoint hd, FsmBtreeKey.blocks, Nat.card_Ico,
      Nat.add_sub_cancel_left, Nat.add_comm]
  have hcle := card_clearBits_le data p
  refine ⟨h.data_eq, h.bytes_eq, h.le, by simp, heq ▸ hh, ?_⟩
  have hcount : fsm.freeBlocksCount = (clearBits data n).card := h.count
  change u64 (fsm.freeBlocksCount + (p - n)) = (clearBits data p).card
  rw [hcard, hcount]
  exact u64_of_lt (by omega)

end Scanned

-- The runs that the scanner has passed were put into the tree one after the other, from the state
-- `fsm₀` on.
structure ScannedRuns (fsm₀ : FsmInfo) (data : Nat → BitVec 32) (bytes p : Nat) (scan : Scan)
    (fsm : FsmInfo) : Prop extends Scanned data bytes p scan fsm where
  current  : (Runs.read (isFree data) p).2 = if scan.1 = .setBit then some scan.2 else none
  inserted : insertChunks (chunksOf (Runs.read (isFree data) p).1) fsm₀ = .ok () fsm
  keys     : fsm.tree.keys = chunksOf (Runs.read (isFree data) p).1

-- A chunk behind all others becomes the last key.
theorem fsmInsert_keys {fsm fsm' : FsmInfo} (h : fsm.tree.Holds s) (hs : ∀ x ∈ s, x < blockOffset)
    (hi : fsmInsert blockOffset length fsm = .ok () fsm') :
    fsm'.tree.keys = fsm.tree.keys ++ [⟨blockOffset, length⟩] := by
  obtain ⟨_, hk, _⟩ := fsmBtreeInsert_wf fsmBtreeCmpFn_compares (x := ⟨blockOffset, length⟩) h.wf
  have hlt : ∀ key ∈ fsm.tree.keys, key < ⟨blockOffset, length⟩ := by
    intro key hm
    have hpos := h.pos key hm
    have := hs _ (h.parts.subset hm (FsmBtreeKey.mem_blocks.mpr ⟨le_rfl, by omega⟩))
    exact FsmBtreeKey.lt_iff.mpr (.inl this)
  obtain ⟨hl, hr⟩ := SortedList.filter_lt_of_below hlt
  rw [SortedList.insertKey, hl, hr] at hk
  rw [← hk]
  simp only [fsmInsert, Code.get_bind, Code.modify_bind, Code.ite_run] at hi
  split at hi
  · cases hi
  · cases hi
    rfl

theorem insertChunks_snoc {fsm fsm' : FsmInfo} (h : insertChunks keys fsm₀ = .ok () fsm)
    (hi : fsmInsert key.blockOffset key.length fsm = .ok () fsm') :
    insertChunks (keys ++ [key]) fsm₀ = .ok () fsm' := by
  induction keys generalizing fsm₀
  case nil =>
    cases h
    exact Code.bind_of_ok hi
  case cons key' keys ih =>
    obtain ⟨_, fsm₁, hi', h⟩ := Code.bind_eq_ok.mp h
    exact Code.bind_eq_ok.mpr ⟨_, fsm₁, hi', ih h⟩

namespace ScannedRuns

variable {fsm₀ fsm : FsmInfo}

theorem skip_set (h : ScannedRuns fsm₀ data bytes p (.clearBit, n) fsm) (hp : p ≤ q)
    (hq : q ≤ 8 * bytes) (hs : ∀ x, p ≤ x → x < q → testBit data x) :
    ScannedRuns fsm₀ data bytes q (.clearBit, n) fsm := by
  have hr : Runs.read (isFree data) q = Runs.read (isFree data) p :=
    Runs.read_stay (b := false) (by simp [h.current]) hp fun z hz hy => by simp [isFree, hs z hz hy]
  exact ⟨h.toScanned.skip_set hp hq hs, hr ▸ h.current, hr ▸ h.inserted, hr ▸ h.keys⟩

theorem skip_clear (h : ScannedRuns fsm₀ data bytes p (.setBit, n) fsm) (hp : p ≤ q)
    (hq : q ≤ 8 * bytes) (hs : ∀ x, p ≤ x → x < q → testBit data x = false) :
    ScannedRuns fsm₀ data bytes q (.setBit, n) fsm := by
  have hr : Runs.read (isFree data) q = Runs.read (isFree data) p :=
    Runs.read_stay (b := true) (by simp [h.current]) hp fun z hz hy => by simp [isFree, hs z hz hy]
  exact ⟨h.toScanned.skip_clear hp hq hs, hr ▸ h.current, hr ▸ h.inserted, hr ▸ h.keys⟩

theorem pass_set (h : ScannedRuns fsm₀ data bytes p (.clearBit, n) fsm) (hq : p < 8 * bytes)
    (hs : testBit data p) : ScannedRuns fsm₀ data bytes (p + 1) (.clearBit, n) fsm := by
  refine h.skip_set p.le_succ hq fun x hx hx' => ?_
  obtain rfl : x = p := by omega
  exact hs

theorem pass_clear (h : ScannedRuns fsm₀ data bytes p (.setBit, n) fsm) (hq : p < 8 * bytes)
    (hs : testBit data p = false) : ScannedRuns fsm₀ data bytes (p + 1) (.setBit, n) fsm := by
  refine h.skip_clear p.le_succ hq fun x hx hx' => ?_
  obtain rfl : x = p := by omega
  exact hs

theorem start_chunk (h : ScannedRuns fsm₀ data bytes p (.clearBit, n) fsm) (hq : p < 8 * bytes)
    (hs : testBit data p = false) : ScannedRuns fsm₀ data bytes (p + 1) (.setBit, p) fsm := by
  have hr := Runs.read_start (p := isFree data) (x := p) (by simp [h.current]) (by simp [isFree, hs])
  exact ⟨h.toScanned.start_chunk hq hs, hr ▸ rfl, hr ▸ h.inserted, hr ▸ h.keys⟩

-- The run that ends at bit `p` comes behind all others.
theorem insert_run (h : ScannedRuns fsm₀ data bytes p (.setBit, n) fsm) (hb : bytes < 2 ^ 32) :
    ∃ fsm', fsmInsert n (p - n) fsm = .ok () fsm' ∧ Scanned data bytes p (.clearBit, n) fsm' ∧
      insertChunks (chunksOf ((Runs.read (isFree data) p).1 ++ [(n, p - n)])) fsm₀ = .ok () fsm' ∧
      fsm'.tree.keys = chunksOf ((Runs.read (isFree data) p).1 ++ [(n, p - n)]) := by
  obtain ⟨fsm', hi, h'⟩ := Code.wp_returns_unit (h.toScanned.insert_chunk hb)
  refine ⟨fsm', hi, h', ?_, ?_⟩
  · rw [chunksOf, List.map_append]
    exact insertChunks_snoc h.inserted hi
  · have hlt : ∀ x ∈ clearBits data n, x < n := fun x hx => (mem_clearBits.mp hx).left
    rw [fsmInsert_keys h.holds hlt hi, h.keys, chunksOf, chunksOf, List.map_append, List.map_singleton]

theorem end_chunk (h : ScannedRuns fsm₀ data bytes p (.setBit, n) fsm) (hb : bytes < 2 ^ 32)
    (hq : p < 8 * bytes) (hs : testBit data p) :
    (fsmInsert n (p - n)).wp (fun _ fsm' => ScannedRuns fsm₀ data bytes (p + 1) (.clearBit, n) fsm')
      (fun _ _ => False) False fsm := by
  obtain ⟨fsm', hi, h', hr, hk⟩ := h.insert_run hb
  have hc : (Runs.read (isFree data) p).2 = some n := by simp [h.current]
  have he := Runs.read_end hc (by simp [isFree, hs])
  exact (Code.wp_of_ok hi).mpr ⟨h'.pass_set hq hs, by rw [he]; rfl, by rwa [he], by rwa [he]⟩

theorem end_chunk_anyway (h : ScannedRuns fsm₀ data bytes p (.setBit, n) fsm) (hb : bytes < 2 ^ 32)
    (hq : p < 8 * bytes) (hs : testBit data p) : (fsmInsertAnyway n (p - n)).wp
      (fun _ fsm' => ScannedRuns fsm₀ data bytes (p + 1) (.clearBit, n) fsm')
      (fun _ _ => False) False fsm := by
  rw [fsmInsertAnyway, Code.wp_onFail]
  exact Code.wp_mono (h.end_chunk hb hq hs) (fun _ _ => id) (fun _ _ => False.elim) id

end ScannedRuns

section Word

variable {word : BitVec 32}

theorem findIdx_range (p : Nat → Bool) (h : ∃ j < n, p j) :
    (List.range n).findIdx p < n ∧ p ((List.range n).findIdx p) ∧
      ∀ j < (List.range n).findIdx p, p j = false := by
  have hex : ∃ j ∈ List.range n, p j = true := by simpa using h
  have hlt := List.findIdx_lt_length_of_exists hex
  refine ⟨by simpa using hlt, ?_, fun j hj => ?_⟩
  · simpa using List.findIdx_getElem (w := hlt)
  · simpa using List.not_of_lt_findIdx hj

theorem ffz_spec (h : word ≠ BitVec.allOnes 32) :
    ffz word < 32 ∧ word.getLsbD (ffz word) = false ∧ ∀ j < ffz word, word.getLsbD j := by
  have hex : ∃ j < 32, !word.getLsbD j := by
    by_contra hn
    refine h (BitVec.eq_of_getLsbD_eq fun j hj => ?_)
    have : word.getLsbD j = true := by
      by_contra hb
      exact hn ⟨j, hj, by simpa using hb⟩
    rw [this, BitVec.getLsbD_allOnes, decide_eq_true hj]
  simpa [ffz] using findIdx_range _ hex

theorem ffs_spec (h : word ≠ 0#32) :
    ffs word - 1 < 32 ∧ word.getLsbD (ffs word - 1) ∧
      ∀ j < ffs word - 1, word.getLsbD j = false := by
  have hex : ∃ j < 32, word.getLsbD j := by
    by_contra hn
    refine h (BitVec.eq_of_getLsbD_eq fun j hj => ?_)
    rw [BitVec.getLsbD_zero]
    by_contra hb
    exact hn ⟨j, hj, by simpa using hb⟩
  simpa [ffs] using findIdx_range _ hex

theorem testBit_word (h : off < 32) : testBit data (32 * i + off) = (data i).getLsbD off := by
  have hd : (32 * i + off) / 32 = i := by omega
  have hm : (32 * i + off) % 32 = off := by omega
  rw [testBit, hd, hm]

-- The same for a stretch of bits of one word.
theorem testBit_of_getLsbD {b : Bool} (hk : k ≤ 32)
    (h : ∀ j, off ≤ j → j < k → (data i).getLsbD j = b) :
    ∀ x, 32 * i + off ≤ x → x < 32 * i + k → testBit data x = b := by
  intro x hlo hx
  obtain ⟨j, rfl⟩ := Nat.exists_eq_add_of_le (show 32 * i ≤ x by omega)
  rw [testBit_word (by omega)]
  exact h j (by omega) (by omega)

variable {fsm₀ fsm : FsmInfo} (hb : bytes < 2 ^ 32)

include hb in
theorem scanWord_spec (h : ScannedRuns fsm₀ data bytes (32 * i + off) scan fsm)
    (hw : 32 * (i + 1) ≤ 8 * bytes) (ho : off ≤ 32) (hf : 32 ≤ fuel + off) :
    (scanWord i (data i) fuel off scan).wp
      (fun scan' fsm' => ScannedRuns fsm₀ data bytes (32 * (i + 1)) scan' fsm') (fun _ _ => False) False
      fsm := by
  induction fuel generalizing off scan fsm
  case zero =>
    obtain rfl : off = 32 := by omega
    exact h
  case succ fuel ih =>
    obtain ⟨mode, n⟩ := scan
    have h5 : i <<< 5 = 32 * i := by rw [Nat.shiftLeft_eq, Nat.mul_comm]
    simp only [scanWord, h5, Code.wp_ite, Code.wp_pure]
    refine ⟨fun hle => ?_, fun hlt => ?_⟩
    · obtain rfl : off = 32 := by omega
      exact h
    · cases mode
      case clearBit =>
        -- what is skipped is in use, the first clear bit starts a chunk
        simp only [Code.wp_ite, Code.wp_pure]
        refine ⟨?_, fun h₀ => ⟨fun hc => ?_, fun hc => ?_⟩⟩
        · rintro rfl
          refine ⟨fun hall => ?_, fun hall => ?_⟩
          · refine h.skip_set (by omega) hw (testBit_of_getLsbD le_rfl fun j _ hj => ?_)
            rw [hall, BitVec.getLsbD_allOnes, decide_eq_true hj]
          · obtain ⟨hlt, hc, hs⟩ := ffz_spec hall
            have hq := h.skip_set (q := 32 * i + ffz (data i)) (by omega) (by omega)
              (testBit_of_getLsbD hlt.le fun j _ hj => hs j hj)
            exact ih (hq.start_chunk (by omega) ((testBit_word hlt).trans hc)) hlt (by omega)
        · have hc : testBit data (32 * i + off) = false := by
            simpa [testBit_word (Nat.lt_of_not_le hlt)] using hc
          exact ih (h.start_chunk (by omega) hc) (by omega) (by omega)
        · have hc : testBit data (32 * i + off) := by
            simpa [testBit_word (Nat.lt_of_not_le hlt)] using hc
          exact ih (h.pass_set (by omega) hc) (by omega) (by omega)
      case setBit =>
        -- what is skipped is free, the first set bit ends the chunk
        simp only [Code.wp_ite, Code.wp_pure, Code.wp_bind]
        refine ⟨?_, fun h₀ => ⟨fun hc => ?_, fun hc => ?_⟩⟩
        · rintro rfl
          refine ⟨fun hall => ?_, fun hall => ?_⟩
          · refine h.skip_clear (by omega) hw (testBit_of_getLsbD le_rfl fun j _ hj => ?_)
            rw [hall, BitVec.getLsbD_zero]
          · obtain ⟨hlt, hc, hs⟩ := ffs_spec hall
            have hq := h.skip_clear (q := 32 * i + (ffs (data i) - 1)) (by omega) (by omega)
              (testBit_of_getLsbD hlt.le fun j _ hj => hs j hj)
            have hi := hq.end_chunk hb (by omega) ((testBit_word hlt).trans hc)
            exact Code.wp_imp hi (fun _ fsm' hq => ih hq hlt (by omega))
        · have hc : testBit data (32 * i + off) := (testBit_word (Nat.lt_of_not_le hlt)).trans hc
          refine Code.wp_imp (h.end_chunk_anyway hb (by omega) hc) ?_
          exact fun _ fsm' hq => ih hq (by omega) (by omega)
        · have hc : testBit data (32 * i + off) = false := by
            simpa [testBit_word (Nat.lt_of_not_le hlt)] using hc
          exact ih (h.pass_clear (by omega) hc) (by omega) (by omega)

include hb in
theorem scanWords_spec (h : ScannedRuns fsm₀ data bytes (32 * i) scan fsm)
    (hw : 32 * (i + n) ≤ 8 * bytes) :
    (scanWords n i scan).wp (fun scan' fsm' => ScannedRuns fsm₀ data bytes (32 * (i + n)) scan' fsm')
      (fun _ _ => False) False fsm := by
  induction n generalizing i scan fsm
  case zero => exact h
  case succ n ih =>
    simp only [scanWords, Code.wp_bind, Code.wp_get, h.data_eq]
    refine Code.wp_imp (scanWord_spec hb h (by omega) (by omega) (by omega)) ?_
    intro scan' fsm' h'
    rw [show i + (n + 1) = i + 1 + n by omega] at hw ⊢
    exact ih h' hw

include hb in
theorem scanRest_spec (h : ScannedRuns fsm₀ data bytes (32 * i + off) scan fsm) (hn : off + n ≤ 32)
    (hw : 32 * i + off + n ≤ 8 * bytes) :
    (scanRest i (data i) n off scan).wp
      (fun scan' fsm' => ScannedRuns fsm₀ data bytes (32 * i + off + n) scan' fsm') (fun _ _ => False) False
      fsm := by
  induction n generalizing off scan fsm
  case zero => exact h
  case succ n ih =>
    obtain ⟨mode, m⟩ := scan
    have h5 : i <<< 5 = 32 * i := by rw [Nat.shiftLeft_eq, Nat.mul_comm]
    have hbit : testBit data (32 * i + off) = (data i).getLsbD off := testBit_word (by omega)
    rw [show 32 * i + off + (n + 1) = 32 * i + (off + 1) + n by omega] at hw ⊢
    cases mode
    case clearBit =>
      simp only [scanRest, h5, Code.wp_ite]
      refine ⟨fun hc => ?_, fun hc => ?_⟩
      · exact ih (h.start_chunk (by omega) (by simpa [hbit] using hc)) (by omega) hw
      · exact ih (h.pass_set (by omega) (by simpa [hbit] using hc)) (by omega) hw
    case setBit =>
      simp only [scanRest, h5, Code.wp_ite, Code.wp_bind]
      refine ⟨fun hc => ?_, fun hc => ?_⟩
      · refine Code.wp_imp (h.end_chunk_anyway hb (by omega) (hbit.trans hc)) ?_
        exact fun _ fsm' hq => ih hq (by omega) hw
      · exact ih (h.pass_clear (by omega) (by simpa [hbit] using hc)) (by omega) hw

end Word

-- What fsm_get_tree has done: the runs are in the tree, and the tree and the counter agree with the
-- bitmap.
structure ReadTree (fsm fsm' : FsmInfo) : Prop where
  data_eq  : fsm'.data = fsm.data
  bytes_eq : fsm'.lengthInBytes = fsm.lengthInBytes
  manages  : fsm'.Manages (clearBits fsm.data (8 * fsm.lengthInBytes))
  inserted : insertChunks (freeRuns fsm.data (8 * fsm.lengthInBytes))
    { fsm with freeBlocksCount := 0 } = .ok () fsm'
  keys     : fsm'.tree.keys = freeRuns fsm.data (8 * fsm.lengthInBytes)

theorem fsmGetTree_readTree {fsm : FsmInfo} (ht : fsm.tree.root = none)
    (hb : fsm.lengthInBytes < 2 ^ 32) :
    fsmGetTree.wp (fun _ fsm' => ReadTree fsm fsm') (fun _ _ => False) False fsm := by
  have h4 : fsm.lengthInBytes >>> 2 = fsm.lengthInBytes / 4 := Nat.shiftRight_eq_div_pow ..
  have hm : ∀ n, n <<< 2 = n * 4 := fun n => Nat.shiftLeft_eq ..
  have h5 : ∀ n, n <<< 5 = 32 * n := fun n => by rw [Nat.shiftLeft_eq, Nat.mul_comm]
  have hk : fsm.tree.keys = [] := by simp [FsmBtree.keys, ht]
  have h₀ : ScannedRuns { fsm with freeBlocksCount := 0 } fsm.data fsm.lengthInBytes (32 * 0)
      (.clearBit, 0) { fsm with freeBlocksCount := 0 } := by
    refine ⟨⟨rfl, rfl, by omega, by simp, ⟨(FsmBtree.represents_empty ht).wf, ?_, ?_⟩, rfl⟩, rfl, rfl, hk⟩
    · simp [hk]
    · rw [hk]
      exact Owners.nil
  simp only [fsmGetTree, Code.wp_bind, Code.wp_get, Code.wp_modify, h4, hm, h5]
  refine Code.wp_imp (scanWords_spec hb h₀ (by omega)) ?_
  intro scan fsm₁ h₁
  rw [Nat.zero_add, ← Nat.add_zero (32 * _)] at h₁
  rw [Code.wp_bind]
  refine Code.wp_imp (scanRest_spec hb h₁ (by omega) (by omega)) ?_
  rintro ⟨mode, n⟩ fsm₂ h₂
  rw [show 32 * (fsm.lengthInBytes / 4) + 0 + (fsm.lengthInBytes - fsm.lengthInBytes / 4 * 4) * 8 =
    8 * fsm.lengthInBytes by omega] at h₂
  rw [show 32 * (fsm.lengthInBytes / 4) + (fsm.lengthInBytes - fsm.lengthInBytes / 4 * 4) * 8 =
    8 * fsm.lengthInBytes by omega, Code.wp_ite, Code.wp_pure]
  have hm : ∀ fsm', Scanned fsm.data fsm.lengthInBytes (8 * fsm.lengthInBytes) (.clearBit, n) fsm' →
      fsm'.Manages (clearBits fsm.data (8 * fsm.lengthInBytes)) :=
    fun fsm' h => ⟨h.holds, by rw [h.data_eq, h.bytes_eq], h.count⟩
  cases mode
  case setBit =>
    -- the last run ends with the bitmap
    obtain ⟨fsm', hi, h, hr, hk⟩ := h₂.insert_run hb
    rw [← Runs.all_of_some (by simp [h₂.current])] at hr hk
    refine ⟨fun _ => ?_, fun hn => absurd rfl hn⟩
    rw [fsmInsertAnyway, Code.wp_onFail]
    exact (Code.wp_of_ok hi).mpr ⟨h.data_eq, h.bytes_eq, hm _ h, hr, hk⟩
  case clearBit =>
    have ha : Runs.all (isFree fsm.data) (8 * fsm.lengthInBytes) = _ :=
      Runs.all_of_none (by simp [h₂.current])
    refine ⟨by simp, fun _ => ⟨h₂.data_eq, h₂.bytes_eq, hm _ h₂.toScanned, ?_, ?_⟩⟩
    · rw [freeRuns, ha]
      exact h₂.inserted
    · rw [freeRuns, ha]
      exact h₂.keys

-- fsm_get_tree makes the tree and the counter agree with the bitmap.
theorem fsmGetTree_spec {fsm : FsmInfo} (ht : fsm.tree.root = none) (hb : fsm.lengthInBytes < 2 ^ 32) :
    fsmGetTree.wp (fun _ fsm' => fsm'.data = fsm.data ∧ fsm'.lengthInBytes = fsm.lengthInBytes ∧
      fsm'.Manages (clearBits fsm.data (8 * fsm.lengthInBytes))) (fun _ _ => False) False fsm :=
  Code.wp_imp (fsmGetTree_readTree ht hb) (fun _ _ h => ⟨h.data_eq, h.bytes_eq, h.manages⟩)

-- The scan over words is a reading bit by bit: it inserts the maximal runs of clear bits, each once,
-- and counts the clear bits.
theorem fsmGetTree_eq_bitwise {fsm : FsmInfo} (ht : fsm.tree.root = none)
    (hb : fsm.lengthInBytes < 2 ^ 32) :
    ∃ fsm', fsmGetTree fsm = .ok () fsm' ∧ fsmGetTreeBitwise fsm = .ok () fsm' ∧
      fsm'.tree.keys = freeRuns fsm.data (8 * fsm.lengthInBytes) ∧ fsm'.tree.keys.Nodup ∧
      (∀ key, key ∈ fsm'.tree.keys ↔
        Runs.IsRun (isFree fsm.data) (8 * fsm.lengthInBytes) (key.blockOffset, key.length)) ∧
      fsm'.freeBlocksCount = (clearBits fsm.data (8 * fsm.lengthInBytes)).card := by
  obtain ⟨fsm', hg, h⟩ := Code.wp_returns_unit (fsmGetTree_readTree ht hb)
  refine ⟨fsm', hg, h.inserted, h.keys, h.manages.holds.sorted.imp ne_of_lt, fun key => ?_,
    h.manages.count⟩
  rw [h.keys, ← Runs.mem_all, freeRuns, chunksOf, List.mem_map]
  constructor
  case mp =>
    rintro ⟨run, hm, rfl⟩
    exact hm
  case mpr => exact fun hm => ⟨_, hm, rfl⟩

-- A volume with a bitmap of five bytes.
def fortyBlocks : FsmInfo where
  tree            := ⟨32, fsmBtreeOrder_ge, none⟩
  data            := fun _ => 0xF000000F#32
  lengthInBytes   := 5
  pageCount       := 1
  freeBlocksCount := 0
  totalLebCount   := 40
  logBlocksInLeb  := 0
  isMountFinished := false

theorem fsmGetTree_eq_bitwise_fortyBlocks :
    ∃ fsm, fsmGetTree fortyBlocks = .ok () fsm ∧ fsm.tree.keys = [⟨4, 24⟩, ⟨36, 4⟩] := by
  obtain ⟨fsm, hg, _, hk, _⟩ := @fsmGetTree_eq_bitwise fortyBlocks rfl (by decide)
  exact ⟨fsm, hg, hk.trans (by decide)⟩

-- The same volume after the mount.
def fortyFree : FsmInfo :=
  { fortyBlocks with
    tree            := ⟨32, fsmBtreeOrder_ge, some (.mk 0 .leaf [⟨4, 24⟩, ⟨36, 4⟩] [])⟩
    freeBlocksCount := 28 }

theorem fortyFree_manages : fortyFree.Manages (clearBits fortyBlocks.data 40) := by
  have hg : fsmGetTree fortyBlocks = .ok () fortyFree := rfl
  exact (Code.wp_ok (@fsmGetTree_readTree fortyBlocks rfl (by decide)) hg).manages

end Scan

end Emmcfs
