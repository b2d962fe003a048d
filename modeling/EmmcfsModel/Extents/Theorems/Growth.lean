import EmmcfsModel.Extents.Growth
import EmmcfsModel.Extents.Theorems.Expand

namespace Emmcfs.Expansion

open Code

variable {s s' s'' : Expansion} {free : Finset Nat}

theorem Kept.refl : Kept s s :=
  ⟨rfl, rfl, List.suffix_refl _⟩

theorem Kept.of_fsm {fsm' : FsmInfo} : Kept s { s with fsm := fsm' } :=
  ⟨rfl, rfl, List.suffix_refl _⟩

theorem Kept.trans (h : Kept s s') (h' : Kept s' s'') : Kept s s'' :=
  ⟨h'.forks.trans h.forks, h'.exttree.trans h.exttree, h'.outcomes.trans h.outcomes⟩

theorem Kept.insertFails (h : Kept s s') (hf : InsertFails s' key) : InsertFails s key := by
  rcases hf with ⟨e, he⟩ | hr
  · exact .inl ⟨e, h.outcomes.subset he⟩
  · exact .inr (h.exttree ▸ hr)

section Requests

-- A request for blocks changes the free space manager only.
theorem ask_spec (h : s.fsm.Manages free) (hsm : s.fsm.Small) :
    (onFsm (fsmGetFreeBlock hint cnt)).wp (fun r s' => (r = 0 ∧ s' = s) ∨
      (Took free s r cnt s' ∧ Kept s s')) (fun _ _ => False) True s := by
  have hfixed : FsmInfo.Fixed FsmInfo.lengthInBytes := fun _ _ _ _ => rfl
  rw [onFsm, wp_zoom]
  refine wp_mono (wp_and (fsmGetFreeBlock_spec hint cnt h hsm) (hfixed.getFreeBlock _ rfl)) ?_
    (fun _ _ h => h.left) fun h => h.right
  rintro r fsm' ⟨hg, hb⟩
  cases hg
  case nothing                => exact .inl ⟨rfl, rfl⟩
  case blocks hr hsub hsm' h' => exact .inr ⟨⟨⟨h', hsm', hb⟩, hr, hsub⟩, .of_fsm⟩

theorem Took.used (ht : Took free s start cnt s') (hin : ∀ x ∈ free, x < 8 * s.fsm.lengthInBytes)
    (hx : x ∈ Finset.Ico start (start + cnt)) :
    x < 8 * s'.fsm.lengthInBytes ∧ testBit s'.fsm.data x := by
  have hlt : x < 8 * s'.fsm.lengthInBytes := ht.bytes ▸ hin x (ht.subset hx)
  have hn : x ∉ free \ Finset.Ico start (start + cnt) := by simp [Finset.mem_Ico.mp hx]
  rw [ht.manages.bits, mem_clearBits] at hn
  exact ⟨hlt, by simpa [hlt] using hn⟩

theorem Took.allocated (h : s.fsm.Manages free) (ht : Took free s start cnt s') (hc : 0 < cnt) :
    s'.fsm.Allocated start cnt := by
  have hin (x) (hx : x ∈ free) : x < 8 * s.fsm.lengthInBytes := (mem_clearBits.mp (h.bits ▸ hx)).left
  have hlast := ht.used hin (Finset.mem_Ico.mpr ⟨show start ≤ start + cnt - 1 by omega, by omega⟩)
  exact ⟨ht.pos, hc, by omega, fun x hx hn => (ht.used hin (Finset.mem_Ico.mpr ⟨hx, hn⟩)).right⟩

-- The blocks that a file cannot use go back.
theorem putBack_spec (h : s.fsm.Manages free) (hc : 0 < cnt) (ht : Took free s start cnt s') :
    (onFail (onFsm (fsmPutFreeBlock start cnt)) fun _ => Code.halt).wp
      (fun _ s'' => Frees free s s'' ∧ Kept s' s'') (fun _ _ => False) True s' := by
  rw [onFsm, wp_onFail, wp_zoom]
  refine wp_mono (fsmFreeBlockChunk_spec ht.manages ht.small (ht.allocated h hc)) (fun _ fsm h => ?_)
    (fun _ _ _ => trivial) fun _ => trivial
  obtain ⟨hm, hsm, hsize⟩ := h
  rw [Finset.union_sdiff_of_subset ht.subset] at hm
  exact ⟨⟨hm, hsm, hsize.bytes.trans ht.bytes⟩, .of_fsm⟩

theorem request_spec : request.wp (fun _ s' => s'.fsm = s.fsm ∧ Kept s s')
    (fun e s' => some e ∈ s.outcomes ∧ s'.fsm = s.fsm ∧ Kept s s') False s := by
  simp only [request, wp_bind, wp_get]
  rcases ho : s.outcomes with _ | ⟨_ | e, outcomes⟩
  · exact ⟨rfl, .refl⟩
  · exact ⟨rfl, rfl, rfl, ho ▸ List.suffix_cons ..⟩
  · exact ⟨by simp, rfl, rfl, rfl, ho ▸ List.suffix_cons ..⟩

theorem extentFind_spec : (extentFind ino iblock).wp (fun _ s' => s'.fsm = s.fsm ∧ Kept s s')
    (fun _ s' => s'.fsm = s.fsm ∧ Kept s s') False s := by
  refine wp_bind.mpr (wp_mono request_spec (fun _ s₁ h₁ => ?_) (fun _ _ h => h.right) id)
  rw [wp_bind, wp_get]
  split
  · exact h₁
  · exact h₁
  · exact h₁

-- A record is not inserted only if a request fails or its key is taken.
theorem exttreeAdd_spec : (exttreeAdd ino iblock start cnt).wp
    (fun _ s' => s'.fsm = s.fsm ∧ s'.forks = s.forks)
    (fun _ s' => InsertFails s ⟨ino, iblock⟩ ∧ s'.fsm = s.fsm ∧ Kept s s') False s := by
  refine wp_bind.mpr (wp_mono request_spec (fun _ s₁ h₁ => ?_) (fun e _ h => ⟨.inl ⟨e, h.1⟩, h.2⟩) id)
  simp only [wp_bind, wp_get, wp_ite, wp_fail, List.any_eq_true, decide_eq_true_eq]
  refine ⟨fun hr => ⟨h₁.right.insertFails (.inr hr), h₁⟩, fun _ => ?_⟩
  refine wp_mono request_spec (fun _ s₂ h₂ => ?_) (fun e s₂ h₂ => ?_) id
  · exact ⟨h₂.left.trans h₁.left, h₂.right.forks.trans h₁.right.forks⟩
  · exact ⟨h₁.right.insertFails (.inl ⟨e, h₂.1⟩), h₂.2.1.trans h₁.left, h₁.right.trans h₂.2.2⟩

end Requests

section Attempts

-- The fork of the file gets its new total.
theorem Took.setFork_spec (ht : Took free s r cnt s') (hf : fork.totalBlockCount = total) :
    (do setFork ino fork; pure r : ExpandCode Nat).wp
      (fun r s' => Took free s r cnt s' ∧ (s'.forks ino).totalBlockCount = total) E H s' := by
  simp only [setFork, wp_bind, wp_modify, wp_pure, if_true]
  exact ⟨⟨⟨ht.manages, ht.small, ht.bytes⟩, ht.pos, ht.subset⟩, hf⟩

theorem Took.of_fsm (ht : Took free s start cnt s') (hf : s''.fsm = s'.fsm) :
    Took free s start cnt s'' :=
  ⟨⟨hf ▸ ht.manages, hf ▸ ht.small, hf ▸ ht.bytes⟩, ht.pos, ht.subset⟩

-- The record for blocks that were taken is inserted.
theorem insert_spec (ht : Took free s start cnt s') (hk : Kept s s') :
    (onFail (do exttreeAdd ino iblock start cnt; pure start) fun _ => pure 0 : ExpandCode Nat).wp
      (Attempt ⟨ino, iblock⟩ cnt free s fun s'' => s''.forks = s.forks) (fun _ _ => False) True s' := by
  rw [wp_onFail, wp_bind]
  refine wp_mono exttreeAdd_spec (fun _ s₁ h₁ => ?_) (fun _ s₁ h₁ => ?_) False.elim
  · exact .grown (ht.of_fsm h₁.left) (h₁.right.trans hk.forks)
  · exact .lost (hk.insertFails h₁.1) (ht.of_fsm h₁.2.1) (hk.trans h₁.2.2)

-- An attempt after one that has changed nothing.
theorem Attempt.of_kept (hk : Kept s s₁) (hb : s₁.fsm.lengthInBytes = s.fsm.lengthInBytes)
    (hp : ∀ s', P s' → P' s') (ha : Attempt key cnt free s₁ P r s') :
    Attempt key cnt free s P' r s' := by
  have htook {start : Nat} (ht : Took free s₁ start cnt s') : Took free s start cnt s' :=
    ⟨⟨ht.manages, ht.small, ht.bytes.trans hb⟩, ht.pos, ht.subset⟩
  cases ha
  case refused hf hk' => exact .refused ⟨hf.manages, hf.small, hf.bytes.trans hb⟩ (hk.trans hk')
  case lost hi ht hk' => exact .lost (hk.insertFails hi) (htook ht) (hk.trans hk')
  case grown h ht     => exact .grown (htook ht) (hp s' h)

variable (h : s.fsm.Manages free) (hsm : s.fsm.Small)

include h hsm

theorem Frees.refl : Frees free s s :=
  ⟨h, hsm, rfl⟩

theorem expandFork_spec (hc : 0 < cnt) (hlt : cnt < 2 ^ 32) : (expandFork ino cnt).wp
    (fun r s' => Took free s r cnt s' ∧
      (s'.forks ino).totalBlockCount = u32 ((s.forks ino).totalBlockCount + cnt))
    (fun _ s' => Frees free s s' ∧ Kept s s') True s := by
  have hsame : Frees free s s ∧ Kept s s := ⟨.refl h hsm, .refl⟩
  simp only [expandFork, wp_bind, wp_get, wp_ite, wp_fail, u32_of_lt hlt]
  refine ⟨fun _ => ⟨fun _ => hsame, fun _ => ?_⟩, fun _ => ?_⟩
  case refine_1 =>
    refine wp_mono (ask_spec h hsm) ?_ (fun _ _ => False.elim) id
    rintro r s' (⟨rfl, rfl⟩ | ⟨ht, hk⟩) <;> rw [wp_ite]
    · exact ⟨fun _ => hsame, fun hne => absurd rfl hne⟩
    · exact ⟨fun he => absurd he ht.pos.ne', fun _ => ht.setFork_spec rfl⟩
  case refine_2 =>
    split
    case h_2 => trivial
    case h_1 used last hu hl =>
      simp only [wp_ite, wp_fail, wp_bind]
      refine ⟨fun _ => hsame, fun _ => ⟨fun _ => hsame, fun _ => ?_⟩⟩
      refine wp_mono (ask_spec h hsm) ?_ (fun _ _ => False.elim) id
      rintro r s' (⟨rfl, rfl⟩ | ⟨ht, hk⟩) <;> simp only [wp_ite, wp_fail]
      · exact ⟨fun _ => hsame, fun hne => absurd trivial hne⟩
      · refine ⟨fun he => absurd he ht.pos.ne', fun _ => ⟨fun _ => ht.setFork_spec rfl, fun _ =>
          ⟨fun _ => ?_, fun _ => ht.setFork_spec rfl⟩⟩⟩
        refine wp_bind.mpr (wp_mono (putBack_spec h hc ht) (fun _ s'' h' => ?_) (fun _ _ => False.elim) id)
        exact ⟨h'.left, hk.trans h'.right⟩

theorem exttreeAddAfter_spec : (exttreeAddAfter ino iblock cnt record).wp
    (Attempt ⟨ino, iblock⟩ cnt free s fun s' => s'.forks = s.forks) (fun _ _ => False) True s := by
  have hsame : Attempt ⟨ino, iblock⟩ cnt free s (fun s' => s'.forks = s.forks) 0 s :=
    .refused (.refl h hsm) .refl
  rw [exttreeAddAfter, wp_bind, wp_get, wp_ite]
  refine ⟨fun _ => ?_, fun _ => ?_⟩
  case refine_1 =>
    split
    case h_1 => trivial
    case h_2 lextent _ =>
      rw [wp_bind]
      refine wp_imp (ask_spec h hsm) ?_
      rintro r s' (⟨rfl, rfl⟩ | ⟨ht, hk⟩) <;> simp only [wp_ite, wp_pure]
      · exact ⟨fun _ => hsame, fun hne => absurd trivial hne⟩
      · refine ⟨fun he => absurd he ht.pos.ne', fun _ => ⟨fun _ => ?_, fun _ => insert_spec ht hk⟩⟩
        exact .grown (ht.of_fsm rfl) hk.forks
  case refine_2 =>
    rw [wp_bind]
    refine wp_imp (ask_spec h hsm) ?_
    rintro r s' (⟨rfl, rfl⟩ | ⟨ht, hk⟩) <;> simp only [wp_ite, wp_pure]
    · exact ⟨fun _ => hsame, fun hne => absurd trivial hne⟩
    · exact ⟨fun he => absurd he ht.pos.ne', fun _ => insert_spec ht hk⟩

theorem exttreeAddBlock_spec (hlt : cnt < 2 ^ 32) : (exttreeAddBlock ino iblock cnt).wp
    (Attempt ⟨ino, iblock⟩ cnt free s fun s' => s'.forks = s.forks) (fun _ _ => False) True s := by
  refine wp_bind.mpr (wp_onFail.mpr (wp_bind.mpr (wp_mono extentFind_spec ?_ ?_ False.elim)))
  · rintro record s₁ ⟨hf, hk⟩
    change (exttreeAddAfter ino iblock (u32 cnt) record).wp _ _ _ s₁
    rw [u32_of_lt hlt]
    refine wp_imp (exttreeAddAfter_spec (hf ▸ h) (hf ▸ hsm)) (fun r s' ha => ?_)
    exact ha.of_kept hk (by rw [hf]) fun s' he => he.trans hk.forks
  · rintro _ s₁ ⟨hf, hk⟩
    exact .refused ⟨hf ▸ h, hf ▸ hsm, by rw [hf]⟩ hk

theorem addOverflow_spec (hlt : cnt < 2 ^ 32) : (addOverflow ino cnt).wp
    (Attempt ⟨ino, (s.forks ino).totalBlockCount⟩ cnt free s (Longer ino cnt s))
    (fun _ _ => False) True s := by
  simp only [addOverflow, wp_bind, wp_get, wp_haltOn]
  refine ⟨fun _ => trivial, fun _ => ?_⟩
  refine wp_imp (exttreeAddBlock_spec h hsm hlt) (fun r s' ha => ?_)
  rw [wp_ite]
  cases ha
  case refused hfree hk => exact ⟨fun _ => .refused hfree hk, fun hne => absurd rfl hne⟩
  case lost hi ht hk    => exact ⟨fun _ => .lost hi ht hk, fun hne => absurd rfl hne⟩
  case grown hf ht      =>
    refine ⟨fun he => absurd he ht.pos.ne', fun _ => ?_⟩
    exact wp_imp (ht.setFork_spec rfl) (fun _ _ h => .grown h.1 h.2)

theorem findNewBlock_spec (hc : 0 < cnt) (hlt : cnt < 2 ^ 32) : (findNewBlock ino iblock cnt).wp
    (fun block s' => ∃ start,
      Attempt ⟨ino, (s.forks ino).totalBlockCount⟩ cnt free s (Longer ino cnt s) start s' ∧
      block = if start = 0 then 0 else u64 (start + u64Sub iblock (s.forks ino).totalBlockCount))
    (fun _ _ => False) True s := by
  have hdone (start : Nat) (s' : Expansion)
      (ha : Attempt ⟨ino, (s.forks ino).totalBlockCount⟩ cnt free s (Longer ino cnt s) start s') :
      (if start = 0 then pure 0 else
        pure (u64 (start + u64Sub iblock (s.forks ino).totalBlockCount)) : ExpandCode Nat).wp
      (fun block s' => ∃ start,
        Attempt ⟨ino, (s.forks ino).totalBlockCount⟩ cnt free s (Longer ino cnt s) start s' ∧
        block = if start = 0 then 0 else u64 (start + u64Sub iblock (s.forks ino).totalBlockCount))
      (fun _ _ => False) True s' := by
    rw [wp_ite]
    exact ⟨fun h₀ => ⟨start, ha, by simp [h₀]⟩, fun h₀ => ⟨start, ha, by simp [h₀]⟩⟩
  have hfork : (expandFork ino cnt).wp _ _ _ s := expandFork_spec h hsm hc hlt
  simp only [findNewBlock, wp_bind, wp_get, wp_ite, wp_onFail]
  refine ⟨fun _ => ?_, fun _ => ⟨fun _ => ?_, fun _ => ?_⟩⟩
  case refine_1 =>
    exact wp_mono hfork (fun r s' h' => hdone r s' (.grown h'.left h'.right))
      (fun _ s' h' => hdone 0 s' (.refused h'.left h'.right)) id
  case refine_2 =>
    refine wp_mono hfork (fun r s' h' => hdone r s' (.grown h'.left h'.right)) ?_ id
    rintro e s₁ ⟨hf, hk⟩
    rw [wp_ite]
    refine ⟨fun _ => ?_, fun _ => hdone 0 s₁ (.refused hf hk)⟩
    have ha : (addOverflow ino cnt).wp _ _ _ s₁ := addOverflow_spec hf.manages hf.small hlt
    have hp (s') (hl : Longer ino cnt s₁ s') : Longer ino cnt s s' := by rwa [Longer, hk.forks] at hl
    rw [hk.forks] at ha
    exact wp_imp ha (fun r s' ha => hdone r s' (ha.of_kept hk hf.bytes hp))
  case refine_3 => exact wp_imp (addOverflow_spec h hsm hlt) hdone

end Attempts

section Loop

variable {g : Nat}

theorem le_alignUp (h : v + 2 ^ g ≤ 2 ^ 64) : v ≤ alignUp v g := by
  have hk := Nat.two_pow_pos g
  have := Nat.mod_lt (v + 2 ^ g - 1) hk
  simp only [alignUp]
  rw [u64_of_lt (by omega)]
  omega

theorem alignUp_le (h : 2 ^ g ∣ w) (hv : v ≤ w) (hw : w + 2 ^ g ≤ 2 ^ 64) : alignUp v g ≤ w := by
  have hk := Nat.two_pow_pos g
  obtain ⟨q, rfl⟩ := h
  simp only [alignUp]
  rw [u64_of_lt (by omega), ← Nat.mul_div_self_eq_mod_sub_self]
  refine Nat.mul_le_mul_left _ (Nat.le_of_lt_succ (Nat.div_lt_of_lt_mul ?_))
  rw [Nat.mul_succ]
  omega

theorem Frees.lt (h : s.fsm.Manages free) (hsm : s.fsm.Small) (hx : x ∈ free) : x < 2 ^ 32 := by
  have hb := hsm.bytes
  have := (mem_clearBits.mp (h.bits ▸ hx)).left
  omega

-- What comes after an attempt without success.
theorem Grew.of_kept (hk : Kept s s₁) (hb : s₁.fsm.lengthInBytes = s.fsm.lengthInBytes)
    (hs : free₁ ⊆ free) (hh : hi₁ ≤ hi) (hg : Grew ino iblock lo hi₁ free₁ s₁ block s') :
    Grew ino iblock lo hi free s block s' := by
  obtain ⟨cnt, start, free', hlo, hhi, hsub, ht, hl, hblock⟩ := hg
  rw [Longer, hk.forks] at hl
  exact ⟨cnt, start, free', hlo, hhi.trans hh, hsub.trans hs,
    ⟨⟨ht.manages, ht.small, ht.bytes.trans hb⟩, ht.pos, ht.subset⟩, hl, hk.forks ▸ hblock⟩

theorem expandLoop_spec (hg : g < 31) (hd : 2 ^ g ∣ expandReq) (hge : 2 ^ g ≤ expandReq)
    (hlt : expandReq < 2 ^ 32) (hdelta : u64Sub iblock (s.forks ino).totalBlockCount < 2 ^ 63)
    (h : s.fsm.Manages free) (hsm : s.fsm.Small) :
    (expandLoop ino iblock expandMin g turns expandReq).wp
      (Grew ino iblock (max expandMin (2 ^ g)) expandReq free s)
      (fun _ s' => ¬InsertFails s ⟨ino, (s.forks ino).totalBlockCount⟩ → Frees free s s' ∧ Kept s s')
      True s := by
  have hpow : 2 ^ g ≤ 2 ^ 30 := Nat.pow_le_pow_right (by decide) (by omega)
  induction turns generalizing expandReq s free
  case zero => exact fun _ => ⟨.refl h hsm, .refl⟩
  case succ turns ih =>
    simp only [expandLoop, wp_ite, wp_bind, wp_fail]
    refine ⟨fun hmin => ?_, fun _ _ => ⟨.refl h hsm, .refl⟩⟩
    refine wp_mono (findNewBlock_spec h hsm (by have := Nat.two_pow_pos g; omega) hlt) ?_
      (fun _ _ => False.elim) id
    rintro block s₁ ⟨start, ha, rfl⟩
    -- the next request is not larger
    have hnext (hhalf : ¬expandReq >>> 1 < 2 ^ g) : 2 ^ g ≤ alignUp (expandReq >>> 1) g ∧
        alignUp (expandReq >>> 1) g ≤ expandReq := by
      rw [Nat.shiftRight_one] at hhalf ⊢
      have := le_alignUp (v := expandReq / 2) (g := g) (by omega)
      exact ⟨by omega, alignUp_le hd (by omega) (by omega)⟩
    rw [wp_ite, wp_ite, wp_fail, wp_pure]
    cases ha
    case refused hf hk =>
      refine ⟨fun hne => absurd rfl hne, fun _ => ⟨fun _ _ => ⟨hf, hk⟩, fun hhalf => ?_⟩⟩
      obtain ⟨hge', hle⟩ := hnext hhalf
      refine wp_mono (ih dvd_alignUp hge' (by omega) (hk.forks ▸ hdelta) hf.manages hf.small)
        (fun _ _ => Grew.of_kept hk hf.bytes subset_rfl hle) (fun _ s' he hn => ?_) id
      obtain ⟨hf', hk'⟩ := he fun hi => hn (hk.forks ▸ hk.insertFails hi)
      exact ⟨⟨hf'.manages, hf'.small, hf'.bytes.trans hf.bytes⟩, hk.trans hk'⟩
    case lost hi ht hk =>
      refine ⟨fun hne => absurd rfl hne, fun _ => ⟨fun _ hn => absurd hi hn, fun hhalf => ?_⟩⟩
      obtain ⟨hge', hle⟩ := hnext hhalf
      exact wp_mono (ih dvd_alignUp hge' (by omega) (hk.forks ▸ hdelta) ht.manages ht.small)
        (fun _ _ => Grew.of_kept hk ht.bytes Finset.sdiff_subset hle) (fun _ _ _ hn => absurd hi hn) id
    case grown hl ht =>
      have hstart : start < 2 ^ 32 := Frees.lt h hsm
        (ht.subset (Finset.mem_Ico.mpr ⟨le_rfl, by have := Nat.two_pow_pos g; omega⟩))
      have hpos := ht.pos
      rw [if_neg hpos.ne', u64_of_lt (by omega)]
      refine ⟨fun _ => ⟨expandReq, start, free, ?_, le_rfl, subset_rfl, ht, hl, ?_⟩, fun h₀ => ?_⟩
      · exact max_le hmin hge
      · rw [u64_of_lt (by omega)]
      · omega

end Loop

end Emmcfs.Expansion
