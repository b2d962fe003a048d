import EmmcfsModel.Locking.Theorems.Leads

namespace Emmcfs

namespace Locking

-- What a function that can only fail to release the FSM lock does.
def Settles (p : LockProfile) (r : Int) (p' : LockProfile) : Prop :=
  p' = p ∨ r ≠ 0 ∧ p' = (p.locked .fsm).fault

variable {p p' : LockProfile}

theorem addChunks_leads : Leads addChunks (fun _ p' => p' = p) p := by
  refine .forever ?_
  refine .test rfl fun more => .ite (fun _ => .pure rfl) fun _ => ?_
  refine .call rfl fun err => .ite (fun _ => ?_) fun _ => .pure rfl
  exact .test rfl fun finished => .ite (fun _ => .haltBind) fun _ => .pure rfl

theorem clearBits_leads :
    Leads clearBits (fun r p' => r = 0 ∧ p' = p ∨ r ≠ 0 ∧ p' = p.fault) p := by
  refine .forever ?_
  refine .test rfl fun more => .ite (fun _ => .pure (.inl ⟨rfl, rfl⟩)) fun _ => ?_
  refine .unguardedTest rfl fun outOfRange => .ite (fun h => ?_) fun h => ?_
  case refine_1 =>
    subst h
    refine .test rfl fun finished => .ite (fun _ => .haltBind) fun _ => .pure (.inr ?_)
    exact ⟨by decide, rfl⟩
  case refine_2 =>
    simp only [Bool.not_eq_true] at h
    subst h
    refine .unguardedTest rfl fun clear => .ite (fun h => ?_) fun h => ?_
    case refine_1 =>
      subst h
      refine .test rfl fun finished => .ite (fun _ => .haltBind) fun _ => .pure (.inr ?_)
      exact ⟨by decide, rfl⟩
    case refine_2 =>
      simp only [Bool.not_eq_true] at h
      subst h
      exact .pure rfl

theorem fsmFreeBlockChunk_leads : Leads fsmFreeBlockChunk (Settles p) p := by
  refine .test rfl fun outOfRange => .ite (fun _ => .haltBind) fun _ => ?_
  refine .same addChunks_leads fun err => .ite (fun _ => .pure (.inl rfl)) fun _ => ?_
  refine .lock (.bind clearBits_leads fun err p' h => .ite (fun he => .pure ?_) fun he => ?_)
  case refine_1 =>
    obtain ⟨h0, -⟩ | ⟨-, rfl⟩ := h
    case inl => exact absurd h0 he
    case inr => exact .inr ⟨he, rfl⟩
  case refine_2 =>
    obtain ⟨-, rfl⟩ | ⟨h0, -⟩ := h
    case inl => exact .unlock (.pure (.inl LockProfile.unlocked_locked))
    case inr => exact absurd h0 he

theorem fsmGetFreeBlock_leads : Leads fsmGetFreeBlock (fun _ p' => p' = p) p := by
  refine .test rfl fun beyond => .ite (fun _ => .pure rfl) fun _ => .lock ?_
  refine .call rfl fun block => .ite (fun _ => ?_) fun _ => ?_
  case refine_1 =>
    exact .call rfl fun err => .bugOn fun _ => .unlock (.pure LockProfile.unlocked_locked)
  case refine_2 => exact .unlock (.pure LockProfile.unlocked_locked)

theorem writeInodeToBnodeLocked_leads :
    Leads writeInodeToBnodeLocked (fun _ p' => p' = p) p := by
  have hfill : Leads (call .writeInodeToBnode .fillCattreeValue) (fun _ p' => p' = p) p :=
    .called fun _ => rfl
  refine .test rfl fun hlink => .ite (fun _ => ?_) fun _ => ?_
  case refine_1 =>
    refine .call rfl fun ret => .ite (fun _ => .pure rfl) fun _ => ?_
    exact .call rfl fun err => .bugOn fun _ => hfill
  case refine_2 =>
    refine .call rfl fun ret => .ite (fun _ => .pure rfl) fun _ => ?_
    exact .call rfl fun ret => .ite (fun _ => .pure rfl) fun _ => hfill

theorem writeInodeToBnode_leads : Leads writeInodeToBnode (fun _ p' => p' = p) p := by
  refine .test rfl fun below => .ite (fun _ => .pure rfl) fun _ => .lock ?_
  exact .same writeInodeToBnodeLocked_leads fun ret => .unlock (.pure LockProfile.unlocked_locked)

theorem readdirEntry_leads :
    Leads readdirEntry (fun r p' => r.elim (p' = p) fun _ => p' = p) p := by
  have hsave : Leads saveKey (fun _ p' => p' = p) p :=
    .test rfl fun small => .ite (fun _ => .call rfl fun ret =>
      .ite (fun _ => .pure rfl) fun _ => .pure rfl) fun _ => .pure rfl
  refine .call rfl fun ret => .ite (fun _ => ?_) fun _ => ?_
  case refine_1 => exact .bind hsave fun ret _ hp => .pure hp
  case refine_2 =>
    refine .call rfl fun ret => .ite (fun _ => .pure rfl) fun _ => .bugOn fun _ => ?_
    exact .test rfl fun other => .ite (fun _ => .pure rfl) fun _ => .pure rfl

theorem readdirLocked_leads : Leads (readdirLocked privateData) (fun _ p' => p' = p) p := by
  have hfirst : Call.unguarded .readdir
      (if privateData then .btreeFind else .findFirstCatalogChild) = false := by
    cases privateData <;> rfl
  refine .call hfirst fun ret => .ite (fun _ => .pure rfl) fun _ => ?_
  refine .call rfl fun ret => .ite (fun _ => .pure rfl) fun _ => ?_
  refine .forever ?_
  refine .test rfl fun other => .ite (fun _ => .pure rfl) fun _ => ?_
  refine .test rfl fun hlink => .ite (fun _ => ?_) fun _ => readdirEntry_leads
  exact .call rfl fun ret => .ite (fun _ => .pure rfl) fun _ => readdirEntry_leads

theorem readdirScan_leads : Leads (readdirScan privateData) (fun _ p' => p' = p) p :=
  .lock (.same readdirLocked_leads fun _ => .unlock (.pure LockProfile.unlocked_locked))

-- A function whose failures are seen in the locks, if they were free before.
def Shows (p : LockProfile) (_ : Int) (p' : LockProfile) : Prop :=
  p' = p ∨ p.faults < p'.faults ∧
    ((∀ l, p.depth l = 0) → p'.underrun = true ∨ ∃ l, p'.depth l ≠ 0)

theorem shows_of_refusal : Shows p r (p.fault.unlocked l) := by
  refine .inr ⟨Nat.lt_succ_self _, fun h => .inl ?_⟩
  simp [LockProfile.unlocked, LockProfile.fault, h]

theorem readdirDotDot_leads : Leads (readdirDotDot privateData) (Shows p) p :=
  .unguardedCheck rfl (fun _ _ => .unlock (.pure shows_of_refusal))
    (readdirScan_leads.mono fun _ _ => .inl)

theorem readdir_leads : ∀ fPos, Leads (readdir fPos privateData) (Shows p) p
  | 0     => .unguardedCheck rfl (fun _ _ => .unlock (.pure shows_of_refusal)) readdirDotDot_leads
  | 1     => readdirDotDot_leads
  | _ + 2 => .ite (fun _ => readdirScan_leads.mono fun _ _ => .inl) fun _ => .pure (.inl rfl)

-- A lock is kept after a failure.
theorem shows_of_leak : Shows p r (p.locked l).fault :=
  .inr ⟨Nat.lt_succ_self _, fun _ => .inr ⟨l, by simp [LockProfile.locked, LockProfile.fault]⟩⟩

theorem lookup_leads : Leads lookup (Shows p) p := by
  have hdone : Leads (do unlock .catalog; return 0) (Shows p) (p.locked .catalog) :=
    .unlock (.pure (.inl LockProfile.unlocked_locked))
  refine .test rfl fun tooLong => .ite (fun _ => .pure (.inl rfl)) fun _ => ?_
  refine .test rfl fun notDir => .ite (fun _ => .pure (.inl rfl)) fun _ => ?_
  refine .call rfl fun ret => .ite (fun _ => .pure (.inl rfl)) fun _ => .lock ?_
  refine .unguardedCheck rfl (fun _ _ => .pure shows_of_leak) ?_
  refine .unguardedCheck rfl (fun _ _ => .pure shows_of_leak) ?_
  refine .test rfl fun other => .ite (fun _ => hdone) fun _ => ?_
  refine .test rfl fun hlink => .ite (fun _ => ?_) fun _ => .call rfl fun _ => hdone
  exact .unguardedCheck rfl (fun _ _ => .pure shows_of_leak) (.call rfl fun _ => hdone)

theorem linkLocked_leads : Leads linkLocked (fun _ p' => p' = p) p := by
  have hadd : Leads (call .link .addHlinkRecord) (fun _ p' => p' = p) p := .called fun _ => rfl
  refine .call rfl fun ret => .ite (fun _ => .pure rfl) fun _ => ?_
  refine .call rfl fun ret => .ite (fun _ => .pure rfl) fun _ => ?_
  refine .test rfl fun hlink => .ite (fun _ => ?_) fun _ => hadd
  refine .call rfl fun ret => .ite (fun _ => .pure rfl) fun _ => ?_
  refine .call rfl fun ret => .ite (fun _ => .pure rfl) fun _ => ?_
  refine .call rfl fun ret => .ite (fun _ => .pure rfl) fun _ => ?_
  exact .call rfl fun ret => .bugOn fun _ => hadd

theorem link_leads : Leads link (fun _ p' => p' = p) p := by
  refine .test rfl fun tooLong => .ite (fun _ => .pure rfl) fun _ => ?_
  refine .test rfl fun dir => .ite (fun _ => .haltBind) fun _ => ?_
  refine .test rfl fun many => .ite (fun _ => .pure rfl) fun _ => .lock ?_
  refine .call rfl fun ret => .ite (fun _ => ?_) fun _ => .unlock (.lock ?_)
  case refine_1 => exact .unlock (.pure LockProfile.unlocked_locked)
  case refine_2 =>
    rw [LockProfile.unlocked_locked]
    refine .same linkLocked_leads fun ret => .unlock ?_
    rw [LockProfile.unlocked_locked]
    refine .ite (fun _ => ?_) fun _ => .pure rfl
    refine .same writeInodeToBnode_leads fun _ => ?_
    exact .bind writeInodeToBnode_leads fun _ _ hp => .pure hp

theorem create_leads : Leads create (fun _ p' => p' = p) p := by
  refine .test rfl fun tooLong => .ite (fun _ => .pure rfl) fun _ => ?_
  refine .call rfl fun ret => .ite (fun _ => .pure rfl) fun _ => ?_
  refine .call rfl fun ret => .ite (fun _ => .pure rfl) fun _ => .lock ?_
  refine .call rfl fun ret => .ite (fun _ => ?_) fun _ => .unlock ?_
  case refine_1 => exact .call rfl fun _ => .unlock (.pure LockProfile.unlocked_locked)
  case refine_2 =>
    rw [LockProfile.unlocked_locked]
    exact writeInodeToBnode_leads

theorem addOrphanInode_leads : Leads addOrphanInode (fun _ p' => p' = p) p := by
  refine .call rfl fun ret => .ite (fun _ => .pure rfl) fun _ => .lock ?_
  exact .call rfl fun rc => .unlock (.pure LockProfile.unlocked_locked)

theorem putFreeBlock_leads (hg : Call.unguarded a .fsmFreeBlockChunk = false) :
    Leads (putFreeBlock a) (Settles p) p :=
  .bind fsmFreeBlockChunk_leads fun _ _ hp => .note (.pure (by simpa [hg] using hp))

theorem freeExtents_leads : Leads freeExtents (Settles p) p := by
  refine .forever ?_
  refine .test rfl fun more => .ite (fun _ => .pure (.inl rfl)) fun _ => ?_
  refine .test rfl fun empty => .ite (fun _ => .pure rfl) fun _ => ?_
  refine .bind (putFreeBlock_leads rfl) fun err p' hp => .ite (fun _ => .pure hp) fun h => .pure ?_
  exact hp.resolve_right fun hl => absurd hl.left h

theorem fsmFreeRuntimeFork_leads : Leads fsmFreeRuntimeFork (Settles p) p := by
  refine .bind freeExtents_leads fun err p' hp => .ite (fun _ => .pure hp) fun h => ?_
  have hp : p' = p := hp.resolve_right fun hl => absurd hl.left h
  subst hp
  refine .test rfl fun blocks => .ite (fun _ => ?_) fun _ => .called fun _ => .inl rfl
  exact addOrphanInode_leads.mono fun _ _ => .inl

-- The error of a chunk is followed by a second release.
theorem putFreeBlock_exttree_leads : Leads (putFreeBlock .fsmFreeExttree) (fun r p' =>
    r = 0 ∧ p' = p ∨ r ≠ 0 ∧ p.faults < p'.faults ∧ p'.depth .extents = p.depth .extents) p := by
  refine .bind fsmFreeBlockChunk_leads fun r p' hp => .note (.pure ?_)
  by_cases hr : r = 0
  case pos =>
    have hp : p' = p := hp.resolve_right fun h => absurd hr h.left
    exact .inl ⟨hr, by simp [hr, hp]⟩
  case neg =>
    refine .inr ⟨hr, ?_⟩
    obtain rfl | ⟨-, rfl⟩ := hp
    all_goals simp [Call.unguarded, hr, LockProfile.fault, LockProfile.locked, Nat.add_assoc]

-- After its loop the lock is held, unless it has been released already.
theorem freeExttreeExtents_leads : Leads freeExttreeExtents (fun r p' => p' = p.locked .extents ∨
    r ≠ 0 ∧ p.faults < p'.faults ∧ p'.depth .extents = p.depth .extents) p := by
  refine .forever (.lock ?_)
  refine .call rfl fun rc => .ite (fun _ => .pure (.inl rfl)) fun _ => ?_
  refine .call rfl fun rc => .bugOn fun _ => ?_
  refine .test rfl fun other => .ite (fun _ => .pure (.inl rfl)) fun _ => ?_
  refine .unguardedCheck rfl (fun rc h => .unlock (.pure (.inr ⟨h, ?_⟩))) ?_
  case refine_1 => simp [LockProfile.unlocked, LockProfile.fault, LockProfile.locked]
  case refine_2 =>
    refine .bind putFreeBlock_exttree_leads fun rc p'' hp => ?_
    refine .ite (fun h => .unlock (.pure (.inr ⟨h, ?_⟩))) fun h => .unlock (.pure ?_)
    case refine_1 =>
      obtain ⟨-, hf, hd⟩ := hp.resolve_left fun h0 => absurd h0.left h
      exact ⟨hf, by simp [LockProfile.unlocked, hd, LockProfile.locked]⟩
    case refine_2 =>
      obtain ⟨-, rfl⟩ := hp.resolve_right fun h0 => absurd h0.left h
      exact LockProfile.unlocked_locked

theorem fsmFreeExttree_leads : Leads fsmFreeExttree (fun r p' => p' = p ∨
    r ≠ 0 ∧ p.faults < p'.faults ∧ (p.depth .extents = 0 → p'.underrun = true)) p := by
  refine .call rfl fun ret => .ite (fun _ => .pure (.inl rfl)) fun _ => ?_
  refine .bind freeExttreeExtents_leads fun rc p' hp => ?_
  refine .ite (fun h => .unlock (.pure ?_)) fun h => ?_
  case refine_1 =>
    obtain rfl | ⟨-, hf, hd⟩ := hp
    case inl => exact .inl LockProfile.unlocked_locked
    case inr => exact .inr ⟨h, hf, fun h0 => by simp [LockProfile.unlocked, hd, h0]⟩
  case refine_2 =>
    have hp : p' = p.locked .extents := hp.resolve_right fun h0 => absurd h0.left h
    subst hp
    refine .call rfl fun rc => .unlock ?_
    rw [LockProfile.unlocked_locked]
    exact .ite (fun _ => .pure (.inl rfl)) fun _ => .called fun _ => .inl rfl

theorem freeOverflow_leads : Leads freeOverflow (fun _ p' => p' = p) p := by
  refine .test rfl fun regular => .test rfl fun blocks => .ite (fun _ => ?_) fun _ => .pure rfl
  refine .bind fsmFreeExttree_leads fun rc p' hp => .bugOn fun h => .pure ?_
  exact hp.resolve_right fun h0 => absurd h h0.left

theorem freeData_leads : Leads freeData (Settles p) p := by
  have hoverflow : Leads freeOverflow (Settles p) p := freeOverflow_leads.mono fun _ _ => .inl
  refine .test rfl fun regular => .ite (fun _ => ?_) fun _ => ?_
  case refine_1 =>
    refine .bind fsmFreeRuntimeFork_leads fun ret p' hp => .ite (fun _ => .pure hp) fun h => ?_
    have hp : p' = p := hp.resolve_right fun h0 => absurd h0.left h
    subst hp
    exact .test rfl fun blocks => .ite (fun _ => .pure (.inl rfl)) fun _ => hoverflow
  case refine_2 => exact .call rfl fun ret => .bugOn fun _ => hoverflow

theorem deleteInode_leads : Leads deleteInode (Settles p) p := by
  refine .test rfl fun hlink => .ite (fun _ => ?_) fun _ => freeData_leads
  exact .call rfl fun ret => .ite (fun _ => .pure (.inl rfl)) fun _ => freeData_leads

theorem unlink_leads : Leads unlink (Settles p) p := by
  refine .call rfl fun ret => .ite (fun _ => .pure (.inl rfl)) fun _ => .lock ?_
  refine .call rfl fun ret => .ite (fun _ => ?_) fun _ => .unlock ?_
  case refine_1 => exact .unlock (.pure (.inl LockProfile.unlocked_locked))
  case refine_2 =>
    rw [LockProfile.unlocked_locked]
    refine .same writeInodeToBnode_leads fun _ => ?_
    refine .test rfl fun links => .ite (fun _ => ?_) fun _ => deleteInode_leads
    exact .bind writeInodeToBnode_leads fun _ _ hp => .pure (.inl hp)

theorem Settles.shows (h : Settles p r p') : Shows p r p' := by
  obtain rfl | ⟨-, rfl⟩ := h
  case inl => exact .inl rfl
  case inr => exact shows_of_leak

theorem move_leads : Leads move (Shows p) p := by
  have hdone {r : Int} : Leads (do unlock .catalog; return r) (Shows p) (p.locked .catalog) :=
    .unlock (.pure (.inl LockProfile.unlocked_locked))
  have hend : Leads (do
      unlock .catalog
      let ret ← writeInodeToBnode
      if ret ≠ 0 then return ret
      writeInodeToBnode) (Shows p) (p.locked .catalog) := by
    refine .unlock ?_
    rw [LockProfile.unlocked_locked]
    refine .same writeInodeToBnode_leads fun _ => .ite (fun _ => .pure (.inl rfl)) ?_
    exact fun _ => writeInodeToBnode_leads.mono fun _ _ => .inl
  refine .lock (.call rfl fun ret => .ite (fun _ => hdone) fun _ => ?_)
  refine .unguardedCheck rfl (fun _ _ => .pure shows_of_leak) ?_
  refine .call rfl fun ret => .ite (fun _ => hdone) fun _ => ?_
  refine .call rfl fun ret => .ite (fun _ => hdone) fun _ => ?_
  refine .call rfl fun ret => .bugOn fun _ => ?_
  refine .test rfl fun hlink => .ite (fun _ => ?_) fun _ => hend
  exact .unguardedCheck rfl (fun _ _ => .pure shows_of_leak) hend

theorem rename_leads : Leads rename (Shows p) p := by
  refine .test rfl fun tooLong => .ite (fun _ => .pure (.inl rfl)) fun _ => ?_
  refine .test rfl fun target => .ite (fun _ => ?_) fun _ => move_leads
  refine .test rfl fun full => .ite (fun _ => .pure (.inl rfl)) fun _ => ?_
  refine .bind unlink_leads fun ret p' hp => .ite (fun _ => .pure hp.shows) fun h => ?_
  have hp : p' = p := hp.resolve_right fun h0 => absurd h0.left h
  exact hp ▸ move_leads

theorem truncateExttree_leads : Leads truncateExttree (Settles p) p := by
  refine .call rfl fun ret => .ite (fun _ => .pure (.inl rfl)) fun _ => ?_
  refine .forever ?_
  refine .call rfl fun ret => .ite (fun _ => .pure (.inl rfl)) fun _ => ?_
  refine .call rfl fun ret => .bugOn fun _ => ?_
  refine .test rfl fun other => .ite (fun _ => .pure (.inl rfl)) fun _ => ?_
  refine .test rfl fun beyond => .ite (fun _ => ?_) fun _ => ?_
  case refine_1 =>
    refine .bind (putFreeBlock_leads rfl) fun rc p' hp => .ite (fun _ => .pure hp) fun h => ?_
    have hp : p' = p := hp.resolve_right fun h0 => absurd h0.left h
    exact .call rfl fun _ => .pure hp
  case refine_2 =>
    refine .test rfl fun across => .ite (fun _ => ?_) fun _ => .pure (.inl rfl)
    exact .bind (putFreeBlock_leads rfl) fun rc p' hp => .pure hp

theorem truncateFork_leads : Leads truncateFork (Settles p) p := by
  refine .forever ?_
  refine .test rfl fun more => .ite (fun _ => .pure (.inl rfl)) fun _ => ?_
  refine .test rfl fun whole => .bind (putFreeBlock_leads rfl) fun err p' hp => ?_
  refine .ite (fun _ => .pure hp) fun h => ?_
  have hp : p' = p := hp.resolve_right fun h0 => absurd h0.left h
  refine .ite (fun _ => .pure (.inl hp)) fun _ => ?_
  exact .test rfl fun fits => .ite (fun _ => .pure (.inl hp)) fun _ => .pure hp

theorem truncateBlocks_leads : Leads truncateBlocks (Settles p) p := by
  have hfork : Leads (do
      if ← test .truncateBlocks .fitsNewSize then return 0
      truncateFork) (Settles p) p :=
    .test rfl fun fits => .ite (fun _ => .pure (.inl rfl)) fun _ => truncateFork_leads
  refine .test rfl fun below => .ite (fun _ => .haltBind) fun _ => ?_
  refine .test rfl fun regular => .ite (fun _ => .pure (.inl rfl)) fun _ => ?_
  refine .test rfl fun fits => .ite (fun _ => .pure (.inl rfl)) fun _ => ?_
  refine .test rfl fun exttree => .ite (fun _ => .lock ?_) fun _ => hfork
  refine .bind truncateExttree_leads fun rc p' hp => .unlock (.ite (fun h => .pure ?_) fun h => ?_)
  case refine_1 =>
    obtain rfl | ⟨-, rfl⟩ := hp
    case inl => exact .inl LockProfile.unlocked_locked
    case inr => exact .inr ⟨h, LockProfile.unlocked_locked_fsm⟩
  case refine_2 =>
    have hp : p' = p.locked .extents := hp.resolve_right fun h0 => absurd h0.left h
    rw [hp, LockProfile.unlocked_locked]
    exact hfork

theorem exttreeGetBlock_leads : Leads exttreeGetBlock (fun _ p' => p' = p) p := by
  have hdone : Leads (do unlock .extents; return 0) (fun _ p' => p' = p) (p.locked .extents) :=
    .unlock (.pure LockProfile.unlocked_locked)
  refine .lock (.call rfl fun ret => .ite (fun _ => ?_) fun _ => hdone)
  refine .call rfl fun ret => .ite (fun _ => ?_) fun _ => hdone
  exact .test rfl fun other => hdone

theorem addBlockLocked_leads : Leads addBlockLocked (fun _ p' => p' = p) p := by
  have hadd {rc : Int} : Leads (do
      if (← call .exttreeAddBlock .exttreeAdd) ≠ 0 then return 0
      return rc) (fun _ p' => p' = p) p :=
    .call rfl fun err => .ite (fun _ => .pure rfl) fun _ => .pure rfl
  refine .call rfl fun ret => .ite (fun _ => .pure rfl) fun _ => ?_
  refine .call rfl fun ret => .ite (fun _ => .pure rfl) fun _ => ?_
  refine .test rfl fun other => .same fsmGetFreeBlock_leads fun rc => ?_
  refine .ite (fun _ => .pure rfl) fun _ => .ite (fun _ => ?_) fun _ => hadd
  exact .test rfl fun next => .ite (fun _ => .pure rfl) fun _ => hadd

theorem exttreeAddBlock_leads : Leads exttreeAddBlock (fun _ p' => p' = p) p :=
  .lock (.same addBlockLocked_leads fun _ => .unlock (.pure LockProfile.unlocked_locked))

end Locking

namespace LockingFunction

open Locking

theorem code_leads {p : LockProfile} : ∀ f : LockingFunction, Leads f.code (Shows p) p
  | readdir fPos _    => readdir_leads fPos
  | lookup            => lookup_leads
  | rename            => rename_leads
  | link              => link_leads.mono fun _ _ => .inl
  | unlink            => unlink_leads.mono fun _ _ => Settles.shows
  | create            => create_leads.mono fun _ _ => .inl
  | writeInodeToBnode => writeInodeToBnode_leads.mono fun _ _ => .inl
  | fsmFreeExttree    => fsmFreeExttree_leads.mono fun _ _ h =>
    h.imp_right fun h => ⟨h.right.left, fun h0 => .inl (h.right.right (h0 _))⟩
  | truncateBlocks    => truncateBlocks_leads.mono fun _ _ => Settles.shows
  | exttreeGetBlock   => exttreeGetBlock_leads.mono fun _ _ => .inl
  | exttreeAddBlock   => exttreeAddBlock_leads.mono fun _ _ => .inl
  | fsmFreeBlockChunk => fsmFreeBlockChunk_leads.mono fun _ _ => Settles.shows

-- Whatever its calls return, a function that returns leaves the locks balanced exactly if none of
-- its calls, and of those of the functions under it, ended in an error that is not dealt with.
theorem balanced_iff (f : LockingFunction) (h : f.code (Session.start answers) = .ok r s) :
    s.Balanced ↔ ∀ c ∈ s.calls, c.faulty = false := by
  have hs := Code.wp_ok (f.code_leads (Session.start answers) rfl) h
  have hfaults : (∀ c ∈ s.calls, c.faulty = false) ↔ s.profile.faults = 0 := by
    simp [Session.profile, List.countP_eq_zero]
  rw [hfaults]
  obtain hp | ⟨hf, hd⟩ := hs
  case inl =>
    have hdepth : s.depth = fun _ => 0 := congrArg LockProfile.depth hp
    have hunder : s.underrun = false := congrArg LockProfile.underrun hp
    have hzero : s.profile.faults = 0 := congrArg LockProfile.faults hp
    exact ⟨fun _ => hzero, fun _ => ⟨fun l => by rw [hdepth], hunder⟩⟩
  case inr =>
    refine ⟨fun hb => ?_, fun h0 => absurd h0 (Nat.ne_of_gt (Nat.zero_lt_of_lt hf))⟩
    cases hd fun _ => rfl
    case inl hu => exact absurd hu (by simp [Session.profile, hb.right])
    case inr hl =>
      obtain ⟨l, hl⟩ := hl
      exact absurd (hb.left l) hl

-- A lookup that finds its name.
theorem balanced_iff_lookup :
    ∃ s, lookup.code (Session.start [0, 0, 0, 0, 0, 0, 0, 0]) = .ok 0 s ∧
      (s.Balanced ↔ ∀ c ∈ s.calls, c.faulty = false) := by
  obtain ⟨s, h⟩ : ∃ s, lookup.code (Session.start [0, 0, 0, 0, 0, 0, 0, 0]) = .ok 0 s := ⟨_, rfl⟩
  exact ⟨s, h, balanced_iff lookup h⟩

-- filldir refuses the first dot entry, the search fails in a lookup, the source of a rename cannot
-- be read, an extent's record cannot be removed, and a bit to be cleared is outside of the bitmap.
theorem exists_unbalanced :
    (∃ r s, (readdir 0 false).code (Session.start [1]) = .ok r s ∧ ¬s.Balanced) ∧
    (∃ r s, lookup.code (Session.start [0, 0, 0, eio]) = .ok r s ∧ ¬s.Balanced) ∧
    (∃ r s, rename.code (Session.start [0, 0, 0, -22]) = .ok r s ∧ ¬s.Balanced) ∧
    (∃ r s, fsmFreeExttree.code (Session.start [0, 0, 0, 0, enomem]) = .ok r s ∧ ¬s.Balanced) ∧
    (∃ r s, fsmFreeBlockChunk.code (Session.start [0, 0, 1, 1, 0]) = .ok r s ∧ ¬s.Balanced) := by
  refine ⟨⟨0, _, rfl, ?_⟩, ⟨eio, _, rfl, ?_⟩, ⟨-22, _, rfl, ?_⟩, ⟨enomem, _, rfl, ?_⟩,
    ⟨efault, _, rfl, ?_⟩⟩
  case refine_1 => exact fun h => absurd h.right (by decide)
  case refine_2 => exact fun h => absurd (h.left .catalog) (by decide)
  case refine_3 => exact fun h => absurd (h.left .catalog) (by decide)
  case refine_4 => exact fun h => absurd h.right (by decide)
  case refine_5 => exact fun h => absurd (h.left .fsm) (by decide)

end LockingFunction

end Emmcfs
