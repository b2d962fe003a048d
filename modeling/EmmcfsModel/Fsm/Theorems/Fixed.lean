import EmmcfsModel.Fsm.Space

namespace Emmcfs

open Code

-- The free space manager changes its tree, the bitmap and the counter. What does not depend on them
-- stays as it is.
def FsmInfo.Fixed (f : FsmInfo → β) : Prop :=
  ∀ fsm tree data count, f { fsm with tree := tree, data := data, freeBlocksCount := count } = f fsm

namespace FsmInfo.Fixed

variable {f : FsmInfo → β} (hf : Fixed f) {c : β}

include hf

theorem modify {g : FsmInfo → FsmInfo}
    (hg : ∀ fsm, ∃ tree data count,
      g fsm = { fsm with tree := tree, data := data, freeBlocksCount := count }) :
    Keeps (f · = c) (Code.modify g : Driver FsmInfo Unit) :=
  .modify fun fsm h => by
    obtain ⟨tree, data, count, he⟩ := hg fsm
    rw [he, hf, h]

theorem takeBits : Keeps (f · = c) (takeBits x n) := by
  induction n generalizing x
  case zero      => exact .pure
  case succ n ih =>
    exact .bind .get fun _ => .bind .haltOn fun _ => .bind .haltOn fun _ =>
      .bind (hf.modify fun _ => ⟨_, _, _, rfl⟩) fun _ => ih

theorem getFreeBlock : Keeps (f · = c) (fsmGetFreeBlock blockOffset length) :=
  .bind .get fun _ => .ite .pure <| .bind (hf.modify fun _ => ⟨_, _, _, rfl⟩) fun _ => .ite .pure <|
    .bind .haltOn fun _ => .bind (hf.modify fun _ => ⟨_, _, _, rfl⟩) fun _ =>
      .bind hf.takeBits fun _ => .pure

theorem freeBits : Keeps (f · = c) (freeBits x n) := by
  have herr (fsm) : Keeps (f · = c) (efaultOrBug fsm) := .ite .halt .fail
  induction n generalizing x
  case zero      => exact .pure
  case succ n ih =>
    exact .bind .get fun _ => .ite (herr _) <| .ite (herr _) <|
      .bind (hf.modify fun _ => ⟨_, _, _, rfl⟩) fun _ => ih

theorem freeBlockChunk : Keeps (f · = c) (fsmFreeBlockChunk blockOffset length) :=
  .bind .get fun _ => .bind .haltOn fun _ => .bind (hf.modify fun _ => ⟨_, _, _, rfl⟩) fun _ =>
    hf.freeBits

theorem insert : Keeps (f · = c) (fsmInsert blockOffset length) :=
  .bind .get fun _ => .bind (hf.modify fun _ => ⟨_, _, _, rfl⟩) fun _ => .ite .fail
    (hf.modify fun _ => ⟨_, _, _, rfl⟩)

theorem insertAnyway : Keeps (f · = c) (fsmInsertAnyway blockOffset length) :=
  .onFail hf.insert fun _ => .pure

theorem scanWord : Keeps (f · = c) (scanWord i word fuel off scan) := by
  induction fuel generalizing off scan
  case zero => exact .pure
  case succ fuel ih =>
    obtain ⟨mode, freeStart⟩ := scan
    refine .ite .pure ?_
    cases mode
    case clearBit => exact .ite (.ite .pure ih) (.ite ih ih)
    case setBit   =>
      exact .ite (.ite .pure (.bind hf.insert fun _ => ih)) (.ite (.bind hf.insertAnyway fun _ => ih) ih)

theorem scanWords : Keeps (f · = c) (scanWords n i scan) := by
  induction n generalizing i scan
  case zero      => exact .pure
  case succ n ih => exact .bind .get fun _ => .bind hf.scanWord fun _ => ih

theorem scanRest : Keeps (f · = c) (scanRest i word n off scan) := by
  induction n generalizing off scan
  case zero => exact .pure
  case succ n ih =>
    obtain ⟨mode, freeStart⟩ := scan
    cases mode
    case clearBit => exact .ite ih ih
    case setBit   => exact .ite (.bind hf.insertAnyway fun _ => ih) ih

theorem getTree : Keeps (f · = c) fsmGetTree :=
  .bind .get fun _ => .bind (hf.modify fun _ => ⟨_, _, _, rfl⟩) fun _ => .bind hf.scanWords fun _ =>
    .bind hf.scanRest fun _ => .ite hf.insertAnyway .pure

end FsmInfo.Fixed

end Emmcfs
