import Holt.Walker.Range
import Holt.Walker.Section

/-! What whole walks do to the engine, whether they fail or not: the sections, the latches and
the bookkeeping between them. -/

namespace Holt

open Holt.Lib

/-- The relations that every step of a walk keeps, whichever blobs it comes to. -/
structure Walking {root : BlobGuid} (supply : GuidSupply root) (r : Engine → Engine → Prop) :
    Prop extends Sectional supply Set.univ r where
  release : ∀ e g, r e { e with bm := e.bm.releaseExclusive g }
  /-- Marks and hints change no blob. -/
  books : ∀ {e : Engine} {bm : BufferManager Frame}, e.bm.SameBlobs bm → r e { e with bm }

namespace Walking

variable {root : BlobGuid} {supply : GuidSupply root} {r : Engine → Engine → Prop} {g : BlobGuid}

theorem within (h : Walking supply r) (s : Set BlobGuid) : Sectional supply s r where
  refl := h.refl
  trans := h.trans
  looks := h.looks
  put e F _ := h.put e F (Set.mem_univ _)
  draw := h.draw
  install := h.install

theorem exclusive {α : Type} (h : Walking supply r) {x : WalkM α} (hx : Moves r x) :
    Moves r (Holt.exclusive g x) := by
  intro e
  have hmove := hx e
  unfold Sat at hmove ⊢
  unfold Holt.exclusive
  cases hrun : x e with
  | ok a e' =>
    rw [hrun] at hmove
    exact h.trans hmove (h.release e' g)
  | error err e' =>
    rw [hrun] at hmove
    exact h.trans hmove (h.release e' g)

theorem onManager (h : Walking supply r) {f : BufferManager Frame → BufferManager Frame}
    (hf : ∀ bm : BufferManager Frame, bm.SameBlobs (f bm)) : Moves r (Holt.onManager f) :=
  Moves.update fun e => h.books (hf e.bm)

/-! ## Writing -/

theorem noteInserted (h : Walking supply r) (isTopBlob mutated : Bool) (seq : Nat) :
    Moves r (Holt.noteInserted g isTopBlob mutated seq) := by
  apply h.bind h.pinned
  intro b
  apply h.onManager
  intro bm
  have hnote : bm.SameBlobs (if mutated ∧ blobNeedsCompaction b.image then
      bm.noteCompactionCandidate g else bm) := by
    split
    · exact bm.noteCompactionCandidate_same g
    · exact .refl bm
  dsimp only
  split
  · exact hnote.trans (BufferManager.markDirtyCached_same _ g seq)
  · exact hnote

theorem lockCoupledInsertInBlob (h : Walking supply r) (key : SearchKey) (value : List UInt8)
    (seq : Nat) (condition : InsertCondition) (fuel : Nat) (isTopBlob : Bool) (depth : Nat) :
    Moves r
      (Holt.lockCoupledInsertInBlob supply key value seq condition fuel g isTopBlob depth) := by
  induction fuel generalizing g isTopBlob depth with
  | zero => exact h.throw _
  | succ fuel ih =>
    apply h.bind (h.exclusive ((h.within {g}).insertHeld key value seq condition depth))
    intro step
    split
    · exact h.bind (h.noteInserted isTopBlob _ seq) fun _ => h.pure _
    · apply h.bind (ih _ _)
      intro outcome
      apply h.bind
      · apply h.onManager
        intro bm
        split
        · exact bm.markDirtyCached_same g seq
        · exact .refl bm
      · intro _
        exact h.pure _

theorem insertMultiConditional (h : Walking supply r) (key : SearchKey) (value : List UInt8)
    (seq : Nat) (condition : InsertCondition) :
    Moves r (Holt.insertMultiConditional supply key value seq condition) := by
  unfold Holt.insertMultiConditional
  split
  · exact h.throw _
  split
  · exact h.throw _
  · apply h.bind (h.writeStart key)
    intro start
    exact h.lockCoupledInsertInBlob key value seq condition _ _ _

theorem lockCoupledEraseInBlob (h : Walking supply r) (key : SearchKey) (seq : Nat)
    (condition : EraseCondition) (fuel : Nat) (isTopBlob : Bool) (depth : Nat) :
    Moves r (Holt.lockCoupledEraseInBlob key seq condition fuel g isTopBlob depth) := by
  induction fuel generalizing g isTopBlob depth with
  | zero => exact h.throw _
  | succ fuel ih =>
    apply h.bind (h.exclusive ((h.within {g}).eraseHeld key condition depth))
    intro step
    split
    · exact ih _ _
    · refine h.bind (h.onManager fun bm => ?_) fun _ => h.pure _
      split
      · have hnote := bm.noteCompactionCandidate_same g
        dsimp only
        split
        · exact hnote
        · exact hnote.trans (BufferManager.markDirtyCached_same _ g seq)
      · exact .refl bm

theorem eraseMultiConditional (h : Walking supply r) (key : SearchKey) (seq : Nat)
    (condition : EraseCondition) :
    Moves r (Holt.eraseMultiConditional root key seq condition) := by
  apply h.bind (h.writeStart key)
  intro start
  split
  · exact h.pure _
  · exact h.lockCoupledEraseInBlob key seq condition _ _ _

/-! ## Listing -/

section Range

open RangeIter

variable (orphans : Orphans) (it : RangeIter)

theorem held (h : Walking supply r) : Moves r (RangeIter.held orphans g) := by
  unfold RangeIter.held
  split
  · exact h.pure _
  · exact h.pinned

theorem onTop (h : Walking supply r) (top : RangeFrame)
    (look : Frame → Except Error (RangeIter × RangeStage)) :
    Moves r (RangeIter.onTop orphans it top look) := by
  apply h.bind (h.held orphans)
  intro b
  split
  · exact h.pure _
  · exact h.lift _

theorem initDescent (h : Walking supply r) : Moves r (RangeIter.initDescent orphans it) := by
  unfold RangeIter.initDescent
  split
  · exact h.pure _
  · apply h.bind (h.held orphans)
    intro b
    apply h.bind (h.lift _)
    intro ntype
    dsimp only
    split <;> exact h.pure _

theorem seekTurn (h : Walking supply r) (source : SeekStart) (top : RangeFrame) :
    Moves r (RangeIter.seekTurn orphans it source top) := by
  unfold RangeIter.seekTurn RangeIter.seekLeaf RangeIter.seekPrefix RangeIter.seekBlob
    RangeIter.seekInner
  dsimp only
  split
  all_goals first
    | exact h.pure _
    | (split <;> first | exact h.pure _ | exact h.onTop orphans it top _)

theorem advanceTurn (h : Walking supply r) (top : RangeFrame) :
    Moves r (RangeIter.advanceTurn orphans it top) := by
  unfold RangeIter.advanceTurn RangeIter.advanceLeaf RangeIter.advancePrefix RangeIter.advanceBlob
    RangeIter.advanceInner
  split
  all_goals first
    | exact h.pure _
    | exact h.onTop orphans it top _
    | (split <;> first | exact h.pure _ | exact h.onTop orphans _ top _)

theorem stepStage (h : Walking supply r) (stage : RangeStage) :
    Moves r (RangeIter.stepStage orphans it stage) := by
  unfold RangeIter.stepStage
  split
  · split
    · exact h.pure _
    split
    · exact h.pure _
    · exact h.initDescent orphans it
  · split
    · exact h.pure _
    split
    · exact h.pure _
    · exact h.seekTurn orphans it _ _
  · split
    · exact h.pure _
    split
    · exact h.pure _
    · exact h.advanceTurn orphans it _
  · apply h.bind h.pin
    intro _
    split <;> exact h.pure _
  · apply h.bind (h.held orphans)
    intro b
    apply h.bind (h.lift _)
    intro ntype
    dsimp only
    split <;> exact h.pure _
  · apply h.bind (h.held orphans)
    intro b
    apply h.bind (h.lift _)
    intro ntype
    dsimp only
    split <;> exact h.pure _
  · exact h.pure _
  · apply h.bind (h.held orphans)
    intro b
    split <;> exact h.pure _
  · exact h.pure _

theorem step (h : Walking supply r) (stage : RangeStage) :
    Moves r (RangeIter.step orphans it stage) := by
  intro e
  have hmove := h.stepStage orphans it stage e
  unfold Sat at hmove ⊢
  unfold RangeIter.step
  cases hrun : RangeIter.stepStage orphans it stage e <;> rw [hrun] at hmove <;> exact hmove

end Range

end Walking

end Holt
