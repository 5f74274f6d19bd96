/-
  Freeing blocks is an inward matter: it neither touches the queues of events nor asks the device for
  anything.
-/
import TorchNpu.Allocator.Operations
import TorchNpu.Lib.Wp

namespace TorchNpu.Allocator

/-- The queues of events and the blocks that are to get events later. -/
def State.queues (s : State) : List (Stream × List BlockId) × List BlockId :=
  (s.npuEvents, s.needsEventsDeferredUntilNoCapture)

/-- `x` leaves the queues alone, and throws no error of the device. -/
abbrev Inward {α : Type} (x : M α) : Prop :=
  Keeps State.queues (· ≠ .aclError) x

variable {b : BlockId} {pool : PoolId}

theorem inward_deref : Inward (deref b) := by
  refine keeps_get.bind fun s => ?_
  cases s.heap b with
  | none => exact keeps_throw (by decide)
  | some blk => exact keeps_pure

theorem inward_store {f : Block → Block} : Inward (store b f) :=
  inward_deref.bind fun _ => keeps_modify fun _ => rfl

theorem inward_assert {c : Bool} : Inward (assert c) :=
  keeps_ite keeps_pure (keeps_throw (by decide))

theorem inward_setPrev {o : Option BlockId} : Inward (setPrev o b) := by
  cases o with
  | none => exact keeps_pure
  | some x => exact inward_store

theorem inward_setNext {o : Option BlockId} : Inward (setNext o b) := by
  cases o with
  | none => exact keeps_pure
  | some x => exact inward_store

theorem inward_eraseBlock : Inward (eraseBlock pool b) :=
  keeps_modify fun _ => rfl

theorem inward_eraseUnmapped : Inward (eraseUnmapped pool b) :=
  keeps_modify fun _ => rfl

theorem inward_insertBlock : Inward (insertBlock pool b) :=
  keeps_modify fun _ => rfl

theorem inward_eraseActive : Inward (eraseActive b) :=
  keeps_modify fun _ => rfl

theorem inward_deleteBlock : Inward (deleteBlock b) :=
  keeps_modify fun _ => rfl

theorem inward_updateStats {f : Stats → Stats} : Inward (updateStats pool f) := by
  refine Keeps.bind ?_ fun _ => keeps_modify fun _ => rfl
  unfold derefPool
  cases pool.owner with
  | none => exact keeps_pure
  | some id =>
    refine keeps_get.bind fun s => ?_
    cases s.graphPools id with
    | none => exact keeps_throw (by decide)
    | some privatePool => exact keeps_pure

theorem inward_tryMergeBlocks {src : Option BlockId} : Inward (tryMergeBlocks b src pool) := by
  unfold tryMergeBlocks
  cases src with
  | none => exact keeps_pure
  | some src =>
    refine inward_deref.bind fun srcBlk => inward_deref.bind fun dstBlk => ?_
    refine keeps_ite keeps_pure (inward_assert.bind fun _ => ?_)
    have hrest : Inward (do
        store b fun blk => { blk with size := blk.size + srcBlk.size }
        if srcBlk.mapped then eraseBlock pool src else eraseUnmapped pool src
        deleteBlock src
        return srcBlk.size) := by
      refine inward_store.bind fun _ => ?_
      refine keeps_ite ?_ ?_
      · exact inward_eraseBlock.bind fun _ => inward_deleteBlock.bind fun _ => keeps_pure
      · exact inward_eraseUnmapped.bind fun _ => inward_deleteBlock.bind fun _ => keeps_pure
    refine keeps_ite ?_ ?_
    · exact inward_store.bind fun _ => inward_setNext.bind fun _ => hrest
    · exact inward_store.bind fun _ => inward_setPrev.bind fun _ => hrest

theorem inward_freeBlock : Inward (freeBlock b) :=
  inward_deref.bind fun _ => inward_assert.bind fun _ => inward_tryMergeBlocks.bind fun _ =>
    inward_tryMergeBlocks.bind fun _ => inward_eraseActive.bind fun _ =>
      inward_insertBlock.bind fun _ => inward_deref.bind fun _ => inward_updateStats

theorem inward_finishEvent : Inward (finishEvent b) :=
  inward_store.bind fun _ => inward_deref.bind fun _ => keeps_ite inward_freeBlock keeps_pure

end TorchNpu.Allocator
