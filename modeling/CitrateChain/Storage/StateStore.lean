import CitrateChain.Execution.StateDb
import CitrateChain.Storage.BlockStore
import CitrateChain.Storage.ReceiptIndex

/-! # The durable state store

Accounts, slots, codes and the undo records of the last applied blocks, in one database with the
block store and the receipt index. Both commit paths write one atomic batch: a linear commit carries
the dirty accounts and slots of a block, a reorg batch the difference of two states. -/
namespace CitrateChain.Storage
open Consensus (Hash Block)
open Execution (Address AccountState ModelId ModelState JobId TrainingJob)

structure StateStorageChange where
  address : Address
  key : Bytes
  value : Option Bytes

/-- The model and training-job values before a block; `none` where there was no record. -/
structure ModelJobUndo where
  models : List (ModelId × Option ModelState) := []
  jobs : List (JobId × Option TrainingJob) := []

/-- What every account and slot a block wrote held before it. -/
structure BlockUndo where
  height : UInt64
  hash : Hash
  parent : Option AppliedTip
  accounts : List (Address × Option AccountState) := []
  storage : List (Address × Bytes × Option Bytes) := []
  modelsJobs : Option ModelJobUndo := none

structure StateStore where
  accounts : KvStore Address AccountState
  slots : KvStore (Address × Bytes) Bytes
  code : KvStore Hash Bytes
  undo : KvStore UInt64 BlockUndo

structure StorageManager where
  blocks : BlockStore
  state : StateStore
  receipts : ReceiptIndex

def reorgUndoDepth : UInt64 := 100

def maxUndoRecordBytes : ℕ := 8 * 1024 * 1024

def inUndoWindow (h tip : UInt64) : Bool := h ≤ tip && Word.saturatingSub tip reorgUndoDepth < h

def changeOp (c : StateStorageChange) : KvOp (Address × Bytes) Bytes :=
  match c.value with
  | some v => .put (c.address, c.key) v
  | none => .delete (c.address, c.key)

def mergeModelJobUndo (held more : ModelJobUndo) : ModelJobUndo where
  models := held.models ++ more.models.filter fun e => e.1 ∉ held.models.map Prod.fst
  jobs := held.jobs ++ more.jobs.filter fun e => e.1 ∉ held.jobs.map Prod.fst

namespace StateStore

/-- A record over the size cap is not kept; nothing stale stays at its height either. -/
def stageUndoRecord (encodedLen : BlockUndo → ℕ) (undo : KvStore UInt64 BlockUndo)
    (record : BlockUndo) : KvStore UInt64 BlockUndo :=
  if maxUndoRecordBytes < encodedLen record then undo.write (.delete record.height)
  else undo.write (.put record.height record)

def stageUndoWindow (undo : KvStore UInt64 BlockUndo) (tip : UInt64) : KvStore UInt64 BlockUndo :=
  fun h => if inUndoWindow h tip then undo h else none

def stageBranchUndo (encodedLen : BlockUndo → ℕ) (undo : KvStore UInt64 BlockUndo)
    (records : List BlockUndo) (tip : UInt64) : KvStore UInt64 BlockUndo :=
  stageUndoWindow
    ((records.filter fun r => inUndoWindow r.height tip).foldl (stageUndoRecord encodedLen) undo) tip

/-- The record a linear commit at `tip` stages: a new one on the previous durable tip, or, at a tip
that is already durable, its own record extended; `none` when that record names another block. -/
def blockUndo (s : StateStore) (durableTip : Option AppliedTip)
    (accounts : List (Address × AccountState)) (storage : List StateStorageChange)
    (modelsJobs : Option ModelJobUndo) (tip : AppliedTip) : Option BlockUndo :=
  let base : Option BlockUndo :=
    if durableTip = some tip then
      match s.undo tip.height with
      | some record =>
        if record.hash = tip.hash ∧ record.height = tip.height then
          some { record with
            modelsJobs := match record.modelsJobs, modelsJobs with
              | some held, some more => some (mergeModelJobUndo held more)
              | _, _ => none }
        else none
      | none => none
    else some { height := tip.height, hash := tip.hash, parent := durableTip, modelsJobs }
  base.map fun record =>
    { record with
      accounts := record.accounts ++
        (accounts.filter fun e => e.1 ∉ record.accounts.map Prod.fst).map
          fun e => (e.1, s.accounts e.1)
      storage := record.storage ++
        (storage.filter fun c => (c.address, c.key) ∉ record.storage.map fun e => (e.1, e.2.1)).map
          fun c => (c.address, c.key, s.slots (c.address, c.key)) }

section Staging
variable (encodedLen : BlockUndo → ℕ) (s : StateStore) (durableTip : Option AppliedTip)
  (accounts : List (Address × AccountState)) (storage : List StateStorageChange)
  (modelsJobs : Option ModelJobUndo) (tip : AppliedTip)

def stageOwnRecord : KvStore UInt64 BlockUndo :=
  match s.blockUndo durableTip accounts storage modelsJobs tip with
  | some record => stageUndoRecord encodedLen s.undo record
  | none => s.undo.write (.delete tip.height)

def stageBlockUndo : KvStore UInt64 BlockUndo :=
  stageUndoWindow (s.stageOwnRecord encodedLen durableTip accounts storage modelsJobs tip) tip.height

end Staging

end StateStore

namespace StorageManager

def empty : StorageManager where
  blocks := .empty
  state := ⟨fun _ => none, fun _ => none, fun _ => none, fun _ => none⟩
  receipts := ⟨fun _ => none, ∅, fun _ => none, fun _ => none, none, nofun, nofun⟩

def writeStateBatchWithAppliedTip (encodedLen : BlockUndo → ℕ) (st : StorageManager)
    (accounts : List (Address × AccountState)) (storage : List StateStorageChange)
    (tip : AppliedTip) (index : ReceiptIndexBatch) (modelsJobs : Option ModelJobUndo) :
    StorageManager where
  blocks := st.blocks.putAppliedTip tip
  receipts := st.receipts.stageReceiptIndex index
  state :=
    { st.state with
      accounts := st.state.accounts.writeBatch (accounts.map fun e => .put e.1 e.2)
      slots := st.state.slots.writeBatch (storage.map changeOp)
      undo := st.state.stageBlockUndo encodedLen st.blocks.appliedTip accounts storage modelsJobs
        tip }

def writeReorgBatchSync (encodedLen : BlockUndo → ℕ) (st : StorageManager)
    (accounts : List (Address × AccountState)) (storage : List StateStorageChange)
    (accountDels : List Address) (code : List (Hash × Bytes)) (tip : AppliedTip)
    (index : ReceiptIndexBatch) (undo : List BlockUndo) : StorageManager where
  blocks := st.blocks.putAppliedTip tip
  receipts := st.receipts.stageReceiptIndex index
  state :=
    { accounts := st.state.accounts.writeBatch
        ((accounts.map fun e => .put e.1 e.2) ++ accountDels.map .delete)
      slots := st.state.slots.writeBatch (storage.map changeOp)
      code := st.state.code.writeBatch (code.map fun e => .put e.1 e.2)
      undo := if undo.isEmpty then st.state.undo
        else StateStore.stageBranchUndo encodedLen st.state.undo undo tip.height }

def putReceiptIndex (st : StorageManager) (index : ReceiptIndexBatch) : StorageManager :=
  { st with receipts := st.receipts.stageReceiptIndex index }

end StorageManager

end CitrateChain.Storage
