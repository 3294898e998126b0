import CitrateChain.Execution.Mvcc

/-! # Transactions of any type

A transaction is dispatched on what its data says it is. Whatever it does then, from the supply-hardening
height on it reads its journal first and writes to nothing else, so that a failure, or a panic, leaves
the gas it bought and a used nonce. -/
namespace CitrateChain.Execution
open CitrateChain.Action (ensure on_bind)
open Consensus (Hash PublicKey SignedTx isEvmShaped PbaHardening)
open Transfer (gasFee transferBalances)

structure Log where
  address : Address
  topics : List Hash
  data : Bytes

structure TxJournal extends ScratchJournal where
  pendingStorage : List ((Address × Bytes) × Bytes) := []
  pendingStorageDeletes : List (Address × Bytes) := []
  pendingModels : List (ModelId × ModelState) := []
  pendingJobs : List (JobId × TrainingJob) := []

namespace TxJournal

def onAccounts (f : ScratchJournal → ScratchJournal) (j : TxJournal) : TxJournal :=
  { j with toScratchJournal := f j.toScratchJournal }

def markWritten (a : Address) (j : TxJournal) : TxJournal := { j with writeSet := j.writeSet.insert a }

def recordCode (a : Address) (code : Bytes) (j : TxJournal) : TxJournal :=
  { j.markWritten a with
    pending := j.pending.insert a { j.pending[a]?.getD {} with newCode := some code } }

def recordStorageWrite (a : Address) (key value : Bytes) (j : TxJournal) : TxJournal :=
  { j.markWritten a with
    pendingStorageDeletes := j.pendingStorageDeletes.filter (· ≠ (a, key))
    pendingStorage := ((a, key), value) :: j.pendingStorage.filter (·.1 ≠ (a, key)) }

def recordStorageDelete (a : Address) (key : Bytes) (j : TxJournal) : TxJournal :=
  { j.markWritten a with
    pendingStorage := j.pendingStorage.filter (·.1 ≠ (a, key))
    pendingStorageDeletes := j.pendingStorageDeletes.insert (a, key) }

def storageEntry (j : TxJournal) (a : Address) (key : Bytes) : Option (Option Bytes) :=
  if (a, key) ∈ j.pendingStorageDeletes then some none else (j.pendingStorage.lookup (a, key)).map some

def recordModel (id : ModelId) (model : ModelState) (j : TxJournal) : TxJournal :=
  { j with pendingModels := (id, model) :: j.pendingModels.filter (·.1 ≠ id) }

def recordJob (id : JobId) (job : TrainingJob) (j : TxJournal) : TxJournal :=
  { j with pendingJobs := (id, job) :: j.pendingJobs.filter (·.1 ≠ id) }

def discardWrites (j : TxJournal) : TxJournal where
  toScratchJournal := j.toScratchJournal.discardWrites

def drain (keccak : Bytes → Hash) (w : World) (j : TxJournal) : World :=
  let put (w : World) (es : List Effect) := es.foldl (World.apply keccak) w
  let w := put w (j.pendingStorage.map fun e => .setStorage e.1.1 e.1.2 e.2)
  let w := put w (j.pendingStorageDeletes.map fun e => .deleteStorage e.1 e.2)
  let w := drainJournal keccak w j.toScratchJournal
  let w := put w (j.pendingModels.map fun e => .putModel e.1 e.2)
  put w (j.pendingJobs.map fun e => .putJob e.1 e.2)

end TxJournal

structure TxContext where
  gasLimit : UInt64
  gasUsed : UInt64 := 0
  logs : List Log := []
  output : Bytes := []
  writes : WriteSet := []
  journal : TxJournal := {}

structure TxState where
  world : World
  context : TxContext

abbrev Tx := Action ExecutionError TxState

structure MachineResult where
  output : Bytes
  gasUsed : UInt64
  logs : List Log
  created : Address := 0

/-- REVM and the service adapters read the state and write through the handles they are given. -/
abbrev Machine :=
  UInt64 → World → TxJournal → WriteSet → Except ExecutionError MachineResult × TxJournal × WriteSet

section Access
variable (keccak : Bytes → Hash) (journaled : Bool)

def useGas (amount : UInt64) : Tx Unit := do
  let c := (← get).context
  ensure (c.gasUsed.toNat + amount.toNat ≤ c.gasLimit.toNat) (.rejected "Out of gas")
  modify fun s => { s with context.gasUsed := c.gasUsed + amount }

def onJournal (f : TxJournal → TxJournal) : Tx Unit :=
  modify fun s => { s with context.journal := f s.context.journal }

def recordRead (a : Address) : Tx Unit := onJournal (.onAccounts (·.recordRead a))

/-- A write goes to the journal or, below the supply-hardening height, to the state. -/
def txWrite (record : TxJournal → TxJournal) (effect : Effect) : Tx Unit :=
  if journaled then onJournal record else modify fun s => { s with world := s.world.apply keccak effect }

/-- A read is recorded and served from the journal first, or below the height from the state. -/
def txRead {α : Type} (slot : Address) (pending : TxJournal → Option α) (stored : World → α) : Tx α := do
  Action.whenever journaled (recordRead slot)
  let s ← get
  return ((if journaled then pending s.context.journal else none).getD (stored s.world))

def txGetStorage (a : Address) (key : Bytes) : Tx (Option Bytes) :=
  txRead journaled a (·.storageEntry a key) (·.getStorage a key)

def txSetStorage (a : Address) (key value : Bytes) : Tx Unit :=
  txWrite keccak journaled (.recordStorageWrite a key value) (.setStorage a key value)

def txDeleteStorage (a : Address) (key : Bytes) : Tx Unit :=
  txWrite keccak journaled (.recordStorageDelete a key) (.deleteStorage a key)

def txGetBalance (a : Address) : Tx U256 :=
  txRead journaled a (·.pendingBalance a) fun w => (w.getAccount a).balance

def txSetBalance (a : Address) (balance : U256) : Tx Unit :=
  txWrite keccak journaled (.onAccounts (·.recordBalance a balance)) (.setBalance a balance)

def registrySlot (tag : String) (id : Hash) : Address :=
  BitVec.ofNat 160 (Bytes.ofBe ((keccak (Bytes.ascii ("citrate.exec.registry-slot:" ++ tag).toList ++
    id.asBytes)).asBytes.drop 12))

def txGetModel (id : ModelId) : Tx (Option ModelState) :=
  txRead journaled (registrySlot keccak "model" id) (fun j => (j.pendingModels.lookup id).map some)
    (·.models[id]?)

def putModel (id : ModelId) (model : ModelState) : Tx Unit :=
  txWrite keccak journaled (fun j => (j.markWritten (registrySlot keccak "model" id)).recordModel id model)
    (.putModel id model)

def txRegisterModel (id : ModelId) (model : ModelState) : Tx Unit := do
  ensure ((← txGetModel keccak journaled id) = none) (.reverted "Model already exists")
  putModel keccak journaled id model

def txUpdateModel (id : ModelId) (model : ModelState) : Tx Unit := do
  ensure ((← txGetModel keccak journaled id) ≠ none) (.rejected s!"Model not found: ModelId(Hash({id.asBytes}))")
  putModel keccak journaled id model

def txGetJob (id : JobId) : Tx (Option TrainingJob) :=
  txRead journaled (registrySlot keccak "job" id) (fun j => (j.pendingJobs.lookup id).map some)
    (·.trainingJobs[id]?)

def txUpdateJob (id : JobId) (job : TrainingJob) : Tx Unit := do
  ensure ((← txGetJob keccak journaled id) ≠ none) (.reverted "Job not found")
  txWrite keccak journaled (fun j => (j.markWritten (registrySlot keccak "job" id)).recordJob id job)
    (.putJob id job)

def journalTransfer (sender recipient : Address) (value : U256) : Tx Unit := do
  let s ← get
  let (j, result) :=
    Transfer.journalTransfer s.world s.context.journal.toScratchJournal sender recipient value
  onJournal (.onAccounts fun _ => j)
  Action.ofExcept result

def modelFeeTransfer (sender recipient : Address) (value : U256) : Tx Unit :=
  if journaled then journalTransfer sender recipient value
  else if sender = recipient then pure ()
  else do
    let w := (← get).world
    let (newFrom, newTo) ← Action.ofExcept
      (transferBalances (w.getAccount sender).balance (w.getAccount recipient).balance value)
    modify fun s => { s with
      world := [.setBalance sender newFrom, .setBalance recipient newTo].foldl (World.apply keccak) s.world }

def callMachine (m : Machine) : Tx MachineResult := do
  let s ← get
  let gas := Word.saturatingSub s.context.gasLimit s.context.gasUsed
  let (result, journal, writes) := m gas s.world s.context.journal s.context.writes
  set { s with context := { s.context with journal, writes } }
  Action.ofExcept result

end Access

inductive TxProgram
  | ret
  | fail (e : ExecutionError)
  | panicked (message : String)
  | useGas (amount : UInt64) (next : TxProgram)
  | getStorage (a : Address) (key : Bytes) (next : Option Bytes → TxProgram)
  | setStorage (a : Address) (key value : Bytes) (next : TxProgram)
  | deleteStorage (a : Address) (key : Bytes) (next : TxProgram)
  | getBalance (a : Address) (next : U256 → TxProgram)
  | setBalance (a : Address) (balance : U256) (next : TxProgram)
  | getModel (id : ModelId) (next : Option ModelState → TxProgram)
  | registerModel (id : ModelId) (model : ModelState) (next : TxProgram)
  | updateModel (id : ModelId) (model : ModelState) (next : TxProgram)
  | getJob (id : JobId) (next : Option TrainingJob → TxProgram)
  | updateJob (id : JobId) (job : TrainingJob) (next : TxProgram)
  | journalTransfer (sender recipient : Address) (value : U256) (next : TxProgram)
  | modelFeeTransfer (sender recipient : Address) (value : U256) (next : TxProgram)
  | recordCode (a : Address) (code : Bytes) (next : TxProgram)
  | getCodeHash (a : Address) (next : Hash → TxProgram)
  | machine (m : Machine) (next : MachineResult → TxProgram)
  | emit (output : Bytes) (logs : List Log) (next : TxProgram)

def TxProgram.run (keccak : Bytes → Hash) (journaled : Bool) : TxProgram → Tx Unit
  | ret => pure ()
  | fail e => throw e
  | panicked message => throw (.rejected s!"Execution panicked (isolated as revert): {message}")
  | useGas amount next => do Execution.useGas amount; next.run keccak journaled
  | getStorage a key next => do (next (← txGetStorage journaled a key)).run keccak journaled
  | setStorage a key value next => do txSetStorage keccak journaled a key value; next.run keccak journaled
  | deleteStorage a key next => do txDeleteStorage keccak journaled a key; next.run keccak journaled
  | getBalance a next => do (next (← txGetBalance journaled a)).run keccak journaled
  | setBalance a balance next => do txSetBalance keccak journaled a balance; next.run keccak journaled
  | getModel id next => do (next (← txGetModel keccak journaled id)).run keccak journaled
  | registerModel id model next => do txRegisterModel keccak journaled id model; next.run keccak journaled
  | updateModel id model next => do txUpdateModel keccak journaled id model; next.run keccak journaled
  | getJob id next => do (next (← txGetJob keccak journaled id)).run keccak journaled
  | updateJob id job next => do txUpdateJob keccak journaled id job; next.run keccak journaled
  | journalTransfer sender recipient value next => do
    Execution.journalTransfer sender recipient value
    next.run keccak journaled
  | modelFeeTransfer sender recipient value next => do
    Execution.modelFeeTransfer keccak journaled sender recipient value
    next.run keccak journaled
  | recordCode a code next => do onJournal (.recordCode a code); next.run keccak journaled
  | getCodeHash a next => do (next ((← get).world.getAccount a).codeHash).run keccak journaled
  | machine m next => do (next (← callMachine m)).run keccak journaled
  | emit output logs next => do
    modify fun s => { s with context.output := output, context.logs := s.context.logs ++ logs }
    next.run keccak journaled

inductive AiOpKind
  | registerModel
  | inferenceRequest
  | updateModel

def AiOpKind.classify (data : Bytes) : Option AiOpKind :=
  match data.take 4 with
  | [1, 0, 0, 0] => some registerModel
  | [2, 0, 0, 0] => some inferenceRequest
  | [3, 0, 0, 0] => some updateModel
  | _ => none

structure GasSchedule where
  transfer : UInt64
  create : UInt64
  call : UInt64

/-- The configuration of the executor, its machine and the operations that are programs of their own. -/
structure TxRules where
  keccak : Bytes → Hash
  gas : GasSchedule
  supplyHardening : UInt64 → Bool
  hardening : PbaHardening
  valueTransferActivation : UInt64
  code : Hash → Option Bytes
  isRevmPrecompile : Address → UInt64 → Bool
  create : Address → Bytes → UInt64 → Machine
  callContract : Address → Address → Bytes → U256 → UInt64 → Machine
  precompile : Address → Bytes → Address → TxProgram
  modelOperation : AiOpKind → Bytes → Except ExecutionError (Address → TxProgram)

inductive TxType
  | transfer (recipient : Address) (value : U256)
  | deploy (code : Bytes)
  | call (recipient : Address) (data : Bytes) (value : U256)
  | operation (program : Address → TxProgram)

structure TxReceipt extends TransferReceipt where
  txHash : Hash
  blockHash : Hash
  blockNumber : UInt64
  logs : List Log
  output : Bytes
  ethTxType : UInt8

namespace TxRules
variable (r : TxRules) (block : Consensus.Block) (tx : SignedTx)

def normalizeAddress (key : PublicKey) : Address :=
  BitVec.ofNat 160 (Bytes.ofBe (if isEvmShaped key then key.asBytes.take 20
    else (r.keccak key.asBytes).asBytes.drop 12))

def parseTransactionType : Except ExecutionError TxType :=
  match tx.data, tx.recipient with
  | [], none => .error (.rejected "Invalid input data")
  | [], some recipient => .ok (.transfer (r.normalizeAddress recipient) (tx.value.setWidth 256))
  | code, none => .ok (.deploy code)
  | data, some recipient =>
    match AiOpKind.classify data with
    | some kind => (r.modelOperation kind (data.drop 4)).map .operation
    | none => .ok (.call (r.normalizeAddress recipient) data (tx.value.setWidth 256))

def executeTransfer (sender recipient : Address) (value : U256) : TxProgram :=
  .useGas r.gas.transfer (.journalTransfer sender recipient value .ret)

def executeDeploy (sender : Address) (code : Bytes) : TxProgram :=
  .useGas r.gas.create <| .machine (r.create sender code block.height) fun result =>
    .useGas result.gasUsed <| .recordCode result.created result.output <|
      .emit (Bytes.toBe 20 result.created.toNat) result.logs .ret

def isPrecompileAddress (a : Address) : Bool := a = 0x1000 || a = 0x1002 || a = 0x1003

def payFirst (sender recipient : Address) (value : U256) (due : Bool) (next : TxProgram) : TxProgram :=
  if due && 0 < value then .journalTransfer sender recipient value next else next

def executeCall (sender recipient : Address) (data : Bytes) (value : U256) : TxProgram :=
  .useGas r.gas.call <|
    if isPrecompileAddress recipient then
      payFirst sender recipient value true (r.precompile recipient data sender)
    else .getCodeHash recipient fun codeHash =>
      if (r.code codeHash).isNone &&
          !(r.hardening.activeAt block.height && r.isRevmPrecompile recipient block.height) then .ret
      else .machine (r.callContract sender recipient data value block.height) fun result =>
        .useGas result.gasUsed <| .emit result.output [] <|
          payFirst sender recipient value (block.height < r.valueTransferActivation)
            (.emit result.output result.logs .ret)

def executeTransactionType (sender : Address) : TxType → TxProgram
  | .transfer recipient value => r.executeTransfer sender recipient value
  | .deploy code => r.executeDeploy block sender code
  | .call recipient data value => r.executeCall block sender recipient data value
  | .operation program => program sender

def journaled : Bool := r.supplyHardening block.height

def asTransfer : Transfer where
  sender := r.normalizeAddress tx.sender
  recipient := tx.recipient.map r.normalizeAddress
  value := tx.value
  nonce := tx.nonce
  gasLimit := tx.gasLimit
  gasPrice := tx.gasPrice

/-- The end of a transaction. A failure drops every write but the fee and the used nonce. -/
def settle (charged : U256) (nextNonce : UInt64) :
    Except ExecutionError Unit × TxState → TxState × TxReceipt × WriteSet
  | (result, s) =>
    let settled := (r.asTransfer tx).settle s.context.gasUsed s.world charged nextNonce
      (s.context.journal.toScratchJournal, result)
    let kept := match result with
      | .ok () => s.context.journal
      | .error _ => s.context.journal.discardWrites
    let writes := s.context.writes ∪ (r.asTransfer tx).parties
    ({ s with context.journal := kept.onAccounts fun _ => settled.1 },
      { settled.2 with
        txHash := tx.hash, blockHash := block.hash, blockNumber := block.height, logs := s.context.logs,
        output := s.context.output, ethTxType := tx.ethTxType },
      if r.journaled block then writes ∪ settled.1.writeSet else writes)

def executeTxIntoJournal (s : TxState) : Except ExecutionError (TxState × TxReceipt × WriteSet) := do
  let sender := r.normalizeAddress tx.sender
  let j := s.context.journal.onAccounts (·.recordRead sender)
  let charged ← (r.asTransfer tx).charge s.world j.toScratchJournal
  let start := { s with context.journal := j.onAccounts (·.recordBalance sender charged) }
  let type ← r.parseTransactionType tx
  return r.settle block tx charged (tx.nonce + 1)
    (((r.executeTransactionType block sender type).run r.keccak (r.journaled block)).on start)

def freshState (c : CommitCoordinator) (w : World) : TxState where
  world := w
  context := { gasLimit := tx.gasLimit, journal.toScratchJournal := ({} : ScratchJournal).pinAt c.stateVersion }

/-- Attempts with no other call under way; the last one holds the execution lock. -/
def attempts (c : CommitCoordinator) :
    ℕ → World → Except ExecutionError TxReceipt × World × CommitCoordinator
  | retries, w =>
    match r.executeTxIntoJournal block tx (freshState tx c w) with
    | .error e => (.error e, w, c)
    | .ok (s, receipt, writes) =>
      let drained := s.context.journal.drain r.keccak s.world
      match retries with
      | 0 => (.ok receipt, drained, (c.commitWritesSerialized writes).2)
      | retries + 1 =>
        match c.tryCommit s.context.journal.toScratchJournal with
        | some (_, c') => (.ok receipt, drained, c')
        | none => attempts c retries s.world

def executeTransaction (c : CommitCoordinator) (w : World) :
    Except ExecutionError TxReceipt × World × CommitCoordinator := r.attempts block tx c maxRetries w

end TxRules

section Plain
variable {r : TxRules} {block : Consensus.Block} {tx : SignedTx} {s : TxState}
  {out : Except ExecutionError Unit × TxState}

theorem on_journalTransfer (sender recipient : Address) (value : U256) :
    (journalTransfer sender recipient value).on s =
      ((Transfer.journalTransfer s.world s.context.journal.toScratchJournal sender recipient value).2,
        { s with context.journal := s.context.journal.onAccounts fun j =>
          (Transfer.journalTransfer s.world j sender recipient value).1 }) := rfl

theorem settle_executeTransfer {journaled : Bool} (hused : s.context.gasUsed = 0)
    (hlimit : s.context.gasLimit = tx.gasLimit) (recipient : Address) (charged : U256)
    (hout : ((r.executeTransfer (r.asTransfer tx).sender recipient (r.asTransfer tx).amount).run
      r.keccak journaled).on s = out) :
    (r.asTransfer tx).settle out.2.context.gasUsed out.2.world charged (tx.nonce + 1)
        (out.2.context.journal.toScratchJournal, out.1) =
      (r.asTransfer tx).settle r.gas.transfer s.world charged (tx.nonce + 1)
        (Transfer.executeTransfer r.gas.transfer s.world s.context.journal.toScratchJournal
          (r.asTransfer tx) recipient) := by
  have hgas : (useGas r.gas.transfer).on s =
      if (r.asTransfer tx).gasLimit < r.gas.transfer then (.error (.rejected "Out of gas"), s)
      else (.ok (), { s with context.gasUsed := r.gas.transfer }) := by
    have hzero : s.context.gasUsed.toNat = 0 := congrArg UInt64.toNat hused
    change (ensure _ _ >>= fun _ => modify _ : Tx Unit).on s = if tx.gasLimit < _ then _ else _
    simp only [hused, UInt64.zero_add, UInt64.lt_iff_toNat_lt, ← hlimit]
    unfold ensure
    split_ifs <;> first | rfl | omega
  rw [TxRules.executeTransfer, TxProgram.run, on_bind, hgas] at hout
  rw [← hout, Transfer.executeTransfer]
  split_ifs
  · rfl
  · dsimp only
    rw [TxProgram.run, on_bind, on_journalTransfer]
    dsimp only [TxJournal.onAccounts]
    cases Transfer.journalTransfer s.world s.context.journal.toScratchJournal (r.asTransfer tx).sender
      recipient (r.asTransfer tx).amount with
    | mk j result => cases result <;> rfl

theorem TxRules.executeTxIntoJournal_transfer (hdata : tx.data = []) (hused : s.context.gasUsed = 0)
    (hlimit : s.context.gasLimit = tx.gasLimit) :
    (r.executeTxIntoJournal block tx s).map (fun out =>
        (out.1.context.journal.toScratchJournal, out.2.1.toTransferReceipt)) =
      ((r.asTransfer tx).executeTxIntoJournal r.gas.transfer s.world
        s.context.journal.toScratchJournal).map fun out => (out.1, out.2.1) := by
  refine Result.map_bind_congr fun charged => ?_
  unfold parseTransactionType
  rw [hdata]
  cases hto : tx.recipient with
  | none =>
    rw [show (r.asTransfer tx).recipient = none by simp [asTransfer, hto]]
    rfl
  | some key =>
    rw [show (r.asTransfer tx).recipient = some (r.normalizeAddress key) by simp [asTransfer, hto]]
    exact congrArg (fun settled => Except.ok (settled.1, settled.2))
      (settle_executeTransfer (s := { s with context.journal := s.context.journal.onAccounts fun j =>
        (j.recordRead (r.asTransfer tx).sender).recordBalance (r.asTransfer tx).sender charged })
        hused hlimit (r.normalizeAddress key) charged rfl)

end Plain

end CitrateChain.Execution
