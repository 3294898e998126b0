import CitrateChain.Base.Action
import CitrateChain.Execution.BlockRewards

/-! # Block application, step by step

`apply_block_inner` with everything it touches: the transactions drain into the shared state one by
one, the rewards run a system call on it, and persisting consumes the dirty sets before the batch is
written. Every failure puts the snapshot of the start back. -/
namespace CitrateChain.Execution
open Std (ExtTreeMap)
open Consensus (Hash PublicKey SignedTx TxCrypto PbaHardening SealedBlock)
open Storage CitrateChain.Action

structure StateSnapshot where
  accounts : List (Address × AccountState)
  dirtyAccounts : List Address
  storageTries : List (Address × Trie)
  models : List (ModelId × ModelState)
  trainingJobs : List (JobId × TrainingJob)
  dirtyStorage : List (Address × Bytes)
  dirtyCode : List (Hash × Bytes)
  rootHeight : UInt64

/-- A change of the in-memory state: an effect, or a record read from the store and kept. -/
inductive Mutation
  | effect (e : Effect)
  | loadAccount (address : Address) (account : AccountState)
  | cacheStorage (address : Address) (key value : Bytes)

namespace StateDb

def snapshot (db : StateDb) : StateSnapshot where
  accounts := db.accounts.toList
  dirtyAccounts := db.dirtyAccounts
  storageTries := db.storageTries.toList
  models := db.models.toList
  trainingJobs := db.trainingJobs.toList
  dirtyStorage := db.dirtyStorage
  dirtyCode := db.dirtyCode
  rootHeight := db.rootHeight

def restore (db : StateDb) (s : StateSnapshot) : StateDb :=
  { db with
    accounts := s.accounts.foldl (fun m e => m.insert e.1 e.2) ∅
    dirtyAccounts := s.dirtyAccounts
    storageTries := s.storageTries.foldl (fun m e => m.insert e.1 e.2) ∅
    dirtyStorage := s.dirtyStorage
    dirtyCode := s.dirtyCode
    rootHeight := s.rootHeight
    models := s.models.foldl (fun m e => m.insert e.1 e.2) ∅
    trainingJobs := s.trainingJobs.foldl (fun m e => m.insert e.1 e.2) ∅ }

theorem restore_snapshot (db db' : StateDb) : db'.restore db.snapshot = db := by
  cases db
  simp only [restore, snapshot, TreeMap.foldl_insert_toList]

def cacheStorage (db : StateDb) (a : Address) (key value : Bytes) : StateDb :=
  { db with
    storageTries := db.storageTries.insert a ((db.storageTries[a]?.getD Trie.new).insert key value) }

def mutate (keccak : Bytes → Hash) (db : StateDb) : Mutation → StateDb
  | .effect e => db.apply keccak e
  | .loadAccount a account => db.loadAccount a account
  | .cacheStorage a key value => db.cacheStorage a key value

end StateDb

structure BlockContext where
  coinbase : Address := 0
  prevrandao : Hash := 0
  blockHashes : ExtTreeMap UInt64 Hash := ∅

structure ApplyState where
  db : StateDb
  blockContext : BlockContext
  deferPersist : Bool
  store : Option StorageManager

structure ImportedBlock extends SealedBlock where
  body : List SignedTx
  body_transactions : body.map SignedTx.toTransaction = transactions

structure PendingWrite where
  newBalance : Option U256 := none
  newNonce : Option UInt64 := none
  newCode : Option Bytes := none

structure Journal where
  storageWrites : List ((Address × Bytes) × Bytes) := []
  storageDeletes : List (Address × Bytes) := []
  writes : List (Address × PendingWrite) := []
  models : List (ModelId × ModelState) := []
  jobs : List (JobId × TrainingJob) := []

/-- How the execution of a transaction ends. Before it ends it may have kept records of the store
and, below the supply-hardening height, have written to the state directly. -/
structure TxOutcome where
  touched : List Mutation := []
  result : Except ExecutionError (TransactionReceipt × Journal)

inductive CallResult
  | ok
  | reverted (message : String)
  | panicked

structure CallOutcome where
  touched : List Mutation := []
  result : CallResult

structure SystemCall where
  caller : Address
  target : Address
  calldata : Bytes
  amount : U256
  height : UInt64

abbrev RewardFn := ImportedBlock → List TransactionReceipt → Except ExecutionError (List (Address × U256))

/-- The configuration of an executor, the machine it runs on and the faults of its store. -/
structure ApplyRules where
  rules : RootRules
  encodedLen : BlockUndo → ℕ
  sha3 : Bytes → Hash
  crypto : TxCrypto
  hardening : PbaHardening
  chainId : UInt64
  rewardPolicy : Option EpochRewardPolicy
  validatorActivationHeight : UInt64
  valueTransferActivation : UInt64
  executeTx : ApplyState → ImportedBlock → SignedTx → TxOutcome
  creditReward : ApplyState → SystemCall → CallOutcome
  codeFault : Hash → Option String
  batchFault : Option String

abbrev Apply := Action ExecutionError ApplyState

def invalidBlockBody (message : String) : ExecutionError := .rejected s!"Invalid block body: {message}"

namespace ApplyRules
variable (r : ApplyRules)

def mutate (m : Mutation) : Apply Unit :=
  modify fun s => { s with db := s.db.mutate r.rules.keccak m }

def mutateAll (ms : List Mutation) : Apply Unit := forEach r.mutate ms

def getBalance (a : Address) : Apply U256 := do
  let s ← get
  if a ∈ s.db.accounts then return (s.db.getAccount a).balance
  match s.store.bind fun st => st.state.accounts a with
  | some account =>
    r.mutate (.loadAccount a account)
    return account.balance
  | none => return (s.db.getAccount a).balance

def putAccount (a : Address) : Apply Unit :=
  modify fun s => if s.deferPersist then s
    else { s with store := s.store.map fun st =>
      { st with state.accounts := st.state.accounts.write (.put a (s.db.getAccount a)) } }

def putCode (code : Bytes) : Apply Unit :=
  modify fun s => if s.deferPersist then s
    else { s with store := s.store.map fun st =>
      { st with state.code := st.state.code.write (.put (r.rules.keccak code) code) } }

def setBalance (a : Address) (balance : U256) : Apply Unit := do
  r.mutate (.effect (.setBalance a balance))
  putAccount a

def setCode (a : Address) (code : Bytes) : Apply Unit := do
  r.mutate (.effect (.setCode a code))
  r.putCode code
  putAccount a

def drainWrite (w : Address × PendingWrite) : Apply Unit := do
  forSome w.2.newBalance fun balance => r.mutate (.effect (.setBalance w.1 balance))
  forSome w.2.newNonce fun nonce => r.mutate (.effect (.setNonce w.1 nonce))
  forSome w.2.newCode fun code => do
    r.mutate (.effect (.createAccountIfNotExists w.1))
    r.setCode w.1 code

def drainJournal (j : Journal) : Apply Unit := do
  r.mutateAll (j.storageWrites.map fun e => .effect (.setStorage e.1.1 e.1.2 e.2))
  r.mutateAll (j.storageDeletes.map fun e => .effect (.deleteStorage e.1 e.2))
  forEach r.drainWrite j.writes
  r.mutateAll (j.models.map fun e => .effect (.putModel e.1 e.2))
  r.mutateAll (j.jobs.map fun e => .effect (.putJob e.1 e.2))

def executeTransaction (b : ImportedBlock) (tx : SignedTx) : Apply TransactionReceipt := do
  let outcome := r.executeTx (← get) b tx
  r.mutateAll outcome.touched
  match outcome.result with
  | .error e => throw e
  | .ok (receipt, journal) =>
    r.drainJournal journal
    return receipt

def executeTransactions (b : ImportedBlock) : Apply (List TransactionReceipt) :=
  mapEach (r.executeTransaction b) b.body

def addBalance (a : Address) (amount : U256) (message : String) : Apply Unit := do
  let balance ← r.getBalance a
  let credited ← orThrow (U256.checkedAdd balance amount) (rewardSettlement message)
  r.setBalance a credited

def creditBasic (credit : Address × U256) : Apply Unit :=
  whenever (0 < credit.2) (r.addBalance credit.1 credit.2 "basic reward overflows balance")

def creditValidatorReward (policy : EpochRewardPolicy) (pubkey : PublicKey) (amount : U256)
    (height : UInt64) : Apply Bool := do
  let minterBefore ← r.getBalance policy.rewardMinter
  let funded ← orThrow (U256.checkedAdd minterBefore amount)
    (rewardSettlement "transient minter funding overflows")
  r.setBalance policy.rewardMinter funded
  let outcome := r.creditReward (← get)
    ⟨policy.rewardMinter, policy.registry, encodeCreditReward pubkey amount, amount, height⟩
  r.mutateAll outcome.touched
  match outcome.result with
  | .panicked | .reverted _ =>
    r.setBalance policy.rewardMinter minterBefore
    return false
  | .ok =>
    -- below the value-transfer activation the machine's balance changes were dropped
    whenever (height < r.valueTransferActivation) do
      r.setBalance policy.rewardMinter minterBefore
      r.addBalance policy.registry amount "registry credit overflows balance"
    return true

def vestPriorityShare (policy : EpochRewardPolicy) (b : ImportedBlock) (coinbase : Address)
    (receipts : List TransactionReceipt) : Apply Unit := do
  let proposer := Bytes.hexEncode b.tail.proposerPubkey.asBytes
  ensure (b.tail.baseFeePerGas = canonicalBaseFeePerGas) (rewardSettlement
    s!"base_fee_per_gas {b.tail.baseFeePerGas} != canonical {canonicalBaseFeePerGas}")
  let staker ← orThrow policy.stakerOf[b.tail.proposerPubkey]? (rewardSettlement
    s!"proposer {proposer} absent from epoch-{policy.epoch} snapshot")
  ensure (coinbase = staker) (rewardSettlement
    (s!"coinbase {Bytes.hexEncode (Bytes.toBe 20 coinbase.toNat)} != registered staker " ++
      s!"{Bytes.hexEncode (Bytes.toBe 20 staker.toNat)} for proposer {proposer}"))
  let pool ← Action.ofExcept (computePriorityPool b.body receipts b.tail.baseFeePerGas)
  let share := totalVested pool policy.priorityFeeShareBps policy.blockSubsidy
  Action.whenever (share ≠ 0) do
    let _ ← r.creditValidatorReward policy b.tail.proposerPubkey share b.height

def settleBlockRewards (b : ImportedBlock) (coinbase : Address) (receipts : List TransactionReceipt)
    (basicCredits : List (Address × U256)) : Apply Unit := do
  modify fun s => { s with db := s.db.setRootHeight b.height }
  forEach r.creditBasic basicCredits
  match r.rewardPolicy with
  | none =>
    ensure (b.height < r.validatorActivationHeight) (rewardSettlement
      (s!"VALIDATOR-S1 reward policy unmaterialized at height {b.height} (>= activation " ++
        s!"{r.validatorActivationHeight}); refusing to settle a divergent (policy-less) block — " ++
        "epoch snapshot must be rehydrated"))
  | some policy =>
    whenever (policy.activationHeight ≤ b.height) (r.vestPriorityShare policy b coinbase receipts)

def verifyTransactions : ℕ → List SignedTx → Except ExecutionError Unit
  | _, [] => .ok ()
  | i, tx :: txs =>
    match tx.verifyForBlock r.crypto r.chainId with
    | .error e => .error (invalidBlockBody s!"tx #{i} ({tx.hash.display}): {e}")
    | .ok _ => verifyTransactions (i + 1) txs

def verifyBlockBody (b : ImportedBlock) : Except ExecutionError Unit :=
  if r.hardening.activeAt b.height = false then .ok ()
  else
    let expected := SignedTx.txRootForHeight r.sha3 r.hardening b.height b.body
    if b.txRoot ≠ expected then
      .error (invalidBlockBody (s!"tx_root {b.txRoot.display} does not commit to the block's " ++
        s!"transactions (expected {expected.display})"))
    else r.verifyTransactions 0 b.body

def calculateStateRoot : Apply Hash := do
  let s ← get
  let result := s.db.calculateStateRoot r.rules
  set { s with db := result.2 }
  return result.1

def checkStateRoot (b : ImportedBlock) : Apply Hash := do
  let computed ← r.calculateStateRoot
  ensure (computed = b.stateRoot) (.stateRootMismatch b.stateRoot computed)
  return computed

def verifiedRoot (b : ImportedBlock) (verifyRoot : Bool) : Apply Hash :=
  if verifyRoot then r.checkStateRoot b else pure b.stateRoot

def writeCode (code : Hash × Bytes) : Action String ApplyState Unit :=
  match r.codeFault code.1 with
  | some e => throw e
  | none => modify fun s => { s with store := s.store.map fun st =>
      { st with state.code := st.state.code.write (.put code.1 code.2) } }

def writeStateBatch (accounts : List (Address × AccountState)) (storage : List StateStorageChange)
    (tip : AppliedTip) (index : ReceiptIndexBatch) (modelsJobs : Option ModelJobUndo) :
    Action String ApplyState Unit :=
  match r.batchFault with
  | some e => throw e
  | none => modify fun s => { s with store := s.store.map fun st =>
      st.writeStateBatchWithAppliedTip r.encodedLen accounts storage tip index modelsJobs }

/-- The codes one by one, then one batch, then the commit. The dirty slots and codes are taken before
anything is written. -/
def persistStateChangesWithUndo (tip : AppliedTip) (index : ReceiptIndexBatch)
    (modelsJobs : Option ModelJobUndo) : Action String ApplyState ℕ := do
  let s ← get
  match s.store with
  | none => return 0
  | some _ =>
    let accountChanges := Executor.dirtyAccountChanges s.db
    let storageChanges := Executor.dirtyStorageChanges s.db
    modify fun s => { s with db := { s.db with dirtyStorage := [], dirtyCode := [] } }
    forEach r.writeCode s.db.dirtyCode
    r.writeStateBatch accountChanges storageChanges tip index modelsJobs
    modify fun s => { s with db := s.db.commit r.rules }
    return accountChanges.length + storageChanges.length

def persistBlock (b : ImportedBlock) (before : ApplyState) (receipts : List TransactionReceipt) :
    Apply Unit := do
  let after ← get
  let _ ← mapError (fun e => .reverted s!"persist after apply_block: {e}")
    (r.persistStateChangesWithUndo ⟨b.hash, b.height⟩ (.forBlock b.toBlock receipts)
      (some (modelJobPreImages before.db.toWorld after.db.toWorld)))

def revertTo (snapshot : StateSnapshot) (context : BlockContext) (s : ApplyState) : ApplyState :=
  { s with db := s.db.restore snapshot, blockContext := context }

def applyBlockBody (b : ImportedBlock) (coinbase : Address) (reward : RewardFn)
    (persist verifyRoot : Bool) : Apply (Hash × List TransactionReceipt) := do
  Action.ofExcept (r.verifyBlockBody b)
  let before ← get
  let undo := revertTo before.db.snapshot before.blockContext
  modify fun s => { s with blockContext := ⟨coinbase, b.tail.vrfReveal.output, ∅⟩ }
  let receipts ← Action.reverting undo (r.executeTransactions b)
  let credits ← Action.reverting undo (Action.ofExcept (reward b receipts))
  Action.reverting undo (r.settleBlockRewards b coinbase receipts credits)
  let got ← Action.reverting undo (r.verifiedRoot b verifyRoot)
  whenever (persist = true) (reverting undo (r.persistBlock b before receipts))
  return (got, receipts)

/-- The guard defers persistence and puts the flag back however the action ends. -/
def deferring {α : Type} (m : Apply α) : Apply α := fun s =>
  let result := m.on { s with deferPersist := true }
  (result.1, { result.2 with deferPersist := s.deferPersist })

def applyBlockInner (b : ImportedBlock) (coinbase : Address) (reward : RewardFn)
    (persist verifyRoot : Bool) : Apply (Hash × List TransactionReceipt) :=
  deferring (r.applyBlockBody b coinbase reward persist verifyRoot)

def applyBlock (b : ImportedBlock) (coinbase : Address) (reward : RewardFn) : Apply Hash := do
  let result ← r.applyBlockInner b coinbase reward true true
  return result.1

def applyBlockTrusted (b : ImportedBlock) (coinbase : Address) (reward : RewardFn) : Apply Hash := do
  let result ← r.applyBlockInner b coinbase reward true false
  return result.1

def applyBlockNoPersist (b : ImportedBlock) (coinbase : Address) (reward : RewardFn) : Apply Hash := do
  let result ← r.applyBlockInner b coinbase reward false true
  return result.1

end ApplyRules

end CitrateChain.Execution
