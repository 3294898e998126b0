import CitrateChain.Base.MapSum
import CitrateChain.Consensus.TxAuth

/-! # The mempool

Pending transactions by hash, with a priority queue, a queue of hashes and a set of nonces for each
sender, the summed size and the hashes that left the pool. Every change of one of these structures is
an operation of its own, as each of them has its own lock. -/
namespace CitrateChain.Sequencer
open Std (ExtTreeMap)
open Consensus (Hash PublicKey SignedTx TxCrypto PbaHardening TransactionType isEvmShaped Signature)

inductive TxClass
  | standard | modelUpdate | inference | training | storage | system | compute
  deriving DecidableEq, Repr

def TxClass.priorityMultiplier : TxClass → UInt64
  | .system => 1000
  | .modelUpdate => 100
  | .compute => 80
  | .training => 50
  | .inference => 20
  | .storage => 10
  | .standard => 1

structure TxPriority where
  gasPrice : UInt64
  txClass : TxClass
  timestamp : UInt64
  aiPriority : UInt64 := 0
  deriving DecidableEq

def TxPriority.score (p : TxPriority) : UInt64 :=
  if 0 < p.aiPriority then p.aiPriority
  else Word.saturatingMul p.gasPrice p.txClass.priorityMultiplier

/-- `Ord for TxPriority`: a higher score first, and of equal scores the older one. -/
def TxPriority.le (p q : TxPriority) : Bool :=
  p.score < q.score || (p.score == q.score && q.timestamp ≤ p.timestamp)

inductive MempoolError
  | full
  | duplicateTransaction (hash : Hash)
  | invalidTransaction (message : String)
  | nonceTooLow (expected got : UInt64)
  | duplicateNonce (nonce : UInt64)
  | gasPriceTooLow (min got : UInt64)
  | senderLimitExceeded
  | invalidSignature
  | insufficientBalance (balance required : ℕ)
  deriving DecidableEq

structure MempoolConfig where
  maxSize : ℕ := 10000
  maxPerSender : ℕ := 100
  minGasPrice : UInt64 := 1000000000
  txExpirySecs : UInt64 := 3600
  requireValidSignature : Bool := true
  chainId : UInt64 := 40204
  maxNonceGap : UInt64 := 16

def maxGasPerBlock : UInt64 := 30000000

def maxTxDataBytes : ℕ := 128 * 1024

def maxPoolBytes : ℕ := 64 * 1024 * 1024

def evictedCap : ℕ := 100000

def maxBannedSenders : ℕ := 10000

structure MempoolTx where
  tx : SignedTx
  txClass : TxClass
  priority : TxPriority
  addedAt : UInt64
  size : ℕ

/-- The queue of the `priority_queue` crate: hashes with a priority each. -/
abbrev PriorityQueue := List (Hash × TxPriority)

namespace PriorityQueue

def push (q : PriorityQueue) (h : Hash) (p : TxPriority) : PriorityQueue :=
  if q.any (·.1 == h) then q.map fun e => if e.1 == h then (h, p) else e else q ++ [(h, p)]

def remove (q : PriorityQueue) (h : Hash) : PriorityQueue := q.filter (·.1 != h)

def lowest : PriorityQueue → Option (Hash × TxPriority)
  | [] => none
  | e :: es =>
    match lowest es with
    | none => some e
    | some e' => some (if e'.2.score < e.2.score then e' else e)

end PriorityQueue

/-- What a pool is built with: its configuration, the build, the executor's parser, the cryptography
and the order in which the queue is walked, which is the crate's own. -/
structure PoolRules where
  config : MempoolConfig
  devnet : Bool
  isExecutable : SignedTx → Bool
  crypto : TxCrypto
  nativeSig : Option PbaHardening
  walk : PriorityQueue → PriorityQueue
  walk_perm : ∀ q, (walk q).Perm q

structure Readings where
  stateNonce : Option (PublicKey → UInt64) := none
  stateBalance : Option (PublicKey → BitVec 128) := none
  sweepTip : Option UInt64 := none
  tip : Option UInt64 := none
  timestamp : UInt64 := 0
  instant : ℕ := 0

structure Mempool where
  transactions : ExtTreeMap Hash MempoolTx := ∅
  priorityQueue : PriorityQueue := []
  bySender : ExtTreeMap PublicKey (List Hash) := ∅
  senderNonces : ExtTreeMap PublicKey (List UInt64) := ∅
  totalSize : ℕ := 0
  evicted : List Hash := []
  banned : ExtTreeMap PublicKey ℕ := ∅
  nativeSigSwept : Bool := false

def usizeAdd (a b : ℕ) : ℕ := min (a + b) (2 ^ 64 - 1)

def costAdd (a b : ℕ) : ℕ := min (a + b) (2 ^ 128 - 1)

def txMaxCost (tx : SignedTx) : ℕ :=
  costAdd (min (tx.gasLimit.toNat * (tx.maxFeePerGas.getD tx.gasPrice).toNat) (2 ^ 128 - 1)) tx.value.toNat

def txSize (tx : SignedTx) : ℕ := usizeAdd tx.data.length (32 + 8 + 32 + 32 + 16 + 8 + 8 + 64)

namespace Mempool

def queueOf (p : Mempool) (s : PublicKey) : List Hash := p.bySender[s]?.getD []

def noncesOf (p : Mempool) (s : PublicKey) : List UInt64 := p.senderNonces[s]?.getD []

def dropTransaction (p : Mempool) (h : Hash) : Mempool :=
  { p with transactions := p.transactions.erase h }

def dropFromQueue (p : Mempool) (h : Hash) : Mempool :=
  { p with priorityQueue := p.priorityQueue.remove h }

def dropFromSender (p : Mempool) (s : PublicKey) (h : Hash) : Mempool :=
  match p.bySender[s]? with
  | some q => { p with bySender := p.bySender.insert s (q.filter (· != h)) }
  | none => p

def dropSize (p : Mempool) (size : ℕ) : Mempool := { p with totalSize := p.totalSize - size }

def dropNonce (p : Mempool) (s : PublicKey) (nonce : UInt64) : Mempool :=
  match p.senderNonces[s]? with
  | some set =>
    let set := set.filter (· != nonce)
    { p with senderNonces := if set.isEmpty then p.senderNonces.erase s else p.senderNonces.insert s set }
  | none => p

def markEvicted (p : Mempool) (h : Hash) : Mempool :=
  if h ∈ p.evicted then p
  else { p with evicted := (p.evicted ++ [h]).drop (p.evicted.length + 1 - evictedCap) }

def removeTransaction (p : Mempool) (h : Hash) : Mempool × Option SignedTx :=
  match p.transactions[h]? with
  | none => (p, none)
  | some m =>
    ((((((p.dropTransaction h).dropFromQueue h).dropFromSender m.tx.sender h).dropSize m.size).dropNonce
      m.tx.sender m.tx.nonce).markEvicted h, some m.tx)

def removeAll (p : Mempool) (hs : List Hash) : Mempool := hs.foldl (fun p h => (p.removeTransaction h).1) p

section Rules
variable (r : PoolRules)

def v1AcceptedAtTip (hardening : PbaHardening) (tip : UInt64) : Bool :=
  !hardening.activeAt (Word.saturatingAdd tip 1)

def nativeV1Accepted (env : Readings) : Bool :=
  match r.nativeSig with
  | some hardening => v1AcceptedAtTip hardening (env.tip.getD Word.maxWord)
  | none => true

def failsNativeBlockRule (tx : SignedTx) : Bool :=
  !isEvmShaped tx.sender && tx.verifyTransactionWithPolicy r.crypto false != some true

def nativeBlockRuleFailures (p : Mempool) : List Hash :=
  (p.transactions.toList.filter fun e => failsNativeBlockRule r e.2.tx).map (·.1)

def evictNativeBlockRuleFailures (p : Mempool) : Mempool := p.removeAll (p.nativeBlockRuleFailures r)

def sweeps (p : Mempool) (env : Readings) : Bool :=
  match r.nativeSig, env.sweepTip with
  | some hardening, some tip => !p.nativeSigSwept && !v1AcceptedAtTip hardening tip
  | _, _ => false

def sweepIfV1WindowClosed (p : Mempool) (env : Readings) : Mempool :=
  if p.sweeps r env then { p with nativeSigSwept := true }.evictNativeBlockRuleFailures r else p

def isBanned (p : Mempool) (env : Readings) (s : PublicKey) : Bool :=
  match p.banned[s]? with
  | some til => env.instant < til
  | none => false

def checkStateNonce (env : Readings) (tx : SignedTx) : Except MempoolError Unit :=
  match env.stateNonce with
  | none => .ok ()
  | some read =>
    let stateNonce := read tx.sender
    if tx.nonce < stateNonce then .error (.nonceTooLow stateNonce tx.nonce)
    else if r.config.maxNonceGap < Word.saturatingSub tx.nonce stateNonce then
      .error (.invalidTransaction (s!"nonce {tx.nonce} is more than {r.config.maxNonceGap} ahead of " ++
        s!"the sender's committed nonce {stateNonce} (PBA-L1a-001)"))
    else .ok ()

def unrecoveredEvm (tx : SignedTx) : Bool :=
  isEvmShaped tx.sender && !tx.ecdsaVerified &&
    match tx.authenticateWithPolicy r.crypto true with
    | .ok _ => false
    | .error _ => true

def checkSender (tx : SignedTx) : Except MempoolError Unit :=
  if r.devnet then
    if tx.sender = 0 then .error (.invalidTransaction "Empty sender") else .ok ()
  else if tx.signature = 0 then .error .invalidSignature
  else if tx.sender = 0 then .error (.invalidTransaction "Empty sender")
  else if unrecoveredEvm r tx then .error .invalidSignature
  else .ok ()

def checkChainId (tx : SignedTx) : Except MempoolError Unit :=
  match tx.chainId with
  | some id =>
    if id = r.config.chainId then .ok ()
    else .error (.invalidTransaction s!"Wrong chain ID: expected {r.config.chainId}, got {id}")
  | none => .error (.invalidTransaction
      s!"Missing chain ID: all transactions must specify chain_id={r.config.chainId}")

def checkSignature (env : Readings) (tx : SignedTx) : Except MempoolError Unit :=
  if r.config.requireValidSignature = false then .ok ()
  else if nativeV1Accepted r env = false ∧ failsNativeBlockRule r tx then
    .error (.invalidTransaction (if tx.signedAsV1 r.crypto then
      "native signature uses the legacy digest, which the next block no longer accepts; " ++
        "sign with the v2 (chain-bound) digest"
      else "native signature is not valid under the block rule"))
  else
    match tx.verifyTransactionWithPolicy r.crypto true with
    | some true => .ok ()
    | some false =>
      match tx.authenticateWithPolicy r.crypto true with
      | .ok _ => .ok ()
      | .error _ => .error (.invalidTransaction "Invalid signature: verification failed")
    | none => .error (.invalidTransaction "Signature error: Invalid public key")

def validateTransaction (p : Mempool) (env : Readings) (tx : SignedTx) : Except MempoolError Unit := do
  if maxTxDataBytes < tx.data.length then
    .error (.invalidTransaction
      s!"transaction data is {tx.data.length} bytes; the maximum is {maxTxDataBytes}")
  else if r.isExecutable tx = false then
    .error (.invalidTransaction "transaction payload is not executable")
  else if p.isBanned env tx.sender then .error (.invalidTransaction "sender temporarily refused")
  else do
    checkStateNonce r env tx
    checkSender r tx
    if unrecoveredEvm r tx then .error .invalidSignature
    else if tx.gasPrice < r.config.minGasPrice then
      .error (.gasPriceTooLow r.config.minGasPrice tx.gasPrice)
    else if maxGasPerBlock < tx.gasLimit then
      .error (.invalidTransaction s!"gas_limit {tx.gasLimit} exceeds per-block ceiling {maxGasPerBlock}")
    else do
      checkChainId r tx
      checkSignature r env tx

def isAiOp (tx : SignedTx) : Bool :=
  tx.recipient.isSome &&
    match tx.data with
    | 1 :: 0 :: 0 :: 0 :: _ | 2 :: 0 :: 0 :: 0 :: _ | 3 :: 0 :: 0 :: 0 :: _ => true
    | _ => false

def determineType (tx : SignedTx) : SignedTx := { tx with txType := some (TransactionType.fromData tx.data) }

def admissionClass (tx : SignedTx) (txClass : TxClass) : TxClass := if isAiOp tx then .compute else txClass

/-- The pool's key is the canonical id where the transaction authenticates. -/
def canonical (tx : SignedTx) : SignedTx :=
  match tx.authenticateWithPolicy r.crypto true with
  | .ok id => { tx with hash := id }
  | .error _ => tx

def checkDuplicate (p : Mempool) (tx : SignedTx) : Except MempoolError Unit :=
  if tx.hash ∈ p.transactions then .error (.duplicateTransaction tx.hash) else .ok ()

def checkEvicted (p : Mempool) (tx : SignedTx) : Except MempoolError Unit :=
  if tx.hash ∈ p.evicted then .error (.duplicateTransaction tx.hash) else .ok ()

def checkSenderLimit (p : Mempool) (tx : SignedTx) : Except MempoolError Unit :=
  match p.bySender[tx.sender]? with
  | some txs => if r.config.maxPerSender ≤ txs.length then .error .senderLimitExceeded else .ok ()
  | none => .ok ()

def checkNonce (p : Mempool) (tx : SignedTx) : Except MempoolError Unit :=
  match p.senderNonces[tx.sender]? with
  | none => .ok ()
  | some set =>
    if tx.nonce ∈ set then .error (.duplicateNonce tx.nonce)
    else
      match set.min? with
      | some least =>
        if r.config.maxNonceGap < Word.saturatingSub tx.nonce least then .error (.duplicateNonce tx.nonce)
        else .ok ()
      | none => .ok ()

def checkNonceMax (tx : SignedTx) : Except MempoolError Unit :=
  if tx.nonce = Word.maxWord then
    .error (.invalidTransaction "nonce u64::MAX is not admissible (PBA-L1a-001)")
  else .ok ()

def pooledCost (p : Mempool) (s : PublicKey) : ℕ :=
  (p.queueOf s).foldl (fun acc h =>
    costAdd acc (match p.transactions[h]? with | some m => txMaxCost m.tx | none => 0)) 0

def checkBalance (p : Mempool) (env : Readings) (tx : SignedTx) : Except MempoolError Unit :=
  match env.stateBalance with
  | none => .ok ()
  | some read =>
    let balance := (read tx.sender).toNat
    let required := costAdd (p.pooledCost tx.sender) (txMaxCost tx)
    if balance < required then .error (.insufficientBalance balance required) else .ok ()

def checkAdmission (p : Mempool) (env : Readings) (tx : SignedTx) : Except MempoolError Unit := do
  p.checkDuplicate tx
  p.checkEvicted tx
  checkSenderLimit r p tx
  checkNonce r p tx
  checkNonceMax tx
  p.checkBalance env tx

def evictLowerPriorityThan (p : Mempool) (incoming : TxPriority) : Mempool × Except MempoolError Unit :=
  match (r.walk p.priorityQueue).lowest with
  | some (h, lowest) =>
    if lowest.score ≤ incoming.score then ((p.removeTransaction h).1, .ok ()) else (p, .error .full)
  | none => (p, .error .full)

def evictUntilFits (incoming : TxPriority) (size : ℕ) : ℕ → Mempool → Mempool × Except MempoolError Unit
  | 0, p => (p, .error .full)
  | fuel + 1, p =>
    if usizeAdd p.totalSize size ≤ maxPoolBytes then (p, .ok ())
    else
      match evictLowerPriorityThan r p incoming with
      | (p, .ok ()) => evictUntilFits incoming size fuel p
      | (p, .error e) => (p, .error e)

def makeRoom (p : Mempool) (incoming : TxPriority) (size : ℕ) : Mempool × Except MempoolError Unit :=
  match (if r.config.maxSize ≤ p.transactions.size then evictLowerPriorityThan r p incoming
    else (p, .ok ())) with
  | (p, .error e) => (p, .error e)
  | (p, .ok ()) => evictUntilFits r incoming size (p.priorityQueue.length + 1) p

def putTransaction (p : Mempool) (m : MempoolTx) : Mempool :=
  { p with transactions := p.transactions.insert m.tx.hash m }

def pushQueue (p : Mempool) (m : MempoolTx) : Mempool :=
  { p with priorityQueue := p.priorityQueue.push m.tx.hash m.priority }

def pushSender (p : Mempool) (m : MempoolTx) : Mempool :=
  { p with bySender := p.bySender.insert m.tx.sender (p.queueOf m.tx.sender ++ [m.tx.hash]) }

def addNonce (p : Mempool) (m : MempoolTx) : Mempool :=
  let set := (p.noncesOf m.tx.sender).insert m.tx.nonce
  { p with senderNonces := p.senderNonces.insert m.tx.sender set }

def addSize (p : Mempool) (m : MempoolTx) : Mempool :=
  { p with totalSize := usizeAdd p.totalSize m.size }

def insertTx (p : Mempool) (m : MempoolTx) : Mempool :=
  ((((p.putTransaction m).pushQueue m).pushSender m).addNonce m).addSize m

def mempoolTx (env : Readings) (tx : SignedTx) (txClass : TxClass) : MempoolTx where
  tx := tx
  txClass := txClass
  priority := { gasPrice := tx.gasPrice, txClass, timestamp := env.timestamp }
  addedAt := env.timestamp
  size := txSize tx

def addTransaction (p : Mempool) (env : Readings) (tx : SignedTx) (txClass : TxClass) :
    Mempool × Except MempoolError Unit :=
  let p := p.sweepIfV1WindowClosed r env
  let tx := determineType tx
  match validateTransaction r p env tx with
  | .error e => (p, .error e)
  | .ok () =>
    let m := mempoolTx env (canonical r tx) (admissionClass tx txClass)
    match checkAdmission r p env m.tx with
    | .error e => (p, .error e)
    | .ok () =>
      match makeRoom r p m.priority m.size with
      | (p, .error e) => (p, .error e)
      | (p, .ok ()) => (p.insertTx m, .ok ())

def reconcileNonces (p : Mempool) : Mempool :=
  let pooled (q : List Hash) := (q.filterMap fun h => p.transactions[h]?.map (·.tx.nonce)).dedup
  let kept := (p.bySender.toList.map fun e => (e.1, pooled e.2)).filter fun e => !e.2.isEmpty
  { p with senderNonces := ExtTreeMap.ofList kept }

structure Selection where
  selected : List SignedTx := []
  totalSize : ℕ := 0
  nextNonce : ExtTreeMap PublicKey UInt64 := ∅
  picked : List Hash := []

def expectedNonce (p : Mempool) (sel : Selection) (s : PublicKey) : Option UInt64 :=
  sel.nextNonce[s]?.or
    (p.bySender[s]?.bind fun q => (q.filterMap fun h => p.transactions[h]?.map (·.tx.nonce)).min?)

def selectOne (p : Mempool) (maxCount maxSize : ℕ) (sel : Selection) (h : Hash) : Selection :=
  if maxCount ≤ sel.selected.length then sel
  else
    match p.transactions[h]? with
    | none => sel
    | some m =>
      if h ∈ sel.picked then sel
      else if maxSize < usizeAdd sel.totalSize m.size then sel
      else if (p.expectedNonce sel m.tx.sender).all (m.tx.nonce == ·) = false then sel
      else
        match Word.checkedAdd m.tx.nonce 1 with
        | none => sel
        | some successor =>
          { selected := sel.selected ++ [m.tx]
            totalSize := usizeAdd sel.totalSize m.size
            nextNonce := sel.nextNonce.insert m.tx.sender successor
            picked := h :: sel.picked }

def selectLoop (p : Mempool) (maxCount maxSize : ℕ) (sorted : List Hash) : ℕ → Selection → Selection
  | 0, sel => sel
  | fuel + 1, sel =>
    let next := sorted.foldl (p.selectOne maxCount maxSize) sel
    if next.picked.length = sel.picked.length then next
    else selectLoop p maxCount maxSize sorted fuel next

def getBestTransactions (p : Mempool) (env : Readings) (maxCount maxSize : ℕ) :
    Mempool × List SignedTx :=
  let p := p.sweepIfV1WindowClosed r env
  let sorted := (r.walk p.priorityQueue).mergeSort fun a b => b.2.le a.2
  (p, (p.selectLoop maxCount maxSize (sorted.map (·.1)) (sorted.length + 1) {}).selected)

def clearExpired (p : Mempool) (env : Readings) : Mempool :=
  let expiry := Word.saturatingSub env.timestamp r.config.txExpirySecs
  let p := p.removeAll ((p.transactions.toList.filter fun e => e.2.addedAt < expiry).map (·.1))
  if nativeV1Accepted r env then p else p.evictNativeBlockRuleFailures r

def clear (p : Mempool) : Mempool := { banned := p.banned, nativeSigSwept := p.nativeSigSwept }

def ban (p : Mempool) (s : PublicKey) (now til : ℕ) : Mempool :=
  let live := p.banned.filter fun _ t => now < t
  let live :=
    if maxBannedSenders ≤ live.size ∧ s ∉ live then
      match live.toList.foldl (fun best e => match best with
        | none => some e
        | some b => some (if e.2 < b.2 then e else b)) none with
      | some e => live.erase e.1
      | none => live
    else live
  { p with banned := live.insert s til }

def banSender (p : Mempool) (s : PublicKey) (now til : ℕ) : Mempool :=
  (p.ban s now til).removeAll ((p.ban s now til).queueOf s)

end Rules

end Mempool

end CitrateChain.Sequencer
