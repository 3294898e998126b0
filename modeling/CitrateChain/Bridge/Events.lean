import CitrateChain.Base.TreeMap
import CitrateChain.Base.Word
import CitrateChain.Consensus.Types

/-! # The bridge: events, oracles and minting

Deposits and withdrawals cross the bridge once enough oracles have attested them. Hashing, signatures
and the floating-point curve are parameters of the model. -/
namespace CitrateChain.Bridge
open Std (ExtTreeMap)
open Bytes (toLe toBe ascii hexEncode)
open Consensus (Hash)

abbrev EventId := Hash

abbrev OracleId := Hash

abbrev Address := BitVec 160

def Address.asBytes (a : Address) : Bytes := toBe 20 a.toNat

inductive BridgeError
  | eventNotFound (eventId : EventId)
  | invalidThreshold (threshold active : ℕ)
  | oracleAlreadyRegistered (oracleId : OracleId)
  | oracleNotFound (oracleId : OracleId)
  | oracleInactive (oracleId : OracleId)
  | duplicateAttestation (oracleId : OracleId) (eventId : EventId)
  | attestationFieldMismatch (eventId : EventId)
  | depositTooSmall (amountWei minWei : ℕ)
  | depositExceedsCap (amountWei maxWei : ℕ)
  | conversionError (reason : String)
  | retryExhausted (attempts : UInt32) (reason : String)
  | bridgePaused (reason : String)
  | invalidEventData (reason : String)
  | invalidSignature (oracleId : OracleId)
  | staleAttestation (timestamp : UInt64)
  deriving DecidableEq

def hexHash (h : Hash) : String := hexEncode h.asBytes

instance : ToString BridgeError where
  toString
    | .eventNotFound id => s!"Event not found: {hexHash id}"
    | .invalidThreshold threshold active =>
      s!"Invalid oracle threshold {threshold}: must be 1..={active} active oracles"
    | .oracleAlreadyRegistered id => s!"Oracle already registered: {hexHash id}"
    | .oracleNotFound id => s!"Oracle not found: {hexHash id}"
    | .oracleInactive id => s!"Oracle inactive: {hexHash id}"
    | .duplicateAttestation oracle id =>
      s!"Duplicate attestation from oracle {hexHash oracle} for event {hexHash id}"
    | .attestationFieldMismatch id =>
      s!"Attestation does not bind the deposit's mint-critical fields for event {hexHash id}"
    | .depositTooSmall amount least => s!"Deposit too small: {amount} wei (minimum: {least} wei)"
    | .depositExceedsCap amount most => s!"Deposit exceeds cap: {amount} wei (max: {most} wei)"
    | .conversionError reason => s!"Conversion error: {reason}"
    | .retryExhausted attempts reason => s!"Retry exhausted after {attempts} attempts: {reason}"
    | .bridgePaused reason => s!"Bridge paused: {reason}"
    | .invalidEventData reason => s!"Invalid event data: {reason}"
    | .invalidSignature id => s!"Invalid attestation signature from oracle {hexHash id}"
    | .staleAttestation timestamp =>
      s!"Stale attestation: timestamp {timestamp} is outside the acceptable window"

/-- What the bridge calls from elsewhere. Amounts in ETH are floating-point numbers, of type `φ`. -/
structure BridgeRules (φ : Type) where
  sha3 : Bytes → Hash
  verify : OracleId → Bytes → Bytes → Bool
  zero : φ
  add : φ → φ → φ
  isFinite : φ → Bool
  isNegative : φ → Bool
  ofWei : BitVec 128 → φ
  within : φ → φ → Bool
  display : φ → String
  calculateSaltAmount : φ → φ → UInt64

structure DepositEvent (φ : Type) where
  eventId : EventId
  ethTxHash : Hash
  logIndex : UInt32
  ethBlockNumber : UInt64
  depositor : Address
  recipient : Address
  amountWei : BitVec 128
  amountEth : φ
  timestamp : UInt64

structure WithdrawalEvent where
  eventId : EventId
  citrateTxHash : Hash
  citrateBlockHeight : UInt64
  sender : Address
  ethRecipient : Address
  saltAmount : UInt64
  ethAmountWei : BitVec 128
  timestamp : UInt64

structure OracleUpdateEvent where
  eventId : EventId
  oraclePubkey : OracleId
  isAddition : Bool
  timestamp : UInt64

inductive BridgeEvent (φ : Type)
  | deposit (d : DepositEvent φ)
  | withdrawal (w : WithdrawalEvent)
  | oracleUpdate (o : OracleUpdateEvent)

variable {φ : Type} (r : BridgeRules φ)

def BridgeEvent.eventId : BridgeEvent φ → EventId
  | .deposit d => d.eventId
  | .withdrawal w => w.eventId
  | .oracleUpdate o => o.eventId

def DepositEvent.canonicalHash (d : DepositEvent φ) : Hash :=
  r.sha3 (ascii "citrate-bridge-deposit-v1".toList ++ d.ethTxHash.asBytes ++ toLe 4 d.logIndex.toNat ++
    toLe 8 d.ethBlockNumber.toNat ++ d.depositor.asBytes ++ d.recipient.asBytes ++
    toLe 16 d.amountWei.toNat)

def WithdrawalEvent.canonicalHash (w : WithdrawalEvent) : Hash :=
  r.sha3 (ascii "citrate-bridge-withdrawal-v1".toList ++ w.citrateTxHash.asBytes ++
    toLe 8 w.citrateBlockHeight.toNat ++ w.sender.asBytes ++ w.ethRecipient.asBytes ++
    toLe 8 w.saltAmount.toNat ++ toLe 16 w.ethAmountWei.toNat)

def BridgeEvent.expectedHash : BridgeEvent φ → Option Hash
  | .deposit d => some (d.canonicalHash r)
  | .withdrawal w => some (w.canonicalHash r)
  | .oracleUpdate _ => none

def attestationMaxAgeSecs : UInt64 := 300

structure OracleAttestation where
  oracleId : OracleId
  eventId : EventId
  eventHash : Hash
  signature : Bytes
  timestamp : UInt64

structure RegisteredOracle where
  id : OracleId
  active : Bool := true
  lastAttestation : UInt64 := 0
  totalAttestations : UInt64 := 0

structure OracleRegistry where
  oracles : ExtTreeMap OracleId RegisteredOracle := ∅
  threshold : ℕ
  attestations : ExtTreeMap EventId (List OracleAttestation) := ∅
  chainId : UInt64
  bridgeInstance : Hash

def attestationMessage (chainId : UInt64) (bridgeInstance : Hash) (eventId : EventId) (eventHash : Hash)
    (timestamp : UInt64) : Bytes :=
  ascii "citrate-bridge-v2".toList ++ toLe 8 chainId.toNat ++ bridgeInstance.asBytes ++
    eventId.asBytes ++ eventHash.asBytes ++ toLe 8 timestamp.toNat

def verifyAttestationSignature (a : OracleAttestation) (chainId : UInt64) (bridgeInstance : Hash) :
    Except BridgeError Unit :=
  let message := attestationMessage chainId bridgeInstance a.eventId a.eventHash a.timestamp
  if r.verify a.oracleId message a.signature then .ok () else .error (.invalidSignature a.oracleId)

def verifyAttestationFreshness (now : UInt64) (a : OracleAttestation) : Except BridgeError Unit :=
  if attestationMaxAgeSecs < Word.saturatingSub now a.timestamp then .error (.staleAttestation a.timestamp)
  else if Word.saturatingAdd now 60 < a.timestamp then .error (.staleAttestation a.timestamp)
  else .ok ()

namespace OracleRegistry
variable (reg : OracleRegistry)

def registerOracle (id : OracleId) : Except BridgeError OracleRegistry :=
  if reg.oracles.contains id then .error (.oracleAlreadyRegistered id)
  else .ok { reg with oracles := reg.oracles.insert id { id } }

def removeOracle (id : OracleId) : Except BridgeError OracleRegistry :=
  if reg.oracles.contains id then .ok { reg with oracles := reg.oracles.erase id }
  else .error (.oracleNotFound id)

def deactivateOracle (id : OracleId) : Except BridgeError OracleRegistry :=
  match reg.oracles[id]? with
  | none => .error (.oracleNotFound id)
  | some o => .ok { reg with oracles := reg.oracles.insert id { o with active := false } }

def activeOracleCount : ℕ := reg.oracles.toList.countP (·.2.active)

def setThreshold (threshold : ℕ) : Except BridgeError OracleRegistry :=
  if threshold = 0 ∨ reg.activeOracleCount < threshold then
    .error (.invalidThreshold threshold reg.activeOracleCount)
  else .ok { reg with threshold }

/-- The entry of the event is made before the checks on the attestation and stays when they fail. -/
def submitAttestation (now : UInt64) (a : OracleAttestation) :
    OracleRegistry × Except BridgeError ℕ :=
  match reg.oracles[a.oracleId]? with
  | none => (reg, .error (.oracleNotFound a.oracleId))
  | some o =>
    if !o.active then (reg, .error (.oracleInactive a.oracleId))
    else
      let held := reg.attestations.getD a.eventId []
      let entered := { reg with attestations := reg.attestations.insert a.eventId held }
      if held.any (·.oracleId == a.oracleId) then
        (entered, .error (.duplicateAttestation a.oracleId a.eventId))
      else
        match verifyAttestationFreshness now a with
        | .error e => (entered, .error e)
        | .ok () =>
          match verifyAttestationSignature r a reg.chainId reg.bridgeInstance with
          | .error e => (entered, .error e)
          | .ok () =>
            let o' : RegisteredOracle :=
              { o with
                lastAttestation := a.timestamp
                totalAttestations := Word.saturatingAdd o.totalAttestations 1 }
            ({ reg with
                oracles := reg.oracles.insert a.oracleId o'
                attestations := reg.attestations.insert a.eventId (held ++ [a]) },
              .ok (held.length + 1))

def isThresholdMet (eventId : EventId) : Bool :=
  match reg.attestations[eventId]? with
  | some held => reg.threshold ≤ held.length
  | none => false

def matchingAttestationCount (eventId : EventId) (expected : Hash) : ℕ :=
  (reg.attestations.getD eventId []).countP fun a =>
    ((reg.oracles[a.oracleId]?).any (·.active)) && a.eventHash == expected

def isThresholdMetFor (eventId : EventId) (expected : Hash) : Bool :=
  if reg.threshold = 0 then false else reg.threshold ≤ reg.matchingAttestationCount eventId expected

end OracleRegistry

def minDepositWei : BitVec 128 := 20000000000000000

def maxDepositWei : BitVec 128 := 10000000000000000000

def hardCapWei : BitVec 128 := 2000000000000000000000

structure MintReceipt where
  eventId : EventId
  recipient : Address
  depositWei : BitVec 128
  saltCredited : UInt64
  receiptHash : Hash
  timestamp : UInt64

structure SnapMinter (φ : Type) where
  totalDepositedEth : φ
  totalDepositedWei : BitVec 128 := 0
  totalSaltMinted : UInt64 := 0
  totalDeposits : UInt64 := 0

def computeReceiptHash (eventId : EventId) (recipient : Address) (saltAmount : UInt64) : Hash :=
  r.sha3 (eventId.asBytes ++ recipient.asBytes ++ toLe 8 saltAmount.toNat ++
    ascii "mint_receipt_v1".toList)

namespace SnapMinter

def new : SnapMinter φ := { totalDepositedEth := r.zero }

def checkDeposit (d : DepositEvent φ) : Except BridgeError Unit :=
  if d.amountWei < minDepositWei then
    .error (.depositTooSmall d.amountWei.toNat minDepositWei.toNat)
  else if maxDepositWei < d.amountWei then
    .error (.depositExceedsCap d.amountWei.toNat maxDepositWei.toNat)
  else if !r.isFinite d.amountEth || r.isNegative d.amountEth then
    .error (.invalidEventData s!"amount_eth must be finite and non-negative, got {r.display d.amountEth}")
  else if !r.within d.amountEth (r.ofWei d.amountWei) then
    .error (.invalidEventData
      (s!"amount_eth {r.display d.amountEth} inconsistent with amount_wei {d.amountWei.toNat} " ++
        s!"(~{r.display (r.ofWei d.amountWei)} ETH)"))
  else .ok ()

def newTotalWei (m : SnapMinter φ) (d : DepositEvent φ) : Except BridgeError (BitVec 128) :=
  if 2 ^ 128 ≤ m.totalDepositedWei.toNat + d.amountWei.toNat then
    .error (.conversionError "total deposited wei overflow")
  else if hardCapWei < m.totalDepositedWei + d.amountWei then
    .error (.depositExceedsCap d.amountWei.toNat (hardCapWei.toNat - m.totalDepositedWei.toNat))
  else .ok (m.totalDepositedWei + d.amountWei)

def processDeposit (m : SnapMinter φ) (d : DepositEvent φ) :
    Except BridgeError (MintReceipt × SnapMinter φ) := do
  checkDeposit r d
  let totalDepositedWei ← m.newTotalWei d
  let saltAmount := r.calculateSaltAmount d.amountEth m.totalDepositedEth
  if saltAmount = 0 then .error (.conversionError "Bonding curve yielded zero SALT")
  else
    .ok (
      { eventId := d.eventId
        recipient := d.recipient
        depositWei := d.amountWei
        saltCredited := saltAmount
        receiptHash := computeReceiptHash r d.eventId d.recipient saltAmount
        timestamp := d.timestamp },
      { totalDepositedEth := r.add m.totalDepositedEth d.amountEth
        totalDepositedWei
        totalSaltMinted := Word.saturatingAdd m.totalSaltMinted saltAmount
        totalDeposits := Word.saturatingAdd m.totalDeposits 1 })

end SnapMinter

end CitrateChain.Bridge
