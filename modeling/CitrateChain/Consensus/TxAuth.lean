import CitrateChain.Base.Result
import CitrateChain.Base.Rlp
import CitrateChain.Consensus.BlockHash

/-! # Transaction authentication

`authenticate_with_policy` checks a transaction from its contents and returns its canonical id: the
hash of the signed legacy, EIP-2930 or EIP-1559 encoding for a sender with the shape of an EVM
address, and a domain-separated hash of the signed bytes, the signature and the chain id for a native
one. -/
namespace CitrateChain.Consensus
open Rlp
open Bytes (toLe toBe ascii trim)

inductive TransactionType
  | standard | modelDeploy | modelUpdate | inferenceRequest | trainingJob | loraAdapter
  deriving DecidableEq, Repr

def TransactionType.fromData : Bytes → TransactionType
  | 1 :: 0 :: 0 :: 0 :: _ => .modelDeploy
  | 2 :: 0 :: 0 :: 0 :: _ => .modelUpdate
  | 3 :: 0 :: 0 :: 0 :: _ => .inferenceRequest
  | 4 :: 0 :: 0 :: 0 :: _ => .trainingJob
  | 5 :: 0 :: 0 :: 0 :: _ => .loraAdapter
  | _ => .standard

abbrev AccessList := List (Bytes × List Bytes)

structure SignedTx extends Transaction where
  signature : Signature := 0
  txType : Option TransactionType := none
  ethTxType : UInt8 := 0
  maxFeePerGas : Option UInt64 := none
  maxPriorityFeePerGas : Option UInt64 := none
  accessList : Option AccessList := none
  chainId : Option UInt64 := none
  ecdsaVerified : Bool := false

inductive TxAuthError
  | emptySender
  | missingChainId
  | unsupportedType (type : UInt8)
  | unsignedField (field : String)
  | highS
  | badSignature
  | hashMismatch (claimed canonical : Hash)
  | wrongChainId (expected : UInt64) (got : Option UInt64)
  | legacyNativeSignature
  deriving DecidableEq, Repr

instance : ToString TxAuthError where
  toString
    | .emptySender => "empty sender"
    | .missingChainId => "EVM transaction without a chain id (pre-EIP-155 is not accepted)"
    | .unsupportedType type => s!"unsupported EIP-2718 transaction type {type}"
    | .unsignedField field => s!"field not covered by the signature is set or inconsistent: {field}"
    | .highS => "EIP-2 violation: high-s signature"
    | .badSignature => "signature does not verify for the claimed sender"
    | .hashMismatch claimed canonical =>
      s!"transaction hash {claimed.display} is not the canonical id {canonical.display} of its contents"
    | .wrongChainId expected (some got) => s!"transaction chain id Some({got}) is not this chain's {expected}"
    | .wrongChainId expected none => s!"transaction chain id None is not this chain's {expected}"
    | .legacyNativeSignature =>
      "native signature uses the legacy digest, which does not bind the chain id; sign with the v2 digest"

structure TxCrypto where
  keccak : Bytes → Hash
  recover : Hash → Signature → UInt8 → Option Bytes
  validKey : PublicKey → Bool
  isWeak : PublicKey → Bool
  verify : Verifier
  verifyStrict : Verifier

def isEvmShaped (key : PublicKey) : Bool :=
  (key.asBytes.drop 20).all (· == 0) && !(key.asBytes.take 20).all (· == 0)

def Signature.asBytes (sig : Signature) : Bytes := toBe 64 sig.toNat

namespace SignedTx

def appendTo (tx : SignedTx) : Except TxAuthError Bytes :=
  match tx.recipient with
  | some key =>
    if (key.asBytes.drop 20).any (· != 0) then .error (.unsignedField "to[20..32]")
    else .ok (encodeBytes (key.asBytes.take 20))
  | none => .ok [128]

def appendKeys : List Bytes → Except TxAuthError Bytes
  | [] => .ok []
  | key :: keys =>
    if key.length ≠ 32 then .error (.unsignedField "access_list storage key length")
    else do
      let rest ← appendKeys keys
      .ok (encodeBytes key ++ rest)

def appendEntries : AccessList → Except TxAuthError Bytes
  | [] => .ok []
  | (addr, keys) :: entries =>
    if addr.length ≠ 20 then .error (.unsignedField "access_list address length")
    else do
      let keys ← appendKeys keys
      let rest ← appendEntries entries
      .ok (encodePayload (encodeBytes addr ++ encodePayload keys) ++ rest)

def appendAccessList (tx : SignedTx) : Except TxAuthError Bytes := do
  let entries ← appendEntries (tx.accessList.getD [])
  .ok (encodePayload entries)

def checkTxType (tx : SignedTx) : Except TxAuthError Unit :=
  match tx.txType with
  | some t => if t ≠ TransactionType.fromData tx.data then .error (.unsignedField "tx_type") else .ok ()
  | none => .ok ()

def checkEvmUnsignedFields (tx : SignedTx) : Except TxAuthError Unit := do
  tx.checkTxType
  if tx.ethTxType = 0 ∨ tx.ethTxType = 1 then
    if tx.maxFeePerGas.isSome ∨ tx.maxPriorityFeePerGas.isSome then
      .error (.unsignedField "EIP-1559 fees on a non-1559 tx")
    else if tx.ethTxType = 0 ∧ tx.accessList.isSome then
      .error (.unsignedField "access_list on a legacy tx")
    else .ok ()
  else if tx.ethTxType = 2 then
    if tx.maxFeePerGas ≠ some tx.gasPrice then .error (.unsignedField "gas_price != maxFeePerGas")
    else if tx.maxPriorityFeePerGas.isNone then .error (.unsignedField "missing maxPriorityFeePerGas")
    else .ok ()
  else .error (.unsupportedType tx.ethTxType)

def uint (x : UInt64) : Bytes := encodeUint 8 x.toNat

/-- The items in front of the signature, which the signed payload and the signed encoding share. -/
def evmFields (tx : SignedTx) (chainId : UInt64) : Except TxAuthError Bytes :=
  if tx.ethTxType = 0 then do
    let recipient ← tx.appendTo
    .ok (uint tx.nonce ++ uint tx.gasPrice ++ uint tx.gasLimit ++ recipient ++
      encodeUint 16 tx.value.toNat ++ encodeBytes tx.data)
  else if tx.ethTxType = 1 then do
    let recipient ← tx.appendTo
    let accessList ← tx.appendAccessList
    .ok (uint chainId ++ uint tx.nonce ++ uint tx.gasPrice ++ uint tx.gasLimit ++ recipient ++
      encodeUint 16 tx.value.toNat ++ encodeBytes tx.data ++ accessList)
  else if tx.ethTxType = 2 then
    match tx.maxPriorityFeePerGas, tx.maxFeePerGas with
    | none, _ => .error (.unsignedField "missing maxPriorityFeePerGas")
    | some _, none => .error (.unsignedField "missing maxFeePerGas")
    | some prio, some maxFee => do
      let recipient ← tx.appendTo
      let accessList ← tx.appendAccessList
      .ok (uint chainId ++ uint tx.nonce ++ uint prio ++ uint maxFee ++ uint tx.gasLimit ++ recipient ++
        encodeUint 16 tx.value.toNat ++ encodeBytes tx.data ++ accessList)
  else .error (.unsupportedType tx.ethTxType)

/-- The EIP-2718 type in front of a list; a legacy transaction has none. -/
def envelope (tx : SignedTx) (payload : Bytes) : Bytes :=
  (if tx.ethTxType ≠ 0 then [tx.ethTxType] else []) ++ encodePayload payload

/-- What is signed; a legacy transaction carries the chain id and two zeros. -/
def sighashPreimage (tx : SignedTx) (chainId : UInt64) : Except TxAuthError Bytes := do
  let fields ← tx.evmFields chainId
  .ok (tx.envelope (fields ++
    if tx.ethTxType = 0 then uint chainId ++ encodeUint 1 0 ++ encodeUint 1 0 else []))

def evmSighash (c : TxCrypto) (tx : SignedTx) : Except TxAuthError (Hash × UInt64) :=
  match tx.chainId with
  | none => .error .missingChainId
  | some chainId => do
    let preimage ← tx.sighashPreimage chainId
    .ok (c.keccak preimage, chainId)

/-- The signature items; a legacy transaction has `v = chain_id * 2 + 35 + recid`. -/
def signatureItems (tx : SignedTx) (chainId : UInt64) (recid : UInt8) : Bytes :=
  (if tx.ethTxType = 0 then encodeUint 16 (chainId.toNat * 2 + 35 + recid.toNat)
    else encodeUint 1 recid.toNat) ++
    encodeBytes (trim (tx.signature.asBytes.take 32)) ++
    encodeBytes (trim (tx.signature.asBytes.drop 32))

def signedPreimage (tx : SignedTx) (chainId : UInt64) (recid : UInt8) : Except TxAuthError Bytes := do
  let fields ← tx.evmFields chainId
  .ok (tx.envelope (fields ++ tx.signatureItems chainId recid))

def evmSignedHash (c : TxCrypto) (tx : SignedTx) (chainId : UInt64) (recid : UInt8) :
    Except TxAuthError Hash := do
  let preimage ← tx.signedPreimage chainId recid
  .ok (c.keccak preimage)

def halfN : ℕ := 0x7fffffffffffffffffffffffffffffff5d576e7357a4501ddfe92f46681b20a0

def recovers (c : TxCrypto) (tx : SignedTx) (sighash : Hash) (recid : UInt8) : Bool :=
  match c.recover sighash tx.signature recid with
  | none => false
  | some key => (c.keccak key).asBytes.drop 12 == tx.sender.asBytes.take 20

def authenticateEvm (c : TxCrypto) (tx : SignedTx) : Except TxAuthError Hash := do
  tx.checkEvmUnsignedFields
  let (sighash, chainId) ← tx.evmSighash c
  if halfN < Bytes.ofBe (tx.signature.asBytes.drop 32) then .error .highS
  else if tx.recovers c sighash 0 then tx.evmSignedHash c chainId 0
  else if tx.recovers c sighash 1 then tx.evmSignedHash c chainId 1
  else .error .badSignature

def putOptU64 : Option UInt64 → Bytes := putOption fun x => toLe 8 x.toNat

def putAccessList : Option AccessList → Bytes :=
  putOption (putList fun e => putBytes e.1 ++ putList putBytes e.2)

/-- The bytes of the first native signature version; the length of the data is cut to 32 bits. -/
def canonicalTxBytes (tx : SignedTx) : Bytes :=
  toLe 8 tx.nonce.toNat ++ tx.sender.asBytes ++ putOption PublicKey.asBytes tx.recipient ++
    toLe 16 tx.value.toNat ++ toLe 8 tx.gasLimit.toNat ++ toLe 8 tx.gasPrice.toNat ++
    toLe 4 tx.data.length ++ tx.data

def nativeTxV2Domain : Bytes := ascii "CITRATE-NATIVE-TX-V2\x00".toList

def canonicalTxBytesV2 (tx : SignedTx) : Bytes :=
  nativeTxV2Domain ++ putOptU64 tx.chainId ++ toLe 8 tx.nonce.toNat ++ tx.sender.asBytes ++
    putOption PublicKey.asBytes tx.recipient ++ toLe 16 tx.value.toNat ++ toLe 8 tx.gasLimit.toNat ++
    toLe 8 tx.gasPrice.toNat ++ putOptU64 tx.maxFeePerGas ++ putOptU64 tx.maxPriorityFeePerGas ++
    [tx.ethTxType] ++ putAccessList tx.accessList ++ putBytes tx.data

def verifyEd25519 (c : TxCrypto) (tx : SignedTx) (acceptV1 : Bool) : Option Bool :=
  if c.validKey tx.sender = false then none
  else if acceptV1 = false then
    some (!c.isWeak tx.sender && c.verifyStrict tx.sender tx.canonicalTxBytesV2 tx.signature)
  else
    some (c.verify tx.sender tx.canonicalTxBytesV2 tx.signature ||
      c.verify tx.sender tx.canonicalTxBytes tx.signature)

def verifyTransactionWithPolicy (c : TxCrypto) (tx : SignedTx) (acceptV1 : Bool) : Option Bool :=
  if isEvmShaped tx.sender then some tx.ecdsaVerified else tx.verifyEd25519 c acceptV1

def signedAsV1 (c : TxCrypto) (tx : SignedTx) : Bool :=
  c.validKey tx.sender && !c.verify tx.sender tx.canonicalTxBytesV2 tx.signature &&
    c.verify tx.sender tx.canonicalTxBytes tx.signature

def nativeTxIdDomain : Bytes := ascii "citrate:native-tx-id:v1".toList

def nativePreimage (tx : SignedTx) : Bytes :=
  nativeTxIdDomain ++ putBytes tx.canonicalTxBytes ++ tx.signature.asBytes ++ putOptU64 tx.chainId

def nativeTxId (c : TxCrypto) (tx : SignedTx) : Hash := c.keccak tx.nativePreimage

def nativeVerified (c : TxCrypto) (tx : SignedTx) (acceptV1 : Bool) : Option Bool :=
  if acceptV1 then tx.verifyEd25519 c true else tx.verifyTransactionWithPolicy c false

def authenticateNative (c : TxCrypto) (tx : SignedTx) (acceptV1 : Bool) : Except TxAuthError Hash :=
  if tx.ethTxType ≠ 0 ∨ tx.maxFeePerGas.isSome ∨ tx.maxPriorityFeePerGas.isSome ∨
      tx.accessList.isSome then
    .error (.unsignedField "EVM envelope fields on a native tx")
  else do
    tx.checkTxType
    if tx.nativeVerified c acceptV1 = some true then .ok (tx.nativeTxId c)
    else if acceptV1 = false ∧ tx.signedAsV1 c then .error .legacyNativeSignature
    else .error .badSignature

def authenticateWithPolicy (c : TxCrypto) (tx : SignedTx) (acceptNativeV1 : Bool) :
    Except TxAuthError Hash :=
  if tx.sender.asBytes.all (· == 0) then .error .emptySender
  else if isEvmShaped tx.sender then tx.authenticateEvm c
  else tx.authenticateNative c acceptNativeV1

def authenticateForBlock (c : TxCrypto) (tx : SignedTx) : Except TxAuthError Hash := do
  let canonical ← tx.authenticateWithPolicy c false
  if canonical ≠ tx.hash then .error (.hashMismatch tx.hash canonical) else .ok canonical

def verifyForBlock (c : TxCrypto) (tx : SignedTx) (chainId : UInt64) : Except TxAuthError Hash :=
  if tx.chainId ≠ some chainId then .error (.wrongChainId chainId tx.chainId)
  else tx.authenticateForBlock c

def txCommitDomain : Bytes := ascii "citrate:tx-commitment:v1".toList

def txRootV2Domain : Bytes := ascii "citrate:tx-root:v2".toList

def typeTag : TransactionType → UInt8
  | .standard => 0
  | .modelDeploy => 1
  | .modelUpdate => 2
  | .inferenceRequest => 3
  | .trainingJob => 4
  | .loraAdapter => 5

def contentPreimage (tx : SignedTx) : Bytes :=
  txCommitDomain ++ tx.hash.asBytes ++ toLe 8 tx.nonce.toNat ++ tx.sender.asBytes ++
    putOption PublicKey.asBytes tx.recipient ++ toLe 16 tx.value.toNat ++ toLe 8 tx.gasLimit.toNat ++
    toLe 8 tx.gasPrice.toNat ++ putBytes tx.data ++ tx.signature.asBytes ++
    putOption (fun t => [typeTag t]) tx.txType ++ [tx.ethTxType] ++ putOptU64 tx.maxFeePerGas ++
    putOptU64 tx.maxPriorityFeePerGas ++ putAccessList tx.accessList ++ putOptU64 tx.chainId

def txContentCommitment (sha3 : Bytes → Hash) (tx : SignedTx) : Hash := sha3 tx.contentPreimage

def txRootLegacy (sha3 : Bytes → Hash) (txs : List SignedTx) : Hash :=
  sha3 (txs.flatMap fun tx => tx.hash.asBytes)

def rootPreimage (sha3 : Bytes → Hash) (txs : List SignedTx) : Bytes :=
  txRootV2Domain ++ toLe 8 txs.length ++ txs.flatMap fun tx => (tx.txContentCommitment sha3).asBytes

def txRootV2 (sha3 : Bytes → Hash) (txs : List SignedTx) : Hash := sha3 (rootPreimage sha3 txs)

def txRootForHeight (sha3 : Bytes → Hash) (hardening : PbaHardening) (height : UInt64)
    (txs : List SignedTx) : Hash :=
  if hardening.activeAt height then txRootV2 sha3 txs else txRootLegacy sha3 txs

end SignedTx

end CitrateChain.Consensus
