import CitrateChain.Consensus.TxAuth

/-! # Decoding raw transactions

`decode_eth_transaction` reads a legacy, EIP-2930 or EIP-1559 transaction, recovers its sender from the
signature and builds the node's transaction from it. What is not such a transaction may still be the
`bincode` form of a native one. The id of the result is the one that authentication computes, and the
hash of the raw bytes where authentication fails. -/
namespace CitrateChain.Api
open Consensus Rlp

structure DecoderDeps where
  rlp : Rlp.Reader
  crypto : TxCrypto
  signatureError : Signature → UInt8 → Option String
  recoverError : Hash → Signature → UInt8 → String
  bincode : Bytes → Option SignedTx

def named {α : Type} {r : Rlp.Reader} (name : String) (x : Except r.Error α) : Except String α :=
  x.mapError fun e => s!"{name}: {r.debug e}"

def requireCanonicalList (r : Rlp.Reader) (bs : Bytes) (count : ℕ) (what : String) : Except String Unit :=
  match r.itemCount bs with
  | .error e => .error s!"{what}: bad RLP list: {r.debug e}"
  | .ok n =>
    if n ≠ count then .error s!"{what}: expected {count} RLP list items, got {n}"
    else match r.payloadInfo bs with
      | .error e => .error s!"{what}: bad RLP header: {r.debug e}"
      | .ok (header, value) =>
        if header + value ≠ bs.length then .error s!"{what}: trailing bytes after the RLP list"
        else .ok ()

def canonicalSigWord (bs : Bytes) (what : String) : Except String Bytes :=
  if 32 < bs.length then .error s!"{what}: signature value longer than 32 bytes"
  else if bs.head? = some 0 then .error s!"{what}: signature value has a leading zero byte"
  else .ok (List.replicate (32 - bs.length) 0 ++ bs)

def canonicalYParity (y : ℕ) : Except String ℕ :=
  if 1 < y then .error s!"yParity must be 0 or 1, got {y}" else .ok y

def recipientOf {ε : Type} (invalid : ε) (bs : Bytes) : Except ε (Option Bytes) :=
  if bs = [] then .ok none
  else if bs.length ≠ 20 then .error invalid
  else .ok (some bs)

def isHighS (s : Bytes) : Bool := s.length ≠ 32 || SignedTx.halfN < Bytes.ofBe s

def embed (address : Bytes) : PublicKey := BitVec.ofNat 256 (Bytes.ofBe (address ++ List.replicate 12 0))

def signatureOf (r s : Bytes) : Signature := BitVec.ofNat 512 (Bytes.ofBe (r ++ s))

def u64Max : ℕ := 2 ^ 64 - 1

def u128Max : ℕ := 2 ^ 128 - 1

def saturateU64 (n : ℕ) : UInt64 := if u64Max < n then UInt64.ofNat u64Max else UInt64.ofNat n

def saturateU128 (n : ℕ) : BitVec 128 :=
  if u128Max < n then BitVec.ofNat 128 u128Max else BitVec.ofNat 128 n

def recoverSender (d : DecoderDeps) (badSignature failed : String) (sighash : Hash) (sig : Signature)
    (recid : UInt8) : Except String Bytes :=
  match d.crypto.recover sighash sig recid with
  | some key => .ok ((d.crypto.keccak key).asBytes.drop 12)
  | none =>
    match d.signatureError sig recid with
    | some e => .error s!"{badSignature}: {e}"
    | none => .error s!"{failed}: {d.recoverError sighash sig recid}"

structure LegacyTransaction where
  nonce : ℕ
  gasPrice : ℕ
  gasLimit : ℕ
  /-- The `to` address of the source. -/
  recipient : Option Bytes
  value : ℕ
  data : Bytes
  v : ℕ
  r : Bytes
  s : Bytes
  deriving DecidableEq

namespace LegacyTransaction

def padSig (rlp : Rlp.Reader) (bs : Bytes) : Except rlp.Error Bytes :=
  (canonicalSigWord bs "legacy tx").mapError fun _ => rlp.custom "non-canonical signature value"

def decode (rlp : Rlp.Reader) (bs : Bytes) : Except rlp.Error LegacyTransaction := do
  let nonce ← rlp.u64At bs 0
  let gasPrice ← rlp.u256At bs 1
  let gasLimit ← rlp.u64At bs 2
  let toBytes ← rlp.bytesAt bs 3
  let recipient ← recipientOf (rlp.custom "invalid to address length") toBytes
  let value ← rlp.u256At bs 4
  let data ← rlp.bytesAt bs 5
  let v ← rlp.u64At bs 6
  let rBytes ← rlp.bytesAt bs 7
  let r ← padSig rlp rBytes
  let sBytes ← rlp.bytesAt bs 8
  let s ← padSig rlp sBytes
  .ok { nonce, gasPrice, gasLimit, recipient, value, data, v, r, s }

/-- The recovery id and the chain id in `v`, which is `chain_id * 2 + 35 + recid` since EIP-155. -/
def recovery (v : ℕ) : Except String (UInt8 × Option UInt64) :=
  if 35 ≤ v then .ok (UInt8.ofNat ((v - 35) % 2), some (UInt64.ofNat ((v - 35) / 2)))
  else if v = 27 ∨ v = 28 then .ok (UInt8.ofNat (v - 27), none)
  else .error s!"Invalid v value: {v}"

def unsignedItems (t : LegacyTransaction) : Bytes :=
  encodeUint 8 t.nonce ++ encodeUint 32 t.gasPrice ++ encodeUint 8 t.gasLimit ++
    encodeBytes (t.recipient.getD []) ++ encodeUint 32 t.value ++ encodeBytes t.data

def signable (t : LegacyTransaction) (chainId : Option UInt64) : Bytes :=
  encodePayload (t.unsignedItems ++
    match chainId with
    | some chainId => SignedTx.uint chainId ++ encodeUint 1 0 ++ encodeUint 1 0
    | none => [])

def toSigned (t : LegacyTransaction) (hash : Hash) (address : Bytes) (chainId : Option UInt64) :
    SignedTx where
  hash
  sender := embed address
  recipient := t.recipient.map embed
  value := saturateU128 t.value
  data := t.data
  nonce := UInt64.ofNat t.nonce
  gasPrice := saturateU64 t.gasPrice
  gasLimit := UInt64.ofNat t.gasLimit
  signature := signatureOf t.r t.s
  txType := some (TransactionType.fromData t.data)
  ethTxType := 0
  chainId
  ecdsaVerified := true

end LegacyTransaction

def legacyTransaction (d : DecoderDeps) (raw : Bytes) (t : LegacyTransaction) : Except String SignedTx := do
  requireCanonicalList d.rlp raw 9 "legacy tx"
  let (recid, chainId) ← LegacyTransaction.recovery t.v
  if isHighS t.s then
    .error "EIP-2 violation: signature s-value is not in the low half-order (malleable signature rejected)"
  else do
    let address ← recoverSender d "Invalid recoverable signature" "ECDSA recovery failed"
      (d.crypto.keccak (t.signable chainId)) (signatureOf t.r t.s) recid
    .ok (t.toSigned (d.crypto.keccak raw) address chainId)

def maxAccessListEntries : ℕ := 1024

def maxStorageKeysPerEntry : ℕ := 1024

section AccessList
variable (rlp : Rlp.Reader)

def parseKeys (item : Bytes) (i : ℕ) : ℕ → ℕ → Except String (List Bytes)
  | _, 0 => .ok []
  | j, n + 1 => do
    let key ← named s!"storage_key[{j}]" (rlp.bytesAt item j)
    if key.length ≠ 32 then
      .error s!"H-API-02: access list entry[{i}].storage_key[{j}] is {key.length} bytes; expected 32"
    else do
      let keys ← parseKeys item i (j + 1) n
      .ok (key :: keys)

/-- Entry `i`. Items behind the address and the keys are not looked at. -/
def parseEntry (entry : Bytes) (i : ℕ) : Except String (Bytes × List Bytes) := do
  let address ← named "address" (rlp.bytesAt entry 0)
  if address.length ≠ 20 then
    .error s!"H-API-02: access list address[{i}] is {address.length} bytes; expected 20"
  else do
    let keysItem ← named "storage_keys" (rlp.itemAt entry 1)
    let keyCount := rlp.countOrZero keysItem
    if maxStorageKeysPerEntry < keyCount then
      .error s!"H-API-02: access list entry[{i}] has {keyCount} storage keys; max is {maxStorageKeysPerEntry}"
    else do
      let keys ← parseKeys rlp keysItem i 0 keyCount
      .ok (address, keys)

def parseEntries (list : Bytes) : ℕ → ℕ → Except String AccessList
  | _, 0 => .ok []
  | i, n + 1 => do
    let entry ← named s!"access_entry[{i}]" (rlp.itemAt list i)
    let parsed ← parseEntry rlp entry i
    let rest ← parseEntries list (i + 1) n
    .ok (parsed :: rest)

def parseAccessList (bs : Bytes) (index : ℕ) : Except String AccessList := do
  let list ← named "access_list" (rlp.itemAt bs index)
  let itemCount := rlp.countOrZero list
  if maxAccessListEntries < itemCount then
    .error s!"H-API-02: access list has {itemCount} entries; max is {maxAccessListEntries}"
  else parseEntries rlp list 0 itemCount

end AccessList

def encodeAccessList (list : AccessList) : Bytes :=
  encodePayload (list.flatMap fun e =>
    encodePayload (encodeBytes e.1 ++ encodePayload (e.2.flatMap encodeBytes)))

structure TypedBody where
  gasLimit : ℕ
  /-- The `to` address of the source. -/
  recipient : Option Bytes
  value : ℕ
  data : Bytes
  accessList : AccessList
  yParity : ℕ
  r : Bytes
  s : Bytes
  deriving DecidableEq

/-- The fields of a typed transaction; only EIP-1559 has a priority fee, and its price is the maximal
fee. -/
structure TypedTransaction extends TypedBody where
  chainId : ℕ
  nonce : ℕ
  priorityFee : Option ℕ
  gasPrice : ℕ
  deriving DecidableEq

namespace TypedTransaction

def decodeBody (rlp : Rlp.Reader) (bs : Bytes) (k : ℕ) : Except String TypedBody := do
  let gasLimit ← named "gasLimit" (rlp.u64At bs k)
  let toBytes ← named "to" (rlp.bytesAt bs (k + 1))
  let recipient ← recipientOf "invalid to address length (expected 20 bytes)" toBytes
  let value ← named "value" (rlp.u256At bs (k + 2))
  let data ← named "data" (rlp.bytesAt bs (k + 3))
  let accessList ← parseAccessList rlp bs (k + 4)
  let y ← named "yParity" (rlp.u64At bs (k + 5))
  let yParity ← canonicalYParity y
  let rBytes ← named "r" (rlp.bytesAt bs (k + 6))
  let r ← canonicalSigWord rBytes "r"
  let sBytes ← named "s" (rlp.bytesAt bs (k + 7))
  let s ← canonicalSigWord sBytes "s"
  .ok { gasLimit, recipient, value, data, accessList, yParity, r, s }

def decodeEip1559 (rlp : Rlp.Reader) (bs : Bytes) : Except String TypedTransaction :=
  if !rlp.isList bs then .error "Invalid EIP-1559 RLP payload"
  else do
    requireCanonicalList rlp bs 12 "EIP-1559 tx"
    let chainId ← named "chainId" (rlp.u256At bs 0)
    let nonce ← named "nonce" (rlp.u64At bs 1)
    let maxPriorityFee ← named "maxPrioFee" (rlp.u256At bs 2)
    let maxFee ← named "maxFee" (rlp.u256At bs 3)
    let body ← decodeBody rlp bs 4
    .ok { body with chainId, nonce, priorityFee := some maxPriorityFee, gasPrice := maxFee }

def decodeEip2930 (rlp : Rlp.Reader) (bs : Bytes) : Except String TypedTransaction :=
  if !rlp.isList bs then .error "Invalid EIP-2930 RLP payload"
  else do
    requireCanonicalList rlp bs 11 "EIP-2930 tx"
    let chainId ← named "chainId" (rlp.u256At bs 0)
    let nonce ← named "nonce" (rlp.u64At bs 1)
    let gasPrice ← named "gasPrice" (rlp.u256At bs 2)
    let body ← decodeBody rlp bs 3
    .ok { body with chainId, nonce, priorityFee := none, gasPrice }

def ethTxType (t : TypedTransaction) : UInt8 := if t.priorityFee.isSome then 2 else 1

def unsignedItems (t : TypedTransaction) : Bytes :=
  encodeUint 32 t.chainId ++ encodeUint 8 t.nonce ++
    (match t.priorityFee with
      | some fee => encodeUint 32 fee
      | none => []) ++
    encodeUint 32 t.gasPrice ++ encodeUint 8 t.gasLimit ++
    encodeBytes (t.recipient.getD []) ++ encodeUint 32 t.value ++ encodeBytes t.data ++
    encodeAccessList t.accessList

def signable (t : TypedTransaction) : Bytes := t.ethTxType :: encodePayload t.unsignedItems

def toSigned (t : TypedTransaction) (hash : Hash) (address : Bytes) : SignedTx where
  hash
  sender := embed address
  recipient := t.recipient.map embed
  value := saturateU128 t.value
  gasLimit := UInt64.ofNat t.gasLimit
  gasPrice := saturateU64 t.gasPrice
  data := t.data
  nonce := UInt64.ofNat t.nonce
  signature := signatureOf t.r t.s
  txType := some (TransactionType.fromData t.data)
  ethTxType := t.ethTxType
  maxFeePerGas := t.priorityFee.map fun _ => saturateU64 t.gasPrice
  maxPriorityFeePerGas := t.priorityFee.map saturateU64
  accessList := if t.accessList.isEmpty then none else some t.accessList
  chainId := if u64Max < t.chainId then none else some (UInt64.ofNat t.chainId)
  ecdsaVerified := true

end TypedTransaction

def typedTransaction (d : DecoderDeps) (raw : Bytes) (t : TypedTransaction) : Except String SignedTx :=
  if isHighS t.s then .error "EIP-2 violation: high-s signature rejected"
  else do
    let address ← recoverSender d "bad recsig" "recover" (d.crypto.keccak t.signable)
      (signatureOf t.r t.s) (UInt8.ofNat t.yParity)
    .ok (t.toSigned (d.crypto.keccak raw) address)

def decodeEip1559Transaction (d : DecoderDeps) (bs : Bytes) : Except String SignedTx := do
  let t ← TypedTransaction.decodeEip1559 d.rlp bs
  typedTransaction d (2 :: bs) t

def decodeEip2930Transaction (d : DecoderDeps) (bs : Bytes) : Except String SignedTx := do
  let t ← TypedTransaction.decodeEip2930 d.rlp bs
  typedTransaction d (1 :: bs) t

/-- The bytes as an EVM transaction; `none` is left to the native format. -/
def decodeEvmTransaction (d : DecoderDeps) : Bytes → Except String (Option SignedTx)
  | [] => .error "Empty transaction data"
  | 2 :: rest => some <$> decodeEip1559Transaction d rest
  | 1 :: rest => some <$> decodeEip2930Transaction d rest
  | raw =>
    if d.rlp.isList raw then
      match LegacyTransaction.decode d.rlp raw with
      | .ok t => some <$> legacyTransaction d raw t
      | .error _ => .ok none
    else .ok none

def maxBincodeBytes : ℕ := 256 * 1024

/-- The native format; the flag of a checked signature is never taken from the wire. -/
def decodeNativeTransaction (d : DecoderDeps) (raw : Bytes) : Except String SignedTx :=
  if maxBincodeBytes < raw.length then
    .error "Transaction too large for bincode path (max 256KB)"
  else match d.bincode raw with
    | some tx =>
      .ok { tx with
        ecdsaVerified := false
        hash := if tx.hash = 0 then d.crypto.keccak raw else tx.hash }
    | none => .error "Invalid RLP: expected a list for legacy transaction"

def decodeEthTransactionInner (d : DecoderDeps) (raw : Bytes) : Except String SignedTx := do
  match ← decodeEvmTransaction d raw with
  | some tx => .ok tx
  | none => decodeNativeTransaction d raw

def decodeEthTransaction (d : DecoderDeps) (raw : Bytes) : Except String SignedTx := do
  let tx ← decodeEthTransactionInner d raw
  match tx.authenticateWithPolicy d.crypto true with
  | .ok canonical => .ok { tx with hash := canonical }
  | .error _ => .ok tx

end CitrateChain.Api
