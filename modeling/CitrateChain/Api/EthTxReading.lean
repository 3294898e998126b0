import CitrateChain.Api.EthTxDecoder
import CitrateChain.Consensus.TxIdBinding

/-! # What the decoder reads

An accepted raw transaction is the encoding of its fields, up to bytes that the decoder passes over:
bytes behind the last item of a list, items behind the address and the keys of an access-list entry,
and the contents of a byte string that stands where the access list or the keys should. -/
namespace CitrateChain.Api
open Consensus Rlp Result LegacyTransaction TypedTransaction
open Bytes (trim)

section Read
variable (rlp : Rlp.Reader)

def readKeys (item : Bytes) : Bytes :=
  encodePayload ((List.range (rlp.countOrZero item)).flatMap (rlp.item item))

def readEntry (item : Bytes) : Bytes :=
  encodePayload (rlp.item item 0 ++ readKeys rlp (rlp.item item 1))

def readAccessList (item : Bytes) : Bytes :=
  encodePayload ((List.range (rlp.countOrZero item)).flatMap fun i => readEntry rlp (rlp.item item i))

def readField (bs : Bytes) (k i : ℕ) : Bytes :=
  if i = k then readAccessList rlp (rlp.item bs i) else rlp.item bs i

def readPart : Bytes → Bytes
  | 2 :: bs => 2 :: encodePayload ((List.range 12).flatMap (readField rlp bs 8))
  | 1 :: bs => 1 :: encodePayload ((List.range 11).flatMap (readField rlp bs 7))
  | raw => encodePayload ((List.range 9).flatMap (rlp.item raw))

end Read

section Fields
variable {α : Type} {rlp : Rlp.Reader} {bs v : Bytes} {x : Except rlp.Error α} {a : α} {n index : ℕ}
  {name what : String}

theorem named_eq_ok : named name x = .ok a ↔ x = .ok a := by
  cases x with
  | ok b => exact ⟨fun h => congrArg _ (Except.ok.inj h), fun h => congrArg _ (Except.ok.inj h)⟩
  | error e => exact ⟨fun h => (nomatch h), fun h => (nomatch h)⟩

theorem u64_at (h : rlp.u64At bs index = .ok n) : rlp.item bs index = encodeUint 8 n :=
  Rlp.Reader.item_of_itemAt (rlp.itemAt_of_u64At h)

theorem u256_at (h : rlp.u256At bs index = .ok n) : rlp.item bs index = encodeUint 32 n :=
  Rlp.Reader.item_of_itemAt (rlp.itemAt_of_u256At h)

theorem bytes_at (h : rlp.bytesAt bs index = .ok v) : rlp.item bs index = encodeBytes v :=
  Rlp.Reader.item_of_itemAt (rlp.itemAt_of_bytesAt h)

theorem recipientOf_ok {ε : Type} {e : ε} {r : Option Bytes} (h : recipientOf e bs = .ok r) :
    r.getD [] = bs ∧ ∀ address, r = some address → address.length = 20 := by
  unfold recipientOf at h
  split at h
  · rename_i hnil
    cases h
    exact ⟨hnil.symm, fun _ h => nomatch h⟩
  · split at h
    · cases h
    · rename_i hlen
      cases h
      refine ⟨rfl, fun address h => ?_⟩
      cases h
      exact not_not.mp hlen

theorem canonicalSigWord_ok {w : Bytes} (h : canonicalSigWord bs what = .ok w) :
    w.length = 32 ∧ trim w = bs := by
  unfold canonicalSigWord at h
  split_ifs at h with hlen hzero
  cases h
  refine ⟨?_, ?_⟩
  · rw [List.length_append, List.length_replicate]
    omega
  · rw [Bytes.trim_zeros_append, Bytes.trim_of_head hzero]

theorem padSig_ok {w : Bytes} (h : padSig rlp bs = .ok w) : w.length = 32 ∧ trim w = bs := by
  unfold padSig at h
  cases hw : canonicalSigWord bs "legacy tx" with
  | error e =>
    rw [hw] at h
    cases h
  | ok w' =>
    rw [hw] at h
    cases h
    exact canonicalSigWord_ok hw

theorem canonicalYParity_ok {y m : ℕ} (h : canonicalYParity y = .ok m) : m = y ∧ m ≤ 1 := by
  unfold canonicalYParity at h
  split_ifs at h
  · rename_i hle
    cases h
    exact ⟨rfl, not_lt.mp hle⟩

end Fields

section AccessList
variable {rlp : Rlp.Reader} {bs item entry : Bytes} {i j n index : ℕ}

theorem parseKeys_ok {keys : List Bytes} (h : parseKeys rlp item i j n = .ok keys) :
    (List.range' j n).flatMap (rlp.item item) = keys.flatMap encodeBytes ∧
      ∀ key ∈ keys, key.length = 32 := by
  induction n generalizing j keys with
  | zero =>
    cases h
    exact ⟨rfl, List.forall_mem_nil _⟩
  | succ n ih =>
    rw [parseKeys] at h
    obtain ⟨key, hkey, h⟩ := bind_eq_ok.mp h
    split_ifs at h with hlen
    obtain ⟨rest, hrest, h⟩ := bind_eq_ok.mp h
    cases h
    obtain ⟨hflat, hall⟩ := ih hrest
    refine ⟨?_, List.forall_mem_cons.mpr ⟨not_not.mp hlen, hall⟩⟩
    rw [List.range'_succ, List.flatMap_cons, List.flatMap_cons, hflat,
      bytes_at (named_eq_ok.mp hkey)]

theorem parseEntry_ok {e : Bytes × List Bytes} (h : parseEntry rlp entry i = .ok e) :
    readEntry rlp entry = SignedTx.encodeEntry e ∧ e.1.length = 20 ∧ ∀ key ∈ e.2, key.length = 32 := by
  obtain ⟨address, haddress, h⟩ := bind_eq_ok.mp h
  split_ifs at h with hlen
  obtain ⟨keysItem, hitem, h⟩ := bind_eq_ok.mp h
  dsimp only at h
  split_ifs at h
  obtain ⟨keys, hkeys, h⟩ := bind_eq_ok.mp h
  cases h
  obtain ⟨hflat, hall⟩ := parseKeys_ok hkeys
  refine ⟨?_, not_not.mp hlen, hall⟩
  rw [readEntry, bytes_at (named_eq_ok.mp haddress),
    Rlp.Reader.item_of_itemAt (named_eq_ok.mp hitem), readKeys, List.range_eq_range', hflat]
  rfl

def WellFormedList (list : AccessList) : Prop :=
  ∀ e ∈ list, e.1.length = 20 ∧ ∀ key ∈ e.2, key.length = 32

theorem parseEntries_ok {list : AccessList} (h : parseEntries rlp item i n = .ok list) :
    ((List.range' i n).flatMap fun i => readEntry rlp (rlp.item item i)) =
        list.flatMap SignedTx.encodeEntry ∧
      WellFormedList list := by
  induction n generalizing i list with
  | zero =>
    cases h
    exact ⟨rfl, List.forall_mem_nil _⟩
  | succ n ih =>
    rw [parseEntries] at h
    obtain ⟨entry, hentry, h⟩ := bind_eq_ok.mp h
    obtain ⟨e, hparsed, h⟩ := bind_eq_ok.mp h
    obtain ⟨rest, hrest, h⟩ := bind_eq_ok.mp h
    cases h
    obtain ⟨hread, hlens⟩ := parseEntry_ok hparsed
    obtain ⟨hflat, hall⟩ := ih hrest
    refine ⟨?_, List.forall_mem_cons.mpr ⟨hlens, hall⟩⟩
    rw [List.range'_succ, List.flatMap_cons, List.flatMap_cons, hflat,
      Rlp.Reader.item_of_itemAt (named_eq_ok.mp hentry), hread]

theorem parseAccessList_ok {list : AccessList} (h : parseAccessList rlp bs index = .ok list) :
    readAccessList rlp (rlp.item bs index) = encodeAccessList list ∧ WellFormedList list := by
  obtain ⟨item, hitem, h⟩ := bind_eq_ok.mp h
  dsimp only at h
  split_ifs at h
  obtain ⟨hflat, hall⟩ := parseEntries_ok h
  refine ⟨?_, hall⟩
  rw [Rlp.Reader.item_of_itemAt (named_eq_ok.mp hitem), readAccessList, List.range_eq_range', hflat]
  rfl

end AccessList

structure Sized (recipient : Option Bytes) (r s : Bytes) : Prop where
  recipient : ∀ address, recipient = some address → address.length = 20
  r : r.length = 32
  s : s.length = 32

namespace LegacyTransaction
variable {t : LegacyTransaction} {rlp : Rlp.Reader} {raw : Bytes}

def encoded (t : LegacyTransaction) : Bytes :=
  encodePayload (t.unsignedItems ++ encodeUint 8 t.v ++ encodeBytes (trim t.r) ++
    encodeBytes (trim t.s))

structure WellFormed (t : LegacyTransaction) : Prop extends Sized t.recipient t.r t.s where
  nonce : t.nonce < 2 ^ 64
  gasLimit : t.gasLimit < 2 ^ 64
  v : t.v < 2 ^ 64

theorem decode_ok (h : decode rlp raw = .ok t) :
    encodePayload ((List.range 9).flatMap (rlp.item raw)) = t.encoded ∧ t.WellFormed := by
  simp only [decode, bind_eq_ok] at h
  obtain ⟨nonce, hnonce, gasPrice, hgasPrice, gasLimit, hgasLimit, toBytes, htoBytes,
    recipient, hrecipient, value, hvalue, data, hdata, v, hv, rBytes, hrBytes, r, hr,
    sBytes, hsBytes, s, hs, h⟩ := h
  cases h
  obtain ⟨rfl, haddress⟩ := recipientOf_ok hrecipient
  obtain ⟨hrlen, rfl⟩ := padSig_ok hr
  obtain ⟨hslen, rfl⟩ := padSig_ok hs
  refine ⟨?_, ⟨haddress, hrlen, hslen⟩, rlp.u64At_lt hnonce, rlp.u64At_lt hgasLimit, rlp.u64At_lt hv⟩
  simp [List.range_succ, encoded, unsignedItems, u64_at hnonce, u256_at hgasPrice, u64_at hgasLimit,
    bytes_at htoBytes, u256_at hvalue, bytes_at hdata, u64_at hv, bytes_at hrBytes, bytes_at hsBytes]

end LegacyTransaction

namespace TypedTransaction
variable {t : TypedTransaction} {body : TypedBody} {rlp : Rlp.Reader} {bs : Bytes} {k : ℕ}

def encoded (t : TypedTransaction) : Bytes :=
  t.ethTxType :: encodePayload (t.unsignedItems ++ encodeUint 8 t.yParity ++
    encodeBytes (trim t.r) ++ encodeBytes (trim t.s))

structure WellFormedBody (body : TypedBody) : Prop extends Sized body.recipient body.r body.s where
  gasLimit : body.gasLimit < 2 ^ 64
  accessList : WellFormedList body.accessList
  yParity : body.yParity ≤ 1

structure WellFormed (t : TypedTransaction) : Prop extends WellFormedBody t.toTypedBody where
  nonce : t.nonce < 2 ^ 64

def bodyItems (body : TypedBody) : Bytes :=
  encodeUint 8 body.gasLimit ++ encodeBytes (body.recipient.getD []) ++ encodeUint 32 body.value ++
    encodeBytes body.data ++ encodeAccessList body.accessList ++ encodeUint 8 body.yParity ++
    encodeBytes (trim body.r) ++ encodeBytes (trim body.s)

theorem decodeBody_ok (h : decodeBody rlp bs k = .ok body) :
    (List.range' k 8).flatMap (readField rlp bs (k + 4)) = bodyItems body ∧ WellFormedBody body := by
  simp only [decodeBody, bind_eq_ok, named_eq_ok] at h
  obtain ⟨gasLimit, hgasLimit, toBytes, htoBytes, recipient, hrecipient, value, hvalue,
    data, hdata, accessList, haccess, y, hy, yParity, hparity, rBytes, hrBytes, r, hr,
    sBytes, hsBytes, s, hs, h⟩ := h
  cases h
  obtain ⟨rfl, haddress⟩ := recipientOf_ok hrecipient
  obtain ⟨hread, hwell⟩ := parseAccessList_ok haccess
  obtain ⟨hrlen, rfl⟩ := canonicalSigWord_ok hr
  obtain ⟨hslen, rfl⟩ := canonicalSigWord_ok hs
  obtain ⟨rfl, hle⟩ := canonicalYParity_ok hparity
  refine ⟨?_, ⟨haddress, hrlen, hslen⟩, rlp.u64At_lt hgasLimit, hwell, hle⟩
  rw [List.range'_eq_map_range]
  simp [List.range_succ, bodyItems, readField, hread, u64_at hgasLimit, bytes_at htoBytes,
    u256_at hvalue, bytes_at hdata, u64_at hy, bytes_at hrBytes, bytes_at hsBytes]

theorem decodeEip1559_ok (h : decodeEip1559 rlp bs = .ok t) :
    readPart rlp (2 :: bs) = t.encoded ∧ t.WellFormed := by
  unfold decodeEip1559 at h
  split_ifs at h
  simp only [bind_eq_ok, named_eq_ok] at h
  obtain ⟨-, -, chainId, hchainId, nonce, hnonce, prio, hprio, fee, hfee, body, hbody, h⟩ := h
  cases h
  obtain ⟨hread, hwell⟩ := decodeBody_ok hbody
  have hrange : List.range 12 = [0, 1, 2, 3] ++ List.range' 4 8 := rfl
  refine ⟨?_, hwell, rlp.u64At_lt hnonce⟩
  rw [readPart, hrange, List.flatMap_append, hread]
  simp [readField, bodyItems, encoded, unsignedItems, ethTxType, u256_at hchainId, u64_at hnonce,
    u256_at hprio, u256_at hfee]

theorem decodeEip2930_ok (h : decodeEip2930 rlp bs = .ok t) :
    readPart rlp (1 :: bs) = t.encoded ∧ t.WellFormed := by
  unfold decodeEip2930 at h
  split_ifs at h
  simp only [bind_eq_ok, named_eq_ok] at h
  obtain ⟨-, -, chainId, hchainId, nonce, hnonce, price, hprice, body, hbody, h⟩ := h
  cases h
  obtain ⟨hread, hwell⟩ := decodeBody_ok hbody
  have hrange : List.range 11 = [0, 1, 2] ++ List.range' 3 8 := rfl
  refine ⟨?_, hwell, rlp.u64At_lt hnonce⟩
  rw [readPart, hrange, List.flatMap_append, hread]
  simp [readField, bodyItems, encoded, unsignedItems, ethTxType, u256_at hchainId, u64_at hnonce,
    u256_at hprice]

end TypedTransaction

/-- The fields of an EVM transaction; `v` of a legacy one holds a recovery id and perhaps a chain id. -/
inductive EthTx
  | legacy (t : LegacyTransaction) (recid : UInt8) (chainId : Option UInt64)
  | typed (t : TypedTransaction)

namespace EthTx

def signable : EthTx → Bytes
  | legacy t _ chainId => t.signable chainId
  | typed t => t.signable

def encoded : EthTx → Bytes
  | legacy t _ _ => t.encoded
  | typed t => t.encoded

def recid : EthTx → UInt8
  | legacy _ recid _ => recid
  | typed t => UInt8.ofNat t.yParity

def signature : EthTx → Signature
  | legacy t _ _ => signatureOf t.r t.s
  | typed t => signatureOf t.r t.s

def sWord : EthTx → Bytes
  | legacy t _ _ => t.s
  | typed t => t.s

def toSigned (hash : Hash) (address : Bytes) : EthTx → SignedTx
  | legacy t _ chainId => t.toSigned hash address chainId
  | typed t => t.toSigned hash address

def WellFormed : EthTx → Prop
  | legacy t recid chainId => t.WellFormed ∧ recovery t.v = .ok (recid, chainId)
  | typed t => t.WellFormed

end EthTx

def fieldsOf (rlp : Rlp.Reader) : Bytes → Option EthTx
  | 2 :: bs => (decodeEip1559 rlp bs).toOption.map .typed
  | 1 :: bs => (decodeEip2930 rlp bs).toOption.map .typed
  | raw => do
    let t ← (decode rlp raw).toOption
    let (recid, chainId) ← (recovery t.v).toOption
    some (.legacy t recid chainId)

section Accepted
variable {d : DecoderDeps} {raw bs : Bytes} {tx : SignedTx} {bad failed : String} {h : Hash}
  {sig : Signature} {recid : UInt8} {address : Bytes}

theorem recoverSender_ok (hok : recoverSender d bad failed h sig recid = .ok address) :
    ∃ key, d.crypto.recover h sig recid = some key ∧
      address = (d.crypto.keccak key).asBytes.drop 12 := by
  unfold recoverSender at hok
  split at hok
  · rename_i key hkey
    exact ⟨key, hkey, (Except.ok.inj hok).symm⟩
  · split at hok
    · cases hok
    · cases hok

/-- An accepted transaction: its fields, what is read of the raw bytes, and the recovered sender. -/
structure Decoded (d : DecoderDeps) (raw : Bytes) (t : EthTx) (key : Bytes) (tx : SignedTx) : Prop where
  fields : fieldsOf d.rlp raw = some t
  read : readPart d.rlp raw = t.encoded
  wellFormed : t.WellFormed
  lowS : isHighS t.sWord = false
  recovered : d.crypto.recover (d.crypto.keccak t.signable) t.signature t.recid = some key
  signed : tx = t.toSigned (d.crypto.keccak raw) ((d.crypto.keccak key).asBytes.drop 12)

theorem typedTransaction_ok {t : TypedTransaction} (hok : typedTransaction d raw t = .ok tx)
    (hfields : fieldsOf d.rlp raw = some (.typed t)) (hread : readPart d.rlp raw = t.encoded) (hwell : t.WellFormed) :
    ∃ key, Decoded d raw (.typed t) key tx := by
  unfold typedTransaction at hok
  split_ifs at hok with hlow
  obtain ⟨address, haddress, hok⟩ := bind_eq_ok.mp hok
  obtain ⟨key, hkey, haddr⟩ := recoverSender_ok haddress
  refine ⟨key, hfields, hread, hwell, Bool.eq_false_iff.mpr hlow, hkey, ?_⟩
  rw [← haddr]
  exact (Except.ok.inj hok).symm

theorem legacyTransaction_ok {t : LegacyTransaction} (hok : legacyTransaction d raw t = .ok tx)
    (ht : decode d.rlp raw = .ok t) (h2 : ∀ bs, raw = 2 :: bs → False)
    (h1 : ∀ bs, raw = 1 :: bs → False) : ∃ t key, Decoded d raw t key tx := by
  obtain ⟨-, -, hok⟩ := bind_eq_ok.mp hok
  obtain ⟨⟨recid, chainId⟩, hrec, hok⟩ := bind_eq_ok.mp hok
  dsimp only at hok
  split_ifs at hok with hlow
  obtain ⟨address, haddress, hok⟩ := bind_eq_ok.mp hok
  obtain ⟨key, hkey, haddr⟩ := recoverSender_ok haddress
  obtain ⟨hread, hwell⟩ := decode_ok ht
  refine ⟨.legacy t recid chainId, key, ?_, ?_, ⟨hwell, hrec⟩, Bool.eq_false_iff.mpr hlow, hkey, ?_⟩
  · rw [fieldsOf, ht]
    · exact congrArg (fun x => Option.bind (Except.toOption x) _) hrec
    · exact h2
    · exact h1
  · rw [readPart]
    · exact hread
    · exact h2
    · exact h1
  · rw [← haddr]
    exact (Except.ok.inj hok).symm

theorem decodeEvmTransaction_some (hok : decodeEvmTransaction d raw = .ok (some tx)) :
    ∃ t key, Decoded d raw t key tx := by
  unfold decodeEvmTransaction at hok
  split at hok
  · cases hok
  · obtain ⟨tx', hdec, htx⟩ := map_eq_ok.mp hok
    cases htx
    obtain ⟨t, ht, hdec⟩ := bind_eq_ok.mp hdec
    obtain ⟨hread, hwell⟩ := decodeEip1559_ok ht
    refine ⟨.typed t, typedTransaction_ok hdec ?_ hread hwell⟩
    rw [fieldsOf, ht]
    rfl
  · obtain ⟨tx', hdec, htx⟩ := map_eq_ok.mp hok
    cases htx
    obtain ⟨t, ht, hdec⟩ := bind_eq_ok.mp hdec
    obtain ⟨hread, hwell⟩ := decodeEip2930_ok ht
    refine ⟨.typed t, typedTransaction_ok hdec ?_ hread hwell⟩
    rw [fieldsOf, ht]
    rfl
  · rename_i hnil h2 h1
    split at hok
    · split at hok
      · rename_i t ht
        obtain ⟨tx', hdec, htx⟩ := map_eq_ok.mp hok
        cases htx
        exact legacyTransaction_ok hdec ht h2 h1
      · cases hok
    · cases hok

end Accepted

end CitrateChain.Api
