import CitrateChain.Api.EthTxReading

/-! # Decoded transactions authenticate

`tx_auth` writes the signed payload and the signed encoding from the fields of the node's transaction.
Where the decoder did not have to narrow a field, these are the bytes whose signature it checked and the
part of the raw bytes that it read. -/
namespace CitrateChain.Api
open Consensus SignedTx Rlp EthTx Bytes

theorem toBe_ofNat_ofBe {n w : ℕ} {bs : Bytes} (hn : n = 8 * w) (h : bs.length = w) :
    toBe w (BitVec.ofNat n (ofBe bs)).toNat = bs := by
  have hlt := ofBe_lt bs
  rw [h, ← two_pow_eq, ← hn] at hlt
  rw [BitVec.toNat_ofNat, Nat.mod_eq_of_lt hlt, ← h, toBe_ofBe]

section Words
variable {address r s : Bytes} {n : ℕ}

theorem asBytes_embed (ha : address.length = 20) :
    (embed address).asBytes = address ++ List.replicate 12 0 := by
  refine toBe_ofNat_ofBe rfl ?_
  rw [List.length_append, ha, List.length_replicate]

theorem asBytes_signatureOf (hr : r.length = 32) (hs : s.length = 32) :
    (signatureOf r s).asBytes = r ++ s := by
  refine toBe_ofNat_ofBe rfl ?_
  rw [List.length_append, hr, hs]

theorem length_address (h : Hash) : (h.asBytes.drop 12).length = 20 := by
  rw [List.length_drop, Hash.asBytes, toBe_length]

theorem uint_ofNat (hn : n < 2 ^ 64) : uint (UInt64.ofNat n) = encodeUint 8 n := by
  rw [uint, UInt64.toNat_ofNat_of_lt' hn]

theorem uint_saturateU64 (hn : n ≤ u64Max) : uint (saturateU64 n) = encodeUint 32 n := by
  have hlt : n < 2 ^ 64 := Nat.lt_of_le_sub_one (by norm_num) hn
  rw [saturateU64, if_neg (not_lt.mpr hn), uint_ofNat hlt]
  exact (encodeUint_of_lt (by decide) (hlt.trans_eq (by norm_num))).symm

theorem encodeUint_saturateU128 (hn : n ≤ u128Max) :
    encodeUint 16 (saturateU128 n).toNat = encodeUint 32 n := by
  have hlt : n < 2 ^ 128 := Nat.lt_of_le_sub_one (by norm_num) hn
  rw [saturateU128, if_neg (not_lt.mpr hn), BitVec.toNat_ofNat, Nat.mod_eq_of_lt hlt]
  exact (encodeUint_of_lt (by decide) (hlt.trans_eq (by norm_num))).symm

end Words

section Items
variable {tx : SignedTx} {recipient : Option Bytes} {list : AccessList}

theorem appendTo_embed (htx : tx.recipient = recipient.map embed)
    (hlen : ∀ address, recipient = some address → address.length = 20) :
    tx.appendTo = .ok (encodeBytes (recipient.getD [])) := by
  unfold appendTo
  rw [htx]
  cases recipient with
  | none => rfl
  | some address =>
    have ha := hlen address rfl
    have hzero : ((address ++ List.replicate 12 0).drop 20).any (· != 0) = false := by
      rw [← ha, List.drop_left]
      decide
    dsimp only [Option.map_some, Option.getD_some]
    rw [asBytes_embed ha, hzero, if_neg Bool.false_ne_true, ← ha, List.take_left]

theorem appendKeys_of_length {keys : List Bytes} (h : ∀ key ∈ keys, key.length = 32) :
    appendKeys keys = .ok (keys.flatMap encodeBytes) := by
  induction keys with
  | nil => rfl
  | cons key keys ih =>
    obtain ⟨hkey, hkeys⟩ := List.forall_mem_cons.mp h
    rw [appendKeys, if_neg (not_not.mpr hkey), ih hkeys]
    rfl

theorem appendEntries_of_length (h : WellFormedList list) :
    appendEntries list = .ok (list.flatMap encodeEntry) := by
  induction list with
  | nil => rfl
  | cons e list ih =>
    obtain ⟨⟨haddress, hkeys⟩, hlist⟩ := List.forall_mem_cons.mp h
    rw [appendEntries, if_neg (not_not.mpr haddress), appendKeys_of_length hkeys, ih hlist]
    rfl

theorem appendAccessList_of_length (htx : tx.accessList.getD [] = list) (h : WellFormedList list) :
    tx.appendAccessList = .ok (encodeAccessList list) := by
  unfold appendAccessList
  rw [htx, appendEntries_of_length h]
  rfl

variable {chainId prio maxFee : UInt64} {toItem listItem : Bytes}

theorem evmFields_legacy (htype : tx.ethTxType = 0) (hto : tx.appendTo = .ok toItem) :
    tx.evmFields chainId = .ok (uint tx.nonce ++ uint tx.gasPrice ++
      uint tx.gasLimit ++ toItem ++ encodeUint 16 tx.value.toNat ++
      encodeBytes tx.data) := by
  unfold evmFields
  rw [if_pos htype, hto]
  rfl

theorem evmFields_accessList (htype : tx.ethTxType = 1) (hto : tx.appendTo = .ok toItem)
    (hlist : tx.appendAccessList = .ok listItem) :
    tx.evmFields chainId = .ok (uint chainId ++ uint tx.nonce ++
      uint tx.gasPrice ++ uint tx.gasLimit ++ toItem ++
      encodeUint 16 tx.value.toNat ++ encodeBytes tx.data ++ listItem) := by
  unfold evmFields
  rw [htype, if_neg (by decide), if_pos rfl, hto, hlist]
  rfl

theorem evmFields_dynamicFee (htype : tx.ethTxType = 2) (hprio : tx.maxPriorityFeePerGas = some prio)
    (hfee : tx.maxFeePerGas = some maxFee) (hto : tx.appendTo = .ok toItem)
    (hlist : tx.appendAccessList = .ok listItem) :
    tx.evmFields chainId = .ok (uint chainId ++ uint tx.nonce ++
      uint prio ++ uint maxFee ++ uint tx.gasLimit ++ toItem ++
      encodeUint 16 tx.value.toNat ++ encodeBytes tx.data ++ listItem) := by
  unfold evmFields
  rw [htype, if_neg (by decide), if_neg (by decide), if_pos rfl, hprio, hfee]
  rw [hto, hlist]
  rfl

variable {fields p r s : Bytes} {recid : UInt8}

theorem envelope_legacy (h : tx.ethTxType = 0) : tx.envelope p = encodePayload p := by
  rw [envelope, if_neg (not_not.mpr h), List.nil_append]

theorem envelope_typed (h : tx.ethTxType ≠ 0) :
    tx.envelope p = tx.ethTxType :: encodePayload p := by
  rw [envelope, if_pos h, List.singleton_append]

theorem sighashPreimage_of_fields (h : tx.evmFields chainId = .ok fields) :
    tx.sighashPreimage chainId = .ok (tx.envelope (fields ++
      if tx.ethTxType = 0 then uint chainId ++ encodeUint 1 0 ++ encodeUint 1 0
      else [])) := by
  unfold sighashPreimage
  rw [h]
  rfl

theorem signedPreimage_of_fields (h : tx.evmFields chainId = .ok fields) :
    tx.signedPreimage chainId recid =
      .ok (tx.envelope (fields ++ tx.signatureItems chainId recid)) := by
  unfold signedPreimage
  rw [h]
  rfl

theorem signatureItems_of_words (hsig : tx.signature = signatureOf r s) (hr : r.length = 32)
    (hs : s.length = 32) : tx.signatureItems chainId recid =
      (if tx.ethTxType = 0 then encodeUint 16 (chainId.toNat * 2 + 35 + recid.toNat)
        else encodeUint 1 recid.toNat) ++
      encodeBytes (trim r) ++ encodeBytes (trim s) := by
  rw [signatureItems, hsig, asBytes_signatureOf hr hs, ← hr, List.take_left, List.drop_left]

end Items

section Encodings
variable {hash : Hash} {address : Bytes} {chainId : UInt64} {recid : UInt8}

namespace LegacyTransaction
variable {t : LegacyTransaction}

theorem evmFields_toSigned (hwell : t.WellFormed) (hprice : t.gasPrice ≤ u64Max)
    (hvalue : t.value ≤ u128Max) :
    (t.toSigned hash address (some chainId)).evmFields chainId = .ok t.unsignedItems := by
  have hto : (t.toSigned hash address (some chainId)).appendTo = .ok _ :=
    appendTo_embed rfl hwell.recipient
  rw [evmFields_legacy rfl hto, toSigned]
  dsimp only
  rw [uint_ofNat hwell.nonce, uint_saturateU64 hprice, uint_ofNat hwell.gasLimit,
    encodeUint_saturateU128 hvalue, unsignedItems]

theorem encodeUint_v (hv : t.v < 2 ^ 64) (h : recovery t.v = .ok (recid, some chainId)) :
    encodeUint 16 (chainId.toNat * 2 + 35 + recid.toNat) = encodeUint 8 t.v := by
  unfold recovery at h
  split at h
  · rename_i hle
    obtain ⟨rfl, hchain⟩ := Prod.mk.inj (Except.ok.inj h)
    cases hchain
    have hrecid : (UInt8.ofNat ((t.v - 35) % 2)).toNat = (t.v - 35) % 2 :=
      toNat_ofNat_of_lt (by omega)
    have hlt : (t.v - 35) / 2 < 2 ^ 64 := by omega
    have hchain : (UInt64.ofNat ((t.v - 35) / 2)).toNat = (t.v - 35) / 2 :=
      UInt64.toNat_ofNat_of_lt' hlt
    have hsum : (t.v - 35) / 2 * 2 + 35 + (t.v - 35) % 2 = t.v := by omega
    rw [hrecid, hchain, hsum]
    exact encodeUint_of_lt (by decide) (hv.trans_eq (by norm_num))
  · split at h
    · exact nomatch (Prod.mk.inj (Except.ok.inj h)).2
    · cases h

theorem ofNat_le_one {n : ℕ} (hn : n ≤ 1) : UInt8.ofNat n = 0 ∨ UInt8.ofNat n = 1 := by
  rcases Nat.le_one_iff_eq_zero_or_eq_one.mp hn with rfl | rfl
  · exact .inl rfl
  · exact .inr rfl

theorem recid_of_recovery {v : ℕ} {chain : Option UInt64} (h : recovery v = .ok (recid, chain)) :
    recid = 0 ∨ recid = 1 := by
  unfold recovery at h
  split at h
  · obtain ⟨rfl, -⟩ := Prod.mk.inj (Except.ok.inj h)
    exact ofNat_le_one (by omega)
  · split at h
    · obtain ⟨rfl, -⟩ := Prod.mk.inj (Except.ok.inj h)
      exact ofNat_le_one (by omega)
    · cases h

end LegacyTransaction

namespace TypedTransaction
variable {t : TypedTransaction}

theorem ethTxType_ne_zero (t : TypedTransaction) : t.ethTxType ≠ 0 := by
  unfold ethTxType
  split
  · decide
  · decide

theorem evmFields_toSigned (hwell : t.WellFormed) (hchain : (t.toSigned hash address).chainId = some chainId)
    (hprice : t.gasPrice ≤ u64Max) (hprio : ∀ fee, t.priorityFee = some fee → fee ≤ u64Max)
    (hvalue : t.value ≤ u128Max) :
    (t.toSigned hash address).evmFields chainId = .ok t.unsignedItems := by
  have hto : (t.toSigned hash address).appendTo = .ok _ := appendTo_embed rfl hwell.recipient
  have hlist : (t.toSigned hash address).appendAccessList = .ok (encodeAccessList t.accessList) := by
    refine appendAccessList_of_length ?_ hwell.accessList
    rw [toSigned]
    cases t.accessList with
    | nil | cons e l => rfl
  have hid : uint chainId = encodeUint 32 t.chainId := by
    unfold toSigned at hchain
    dsimp only at hchain
    split at hchain
    · cases hchain
    · rename_i hle
      cases hchain
      have h := uint_saturateU64 (not_lt.mp hle)
      rwa [saturateU64, if_neg hle] at h
  cases hfee : t.priorityFee with
  | none =>
    have htype : (t.toSigned hash address).ethTxType = 1 := by
      rw [toSigned, ethTxType, hfee]
      rfl
    rw [evmFields_accessList htype hto hlist, hid, toSigned, unsignedItems, hfee]
    rw [uint_ofNat hwell.nonce, uint_saturateU64 hprice, uint_ofNat hwell.gasLimit,
      encodeUint_saturateU128 hvalue, List.append_nil]
  | some fee =>
    have htype : (t.toSigned hash address).ethTxType = 2 := by
      rw [toSigned, ethTxType, hfee]
      rfl
    have hprio' : (t.toSigned hash address).maxPriorityFeePerGas = some (saturateU64 fee) := by
      rw [toSigned, hfee]
      rfl
    have hfee' : (t.toSigned hash address).maxFeePerGas = some (saturateU64 t.gasPrice) := by
      rw [toSigned, hfee]
      rfl
    rw [evmFields_dynamicFee htype hprio' hfee' hto hlist, hid, toSigned, unsignedItems, hfee]
    dsimp only
    rw [uint_ofNat hwell.nonce, uint_saturateU64 hprice, uint_ofNat hwell.gasLimit,
      encodeUint_saturateU128 hvalue, uint_saturateU64 (hprio fee hfee)]

end TypedTransaction

namespace EthTx
variable {t : EthTx}

/-- No field had to be narrowed to the width of the node's transaction. -/
def Narrow : EthTx → Prop
  | legacy t _ _ => t.gasPrice ≤ u64Max ∧ t.value ≤ u128Max
  | typed t => t.gasPrice ≤ u64Max ∧ (∀ fee, t.priorityFee = some fee → fee ≤ u64Max) ∧ t.value ≤ u128Max

theorem checkEvmUnsignedFields_toSigned (t : EthTx) (hash : Hash) (address : Bytes) :
    (t.toSigned hash address).checkEvmUnsignedFields = .ok () := by
  cases t with
  | legacy t recid chainId =>
    unfold checkEvmUnsignedFields checkTxType
    simp [toSigned, LegacyTransaction.toSigned, bind, Except.bind]
  | typed t =>
    unfold checkEvmUnsignedFields checkTxType
    cases hfee : t.priorityFee <;>
      simp [toSigned, TypedTransaction.toSigned, TypedTransaction.ethTxType, hfee, bind, Except.bind]

def unsignedItems : EthTx → Bytes
  | legacy t _ _ => t.unsignedItems
  | typed t => t.unsignedItems

variable (hwell : t.WellFormed)
include hwell

theorem evmFields_toSigned (hnarrow : t.Narrow)
    (hchain : (t.toSigned hash address).chainId = some chainId) :
    (t.toSigned hash address).evmFields chainId = .ok t.unsignedItems := by
  cases t with
  | legacy t recid chainId' =>
    exact LegacyTransaction.evmFields_toSigned hwell.1 hnarrow.1 hnarrow.2
  | typed t =>
    exact TypedTransaction.evmFields_toSigned hwell hchain hnarrow.1 hnarrow.2.1 hnarrow.2.2

omit hwell in
theorem sighashPreimage_iff {fields : Bytes} (hfields : (t.toSigned hash address).evmFields chainId = .ok fields)
    (hchain : (t.toSigned hash address).chainId = some chainId) :
    (t.toSigned hash address).sighashPreimage chainId = .ok t.signable ↔ fields = t.unsignedItems := by
  have hsignable : t.signable = (t.toSigned hash address).envelope (t.unsignedItems ++
      if (t.toSigned hash address).ethTxType = 0 then uint chainId ++ encodeUint 1 0 ++ encodeUint 1 0
      else []) := by
    cases t with
    | legacy t recid chainId' =>
      obtain rfl : chainId' = some chainId := hchain
      have htype : (t.toSigned hash address (some chainId)).ethTxType = 0 := rfl
      rw [toSigned, envelope_legacy htype, if_pos htype, unsignedItems, signable,
        LegacyTransaction.signable]
    | typed t =>
      have htype : (t.toSigned hash address).ethTxType ≠ 0 := t.ethTxType_ne_zero
      rw [toSigned, envelope_typed htype, if_neg htype, List.append_nil, unsignedItems, signable,
        TypedTransaction.signable, TypedTransaction.toSigned]
  rw [sighashPreimage_of_fields hfields, hsignable, Except.ok.injEq]
  constructor
  · intro henv
    exact List.append_cancel_right (encodePayload_inj (List.append_cancel_left henv))
  · rintro rfl
    rfl

theorem asBytes_signature :
    ∃ r, r.length = 32 ∧ t.sWord.length = 32 ∧ t.signature.asBytes = r ++ t.sWord := by
  cases t with
  | legacy t recid chainId =>
    exact ⟨t.r, hwell.1.r, hwell.1.s, asBytes_signatureOf hwell.1.r hwell.1.s⟩
  | typed t => exact ⟨t.r, hwell.r, hwell.s, asBytes_signatureOf hwell.r hwell.s⟩

theorem envelope_toSigned (hchain : (t.toSigned hash address).chainId = some chainId) :
    (t.toSigned hash address).envelope
      (t.unsignedItems ++ (t.toSigned hash address).signatureItems chainId t.recid) = t.encoded := by
  cases t with
  | legacy t recid chainId' =>
    obtain rfl : chainId' = some chainId := hchain
    have htype : (t.toSigned hash address (some chainId)).ethTxType = 0 := rfl
    have hsig : (t.toSigned hash address (some chainId)).signature = signatureOf t.r t.s := rfl
    have hv := LegacyTransaction.encodeUint_v hwell.1.v hwell.2
    rw [toSigned, envelope_legacy htype, signatureItems_of_words hsig hwell.1.r hwell.1.s, if_pos htype,
      EthTx.recid, hv, unsignedItems, encoded, LegacyTransaction.encoded]
    simp only [List.append_assoc]
  | typed t =>
    have htype : (t.toSigned hash address).ethTxType ≠ 0 := t.ethTxType_ne_zero
    have hsig : (t.toSigned hash address).signature = signatureOf t.r t.s := rfl
    have hparity : encodeUint 1 (UInt8.ofNat t.yParity).toNat = encodeUint 8 t.yParity := by
      have hle := hwell.yParity
      rw [toNat_ofNat_of_lt (by omega)]
      exact (encodeUint_of_lt (by decide) (by omega)).symm
    rw [toSigned, envelope_typed htype, signatureItems_of_words hsig hwell.r hwell.s, if_neg htype,
      recid, hparity, unsignedItems, encoded, TypedTransaction.encoded, TypedTransaction.toSigned]
    simp only [List.append_assoc]

end EthTx

end Encodings

section Authentication
variable {c : TxCrypto} {tx : SignedTx} {chainId : UInt64} {recid : UInt8} {preimage signed : Bytes}

theorem authenticateEvm_of_recovers (hcheck : tx.checkEvmUnsignedFields = .ok ())
    (hchain : tx.chainId = some chainId) (hpre : tx.sighashPreimage chainId = .ok preimage)
    (hlow : ¬halfN < ofBe (tx.signature.asBytes.drop 32)) (hrecid : recid = 0 ∨ recid = 1)
    (hrecovers : tx.recovers c (c.keccak preimage) recid = true)
    (hfirst : tx.recovers c (c.keccak preimage) 0 = true → recid = 0)
    (hsigned : tx.signedPreimage chainId recid = .ok signed) :
    tx.authenticateEvm c = .ok (c.keccak signed) := by
  have hsighash : tx.evmSighash c = .ok (c.keccak preimage, chainId) := by
    unfold evmSighash
    rw [hchain]
    dsimp only
    rw [hpre]
    rfl
  have hid : tx.evmSignedHash c chainId recid = .ok (c.keccak signed) := by
    unfold evmSignedHash
    rw [hsigned]
    rfl
  refine Result.bind_eq_ok.mpr ⟨(), hcheck, Result.bind_eq_ok.mpr ⟨_, hsighash, ?_⟩⟩
  dsimp only
  rw [if_neg hlow]
  by_cases hzero : tx.recovers c (c.keccak preimage) 0 = true
  · obtain rfl := hfirst hzero
    rw [if_pos hzero, hid]
  · obtain rfl : recid = 1 := hrecid.resolve_left fun h => hzero (h ▸ hrecovers)
    rw [if_neg hzero, if_pos hrecovers, hid]

theorem authenticateWithPolicy_of_evmShaped (acceptNativeV1 : Bool) (h : isEvmShaped tx.sender = true) :
    tx.authenticateWithPolicy c acceptNativeV1 = tx.authenticateEvm c := by
  have hzero : ¬tx.sender.asBytes.all (· == 0) = true := by
    intro hall
    have hnot := (Bool.and_eq_true _ _ ▸ h).2
    rw [Bool.not_eq_true', Bool.eq_false_iff] at hnot
    refine hnot (List.all_eq_true.mpr fun b hb => ?_)
    exact List.all_eq_true.mp hall b (List.mem_of_mem_take hb)
  unfold authenticateWithPolicy
  rw [if_neg hzero, if_pos h]

variable {d : DecoderDeps} {raw key : Bytes} {t : EthTx}

theorem isEvmShaped_embed {address : Bytes} (ha : address.length = 20) (h : embed address ≠ 0) :
    isEvmShaped (embed address) = true := by
  unfold isEvmShaped
  rw [asBytes_embed ha, ← ha, List.take_left, List.drop_left, Bool.and_eq_true]
  refine ⟨by decide, ?_⟩
  rw [Bool.not_eq_true', Bool.eq_false_iff]
  intro hall
  refine h ?_
  have hzeros : address = List.replicate 20 0 := by
    rw [← ha]
    exact List.eq_replicate_of_mem fun b hb => by simpa using List.all_eq_true.mp hall b hb
  rw [hzeros]
  decide

namespace Decoded

section

variable (h : Decoded d raw t key tx)
include h

theorem signature : tx.signature = t.signature := by
  rw [h.signed]
  cases t with
  | legacy | typed => rfl

theorem sender : tx.sender = embed ((d.crypto.keccak key).asBytes.drop 12) := by
  rw [h.signed]
  cases t with
  | legacy | typed => rfl

theorem hash : tx.hash = d.crypto.keccak raw := by
  rw [h.signed]
  cases t with
  | legacy | typed => rfl

theorem recovers : tx.recovers d.crypto (d.crypto.keccak t.signable) t.recid = true := by
  have htake : ∀ address : Bytes, address.length = 20 →
      address = (address ++ List.replicate 12 0).take 20 := by
    intro address ha
    rw [← ha, List.take_left]
  unfold SignedTx.recovers
  rw [h.signature, h.recovered, h.sender, asBytes_embed (length_address _)]
  exact beq_iff_eq.mpr (htake _ (length_address _))

theorem lowS_asBytes : ¬halfN < ofBe (tx.signature.asBytes.drop 32) := by
  obtain ⟨r, hr, hs, hsig⟩ := asBytes_signature h.wellFormed
  have hlow := h.lowS
  rw [isHighS, Bool.or_eq_false_iff] at hlow
  rw [h.signature, hsig, ← hr, List.drop_left]
  exact of_decide_eq_false hlow.2

theorem recid_le : t.recid = 0 ∨ t.recid = 1 := by
  have hwell := h.wellFormed
  cases t with
  | legacy t recid chainId => exact LegacyTransaction.recid_of_recovery hwell.2
  | typed t => exact LegacyTransaction.ofNat_le_one hwell.yParity

theorem evmShaped (hsender : tx.sender ≠ 0) : isEvmShaped tx.sender = true := by
  rw [h.sender] at hsender ⊢
  exact isEvmShaped_embed (length_address _) hsender

theorem sighashPreimage (hnarrow : t.Narrow) (hchain : tx.chainId = some chainId) :
    tx.sighashPreimage chainId = .ok t.signable := by
  rw [h.signed] at hchain ⊢
  exact (sighashPreimage_iff (evmFields_toSigned h.wellFormed hnarrow hchain) hchain).mpr rfl

theorem authenticate (hnarrow : t.Narrow) (hchain : tx.chainId = some chainId)
    (hsender : tx.sender ≠ 0)
    (hfirst : tx.recovers d.crypto (d.crypto.keccak t.signable) 0 = true → t.recid = 0)
    (acceptNativeV1 : Bool) :
    tx.authenticateWithPolicy d.crypto acceptNativeV1 = .ok (d.crypto.keccak (readPart d.rlp raw)) := by
  have hcheck : tx.checkEvmUnsignedFields = .ok () := by
    rw [h.signed]
    exact t.checkEvmUnsignedFields_toSigned _ _
  have hencoded : tx.signedPreimage chainId t.recid = .ok t.encoded := by
    rw [h.signed] at hchain ⊢
    rw [signedPreimage_of_fields (evmFields_toSigned h.wellFormed hnarrow hchain),
      envelope_toSigned h.wellFormed hchain]
  rw [authenticateWithPolicy_of_evmShaped acceptNativeV1 (h.evmShaped hsender), h.read]
  exact authenticateEvm_of_recovers hcheck hchain (h.sighashPreimage hnarrow hchain) h.lowS_asBytes
    h.recid_le h.recovers hfirst hencoded

end

/-- The sender is only recovered from the bytes and with the recovery id that the decoder used. -/
def Binding (c : TxCrypto) (t : EthTx) (tx : SignedTx) : Prop :=
  ∀ chainId preimage recid, tx.chainId = some chainId → tx.sighashPreimage chainId = .ok preimage →
    tx.recovers c (c.keccak preimage) recid = true → preimage = t.signable ∧ recid = t.recid

theorem binding (h : Decoded d raw t key tx) (hnarrow : t.Narrow)
    (honly : ∀ sighash recid, tx.recovers d.crypto sighash recid = true → recid = t.recid) :
    Binding d.crypto t tx := by
  intro chainId preimage recid hchain hpre hrec
  exact ⟨Except.ok.inj (hpre.symm.trans (h.sighashPreimage hnarrow hchain)), honly _ recid hrec⟩

theorem id_eq {acceptNativeV1 : Bool} {id : Hash} (h : Decoded d raw t key tx)
    (hbind : Binding d.crypto t tx)
    (hid : tx.authenticateWithPolicy d.crypto acceptNativeV1 = .ok id) :
    id = d.crypto.keccak (readPart d.rlp raw) := by
  have hsender : tx.sender ≠ 0 := by
    intro hzero
    unfold authenticateWithPolicy at hid
    rw [if_pos (by rw [hzero]; decide)] at hid
    cases hid
  rw [authenticateWithPolicy_of_evmShaped acceptNativeV1 (h.evmShaped hsender)] at hid
  obtain ⟨chainId, recid, fields, preimage, -, hchain, -, hfields, hpre, hrec, hid⟩ :=
    authenticateEvm_ok hid
  obtain ⟨rfl, rfl⟩ := hbind chainId preimage recid hchain hpre hrec
  rw [hid, h.read]
  rw [h.signed] at hchain hpre hfields ⊢
  rw [(sighashPreimage_iff hfields hchain).mp hpre, envelope_toSigned h.wellFormed hchain]

end Decoded

end Authentication

section Authentic
variable {d : DecoderDeps} {raw : Bytes} {tx : SignedTx} {t : EthTx} {chainId : UInt64}

theorem decodeEthTransaction_eq {id : Hash} (hdec : decodeEvmTransaction d raw = .ok (some tx))
    (hid : tx.authenticateWithPolicy d.crypto true = .ok id) :
    decodeEthTransaction d raw = .ok { tx with hash := id } := by
  have hinner : decodeEthTransactionInner d raw = .ok tx := by
    unfold decodeEthTransactionInner
    rw [hdec]
    rfl
  refine Result.bind_eq_ok.mpr ⟨tx, hinner, ?_⟩
  rw [hid]

/-- An accepted EVM transaction with a chain id, whose numbers fit and all of whose bytes are read, is
authentic for its chain, and its id is the hash of the raw bytes. -/
theorem decoded_is_authentic (hdec : decodeEvmTransaction d raw = .ok (some tx))
    (hfields : fieldsOf d.rlp raw = some t) (hnarrow : t.Narrow) (hread : readPart d.rlp raw = raw)
    (hchain : tx.chainId = some chainId) (hsender : tx.sender ≠ 0)
    (hfirst : tx.recovers d.crypto (d.crypto.keccak t.signable) 0 = true → t.recid = 0) :
    decodeEthTransaction d raw = .ok tx ∧
      tx.verifyForBlock d.crypto chainId = .ok (d.crypto.keccak raw) := by
  obtain ⟨t', key, h⟩ := decodeEvmTransaction_some hdec
  obtain rfl : t' = t := Option.some.inj (h.fields.symm.trans hfields)
  have hauth := h.authenticate hnarrow hchain hsender hfirst
  rw [hread, ← h.hash] at hauth
  refine ⟨decodeEthTransaction_eq hdec (hauth true), ?_⟩
  unfold verifyForBlock authenticateForBlock
  rw [if_neg (not_not.mpr hchain), hauth false, ← h.hash]
  exact if_neg (not_not.mpr rfl)

/-- A hash that is the number in the bytes, and a key for the first recovery id. -/
def plainCrypto : TxCrypto where
  keccak bs := BitVec.ofNat 256 (ofBe bs)
  recover _ _ recid := if recid = 0 then some [1] else none
  validKey _ := false
  isWeak _ := false
  verify _ _ _ := false
  verifyStrict _ _ _ := false

def plainItem (bs : Bytes) (index : ℕ) : Except String Bytes :=
  match bs[index + 1]? with
  | some b => .ok [b]
  | none => .error "RlpIsTooShort"

def plainBytes (bs : Bytes) (index : ℕ) : Except String Bytes :=
  match bs[index + 1]? with
  | some b => if b < 128 then .ok [b] else if b = 128 then .ok [] else .error "RlpExpectedToBeData"
  | none => .error "RlpIsTooShort"

def plainNumber (bs : Bytes) (index : ℕ) : Except String ℕ := do
  let v ← plainBytes bs index
  if v.head? = some 0 then .error "RlpInvalidIndirection" else .ok (ofBe v)

theorem plainBytes_ok {bs v : Bytes} {index : ℕ} (h : plainBytes bs index = .ok v) :
    plainItem bs index = .ok (encodeBytes v) ∧ v.length ≤ 1 := by
  unfold plainBytes at h
  unfold plainItem
  split at h
  · split_ifs at h with hb hb'
    · cases h
      exact ⟨congrArg _ (if_pos hb).symm, le_rfl⟩
    · cases h
      rw [hb']
      exact ⟨rfl, Nat.zero_le _⟩
  · cases h

theorem plainNumber_ok {bs : Bytes} {index w n : ℕ} (hw : 1 ≤ w) (h : plainNumber bs index = .ok n) :
    plainItem bs index = .ok (encodeUint w n) ∧ n < 2 ^ 64 := by
  obtain ⟨v, hv, h⟩ := Result.bind_eq_ok.mp h
  obtain ⟨hitem, hlen⟩ := plainBytes_ok hv
  split_ifs at h with hzero
  cases h
  refine ⟨hitem.trans ?_, (ofBe_lt v).trans_le ?_⟩
  · rw [encodeUint, toBe_ofBe_of_le (hlen.trans hw), trim_zeros_append, trim_of_head hzero]
  · exact (Nat.pow_le_pow_right (by decide) hlen).trans (by decide)

def plainReader : Rlp.Reader where
  Error := String
  debug := id
  custom := id
  isList bs := 192 ≤ (bs.headD 0).toNat
  itemCount bs :=
    if 192 ≤ (bs.headD 0).toNat then .ok (bs.length - 1) else .error "RlpExpectedToBeList"
  payloadInfo bs := .ok (1, (bs.headD 0).toNat - 192)
  itemAt := plainItem
  bytesAt := plainBytes
  u64At := plainNumber
  u256At := plainNumber
  itemAt_of_bytesAt h := (plainBytes_ok h).1
  itemAt_of_u64At h := (plainNumber_ok (by decide) h).1
  itemAt_of_u256At h := (plainNumber_ok (by decide) h).1
  u64At_lt h := (plainNumber_ok le_rfl h).2

def plainDeps : DecoderDeps where
  rlp := plainReader
  crypto := plainCrypto
  signatureError _ _ := none
  recoverError _ _ _ := ""
  bincode _ := none

/-- An EIP-1559 transaction on chain 1, with the given item for the access list and end of the signature. -/
def sampleRaw (list last : UInt8) : Bytes :=
  [2, 204, 1, 128, 1, 2, 3, 128, 128, 128, list, 128, 5, last]

def sampleFields (last : UInt8) : TypedTransaction where
  chainId := 1
  nonce := 0
  priorityFee := some 1
  gasPrice := 2
  gasLimit := 3
  recipient := none
  value := 0
  data := []
  accessList := []
  yParity := 0
  r := List.replicate 31 0 ++ [5]
  s := List.replicate 31 0 ++ [last]

def sampleTx (list last : UInt8) : SignedTx :=
  (sampleFields last).toSigned (plainCrypto.keccak (sampleRaw list last)) (List.replicate 19 0 ++ [1])

theorem sampleFields_narrow (last : UInt8) : (typed (sampleFields last)).Narrow := by
  refine ⟨(by decide : 2 ≤ u64Max), fun fee h => ?_, (by decide : 0 ≤ u128Max)⟩
  rw [← Option.some.inj h]
  decide

theorem eq_zero_of_recovers {sighash : Hash} {recid : UInt8} (h : tx.recovers plainCrypto sighash recid = true) :
    recid = 0 := by
  by_contra hne
  have hnone : plainCrypto.recover sighash tx.signature recid = none := if_neg hne
  unfold recovers at h
  rw [hnone] at h
  cases h

theorem decoded_is_authentic_sample :
    decodeEthTransaction plainDeps (sampleRaw 192 6) = .ok (sampleTx 192 6) ∧
      (sampleTx 192 6).verifyForBlock plainCrypto 1 = .ok (plainCrypto.keccak (sampleRaw 192 6)) :=
  decoded_is_authentic rfl rfl (sampleFields_narrow 6) rfl rfl (by decide) fun _ => rfl

def unprotectedRaw : Bytes := [201, 128, 1, 1, 128, 128, 128, 27, 5, 6]

theorem unprotected_is_not_authentic : ∃ tx, decodeEvmTransaction plainDeps unprotectedRaw = .ok (some tx) ∧
    decodeEthTransaction plainDeps unprotectedRaw = .ok tx ∧
    ∀ acceptNativeV1, tx.authenticateWithPolicy plainCrypto acceptNativeV1 = .error .missingChainId :=
  ⟨_, rfl, rfl, fun acceptNativeV1 => by cases acceptNativeV1 <;> rfl⟩

theorem Decoded.hash_eq {key : Bytes} {out : SignedTx} (h : Decoded d raw t key tx)
    (hbind : Binding d.crypto t tx) (hread : readPart d.rlp raw = raw)
    (hdec : decodeEvmTransaction d raw = .ok (some tx)) (hout : decodeEthTransaction d raw = .ok out) :
    out.hash = d.crypto.keccak raw := by
  obtain ⟨u, hu, hout⟩ := Result.bind_eq_ok.mp hout
  unfold decodeEthTransactionInner at hu
  rw [hdec] at hu
  cases hu
  cases hid : tx.authenticateWithPolicy d.crypto true with
  | ok id =>
    rw [hid] at hout
    rw [← Except.ok.inj hout]
    exact (h.id_eq hbind hid).trans (congrArg _ hread)
  | error e =>
    rw [hid] at hout
    rw [← Except.ok.inj hout]
    exact h.hash

theorem sample_decoded {list last : UInt8}
    (hdec : decodeEvmTransaction plainDeps (sampleRaw list last) = .ok (some (sampleTx list last)))
    (hfields : fieldsOf plainReader (sampleRaw list last) = some (.typed (sampleFields last)))
    (hread : readPart plainReader (sampleRaw list last) = sampleRaw 192 last) :
    Decoded.Binding plainCrypto (.typed (sampleFields last)) (sampleTx list last) ∧
      decodeEthTransaction plainDeps (sampleRaw list last) = .ok (sampleTx 192 last) := by
  obtain ⟨t, key, h⟩ := decodeEvmTransaction_some hdec
  cases h.fields.symm.trans hfields
  have hsender : (sampleTx list last).sender ≠ 0 := (by decide : embed (List.replicate 19 0 ++ [1]) ≠ 0)
  have hid := h.authenticate (sampleFields_narrow last) (show _ = some 1 from rfl) hsender (fun _ => rfl) true
  rw [show readPart plainDeps.rlp _ = _ from hread] at hid
  exact ⟨h.binding (sampleFields_narrow last) fun _ _ => eq_zero_of_recovers, decodeEthTransaction_eq hdec hid⟩

end Authentic

end CitrateChain.Api
