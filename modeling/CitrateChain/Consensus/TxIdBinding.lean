import CitrateChain.Consensus.TxAuth

/-! # The transaction id binds the transaction

Each of the encodings behind an id can be read back, and their first bytes tell them apart: a legacy
list starts above 191, a typed envelope with its type, a native id with its domain tag. -/
namespace CitrateChain.Consensus
open Rlp Result Bytes

theorem PublicKey.asBytes_length (k : PublicKey) : k.asBytes.length = 32 := toBe_length 32 _

theorem PublicKey.asBytes_inj {k k' : PublicKey} (h : k.asBytes = k'.asBytes) : k = k' :=
  BitVec.eq_of_toNat_eq (toBe_inj (toNat_lt 32 k) (toNat_lt 32 k') h)

theorem PublicKey.eq_of_take {k k' : PublicKey} (hz : ∀ x ∈ k.asBytes.drop 20, x = 0)
    (hz' : ∀ x ∈ k'.asBytes.drop 20, x = 0) (h : k.asBytes.take 20 = k'.asBytes.take 20) : k = k' := by
  have htail : k.asBytes.drop 20 = k'.asBytes.drop 20 := by
    rw [List.eq_replicate_of_mem hz, List.eq_replicate_of_mem hz', List.length_drop, List.length_drop,
      k.asBytes_length, k'.asBytes_length]
  apply PublicKey.asBytes_inj
  rw [← List.take_append_drop 20 k.asBytes, h, htail, List.take_append_drop]

theorem Signature.asBytes_length (sig : Signature) : sig.asBytes.length = 64 := Bytes.toBe_length 64 _

theorem Signature.toNat_lt (sig : Signature) : sig.toNat < 256 ^ 64 := Bytes.toNat_lt 64 sig

theorem Signature.asBytes_inj {sig sig' : Signature} (h : sig.asBytes = sig'.asBytes) : sig = sig' :=
  BitVec.eq_of_toNat_eq (toBe_inj sig.toNat_lt sig'.toNat_lt h)

namespace SignedTx
variable {c : TxCrypto} {tx a b : SignedTx} {s t x y : Bytes}

def recipientBytes : Option PublicKey → Bytes
  | some key => key.asBytes.take 20
  | none => []

theorem recipientBytes_length (r : Option PublicKey) : (recipientBytes r).length < 2 ^ 64 := by
  cases r with
  | none => decide
  | some k =>
    rw [recipientBytes, List.length_take]
    omega

theorem appendTo_ok (h : tx.appendTo = .ok x) : x = encodeBytes (recipientBytes tx.recipient) ∧
    ∀ k, tx.recipient = some k → ∀ y ∈ k.asBytes.drop 20, y = 0 := by
  unfold appendTo at h
  split at h
  · rename_i key hkey
    split_ifs at h with hz
    refine ⟨by rw [← Except.ok.inj h, hkey]; rfl, ?_⟩
    intro k hk y hy
    cases hkey.symm.trans hk
    simp only [List.any_eq_true, not_exists, not_and, bne_iff_ne, ne_eq, not_not] at hz
    exact hz y hy
  · rename_i hnone
    refine ⟨by rw [← Except.ok.inj h, hnone]; rfl, ?_⟩
    intro k hk
    cases hnone.symm.trans hk

theorem appendTo_unambiguous (ha : a.appendTo = .ok x) (hb : b.appendTo = .ok y)
    (h : x ++ s = y ++ t) : a.recipient = b.recipient ∧ s = t := by
  obtain ⟨rfl, hza⟩ := appendTo_ok ha
  obtain ⟨rfl, hzb⟩ := appendTo_ok hb
  obtain ⟨hbytes, hst⟩ := encodeBytes_unambiguous (recipientBytes_length _)
    (recipientBytes_length _) h
  refine ⟨?_, hst⟩
  have hne : ∀ k, recipientBytes (some k) ≠ recipientBytes none := fun k hk => by
    simpa [recipientBytes, k.asBytes_length] using congrArg List.length hk
  cases hra : a.recipient <;> cases hrb : b.recipient <;> rw [hra, hrb] at hbytes
  · exact absurd hbytes.symm (hne _)
  · exact absurd hbytes (hne _)
  · rw [PublicKey.eq_of_take (hza _ hra) (hzb _ hrb) hbytes]

def encodeEntry (e : Bytes × List Bytes) : Bytes :=
  encodePayload (encodeBytes e.1 ++ encodePayload (e.2.flatMap encodeBytes))

theorem appendKeys_ok {keys : List Bytes} (h : appendKeys keys = .ok x) :
    x = keys.flatMap encodeBytes ∧ ∀ k ∈ keys, k.length = 32 := by
  induction keys generalizing x with
  | nil =>
    rw [← Except.ok.inj h]
    exact ⟨rfl, nofun⟩
  | cons key keys ih =>
    rw [appendKeys] at h
    split_ifs at h with hlen
    obtain ⟨rest, hrest, h⟩ := bind_eq_ok.mp h
    obtain ⟨rfl, hkeys⟩ := ih hrest
    rw [← Except.ok.inj h]
    exact ⟨rfl, List.forall_mem_cons.mpr ⟨not_not.mp hlen, hkeys⟩⟩

theorem appendEntries_ok {entries : AccessList} (h : appendEntries entries = .ok x) :
    x = entries.flatMap encodeEntry ∧ ∀ e ∈ entries, e.1.length = 20 ∧ ∀ k ∈ e.2, k.length = 32 := by
  induction entries generalizing x with
  | nil =>
    rw [← Except.ok.inj h]
    exact ⟨rfl, nofun⟩
  | cons e entries ih =>
    rw [appendEntries] at h
    split_ifs at h with hlen
    obtain ⟨ks, hks, h⟩ := bind_eq_ok.mp h
    obtain ⟨rest, hrest, h⟩ := bind_eq_ok.mp h
    obtain ⟨rfl, hkeys⟩ := appendKeys_ok hks
    obtain ⟨rfl, hentries⟩ := ih hrest
    rw [← Except.ok.inj h]
    exact ⟨rfl, List.forall_mem_cons.mpr ⟨⟨not_not.mp hlen, hkeys⟩, hentries⟩⟩

theorem encodeEntry_unambiguous : Unambiguous (fun e : Bytes × List Bytes => e.1.length = 20 ∧
    (∀ k ∈ e.2, k.length = 32) ∧ (encodeEntry e).length < 2 ^ 64) encodeEntry := by
  intro e e' s t ⟨haddr, hkeys, hlen⟩ ⟨haddr', hkeys', hlen'⟩ he
  have hpay := (length_le_encodePayload _).trans_lt hlen
  have hpay' := (length_le_encodePayload _).trans_lt hlen'
  obtain ⟨hitems, hst⟩ := encodePayload_unambiguous hpay hpay' he
  rw [List.length_append] at hpay hpay'
  obtain ⟨haddrs, hrest⟩ := encodeBytes_unambiguous (by omega) (by omega) hitems
  have hin := length_le_encodePayload (e.2.flatMap encodeBytes)
  have hin' := length_le_encodePayload (e'.2.flatMap encodeBytes)
  have hrest' : encodePayload (e.2.flatMap encodeBytes) ++ [] =
      encodePayload (e'.2.flatMap encodeBytes) ++ [] := by rw [hrest]
  obtain ⟨hkeyss, -⟩ := items_unambiguous encodeBytes_unambiguous encodeBytes_ne_nil
    ⟨fun k hk => by have := hkeys k hk; omega, by omega⟩
    ⟨fun k hk => by have := hkeys' k hk; omega, by omega⟩ hrest'
  exact ⟨Prod.ext haddrs hkeyss, hst⟩

theorem encodeEntry_ne_nil (e : Bytes × List Bytes) : encodeEntry e ≠ [] :=
  List.append_ne_nil_of_left_ne_nil (header_ne_nil _ _) _

theorem appendAccessList_unambiguous (ha : a.appendAccessList = .ok x) (hb : b.appendAccessList = .ok y)
    (hx : x.length < 2 ^ 64) (hy : y.length < 2 ^ 64) (h : x ++ s = y ++ t) :
    a.accessList.getD [] = b.accessList.getD [] ∧ s = t := by
  obtain ⟨p, hp, ha⟩ := bind_eq_ok.mp ha
  obtain ⟨q, hq, hb⟩ := bind_eq_ok.mp hb
  obtain ⟨rfl, hpe⟩ := appendEntries_ok hp
  obtain ⟨rfl, hqe⟩ := appendEntries_ok hq
  cases ha
  cases hb
  have hxp := (length_le_encodePayload _).trans_lt hx
  have hyp := (length_le_encodePayload _).trans_lt hy
  refine items_unambiguous encodeEntry_unambiguous encodeEntry_ne_nil ⟨?_, hxp⟩ ⟨?_, hyp⟩ h
  · intro e he
    exact ⟨(hpe e he).1, (hpe e he).2, (length_le_flatMap he).trans_lt hxp⟩
  · intro e he
    exact ⟨(hqe e he).1, (hqe e he).2, (length_le_flatMap he).trans_lt hyp⟩

structure SameFields (a b : SignedTx) : Prop where
  nonce : a.nonce = b.nonce
  recipient : a.recipient = b.recipient
  value : a.value = b.value
  gasLimit : a.gasLimit = b.gasLimit
  gasPrice : a.gasPrice = b.gasPrice
  data : a.data = b.data
  ethTxType : a.ethTxType = b.ethTxType
  maxFeePerGas : a.maxFeePerGas = b.maxFeePerGas
  maxPriorityFeePerGas : a.maxPriorityFeePerGas = b.maxPriorityFeePerGas
  accessList : a.accessList.getD [] = b.accessList.getD []

theorem uint_unambiguous : Unambiguous (fun _ : UInt64 => True) uint := encodeUint_u64

theorem value_unambiguous :
    Unambiguous (fun _ : BitVec 128 => True) fun v => encodeUint 16 v.toNat := by
  intro v w s t _ _ he
  obtain ⟨hvw, hst⟩ := encodeUint_unambiguous (w := 16) (by decide) v.isLt w.isLt he
  exact ⟨BitVec.eq_of_toNat_eq hvw, hst⟩

def coreItems (tx : SignedTx) (recipient : Bytes) : Bytes :=
  uint tx.gasLimit ++ recipient ++ encodeUint 16 tx.value.toNat ++ encodeBytes tx.data

theorem coreItems_unambiguous (ha : a.appendTo = .ok x) (hb : b.appendTo = .ok y)
    (hda : a.data.length < 2 ^ 64) (hdb : b.data.length < 2 ^ 64)
    (h : a.coreItems x ++ s = b.coreItems y ++ t) :
    a.gasLimit = b.gasLimit ∧ a.recipient = b.recipient ∧ a.value = b.value ∧ a.data = b.data ∧
      s = t := by
  simp only [coreItems, List.append_assoc] at h
  obtain ⟨hlimit, h⟩ := uint_unambiguous.read h
  obtain ⟨hrecipient, h⟩ := appendTo_unambiguous ha hb h
  obtain ⟨hvalue, h⟩ := value_unambiguous.read h
  obtain ⟨hdata, h⟩ := encodeBytes_unambiguous hda hdb h
  exact ⟨hlimit, hrecipient, hvalue, hdata, h⟩

/-- The encoded fields of each type, with what was checked of the fields beside the signature. -/
inductive EvmShape (tx : SignedTx) (chainId : UInt64) (recipient : Bytes) : Bytes → Prop
  | legacy (htype : tx.ethTxType = 0) (hfee : tx.maxFeePerGas = none)
      (hprio : tx.maxPriorityFeePerGas = none) (hlist : tx.accessList = none) :
      EvmShape tx chainId recipient (uint tx.nonce ++ uint tx.gasPrice ++ tx.coreItems recipient)
  | accessList (list : Bytes) (htype : tx.ethTxType = 1) (hfee : tx.maxFeePerGas = none)
      (hprio : tx.maxPriorityFeePerGas = none) (hlist : tx.appendAccessList = .ok list) :
      EvmShape tx chainId recipient
        (uint chainId ++ uint tx.nonce ++ uint tx.gasPrice ++ tx.coreItems recipient ++ list)
  | dynamicFee (prio : UInt64) (list : Bytes) (htype : tx.ethTxType = 2)
      (hfee : tx.maxFeePerGas = some tx.gasPrice) (hprio : tx.maxPriorityFeePerGas = some prio)
      (hlist : tx.appendAccessList = .ok list) :
      EvmShape tx chainId recipient (uint chainId ++ uint tx.nonce ++ uint prio ++ uint tx.gasPrice ++
        tx.coreItems recipient ++ list)

variable {chainId : UInt64}

theorem evmFields_ok {fields : Bytes} (hc : tx.checkEvmUnsignedFields = .ok ())
    (h : tx.evmFields chainId = .ok fields) :
    ∃ recipient, tx.appendTo = .ok recipient ∧ EvmShape tx chainId recipient fields := by
  obtain ⟨-, -, hc⟩ := bind_eq_ok.mp hc
  unfold evmFields at h
  split_ifs at h with h0 h1 h2
  · obtain ⟨recipient, hto, h⟩ := bind_eq_ok.mp h
    rw [if_pos (Or.inl h0)] at hc
    split_ifs at hc with hfees hlist
    simp only [not_or, Option.not_isSome_iff_eq_none] at hfees
    have hnone : tx.accessList = none := by simpa [h0] using hlist
    have hshape : EvmShape tx chainId recipient _ := .legacy h0 hfees.1 hfees.2 hnone
    obtain rfl := Except.ok.inj h
    exact ⟨recipient, hto, by simpa only [coreItems, List.append_assoc] using hshape⟩
  · obtain ⟨recipient, hto, h⟩ := bind_eq_ok.mp h
    obtain ⟨list, hlist, h⟩ := bind_eq_ok.mp h
    rw [if_pos (Or.inr h1)] at hc
    split_ifs at hc with hfees
    simp only [not_or, Option.not_isSome_iff_eq_none] at hfees
    have hshape : EvmShape tx chainId recipient _ := .accessList list h1 hfees.1 hfees.2 hlist
    obtain rfl := Except.ok.inj h
    exact ⟨recipient, hto, by simpa only [coreItems, List.append_assoc] using hshape⟩
  · rw [if_neg (not_or.mpr ⟨h0, h1⟩), if_pos h2] at hc
    split_ifs at hc with hfee hprio
    rw [not_not] at hfee
    obtain ⟨prio, hp⟩ := Option.ne_none_iff_exists'.mp (by simpa using hprio)
    simp only [hfee, hp] at h
    obtain ⟨recipient, hto, h⟩ := bind_eq_ok.mp h
    obtain ⟨list, hlist, h⟩ := bind_eq_ok.mp h
    have hshape : EvmShape tx chainId recipient _ := .dynamicFee prio list h2 hfee hp hlist
    obtain rfl := Except.ok.inj h
    exact ⟨recipient, hto, by simpa only [coreItems, List.append_assoc] using hshape⟩

theorem data_length_le_coreItems (tx : SignedTx) (recipient : Bytes) :
    tx.data.length ≤ (tx.coreItems recipient).length := by
  have := length_le_encodeBytes tx.data
  simp only [coreItems, List.length_append]
  omega

variable {ca cb : UInt64}

theorem evmFields_unambiguous {fa fb : Bytes} (hca : a.checkEvmUnsignedFields = .ok ())
    (hcb : b.checkEvmUnsignedFields = .ok ()) (htype : a.ethTxType = b.ethTxType)
    (ha : a.evmFields ca = .ok fa) (hb : b.evmFields cb = .ok fb) (hla : fa.length < 2 ^ 64)
    (hlb : fb.length < 2 ^ 64) (h : fa ++ s = fb ++ t) :
    SameFields a b ∧ (a.ethTxType ≠ 0 → ca = cb) ∧ s = t := by
  obtain ⟨ra, hra, hfa⟩ := evmFields_ok hca ha
  obtain ⟨rb, hrb, hfb⟩ := evmFields_ok hcb hb
  have hda := data_length_le_coreItems a ra
  have hdb := data_length_le_coreItems b rb
  cases hfa <;> cases hfb <;>
    simp only [List.length_append, List.append_assoc, uint_unambiguous.read_iff] at hla hlb h
  case legacy.legacy h0 hfee hprio hlist _ hfee' hprio' hlist' =>
    obtain ⟨hnonce, hprice, h⟩ := h
    obtain ⟨hlimit, hto, hvalue, hdata, h⟩ := coreItems_unambiguous hra hrb (by omega) (by omega) h
    refine ⟨⟨hnonce, hto, hvalue, hlimit, hprice, hdata, htype, ?_, ?_, ?_⟩, ?_, h⟩
    · rw [hfee, hfee']
    · rw [hprio, hprio']
    · rw [hlist, hlist']
    · exact fun hne => absurd h0 hne
  case accessList.accessList hfee hprio hlist _ _ hfee' hprio' hlist' =>
    obtain ⟨hchain, hnonce, hprice, h⟩ := h
    obtain ⟨hlimit, hto, hvalue, hdata, h⟩ := coreItems_unambiguous hra hrb (by omega) (by omega) h
    obtain ⟨haccess, h⟩ := appendAccessList_unambiguous hlist hlist' (by omega) (by omega) h
    refine ⟨⟨hnonce, hto, hvalue, hlimit, hprice, hdata, htype, ?_, ?_, haccess⟩, fun _ => hchain, h⟩
    · rw [hfee, hfee']
    · rw [hprio, hprio']
  case dynamicFee.dynamicFee hfee hprio hlist _ _ _ hfee' hprio' hlist' =>
    obtain ⟨hchain, hnonce, hp, hprice, h⟩ := h
    obtain ⟨hlimit, hto, hvalue, hdata, h⟩ := coreItems_unambiguous hra hrb (by omega) (by omega) h
    obtain ⟨haccess, h⟩ := appendAccessList_unambiguous hlist hlist' (by omega) (by omega) h
    refine ⟨⟨hnonce, hto, hvalue, hlimit, hprice, hdata, htype, ?_, ?_, haccess⟩, fun _ => hchain, h⟩
    · rw [hfee, hfee', hprice]
    · rw [hprio, hprio', hp]
  all_goals exact absurd (‹a.ethTxType = _›.symm.trans (htype.trans ‹b.ethTxType = _›)) (by decide)

theorem rs_unambiguous (h : encodeBytes (trim (a.signature.asBytes.take 32)) ++
      (encodeBytes (trim (a.signature.asBytes.drop 32)) ++ s) =
    encodeBytes (trim (b.signature.asBytes.take 32)) ++
      (encodeBytes (trim (b.signature.asBytes.drop 32)) ++ t)) :
    a.signature = b.signature ∧ s = t := by
  have hshort : ∀ bs : Bytes, bs.length ≤ 64 → (trim bs).length < 2 ^ 64 := fun bs hbs =>
    ((length_trim_le bs).trans hbs).trans_lt (by decide)
  have hla := Signature.asBytes_length a.signature
  have hlb := Signature.asBytes_length b.signature
  have htake : ∀ bs : Bytes, bs.length = 64 → (bs.take 32).length = 32 ∧ (bs.drop 32).length = 32 := by
    intro bs hbs
    rw [List.length_take, List.length_drop, hbs]
    decide
  obtain ⟨hta, hda⟩ := htake _ hla
  obtain ⟨htb, hdb⟩ := htake _ hlb
  obtain ⟨hr, h⟩ := encodeBytes_unambiguous (hshort _ (by omega)) (hshort _ (by omega)) h
  obtain ⟨hs, hst⟩ := encodeBytes_unambiguous (hshort _ (by omega)) (hshort _ (by omega)) h
  refine ⟨Signature.asBytes_inj ?_, hst⟩
  rw [← List.take_append_drop 32 a.signature.asBytes, trim_inj (hta.trans htb.symm) hr,
    trim_inj (hda.trans hdb.symm) hs, List.take_append_drop]

variable {p : Bytes}

theorem encodePayload_head (hp : p.length < 2 ^ 64) :
    ∃ x rest, encodePayload p = x :: rest ∧ 192 ≤ x.toNat := by
  obtain ⟨x, rest, hx, hlow, -⟩ := header_head (le_refl 192) hp
  exact ⟨x, rest ++ p, by rw [encodePayload, hx]; rfl, hlow⟩

theorem envelope_unambiguous {p q : Bytes} (ha : a.ethTxType.toNat < 192) (hb : b.ethTxType.toNat < 192)
    (hp : p.length < 2 ^ 64) (hq : q.length < 2 ^ 64) (h : a.envelope p = b.envelope q) :
    a.ethTxType = b.ethTxType ∧ p = q := by
  obtain ⟨x, xs, hx, hxlow⟩ := encodePayload_head hp
  obtain ⟨y, ys, hy, hylow⟩ := encodePayload_head hq
  have hpq : encodePayload p = encodePayload q → p = q := by
    intro he
    exact (encodePayload_unambiguous (s := []) (t := []) hp hq (by rw [he])).1
  unfold envelope at h
  by_cases ha0 : a.ethTxType = 0
  · by_cases hb0 : b.ethTxType = 0
    · rw [ha0, hb0] at h
      exact ⟨ha0.trans hb0.symm, hpq h⟩
    · rw [if_neg (not_not.mpr ha0), if_pos hb0, hx] at h
      have hhead : x = b.ethTxType := (List.cons.inj h).1
      rw [hhead] at hxlow
      omega
  · by_cases hb0 : b.ethTxType = 0
    · rw [if_pos ha0, if_neg (not_not.mpr hb0), hy] at h
      have hhead : a.ethTxType = y := (List.cons.inj h).1
      rw [hhead] at ha
      omega
    · rw [if_pos ha0, if_pos hb0] at h
      obtain ⟨htype, he⟩ := List.cons.inj h
      exact ⟨htype, hpq he⟩

theorem signatureItems_unambiguous {ra rb : UInt8} (htype : a.ethTxType = b.ethTxType)
    (hra : ra = 0 ∨ ra = 1) (hrb : rb = 0 ∨ rb = 1) (hchain : a.ethTxType ≠ 0 → ca = cb)
    (h : a.signatureItems ca ra = b.signatureItems cb rb) :
    ca = cb ∧ ra = rb ∧ a.signature = b.signature := by
  have hra' : ra.toNat ≤ 1 := by rcases hra with rfl | rfl <;> decide
  have hrb' : rb.toNat ≤ 1 := by rcases hrb with rfl | rfl <;> decide
  have hnil : a.signatureItems ca ra ++ [] = b.signatureItems cb rb ++ [] := by rw [h]
  simp only [signatureItems, ← htype, List.append_assoc] at hnil
  by_cases h0 : a.ethTxType = 0
  · simp only [h0, if_true] at hnil
    have hca := ca.toNat_lt
    have hcb := cb.toNat_lt
    obtain ⟨hv, hnil⟩ := encodeUint_unambiguous (w := 16) (by decide)
      (show ca.toNat * 2 + 35 + ra.toNat < 256 ^ 16 by omega)
      (show cb.toNat * 2 + 35 + rb.toNat < 256 ^ 16 by omega) hnil
    obtain ⟨hsig, -⟩ := rs_unambiguous hnil
    exact ⟨UInt64.toNat_inj.mp (by omega), UInt8.toNat_inj.mp (by omega), hsig⟩
  · simp only [h0, if_false] at hnil
    obtain ⟨hr, hnil⟩ := encodeUint_unambiguous (w := 1) (by decide)
      (show ra.toNat < 256 ^ 1 by omega) (show rb.toNat < 256 ^ 1 by omega) hnil
    obtain ⟨hsig, -⟩ := rs_unambiguous hnil
    exact ⟨hchain h0, UInt8.toNat_inj.mp hr, hsig⟩

inductive Accepted (c : TxCrypto) (tx : SignedTx) (id : Hash) : Prop
  | evm (chainId : UInt64) (recid : UInt8) (fields : Bytes) (hshape : isEvmShaped tx.sender = true)
      (hcheck : tx.checkEvmUnsignedFields = .ok ()) (hchain : tx.chainId = some chainId)
      (hrecid : recid = 0 ∨ recid = 1) (hfields : tx.evmFields chainId = .ok fields)
      (hsender : ∃ preimage, tx.sighashPreimage chainId = .ok preimage ∧
        tx.recovers c (c.keccak preimage) recid = true)
      (hid : id = c.keccak (tx.envelope (fields ++ tx.signatureItems chainId recid)))
  | native (htype : tx.ethTxType = 0) (hfee : tx.maxFeePerGas = none)
      (hprio : tx.maxPriorityFeePerGas = none) (hlist : tx.accessList = none)
      (hid : id = c.keccak tx.nativePreimage)

variable {id : Hash}

theorem evmSignedHash_ok {recid : UInt8} (h : tx.evmSignedHash c chainId recid = .ok id) :
    ∃ fields, tx.evmFields chainId = .ok fields ∧
      id = c.keccak (tx.envelope (fields ++ tx.signatureItems chainId recid)) := by
  obtain ⟨preimage, hpre, h⟩ := bind_eq_ok.mp h
  obtain ⟨fields, hfields, hpre⟩ := bind_eq_ok.mp hpre
  refine ⟨fields, hfields, ?_⟩
  rw [← Except.ok.inj h, ← Except.ok.inj hpre]

theorem authenticateEvm_ok (h : tx.authenticateEvm c = .ok id) :
    ∃ chainId recid fields preimage, tx.checkEvmUnsignedFields = .ok () ∧ tx.chainId = some chainId ∧
      (recid = 0 ∨ recid = 1) ∧ tx.evmFields chainId = .ok fields ∧
      tx.sighashPreimage chainId = .ok preimage ∧ tx.recovers c (c.keccak preimage) recid = true ∧
      id = c.keccak (tx.envelope (fields ++ tx.signatureItems chainId recid)) := by
  obtain ⟨⟨⟩, hcheck, h⟩ := bind_eq_ok.mp h
  obtain ⟨⟨sighash, chainId⟩, hsig, h⟩ := bind_eq_ok.mp h
  unfold evmSighash at hsig
  split at hsig
  · exact nomatch hsig
  rename_i chain hchain
  obtain ⟨preimage, hpre, hsig⟩ := bind_eq_ok.mp hsig
  obtain ⟨rfl, rfl⟩ := Prod.mk.inj (Except.ok.inj hsig)
  dsimp only at h
  split_ifs at h with _ h0 h1
  · obtain ⟨fields, hfields, hid⟩ := evmSignedHash_ok h
    exact ⟨chain, 0, fields, preimage, hcheck, hchain, Or.inl rfl, hfields, hpre, h0, hid⟩
  · obtain ⟨fields, hfields, hid⟩ := evmSignedHash_ok h
    exact ⟨chain, 1, fields, preimage, hcheck, hchain, Or.inr rfl, hfields, hpre, h1, hid⟩

theorem authenticateNative_ok {acceptV1 : Bool} (h : tx.authenticateNative c acceptV1 = .ok id) :
    Accepted c tx id := by
  unfold authenticateNative at h
  split at h
  · cases h
  rename_i henv
  rw [not_or, not_or, not_or] at henv
  obtain ⟨htype, hfee, hprio, hlist⟩ := henv
  obtain ⟨-, -, h⟩ := bind_eq_ok.mp h
  split_ifs at h
  exact .native (not_not.mp htype) (Option.not_isSome_iff_eq_none.mp hfee)
    (Option.not_isSome_iff_eq_none.mp hprio) (Option.not_isSome_iff_eq_none.mp hlist)
    (Except.ok.inj h).symm

theorem authenticateWithPolicy_ok {acceptV1 : Bool}
    (h : tx.authenticateWithPolicy c acceptV1 = .ok id) : Accepted c tx id := by
  unfold authenticateWithPolicy at h
  split_ifs at h with _ hshape
  · obtain ⟨chain, recid, fields, preimage, hcheck, hchain, hrecid, hfields, hpre, hrec, hid⟩ :=
      authenticateEvm_ok h
    exact .evm chain recid fields hshape hcheck hchain hrecid hfields ⟨preimage, hpre, hrec⟩ hid
  · exact authenticateNative_ok h

def idPreimages (tx : SignedTx) : Set Bytes :=
  {p | p = tx.nativePreimage ∨ ∃ chainId recid fields, tx.chainId = some chainId ∧
    (recid = 0 ∨ recid = 1) ∧ tx.evmFields chainId = .ok fields ∧
    p = tx.envelope (fields ++ tx.signatureItems chainId recid)}

def plainFields (tx : SignedTx) (rest : Bytes) : Bytes :=
  toLe 8 tx.nonce.toNat ++ (tx.sender.asBytes ++ (putOption PublicKey.asBytes tx.recipient ++
    (toLe 16 tx.value.toNat ++ (toLe 8 tx.gasLimit.toNat ++ (toLe 8 tx.gasPrice.toNat ++ rest)))))

theorem plainFields_inj (h : a.plainFields s = b.plainFields t) :
    a.nonce = b.nonce ∧ a.sender = b.sender ∧ a.recipient = b.recipient ∧ a.value = b.value ∧
      a.gasLimit = b.gasLimit ∧ a.gasPrice = b.gasPrice ∧ s = t := by
  simpa only [plainFields, Unambiguous.u64.read_iff, publicKey_unambiguous.read_iff,
    (putOption_total publicKey_unambiguous).read_iff, Unambiguous.u128.read_iff] using h

theorem canonicalTxBytes_inj (h : a.canonicalTxBytes = b.canonicalTxBytes) :
    a.sender = b.sender ∧ a.nonce = b.nonce ∧ a.recipient = b.recipient ∧ a.value = b.value ∧
      a.gasLimit = b.gasLimit ∧ a.gasPrice = b.gasPrice ∧ a.data = b.data := by
  simp only [canonicalTxBytes, List.append_assoc] at h
  obtain ⟨hnonce, hsender, hto, hvalue, hlimit, hprice, h⟩ := plainFields_inj h
  -- the length of the data may be cut, but it takes four bytes
  obtain ⟨-, hdata⟩ := List.append_inj h (by simp [toLe])
  exact ⟨hsender, hnonce, hto, hvalue, hlimit, hprice, hdata⟩

theorem nativePreimage_inj (ha : a.nativePreimage.length < 2 ^ 64) (hb : b.nativePreimage.length < 2 ^ 64)
    (h : a.nativePreimage = b.nativePreimage) :
    a.canonicalTxBytes = b.canonicalTxBytes ∧ a.chainId = b.chainId := by
  have hbody : ∀ tx : SignedTx, tx.nativePreimage.length < 2 ^ 64 →
      tx.canonicalTxBytes.length < 256 ^ 8 := by
    intro tx htx
    simp only [nativePreimage, putBytes, List.length_append] at htx
    omega
  have hnil : a.nativePreimage ++ [] = b.nativePreimage ++ [] := by rw [h]
  simp only [nativePreimage, List.append_assoc] at hnil
  obtain ⟨hbytes, hnil⟩ := Unambiguous.prefixed 8 (hbody a ha) (hbody b hb)
    (List.append_cancel_left hnil)
  obtain ⟨-, hnil⟩ := List.append_inj hnil
    ((Signature.asBytes_length _).trans (Signature.asBytes_length _).symm)
  obtain ⟨hchain, -⟩ := (putOption_total Unambiguous.u64).read hnil
  exact ⟨hbytes, hchain⟩

theorem evmShaped_tail {k : PublicKey} (h : isEvmShaped k = true) : ∀ x ∈ k.asBytes.drop 20, x = 0 := by
  rw [isEvmShaped, Bool.and_eq_true, List.all_eq_true] at h
  intro x hx
  simpa using h.1 x hx

theorem recovers_unique {sighash : Hash} {recid : UInt8} (ha : isEvmShaped a.sender = true)
    (hb : isEvmShaped b.sender = true) (hsig : a.signature = b.signature)
    (hra : a.recovers c sighash recid = true) (hrb : b.recovers c sighash recid = true) :
    a.sender = b.sender := by
  unfold recovers at hra hrb
  rw [hsig] at hra
  cases hkey : c.recover sighash b.signature recid with
  | none => simp [hkey] at hra
  | some key =>
    simp only [hkey, beq_iff_eq] at hra hrb
    exact PublicKey.eq_of_take (evmShaped_tail ha) (evmShaped_tail hb) (hra.symm.trans hrb)

theorem sighashPreimage_ok {fields preimage : Bytes} (hf : tx.evmFields chainId = .ok fields)
    (h : tx.sighashPreimage chainId = .ok preimage) : preimage = tx.envelope (fields ++
      if tx.ethTxType = 0 then uint chainId ++ encodeUint 1 0 ++ encodeUint 1 0 else []) := by
  rw [sighashPreimage, hf] at h
  exact (Except.ok.inj h).symm

theorem evmType_lt {recipient fields : Bytes} (h : EvmShape tx chainId recipient fields) :
    tx.ethTxType.toNat < 192 := by
  cases h with
  | legacy h | accessList _ h | dynamicFee _ _ h => rw [h]; decide

theorem envelope_ne_native {recipient fields p : Bytes} (h : EvmShape a chainId recipient fields)
    (hp : p.length < 2 ^ 64) : a.envelope p ≠ b.nativePreimage := by
  intro he
  obtain ⟨x, xs, hx, hlow⟩ := encodePayload_head hp
  have hnative : ∃ rest, b.nativePreimage = 99 :: rest := ⟨_, rfl⟩
  obtain ⟨rest, hrest⟩ := hnative
  unfold envelope at he
  rw [hrest, hx] at he
  cases h with
  | legacy h =>
    rw [h] at he
    have : x = 99 := (List.cons.inj he).1
    rw [this] at hlow
    exact absurd hlow (by decide)
  | accessList _ h | dynamicFee _ _ h =>
    rw [h] at he
    exact absurd (List.cons.inj he).1 (by decide)

theorem length_lt_of_envelope (h : (tx.envelope p).length < 2 ^ 64) : p.length < 2 ^ 64 := by
  have := length_le_encodePayload p
  rw [envelope, List.length_append] at h
  omega

theorem evm_binding {ra rb : UInt8} {fa fb : Bytes} (hsa : isEvmShaped a.sender = true)
    (hsb : isEvmShaped b.sender = true) (hca : a.checkEvmUnsignedFields = .ok ())
    (hcb : b.checkEvmUnsignedFields = .ok ()) (hra : ra = 0 ∨ ra = 1) (hrb : rb = 0 ∨ rb = 1)
    (hfa : a.evmFields ca = .ok fa) (hfb : b.evmFields cb = .ok fb)
    (hva : ∃ p, a.sighashPreimage ca = .ok p ∧ a.recovers c (c.keccak p) ra = true)
    (hvb : ∃ p, b.sighashPreimage cb = .ok p ∧ b.recovers c (c.keccak p) rb = true)
    (hla : (a.envelope (fa ++ a.signatureItems ca ra)).length < 2 ^ 64)
    (hlb : (b.envelope (fb ++ b.signatureItems cb rb)).length < 2 ^ 64)
    (h : a.envelope (fa ++ a.signatureItems ca ra) = b.envelope (fb ++ b.signatureItems cb rb)) :
    a.sender = b.sender ∧ ca = cb ∧ SameFields a b := by
  obtain ⟨_, -, hshapea⟩ := evmFields_ok hca hfa
  obtain ⟨_, -, hshapeb⟩ := evmFields_ok hcb hfb
  have hpa := length_lt_of_envelope hla
  have hpb := length_lt_of_envelope hlb
  obtain ⟨htype, hpay⟩ := envelope_unambiguous (evmType_lt hshapea) (evmType_lt hshapeb) hpa hpb h
  rw [List.length_append] at hpa hpb
  obtain ⟨hfields, hchain, hitems⟩ := evmFields_unambiguous hca hcb htype hfa hfb (by omega) (by omega)
    hpay
  obtain ⟨hcc, hrr, hsig⟩ := signatureItems_unambiguous htype hra hrb hchain hitems
  refine ⟨?_, hcc, hfields⟩
  -- the same fields were signed, so that the same address was recovered
  obtain ⟨pa, hpre, hrec⟩ := hva
  obtain ⟨pb, hpre', hrec'⟩ := hvb
  have hff : fa = fb := List.append_cancel_right (hitems ▸ hpay)
  have hpp : pa = pb := by
    rw [sighashPreimage_ok hfa hpre, sighashPreimage_ok hfb hpre', hff, hcc, envelope, envelope, htype]
  subst hpp hrr
  exact recovers_unique hsa hsb hsig hrec hrec'

/-- Two accepted transactions with the same id have the same sender, chain id and fields. -/
theorem transaction_id_binding {va vb : Bool} {id : Hash}
    (ha : a.authenticateWithPolicy c va = .ok id) (hb : b.authenticateWithPolicy c vb = .ok id)
    (hsize : ∀ p ∈ a.idPreimages ∪ b.idPreimages, p.length < 2 ^ 64)
    (hinj : Set.InjOn c.keccak (a.idPreimages ∪ b.idPreimages)) :
    a.sender = b.sender ∧ a.chainId = b.chainId ∧ SameFields a b := by
  cases authenticateWithPolicy_ok ha with
  | evm ca ra fa hsa hca hchaina hra hfa hva hida =>
    have hma : a.envelope (fa ++ a.signatureItems ca ra) ∈ a.idPreimages ∪ b.idPreimages :=
      Or.inl (Or.inr ⟨ca, ra, fa, hchaina, hra, hfa, rfl⟩)
    cases authenticateWithPolicy_ok hb with
    | evm cb rb fb hsb hcb hchainb hrb hfb hvb hidb =>
      have hmb : b.envelope (fb ++ b.signatureItems cb rb) ∈ a.idPreimages ∪ b.idPreimages :=
        Or.inr (Or.inr ⟨cb, rb, fb, hchainb, hrb, hfb, rfl⟩)
      obtain ⟨hsender, hchain, hfields⟩ := evm_binding hsa hsb hca hcb hra hrb hfa hfb hva hvb
        (hsize _ hma) (hsize _ hmb) (hinj hma hmb (hida.symm.trans hidb))
      exact ⟨hsender, by rw [hchaina, hchainb, hchain], hfields⟩
    | native _ _ _ _ hidb =>
      obtain ⟨_, -, hshape⟩ := evmFields_ok hca hfa
      have hmb : b.nativePreimage ∈ a.idPreimages ∪ b.idPreimages := Or.inr (Or.inl rfl)
      exact absurd (hinj hma hmb (hida.symm.trans hidb))
        (envelope_ne_native hshape (length_lt_of_envelope (hsize _ hma)))
  | native ha0 hafee haprio halist hida =>
    have hma : a.nativePreimage ∈ a.idPreimages ∪ b.idPreimages := Or.inl (Or.inl rfl)
    cases authenticateWithPolicy_ok hb with
    | evm cb rb fb hsb hcb hchainb hrb hfb hvb hidb =>
      obtain ⟨_, -, hshape⟩ := evmFields_ok hcb hfb
      have hmb : b.envelope (fb ++ b.signatureItems cb rb) ∈ a.idPreimages ∪ b.idPreimages :=
        Or.inr (Or.inr ⟨cb, rb, fb, hchainb, hrb, hfb, rfl⟩)
      exact absurd (hinj hmb hma (hidb.symm.trans hida))
        (envelope_ne_native hshape (length_lt_of_envelope (hsize _ hmb)))
    | native hb0 hbfee hbprio hblist hidb =>
      have hmb : b.nativePreimage ∈ a.idPreimages ∪ b.idPreimages := Or.inr (Or.inl rfl)
      obtain ⟨hbytes, hchain⟩ := nativePreimage_inj (hsize _ hma) (hsize _ hmb)
        (hinj hma hmb (hida.symm.trans hidb))
      obtain ⟨hsender, hnonce, hto, hvalue, hlimit, hprice, hdata⟩ := canonicalTxBytes_inj hbytes
      refine ⟨hsender, hchain, hnonce, hto, hvalue, hlimit, hprice, hdata, ?_, ?_, ?_, ?_⟩
      · rw [ha0, hb0]
      · rw [hafee, hbfee]
      · rw [haprio, hbprio]
      · rw [halist, hblist]

def toyCrypto : TxCrypto where
  keccak bs := BitVec.ofNat 256 (ofBe bs)
  recover _ _ _ := some [7]
  validKey _ := false
  isWeak _ := false
  verify _ _ _ := false
  verifyStrict _ _ _ := false

def creation : SignedTx where
  hash := 0
  nonce := 1
  sender := BitVec.ofNat 256 (7 * 2 ^ 96)
  data := [9]
  chainId := some 1

def creationElsewhere : SignedTx := { creation with hash := 3, ecdsaVerified := true }

def creationFields : Bytes := [1, 128, 128, 128, 128, 9]

def creationPreimages : List Bytes :=
  [creation.nativePreimage, creation.envelope (creationFields ++ creation.signatureItems 1 0),
    creation.envelope (creationFields ++ creation.signatureItems 1 1)]

theorem creation_idPreimages (hp : p ∈ creation.idPreimages) : p ∈ creationPreimages := by
  have hok : creation.evmFields 1 = .ok creationFields := by decide
  rcases hp with rfl | ⟨chainId, recid, fields, hchain, hrecid, hfields, rfl⟩
  · exact List.mem_cons_self
  · obtain rfl : (1 : UInt64) = chainId := Option.some.inj hchain
    cases hok.symm.trans hfields
    rcases hrecid with rfl | rfl
    · simp [creationPreimages]
    · simp [creationPreimages]

theorem transaction_id_binding_creation : ∃ id,
    creation.authenticateWithPolicy toyCrypto true = .ok id ∧
    creationElsewhere.authenticateWithPolicy toyCrypto true = .ok id ∧
    SameFields creation creationElsewhere := by
  have hok : creation.authenticateWithPolicy toyCrypto true =
      .ok (toyCrypto.keccak (creation.envelope (creationFields ++ creation.signatureItems 1 0))) := by
    decide +kernel
  have hset : creationElsewhere.idPreimages = creation.idPreimages := rfl
  have hsize : ∀ p ∈ creation.idPreimages ∪ creationElsewhere.idPreimages, p.length < 2 ^ 64 := by
    rw [hset, Set.union_self]
    have hall : ∀ p ∈ creationPreimages, p.length < 2 ^ 64 := by decide +kernel
    exact fun p hp => hall p (creation_idPreimages hp)
  have hinj : Set.InjOn toyCrypto.keccak (creation.idPreimages ∪ creationElsewhere.idPreimages) := by
    rw [hset, Set.union_self]
    have hall : ∀ p ∈ creationPreimages, ∀ q ∈ creationPreimages,
        toyCrypto.keccak p = toyCrypto.keccak q → p = q := by decide +kernel
    exact fun p hp q hq => hall p (creation_idPreimages hp) q (creation_idPreimages hq)
  have hother : creationElsewhere.authenticateWithPolicy toyCrypto true = .ok _ := hok
  exact ⟨_, hok, hother, (transaction_id_binding hok hother hsize hinj).2.2⟩

end SignedTx

end CitrateChain.Consensus
