import CitrateChain.Consensus.TxIdBinding

/-! # What the transaction root and the signing bytes commit to

`tx_content_commitment` and `canonical_tx_bytes_v2` write every field behind its length or its tag, so
that the bytes determine the fields. The first native signing format has no tag in front; it is told
apart from the second by the bytes where the sender's key stands. -/
namespace CitrateChain.Consensus.SignedTx
open Bytes (toLe)
variable {sha3 : Bytes → Hash} {a b : SignedTx} {l m : List SignedTx}

/-- The lengths of byte strings and lists fit the word they are written as. -/
structure Sized (tx : SignedTx) : Prop where
  data : tx.data.length < 256 ^ 8
  accessList : ∀ l, tx.accessList = some l → l.length < 256 ^ 8 ∧ ∀ e ∈ l,
    e.1.length < 256 ^ 8 ∧ e.2.length < 256 ^ 8 ∧ ∀ key ∈ e.2, key.length < 256 ^ 8

theorem putOptU64_unambiguous : Unambiguous (fun _ => True) putOptU64 :=
  putOption_total Unambiguous.u64

theorem putEntry_unambiguous : Unambiguous (fun e : Bytes × List Bytes =>
      e.1.length < 256 ^ 8 ∧ e.2.length < 256 ^ 8 ∧ ∀ key ∈ e.2, key.length < 256 ^ 8)
    fun e => putBytes e.1 ++ putList putBytes e.2 := by
  intro e f s t he hf h
  rw [List.append_assoc, List.append_assoc] at h
  obtain ⟨haddr, h⟩ := Unambiguous.prefixed 8 he.1 hf.1 h
  obtain ⟨hkeys, h⟩ := (Unambiguous.prefixed 8).counted 8 he.2 hf.2 h
  exact ⟨Prod.ext haddr hkeys, h⟩

theorem putAccessList_unambiguous : Unambiguous (fun o : Option AccessList => ∀ l, o = some l →
    l.length < 256 ^ 8 ∧ ∀ e ∈ l,
      e.1.length < 256 ^ 8 ∧ e.2.length < 256 ^ 8 ∧ ∀ key ∈ e.2, key.length < 256 ^ 8) putAccessList :=
  putOption_unambiguous (putEntry_unambiguous.counted 8)

theorem signature_unambiguous : Unambiguous (fun _ : Signature => True) Signature.asBytes :=
  .fixed Signature.asBytes_length fun _ _ _ _ h => Signature.asBytes_inj h

theorem typeTag_inj {x y : TransactionType} (h : typeTag x = typeTag y) : x = y := by
  cases x <;> cases y <;> first | rfl | exact absurd h (by decide)

theorem putType_unambiguous :
    Unambiguous (fun _ => True) (putOption fun t : TransactionType => [typeTag t]) := by
  refine putOption_total fun x y s t _ _ h => ?_
  exact (List.cons.inj h).imp_left typeTag_inj

def rootHashed (sha3 : Bytes → Hash) (txs : List SignedTx) : Set Bytes :=
  insert (rootPreimage sha3 txs) (Set.image contentPreimage {tx | tx ∈ txs})

def unflagged (tx : SignedTx) : SignedTx := { tx with ecdsaVerified := false }

theorem contentPreimage_inj (ha : a.Sized) (hb : b.Sized) (h : a.contentPreimage = b.contentPreimage) :
    a.unflagged = b.unflagged := by
  have h : a.contentPreimage ++ [] = b.contentPreimage ++ [] := by rw [h]
  simp only [contentPreimage, List.append_assoc, List.cons_append, List.nil_append] at h
  have h := List.append_cancel_left h
  obtain ⟨hhash, h⟩ := asBytes_unambiguous.read h
  obtain ⟨hnonce, hsender, hrecipient, hvalue, hlimit, hprice, h⟩ := plainFields_inj h
  simp only [putBytes_prefixed.iff ha.data hb.data, signature_unambiguous.read_iff,
    putType_unambiguous.read_iff, List.cons.injEq,
    putOptU64_unambiguous.read_iff, putAccessList_unambiguous.iff ha.accessList hb.accessList] at h
  obtain ⟨⟨⟩⟩ := a
  obtain ⟨⟨⟩⟩ := b
  simp_all only [unflagged]

theorem map_commitment_inj (hl : ∀ tx ∈ l, tx.Sized) (hm : ∀ tx ∈ m, tx.Sized)
    (hsha : Set.InjOn sha3 (rootHashed sha3 l ∪ rootHashed sha3 m))
    (h : l.map (txContentCommitment sha3) = m.map (txContentCommitment sha3)) :
    l.map unflagged = m.map unflagged := by
  have hlen : l.length = m.length := by simpa using congrArg List.length h
  refine List.ext_getElem (by simpa using hlen) fun i hi hi' => ?_
  rw [List.length_map] at hi hi'
  have hcommit : sha3 l[i].contentPreimage = sha3 m[i].contentPreimage := by
    have := List.getElem_of_eq h (by simpa using hi)
    rwa [List.getElem_map, List.getElem_map] at this
  rw [List.getElem_map, List.getElem_map]
  refine contentPreimage_inj (hl _ (List.getElem_mem _)) (hm _ (List.getElem_mem _)) (hsha ?_ ?_ hcommit)
  · exact .inl (.inr ⟨_, List.getElem_mem _, rfl⟩)
  · exact .inr (.inr ⟨_, List.getElem_mem _, rfl⟩)

/-- Lists with the same root have the same transactions up to the flag. -/
theorem tx_root_binding (hl : ∀ tx ∈ l, tx.Sized) (hm : ∀ tx ∈ m, tx.Sized)
    (hsha : Set.InjOn sha3 (rootHashed sha3 l ∪ rootHashed sha3 m))
    (h : txRootV2 sha3 l = txRootV2 sha3 m) :
    l.length = m.length ∧ l.map unflagged = m.map unflagged := by
  have hroot : rootPreimage sha3 l = rootPreimage sha3 m := hsha (.inl (.inl rfl)) (.inr (.inl rfl)) h
  simp only [rootPreimage, List.append_assoc] at hroot
  have hroot := List.append_cancel_left hroot
  obtain ⟨-, hroot⟩ := List.append_inj hroot (by simp [toLe])
  simp only [← List.flatMap_map (txContentCommitment sha3) Hash.asBytes] at hroot
  have hne : ∀ x : Hash, x.asBytes ≠ [] := fun x hx =>
    absurd ((Bytes.toBe_length 32 _).symm.trans (congrArg List.length hx)) (by decide)
  have hcommit := asBytes_unambiguous.flatMap_inj hne (fun _ _ => trivial) (fun _ _ => trivial) hroot
  have hmap := map_commitment_inj hl hm hsha hcommit
  exact ⟨by simpa using congrArg List.length hmap, hmap⟩

theorem tx_root_binding_flag : ∃ sha3 : Bytes → Hash, ∃ l m : List SignedTx, l ≠ m ∧
    txRootV2 sha3 l = txRootV2 sha3 m ∧ l.map unflagged = m.map unflagged := by
  let sha3 : Bytes → Hash := fun bs => BitVec.ofNat 256 bs.length
  let tx : SignedTx := { hash := 1, accessList := some [([2], [[3]])] }
  have hsized : ∀ flag, ∀ t ∈ [{ tx with ecdsaVerified := flag }], t.Sized := by
    intro flag t ht
    obtain rfl := List.mem_singleton.mp ht
    refine ⟨(by decide : ([] : Bytes).length < 256 ^ 8), ?_⟩
    rintro l ⟨⟩
    decide
  refine ⟨sha3, [tx], [{ tx with ecdsaVerified := true }], fun h => ?_, rfl, ?_⟩
  · exact absurd (congrArg ecdsaVerified (List.cons.inj h).1) (by decide)
  refine (@tx_root_binding sha3 _ _ (hsized false) (hsized true) ?_ rfl).2
  have hhashed : ∀ flag, rootHashed sha3 [{ tx with ecdsaVerified := flag }] =
      {rootPreimage sha3 [tx], contentPreimage tx} := by
    intro flag
    simp only [rootHashed, List.mem_singleton, Set.ofPred_eq_eq_singleton, Set.image_singleton]
    rfl
  rw [show [tx] = [{ tx with ecdsaVerified := false }] from rfl, hhashed, hhashed, Set.union_self,
    Set.injOn_pair]
  exact fun h => absurd h (by decide +kernel)

def signedFields (tx : SignedTx) : SignedTx :=
  { tx with hash := 0, signature := 0, txType := none, ecdsaVerified := false }

def domainTail : Bytes := nativeTxV2Domain.drop 8

theorem canonicalTxBytesV2_inj (ha : a.Sized) (hb : b.Sized)
    (h : a.canonicalTxBytesV2 = b.canonicalTxBytesV2) : a.signedFields = b.signedFields := by
  have h : a.canonicalTxBytesV2 ++ [] = b.canonicalTxBytesV2 ++ [] := by rw [h]
  simp only [canonicalTxBytesV2, List.append_assoc, List.cons_append, List.nil_append] at h
  have h := List.append_cancel_left h
  obtain ⟨hchain, h⟩ := putOptU64_unambiguous.read h
  obtain ⟨hnonce, hsender, hrecipient, hvalue, hlimit, hprice, h⟩ := plainFields_inj h
  simp only [putOptU64_unambiguous.read_iff, List.cons.injEq,
    putAccessList_unambiguous.iff ha.accessList hb.accessList,
    putBytes_prefixed.iff ha.data hb.data] at h
  obtain ⟨⟨⟩⟩ := a
  obtain ⟨⟨⟩⟩ := b
  simp_all only [signedFields]

theorem sender_of_canonicalTxBytes_eq (h : a.canonicalTxBytes = b.canonicalTxBytesV2) :
    a.sender.asBytes.take 13 = domainTail := by
  have h := congrArg (fun bs => (bs.drop 8).take 13) h
  simp only [canonicalTxBytes, canonicalTxBytesV2, List.append_assoc] at h
  rw [List.drop_left' (by simp [toLe]), List.take_append_of_le_length (by simp [PublicKey.asBytes_length]),
    List.drop_append_of_le_length (by decide), List.take_left' (by decide)] at h
  exact h

/-- The second format determines the signed fields. A message of the first can be one of the second
only for a sender whose key starts with the rest of the tag, so that with any other key a signature,
which is for one message, is not valid in both. -/
theorem native_signing_bytes (c : TxCrypto) :
    (∀ a b : SignedTx, a.Sized → b.Sized → a.canonicalTxBytesV2 = b.canonicalTxBytesV2 →
      a.signedFields = b.signedFields) ∧
    (∀ a b : SignedTx, a.canonicalTxBytes = b.canonicalTxBytesV2 →
      a.sender.asBytes.take 13 = domainTail) ∧
    ∀ a b : SignedTx, a.sender.asBytes.take 13 ≠ domainTail → ∀ sig,
      (c.verify a.sender a.canonicalTxBytes sig = true →
        c.verify a.sender b.canonicalTxBytesV2 sig = true → a.canonicalTxBytes = b.canonicalTxBytesV2) →
      ¬(c.verify a.sender a.canonicalTxBytes sig = true ∧
        c.verify a.sender b.canonicalTxBytesV2 sig = true) := by
  refine ⟨fun a b => canonicalTxBytesV2_inj, fun a b => sender_of_canonicalTxBytes_eq, ?_⟩
  rintro a b hkey sig hbinds ⟨hfirst, hsecond⟩
  exact hkey (sender_of_canonicalTxBytes_eq (hbinds hfirst hsecond))

theorem native_signing_bytes_one : ∃ c : TxCrypto, ∃ a : SignedTx, ∃ sig : Signature,
    c.verify a.sender a.canonicalTxBytes sig = true ∧
    c.verify a.sender a.canonicalTxBytesV2 sig = false := by
  let a : SignedTx := { hash := 0, sender := 1 }
  let verify : Verifier := fun _ x _ => decide (x = a.canonicalTxBytes)
  let c : TxCrypto := ⟨fun _ => 0, fun _ _ _ => none, fun _ => true, fun _ => false, verify, verify⟩
  have hfirst : c.verify a.sender a.canonicalTxBytes 0 = true := by simp only [c, verify, decide_true]
  refine ⟨c, a, 0, hfirst, Bool.eq_false_iff.mpr fun hsecond => ?_⟩
  have hbinds : c.verify a.sender a.canonicalTxBytesV2 0 = true →
      a.canonicalTxBytes = a.canonicalTxBytesV2 := fun h => by
    simp only [c, verify, decide_eq_true_eq] at h
    exact h.symm
  exact (native_signing_bytes c).2.2 a a (by decide) 0 (fun _ => hbinds) ⟨hfirst, hsecond⟩

end CitrateChain.Consensus.SignedTx
