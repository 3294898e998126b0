import CitrateChain.Base.Word
import CitrateChain.Consensus.Types

/-! # The durable signed-vote record of the finality gadget

Before the gadget signs its own checkpoint vote it asks `authorizeSign`, which keeps one record
per signed height and a pair of watermarks in the persistent store. Store calls may fail; which
ones do is the `Faults` argument. -/
namespace CitrateChain.Consensus.SignedVotes
open Word Bytes

def maxSignedHeights : ℕ := 1024

def signedVoteKeyPrefix : List Char := "checkpoint_signed:".toList

def signedVoteMetaPrefix : List Char := "checkpoint_signed_meta:".toList

def signedVoteKey (chainId height : UInt64) : Bytes :=
  ascii (signedVoteKeyPrefix ++ (Nat.toDigits 10 chainId.toNat ++
    ':' :: Nat.toDigits 10 height.toNat))

def signedVoteMetaKey (chainId : UInt64) : Bytes :=
  ascii (signedVoteMetaPrefix ++ Nat.toDigits 10 chainId.toNat)

section Keys
variable {chainId chainId' height h : UInt64}

theorem toDigits_ascii (n : UInt64) : ∀ x ∈ Nat.toDigits 10 n.toNat, x.toNat < 256 :=
  fun _ hx => (decimal_toNat_lt hx).trans (by decide)

theorem colon_notMem_toDigits (n : UInt64) : ':' ∉ Nat.toDigits 10 n.toNat :=
  fun hx => absurd (decimal_toNat_lt hx) (by decide)

theorem toDigits_word_inj {x y : UInt64} (hxy : Nat.toDigits 10 x.toNat = Nat.toDigits 10 y.toNat) :
    x = y := UInt64.toNat_inj.mp (decimal_inj hxy)

theorem forall_ascii {s : List Char} (hs : s.all (fun x => decide (x.toNat < 256)) = true) :
    ∀ x ∈ s, x.toNat < 256 := fun x hx => of_decide_eq_true (List.all_eq_true.mp hs x hx)

theorem signedVoteKey_ascii (chainId height : UInt64) :
    ∀ x ∈ signedVoteKeyPrefix ++ (Nat.toDigits 10 chainId.toNat ++
      ':' :: Nat.toDigits 10 height.toNat), x.toNat < 256 := by
  have hp := forall_ascii (s := signedVoteKeyPrefix) (by decide)
  intro x hx
  rcases List.mem_append.mp hx with hx | hx
  · exact hp x hx
  rcases List.mem_append.mp hx with hx | hx
  · exact toDigits_ascii chainId x hx
  rcases List.mem_cons.mp hx with rfl | hx
  · decide
  · exact toDigits_ascii height x hx

theorem signedVoteMetaKey_ascii (chainId : UInt64) :
    ∀ x ∈ signedVoteMetaPrefix ++ Nat.toDigits 10 chainId.toNat, x.toNat < 256 := by
  have hp := forall_ascii (s := signedVoteMetaPrefix) (by decide)
  intro x hx
  rcases List.mem_append.mp hx with hx | hx
  · exact hp x hx
  · exact toDigits_ascii chainId x hx

theorem signedVoteKey_inj (he : signedVoteKey chainId height = signedVoteKey chainId' h) :
    chainId = chainId' ∧ height = h := by
  have hl := List.append_cancel_left
    (ascii_inj (signedVoteKey_ascii chainId height) (signedVoteKey_ascii chainId' h) he)
  obtain ⟨hc, -, hh⟩ := (List.append_cons_inj_of_notMem (colon_notMem_toDigits chainId)
    (colon_notMem_toDigits height)).mp hl
  exact ⟨toDigits_word_inj hc, toDigits_word_inj hh⟩

theorem signedVoteMetaKey_inj (he : signedVoteMetaKey chainId = signedVoteMetaKey chainId') :
    chainId = chainId' :=
  toDigits_word_inj (List.append_cancel_left
    (ascii_inj (signedVoteMetaKey_ascii chainId) (signedVoteMetaKey_ascii chainId') he))

theorem signedVoteKey_ne_metaKey : signedVoteKey chainId height ≠ signedVoteMetaKey chainId' := by
  intro he
  have hv : signedVoteKeyPrefix = "checkpoint_signed".toList ++ [':'] := by decide
  have hm : signedVoteMetaPrefix = "checkpoint_signed".toList ++ '_' :: "meta:".toList := by
    decide
  have hl := ascii_inj (signedVoteKey_ascii chainId height) (signedVoteMetaKey_ascii chainId') he
  rw [hv, hm, List.append_assoc, List.append_assoc] at hl
  have hd := (List.cons.inj (List.append_cancel_left hl)).1
  exact absurd hd (by decide)

end Keys

-- From here on the layout of the keys is only used through the three lemmas above.
attribute [irreducible] signedVoteKey signedVoteMetaKey

/-- Nothing is signed at or below `floor`; `highest` is the highest height signed. -/
structure SignedVoteMeta where
  floor : UInt64 := 0
  highest : UInt64 := 0
  deriving DecidableEq, Repr

def SignedVoteMeta.encode (m : SignedVoteMeta) : Bytes :=
  toBe 8 m.floor.toNat ++ toBe 8 m.highest.toNat

def SignedVoteMeta.decode (bs : Bytes) : Option SignedVoteMeta :=
  if bs.length = 16 then
    some ⟨UInt64.ofNat (ofBe (bs.take 8)), UInt64.ofNat (ofBe (bs.drop 8))⟩
  else none

@[simp] theorem SignedVoteMeta.decode_encode (m : SignedVoteMeta) :
    SignedVoteMeta.decode m.encode = some m := by
  have hf : m.floor.toNat < 256 ^ 8 := by simpa using m.floor.toNat_lt
  have hh : m.highest.toNat < 256 ^ 8 := by simpa using m.highest.toNat_lt
  simp [decode, encode, ofBe_toBe hf, ofBe_toBe hh]

inductive SignRefusal
  | noDurableStore
  | storeUnavailable (error : String)
  | conflicting (signed : Hash)
  | belowSignedFloor (floor : UInt64)
  | corruptRecord (what : String)
  | halted
  deriving DecidableEq, Repr

def boundariesFrom (upto interval : UInt64) : ℕ → UInt64 → List UInt64
  | 0, _ => []
  | fuel + 1, h =>
    if h ≤ upto then
      h :: match checkedAdd h interval with
        | some next => boundariesFrom upto interval fuel next
        | none => []
    else []

def boundariesBetween (after upto interval : UInt64) : List UInt64 :=
  if interval = 0 ∨ upto ≤ after then []
  else
    match ((checkedDiv after interval).bind (checkedAdd · 1)).bind (checkedMul · interval) with
    | none => []
    | some first => boundariesFrom upto interval (maxSignedHeights + 1) first

/-- What the gadget reads of its configuration: `durable` says that its manager was built over
the persistent store, `enabled` is the compiled voting pin. -/
structure GadgetConfig where
  chainId : UInt64
  interval : UInt64
  enabled : Bool
  durable : Bool

structure Faults where
  metaRead : Option String := none
  recordRead : Option String := none
  batch : Option String := none

def kvGet (fault : Option String) (kv : PersistentStore) (key : Bytes) :
    Except String (Option Bytes) :=
  match fault with
  | some e => .error e
  | none => .ok (kv (.dagMetadata, key))

def kvWriteBatch (fault : Option String) (kv : PersistentStore)
    (ops : List (KvOp (Cf × Bytes) Bytes)) : Except String PersistentStore :=
  match fault with
  | some e => .error e
  | none => .ok (kv.writeBatch ops)

def signedMeta (c : GadgetConfig) (fault : Option String) (cache : Option SignedVoteMeta)
    (kv : PersistentStore) : Except SignRefusal SignedVoteMeta :=
  match cache with
  | some m => .ok m
  | none =>
    match kvGet fault kv (signedVoteMetaKey c.chainId) with
    | .error e => .error (.storeUnavailable e)
    | .ok none => .ok {}
    | .ok (some bytes) =>
      match SignedVoteMeta.decode bytes with
      | some m => .ok m
      | none => .error (.corruptRecord s!"signed-vote watermarks: {bytes.length} bytes")

/-- The part of the write batch that raises the watermarks from `m` to `next`: the new
watermarks, then the deletion of the records at the boundaries that fall to the floor. -/
def raiseOps (c : GadgetConfig) (m next : SignedVoteMeta) : List (KvOp (Cf × Bytes) Bytes) :=
  .put (.dagMetadata, signedVoteMetaKey c.chainId) next.encode ::
    (boundariesBetween m.floor (min next.floor m.highest) (max c.interval 1)).map fun h =>
      .delete (.dagMetadata, signedVoteKey c.chainId h)

def nextMeta (c : GadgetConfig) (m : SignedVoteMeta) (height : UInt64) : SignedVoteMeta :=
  let horizon := saturatingMul (max c.interval 1) (UInt64.ofNat maxSignedHeights)
  let highest := max m.highest height
  { floor := max m.floor (saturatingSub highest horizon), highest }

structure SignState where
  signedMeta : Option SignedVoteMeta
  kv : PersistentStore

def authorizeSign (c : GadgetConfig) (f : Faults) (st : SignState) (height : UInt64)
    (blockHash : Hash) : Except SignRefusal Unit × SignState :=
  if !c.durable then (.error .noDurableStore, st)
  else
    match signedMeta c f.metaRead st.signedMeta st.kv with
    | .error e => (.error e, st)
    | .ok m =>
      if height ≤ m.floor then (.error (.belowSignedFloor m.floor), ⟨some m, st.kv⟩)
      else
        match kvGet f.recordRead st.kv (signedVoteKey c.chainId height) with
        | .error e => (.error (.storeUnavailable e), ⟨some m, st.kv⟩)
        | .ok (some bytes) =>
          match Hash.ofBytes? bytes with
          | none =>
            (.error (.corruptRecord
              s!"signed-vote record at {height}: {bytes.length} bytes"), ⟨some m, st.kv⟩)
          | some signed =>
            (if signed = blockHash then .ok () else .error (.conflicting signed), ⟨some m, st.kv⟩)
        | .ok none =>
          let next := nextMeta c m height
          if height ≤ next.floor then (.error (.belowSignedFloor next.floor), ⟨some m, st.kv⟩)
          else
            match kvWriteBatch f.batch st.kv
                (.put (.dagMetadata, signedVoteKey c.chainId height) blockHash.asBytes ::
                  raiseOps c m next) with
            | .error e => (.error (.storeUnavailable e), ⟨some m, st.kv⟩)
            | .ok kv => (.ok (), ⟨some next, kv⟩)

def pruneSignedRecords (c : GadgetConfig) (f : Faults) (st : SignState) (floor : UInt64) :
    SignState :=
  if !c.durable then st
  else
    match signedMeta c f.metaRead st.signedMeta st.kv with
    | .error _ => st
    | .ok m =>
      if floor ≤ m.floor then ⟨some m, st.kv⟩
      else
        let next := { m with floor }
        match kvWriteBatch f.batch st.kv (raiseOps c m next) with
        | .error _ => ⟨some m, st.kv⟩
        | .ok kv => ⟨some next, kv⟩

/-- The part of the gadget's `prune` that touches the signed-vote record; `latestFinalized` is
the manager's latest finalized height. -/
def prune (c : GadgetConfig) (f : Faults) (st : SignState) (latestFinalized : UInt64) : SignState :=
  if c.enabled ∧ 0 < latestFinalized then pruneSignedRecords c f st latestFinalized else st

end CitrateChain.Consensus.SignedVotes
