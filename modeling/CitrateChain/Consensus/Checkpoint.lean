import CitrateChain.Base.TreeMap
import CitrateChain.Base.Word
import CitrateChain.Consensus.Types

/-! # Checkpoints, votes and certificates

The data of the committee checkpoints: vote messages, the derived quorum, and the test that a
checkpoint is a finality certificate. Signature verification (key decoding included) is the
parameter `verify`. -/
namespace CitrateChain.Consensus
open Std (ExtTreeMap)
open Word Bytes

abbrev PublicKey := BitVec 256

abbrev Signature := BitVec 512

def PublicKey.asBytes (pk : PublicKey) : Bytes := toBe 32 pk.toNat

/-- An ed25519 verifier: does the key decode and accept the signature of the message? -/
abbrev Verifier := PublicKey → Bytes → Signature → Bool

def minFinalityCommittee : ℕ := 4

def usizeMax : ℕ := 2 ^ 64 - 1

def derivedQuorum (n : ℕ) : ℕ := min (min (n * 2) usizeMax / 3 + 1) usizeMax

def voteDomainSeparator : Bytes := ascii "CITRATE-CHECKPOINT-V1".toList

def canonicalVoteMessage (chainId height : UInt64) (blockHash : Hash) : Bytes :=
  voteDomainSeparator ++ toLe 8 chainId.toNat ++ toLe 8 height.toNat ++ blockHash.asBytes

theorem canonicalVoteMessage_inj {chainId height : UInt64} {b b' : Hash}
    (h : canonicalVoteMessage chainId height b = canonicalVoteMessage chainId height b') : b = b' :=
  Hash.asBytes_inj (List.append_cancel_left h)

structure CheckpointConfig where
  interval : UInt64
  chainId : UInt64
  deriving DecidableEq, Repr

def isMultipleOf (a b : UInt64) : Bool := if b = 0 then a = 0 else a % b = 0

def CheckpointConfig.isCheckpointHeight (c : CheckpointConfig) (height : UInt64) : Bool :=
  0 < height && isMultipleOf height c.interval

structure CheckpointVote where
  height : UInt64
  blockHash : Hash
  voter : PublicKey
  signature : Signature
  deriving DecidableEq, Repr

inductive CheckpointStatus
  | pending
  | finalized
  deriving DecidableEq, Repr

abbrev Votes := ExtTreeMap PublicKey Signature

structure Checkpoint where
  height : UInt64
  blockHash : Hash
  committee : List PublicKey
  votes : Votes
  status : CheckpointStatus
  deriving DecidableEq

inductive CertificateFault
  | notFinalized (status : CheckpointStatus)
  | belowFinalityMinimum (n : ℕ)
  | tooFewVotes (votes n quorum : ℕ)
  | voterNotInCommittee (voter : PublicKey)
  | badSignature (voter : PublicKey) (chainId : UInt64)
  deriving DecidableEq, Repr

inductive CheckpointError
  | blockNotFound (hash : Hash)
  | notCheckpointBoundary
  | alreadyExists (height : UInt64)
  | notInCommittee (voter : PublicKey)
  | duplicateVote (voter : PublicKey)
  | invalidSignature (voter : PublicKey)
  | quorumNotReached (votes quorum : ℕ)
  | committeeTooSmall (n minimum : ℕ)
  | storageError (what : String)
  | invalidCertificate (height : UInt64) (reason : CertificateFault)
  deriving DecidableEq, Repr

def verifyVoteSignature (verify : Verifier) (vote : CheckpointVote) (chainId : UInt64) :
    Except CheckpointError Unit :=
  if verify vote.voter (canonicalVoteMessage chainId vote.height vote.blockHash) vote.signature
  then .ok () else .error (.invalidSignature vote.voter)

namespace Checkpoint

def effectiveQuorum (cp : Checkpoint) : Option ℕ :=
  if cp.committee.length < minFinalityCommittee then none
  else some (derivedQuorum cp.committee.length)

def hasDerivedQuorum (cp : Checkpoint) : Bool :=
  match cp.effectiveQuorum with
  | some q => q ≤ cp.votes.size
  | none => false

def verifyVotes (verify : Verifier) (chainId : UInt64) (cp : Checkpoint) :
    List (PublicKey × Signature) → Except CheckpointError Unit
  | [] => .ok ()
  | (voter, signature) :: rest =>
    if voter ∉ cp.committee then
      .error (.invalidCertificate cp.height (.voterNotInCommittee voter))
    else
      match verifyVoteSignature verify ⟨cp.height, cp.blockHash, voter, signature⟩ chainId with
      | .error _ => .error (.invalidCertificate cp.height (.badSignature voter chainId))
      | .ok () => verifyVotes verify chainId cp rest

def verifyCertificate (verify : Verifier) (cp : Checkpoint) (chainId : UInt64) :
    Except CheckpointError Unit :=
  if cp.status ≠ .finalized then .error (.invalidCertificate cp.height (.notFinalized cp.status))
  else
    match cp.effectiveQuorum with
    | none =>
      .error (.invalidCertificate cp.height (.belowFinalityMinimum cp.committee.length))
    | some quorum =>
      if cp.votes.size < quorum then
        .error (.invalidCertificate cp.height
          (.tooFewVotes cp.votes.size cp.committee.length quorum))
      else verifyVotes verify chainId cp cp.votes.toList

def extendsCertificate (current guarded : Checkpoint) : Bool :=
  current.height = guarded.height && current.blockHash = guarded.blockHash &&
    current.committee = guarded.committee &&
    guarded.votes.toList.all fun v => current.votes[v.1]? = some v.2

/-- Every vote is by a committee member and signs this checkpoint on `chainId`. -/
def WellVoted (verify : Verifier) (chainId : UInt64) (cp : Checkpoint) : Prop :=
  ∀ (voter : PublicKey) (sig : Signature), cp.votes[voter]? = some sig → voter ∈ cp.committee ∧
    verify voter (canonicalVoteMessage chainId cp.height cp.blockHash) sig = true

variable {verify : Verifier} {chainId : UInt64} {cp current guarded : Checkpoint}

theorem hasDerivedQuorum_iff : cp.hasDerivedQuorum = true ↔
    minFinalityCommittee ≤ cp.committee.length ∧
      derivedQuorum cp.committee.length ≤ cp.votes.size := by
  unfold hasDerivedQuorum effectiveQuorum
  by_cases h : cp.committee.length < minFinalityCommittee
  · simp [h]
  · simp [h, not_lt.mp h]

theorem verifyVotes_eq_ok {vs : List (PublicKey × Signature)} :
    verifyVotes verify chainId cp vs = .ok () ↔ ∀ v ∈ vs, v.1 ∈ cp.committee ∧
      verify v.1 (canonicalVoteMessage chainId cp.height cp.blockHash) v.2 = true := by
  induction vs with
  | nil => simp [verifyVotes]
  | cons v vs ih =>
    obtain ⟨voter, sig⟩ := v
    by_cases hm : voter ∈ cp.committee
    · by_cases hv : verify voter (canonicalVoteMessage chainId cp.height cp.blockHash) sig = true
      · simp [verifyVotes, verifyVoteSignature, hm, hv, ih]
      · simp [verifyVotes, verifyVoteSignature, hm, hv]
    · simp [verifyVotes, hm]

theorem verifyCertificate_eq_ok : verifyCertificate verify cp chainId = .ok () ↔
    cp.status = .finalized ∧ cp.hasDerivedQuorum = true ∧ WellVoted verify chainId cp := by
  have hw : (∀ v ∈ cp.votes.toList, v.1 ∈ cp.committee ∧
      verify v.1 (canonicalVoteMessage chainId cp.height cp.blockHash) v.2 = true) ↔
      WellVoted verify chainId cp := by
    simp only [WellVoted, Prod.forall, ExtTreeMap.mem_toList_iff_getElem?_eq_some]
  rw [hasDerivedQuorum_iff, ← hw, ← verifyVotes_eq_ok]
  unfold verifyCertificate effectiveQuorum
  by_cases hs : cp.status = .finalized
  · by_cases hn : cp.committee.length < minFinalityCommittee
    · simp [hs, hn]
    · by_cases hq : cp.votes.size < derivedQuorum cp.committee.length
      · simp [hs, hn, hq, not_le.mpr hq]
      · simp [hs, hn, hq, not_lt.mp hn, not_lt.mp hq]
  · simp [hs]

theorem extendsCertificate_iff : extendsCertificate current guarded = true ↔
    current.height = guarded.height ∧ current.blockHash = guarded.blockHash ∧
      current.committee = guarded.committee ∧ TreeMap.Sub guarded.votes current.votes := by
  simp [extendsCertificate, TreeMap.Sub, ExtTreeMap.mem_toList_iff_getElem?_eq_some, and_assoc]

theorem extendsCertificate_refl : extendsCertificate cp cp = true :=
  extendsCertificate_iff.mpr ⟨rfl, rfl, rfl, .refl _⟩

theorem hasDerivedQuorum_of_extends (he : extendsCertificate current guarded = true)
    (hq : guarded.hasDerivedQuorum = true) : current.hasDerivedQuorum = true := by
  obtain ⟨-, -, hc, hv⟩ := extendsCertificate_iff.mp he
  rw [hasDerivedQuorum_iff] at hq ⊢
  rw [hc]
  exact ⟨hq.1, hq.2.trans hv.size_le⟩

theorem hasDerivedQuorum_effectiveQuorum (hq : cp.hasDerivedQuorum = true) :
    cp.effectiveQuorum = some (derivedQuorum cp.committee.length) := by
  have hn := (hasDerivedQuorum_iff.mp hq).1
  simp [effectiveQuorum, not_lt.mpr hn]

end Checkpoint

end CitrateChain.Consensus
