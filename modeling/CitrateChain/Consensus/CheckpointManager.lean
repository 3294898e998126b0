import Mathlib.Data.Finset.Card
import CitrateChain.Base.Runs
import CitrateChain.Consensus.Checkpoint

/-! # The checkpoint manager at lock granularity

Calls of the manager run concurrently. Each rule of `Step` is what one call does while it holds
a lock; a call that keeps the `pending` lock while it takes others keeps `pendingLock`, and
`finalizeSerial` is the mutex around a whole finalization. Which writes fail, and which blocks
the DAG store knows, is up to the environment. -/
namespace CitrateChain.Consensus.CheckpointManager
open Std (ExtTreeMap)

def maxPendingCheckpoints : ℕ := 64

def maxFinalizedInMemory : ℕ := 256

abbrev Checkpoints := ExtTreeMap UInt64 Checkpoint

/-- The `checkpoint:<height>` records of the persistent store; `some none` does not decode. -/
abbrev CertificateStore := KvStore UInt64 (Option Checkpoint)

/-- What is fixed when a manager is built: `guarded` says that a finalization guard is installed,
`persistent` that there is a persistent store. -/
structure Manager where
  config : CheckpointConfig
  verify : Verifier
  guarded : Bool
  persistent : Bool

inductive ProposeOutcome
  | proposed
  | alreadyPending
  | alreadyFinalized
  | conflictingPending (pending : Hash)
  deriving DecidableEq, Repr

/-- The replay markers `(height, voter)`. -/
abbrev Voted := Finset (UInt64 × PublicKey)

/-- The eviction loop of `ensure_proposed`: the lowest pending height goes while the map is full. -/
def evict : ℕ → Checkpoints × Voted → Checkpoints × Voted
  | 0, r => r
  | fuel + 1, (pending, voted) =>
    if maxPendingCheckpoints ≤ pending.size then
      match pending.keys.head? with
      | none => (pending, voted)
      | some lowest => evict fuel (pending.erase lowest, voted.filter fun v => v.1 ≠ lowest)
    else (pending, voted)

structure Proposal where
  height : UInt64
  blockHash : Hash
  committee : List PublicKey
  deriving DecidableEq

def insertPending (p : Proposal) (pending : Checkpoints) (voted : Voted) :
    ProposeOutcome × Checkpoints × Voted :=
  match pending[p.height]? with
  | some existing =>
    (if existing.blockHash = p.blockHash then .alreadyPending
      else .conflictingPending existing.blockHash, pending, voted)
  | none =>
    let (pending, voted) := evict pending.size (pending, voted)
    (.proposed, pending.insert p.height ⟨p.height, p.blockHash, p.committee, ∅, .pending⟩, voted)

def submitVote (m : Manager) (vote : CheckpointVote) (pending : Checkpoints) (voted : Voted) :
    Except CheckpointError Bool × Checkpoints × Voted :=
  match pending[vote.height]? with
  | none => (.error (.blockNotFound 0), pending, voted)
  | some cp =>
    if vote.voter ∉ cp.committee then (.error (.notInCommittee vote.voter), pending, voted)
    else if vote.voter ∈ cp.votes then (.error (.duplicateVote vote.voter), pending, voted)
    else if vote.blockHash ≠ cp.blockHash then
      (.error (.invalidSignature vote.voter), pending, voted)
    else
      match verifyVoteSignature m.verify vote m.config.chainId with
      | .error e => (.error e, pending, voted)
      | .ok () =>
        if (vote.height, vote.voter) ∈ voted then
          (.error (.duplicateVote vote.voter), pending, voted)
        else
          let cp := { cp with votes := cp.votes.insert vote.voter vote.signature }
          (.ok cp.hasDerivedQuorum, pending.insert vote.height cp,
            insert (vote.height, vote.voter) voted)

theorem submitVote_cases {m : Manager} {vote : CheckpointVote} {pending pending' : Checkpoints}
    {voted voted' : Voted} {r : Except CheckpointError Bool}
    (hr : submitVote m vote pending voted = (r, pending', voted')) :
    (∃ e, r = .error e) ∧ pending' = pending ∧ voted' = voted ∨
      ∃ cp, pending[vote.height]? = some cp ∧ vote.voter ∈ cp.committee ∧ vote.voter ∉ cp.votes ∧
        vote.blockHash = cp.blockHash ∧
        verifyVoteSignature m.verify vote m.config.chainId = .ok () ∧
        (∃ quorum, r = .ok quorum) ∧
        pending' = pending.insert vote.height
          { cp with votes := cp.votes.insert vote.voter vote.signature } ∧
        voted' = insert (vote.height, vote.voter) voted := by
  unfold submitVote at hr
  split at hr
  · cases hr
    exact .inl ⟨⟨_, rfl⟩, rfl, rfl⟩
  rename_i cp hcp
  split at hr
  · cases hr
    exact .inl ⟨⟨_, rfl⟩, rfl, rfl⟩
  rename_i hmember
  split at hr
  · cases hr
    exact .inl ⟨⟨_, rfl⟩, rfl, rfl⟩
  rename_i hnew
  split at hr
  · cases hr
    exact .inl ⟨⟨_, rfl⟩, rfl, rfl⟩
  rename_i hhash
  split at hr
  · cases hr
    exact .inl ⟨⟨_, rfl⟩, rfl, rfl⟩
  rename_i hsig
  split at hr
  · cases hr
    exact .inl ⟨⟨_, rfl⟩, rfl, rfl⟩
  cases hr
  exact .inr ⟨cp, hcp, not_not.mp hmember, hnew, not_not.mp hhash, hsig, ⟨_, rfl⟩, rfl, rfl⟩

inductive PersistFault
  | serialize (error : String)
  | put (error : String)

def persistCertificate (m : Manager) (fault : Option PersistFault) (certs : CertificateStore)
    (cp : Checkpoint) : Except CheckpointError CertificateStore :=
  if !m.persistent then .ok certs
  else
    match fault with
    | some (.serialize e) =>
      .error (.storageError s!"serialize certificate at height {cp.height}: {e}")
    | some (.put e) => .error (.storageError s!"persist certificate at height {cp.height}: {e}")
    | none => .ok (certs.write (.put cp.height (some cp)))

def candidate (pending : Checkpoints) (height : UInt64) : Except CheckpointError Checkpoint :=
  match pending[height]? with
  | none => .error (.blockNotFound 0)
  | some cp =>
    match cp.effectiveQuorum with
    | none => .error (.committeeTooSmall cp.committee.length minFinalityCommittee)
    | some quorum =>
      if cp.hasDerivedQuorum then .ok { cp with status := .finalized }
      else .error (.quorumNotReached cp.votes.size quorum)

/-- Which checkpoint finalizes: the pending entry only if no guard ran or it extends what the
guard saw. -/
def chooseCheckpoint (removed guarded : Option Checkpoint) : Except CheckpointError Checkpoint :=
  match removed, guarded with
  | some cp, some seen =>
    if cp.extendsCertificate seen then .ok cp else .ok { seen with status := .pending }
  | none, some seen => .ok { seen with status := .pending }
  | some cp, none => .ok cp
  | none, none => .error (.blockNotFound 0)

/-- The end of `finalize_checkpoint` up to the point where its certificate is durable, with the
`pending` map and the store it leaves. -/
def settle (m : Manager) (fault : Option PersistFault) (height : UInt64)
    (guarded : Option Checkpoint) (pending : Checkpoints) (certs : CertificateStore) :
    Except CheckpointError Checkpoint × Checkpoints × CertificateStore :=
  let rest := pending.erase height
  match chooseCheckpoint pending[height]? guarded with
  | .error e => (.error e, rest, certs)
  | .ok cp =>
    match cp.effectiveQuorum with
    | none =>
      (.error (.committeeTooSmall cp.committee.length minFinalityCommittee),
        rest.insert height cp, certs)
    | some quorum =>
      if !cp.hasDerivedQuorum then
        (.error (.quorumNotReached cp.votes.size quorum), rest.insert height cp, certs)
      else
        let cp := { cp with status := .finalized }
        match guarded with
        | none =>
          match persistCertificate m fault certs cp with
          | .error e => (.error e, rest.insert height { cp with status := .pending }, certs)
          | .ok certs => (.ok cp, rest, certs)
        | some seen =>
          if cp.votes.size ≠ seen.votes.size then
            match persistCertificate m fault certs cp with
            | .error _ => (.ok seen, rest, certs)
            | .ok certs => (.ok cp, rest, certs)
          else (.ok cp, rest, certs)

def trimFinalized (finalized : Checkpoints) : Checkpoints :=
  if finalized.size ≤ maxFinalizedInMemory then finalized
  else (finalized.keys.take (finalized.size - maxFinalizedInMemory)).foldl .erase finalized

abbrev CallId := ℕ

/-- A finalization whose certificate is durable: the certificate the guard saw, if one ran, and
the checkpoint that becomes visible. -/
structure Finalization where
  height : UInt64
  guarded : Option Checkpoint
  checkpoint : Checkpoint

inductive Call
  | idle
  | proposeLatest (p : Proposal)
  | proposeMemory (p : Proposal)
  | proposeStore (p : Proposal)
  | proposeBlock (p : Proposal)
  | proposeInsert (p : Proposal)
  | proposed (result : Except CheckpointError ProposeOutcome)
  | voted (result : Except CheckpointError Bool)
  | pruneVoted (floor : UInt64)
  | pruned
  | finalizeLock (height : UInt64)
  | finalizeCandidate (height : UInt64)
  | finalizePersist (height : UInt64) (candidate : Checkpoint)
  | finalizeGuard (height : UInt64) (candidate : Checkpoint)
  | finalizeSettle (height : UInt64) (guarded : Option Checkpoint)
  | finalizeDag (f : Finalization)
  | finalizeLatest (f : Finalization)
  | finalizeRecord (f : Finalization)
  | finalizeMarkers (f : Finalization)
  | finalizeUnlock (f : Finalization)
  | finalizeAfter (f : Finalization)
  | finalized (result : Except CheckpointError Checkpoint)

structure State where
  pending : Checkpoints
  finalized : Checkpoints
  latestFinalizedHeight : UInt64
  voted : Voted
  certificates : CertificateStore
  dagBlocks : Finset Hash
  dagFinalized : Finset Hash
  finalizeSerial : Option CallId
  pendingLock : Option CallId
  calls : CallId → Call

namespace State

def goto (s : State) (i : CallId) (c : Call) : State := { s with calls := Function.update s.calls i c }

def finish (s : State) (i : CallId) (r : Except CheckpointError Checkpoint) : State :=
  { s.goto i (.finalized r) with finalizeSerial := none }

def storedFinalized (m : Manager) (s : State) (height : UInt64) : Bool :=
  m.persistent && match s.certificates height with
    | some (some cp) => cp.status = .finalized && cp.height = height
    | _ => false

end State

/-- What a step shows: the start of a proposal, the delivery of a vote, the guard's run on a
certificate, a checkpoint entering the finalized map. -/
inductive Event
  | silent
  | propose (p : Proposal)
  | vote (v : CheckpointVote)
  | beforeFinalize (certificate : Checkpoint)
  | finalize (height : UInt64) (checkpoint : Checkpoint)

inductive Step (m : Manager) : State → CallId × Event → State → Prop
  | propose {s i} (p : Proposal) (hc : s.calls i = .idle) :
      Step m s (i, .propose p) (s.goto i (if m.config.isCheckpointHeight p.height
        then .proposeLatest p else .proposed (.error .notCheckpointBoundary)))
  | proposeLatest {s i p} (hc : s.calls i = .proposeLatest p) :
      Step m s (i, .silent) (s.goto i (if p.height ≤ s.latestFinalizedHeight
        then .proposed (.ok .alreadyFinalized) else .proposeMemory p))
  | proposeMemory {s i p} (hc : s.calls i = .proposeMemory p) :
      Step m s (i, .silent) (s.goto i (if p.height ∈ s.finalized
        then .proposed (.ok .alreadyFinalized) else .proposeStore p))
  | proposeStore {s i p} (hc : s.calls i = .proposeStore p) :
      Step m s (i, .silent) (s.goto i (if s.storedFinalized m p.height
        then .proposed (.ok .alreadyFinalized) else .proposeBlock p))
  | proposeBlock {s i p} (hc : s.calls i = .proposeBlock p) :
      Step m s (i, .silent) (s.goto i (if p.blockHash ∈ s.dagBlocks
        then .proposeInsert p else .proposed (.error (.blockNotFound p.blockHash))))
  | proposeInsert {s i p o pending voted} (hc : s.calls i = .proposeInsert p)
      (hl : s.pendingLock = none) (ho : insertPending p s.pending s.voted = (o, pending, voted)) :
      Step m s (i, .silent) { s.goto i (.proposed (.ok o)) with pending, voted }
  | vote {s i r pending voted} (v : CheckpointVote) (hc : s.calls i = .idle)
      (hl : s.pendingLock = none) (hr : submitVote m v s.pending s.voted = (r, pending, voted)) :
      Step m s (i, .vote v) { s.goto i (.voted r) with pending, voted }
  | prune {s i} (floor : UInt64) (hc : s.calls i = .idle) (hl : s.pendingLock = none) :
      Step m s (i, .silent)
        { s.goto i (.pruneVoted floor) with pending := s.pending.filter fun h _ => floor < h }
  | pruneVoted {s i floor} (hc : s.calls i = .pruneVoted floor) :
      Step m s (i, .silent) { s.goto i .pruned with voted := s.voted.filter fun v => floor < v.1 }
  | finalize {s i} (height : UInt64) (hc : s.calls i = .idle) :
      Step m s (i, .silent) (s.goto i (.finalizeLock height))
  | finalizeLock {s i height} (hc : s.calls i = .finalizeLock height)
      (hl : s.finalizeSerial = none) :
      Step m s (i, .silent) { s.goto i (if m.guarded then .finalizeCandidate height
        else .finalizeSettle height none) with finalizeSerial := some i }
  | candidateErr {s i height e} (hc : s.calls i = .finalizeCandidate height)
      (hl : s.pendingLock = none) (hr : candidate s.pending height = .error e) :
      Step m s (i, .silent) (s.finish i (.error e))
  | candidateOk {s i height cp} (hc : s.calls i = .finalizeCandidate height)
      (hl : s.pendingLock = none) (hr : candidate s.pending height = .ok cp) :
      Step m s (i, .silent) (s.goto i (.finalizePersist height cp))
  | persistErr {s i height cp e} (fault : Option PersistFault)
      (hc : s.calls i = .finalizePersist height cp)
      (hr : persistCertificate m fault s.certificates cp = .error e) :
      Step m s (i, .silent) (s.finish i (.error e))
  | persistOk {s i height cp certificates} (fault : Option PersistFault)
      (hc : s.calls i = .finalizePersist height cp)
      (hr : persistCertificate m fault s.certificates cp = .ok certificates) :
      Step m s (i, .silent) { s.goto i (.finalizeGuard height cp) with certificates }
  | beforeFinalize {s i height cp} (hc : s.calls i = .finalizeGuard height cp) :
      Step m s (i, .beforeFinalize cp) (s.goto i (.finalizeSettle height (some cp)))
  | settleErr {s i height guarded e pending certificates} (fault : Option PersistFault)
      (hc : s.calls i = .finalizeSettle height guarded) (hl : s.pendingLock = none)
      (hr : settle m fault height guarded s.pending s.certificates =
        (.error e, pending, certificates)) :
      Step m s (i, .silent) { s.finish i (.error e) with pending, certificates }
  | settleOk {s i height guarded cp pending certificates} (fault : Option PersistFault)
      (hc : s.calls i = .finalizeSettle height guarded) (hl : s.pendingLock = none)
      (hr : settle m fault height guarded s.pending s.certificates =
        (.ok cp, pending, certificates)) :
      Step m s (i, .silent) { s.goto i (.finalizeDag ⟨height, guarded, cp⟩) with
        pending, certificates, pendingLock := some i }
  | finalizeDag {s i f} (hc : s.calls i = .finalizeDag f) :
      Step m s (i, .silent) { s.goto i (.finalizeLatest f) with
        dagFinalized := if f.checkpoint.blockHash ∈ s.dagBlocks
          then insert f.checkpoint.blockHash s.dagFinalized else s.dagFinalized }
  | finalizeLatest {s i f} (hc : s.calls i = .finalizeLatest f) :
      Step m s (i, .silent) { s.goto i (.finalizeRecord f) with
        latestFinalizedHeight := max s.latestFinalizedHeight f.height }
  | finalizeRecord {s i f} (hc : s.calls i = .finalizeRecord f) :
      Step m s (i, .finalize f.height f.checkpoint) { s.goto i (.finalizeMarkers f) with
        finalized := trimFinalized (s.finalized.insert f.height f.checkpoint) }
  | finalizeMarkers {s i f} (hc : s.calls i = .finalizeMarkers f) :
      Step m s (i, .silent) { s.goto i (.finalizeUnlock f) with
        voted := s.voted.filter fun v => v.1 ≠ f.height }
  | finalizeUnlock {s i f} (hc : s.calls i = .finalizeUnlock f) :
      Step m s (i, .silent) { s.goto i (.finalizeAfter f) with pendingLock := none }
  | finalizeAfter {s i f} (hc : s.calls i = .finalizeAfter f) :
      Step m s (i, .silent) (s.finish i (.ok f.checkpoint))
  | dagStore {s i} (dagBlocks : Finset Hash) : Step m s (i, .silent) { s with dagBlocks }

end CitrateChain.Consensus.CheckpointManager
