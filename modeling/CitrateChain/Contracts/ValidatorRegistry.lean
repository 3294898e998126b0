import CitrateChain.Base.Bytes
import CitrateChain.Base.Mapping
import CitrateChain.Contracts.Governable

/-! # The validator registry

Stakers bond funds behind a proposer key. Unbonded principal and young rewards stay slashable in
escrow and in a ring of recent epochs before they can be taken out. -/
namespace CitrateChain.Contracts
open Contract
open Bytes (toBe ascii)

abbrev Bytes32 := BitVec 256

def ether : ℕ := 10 ^ 18

def epochLength : ℕ := 1000

def snapshotLag : ℕ := 200

def maxActiveSet : ℕ := 100

def evictionMarginBps : ℕ := 2500

def churnCap : ℕ := 5

def unbondPeriodEpochs : ℕ := 3

def evidenceWindowEpochs : ℕ := 3

def exitLockEpochs : ℕ := unbondPeriodEpochs + evidenceWindowEpochs

def rewardRing : ℕ := evidenceWindowEpochs + 1

def minStakeFloor : ℕ := 1000 * ether

def minStakeCeil : ℕ := 1000000 * ether

def blockSubsidyCeil : ℕ := 1000 * ether

def maxEpochEmissionCeil : ℕ := 1000000 * ether

def govTimelock : ℕ := 172800

def govMaxDeltaBps : ℕ := 5000

def bountyBps : ℕ := 1000

inductive Status
  | none | active | exiting | slashed
  deriving DecidableEq

inductive SlashTier
  | latency | inconsistency | byzantine
  deriving DecidableEq

def SlashTier.penaltyBps : SlashTier → ℕ
  | .byzantine => 10000
  | .inconsistency => 2000
  | .latency => 500

structure Validator where
  staker : Address := 0
  bondedStake : ℕ := 0
  vestedRewards : ℕ := 0
  ripeRewards : ℕ := 0
  escrow : ℕ := 0
  admissionMinStake : ℕ := 0
  activationEpoch : ℕ := 0
  exitEpoch : ℕ := 0
  escrowUnlockEpoch : ℕ := 0
  status : Status := .none
  withdrawn : Bool := false

instance : Inhabited Validator := ⟨{}⟩

structure RewardRing where
  amount : Fin 4 → ℕ := fun _ => 0
  epoch : Fin 4 → ℕ := fun _ => 0

instance : Inhabited RewardRing := ⟨{}⟩

inductive Param
  | minStake | blockSubsidy | priorityFeeShareBps | maxEpochEmission
  deriving DecidableEq

structure PendingValue (α : Type) where
  value : α
  eta : ℕ

/-- What happened to the funds of a key; a record of the model, not of the contract. -/
structure KeyBook where
  escrowed : List (ℕ × ℕ) := []
  principalPaid : ℕ := 0
  credited : List (ℕ × ℕ) := []
  rewardsPaid : ℕ := 0

instance : Inhabited KeyBook := ⟨{}⟩

namespace KeyBook

def escrow (b : KeyBook) (epoch amount : ℕ) : KeyBook :=
  { b with escrowed := b.escrowed ++ [(epoch, amount)] }

def payPrincipal (b : KeyBook) (amount : ℕ) : KeyBook :=
  { b with principalPaid := b.principalPaid + amount }

def credit (b : KeyBook) (epoch amount : ℕ) : KeyBook :=
  { b with credited := b.credited ++ [(epoch, amount)] }

def payRewards (b : KeyBook) (amount : ℕ) : KeyBook := { b with rewardsPaid := b.rewardsPaid + amount }

end KeyBook

structure Registry where
  rewardRings : Mapping Bytes32 RewardRing := ∅
  validators : Mapping Bytes32 Validator := ∅
  pubkeyOfStaker : Mapping Address Bytes32 := ∅
  pubkeyEverRegistered : Mapping Bytes32 Bool := ∅
  slashedPubkey : Mapping Bytes32 Bool := ∅
  slashedStaker : Mapping Address Bool := ∅
  registrationNonce : Mapping Address ℕ := ∅
  usedEquivocation : Mapping Bytes32 Bool := ∅
  claimable : Mapping Address ℕ := ∅
  activeSet : List Bytes32 := []
  activeIndexPlusOne : Mapping Bytes32 ℕ := ∅
  evictionsInEpoch : Mapping ℕ ℕ := ∅
  emittedInEpoch : Mapping ℕ ℕ := ∅
  param : Param → ℕ
  slasher : Address
  rewardMinter : Address
  pendingParam : Param → Option (PendingValue ℕ) := fun _ => none
  pendingSlasher : Option (PendingValue Address) := none
  governable : Governable
  books : Mapping Bytes32 KeyBook := ∅

inductive RegistryError
  | badStake | banned | pubkeyTaken | stakerHasValidator | notStaker | notActive | badSig
  | setFullNoMargin | churnExceeded | locked | nothingToWithdraw | alreadySlashed | notSlasher
  | notMinter | badValue | emissionCapped | badEvidence | dupEvidence | selfReport | timelock
  | outOfBounds | zeroAddr
  | governance (e : GovernanceError)
  deriving DecidableEq

abbrev RegistryM := Except (Revert RegistryError)

def Registry.ofGovernable {α : Type} (x : Except (Revert GovernanceError) α) : RegistryM α :=
  x.mapError (Revert.map .governance)

structure RegistryRules where
  keccak : Bytes → Bytes32
  ed25519 : Bytes32 → Bytes → Bytes → Bool
  chainId : ℕ
  this : Address

section Digests
variable (r : RegistryRules)

def word {w : ℕ} (x : BitVec w) : Bytes := toBe 32 x.toNat

def ed25519Verify (key : Bytes32) (sig message : Bytes) : Bool :=
  if sig.length ≠ 64 then false else r.ed25519 key sig message

def registerTypehash : Bytes32 :=
  r.keccak (ascii ("Register(uint256 chainId,address registry,address staker,bytes32 proposerPubkey," ++
    "uint256 nonce)").toList)

def equivocationTypehash : Bytes32 :=
  r.keccak (ascii "EquivocationVote(uint256 chainId,address registry,uint64 height,bytes32 blockHash)".toList)

def registerDigest (staker : Address) (key : Bytes32) (nonce : ℕ) : Bytes32 :=
  r.keccak (word (registerTypehash r) ++ toBe 32 r.chainId ++ word r.this ++ word staker ++ word key ++
    toBe 32 nonce)

def equivocationDigest (height : UInt64) (blockHash : Bytes32) : Bytes32 :=
  r.keccak (word (equivocationTypehash r) ++ toBe 32 r.chainId ++ word r.this ++
    toBe 32 height.toNat ++ word blockHash)

def evidenceKey (key : Bytes32) (height : UInt64) (a b : Bytes32) : Bytes32 :=
  let lo := if a < b then a else b
  let hi := if a < b then b else a
  r.keccak (word key ++ toBe 8 height.toNat ++ word lo ++ word hi)

end Digests

def epochOf (blockHeight : ℕ) : ℕ := blockHeight / epochLength

def firstEpochAfterSnapshot (blockHeight : ℕ) : ℕ := ((blockHeight + snapshotLag) / epochLength + 1) % 2 ^ 64

def currentEpoch (env : Env) : ℕ := epochOf env.number.toNat

def unlockEpoch (env : Env) : ℕ := (currentEpoch env + exitLockEpochs) % 2 ^ 64

namespace Registry
variable (s : Registry)

def fillHole (idx last : ℕ) : RegistryM Registry :=
  if idx = last then .ok s
  else
    match s.activeSet[last]? with
    | none => .error .panic
    | some moved =>
      if idx < s.activeSet.length then
        .ok
          { s with
            activeSet := s.activeSet.set idx moved
            activeIndexPlusOne := s.activeIndexPlusOne.set moved (idx + 1) }
      else .error .panic

def removeFromActive (key : Bytes32) : RegistryM Registry :=
  let idxPlus := s.activeIndexPlusOne.get key
  if idxPlus = 0 then .ok s
  else do
    let last ← sub s.activeSet.length 1
    let s ← s.fillHole (idxPlus - 1) last
    return { s with
      activeSet := s.activeSet.dropLast
      activeIndexPlusOne := s.activeIndexPlusOne.set key 0 }

def minActive : Bytes32 × ℕ :=
  s.activeSet.foldl (fun (least : Bytes32 × ℕ) key =>
    let stake := (s.validators.get key).bondedStake
    if stake < least.2 then (key, stake) else least) (0, wordSize - 1)

def setValidator (key : Bytes32) (v : Validator) : Registry :=
  { s with validators := s.validators.set key v }

def setBook (key : Bytes32) (b : KeyBook) : Registry := { s with books := s.books.set key b }

def unbind (staker : Address) (key : Bytes32) : Registry :=
  if s.pubkeyOfStaker.get staker = key then
    { s with pubkeyOfStaker := s.pubkeyOfStaker.set staker 0 }
  else s

def beginExit (env : Env) (key : Bytes32) : RegistryM Registry := do
  let v := s.validators.get key
  let escrow ← add v.escrow v.bondedStake
  let v' : Validator :=
    { v with
      escrow
      bondedStake := 0
      escrowUnlockEpoch := unlockEpoch env
      status := .exiting
      exitEpoch := currentEpoch env % 2 ^ 64 }
  let s := (s.setValidator key v').setBook key ((s.books.get key).escrow (currentEpoch env) v.bondedStake)
  let s ← s.removeFromActive key
  return s.unbind v.staker key

/-- A full set takes a newcomer in the place of its least member, at a margin and a bounded rate. -/
def makeRoom (env : Env) : RegistryM Registry :=
  if s.activeSet.length < maxActiveSet then .ok s
  else do
    let least := s.minActive
    let scaled ← mul least.2 evictionMarginBps
    let required ← add least.2 (scaled / 10000)
    require (required ≤ env.value) .setFullNoMargin
    let evictions := s.evictionsInEpoch.get (currentEpoch env)
    require (evictions < churnCap) .churnExceeded
    let evictions' ← add evictions 1
    let s := { s with evictionsInEpoch := s.evictionsInEpoch.set (currentEpoch env) evictions' }
    s.beginExit env least.1

def enroll (env : Env) (key : Bytes32) : Registry :=
  let v : Validator :=
    { staker := env.sender
      bondedStake := env.value
      admissionMinStake := s.param .minStake
      activationEpoch := firstEpochAfterSnapshot env.number.toNat
      status := .active }
  { s with
    validators := s.validators.set key v
    pubkeyOfStaker := s.pubkeyOfStaker.set env.sender key
    pubkeyEverRegistered := s.pubkeyEverRegistered.set key true
    activeSet := s.activeSet ++ [key]
    activeIndexPlusOne := s.activeIndexPlusOne.set key (s.activeSet.length + 1) }

def registerValidator (r : RegistryRules) (env : Env) (key : Bytes32) (sig : Bytes) :
    RegistryM Registry := do
  require (s.param .minStake ≤ env.value) .badStake
  require (¬ (s.slashedPubkey.get key ∨ s.slashedStaker.get env.sender)) .banned
  require ((s.validators.get key).status = .none ∧ ¬ s.pubkeyEverRegistered.get key) .pubkeyTaken
  require (s.pubkeyOfStaker.get env.sender = 0) .stakerHasValidator
  let nonce := s.registrationNonce.get env.sender
  require (ed25519Verify r key sig (word (registerDigest r env.sender key nonce))) .badSig
  let nonce' ← add nonce 1
  let s := { s with registrationNonce := s.registrationNonce.set env.sender nonce' }
  let s ← s.makeRoom env
  return s.enroll env key

def increaseStake (env : Env) (key : Bytes32) : RegistryM Registry := do
  let v := s.validators.get key
  require (v.staker = env.sender) .notStaker
  require (v.status = .active) .notActive
  let bondedStake ← add v.bondedStake env.value
  return s.setValidator key { v with bondedStake }

def finishUnbond (env : Env) (key : Bytes32) (v : Validator) (remaining : ℕ) : RegistryM Registry :=
  if remaining = 0 then do
    let v' : Validator :=
      { v with bondedStake := 0, status := .exiting, exitEpoch := currentEpoch env % 2 ^ 64 }
    let s ← (s.setValidator key v').removeFromActive key
    return { s with pubkeyOfStaker := s.pubkeyOfStaker.set env.sender 0 }
  else return s.setValidator key { v with bondedStake := remaining }

def initiateUnbond (env : Env) (key : Bytes32) (amount : ℕ) : RegistryM Registry := do
  let v := s.validators.get key
  require (v.staker = env.sender) .notStaker
  require (v.status = .active) .notActive
  require (amount ≠ 0 ∧ amount ≤ v.bondedStake) .badStake
  let remaining := v.bondedStake - amount
  require (remaining = 0 ∨ v.admissionMinStake ≤ remaining) .badStake
  let escrow ← add v.escrow amount
  let v' : Validator := { v with escrow, escrowUnlockEpoch := unlockEpoch env }
  let s := s.setBook key ((s.books.get key).escrow (currentEpoch env) amount)
  s.finishUnbond env key v' remaining

/-- One slot of the ring. The decrement is clamped: a slash lowers the rewards and not the ring. -/
def sweepSlot (epoch : ℕ) (acc : RewardRing × Validator) (i : Fin 4) :
    RegistryM (RewardRing × Validator) :=
  let (ring, v) := acc
  if ring.amount i = 0 ∨ epoch < ring.epoch i + rewardRing then .ok acc
  else do
    let dec := if v.vestedRewards < ring.amount i then v.vestedRewards else ring.amount i
    let ripeRewards ← add v.ripeRewards dec
    return ({ ring with amount := Function.update ring.amount i 0 },
      { v with vestedRewards := v.vestedRewards - dec, ripeRewards })

def sweepMatured (env : Env) (key : Bytes32) : RegistryM Registry := do
  let (ring, v) ← [0, 1, 2, 3].foldlM (sweepSlot (currentEpoch env))
    (s.rewardRings.get key, s.validators.get key)
  return { s with rewardRings := s.rewardRings.set key ring, validators := s.validators.set key v }

def ringSlot (epoch : ℕ) : Fin 4 := ⟨epoch % rewardRing, Nat.mod_lt _ (by decide)⟩

def creditReward (env : Env) (key : Bytes32) (amount : ℕ) : RegistryM Registry := do
  require (env.sender = s.rewardMinter) .notMinter
  require (env.value = amount) .badValue
  require ((s.validators.get key).status = .active) .notActive
  let epoch := currentEpoch env
  let newTotal ← add (s.emittedInEpoch.get epoch) amount
  require (newTotal ≤ s.param .maxEpochEmission) .emissionCapped
  let s := { s with emittedInEpoch := s.emittedInEpoch.set epoch newTotal }
  let s ← s.sweepMatured env key
  let ring := s.rewardRings.get key
  let v := s.validators.get key
  let slot := ringSlot epoch
  let held ← add (ring.amount slot) amount
  let vestedRewards ← add v.vestedRewards amount
  let ring' : RewardRing :=
    { amount := Function.update ring.amount slot held
      epoch := Function.update ring.epoch slot (epoch % 2 ^ 64) }
  let s := { s with rewardRings := s.rewardRings.set key ring' }
  return (s.setValidator key { v with vestedRewards }).setBook key
    ((s.books.get key).credit epoch amount)

def claimRewards (env : Env) (key : Bytes32) : RegistryM (Effect Registry) := do
  require ((s.validators.get key).staker = env.sender) .notStaker
  let s ← s.sweepMatured env key
  let v := s.validators.get key
  require (v.ripeRewards ≠ 0) .nothingToWithdraw
  let s := (s.setValidator key { v with ripeRewards := 0 }).setBook key
    ((s.books.get key).payRewards v.ripeRewards)
  return { storage := s, payment := some v.ripeRewards }

def releaseEscrow (env : Env) (key : Bytes32) (v : Validator) : RegistryM (ℕ × Registry × Validator) :=
  if 0 < v.escrow then do
    require (v.escrowUnlockEpoch ≤ currentEpoch env) .locked
    return (v.escrow, s.setBook key ((s.books.get key).payPrincipal v.escrow), { v with escrow := 0 })
  else return (0, s, v)

def releaseRewards (env : Env) (key : Bytes32) (v : Validator) : RegistryM (ℕ × Registry × Validator) :=
  if v.status = .exiting ∧ v.bondedStake = 0 ∧ v.escrow = 0 ∧ ¬ v.withdrawn then do
    require (v.exitEpoch + exitLockEpochs ≤ currentEpoch env) .locked
    let rewards ← add v.vestedRewards v.ripeRewards
    let s := { s with rewardRings := s.rewardRings.set key {} }
    return (rewards, s.setBook key ((s.books.get key).payRewards rewards),
      { v with vestedRewards := 0, ripeRewards := 0, withdrawn := true })
  else return (0, s, v)

def withdraw (env : Env) (key : Bytes32) : RegistryM (Effect Registry) := do
  let v := s.validators.get key
  require (v.staker = env.sender) .notStaker
  require (v.status ≠ .slashed) .alreadySlashed
  let (principal, s, v) ← s.releaseEscrow env key v
  let (rewards, s, v) ← s.releaseRewards env key v
  let payout ← add principal rewards
  require (payout ≠ 0) .nothingToWithdraw
  return { storage := s.setValidator key v, payment := some payout }

def claimBounty (env : Env) : RegistryM (Effect Registry) := do
  let amount := s.claimable.get env.sender
  require (amount ≠ 0) .nothingToWithdraw
  return { storage := { s with claimable := s.claimable.set env.sender 0 }, payment := some amount }

/-- The penalty is drawn from the bond, then from the escrow, then from the rewards; each subtraction
stops at zero, as the comparisons of `_slash` make it. -/
def drawPenalty (v : Validator) (penalty : ℕ) : Validator :=
  let rem := penalty - v.bondedStake
  let rem' := rem - v.escrow
  { v with
    bondedStake := v.bondedStake - penalty
    escrow := v.escrow - rem
    vestedRewards := v.vestedRewards - rem' }

def accrueBounty (reporter : Address) (penalty : ℕ) : RegistryM Registry :=
  if reporter ≠ 0 ∧ 0 < penalty then do
    let scaled ← mul penalty bountyBps
    let bounty := scaled / 10000
    if 0 < bounty then do
      let claimable ← add (s.claimable.get reporter) bounty
      return { s with claimable := s.claimable.set reporter claimable }
    else return s
  else return s

def settleSlash (env : Env) (key : Bytes32) (tier : SlashTier) : RegistryM Registry :=
  let v := s.validators.get key
  if tier = .byzantine then do
    let s := s.setValidator key { v with status := .slashed }
    let s :=
      { s with
        slashedPubkey := s.slashedPubkey.set key true
        slashedStaker := s.slashedStaker.set v.staker true }
    let s ← s.removeFromActive key
    return s.unbind v.staker key
  else if v.status = .active ∧ v.bondedStake < v.admissionMinStake then s.beginExit env key
  else return s

def slashInternal (env : Env) (key : Bytes32) (tier : SlashTier) (reporter : Address) : RegistryM Registry := do
  require ((s.validators.get key).status ≠ .slashed) .alreadySlashed
  require ((s.validators.get key).status ≠ .none) .badEvidence
  let s ← s.sweepMatured env key
  let v := s.validators.get key
  let principal ← add v.bondedStake v.escrow
  let slashable ← add principal v.vestedRewards
  let scaled ← mul slashable tier.penaltyBps
  let penalty := scaled / 10000
  let s := s.setValidator key (drawPenalty v penalty)
  let s ← s.accrueBounty reporter penalty
  s.settleSlash env key tier

def submitEquivocation (r : RegistryRules) (env : Env) (key : Bytes32) (height : UInt64)
    (blockHashA : Bytes32) (sigA : Bytes) (blockHashB : Bytes32) (sigB : Bytes) : RegistryM Registry := do
  require (blockHashA ≠ blockHashB) .badEvidence
  let v := s.validators.get key
  require (v.status ≠ .none ∧ v.status ≠ .slashed) .badEvidence
  require (v.staker ≠ env.sender) .selfReport
  let dedup := evidenceKey r key height blockHashA blockHashB
  require (¬ s.usedEquivocation.get dedup) .dupEvidence
  require (ed25519Verify r key sigA (word (equivocationDigest r height blockHashA))) .badEvidence
  require (ed25519Verify r key sigB (word (equivocationDigest r height blockHashB))) .badEvidence
  let s := { s with usedEquivocation := s.usedEquivocation.set dedup true }
  s.slashInternal env key .byzantine env.sender

def slash (env : Env) (key : Bytes32) (tier : SlashTier) : RegistryM Registry := do
  require (env.sender = s.slasher) .notSlasher
  s.slashInternal env key tier 0

def withinBounds (value : ℕ) : Param → Prop
  | .minStake => minStakeFloor ≤ value ∧ value ≤ minStakeCeil
  | .blockSubsidy => value ≤ blockSubsidyCeil
  | .priorityFeeShareBps => value ≤ 10000
  | .maxEpochEmission => value ≤ maxEpochEmissionCeil

instance (value : ℕ) (p : Param) : Decidable (withinBounds value p) :=
  match p with
  | .minStake => inferInstanceAs (Decidable (_ ∧ _))
  | .blockSubsidy | .priorityFeeShareBps | .maxEpochEmission => inferInstanceAs (Decidable (_ ≤ _))

def checkDelta (current value : ℕ) : RegistryM Unit :=
  if current = 0 then .ok ()
  else do
    let scaled ← mul current govMaxDeltaBps
    let maxDelta := scaled / 10000
    let most ← add current maxDelta
    require (¬ (most < value ∨ value < current ∧ maxDelta < current - value)) .outOfBounds

def queueParam (env : Env) (p : Param) (value : ℕ) : RegistryM Registry := do
  ofGovernable (s.governable.onlyGovernance env)
  checkDelta (s.param p) value
  require (withinBounds value p) .outOfBounds
  let eta ← add env.timestamp govTimelock
  return { s with pendingParam := Function.update s.pendingParam p (some { value, eta }) }

def ripe {α : Type} (env : Env) : Option (PendingValue α) → RegistryM α
  | none => .error (.custom .timelock)
  | some p => if env.timestamp < p.eta then .error (.custom .timelock) else .ok p.value

def executeParam (env : Env) (p : Param) : RegistryM Registry := do
  ofGovernable (s.governable.onlyGovernance env)
  let value ← ripe env (s.pendingParam p)
  return { s with
    pendingParam := Function.update s.pendingParam p none
    param := Function.update s.param p value }

def queueSlasher (env : Env) (newSlasher : Address) : RegistryM Registry := do
  ofGovernable (s.governable.onlyGovernance env)
  require (newSlasher ≠ 0) .zeroAddr
  let eta ← add env.timestamp govTimelock
  return { s with pendingSlasher := some { value := newSlasher, eta } }

def executeSlasher (env : Env) : RegistryM Registry := do
  ofGovernable (s.governable.onlyGovernance env)
  let slasher ← ripe env s.pendingSlasher
  return { s with pendingSlasher := none, slasher }

def govern (env : Env) (call : GovernanceCall) : RegistryM Registry := do
  let governable ← ofGovernable (s.governable.run env call)
  return { s with governable }

def new (governance slasher rewardMinter : Address) (param : Param → ℕ) : RegistryM Registry := do
  let governable ← ofGovernable (Governable.new governance)
  require (slasher ≠ 0 ∧ rewardMinter ≠ 0) .zeroAddr
  require (∀ p, p ∈ [Param.minStake, .blockSubsidy, .priorityFeeShareBps, .maxEpochEmission] →
    withinBounds (param p) p) .outOfBounds
  return { param, slasher, rewardMinter, governable }

end Registry

inductive RegistryCall
  | registerValidator (key : Bytes32) (sig : Bytes)
  | increaseStake (key : Bytes32)
  | initiateUnbond (key : Bytes32) (amount : ℕ)
  | withdraw (key : Bytes32)
  | claimBounty
  | submitEquivocation (key : Bytes32) (height : UInt64) (blockHashA : Bytes32) (sigA : Bytes)
      (blockHashB : Bytes32) (sigB : Bytes)
  | slash (key : Bytes32) (tier : SlashTier)
  | creditReward (key : Bytes32) (amount : ℕ)
  | claimRewards (key : Bytes32)
  | queueParam (p : Param) (value : ℕ)
  | executeParam (p : Param)
  | queueSlasher (newSlasher : Address)
  | executeSlasher
  | govern (call : GovernanceCall)
  | receive

namespace RegistryCall

def payable : RegistryCall → Bool
  | .registerValidator _ _ | .increaseStake _ | .creditReward _ _ | .receive => true
  | _ => false

def guarded : RegistryCall → Bool
  | .registerValidator _ _ | .increaseStake _ | .initiateUnbond _ _ | .withdraw _ | .claimBounty
  | .submitEquivocation _ _ _ _ _ _ | .slash _ _ | .claimRewards _ => true
  | _ => false

def body (r : RegistryRules) (env : Env) (call : RegistryCall) (s : Registry) :
    RegistryM (Effect Registry) :=
  match call with
  | .registerValidator key sig => silent (s.registerValidator r env key sig)
  | .increaseStake key => silent (s.increaseStake env key)
  | .initiateUnbond key amount => silent (s.initiateUnbond env key amount)
  | .withdraw key => s.withdraw env key
  | .claimBounty => s.claimBounty env
  | .submitEquivocation key height a sigA b sigB =>
    silent (s.submitEquivocation r env key height a sigA b sigB)
  | .slash key tier => silent (s.slash env key tier)
  | .creditReward key amount => silent (s.creditReward env key amount)
  | .claimRewards key => s.claimRewards env key
  | .queueParam p value => silent (s.queueParam env p value)
  | .executeParam p => silent (s.executeParam env p)
  | .queueSlasher newSlasher => silent (s.queueSlasher env newSlasher)
  | .executeSlasher => silent (s.executeSlasher env)
  | .govern call => silent (s.govern env call)
  | .receive => return { storage := s }

end RegistryCall

def validatorRegistry (r : RegistryRules) : Interface Registry RegistryError RegistryCall where
  payable := RegistryCall.payable
  guarded := RegistryCall.guarded
  body := RegistryCall.body r

namespace Registry

/-! A deployment in which every signature of a key other than zero is valid. -/

def anyKey : RegistryRules where
  keccak _ := 0
  ed25519 key _ _ := key != 0
  chainId := 40204
  this := 1

def launchParam : Param → ℕ
  | .minStake => 1000 * ether
  | .blockSubsidy => 0
  | .priorityFeeShareBps => 0
  | .maxEpochEmission => 1000 * ether

def launched : Registry where
  param := launchParam
  slasher := 8
  rewardMinter := 9
  governable := { governance := 7 }

def someSig : Bytes := List.replicate 64 0

end Registry

end CitrateChain.Contracts
