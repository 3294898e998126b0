import CitrateChain.Base.Bytes
import CitrateChain.Base.Mapping
import CitrateChain.Contracts.Governable

/-! # The liquid staking pool

Stakers hold shares of a pool. A withdrawal takes its amount out of the pool at once and is paid after
a delay. Oracles report what the pool earned or lost, providers keep collateral beside it. -/
namespace CitrateChain.Contracts
open Contract
open Bytes (toBe)

def withdrawalDelay : ℕ := 50400

def maxRewardRateBps : ℕ := 20000

def maxSlashRateBps : ℕ := 1000

structure WithdrawalRequest where
  staker : Address := 0
  shareAmount : ℕ := 0
  saltAmount : ℕ := 0
  requestBlock : ℕ := 0
  claimed : Bool := false

instance : Inhabited WithdrawalRequest := ⟨{}⟩

instance : Inhabited (Mapping Address Bool) := ⟨∅⟩

structure Pool where
  totalPooled : ℕ := 0
  totalShares : ℕ := 0
  shares : Mapping Address ℕ := ∅
  nextWithdrawalId : ℕ := 0
  withdrawals : Mapping ℕ WithdrawalRequest := ∅
  isOracle : Mapping Address Bool := ∅
  oracleCount : ℕ := 0
  rewardReportNonce : ℕ := 0
  oracleVotes : Mapping ℕ (Mapping Address Bool) := ∅
  oracleVoteCount : Mapping ℕ ℕ := ∅
  reportFinalized : Mapping ℕ Bool := ∅
  tupleVotes : Mapping (BitVec 256) ℕ := ∅
  reportRound : ℕ := 0
  providerCollateral : Mapping Address ℕ := ∅
  totalDonated : ℕ := 0
  governable : Governable

inductive PoolError
  | zeroDeposit | sharesWouldBeZero | zeroShares | insufficientShares | saltAmountWouldBeZero
  | poolInsufficient | notYourWithdrawal | alreadyClaimed | tooEarly | notOracle
  | reportAlreadyFinalized | rewardsExceedCap | slashExceedsCap | alreadyVoted
  | rewardsExceedDonatedBacking | zeroCollateral | zeroAmount | insufficientCollateral | zeroSlash
  | zeroAddress | alreadyOracle | useDepositOrDonate | zeroDonation
  | governance (e : GovernanceError)
  deriving DecidableEq

abbrev PoolM := Except (Revert PoolError)

namespace Pool

def ofGovernable {α : Type} (x : Except (Revert GovernanceError) α) : PoolM α :=
  x.mapError (Revert.map .governance)

def new (initialGovernance : Address) : PoolM Pool := do
  let governable ← ofGovernable (Governable.new initialGovernance)
  return { governable }

variable (keccak : Bytes → BitVec 256) (s : Pool) (env : Env)

def getSharePrice : PoolM ℕ :=
  if s.totalShares = 0 then .ok (10 ^ 18)
  else do
    let scaled ← mul s.totalPooled (10 ^ 18)
    return scaled / s.totalShares

def sharesForDeposit (amount : ℕ) : PoolM ℕ :=
  if s.totalShares = 0 ∨ s.totalPooled = 0 then .ok amount
  else do
    let scaled ← mul amount s.totalShares
    return scaled / s.totalPooled

def saltForShares (shareAmount : ℕ) : PoolM ℕ :=
  if s.totalShares = 0 then .ok 0
  else do
    let scaled ← mul shareAmount s.totalPooled
    return scaled / s.totalShares

def deposit : PoolM (ℕ × Pool) := do
  require (0 < env.value) .zeroDeposit
  let sharesOut ← s.sharesForDeposit env.value
  require (0 < sharesOut) .sharesWouldBeZero
  let held ← add (s.shares.get env.sender) sharesOut
  let totalShares ← add s.totalShares sharesOut
  let totalPooled ← add s.totalPooled env.value
  return (sharesOut, { s with shares := s.shares.set env.sender held, totalShares, totalPooled })

def requestWithdrawal (shareAmount : ℕ) : PoolM (ℕ × Pool) := do
  require (0 < shareAmount) .zeroShares
  require (shareAmount ≤ s.shares.get env.sender) .insufficientShares
  let saltOut ← s.saltForShares shareAmount
  require (0 < saltOut) .saltAmountWouldBeZero
  require (saltOut ≤ s.totalPooled) .poolInsufficient
  let held ← sub (s.shares.get env.sender) shareAmount
  let totalShares ← sub s.totalShares shareAmount
  let totalPooled ← sub s.totalPooled saltOut
  let nextWithdrawalId ← add s.nextWithdrawalId 1
  let request : WithdrawalRequest :=
    { staker := env.sender, shareAmount, saltAmount := saltOut, requestBlock := env.number.toNat }
  return (s.nextWithdrawalId,
    { s with
      shares := s.shares.set env.sender held
      totalShares
      totalPooled
      nextWithdrawalId
      withdrawals := s.withdrawals.set s.nextWithdrawalId request })

def claimWithdrawal (requestId : ℕ) : PoolM (Effect Pool) := do
  let req := s.withdrawals.get requestId
  require (req.staker = env.sender) .notYourWithdrawal
  require (¬ req.claimed) .alreadyClaimed
  let matures ← add req.requestBlock withdrawalDelay
  require (matures ≤ env.number.toNat) .tooEarly
  return {
    storage := { s with withdrawals := s.withdrawals.set requestId { req with claimed := true } }
    payment := some req.saltAmount }

def votesRequired : PoolM ℕ := do
  let twice ← mul s.oracleCount 2
  let sum ← add twice 2
  return sum / 3

def voteKey : ℕ := (keccak (toBe 32 s.rewardReportNonce ++ toBe 32 s.reportRound)).toNat

def tupleKey (rewards slashed : ℕ) : BitVec 256 :=
  keccak (toBe 32 s.rewardReportNonce ++ toBe 32 s.reportRound ++ toBe 32 rewards ++ toBe 32 slashed)

def checkCaps (rewards slashed : ℕ) : PoolM Unit :=
  if 0 < s.totalPooled then do
    let most ← mul s.totalPooled maxRewardRateBps
    require (rewards ≤ most / 10000) .rewardsExceedCap
    let worst ← mul s.totalPooled maxSlashRateBps
    require (slashed ≤ worst / 10000) .slashExceedsCap
  else .ok ()

def takeSlash (slashed : ℕ) : Pool :=
  if 0 < slashed ∧ slashed ≤ s.totalPooled then { s with totalPooled := s.totalPooled - slashed } else s

def takeRewards (rewards : ℕ) : PoolM Pool :=
  if 0 < rewards then do
    require (rewards ≤ s.totalDonated) .rewardsExceedDonatedBacking
    let totalDonated ← sub s.totalDonated rewards
    let totalPooled ← add s.totalPooled rewards
    return { s with totalDonated, totalPooled }
  else .ok s

def applyRewardReport (rewards slashed : ℕ) : PoolM Pool := do
  let s ← (s.takeSlash slashed).takeRewards rewards
  -- The event carries the new price, so a price that does not fit undoes the report.
  let _price ← s.getSharePrice
  return s

def castVote (rewards slashed : ℕ) : PoolM (ℕ × Pool) := do
  let key := s.voteKey keccak
  let voters := s.oracleVotes.get key
  require (¬ voters.get env.sender) .alreadyVoted
  let count ← add (s.oracleVoteCount.get key) 1
  let tupleVotes ← add (s.tupleVotes.get (s.tupleKey keccak rewards slashed)) 1
  return (tupleVotes,
    { s with
      oracleVotes := s.oracleVotes.set key (voters.set env.sender true)
      oracleVoteCount := s.oracleVoteCount.set key count
      tupleVotes := s.tupleVotes.set (s.tupleKey keccak rewards slashed) tupleVotes })

def reportRewards (rewards slashed : ℕ) : PoolM Pool := do
  require (s.isOracle.get env.sender) .notOracle
  require (¬ s.reportFinalized.get s.rewardReportNonce) .reportAlreadyFinalized
  s.checkCaps rewards slashed
  let (tupleVotes, s) ← s.castVote keccak env rewards slashed
  let votesNeeded ← s.votesRequired
  if votesNeeded ≤ tupleVotes then do
    let nonce := s.rewardReportNonce
    let s ← s.applyRewardReport rewards slashed
    let rewardReportNonce ← add nonce 1
    return { s with reportFinalized := s.reportFinalized.set nonce true, rewardReportNonce }
  else return s

def depositCollateral : PoolM Pool := do
  require (0 < env.value) .zeroCollateral
  let collateral ← add (s.providerCollateral.get env.sender) env.value
  return { s with providerCollateral := s.providerCollateral.set env.sender collateral }

def withdrawCollateral (amount : ℕ) : PoolM (Effect Pool) := do
  require (0 < amount) .zeroAmount
  require (amount ≤ s.providerCollateral.get env.sender) .insufficientCollateral
  let collateral ← sub (s.providerCollateral.get env.sender) amount
  return {
    storage := { s with providerCollateral := s.providerCollateral.set env.sender collateral }
    payment := some amount }

def slashProvider (provider : Address) (amount : ℕ) : PoolM Pool := do
  ofGovernable (s.governable.onlyGovernance env)
  require (0 < amount) .zeroSlash
  let collateral := s.providerCollateral.get provider
  let slashAmount := if collateral < amount then collateral else amount
  let rest ← sub collateral slashAmount
  let totalPooled ← add s.totalPooled slashAmount
  return { s with providerCollateral := s.providerCollateral.set provider rest, totalPooled }

def addOracle (oracle : Address) : PoolM Pool := do
  ofGovernable (s.governable.onlyGovernance env)
  require (oracle ≠ 0) .zeroAddress
  require (¬ s.isOracle.get oracle) .alreadyOracle
  let oracleCount ← add s.oracleCount 1
  return { s with isOracle := s.isOracle.set oracle true, oracleCount }

def bumpRound : PoolM Pool := do
  let reportRound ← add s.reportRound 1
  return { s with reportRound }

def removeOracle (oracle : Address) : PoolM Pool := do
  ofGovernable (s.governable.onlyGovernance env)
  require (s.isOracle.get oracle) .notOracle
  let oracleCount ← sub s.oracleCount 1
  { s with isOracle := s.isOracle.set oracle false, oracleCount }.bumpRound

def resetReport : PoolM Pool := do
  ofGovernable (s.governable.onlyGovernance env)
  s.bumpRound

def govern (call : GovernanceCall) : PoolM Pool := do
  let governable ← ofGovernable (s.governable.run env call)
  return { s with governable }

/-- What is donated moves no share price until it is reported as a reward. -/
def donate : PoolM Pool := do
  require (0 < env.value) .zeroDonation
  let totalDonated ← add s.totalDonated env.value
  return { s with totalDonated }

end Pool

inductive PoolCall
  | deposit
  | requestWithdrawal (shareAmount : ℕ)
  | claimWithdrawal (requestId : ℕ)
  | reportRewards (rewards slashed : ℕ)
  | depositCollateral
  | withdrawCollateral (amount : ℕ)
  | slashProvider (provider : Address) (amount : ℕ)
  | addOracle (oracle : Address)
  | removeOracle (oracle : Address)
  | resetReport
  | govern (call : GovernanceCall)
  | donate
  | receive

namespace PoolCall

def payable : PoolCall → Bool
  | .deposit | .depositCollateral | .donate | .receive => true
  | _ => false

def guarded : PoolCall → Bool
  | .deposit | .requestWithdrawal _ | .claimWithdrawal _ | .depositCollateral | .withdrawCollateral _ =>
    true
  | _ => false

def body (keccak : Bytes → BitVec 256) (env : Env) (call : PoolCall) (s : Pool) : PoolM (Effect Pool) :=
  match call with
  | .deposit => silent (Prod.snd <$> s.deposit env)
  | .requestWithdrawal shareAmount => silent (Prod.snd <$> s.requestWithdrawal env shareAmount)
  | .claimWithdrawal requestId => s.claimWithdrawal env requestId
  | .reportRewards rewards slashed => silent (s.reportRewards keccak env rewards slashed)
  | .depositCollateral => silent (s.depositCollateral env)
  | .withdrawCollateral amount => s.withdrawCollateral env amount
  | .slashProvider provider amount => silent (s.slashProvider env provider amount)
  | .addOracle oracle => silent (s.addOracle env oracle)
  | .removeOracle oracle => silent (s.removeOracle env oracle)
  | .resetReport => silent (s.resetReport env)
  | .govern call => silent (s.govern env call)
  | .donate => silent (s.donate env)
  | .receive => .error (.custom .useDepositOrDonate)

end PoolCall

def liquidStakingPool (keccak : Bytes → BitVec 256) : Interface Pool PoolError PoolCall where
  payable := PoolCall.payable
  guarded := PoolCall.guarded
  body := PoolCall.body keccak

end CitrateChain.Contracts
