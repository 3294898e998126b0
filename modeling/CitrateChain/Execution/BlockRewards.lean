import CitrateChain.Consensus.TxAuth
import CitrateChain.Execution.Executor

/-! # The arithmetic of block rewards

The priority-fee pool of a block and the share of it that is vested to the proposer, under the policy
of a finalized epoch snapshot. -/
namespace CitrateChain.Execution
open Std (ExtTreeMap)
open Consensus (Hash PublicKey SignedTx)
open Storage (TransactionReceipt)

abbrev U256 := BitVec 256

namespace U256

def checkedAdd (a b : U256) : Option U256 := if a.toNat + b.toNat < 2 ^ 256 then some (a + b) else none

def saturatingAdd (a b : U256) : U256 := (checkedAdd a b).getD (BitVec.allOnes 256)

def saturatingSub (a b : U256) : U256 := if a < b then 0 else a - b

def saturatingMul (a b : U256) : U256 :=
  if a.toNat * b.toNat < 2 ^ 256 then a * b else BitVec.allOnes 256

def ofWord (x : UInt64) : U256 := BitVec.ofNat 256 x.toNat

end U256

def rewardSettlement (message : String) : ExecutionError :=
  .rejected s!"Reward settlement rejected: {message}"

structure EpochRewardPolicy where
  epoch : UInt64
  activationHeight : UInt64
  registry : Address
  rewardMinter : Address
  priorityFeeShareBps : UInt64
  blockSubsidy : U256
  stakerOf : ExtTreeMap PublicKey Address

def canonicalBaseFeePerGas : UInt64 := 1000000000

def truePriorityPerGas (tx : SignedTx) (baseFee : UInt64) : Option UInt64 :=
  if tx.gasPrice < baseFee then none
  else
    let overBase := tx.gasPrice - baseFee
    some (if tx.ethTxType = 2 then min overBase (tx.maxPriorityFeePerGas.getD overBase) else overBase)

def gasCharged (receipt : TransactionReceipt) (gasLimit : UInt64) : UInt64 :=
  if receipt.status then receipt.gasUsed else gasLimit

def addPriorities (baseFee : UInt64) : U256 → List (SignedTx × TransactionReceipt) →
    Except ExecutionError U256
  | pool, [] => .ok pool
  | pool, (tx, receipt) :: rest =>
    match truePriorityPerGas tx baseFee with
    | none => .error (rewardSettlement
        s!"tx {tx.hash.display} gas_price {tx.gasPrice} below base_fee {baseFee} (EIP-1559 invalid)")
    | some tip =>
      if tip = 0 then addPriorities baseFee pool rest
      else addPriorities baseFee (pool.saturatingAdd
        ((U256.ofWord tip).saturatingMul (U256.ofWord (gasCharged receipt tx.gasLimit)))) rest

def computePriorityPool (txs : List SignedTx) (receipts : List TransactionReceipt) (baseFee : UInt64) :
    Except ExecutionError U256 :=
  if txs.length ≠ receipts.length then
    .error (rewardSettlement
      s!"tx/receipt count mismatch: {txs.length} txs vs {receipts.length} receipts")
  else addPriorities baseFee 0 (txs.zip receipts)

def vestedShare (pool : U256) (shareBps : UInt64) : U256 :=
  pool.saturatingMul (U256.ofWord (min shareBps 10000)) / 10000

def totalVested (pool : U256) (shareBps : UInt64) (blockSubsidy : U256) : U256 :=
  (vestedShare pool shareBps).saturatingAdd blockSubsidy

def creditRewardSelector : Bytes := [0xb8, 0x49, 0x12, 0x52]

def encodeCreditReward (pubkey : PublicKey) (amount : U256) : Bytes :=
  creditRewardSelector ++ pubkey.asBytes ++ Bytes.toBe 32 amount.toNat

end CitrateChain.Execution
