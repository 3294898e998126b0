import CitrateChain.Base.Contract

/-! # Two-step governance

The governor names a successor, who has to accept. -/
namespace CitrateChain.Contracts
open Contract

abbrev Address := BitVec 160

/-- The factory behind salted deployments, which can never call back. -/
def create2Factory : Address := 0x4e59b44847b379578588920cA78FbF26c0B4956C

inductive GovernanceError
  | notGovernance
  | notPendingGovernance
  | zeroAddress
  | noPendingTransfer
  | create2Factory
  deriving DecidableEq

structure Governable where
  governance : Address
  pendingGovernance : Address := 0

inductive GovernanceCall
  | transferGovernance (newGovernance : Address)
  | acceptGovernance
  | cancelGovernanceTransfer

namespace Governable

def new (initialGovernance : Address) : Except (Revert GovernanceError) Governable := do
  require (initialGovernance ≠ 0) .zeroAddress
  require (initialGovernance ≠ create2Factory) .create2Factory
  return { governance := initialGovernance }

def onlyGovernance (g : Governable) (env : Env) : Except (Revert GovernanceError) Unit :=
  require (env.sender = g.governance) .notGovernance

def run (env : Env) (g : Governable) : GovernanceCall → Except (Revert GovernanceError) Governable
  | .transferGovernance newGovernance => do
    g.onlyGovernance env
    require (newGovernance ≠ 0) .zeroAddress
    return { g with pendingGovernance := newGovernance }
  | .acceptGovernance => do
    require (env.sender = g.pendingGovernance) .notPendingGovernance
    return { governance := g.pendingGovernance, pendingGovernance := 0 }
  | .cancelGovernanceTransfer => do
    g.onlyGovernance env
    require (g.pendingGovernance ≠ 0) .noPendingTransfer
    return { g with pendingGovernance := 0 }

end Governable

end CitrateChain.Contracts
