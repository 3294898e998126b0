import Mathlib.Logic.Equiv.List
import CitrateChain.Consensus.Checkpoint

/-! # Blocks and transactions

The header and body fields that block storage, execution and the DAG read. -/
namespace CitrateChain.Consensus

structure Transaction where
  hash : Hash
  nonce : UInt64 := 0
  sender : PublicKey := 0
  recipient : Option PublicKey := none
  value : BitVec 128 := 0
  gasLimit : UInt64 := 0
  gasPrice : UInt64 := 0
  data : Bytes := []
  deriving DecidableEq

structure BlockHeader where
  version : UInt32 := 1
  blockHash : Hash
  selectedParentHash : Hash := 0
  mergeParentHashes : List Hash := []
  timestamp : UInt64 := 0
  height : UInt64 := 0
  blueScore : UInt64 := 0
  blueWork : BitVec 128 := 0
  deriving DecidableEq

structure Block where
  header : BlockHeader
  stateRoot : Hash := 0
  transactions : List Transaction := []
  deriving DecidableEq

namespace Block

def hash (b : Block) : Hash := b.header.blockHash

def height (b : Block) : UInt64 := b.header.height

def selectedParent (b : Block) : Hash := b.header.selectedParentHash

def parents (b : Block) : List Hash := b.header.selectedParentHash :: b.header.mergeParentHashes

def isGenesis (b : Block) : Bool :=
  b.header.selectedParentHash == 0 && b.header.mergeParentHashes.isEmpty

theorem isGenesis_of_selectedParent_ne {b : Block} (h : b.selectedParent ≠ 0) :
    b.isGenesis = false := by
  rw [isGenesis, Bool.and_eq_false_iff]
  exact Or.inl (beq_false_of_ne h)

theorem isGenesis_parts {b : Block} (hb : b.isGenesis = true) :
    b.selectedParent = 0 ∧ b.header.mergeParentHashes = [] ∧ b.parents = [0] := by
  simp only [isGenesis, Bool.and_eq_true, beq_iff_eq, List.isEmpty_iff] at hb
  simp [selectedParent, parents, hb.1, hb.2]

end Block

instance : Countable Transaction :=
  Function.Injective.countable (f := fun t : Transaction =>
    (t.hash, t.nonce, t.sender, t.recipient, t.value, t.gasLimit, t.gasPrice, t.data)) <| by
    rintro ⟨⟩ ⟨⟩ h
    simpa using h

instance : Countable BlockHeader :=
  Function.Injective.countable (f := fun h : BlockHeader =>
    (h.version, h.blockHash, h.selectedParentHash, h.mergeParentHashes, h.timestamp, h.height,
      h.blueScore, h.blueWork)) <| by
    rintro ⟨⟩ ⟨⟩ h
    simpa using h

instance : Countable Block :=
  Function.Injective.countable (f := fun b : Block => (b.header, b.stateRoot, b.transactions)) <| by
    rintro ⟨⟩ ⟨⟩ h
    simpa using h

end CitrateChain.Consensus
