import CitrateChain.Base.Bytes
import CitrateChain.Base.KvStore

/-! # Hashes, keys and column families shared by the consensus components -/
namespace CitrateChain.Consensus

/-- A 32-byte block hash. The byte-wise order of the source is the order of the numbers. -/
abbrev Hash := BitVec 256

def Hash.asBytes (h : Hash) : Bytes := Bytes.toBe 32 h.toNat

def Hash.display (h : Hash) : String := Bytes.hexEncode (h.asBytes.take 4)

def Hash.ofBytes? (bs : Bytes) : Option Hash :=
  if bs.length = 32 then some (BitVec.ofNat 256 (Bytes.ofBe bs)) else none

@[simp] theorem Hash.ofBytes?_asBytes (h : Hash) : Hash.ofBytes? h.asBytes = some h := by
  have hlt : h.toNat < 256 ^ 32 := by simpa using h.isLt
  simp [Hash.ofBytes?, Hash.asBytes, Bytes.ofBe_toBe hlt]

theorem Hash.asBytes_inj {h h' : Hash} (he : h.asBytes = h'.asBytes) : h = h' := by
  have := congrArg Hash.ofBytes? he
  simpa using this

inductive Cf
  | dagBlocks | dagChildren | dagTips | dagFinalized | dagHeightIndex | dagMetadata
  deriving DecidableEq, Repr

abbrev PersistentStore := KvStore (Cf × Bytes) Bytes

end CitrateChain.Consensus
