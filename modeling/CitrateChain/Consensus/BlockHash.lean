import CitrateChain.Base.Layout
import CitrateChain.Consensus.GhostDag

/-! # The block hash

`compute_hash_for` hashes the header and the commitment roots and, once the block-validity hardening
is active, a commitment to the fields beside them. From version 2 on every variable-length field is
behind its length, so that the preimage determines the block. -/
namespace CitrateChain.Consensus
open Unambiguous
open Bytes (toLe toBe ascii)

@[ext] structure VrfProof where
  proof : Bytes := []
  output : Hash := 0
  deriving DecidableEq

@[ext] structure HeaderTail where
  pruningPoint : Hash := 0
  proposerPubkey : PublicKey := 0
  vrfReveal : VrfProof := {}
  baseFeePerGas : UInt64 := 0
  gasUsed : UInt64 := 0
  gasLimit : UInt64 := 30000000
  coinbase : BitVec 160 := 0
  deriving DecidableEq

inductive ModelType
  | embeddings | tinyLLM | generalLLM | codeLLM | visionLLM | diffusion
  deriving DecidableEq, Repr

/-- A text of the source is its UTF-8 bytes. -/
@[ext] structure ModelMetadata where
  name : Bytes
  version : Bytes
  contextLength : UInt32
  embeddingDim : Option UInt32
  license : Bytes
  framework : Option Bytes
  deriving DecidableEq

@[ext] structure EmbeddedModel where
  modelId : Bytes
  modelType : ModelType
  weightsSha256 : Hash
  metadata : ModelMetadata
  deriving DecidableEq

@[ext] structure RequiredModel where
  modelId : Bytes
  ipfsCid : Bytes
  sha256Hash : Hash
  sizeBytes : UInt64
  mustPin : Bool
  slashPenalty : BitVec 128
  gracePeriodHours : UInt64
  deriving DecidableEq

@[ext] structure BlockParams where
  k : UInt32
  maxParents : UInt64
  maxBlueScoreDiff : UInt64
  pruningWindow : UInt64
  finalityDepth : UInt64
  deriving DecidableEq

def canonicalEmptyParams : BlockParams := ⟨18, 10, 1000, 100000, 100⟩

/-- The fields outside the legacy preimage; an `f32` is its bits. -/
@[ext] structure Sidecars where
  ghostdagParams : BlockParams := canonicalEmptyParams
  embeddedModels : List EmbeddedModel := []
  requiredPins : List RequiredModel := []
  learningEmbedding : Option (List (BitVec 32)) := none
  learningConfidence : Option (List (BitVec 32)) := none
  gradientCommitment : Option (BitVec 256) := none
  learningRoot : Hash := 0
  deriving DecidableEq

structure SealedBlock extends Block where
  tail : HeaderTail := {}
  txRoot : Hash := 0
  receiptRoot : Hash := 0
  artifactRoot : Hash := 0
  sidecars : Sidecars := {}

def sidecarCommitDomain : Bytes := ascii "citrate:block-sidecars:v1".toList

def Sidecars.isCanonicalEmpty (c : Sidecars) : Bool :=
  decide (c.ghostdagParams = canonicalEmptyParams) && c.embeddedModels.isEmpty &&
    c.requiredPins.isEmpty && c.learningEmbedding.isNone && c.learningConfidence.isNone &&
    c.gradientCommitment.isNone && decide (c.learningRoot = 0)

theorem Sidecars.isCanonicalEmpty_iff {c : Sidecars} : c.isCanonicalEmpty = true ↔ c = {} := by
  obtain ⟨params, models, pins, embedding, confidence, gradient, root⟩ := c
  simp [Sidecars.isCanonicalEmpty, and_assoc]

def putBytes (bs : Bytes) : Bytes := toLe 8 bs.length ++ bs

def putOption {α : Type} (put : α → Bytes) : Option α → Bytes
  | some a => 1 :: put a
  | none => [0]

def putList {α : Type} (put : α → Bytes) (l : List α) : Bytes := toLe 8 l.length ++ l.flatMap put

def putOptF32s : Option (List (BitVec 32)) → Bytes :=
  putOption (putList fun x => toLe 4 x.toNat)

def putOptStr : Option Bytes → Bytes := putOption putBytes

def modelTypeTag : ModelType → UInt8
  | .embeddings => 0
  | .tinyLLM => 1
  | .generalLLM => 2
  | .codeLLM => 3
  | .visionLLM => 4
  | .diffusion => 5

def putEmbedded (m : EmbeddedModel) : Bytes :=
  putBytes m.modelId ++ [modelTypeTag m.modelType] ++ m.weightsSha256.asBytes ++
    putBytes m.metadata.name ++ putBytes m.metadata.version ++ toLe 4 m.metadata.contextLength.toNat ++
    putOption (fun d : UInt32 => toLe 4 d.toNat) m.metadata.embeddingDim ++
    putBytes m.metadata.license ++ putOptStr m.metadata.framework

def putRequired (m : RequiredModel) : Bytes :=
  putBytes m.modelId ++ putBytes m.ipfsCid ++ m.sha256Hash.asBytes ++ toLe 8 m.sizeBytes.toNat ++
    [if m.mustPin then 1 else 0] ++ toLe 16 m.slashPenalty.toNat ++ toLe 8 m.gracePeriodHours.toNat

def Sidecars.preimage (c : Sidecars) : Bytes :=
  sidecarCommitDomain ++ toLe 4 c.ghostdagParams.k.toNat ++ toLe 8 c.ghostdagParams.maxParents.toNat ++
    toLe 8 c.ghostdagParams.maxBlueScoreDiff.toNat ++ toLe 8 c.ghostdagParams.pruningWindow.toNat ++
    toLe 8 c.ghostdagParams.finalityDepth.toNat ++ putList putEmbedded c.embeddedModels ++
    putList putRequired c.requiredPins ++ putOptF32s c.learningEmbedding ++
    putOptF32s c.learningConfidence ++
    putOption (fun x : BitVec 256 => toBe 32 x.toNat) c.gradientCommitment ++ c.learningRoot.asBytes

def Sidecars.commitment (sha3 : Bytes → Hash) (c : Sidecars) : Hash := sha3 c.preimage

def Sidecars.commitInto (sha3 : Bytes → Hash) (c : Sidecars) : Bytes :=
  if c.isCanonicalEmpty then [] else sidecarCommitDomain ++ (c.commitment sha3).asBytes

namespace SealedBlock

def lengthPrefixed (b : SealedBlock) : Bool := decide (2 ≤ b.header.version)

def preimage (sha3 : Bytes → Hash) (hardening : PbaHardening) (b : SealedBlock) : Bytes :=
  toLe 4 b.header.version.toNat ++ b.header.selectedParentHash.asBytes ++
    (if b.lengthPrefixed then toLe 4 b.header.mergeParentHashes.length else []) ++
    b.header.mergeParentHashes.flatMap Hash.asBytes ++ toLe 8 b.header.timestamp.toNat ++
    toLe 8 b.header.height.toNat ++ toLe 8 b.header.blueScore.toNat ++
    toLe 16 b.header.blueWork.toNat ++ b.tail.pruningPoint.asBytes ++ b.tail.proposerPubkey.asBytes ++
    (if b.lengthPrefixed then toLe 4 b.tail.vrfReveal.proof.length else []) ++
    b.tail.vrfReveal.proof ++ b.tail.vrfReveal.output.asBytes ++ toLe 8 b.tail.baseFeePerGas.toNat ++
    toLe 8 b.tail.gasUsed.toNat ++ toLe 8 b.tail.gasLimit.toNat ++
    (if b.lengthPrefixed then toBe 20 b.tail.coinbase.toNat else []) ++ b.stateRoot.asBytes ++
    b.txRoot.asBytes ++ b.receiptRoot.asBytes ++ b.artifactRoot.asBytes ++
    (if hardening.activeAt b.header.height then b.sidecars.commitInto sha3 else [])

def computeHashFor (sha3 : Bytes → Hash) (hardening : PbaHardening) (b : SealedBlock) : Hash :=
  sha3 (b.preimage sha3 hardening)

def verifyHashFor (sha3 : Bytes → Hash) (hardening : PbaHardening) (b : SealedBlock) : Bool :=
  b.header.blockHash == b.computeHashFor sha3 hardening

end SealedBlock

def maxFieldLength : ℕ := 2 ^ 32

structure EmbeddedModel.Bounded (m : EmbeddedModel) : Prop where
  modelId : m.modelId.length < maxFieldLength
  name : m.metadata.name.length < maxFieldLength
  version : m.metadata.version.length < maxFieldLength
  license : m.metadata.license.length < maxFieldLength
  framework : ∀ s, m.metadata.framework = some s → s.length < maxFieldLength

structure RequiredModel.Bounded (m : RequiredModel) : Prop where
  modelId : m.modelId.length < maxFieldLength
  ipfsCid : m.ipfsCid.length < maxFieldLength

structure Sidecars.Bounded (c : Sidecars) : Prop where
  embeddedModels : c.embeddedModels.length < maxFieldLength ∧ ∀ m ∈ c.embeddedModels, m.Bounded
  requiredPins : c.requiredPins.length < maxFieldLength ∧ ∀ m ∈ c.requiredPins, m.Bounded
  learningEmbedding : ∀ l, c.learningEmbedding = some l → l.length < maxFieldLength
  learningConfidence : ∀ l, c.learningConfidence = some l → l.length < maxFieldLength

theorem maxFieldLength_lt {n : ℕ} (h : n < maxFieldLength) : n < 256 ^ 8 := h.trans_le (by decide)

theorem maxFieldLength_lt_u32 {n : ℕ} (h : n < maxFieldLength) : n < 256 ^ 4 :=
  h.trans_le (by decide)

theorem asBytes_unambiguous : Unambiguous (fun _ : Hash => True) Hash.asBytes :=
  bitVecBe 32 (by decide)

theorem publicKey_unambiguous : Unambiguous (fun _ : PublicKey => True) PublicKey.asBytes :=
  bitVecBe 32 (by decide)

theorem putBytes_prefixed : Unambiguous (fun bs : Bytes => bs.length < 256 ^ 8) putBytes := prefixed 8

theorem putBytes_unambiguous : Unambiguous (fun bs : Bytes => bs.length < maxFieldLength) putBytes :=
  putBytes_prefixed.mono fun _ => maxFieldLength_lt

theorem putOption_unambiguous {α : Type} {ok : α → Prop} {put : α → Bytes} (h : Unambiguous ok put) :
    Unambiguous (fun o : Option α => ∀ a, o = some a → ok a) (putOption put) := h.option

theorem putOption_total {α : Type} {put : α → Bytes} (h : Unambiguous (fun _ => True) put) :
    Unambiguous (fun _ => True) (putOption put) :=
  h.option.mono fun _ _ _ _ => trivial

theorem putOptStr_unambiguous :
    Unambiguous (fun o : Option Bytes => ∀ s, o = some s → s.length < maxFieldLength) putOptStr :=
  putOption_unambiguous putBytes_unambiguous

theorem putList_unambiguous {α : Type} {ok : α → Prop} {put : α → Bytes} (h : Unambiguous ok put) :
    Unambiguous (fun l : List α => l.length < maxFieldLength ∧ ∀ a ∈ l, ok a) (putList put) :=
  (h.counted 8).mono fun _ hl => ⟨maxFieldLength_lt hl.1, hl.2⟩

theorem putOptF32s_unambiguous : Unambiguous
    (fun o : Option (List (BitVec 32)) => ∀ l, o = some l → l.length < maxFieldLength) putOptF32s :=
  (putOption_unambiguous (putList_unambiguous (bitVecLe 4 (by decide)))).mono
    fun _ h l hl => ⟨h l hl, fun _ _ => trivial⟩

theorem modelTypeTag_inj {s t : ModelType} (h : modelTypeTag s = modelTypeTag t) : s = t := by
  cases s <;> cases t <;> first | rfl | exact absurd h (by decide)

theorem putEmbedded_unambiguous : Unambiguous EmbeddedModel.Bounded putEmbedded := by
  intro m n s t hm hn he
  simp only [putEmbedded, List.append_assoc, List.cons_append, List.nil_append, List.cons.injEq,
    putBytes_unambiguous.iff hm.modelId hn.modelId, asBytes_unambiguous.read_iff,
    putBytes_unambiguous.iff hm.name hn.name, putBytes_unambiguous.iff hm.version hn.version,
    u32.read_iff, (putOption_total u32).read_iff, putBytes_unambiguous.iff hm.license hn.license,
    putOptStr_unambiguous.iff hm.framework hn.framework] at he
  obtain ⟨hid, htype, hweights, hname, hversion, hcontext, hdim, hlicense, hframework, he⟩ := he
  have hmeta := ModelMetadata.ext hname hversion hcontext hdim hlicense hframework
  exact ⟨EmbeddedModel.ext hid (modelTypeTag_inj htype) hweights hmeta, he⟩

theorem putRequired_unambiguous : Unambiguous RequiredModel.Bounded putRequired := by
  intro m n s t hm hn he
  simp only [putRequired, List.append_assoc, List.cons_append, List.nil_append, List.cons.injEq,
    putBytes_unambiguous.iff hm.modelId hn.modelId, putBytes_unambiguous.iff hm.ipfsCid hn.ipfsCid,
    asBytes_unambiguous.read_iff, u64.read_iff, u128.read_iff] at he
  obtain ⟨hid, hcid, hsha, hsize, hpin, hslash, hgrace, he⟩ := he
  have hmust : m.mustPin = n.mustPin := by
    cases hm : m.mustPin <;> cases hn : n.mustPin <;> simp_all
  exact ⟨RequiredModel.ext hid hcid hsha hsize hmust hslash hgrace, he⟩

theorem Sidecars.preimage_inj {c d : Sidecars} (hc : c.Bounded) (hd : d.Bounded)
    (h : c.preimage = d.preimage) : c = d := by
  have he : c.preimage ++ [] = d.preimage ++ [] := by rw [h]
  simp only [Sidecars.preimage, List.append_assoc] at he
  simp only [List.append_cancel_left_eq, u32.read_iff, u64.read_iff,
    (putList_unambiguous putEmbedded_unambiguous).iff hc.embeddedModels hd.embeddedModels,
    (putList_unambiguous putRequired_unambiguous).iff hc.requiredPins hd.requiredPins,
    putOptF32s_unambiguous.iff hc.learningEmbedding hd.learningEmbedding,
    putOptF32s_unambiguous.iff hc.learningConfidence hd.learningConfidence,
    (putOption_total (bitVecBe (n := 256) 32 (by decide))).read_iff, asBytes_unambiguous.read_iff] at he
  obtain ⟨hk, hparents, hdiff, hwindow, hdepth, hmodels, hpins, hembedding, hconfidence, hgradient,
    hroot, -⟩ := he
  exact Sidecars.ext (BlockParams.ext hk hparents hdiff hwindow hdepth) hmodels hpins hembedding
    hconfidence hgradient hroot

namespace SealedBlock
variable {sha3 : Bytes → Hash} {hardening : PbaHardening} {a b : SealedBlock}

structure Bounded (b : SealedBlock) : Prop where
  mergeParentHashes : b.header.mergeParentHashes.length < maxFieldLength
  proof : b.tail.vrfReveal.proof.length < maxFieldLength
  sidecars : b.sidecars.Bounded

def hashed (sha3 : Bytes → Hash) (hardening : PbaHardening) (b : SealedBlock) : Set Bytes :=
  {b.preimage sha3 hardening, b.sidecars.preimage}

structure SameSeal (a b : SealedBlock) : Prop where
  header : { a.header with blockHash := 0 } = { b.header with blockHash := 0 }
  tail : a.tail = b.tail
  stateRoot : a.stateRoot = b.stateRoot
  txRoot : a.txRoot = b.txRoot
  receiptRoot : a.receiptRoot = b.receiptRoot
  artifactRoot : a.artifactRoot = b.artifactRoot

theorem commitInto_inj {c d : Sidecars} (hc : c.Bounded) (hd : d.Bounded)
    (hsha : sha3 c.preimage = sha3 d.preimage → c.preimage = d.preimage)
    (h : c.commitInto sha3 = d.commitInto sha3) : c = d := by
  -- the commitment is never empty, so that both sides take the same branch
  have hlen : ∀ e : Sidecars, (sidecarCommitDomain ++ (e.commitment sha3).asBytes) ≠ [] := by
    intro e he
    exact absurd (congrArg List.length he) (by simp [sidecarCommitDomain, Bytes.ascii])
  unfold Sidecars.commitInto at h
  split_ifs at h with hce hde hde
  · rw [Sidecars.isCanonicalEmpty_iff.mp hce, Sidecars.isCanonicalEmpty_iff.mp hde]
  · exact absurd h.symm (hlen d)
  · exact absurd h (hlen c)
  · have hcommit := Hash.asBytes_inj (List.append_cancel_left h)
    exact Sidecars.preimage_inj hc hd (hsha hcommit)

def middleBytes (b : SealedBlock) : Bytes :=
  toLe 8 b.header.timestamp.toNat ++ (toLe 8 b.header.height.toNat ++ (toLe 8 b.header.blueScore.toNat ++
    (toLe 16 b.header.blueWork.toNat ++ (b.tail.pruningPoint.asBytes ++ b.tail.proposerPubkey.asBytes))))

def gasBytes (b : SealedBlock) : Bytes :=
  b.tail.vrfReveal.output.asBytes ++ (toLe 8 b.tail.baseFeePerGas.toNat ++ (toLe 8 b.tail.gasUsed.toNat ++
    toLe 8 b.tail.gasLimit.toNat))

def rootBytes (b : SealedBlock) : Bytes :=
  b.stateRoot.asBytes ++ (b.txRoot.asBytes ++ (b.receiptRoot.asBytes ++ b.artifactRoot.asBytes))

structure SameMiddle (a b : SealedBlock) : Prop where
  timestamp : a.header.timestamp = b.header.timestamp
  height : a.header.height = b.header.height
  blueScore : a.header.blueScore = b.header.blueScore
  blueWork : a.header.blueWork = b.header.blueWork
  pruningPoint : a.tail.pruningPoint = b.tail.pruningPoint
  proposerPubkey : a.tail.proposerPubkey = b.tail.proposerPubkey

variable {s t : Bytes}

theorem middleBytes_unambiguous (h : a.middleBytes ++ s = b.middleBytes ++ t) :
    SameMiddle a b ∧ s = t := by
  simp only [middleBytes, List.append_assoc, u64.read_iff, u128.read_iff, asBytes_unambiguous.read_iff,
    publicKey_unambiguous.read_iff] at h
  obtain ⟨htimestamp, hheight, hscore, hwork, hpruning, hproposer, h⟩ := h
  exact ⟨⟨htimestamp, hheight, hscore, hwork, hpruning, hproposer⟩, h⟩

theorem gasBytes_unambiguous (h : a.gasBytes ++ s = b.gasBytes ++ t) :
    a.tail.vrfReveal.output = b.tail.vrfReveal.output ∧ a.tail.baseFeePerGas = b.tail.baseFeePerGas ∧
      a.tail.gasUsed = b.tail.gasUsed ∧ a.tail.gasLimit = b.tail.gasLimit ∧ s = t := by
  simpa only [gasBytes, List.append_assoc, asBytes_unambiguous.read_iff, u64.read_iff] using h

theorem rootBytes_unambiguous (h : a.rootBytes ++ s = b.rootBytes ++ t) :
    a.stateRoot = b.stateRoot ∧ a.txRoot = b.txRoot ∧ a.receiptRoot = b.receiptRoot ∧
      a.artifactRoot = b.artifactRoot ∧ s = t := by
  simpa only [rootBytes, List.append_assoc, asBytes_unambiguous.read_iff] using h

theorem preimage_parts (b : SealedBlock) : b.preimage sha3 hardening =
    toLe 4 b.header.version.toNat ++ (b.header.selectedParentHash.asBytes ++
      ((if b.lengthPrefixed then toLe 4 b.header.mergeParentHashes.length else []) ++
      (b.header.mergeParentHashes.flatMap Hash.asBytes ++ (b.middleBytes ++
      ((if b.lengthPrefixed then toLe 4 b.tail.vrfReveal.proof.length else []) ++
      (b.tail.vrfReveal.proof ++ (b.gasBytes ++
      ((if b.lengthPrefixed then toBe 20 b.tail.coinbase.toNat else []) ++ (b.rootBytes ++
      if hardening.activeAt b.header.height then b.sidecars.commitInto sha3 else []))))))))) := by
  unfold preimage middleBytes gasBytes rootBytes
  simp only [List.append_assoc]

theorem preimage_eq (ha : 2 ≤ a.header.version) (hb : 2 ≤ b.header.version) (hab : a.Bounded)
    (hbb : b.Bounded) (h : a.preimage sha3 hardening = b.preimage sha3 hardening) :
    SameSeal a b ∧ (hardening.activeAt a.header.height = true →
      a.sidecars.commitInto sha3 = b.sidecars.commitInto sha3) := by
  have hpa : a.lengthPrefixed = true := decide_eq_true ha
  have hpb : b.lengthPrefixed = true := decide_eq_true hb
  rw [preimage_parts, preimage_parts, hpa, hpb] at h
  obtain ⟨hversion, h⟩ := u32.read h
  obtain ⟨hselected, h⟩ := asBytes_unambiguous.read h
  obtain ⟨hcount, h⟩ := toLe 4 (maxFieldLength_lt_u32 hab.mergeParentHashes)
    (maxFieldLength_lt_u32 hbb.mergeParentHashes) h
  obtain ⟨hmerges, h⟩ := asBytes_unambiguous.flatMap (fun _ _ => trivial) (fun _ _ => trivial) hcount h
  obtain ⟨hmiddle, h⟩ := middleBytes_unambiguous h
  obtain ⟨hprooflen, h⟩ := toLe 4 (maxFieldLength_lt_u32 hab.proof)
    (maxFieldLength_lt_u32 hbb.proof) h
  obtain ⟨hproof, h⟩ := List.append_inj h hprooflen
  obtain ⟨houtput, hbase, hused, hlimit, h⟩ := gasBytes_unambiguous h
  obtain ⟨hcoinbase, h⟩ := (bitVecBe 20 (by decide)).read h
  obtain ⟨hstate, htx, hreceipt, hartifact, h⟩ := rootBytes_unambiguous h
  refine ⟨⟨?_, ?_, hstate, htx, hreceipt, hartifact⟩, ?_⟩
  · simp only [hversion, hselected, hmerges, hmiddle.timestamp, hmiddle.height, hmiddle.blueScore,
      hmiddle.blueWork]
  · exact HeaderTail.ext hmiddle.pruningPoint hmiddle.proposerPubkey (VrfProof.ext hproof houtput) hbase
      hused hlimit hcoinbase
  · intro hactive
    rw [← hmiddle.height, if_pos hactive, if_pos hactive] at h
    exact h

/-- Two blocks with the same hash have the same header fields, parents, VRF proof, roots and coinbase
and, where the hardening is active, the same sidecars. A block whose advertised hash verifies has that
header field in common, too. -/
theorem block_hash_binding (ha : 2 ≤ a.header.version) (hb : 2 ≤ b.header.version) (hab : a.Bounded)
    (hbb : b.Bounded) (hsha : Set.InjOn sha3 (a.hashed sha3 hardening ∪ b.hashed sha3 hardening))
    (h : a.computeHashFor sha3 hardening = b.computeHashFor sha3 hardening) :
    SameSeal a b ∧ (hardening.activeAt a.header.height = true → a.sidecars = b.sidecars) ∧
      (a.verifyHashFor sha3 hardening = true → b.verifyHashFor sha3 hardening = true →
        a.header = b.header) := by
  have hpre : a.preimage sha3 hardening = b.preimage sha3 hardening :=
    hsha (Or.inl (Or.inl rfl)) (Or.inr (Or.inl rfl)) h
  obtain ⟨hseal, hside⟩ := preimage_eq ha hb hab hbb hpre
  refine ⟨hseal, ?_, ?_⟩
  · intro hactive
    exact commitInto_inj hab.sidecars hbb.sidecars
      (fun he => hsha (Or.inl (Or.inr rfl)) (Or.inr (Or.inr rfl)) he) (hside hactive)
  intro hva hvb
  have hhash : a.header.blockHash = b.header.blockHash := by
    rw [beq_iff_eq.mp hva, beq_iff_eq.mp hvb, h]
  calc a.header
      = { ({ a.header with blockHash := 0 } : BlockHeader) with blockHash := a.header.blockHash } := rfl
    _ = { ({ b.header with blockHash := 0 } : BlockHeader) with blockHash := b.header.blockHash } := by
      rw [hseal.header, hhash]
    _ = b.header := rfl

def learningBlock : SealedBlock where
  header := { version := 2, blockHash := 9, mergeParentHashes := [5], height := 1 }
  sidecars := { learningRoot := 7 }

def learningBlockWithBody : SealedBlock := { learningBlock with transactions := [{ hash := 3 }] }

theorem learningBlock_bounded : learningBlock.Bounded where
  mergeParentHashes := by decide
  proof := by decide
  sidecars := ⟨⟨by decide, nofun⟩, ⟨by decide, nofun⟩, nofun, nofun⟩

theorem block_hash_binding_learning : ∃ sha3 : Bytes → Hash,
    learningBlock.computeHashFor sha3 ⟨some 1⟩ = learningBlockWithBody.computeHashFor sha3 ⟨some 1⟩ ∧
    SameSeal learningBlock learningBlockWithBody ∧
    learningBlock.sidecars = learningBlockWithBody.sidecars := by
  let sha3 : Bytes → Hash := fun bs => BitVec.ofNat 256 bs.length
  have hsha : Set.InjOn sha3 (learningBlock.hashed sha3 ⟨some 1⟩ ∪
      learningBlockWithBody.hashed sha3 ⟨some 1⟩) := by
    have hsame : learningBlockWithBody.hashed sha3 ⟨some 1⟩ = learningBlock.hashed sha3 ⟨some 1⟩ := rfl
    rw [hsame, Set.union_self, hashed, Set.injOn_pair]
    intro he
    exact absurd he (by decide +kernel)
  have h := block_hash_binding (by decide) (by decide) learningBlock_bounded
    (b := learningBlockWithBody) ⟨by decide, by decide, learningBlock_bounded.sidecars⟩ hsha rfl
  exact ⟨sha3, rfl, h.1, h.2.1 (by decide)⟩

def withoutCoinbase (b : SealedBlock) : SealedBlock := { b with tail := { b.tail with coinbase := 0 } }

/-- Without the length prefixes, equal preimages have equal fields exactly when the blocks have as many
merge parents and VRF proofs of one length. -/
theorem version_one_binding (ha : a.header.version = 1) (hb : b.header.version = 1)
    (h : a.preimage sha3 hardening = b.preimage sha3 hardening) :
    SameSeal a.withoutCoinbase b.withoutCoinbase ↔
      a.header.mergeParentHashes.length = b.header.mergeParentHashes.length ∧
      a.tail.vrfReveal.proof.length = b.tail.vrfReveal.proof.length := by
  constructor
  · intro hsame
    have hmerges := congrArg BlockHeader.mergeParentHashes hsame.header
    have hproof := congrArg (fun t => t.vrfReveal.proof) hsame.tail
    exact ⟨congrArg List.length hmerges, congrArg List.length hproof⟩
  rintro ⟨hcount, hprooflen⟩
  have hpa : a.lengthPrefixed = false := by rw [lengthPrefixed, ha]; rfl
  have hpb : b.lengthPrefixed = false := by rw [lengthPrefixed, hb]; rfl
  rw [preimage_parts, preimage_parts, hpa, hpb] at h
  simp only [Bool.false_eq_true, if_false, List.nil_append] at h
  obtain ⟨hversion, h⟩ := u32.read h
  obtain ⟨hselected, h⟩ := asBytes_unambiguous.read h
  obtain ⟨hmerges, h⟩ := asBytes_unambiguous.flatMap (fun _ _ => trivial) (fun _ _ => trivial) hcount h
  obtain ⟨hmiddle, h⟩ := middleBytes_unambiguous h
  obtain ⟨hproof, h⟩ := List.append_inj h hprooflen
  obtain ⟨houtput, hbase, hused, hlimit, h⟩ := gasBytes_unambiguous h
  obtain ⟨hstate, htx, hreceipt, hartifact, -⟩ := rootBytes_unambiguous h
  refine ⟨?_, ?_, hstate, htx, hreceipt, hartifact⟩
  · simp only [withoutCoinbase, hversion, hselected, hmerges, hmiddle.timestamp, hmiddle.height,
      hmiddle.blueScore, hmiddle.blueWork]
  · exact HeaderTail.ext hmiddle.pruningPoint hmiddle.proposerPubkey (VrfProof.ext hproof houtput)
      hbase hused hlimit rfl

def legacyChild : SealedBlock where
  header := { blockHash := 2, selectedParentHash := 1, height := 1, blueScore := 1, blueWork := 1000000 }
  tail := { gasLimit := 0 }
  sidecars := { learningRoot := 7 }

/-- The same header with the tag of the sidecar commitment in the receipt root and the fields before it
in a longer proof; the commitment itself is left for the artifact root. -/
def legacyShifted : SealedBlock where
  header := legacyChild.header
  tail := { gasLimit := 0, vrfReveal := { proof := List.replicate 57 0 } }
  receiptRoot := BitVec.ofNat 256 (Bytes.ofBe sidecarCommitDomain)

theorem version_one_binding_body : SameSeal legacyChild.withoutCoinbase
    { legacyChild with transactions := [{ hash := 3 }] }.withoutCoinbase :=
  (@version_one_binding (fun _ => 0) ⟨some 1⟩ legacyChild
    { legacyChild with transactions := [{ hash := 3 }] } rfl rfl rfl).mpr ⟨rfl, rfl⟩

def legacyEngine : GhostDag where
  params := {}
  dagStore.blocks x := if x = 1 then some ⟨{ blockHash := 1 }, 0, []⟩ else none
  dagStore.derivedScores _ := none
  dagStore.configuredGenesis := some 1
  relations _ := none
  tips := []
  mergeDepthActivationHeight := none
  pbaHardening := ⟨some 1⟩
  verifyHash _ := true
  order := ⟨id, List.Perm.refl⟩

theorem legacy_preimage_shifted :
    legacyEngine.validateBlockConsistency legacyChild.toBlock = .ok () ∧
    legacyEngine.validateBlockConsistency legacyShifted.toBlock = .ok () ∧
    legacyChild.tail.vrfReveal.proof ≠ legacyShifted.tail.vrfReveal.proof ∧
    ∀ sha3 : Bytes → Hash, legacyChild.preimage sha3 ⟨some 1⟩ = preimage sha3 ⟨some 1⟩
      { legacyShifted with artifactRoot := legacyChild.sidecars.commitment sha3 } := by
  refine ⟨by decide, by decide, by decide, fun sha3 => ?_⟩
  have hcommit : legacyChild.sidecars.commitInto sha3 =
      sidecarCommitDomain ++ (legacyChild.sidecars.commitment sha3).asBytes := if_neg (by decide)
  have hempty : legacyShifted.sidecars.commitInto sha3 = [] := if_pos (by decide)
  have hactive : (⟨some 1⟩ : PbaHardening).activeAt legacyChild.header.height = true := rfl
  unfold preimage lengthPrefixed
  dsimp only
  rw [show legacyShifted.header = legacyChild.header from rfl, hactive, if_pos rfl, if_pos rfl, hcommit,
    hempty, List.append_nil, ← List.append_assoc]
  refine congrArg₂ HAppend.hAppend ?_ rfl
  decide +kernel

end SealedBlock

end CitrateChain.Consensus
