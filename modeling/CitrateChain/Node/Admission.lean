import Mathlib.Data.Finset.Card
import CitrateChain.Consensus.DagStore
import CitrateChain.Consensus.TxAuth
import CitrateChain.Storage.BlockStore

/-! # Block admission

The single path by which a block enters a node. A block goes through the checks before any write, and
is then written to the DAG store, registered in the engine, and written to the chain store, each step
on its own. What an earlier call left unfinished a later one completes. -/
namespace CitrateChain.Node
open Consensus Storage

structure ReceivedBlock extends SealedBlock where
  body : List SignedTx := []
  carried : transactions = body.map SignedTx.toTransaction

/-- The reasons of `Rejected`, with the values their texts print. -/
inductive AdmissionRefusal
  | withdrawn (hash : Hash)
  | builtOnWithdrawn (hash : Hash) (height : UInt64)
  | notCanonical (hash : Hash) (height : UInt64) (want : Hash)
  | consistency (e : GhostDagError)
  | bodyHash (height : UInt64)
  | bodyTxRoot (txRoot expected : Hash)
  | bodyTx (index : ℕ) (hash : Hash) (e : TxAuthError)
  | hashDoesNotRecompute (height : UInt64)
  | dagStoreBlock (e : DagStoreError)
  | chainPutBlock (text : String)
  deriving DecidableEq

inductive AdmitOutcome
  | admitted (completedPartial : Bool)
  | alreadyAdmitted
  | deferred (missingParent : Hash)
  | rejected (why : AdmissionRefusal)
  deriving DecidableEq

structure AdmissionRules where
  dag : DagRules
  sha3 : Bytes → Hash
  crypto : TxCrypto
  canonicalCheckpoints : List (Hash × UInt64 × Hash)

structure AdmitFaults where
  storeBlock : Option String := none
  addBlock : Option GhostDagError := none
  putBlock : Option String := none

structure BlockAdmission where
  chain : BlockStore
  dag : DagStore
  ghostdag : GhostDag
  withdrawn : Finset Hash := ∅
  checkpoints : Option (List (UInt64 × Hash)) := none

def maxWithdrawn : ℕ := 1000000

namespace BlockAdmission
variable (r : AdmissionRules) (n : BlockAdmission) (b : ReceivedBlock)

def engine : GhostDag :=
  { n.ghostdag with dagStore := { n.ghostdag.dagStore with blocks := fun x => n.dag.blocks[x]? } }

/-- Why a block is refused as withdrawn. One that is built on a withdrawn block is remembered. -/
def withdrawnReason : Option AdmissionRefusal × BlockAdmission :=
  if n.withdrawn = ∅ then (none, n)
  else if b.hash ∈ n.withdrawn then (some (.withdrawn b.hash), n)
  else if ∃ p ∈ b.parents, p ∈ n.withdrawn then
    (some (.builtOnWithdrawn b.hash b.height),
      if n.withdrawn.card < maxWithdrawn then { n with withdrawn := insert b.hash n.withdrawn } else n)
  else (none, n)

def resolved : Option (List (UInt64 × Hash)) :=
  match n.checkpoints with
  | some list => some list
  | none =>
    (n.chain.byHeight 0).map fun genesis =>
      (r.canonicalCheckpoints.filter (·.1 = genesis)).map Prod.snd

def resolveCheckpoints : BlockAdmission := { n with checkpoints := n.resolved r }

def checkpointReason : Option AdmissionRefusal :=
  match n.checkpoints with
  | none => none
  | some list =>
    match list.find? (·.1 = b.height) with
    | none => none
    | some (_, want) => if want = b.hash then none else some (.notCanonical b.hash b.height want)

def dagPrunedBelow : UInt64 :=
  if n.dag.pruningPoint = 0 then 0
  else
    match n.dag.getBlock n.dag.pruningPoint with
    | .ok point => point.height
    | .error _ => 0

def verifyTxs : ℕ → List SignedTx → Except AdmissionRefusal Unit
  | _, [] => .ok ()
  | i, tx :: rest =>
    match tx.authenticateForBlock r.crypto with
    | .error e => .error (.bodyTx i tx.hash e)
    | .ok _ => verifyTxs (i + 1) rest

def verifyBlockBody (hardening : PbaHardening) : Except AdmissionRefusal Unit :=
  if hardening.activeAt b.height = false then .ok ()
  else if b.verifyHashFor r.sha3 hardening = false then .error (.bodyHash b.height)
  else
    let expected := SignedTx.txRootForHeight r.sha3 hardening b.height b.body
    if b.txRoot ≠ expected then .error (.bodyTxRoot b.txRoot expected) else verifyTxs r 0 b.body

/-- The block to store: its hash recomputes, and fields that the hash does not cover are reset. -/
def sidecarIngest (hardening : PbaHardening) : Except AdmissionRefusal ReceivedBlock :=
  if b.height = 0 then .ok b
  else if b.verifyHashFor r.sha3 hardening = false then .error (.hashDoesNotRecompute b.height)
  else if hardening.activeAt b.height || b.sidecars.isCanonicalEmpty then .ok b
  else .ok { b with sidecars := {} }

def checkGates : Except AdmitOutcome ReceivedBlock :=
  match n.engine.validateBlockConsistency b.toBlock with
  | .error (.missingParent missing) => .error (.deferred missing)
  | .error e => .error (.rejected (.consistency e))
  | .ok _ =>
    match verifyBlockBody r b n.ghostdag.pbaHardening with
    | .error why => .error (.rejected why)
    | .ok _ =>
      match sidecarIngest r b n.ghostdag.pbaHardening with
      | .error why => .error (.rejected why)
      | .ok stored => .ok stored

def registerBlock (f : AdmitFaults) : BlockAdmission :=
  match f.addBlock, n.engine.addBlock b.toBlock with
  | none, .ok g => { n with ghostdag := g }
  | _, _ => n

def writeDag (f : AdmitFaults) : Except AdmissionRefusal BlockAdmission :=
  if n.dag.hasBlock b.hash then .ok n
  else
    match n.dag.storeBlock r.dag b.toBlock f.storeBlock with
    | .ok dag => .ok (({ n with dag } : BlockAdmission).registerBlock b f)
    | .error (.blockExists _) => .ok (n.registerBlock b f)
    | .error e => .error (.dagStoreBlock e)

def writeChain (f : AdmitFaults) : Except AdmissionRefusal BlockAdmission :=
  if n.chain.hasBlock b.hash then .ok n
  else
    match f.putBlock with
    | some text => .error (.chainPutBlock text)
    | none => .ok { n with chain := n.chain.putBlock b.toBlock }

def writeBlock (f : AdmitFaults) : AdmitOutcome × BlockAdmission :=
  match n.writeDag r b f with
  | .error why => (.rejected why, n)
  | .ok m =>
    match m.writeChain b f with
    | .error why => (.rejected why, m)
    | .ok m' => (.admitted (n.chain.hasBlock b.hash != n.dag.hasBlock b.hash), m')

def admitChecked (f : AdmitFaults) : AdmitOutcome × BlockAdmission :=
  if n.chain.hasBlock b.hash && n.dag.hasBlock b.hash then (.alreadyAdmitted, n)
  else if n.chain.hasBlock b.hash && decide (b.height < n.dagPrunedBelow) then (.alreadyAdmitted, n)
  else
    match n.checkGates r b with
    | .error outcome => (outcome, n)
    | .ok stored => n.writeBlock r stored f

def admitBlock (f : AdmitFaults) : AdmitOutcome × BlockAdmission :=
  match n.withdrawnReason b with
  | (some why, n) => (.rejected why, n)
  | (none, n) =>
    let n := n.resolveCheckpoints r
    match n.checkpointReason b with
    | some why => (.rejected why, n)
    | none => n.admitChecked r b f

section Calls
variable {r n b} {f : AdmitFaults} {m : BlockAdmission} {c : ReceivedBlock}

def NotWithdrawn (n : BlockAdmission) (b : ReceivedBlock) : Prop :=
  b.hash ∉ n.withdrawn ∧ ∀ p ∈ b.parents, p ∉ n.withdrawn

theorem withdrawnReason_of_not (h : n.NotWithdrawn b) : n.withdrawnReason b = (none, n) := by
  unfold withdrawnReason
  split
  · rfl
  · rw [if_neg h.1, if_neg]
    rintro ⟨p, hp, hmem⟩
    exact h.2 p hp hmem

theorem withdrawnReason_cases (n : BlockAdmission) (b : ReceivedBlock) :
    n.NotWithdrawn b ∨ ∃ why w, n.withdrawn ⊆ w ∧
      n.withdrawnReason b = (some why, { n with withdrawn := w }) := by
  unfold withdrawnReason
  split
  · rename_i hempty
    refine Or.inl ⟨?_, fun p _ => ?_⟩
    all_goals
      rw [hempty]
      exact Finset.notMem_empty _
  · split
    · exact Or.inr ⟨_, n.withdrawn, Finset.Subset.refl _, rfl⟩
    · rename_i hmem
      split
      · split
        · exact Or.inr ⟨_, insert b.hash n.withdrawn, Finset.subset_insert _ _, rfl⟩
        · exact Or.inr ⟨_, n.withdrawn, Finset.Subset.refl _, rfl⟩
      · rename_i hparent
        exact Or.inl ⟨hmem, fun p hp hw => hparent ⟨p, hp, hw⟩⟩

theorem sidecarIngest_ok {hardening : PbaHardening} (h : sidecarIngest r b hardening = .ok c) :
    c.toBlock = b.toBlock ∧ (b.height = 0 ∨ b.verifyHashFor r.sha3 hardening = true) := by
  unfold sidecarIngest at h
  split at h
  · rename_i hzero
    cases h
    exact ⟨rfl, Or.inl hzero⟩
  split at h
  · cases h
  · rename_i hhash
    have hverify : b.verifyHashFor r.sha3 hardening = true := by simpa using hhash
    split at h
    all_goals
      cases h
      exact ⟨rfl, Or.inr hverify⟩

theorem checkGates_ok (h : n.checkGates r b = .ok c) :
    n.engine.validateBlockConsistency b.toBlock = .ok () ∧ c.toBlock = b.toBlock ∧
      (b.height = 0 ∨ b.verifyHashFor r.sha3 n.ghostdag.pbaHardening = true) := by
  unfold checkGates at h
  split at h
  · cases h
  · cases h
  rename_i hv
  split at h
  · cases h
  · split at h
    · cases h
    · rename_i stored hside
      cases h
      obtain ⟨hblock, hhash⟩ := sidecarIngest_ok hside
      exact ⟨hv, hblock, hhash⟩

theorem registerBlock_cases (n : BlockAdmission) (b : ReceivedBlock) (f : AdmitFaults) :
    (∃ g, f.addBlock = none ∧ n.engine.addBlock b.toBlock = .ok g ∧
      n.registerBlock b f = { n with ghostdag := g }) ∨
    (f.addBlock ≠ none ∨ ∃ e, n.engine.addBlock b.toBlock = .error e) ∧ n.registerBlock b f = n := by
  unfold registerBlock
  cases hf : f.addBlock with
  | some e => exact Or.inr ⟨Or.inl (by simp), rfl⟩
  | none =>
    cases hadd : n.engine.addBlock b.toBlock with
    | error e => exact Or.inr ⟨Or.inr ⟨e, rfl⟩, rfl⟩
    | ok g => exact Or.inl ⟨g, rfl, rfl, rfl⟩

theorem writeDag_cases (r : AdmissionRules) (n : BlockAdmission) (b : ReceivedBlock) (f : AdmitFaults) :
    n.dag.hasBlock b.hash = true ∧ n.writeDag r b f = .ok n ∨
    (∃ dag, n.dag.hasBlock b.hash = false ∧ n.dag.storeBlock r.dag b.toBlock f.storeBlock = .ok dag ∧
      n.writeDag r b f = .ok (({ n with dag } : BlockAdmission).registerBlock b f)) ∨
    ∃ e, n.dag.hasBlock b.hash = false ∧ n.dag.storeBlock r.dag b.toBlock f.storeBlock = .error e ∧
      n.writeDag r b f = .error (.dagStoreBlock e) := by
  unfold writeDag
  cases hhas : n.dag.hasBlock b.hash with
  | true => exact Or.inl ⟨rfl, if_pos rfl⟩
  | false =>
    rw [if_neg Bool.false_ne_true]
    cases hstore : n.dag.storeBlock r.dag b.toBlock f.storeBlock with
    | ok dag => exact Or.inr (Or.inl ⟨dag, rfl, rfl, rfl⟩)
    | error e =>
      refine Or.inr (Or.inr ⟨e, rfl, rfl, ?_⟩)
      cases e with
      | blockExists x =>
        -- The store refuses a hash as known only if it holds it.
        unfold DagStore.storeBlock at hstore
        rw [show b.toBlock.hash = b.hash from rfl, hhas, if_neg Bool.false_ne_true] at hstore
        split at hstore
        · cases hstore
        · split at hstore <;> cases hstore
      | _ => rfl

theorem writeChain_cases (n : BlockAdmission) (b : ReceivedBlock) (f : AdmitFaults) :
    n.chain.hasBlock b.hash = true ∧ n.writeChain b f = .ok n ∨
    n.chain.hasBlock b.hash = false ∧ f.putBlock = none ∧
      n.writeChain b f = .ok { n with chain := n.chain.putBlock b.toBlock } ∨
    ∃ text, n.chain.hasBlock b.hash = false ∧ f.putBlock = some text ∧
      n.writeChain b f = .error (.chainPutBlock text) := by
  unfold writeChain
  cases hhas : n.chain.hasBlock b.hash with
  | true => exact Or.inl ⟨rfl, if_pos rfl⟩
  | false =>
    rw [if_neg Bool.false_ne_true]
    cases hf : f.putBlock with
    | none => exact Or.inr (Or.inl ⟨rfl, rfl, rfl⟩)
    | some text => exact Or.inr (Or.inr ⟨text, rfl, rfl, rfl⟩)

end Calls

end BlockAdmission

end CitrateChain.Node
