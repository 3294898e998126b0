import Mathlib.Data.Finset.Filter
import Mathlib.Data.Finset.SDiff
import CitrateChain.Consensus.Block

/-! # The DAG store

Blocks, height index, child lists, tips, finalized blocks and the pruning point, kept in memory and
written through to a key-value store. A fresh instance reads its state back from that store. -/
namespace CitrateChain.Consensus
open Std (ExtTreeMap)

inductive DagStoreError
  | blockNotFound (hash : Hash)
  | blockExists (hash : Hash)
  | storageError (text : String)
  | invalidVrf (text : String)
  | persistence (text : String)
  deriving DecidableEq, Repr

structure DagStore where
  blocks : ExtTreeMap Hash Block := ∅
  blocksByHeight : ExtTreeMap UInt64 (List Hash) := ∅
  children : ExtTreeMap Hash (List Hash) := ∅
  tips : Finset Hash := ∅
  finalized : Finset Hash := ∅
  pruningPoint : Hash := 0
  persistent : Option PersistentStore := none

structure DagRules where
  block : Codec Block
  children : Codec (Hash × List Hash)
  hashes : Codec (List Hash)
  strictVrf : Bool
  admission : DagStore → Block → Option String

abbrev DagOp := KvOp (Cf × Bytes) Bytes

def heightKey (height : UInt64) : Bytes := Bytes.toBe 8 height.toNat

def pruningPointKey : Bytes := Bytes.ascii "pruning_point".toList

def scoreKey (hash : Hash) : Bytes := Bytes.ascii "score:".toList ++ hash.asBytes

namespace DagStore

def persist (dag : DagStore) (ops : List DagOp) : DagStore :=
  { dag with persistent := dag.persistent.map (·.writeBatch ops) }

def getBlock (dag : DagStore) (hash : Hash) : Except DagStoreError Block :=
  match dag.blocks[hash]? with
  | some b => .ok b
  | none => .error (.blockNotFound hash)

def hasBlock (dag : DagStore) (hash : Hash) : Bool := (dag.blocks[hash]?).isSome

def getChildren (dag : DagStore) (hash : Hash) : List Hash := dag.children.getD hash []

/-- The hashes of the tips; the other fields of a tip are those of its block. -/
def getTips (dag : DagStore) : Finset Hash := dag.tips.filter fun x => (dag.blocks[x]?).isSome

def isFinalized (dag : DagStore) (hash : Hash) : Bool := decide (hash ∈ dag.finalized)

def pushChildrenOp (r : DagRules) (parent : Hash) (children : List Hash) : DagOp :=
  .put (.dagChildren, parent.asBytes) (r.children.encode (parent, children))

/-- The parents whose entries `store_block` updates: none for a block of the genesis shape. -/
def linkedParents (b : Block) : List Hash := if b.isGenesis then [] else b.parents

def storeOps (r : DagRules) (dag : DagStore) (b : Block) : List DagOp :=
  [.put (.dagBlocks, b.hash.asBytes) (r.block.encode b)] ++
    (linkedParents b).map (fun p => pushChildrenOp r p (dag.children.getD p [] ++ [b.hash])) ++
    [pushChildrenOp r b.hash []] ++
    (linkedParents b).map (fun p => .delete (.dagTips, p.asBytes)) ++
    [.put (.dagTips, b.hash.asBytes) [1],
      .put (.dagHeightIndex, heightKey b.height)
        (r.hashes.encode (dag.blocksByHeight.getD b.height [] ++ [b.hash]))]

def pushChild (block : Hash) (children : ExtTreeMap Hash (List Hash)) (parent : Hash) :
    ExtTreeMap Hash (List Hash) :=
  children.insert parent (children.getD parent [] ++ [block])

def storeInMemory (dag : DagStore) (b : Block) : DagStore :=
  { dag with
    children := ((linkedParents b).foldl (pushChild b.hash) dag.children).insert b.hash []
    tips := insert b.hash (dag.tips \ (linkedParents b).toFinset)
    blocksByHeight :=
      dag.blocksByHeight.insert b.height (dag.blocksByHeight.getD b.height [] ++ [b.hash])
    blocks := dag.blocks.insert b.hash b }

def storeBlock (r : DagRules) (dag : DagStore) (b : Block) (fault : Option String) :
    Except DagStoreError DagStore :=
  if dag.hasBlock b.hash then .error (.blockExists b.hash)
  else
    match r.strictVrf, r.admission dag b with
    | true, some text => .error (.invalidVrf text)
    | _, _ =>
      match dag.persistent, fault with
      | some _, some text => .error (.persistence text)
      | _, _ => .ok ((dag.persist (storeOps r dag b)).storeInMemory b)

def finalizeBlock (dag : DagStore) (hash : Hash) : Except DagStoreError DagStore :=
  if dag.hasBlock hash then
    .ok ({ dag with finalized := insert hash dag.finalized }.persist
      [.put (.dagFinalized, hash.asBytes) [1]])
  else .error (.blockNotFound hash)

def updatePruningPoint (dag : DagStore) (hash : Hash) : Except DagStoreError DagStore :=
  if dag.hasBlock hash then
    .ok ({ dag with pruningPoint := hash }.persist
      [.put (.dagMetadata, pruningPointKey) hash.asBytes])
  else .error (.blockNotFound hash)

def pruneOps (hash : Hash) : List DagOp :=
  [.delete (.dagBlocks, hash.asBytes), .delete (.dagChildren, hash.asBytes),
    .delete (.dagMetadata, scoreKey hash)]

/-- Remove one hash of a height below the pruning point. Its child list stays in memory. -/
def pruneHash (dag : DagStore) (hash : Hash) : DagStore :=
  if dag.hasBlock hash then
    { dag with blocks := dag.blocks.erase hash }.persist (pruneOps hash)
  else dag

def pruneHeight (dag : DagStore) (height : UInt64) : DagStore :=
  match dag.blocksByHeight[height]? with
  | none => dag
  | some hashes =>
    (hashes.foldl pruneHash { dag with blocksByHeight := dag.blocksByHeight.erase height }).persist
      [.delete (.dagHeightIndex, heightKey height)]

def prune (dag : DagStore) : Except DagStoreError (ℕ × DagStore) :=
  if dag.pruningPoint = 0 then .ok (0, dag)
  else
    match dag.getBlock dag.pruningPoint with
    | .error e => .error e
    | .ok point =>
      let pruned := (dag.blocksByHeight.keys.filter (· < point.height)).foldl pruneHeight dag
      .ok (dag.blocks.size - pruned.blocks.size, pruned)

def decodeAll {α : Type} (what : String) (c : Codec α) :
    List (Bytes × Bytes) → Except DagStoreError (List α)
  | [] => .ok []
  | (_, value) :: rest =>
    match c.decode value with
    | none => .error (.storageError what)
    | some a => do
      let as ← decodeAll what c rest
      .ok (a :: as)

def hashKeys (entries : List (Bytes × Bytes)) : Finset Hash :=
  (entries.filterMap fun e => Hash.ofBytes? e.1).toFinset

def namedParents (blocks : List Block) : List Hash := (blocks.flatMap Block.parents).filter (· ≠ 0)

/-- The tips by header parentage: unnamed, and above height zero unless there is one block only. -/
def derivedTips (blocks : ExtTreeMap Hash Block) : Finset Hash :=
  (blocks.toList.filterMap fun e =>
    if e.1 ∈ namedParents (blocks.toList.map Prod.snd) ∨ e.2.height = 0 ∧ blocks.size ≠ 1 then none
    else some e.1).toFinset

/-- `iter` is what the backend iterates for each column family. The tips found there only decide
whether a warning is logged: the tip set is derived from the headers. -/
def loadFromPersistent (r : DagRules) (kv : PersistentStore) (iter : Cf → List (Bytes × Bytes)) :
    Except DagStoreError DagStore := do
  let loaded ← decodeAll "deserialize block" r.block (iter .dagBlocks)
  let childLists ← decodeAll "deserialize children" r.children (iter .dagChildren)
  let blocks : ExtTreeMap Hash Block := loaded.foldl (fun m b => m.insert b.hash b) ∅
  .ok
    { blocks
      blocksByHeight := loaded.foldl
        (fun m b => m.insert b.height (m.getD b.height [] ++ [b.hash])) ∅
      children := childLists.foldl (fun m c => m.insert c.1 c.2) ∅
      tips := derivedTips blocks
      finalized := hashKeys (iter .dagFinalized)
      pruningPoint := ((kv (.dagMetadata, pruningPointKey)).bind Hash.ofBytes?).getD 0
      persistent := some kv }

end DagStore

end CitrateChain.Consensus
