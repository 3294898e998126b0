import CitrateChain.Consensus.Block

/-! # The block store

Blocks by hash, the parent-to-children links, the applied tip and the canonical height index: one
entry for each height of the applied tip's selected-parent chain, with a marker naming the tip it
describes and the lowest height it covers. -/
namespace CitrateChain.Storage
open Consensus (Hash Block BlockHeader)

structure AppliedTip where
  hash : Hash
  height : UInt64
  deriving DecidableEq

structure CanonicalMarker where
  tip : AppliedTip
  floor : UInt64

structure BlockStore where
  blocks : KvStore Hash Block
  children : KvStore Hash (List Hash)
  byHeight : KvStore UInt64 Hash
  appliedTip : Option AppliedTip
  canonicalMarker : Option CanonicalMarker
  canonicalEntry : KvStore UInt64 Hash

namespace BlockStore

def empty : BlockStore where
  blocks := fun _ => none
  children := fun _ => none
  byHeight := fun _ => none
  appliedTip := none
  canonicalMarker := none
  canonicalEntry := fun _ => none

def getBlock (s : BlockStore) (h : Hash) : Option Block := s.blocks h

def getHeader (s : BlockStore) (h : Hash) : Option BlockHeader := (s.blocks h).map Block.header

def hasBlock (s : BlockStore) (h : Hash) : Bool := (s.blocks h).isSome

def getChildren (s : BlockStore) (parent : Hash) : List Hash := (s.children parent).getD []

def linkParents (s : BlockStore) (b : Block) : KvStore Hash (List Hash) :=
  s.children.writeBatch <| (b.parents.filter fun p => b.hash ∉ s.getChildren p).map fun p =>
    .put p (s.getChildren p ++ [b.hash])

def putBlock (s : BlockStore) (b : Block) : BlockStore :=
  { s with
    blocks := s.blocks.write (.put b.hash b)
    children := s.linkParents b
    byHeight := s.byHeight.write (.put b.height b.hash) }

def indexed (s : BlockStore) (cur : Hash) (height : UInt64) : Option UInt64 :=
  match s.canonicalMarker with
  | some m =>
    if m.floor ≤ height ∧ height ≤ m.tip.height ∧ s.canonicalEntry height = some cur
    then some m.floor else none
  | none => none

/-- The walk of `stage_canonical_index` from `cur` at height `n`: the floor it ends with and the
entries it writes. -/
def canonicalWalk (s : BlockStore) : ℕ → Hash → KvStore UInt64 Hash → UInt64 × KvStore UInt64 Hash
  | n, cur, entries =>
    let height := UInt64.ofNat n
    match s.indexed cur height, s.getHeader cur with
    | some floor, _ => (floor, entries)
    | none, none => (Word.saturatingAdd height 1, entries)
    | none, some header =>
      if header.height = height then
        let entries := entries.write (.put height cur)
        match n with
        | 0 => (0, entries)
        | n + 1 => canonicalWalk s n header.selectedParentHash entries
      else (Word.saturatingAdd height 1, entries)

def stageCanonicalIndex (s : BlockStore) (tip : AppliedTip) : BlockStore :=
  if s.canonicalMarker.map (·.tip) = some tip then s
  else
    let walk := s.canonicalWalk tip.height.toNat tip.hash s.canonicalEntry
    { s with canonicalMarker := some ⟨tip, walk.1⟩, canonicalEntry := walk.2 }

def putAppliedTip (s : BlockStore) (tip : AppliedTip) : BlockStore :=
  { s.stageCanonicalIndex tip with appliedTip := some tip }

def canonicalIndexTip (s : BlockStore) : Option AppliedTip := s.canonicalMarker.map (·.tip)

/-- The index is brought to the applied tip first if it describes another one. -/
def getCanonicalBlockByHeight (s : BlockStore) (height : UInt64) : Option Hash :=
  match s.appliedTip with
  | none => s.byHeight height
  | some applied =>
    let synced := s.stageCanonicalIndex applied
    match synced.canonicalMarker with
    | none => s.byHeight height
    | some m =>
      if m.tip.height < height then s.byHeight height
      else if height < m.floor then none
      else synced.canonicalEntry height

@[simp] theorem stageCanonicalIndex_blocks (s : BlockStore) (tip : AppliedTip) :
    (s.stageCanonicalIndex tip).blocks = s.blocks := by
  unfold stageCanonicalIndex
  split
  · rfl
  · rfl

@[simp] theorem putAppliedTip_blocks (s : BlockStore) (tip : AppliedTip) :
    (s.putAppliedTip tip).blocks = s.blocks := s.stageCanonicalIndex_blocks tip

end BlockStore

end CitrateChain.Storage
