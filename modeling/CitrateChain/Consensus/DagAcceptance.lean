import CitrateChain.Consensus.DagStore
import CitrateChain.Consensus.PrunedScore

/-! # Accepted blocks

What the consistency gate says of the parents of a stored block, and what a block that is accepted
leaves of the DAG before it. -/
namespace CitrateChain.Consensus.GhostDag
open Transition Word
open DagStore (linkedParents)
variable {g g' : GhostDag} {b c : Block} {blocks : KvStore Hash Block} {floor : UInt64} {x y : Hash}
  {maxParents : ℕ}

theorem linkedParents_of_not_genesis (hb : b.isGenesis = false) : linkedParents b = b.parents := by
  unfold linkedParents
  rw [hb]
  rfl

theorem Retains.edge_parent (hr : Retains blocks 0 g) (hb : blocks x = some b)
    (he : Walk.Edge (g.pastStep floor) x y) : y ∈ linkedParents b := by
  obtain ⟨succs, hs, hy⟩ := he
  obtain ⟨l, hl, -, hparent⟩ := mem_pastStep hs hy
  obtain rfl : blockLinks b = l := Except.ok.inj ((hr.linksOf hb (Nat.zero_le _)).symm.trans hl)
  rcases hparent with ⟨rfl, hsp, -⟩ | hmem
  · have hgen : b.isGenesis = false := Block.isGenesis_of_selectedParent_ne hsp
    rw [linkedParents_of_not_genesis hgen]
    exact List.mem_cons_self
  · have hmem : y ∈ b.header.mergeParentHashes := hmem
    have hgen : b.isGenesis = false := by
      by_contra hgen
      rw [(Block.isGenesis_parts (Bool.not_eq_false _ ▸ hgen)).2.1] at hmem
      cases hmem
    rw [linkedParents_of_not_genesis hgen]
    exact List.mem_cons_of_mem _ hmem

theorem linked_stored (hn : b.isGenesis = true ∨ ParentsNear blocks b) (hp : y ∈ linkedParents b) :
    ∃ c, blocks y = some c := by
  unfold linkedParents at hp
  split at hp
  · cases hp
  · rename_i hgen
    have hnear := hn.resolve_left hgen
    rcases List.mem_cons.mp hp with rfl | hmem
    · obtain ⟨sp, hsp, -⟩ := hnear.selected
      exact ⟨sp, hsp⟩
    · obtain ⟨mb, hmb, -⟩ := hnear.merges y hmem
      exact ⟨mb, hmb⟩

theorem AllNear.parent_stored (hn : AllNear blocks) (hb : blocks x = some b) (hp : y ∈ linkedParents b) :
    ∃ c, blocks y = some c :=
  linked_stored (hn x b hb) hp

theorem Builds.parent_stored (hb : Builds g b g') (ha : Accepted g) (hp : y ∈ linkedParents b) :
    ∃ c, g.dagStore.blocks y = some c :=
  linked_stored (validateBlockConsistency_near ha.depth hb.parts.1) hp

structure Shaped (maxParents : ℕ) (b : Block) : Prop where
  selected : b.selectedParent ≠ 0
  few : b.header.mergeParentHashes.length < maxParents
  nodup : b.header.mergeParentHashes.Nodup

def AllShaped (maxParents : ℕ) (blocks : KvStore Hash Block) : Prop :=
  ∀ x b, blocks x = some b → b.isGenesis = true ∨ Shaped maxParents b

theorem checkMergeShape_nodup {selected self : Hash} {seen mps : List Hash}
    (hc : checkMergeShape selected self seen mps = .ok ()) : mps.Nodup ∧ ∀ m ∈ mps, m ∉ seen := by
  fun_induction checkMergeShape selected self seen mps with
  | case1 => exact ⟨List.nodup_nil, nofun⟩
  | case5 seen mp mps _ _ hseen ih =>
    obtain ⟨hnodup, hfresh⟩ := ih hc
    refine ⟨List.nodup_cons.mpr ⟨fun hmem => hfresh mp hmem List.mem_cons_self, hnodup⟩, ?_⟩
    refine List.forall_mem_cons.mpr ⟨hseen, fun m hm hin => hfresh m hm (List.mem_cons_of_mem _ hin)⟩
  | _ => cases hc

theorem validateBlockConsistency_shaped (hv : g.validateBlockConsistency b = .ok ()) :
    b.isGenesis = true ∨ Shaped g.params.maxParents b := by
  rcases validateBlockConsistency_eq_ok.mp hv with hgen | ⟨hsp, hfew, hshape, -⟩
  · exact Or.inl (isConfiguredGenesis_parts hgen).1
  · exact Or.inr ⟨hsp, hfew, (checkMergeShape_nodup hshape).1⟩

theorem Runs.allShaped {bs : List Block} (hu : Unbuilt g) (hr : Runs Builds g bs g') :
    AllShaped g'.params.maxParents g'.dagStore.blocks := by
  refine hr.invariant (P := fun t => AllShaped t.params.maxParents t.dagStore.blocks) ?_ ?_
  · intro x b hx
    rw [hu.empty] at hx
    cases hx
  intro t b u hs hb x c hx
  rw [hb.adds.1]
  rcases hb.blocks_iff.mp hx with ⟨-, rfl⟩ | ⟨-, hx⟩
  · exact validateBlockConsistency_shaped hb.parts.1
  · exact hs x c hx

theorem scoreAdd_of_lt {m n : UInt64} (h : m.toNat + n.toNat < UInt64.size) :
    ∃ s, scoreAdd m n = .ok s ∧ s.toNat = m.toNat + n.toNat := by
  have hsum : (m + n).toNat = m.toNat + n.toNat := by
    rw [UInt64.toNat_add]
    exact Nat.mod_eq_of_lt h
  have hchecked : checkedAdd m n = some (m + n) := by
    unfold checkedAdd
    rw [if_pos h]
  refine ⟨m + n, ?_, hsum⟩
  unfold scoreAdd
  rw [hchecked]

theorem Builds.extends (hb : Builds g b g') : Extends g g' := by
  have hblocks x c (hc : g.dagStore.blocks x = some c) := hb.blocks_iff.mpr (.inr ⟨hb.ne_hash hc, hc⟩)
  obtain ⟨g₁, hadd, hstore⟩ := Result.bind_eq_ok.mp hb.2
  obtain ⟨-, -, s, -, rfl⟩ := addBlock_eq_ok.mp hadd
  cases hstore
  exact ⟨rfl, rfl, rfl, rfl, rfl, hblocks⟩

def tableBlock (t : List Block) (x : Hash) : Option Block := t.find? fun b => b.hash = x

end CitrateChain.Consensus.GhostDag
