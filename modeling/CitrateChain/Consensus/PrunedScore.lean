import CitrateChain.Consensus.DagHeights
import CitrateChain.Consensus.ForkChoice

/-! # Scores on a pruned store

The score of a merge block looks down to a floor. A walk reads a parent before it knows its height, so
it reads as far below the floor as a merge edge may reach and no further. A store that holds all blocks
from there on gives the score that the whole DAG gives. -/
namespace CitrateChain.Consensus.GhostDag
open Transition Word
variable {g g' h : GhostDag} {b sp : Block} {blocks : KvStore Hash Block} {root : Hash}

/-- The parents of a block are stored, one height below it or within the depth of a merge edge. -/
structure ParentsNear (blocks : KvStore Hash Block) (b : Block) : Prop where
  selected : ∃ sp, blocks b.selectedParent = some sp ∧ b.height.toNat = sp.height.toNat + 1
  merges : ∀ m ∈ b.header.mergeParentHashes, ∃ mb, blocks m = some mb ∧
    b.height.toNat ≤ mb.height.toNat + mergeParentMaxDepth.toNat

def AllNear (blocks : KvStore Hash Block) : Prop :=
  ∀ x b, blocks x = some b → b.isGenesis = true ∨ ParentsNear blocks b

theorem validateBlockConsistency_near (hd : g.mergeDepthActivationHeight = some 0)
    (hv : g.validateBlockConsistency b = .ok ()) :
    b.isGenesis = true ∨ ParentsNear g.dagStore.blocks b := by
  rcases validateBlockConsistency_eq_ok.mp hv with hgen | ⟨-, -, -, sp, hsel, hc⟩
  · exact Or.inl (isConfiguredGenesis_parts hgen).1
  refine Or.inr ⟨⟨sp, hsel, (checkAgainstParent_ok hsel hc).height⟩, fun m hm => ?_⟩
  obtain ⟨mb, hmb, -, hdepth⟩ := checkMergeParents_eq_ok.mp (checkAgainstParent_eq_ok.mp hc).2.2.1 m hm
  rw [mergeDepthEnforcedAt, hd, not_and, not_lt] at hdepth
  have hle := hdepth (decide_eq_true UInt64.zero_le)
  rw [UInt64.le_iff_toNat_le, saturatingSub_toNat] at hle
  exact ⟨mb, hmb, by omega⟩

def blockLinks (b : Block) : Links := ⟨b.selectedParent, b.header.mergeParentHashes, b.height⟩

/-- The engine holds the blocks of the DAG from the height `low` on, and whatever else its relations
say of a block of the DAG is right. -/
structure Retains (blocks : KvStore Hash Block) (low : ℕ) (g : GhostDag) : Prop where
  stored : ∀ x b, blocks x = some b → low ≤ b.height.toNat → g.dagStore.blocks x = some b
  related : ∀ x r b, g.relations x = some r → blocks x = some b →
    (⟨r.selectedParent, r.mergeParents, r.height⟩ : Links) = blockLinks b

variable {low : ℕ} {x : Hash}

theorem Retains.linksOf (hr : Retains blocks low g) (hx : blocks x = some b)
    (hlow : low ≤ b.height.toNat) : g.linksOf x = .ok (blockLinks b) := by
  unfold GhostDag.linksOf
  split
  · rename_i r hrel
    rw [hr.related x r b hrel hx]
  · rw [hr.stored x b hx hlow]
    cases hgen : b.isGenesis with
    | true =>
      have hzero : b.selectedParent = 0 := (Block.isGenesis_parts hgen).1
      simp [blockLinks, hzero]
    | false => simp [blockLinks, hgen]

theorem AllNear.agreeFrom (hn : AllNear blocks) (hg : Retains blocks low g) (hh : Retains blocks low h)
    (hk : g.params.k = h.params.k) {floor : UInt64}
    (hlow : low ≤ floor.toNat - mergeParentMaxDepth.toNat) :
    AgreeFrom floor g h fun x => ∃ b, blocks x = some b ∧ low ≤ b.height.toNat := by
  refine ⟨hk, ?_, ?_⟩
  · rintro x ⟨b, hx, hb⟩
    rw [hg.linksOf hx hb, hh.linksOf hx hb]
  rintro x succs ⟨b, hx, hb⟩ hs y hy
  obtain ⟨l, hl, hfloor, hparent⟩ := mem_pastStep hs hy
  obtain rfl : blockLinks b = l := Except.ok.inj ((hg.linksOf hx hb).symm.trans hl)
  have hheight : floor.toNat ≤ b.height.toNat := UInt64.le_iff_toNat_le.mp hfloor
  rcases hn x b hx with hgen | hnear
  · obtain ⟨hzero, hnil, -⟩ := Block.isGenesis_parts hgen
    rcases hparent with ⟨-, hsp, -⟩ | hmem
    · exact absurd hzero hsp
    · have hm : y ∈ b.header.mergeParentHashes := hmem
      rw [hnil] at hm
      cases hm
  · rcases hparent with ⟨rfl, -, hlt⟩ | hmem
    · obtain ⟨sp, hsp, hone⟩ := hnear.selected
      have habove : floor.toNat < b.height.toNat := UInt64.lt_iff_toNat_lt.mp hlt
      exact ⟨sp, hsp, by omega⟩
    · obtain ⟨mb, hmb, hdepth⟩ := hnear.merges y hmem
      exact ⟨mb, hmb, by omega⟩

theorem ParentsNear.count_eq (hb : ParentsNear blocks b) (hn : AllNear blocks)
    (hg : Retains blocks low g) (hh : Retains blocks low h) (hk : g.params.k = h.params.k)
    (hlow : low ≤ b.height.toNat - (mergeScoreWindow + mergeParentMaxDepth).toNat) :
    g.boundedBlueMergeCount b = h.boundedBlueMergeCount b := by
  have hwindow : mergeScoreWindow.toNat = 200 := rfl
  have hdepth : mergeParentMaxDepth.toNat = 100 := rfl
  have hboth : (mergeScoreWindow + mergeParentMaxDepth).toNat = 300 := rfl
  have hfloor := saturatingSub_toNat b.height mergeScoreWindow
  refine (hn.agreeFrom hg hh hk ?_).boundedBlueMergeCount ?_ ?_
  · omega
  · obtain ⟨sp, hsp, hone⟩ := hb.selected
    exact ⟨sp, hsp, by omega⟩
  · intro m hm
    obtain ⟨mb, hmb, hmerge⟩ := hb.merges m hm
    exact ⟨mb, hmb, by omega⟩

/-- A DAG that admission built, as the engine that built it holds it. Every merge block of it has been
counted. -/
structure Accepted (g : GhostDag) : Prop where
  depth : g.mergeDepthActivationHeight = some 0
  near : AllNear g.dagStore.blocks
  retains : Retains g.dagStore.blocks 0 g
  counted : ∀ x b, g.dagStore.blocks x = some b → b.header.mergeParentHashes ≠ [] →
    ∃ n, g.boundedBlueMergeCount b = .ok n

theorem Accepted.unbuilt (hf : Fresh g) (hu : Unbuilt g) : Accepted g := by
  refine ⟨hu.depth, ?_, ⟨?_, ?_⟩, ?_⟩
  · intro x b hx
    rw [hu.empty] at hx
    cases hx
  · intro x b hx _
    exact hx
  · intro x r b hrel
    rw [hf.1] at hrel
    cases hrel
  · intro x b hx
    rw [hu.empty] at hx
    cases hx

theorem Builds.adds (hb : Builds g b g') :
    g'.params = g.params ∧ g'.mergeDepthActivationHeight = g.mergeDepthActivationHeight ∧
      g'.dagStore.blocks = g.dagStore.blocks.write (.put b.hash b) ∧
      ∃ s, g.deriveScoreAndWork b = .ok s ∧
        ∀ x, g'.entry x = if x = b.hash then some (entryOf b s) else g.entry x := by
  obtain ⟨-, hb⟩ := hb
  obtain ⟨g₁, hadd, hstore⟩ := Result.bind_eq_ok.mp hb
  obtain ⟨-, -, s, hs, rfl⟩ := addBlock_eq_ok.mp hadd
  cases hstore
  exact ⟨rfl, rfl, rfl, s, hs, entry_record g b s⟩

theorem ParentsNear.mono {blocks' : KvStore Hash Block} (hb : ParentsNear blocks b)
    (hsub : ∀ x c, blocks x = some c → blocks' x = some c) : ParentsNear blocks' b := by
  refine ⟨?_, fun m hm => ?_⟩
  · obtain ⟨sp, hsp, hone⟩ := hb.selected
    exact ⟨sp, hsub _ _ hsp, hone⟩
  · obtain ⟨mb, hmb, hdepth⟩ := hb.merges m hm
    exact ⟨mb, hsub _ _ hmb, hdepth⟩

theorem links_of_entry {r : DagRelation} (hrel : g.relations x = some r) {e : DagRelation}
    (he : g.entry x = some e) : (⟨r.selectedParent, r.mergeParents, r.height⟩ : Links) =
      ⟨e.selectedParent, e.mergeParents, e.height⟩ := by
  unfold entry at he
  rw [hrel] at he
  cases he
  rfl

theorem exists_entry {r : DagRelation} (hrel : g.relations x = some r) :
    ∃ e, g.entry x = some e := by
  refine ⟨bare r, ?_⟩
  unfold entry
  rw [hrel]
  rfl

theorem counted_of_derive {s : BlueSet} (hs : g.deriveScoreAndWork b = .ok s)
    (hm : b.header.mergeParentHashes ≠ []) : ∃ n, g.boundedBlueMergeCount b = .ok n := by
  have hgen : b.isGenesis = false := by
    by_contra hgen
    exact hm (Block.isGenesis_parts (Bool.not_eq_false _ ▸ hgen)).2.1
  unfold deriveScoreAndWork at hs
  rw [if_neg (by simp [hgen])] at hs
  obtain ⟨spScore, -, hs⟩ := Result.bind_eq_ok.mp hs
  obtain ⟨added, hadded, -⟩ := Result.bind_eq_ok.mp hs
  unfold scoreContribution at hadded
  rw [if_neg (by simpa using hm)] at hadded
  split at hadded
  · cases hadded
  · rename_i n hn
    exact ⟨n, hn⟩

section

variable (ha : Accepted g) (hb : Builds g b g')
include ha hb

theorem Accepted.retains_after : Retains g.dagStore.blocks 0 g' := by
  obtain ⟨-, -, -, s, -, hentry⟩ := hb.adds
  refine ⟨fun x c hx _ => hb.blocks_iff.mpr (.inr ⟨hb.ne_hash hx, hx⟩), fun x r c hrel hx => ?_⟩
  obtain ⟨e, he⟩ := exists_entry hrel
  have hg := hentry x
  rw [if_neg (hb.ne_hash hx), he] at hg
  obtain ⟨r', hrel', -⟩ := Option.map_eq_some_iff.mp hg.symm
  rw [(links_of_entry hrel he).trans (links_of_entry hrel' hg.symm).symm]
  exact ha.retains.related x r' c hrel' hx

theorem Accepted.count_after {c : Block} (hc : ParentsNear g.dagStore.blocks c) :
    g'.boundedBlueMergeCount c = g.boundedBlueMergeCount c :=
  hc.count_eq ha.near (ha.retains_after hb) ha.retains (by rw [hb.adds.1]) (Nat.zero_le _)

theorem Accepted.step : Accepted g' := by
  obtain ⟨hv, -, -, -⟩ := hb.parts
  obtain ⟨-, hact, -, s, hs, hentry⟩ := hb.adds
  have hretains := ha.retains_after hb
  have hsub : ∀ x c, g.dagStore.blocks x = some c → g'.dagStore.blocks x = some c :=
    fun x c hx => hretains.stored x c hx (Nat.zero_le _)
  have hnotgen : ∀ c : Block, c.header.mergeParentHashes ≠ [] → c.isGenesis ≠ true :=
    fun c hm hgen => hm (Block.isGenesis_parts hgen).2.1
  have hnear := validateBlockConsistency_near ha.depth hv
  refine ⟨hact.trans ha.depth, ?_, ⟨?_, ?_⟩, ?_⟩
  · intro x c hx
    rcases hb.blocks_iff.mp hx with ⟨-, rfl⟩ | ⟨-, hx⟩
    · exact hnear.imp id fun hn => hn.mono hsub
    · exact (ha.near x c hx).imp id fun hn => hn.mono hsub
  · intro x c hx _
    exact hx
  · intro x r c hrel hx
    rcases hb.blocks_iff.mp hx with ⟨rfl, rfl⟩ | ⟨-, hx⟩
    · have he := hentry c.hash
      rw [if_pos rfl] at he
      exact links_of_entry hrel he
    · exact hretains.related x r c hrel hx
  · intro x c hx hm
    rcases hb.blocks_iff.mp hx with ⟨-, rfl⟩ | ⟨-, hx⟩
    · rw [ha.count_after hb (hnear.resolve_left (hnotgen c hm))]
      exact counted_of_derive hs hm
    · rw [ha.count_after hb ((ha.near x c hx).resolve_left (hnotgen c hm))]
      exact ha.counted x c hx hm

end

theorem Runs.accepted {bs : List Block} (hf : Fresh g) (hu : Unbuilt g) (hr : Runs Builds g bs g') :
    Accepted g' :=
  hr.invariant (.unbuilt hf hu) fun _ _ _ ha hb => ha.step hb

/-- Every merge block of a DAG of accepted blocks is counted, and any engine that holds the blocks from
`mergeScoreWindow + mergeParentMaxDepth` heights below it on counts the same. -/
theorem pruned_count_eq {bs : List Block} (hf : Fresh g) (hu : Unbuilt g) (hr : Runs Builds g bs g')
    {x : Hash} (hx : g'.dagStore.blocks x = some b) (hm : b.header.mergeParentHashes ≠ []) :
    ∃ n, g'.boundedBlueMergeCount b = .ok n ∧ ∀ p : GhostDag, p.params.k = g'.params.k →
      Retains g'.dagStore.blocks
        (b.height.toNat - (mergeScoreWindow + mergeParentMaxDepth).toNat) p →
      p.boundedBlueMergeCount b = .ok n := by
  have ha := Runs.accepted hf hu hr
  obtain ⟨n, hn⟩ := ha.counted x b hx hm
  refine ⟨n, hn, fun p hk hp => ?_⟩
  have hnear : ParentsNear g'.dagStore.blocks b :=
    (ha.near x b hx).resolve_left fun hgen => hm (Block.isGenesis_parts hgen).2.1
  have hwhole : Retains g'.dagStore.blocks
      (b.height.toNat - (mergeScoreWindow + mergeParentMaxDepth).toNat) g' :=
    ⟨fun y c hy _ => ha.retains.stored y c hy (Nat.zero_le _), ha.retains.related⟩
  rw [← hn]
  exact hnear.count_eq ha.near hp hwhole hk le_rfl

/-- Block 306 merges the sibling 305 of its selected parent, 304 heights above genesis. -/
def longDag : List Block :=
  dagBlock 1 0 [] 0 0 :: plainChain 2 1 1 303 ++
    [dagBlock 305 303 [] 303 303, dagBlock 306 304 [305] 304 304]

theorem pruned_count_eq_long : ∃ g' p : GhostDag, Runs Builds genesisEngine longDag g' ∧
    g'.dagStore.blocks 2 = some (dagBlock 2 1 [] 1 1) ∧ p.dagStore.blocks 2 = none ∧
    p.boundedBlueMergeCount (dagBlock 306 304 [305] 304 304) = .ok 1 := by
  obtain ⟨g', hr, h2, h306, hone⟩ := exists_built longDag (fun g =>
    g.dagStore.blocks 2 = some (dagBlock 2 1 [] 1 1) ∧
    g.dagStore.blocks 306 = some (dagBlock 306 304 [305] 304 304) ∧
    g.boundedBlueMergeCount (dagBlock 306 304 [305] 304 304) = .ok 1) (by decide +kernel)
  obtain ⟨n, hn, hall⟩ := pruned_count_eq ⟨rfl, rfl⟩ genesisEngine_unbuilt hr h306 (List.cons_ne_nil _ _)
  rw [hn] at hone
  obtain rfl : n = 1 := Except.ok.inj hone
  let kept := { g'.dagStore with
    blocks := fun x => (g'.dagStore.blocks x).filter fun c => 4 ≤ c.height.toNat }
  refine ⟨g', { g' with dagStore := kept, relations := fun _ => none }, hr, h2, ?_, hall _ rfl ⟨?_, nofun⟩⟩
  · change (g'.dagStore.blocks 2).filter _ = none
    rw [h2]
    rfl
  · intro x c hx hle
    exact Option.filter_eq_some_iff.mpr ⟨hx, decide_eq_true hle⟩

end CitrateChain.Consensus.GhostDag
