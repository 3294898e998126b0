import CitrateChain.Base.Result
import CitrateChain.Base.Runs
import CitrateChain.Consensus.GhostDag

/-! # Heights along parent edges

Admission pins the height of a block to that of its selected parent plus one. A merge parent is
bounded only through the claimed blue scores, and a block may claim one point more than its selected
parent for each merge parent. Where every block claims one point more than its selected parent, claims
follow heights, and the comparison of claims keeps a merge parent below the block. -/
namespace CitrateChain.Consensus.GhostDag
open Transition Word Result
variable {g g' : GhostDag} {b sp : Block}

theorem checkMergeParents_eq_ok {mps : List Hash} : g.checkMergeParents b sp mps = .ok () ↔
    ∀ m ∈ mps, ∃ mb, g.dagStore.blocks m = some mb ∧ mb.header.blueScore ≤ sp.header.blueScore ∧
      ¬(g.mergeDepthEnforcedAt b.height ∧ mergeParentMaxDepth < saturatingSub b.height mb.height) := by
  fun_induction checkMergeParents g b sp mps with
  | case1 => simp
  | case2 mp rest hnone => simp [hnone]
  | case3 mp rest mb hmb hscore => simp [hmb, hscore]
  | case4 mp rest mb hmb hscore hdepth => simp [hmb, hdepth]
  | case5 mp rest mb hmb hscore hdepth ih =>
    rw [ih, List.forall_mem_cons, hmb]
    exact (and_iff_right ⟨mb, rfl, not_lt.mp hscore, hdepth⟩).symm

theorem checkScoreAndWork_ok (hc : checkScoreAndWork b sp = .ok ()) :
    sp.header.blueScore.toNat + 1 ≤ b.header.blueScore.toNat := by
  revert hc
  fun_cases checkScoreAndWork b sp with
  | case5 low hlow _ _ hband =>
    intro
    rw [not_or, not_lt, UInt64.le_iff_toNat_le] at hband
    have hsum : low.toNat = sp.header.blueScore.toNat + 1 := checkedAdd_toNat hlow
    omega
  | _ => nofun

structure LinkedTo (blocks : KvStore Hash Block) (b sp : Block) : Prop where
  selected : blocks b.selectedParent = some sp
  height : b.height.toNat = sp.height.toNat + 1
  score : sp.header.blueScore.toNat + 1 ≤ b.header.blueScore.toNat
  merges : ∀ m ∈ b.header.mergeParentHashes, ∃ mb, blocks m = some mb ∧
    mb.header.blueScore ≤ sp.header.blueScore

theorem checkAgainstParent_eq_ok : g.checkAgainstParent b sp = .ok () ↔
    checkedAdd sp.height 1 = some b.height ∧ g.checkTimestamp b sp = .ok () ∧
      g.checkMergeParents b sp b.header.mergeParentHashes = .ok () ∧
      checkScoreAndWork b sp = .ok () := by
  unfold checkAgainstParent
  cases checkedAdd sp.height 1 with
  | none => simp
  | some expected =>
    by_cases hheight : b.height = expected
    · simp [hheight, bind_eq_ok, Unique.exists_iff]
    · simp [hheight, Ne.symm hheight]

theorem checkAgainstParent_ok (hsel : g.dagStore.blocks b.selectedParent = some sp)
    (hc : g.checkAgainstParent b sp = .ok ()) : LinkedTo g.dagStore.blocks b sp := by
  obtain ⟨hheight, -, hmerges, hscore⟩ := checkAgainstParent_eq_ok.mp hc
  refine ⟨hsel, checkedAdd_toNat hheight, checkScoreAndWork_ok hscore, fun m hm => ?_⟩
  obtain ⟨mb, hmb, hle, -⟩ := checkMergeParents_eq_ok.mp hmerges m hm
  exact ⟨mb, hmb, hle⟩

theorem isConfiguredGenesis_parts {verifyHash : Block → Bool} {configured : Option Hash}
    (h : b.isConfiguredGenesis verifyHash configured = true) :
    b.isGenesis = true ∧ b.height = 0 ∧ ∀ root, configured = some root → b.hash = root := by
  unfold Block.isConfiguredGenesis at h
  split_ifs at h with hshape
  rw [not_or, not_not, Bool.not_eq_false] at hshape
  refine ⟨hshape.2, hshape.1, ?_⟩
  rintro root rfl
  exact eq_of_beq (Bool.and_eq_true_iff.mp h).1

theorem validateBlockConsistency_eq_ok : g.validateBlockConsistency b = .ok () ↔
    b.isConfiguredGenesis g.verifyHash g.dagStore.configuredGenesis = true ∨
      b.selectedParent ≠ 0 ∧ b.header.mergeParentHashes.length < g.params.maxParents ∧
      checkMergeShape b.selectedParent b.hash [] b.header.mergeParentHashes = .ok () ∧
      ∃ sp, g.dagStore.blocks b.selectedParent = some sp ∧ g.checkAgainstParent b sp = .ok () := by
  unfold validateBlockConsistency
  split_ifs with hgen hsp hmany
  · simp [hgen]
  · simp [hgen, hsp]
  · simp [hgen, hmany]
  · rw [or_iff_right hgen, and_iff_right hsp, and_iff_right (not_le.mp hmany), bind_eq_ok]
    cases g.dagStore.blocks b.selectedParent <;> simp [Unique.exists_iff]

theorem validateBlockConsistency_ok (hv : g.validateBlockConsistency b = .ok ()) :
    b.isConfiguredGenesis g.verifyHash g.dagStore.configuredGenesis = true ∨
      b.isGenesis = false ∧ ∃ sp, LinkedTo g.dagStore.blocks b sp := by
  refine (validateBlockConsistency_eq_ok.mp hv).imp id ?_
  rintro ⟨hsp, -, -, sp, hsel, hc⟩
  exact ⟨Block.isGenesis_of_selectedParent_ne hsp, sp, checkAgainstParent_ok hsel hc⟩

structure Extends (g g' : GhostDag) : Prop where
  params : g'.params = g.params
  hardening : g'.pbaHardening = g.pbaHardening
  depth : g'.mergeDepthActivationHeight = g.mergeDepthActivationHeight
  verify : g'.verifyHash = g.verifyHash
  genesis : g'.dagStore.configuredGenesis = g.dagStore.configuredGenesis
  blocks : ∀ x c, g.dagStore.blocks x = some c → g'.dagStore.blocks x = some c

theorem Extends.checkMergeParents (he : Extends g g') {mps : List Hash}
    (hc : g.checkMergeParents b sp mps = .ok ()) : g'.checkMergeParents b sp mps = .ok () := by
  refine checkMergeParents_eq_ok.mpr fun m hm => ?_
  obtain ⟨mb, hmb, hle, hdepth⟩ := checkMergeParents_eq_ok.mp hc m hm
  refine ⟨mb, he.blocks m mb hmb, hle, ?_⟩
  rwa [mergeDepthEnforcedAt, he.depth]

theorem Extends.checkAgainstParent (he : Extends g g') (hc : g.checkAgainstParent b sp = .ok ()) :
    g'.checkAgainstParent b sp = .ok () := by
  obtain ⟨hheight, htime, hmerges, hscore⟩ := checkAgainstParent_eq_ok.mp hc
  refine checkAgainstParent_eq_ok.mpr ⟨hheight, ?_, he.checkMergeParents hmerges, hscore⟩
  rwa [checkTimestamp, he.hardening]

theorem Extends.validate (he : Extends g g') (hv : g.validateBlockConsistency b = .ok ()) :
    g'.validateBlockConsistency b = .ok () := by
  refine validateBlockConsistency_eq_ok.mpr ?_
  rw [he.verify, he.genesis, he.params]
  refine (validateBlockConsistency_eq_ok.mp hv).imp id ?_
  rintro ⟨hsp, hfew, hshape, sp, hsel, hc⟩
  exact ⟨hsp, hfew, hshape, sp, he.blocks _ _ hsel, he.checkAgainstParent hc⟩

def build (g : GhostDag) (b : Block) : Except GhostDagError GhostDag := do
  let g ← g.addBlock b
  .ok { g with dagStore := { g.dagStore with blocks := g.dagStore.blocks.write (.put b.hash b) } }

def Builds (g : GhostDag) (b : Block) (g' : GhostDag) : Prop :=
  g.dagStore.blocks b.hash = none ∧ g.build b = .ok g'

/-- An engine over an empty DAG store that knows the genesis hash and bounds the depth of merge
parents at every height. -/
structure Unbuilt (g : GhostDag) : Prop where
  empty : g.dagStore.blocks = fun _ => none
  genesis : ∃ x, g.dagStore.configuredGenesis = some x
  depth : g.mergeDepthActivationHeight = some 0

theorem Builds.parts (hb : Builds g b g') :
    g.validateBlockConsistency b = .ok () ∧ g.dagStore.blocks b.hash = none ∧
      g'.dagStore.blocks = g.dagStore.blocks.write (.put b.hash b) ∧
      g'.dagStore.configuredGenesis = g.dagStore.configuredGenesis := by
  obtain ⟨hnew, hb⟩ := hb
  obtain ⟨g₁, hadd, hstore⟩ := bind_eq_ok.mp hb
  obtain ⟨-, hv, s, -, rfl⟩ := addBlock_eq_ok.mp hadd
  cases hstore
  exact ⟨hv, hnew, rfl, rfl⟩

theorem Builds.ne_hash (hb : Builds g b g') {x : Hash} {c : Block}
    (hx : g.dagStore.blocks x = some c) : x ≠ b.hash := by
  rintro rfl
  cases hb.1.symm.trans hx

theorem Builds.blocks_iff (hb : Builds g b g') {x : Hash} {c : Block} : g'.dagStore.blocks x = some c ↔
    x = b.hash ∧ c = b ∨ x ≠ b.hash ∧ g.dagStore.blocks x = some c := by
  rw [hb.parts.2.2.1, KvStore.write_put]
  split_ifs with hx <;> simp [hx, eq_comm]

/-- Every stored block is the genesis block `root` or is linked to its selected parent. -/
structure Linked (root : Hash) (blocks : KvStore Hash Block) : Prop where
  named : ∀ x b, blocks x = some b → b.hash = x
  linked : ∀ x b, blocks x = some b →
    (b.isGenesis = true ∧ x = root ∧ b.height = 0) ∨ (b.isGenesis = false ∧ ∃ sp, LinkedTo blocks b sp)

theorem LinkedTo.mono {blocks blocks' : KvStore Hash Block} (hl : LinkedTo blocks b sp)
    (hsub : ∀ x d, blocks x = some d → blocks' x = some d) : LinkedTo blocks' b sp := by
  refine ⟨hsub _ _ hl.selected, hl.height, hl.score, fun m hm => ?_⟩
  obtain ⟨mb, hmb, hle⟩ := hl.merges m hm
  exact ⟨mb, hsub _ _ hmb, hle⟩

theorem Linked.step {root : Hash} (hl : Linked root g.dagStore.blocks)
    (hroot : g.dagStore.configuredGenesis = some root) (hb : Builds g b g') :
    Linked root g'.dagStore.blocks := by
  have hsub : ∀ x d, g.dagStore.blocks x = some d → g'.dagStore.blocks x = some d :=
    fun x d hx => hb.blocks_iff.mpr (.inr ⟨hb.ne_hash hx, hx⟩)
  refine ⟨fun x c hx => ?_, fun x c hx => ?_⟩
  · rcases hb.blocks_iff.mp hx with ⟨rfl, rfl⟩ | ⟨-, hx⟩
    · rfl
    · exact hl.named x c hx
  · rcases hb.blocks_iff.mp hx with ⟨rfl, rfl⟩ | ⟨-, hx⟩
    · rcases validateBlockConsistency_ok hb.parts.1 with hgen | ⟨hgen, sp, hsp⟩
      · rw [hroot] at hgen
        obtain ⟨hgen, hheight, hname⟩ := isConfiguredGenesis_parts hgen
        exact Or.inl ⟨hgen, hname root rfl, hheight⟩
      · exact Or.inr ⟨hgen, sp, hsp.mono hsub⟩
    · exact (hl.linked x c hx).imp id fun ⟨hgen, sp, hsp⟩ => ⟨hgen, sp, hsp.mono hsub⟩

variable {bs : List Block}

theorem Runs.linked (hg : Unbuilt g) (hr : Runs Builds g bs g') :
    ∃ root, Linked root g'.dagStore.blocks := by
  obtain ⟨root, hroot⟩ := hg.genesis
  refine ⟨root, (hr.invariant (P := fun t => Linked root t.dagStore.blocks ∧
    t.dagStore.configuredGenesis = some root) ?_ ?_).1⟩
  · rw [hg.empty]
    exact ⟨⟨(fun _ _ h => nomatch h), (fun _ _ h => nomatch h)⟩, hroot⟩
  · rintro t b u ⟨hl, ht⟩ hb
    exact ⟨hl.step ht hb, hb.parts.2.2.2.trans ht⟩

def claimedScore (blocks : KvStore Hash Block) (x : Hash) : ℕ :=
  match blocks x with
  | some b => b.header.blueScore.toNat
  | none => 0

def HeightsDecrease (blocks : KvStore Hash Block) : Prop :=
  ∀ x b, blocks x = some b → b.isGenesis = false →
    ∀ p ∈ b.parents, ∃ pb, blocks p = some pb ∧ pb.height < b.height

def ClaimsOne (blocks : KvStore Hash Block) (b : Block) : Prop :=
  b.isGenesis = false → ∀ sp ∈ blocks b.selectedParent, b.header.blueScore = sp.header.blueScore + 1

instance decidableClaimsOne (blocks : KvStore Hash Block) (b : Block) : Decidable (ClaimsOne blocks b) :=
  inferInstanceAs (Decidable (b.isGenesis = false → ∀ sp ∈ blocks b.selectedParent,
    b.header.blueScore = sp.header.blueScore + 1))

def BuildsPlain (g : GhostDag) (b : Block) (g' : GhostDag) : Prop :=
  Builds g b g' ∧ ClaimsOne g.dagStore.blocks b

variable {root : Hash} {blocks : KvStore Hash Block} {x : Hash}

theorem claimedScore_of (hx : blocks x = some b) :
    claimedScore blocks x = b.header.blueScore.toNat := by
  simp only [claimedScore, hx]

theorem Builds.claimsOne {c : Block} (hb : Builds g b g')
    (hsp : ∃ sp, g.dagStore.blocks c.selectedParent = some sp) (hc : ClaimsOne g.dagStore.blocks c) :
    ClaimsOne g'.dagStore.blocks c := by
  intro hgen sp hmem
  obtain ⟨sp', hsp'⟩ := hsp
  rcases hb.blocks_iff.mp hmem with ⟨hnew, -⟩ | ⟨-, hold⟩
  · exact absurd hnew (hb.ne_hash hsp')
  · exact hc hgen sp hold

theorem Runs.claimsOne (hg : Unbuilt g) (hr : Runs BuildsPlain g bs g') :
    ∀ x b, g'.dagStore.blocks x = some b → ClaimsOne g'.dagStore.blocks b := by
  obtain ⟨root, hroot⟩ := hg.genesis
  refine (hr.invariant (P := fun t => (Linked root t.dagStore.blocks ∧
    t.dagStore.configuredGenesis = some root) ∧
    ∀ x b, t.dagStore.blocks x = some b → ClaimsOne t.dagStore.blocks b) ?_ ?_).2
  · rw [hg.empty]
    exact ⟨⟨⟨(fun _ _ h => nomatch h), (fun _ _ h => nomatch h)⟩, hroot⟩, fun _ _ h => nomatch h⟩
  rintro t b u ⟨⟨hl, ht⟩, hclaims⟩ ⟨hb, hone⟩
  refine ⟨⟨hl.step ht hb, hb.parts.2.2.2.trans ht⟩, fun x c hx hgen => ?_⟩
  rcases hb.blocks_iff.mp hx with ⟨-, rfl⟩ | ⟨-, hx⟩
  · rcases validateBlockConsistency_ok hb.parts.1 with hgen' | ⟨-, sp, hsp⟩
    · exact absurd hgen (by simp [(isConfiguredGenesis_parts hgen').1])
    · exact hb.claimsOne ⟨sp, hsp.selected⟩ hone hgen
  · rcases hl.linked x c hx with ⟨hgen', -⟩ | ⟨-, sp, hsp⟩
    · exact absurd hgen (by simp [hgen'])
    · exact hb.claimsOne ⟨sp, hsp.selected⟩ (hclaims x c hx) hgen

theorem LinkedTo.claim_eq (hsp : LinkedTo blocks b sp) (hc : ClaimsOne blocks b)
    (hgen : b.isGenesis = false) : b.header.blueScore.toNat = sp.header.blueScore.toNat + 1 := by
  have hone := congrArg UInt64.toNat (hc hgen sp hsp.selected)
  rw [UInt64.toNat_add, UInt64.toNat_one] at hone
  have hle := hsp.score
  omega

theorem Linked.claim_eq_height (hl : Linked root blocks)
    (hclaims : ∀ x b, blocks x = some b → ClaimsOne blocks b) (n : ℕ) (hx : blocks x = some b)
    (hn : b.height.toNat = n) : b.header.blueScore.toNat = claimedScore blocks root + n := by
  induction n generalizing x b with
  | zero =>
    rcases hl.linked x b hx with ⟨-, rfl, -⟩ | ⟨-, sp, hsp⟩
    · exact (claimedScore_of hx).symm
    · have := hsp.height
      omega
  | succ n ih =>
    rcases hl.linked x b hx with ⟨-, -, hzero⟩ | ⟨hgen, sp, hsp⟩
    · rw [hzero] at hn
      cases hn
    · have hheight := hsp.height
      have hrec := ih hsp.selected (by omega)
      have hone := hsp.claim_eq (hclaims x b hx) hgen
      omega

/-- In a DAG built by admission from blocks that each claim one point more than their selected parent,
parent edges descend in height. -/
theorem parent_edges_descend (hg : Unbuilt g) (hr : Runs BuildsPlain g bs g') :
    HeightsDecrease g'.dagStore.blocks := by
  obtain ⟨root, hl⟩ := Runs.linked hg (hr.imp fun _ _ _ _ hb => hb.1)
  have hclaims := Runs.claimsOne hg hr
  intro x b hx hgen p hp
  rcases hl.linked x b hx with ⟨hgen', -⟩ | ⟨-, sp, hsp⟩
  · simp [hgen'] at hgen
  have hheight := hsp.height
  rcases List.mem_cons.mp hp with rfl | hm
  · refine ⟨sp, hsp.selected, ?_⟩
    rw [UInt64.lt_iff_toNat_lt]
    omega
  · -- the merge parent claims no more than the selected parent, so it stands no higher
    obtain ⟨mb, hmb, hle⟩ := hsp.merges p hm
    have hms := hl.claim_eq_height hclaims _ hmb rfl
    have hss := hl.claim_eq_height hclaims _ hsp.selected rfl
    rw [UInt64.le_iff_toNat_le] at hle
    refine ⟨mb, hmb, ?_⟩
    rw [UInt64.lt_iff_toNat_lt]
    omega

def buildNew (test : GhostDag → Block → Bool) (g : GhostDag) (b : Block) : Option GhostDag :=
  match g.dagStore.blocks b.hash, g.build b with
  | none, .ok g' => if test g b then some g' else none
  | _, _ => none

theorem builds_of_buildNew {test : GhostDag → Block → Bool} (h : buildNew test g b = some g') :
    Builds g b g' ∧ test g b = true := by
  unfold buildNew at h
  split at h
  · rename_i hnew hok
    split_ifs at h with ht
    cases h
    exact ⟨⟨hnew, hok⟩, ht⟩
  · cases h

def genesisEngine : GhostDag where
  params := {}
  dagStore := ⟨fun _ => none, fun _ => none, some 1⟩
  relations _ := none
  tips := []
  mergeDepthActivationHeight := some 0
  pbaHardening := {}
  verifyHash _ := true
  order := ⟨id, List.Perm.refl⟩

def dagBlock (hash selected : Hash) (merges : List Hash) (height score : UInt64) : Block :=
  ⟨⟨1, hash, selected, merges, 0, height, score, blueWorkForScore score⟩, 0, []⟩

def plainChain (first parent height n : ℕ) : List Block :=
  (List.range n).map fun i =>
    dagBlock (BitVec.ofNat 256 (first + i)) (BitVec.ofNat 256 (if i = 0 then parent else first + i - 1)) []
      (UInt64.ofNat (height + i)) (UInt64.ofNat (height + i))

theorem genesisEngine_unbuilt : Unbuilt genesisEngine := ⟨rfl, ⟨1, rfl⟩, rfl⟩

theorem exists_built (bs : List Block) (p : GhostDag → Prop) [DecidablePred p]
    (h : (bs.foldlM (buildNew fun _ _ => true) genesisEngine).any (fun g => p g) = true) :
    ∃ g', Runs Builds genesisEngine bs g' ∧ p g' := by
  obtain ⟨g', hr, hp⟩ := Runs.exists_foldlM _ _ bs h
  exact ⟨g', hr.imp fun _ _ _ _ hb => (builds_of_buildNew hb).1, hp⟩

theorem inflated_parent_merges_equal_height : ∃ bs g', Runs Builds genesisEngine bs g' ∧
    ¬HeightsDecrease g'.dagStore.blocks := by
  let bs := [dagBlock 1 0 [] 0 0, dagBlock 2 1 [] 1 1, dagBlock 3 1 [] 1 1, dagBlock 4 1 [] 1 1,
    dagBlock 5 2 [3] 2 3, dagBlock 6 4 [] 2 2, dagBlock 7 6 [] 3 3, dagBlock 8 5 [7] 3 4]
  obtain ⟨g', hr, h7, h8⟩ := exists_built bs (fun g => g.dagStore.blocks 7 = some (dagBlock 7 6 [] 3 3) ∧
    g.dagStore.blocks 8 = some (dagBlock 8 5 [7] 3 4)) (by decide)
  refine ⟨bs, g', hr, ?_⟩
  intro hdec
  obtain ⟨pb, hpb, hlt⟩ := hdec 8 _ h8 rfl 7 (by simp [dagBlock, Block.parents])
  cases h7.symm.trans hpb
  exact absurd hlt (by decide)

theorem Runs.stored (hg : Unbuilt g) (hr : Runs Builds g bs g') :
    ∀ x b, g'.dagStore.blocks x = some b → b ∈ bs := by
  induction hr with
  | refl =>
    rw [hg.empty]
    exact fun _ _ h => nomatch h
  | @step bs t b u _ hb ih =>
    intro x c hx
    rcases hb.blocks_iff.mp hx with ⟨-, rfl⟩ | ⟨-, hx⟩
    · simp
    · exact List.mem_append_left _ (ih x c hx)

theorem parent_edges_descend_merge : ∃ bs g', Runs BuildsPlain genesisEngine bs g' ∧
    g'.dagStore.blocks 4 = some (dagBlock 4 2 [3] 2 2) ∧ HeightsDecrease g'.dagStore.blocks := by
  obtain ⟨g', hr, h4⟩ := Runs.exists_foldlM (buildNew fun g b => decide (ClaimsOne g.dagStore.blocks b))
    genesisEngine [dagBlock 1 0 [] 0 0, dagBlock 2 1 [] 1 1, dagBlock 3 1 [] 1 1, dagBlock 4 2 [3] 2 2]
    (p := fun g => g.dagStore.blocks 4 = some (dagBlock 4 2 [3] 2 2)) (by decide)
  have hr : Runs BuildsPlain genesisEngine _ g' := hr.imp fun _ _ _ _ hb =>
    ⟨(builds_of_buildNew hb).1, of_decide_eq_true (builds_of_buildNew hb).2⟩
  exact ⟨_, g', hr, h4, parent_edges_descend genesisEngine_unbuilt hr⟩

end CitrateChain.Consensus.GhostDag
