import CitrateChain.Consensus.SelectedChain

/-! # Finalized blocks under the tip

The derived score climbs along selected-parent edges of admitted blocks, so a block whose selected
parent is the tip outscores the chain and passes the finality check of a reorganisation. A block that
only merges the tip and does not outscore the chain takes the extension path, which has no such
check. -/
namespace CitrateChain.Consensus
open Std (ExtTreeMap)
open Transition (Runs)
open Word GhostDag DagStore

section Scores
variable {g g' : GhostDag} {b : Block} {r : DagRules} {dag dag' : DagStore}

theorem GhostDag.deriveScoreAndWork_lt {s : BlueSet} {m : UInt64} (hgen : b.isGenesis = false)
    (hm : g.derivedScore b.selectedParent = some m) (h : g.deriveScoreAndWork b = .ok s) :
    m < s.score := by
  rw [deriveScoreAndWork, hgen] at h
  simp only [Bool.false_eq_true, if_false] at h
  obtain ⟨sp, hsp, h⟩ := Result.bind_eq_ok.mp h
  obtain ⟨added, hadded, h⟩ := Result.bind_eq_ok.mp h
  obtain ⟨score, hscore, h⟩ := Result.bind_eq_ok.mp h
  cases h
  rw [derivedScore_eq] at hm
  obtain ⟨e, he, rfl⟩ := Option.map_eq_some_iff.mp hm
  cases (scoreOf_of_entry he).symm.trans hsp
  have hsum := scoreAdd_toNat hscore
  have hpos := scoreContribution_pos hadded
  rw [UInt64.lt_iff_toNat_lt]
  change e.blueSet.score.toNat < score.toNat
  omega

/-- The engine reads the blocks of the store, has a score for exactly these blocks, and its scores
climb along selected-parent edges. -/
structure InStep (g : GhostDag) (dag : DagStore) : Prop where
  tree : IsTree dag.blocks
  reads : ∀ x : Hash, g.dagStore.blocks x = dag.blocks[x]?
  known : ∀ x : Hash, (g.derivedScore x).isSome ↔ (dag.blocks[x]?).isSome
  climbs : ∀ x y, Selected dag.blocks x y → ∀ m n, g.derivedScore x = some m →
    g.derivedScore y = some n → n < m

theorem Builds.scores (hb : GhostDag.Builds g b g') : ∃ s, g.deriveScoreAndWork b = .ok s ∧
    ∀ x, g'.derivedScore x = if x = b.hash then some s.score else g.derivedScore x := by
  obtain ⟨g₁, hadd, hstore⟩ := Result.bind_eq_ok.mp hb.2
  obtain ⟨-, -, s, hs, rfl⟩ := addBlock_eq_ok.mp hadd
  cases hstore
  refine ⟨s, hs, fun x => ?_⟩
  have h : (g.record b s).derivedScore x = if x = b.hash then some s.score else g.derivedScore x := by
    rw [derivedScore_eq, entry_record, derivedScore_eq]
    split_ifs
    · rfl
    · rfl
  exact h

theorem InStep.hangs (hs : InStep g dag) (hb : GhostDag.Builds g b g') : Hangs dag.blocks b := by
  rcases validateBlockConsistency_ok hb.parts.1 with hgen | ⟨hgen, sp, hsp⟩
  · obtain ⟨hgen, hheight, -⟩ := isConfiguredGenesis_parts hgen
    exact Or.inl ⟨hgen, hheight⟩
  · exact Or.inr ⟨hgen, sp, by rw [← hs.reads]; exact hsp.selected, hsp.height⟩

theorem InStep.admission (hs : InStep g dag) (h : ChainSelector.Admission r (g, dag) (g', dag')) :
    InStep g' dag' ∧ Grows dag.blocks dag'.blocks ∧ dag'.finalized = dag.finalized ∧
      ∀ x, (dag.blocks[x]?).isSome → g'.derivedScore x = g.derivedScore x := by
  obtain ⟨b, fault, hzero, hb, hstore⟩ := h
  obtain ⟨hnew, rfl⟩ := storeBlock_ok hstore
  obtain ⟨blue, hblue, hscores⟩ := Builds.scores hb
  have hblocks : ((dag.persist (storeOps r dag b)).storeInMemory b).blocks =
      dag.blocks.insert b.hash b := rfl
  have hold : ∀ x, (dag.blocks[x]?).isSome → g'.derivedScore x = g.derivedScore x := by
    intro x hx
    rw [hscores, if_neg]
    rintro rfl
    simp [hnew] at hx
  refine ⟨⟨?_, ?_, ?_, ?_⟩, ?_, rfl, hold⟩
  · exact hs.tree.insert hnew hzero (hs.hangs hb)
  · intro x
    rw [hb.parts.2.2.1, hblocks, TreeMap.getElem?_insert_ite, KvStore.write_put, hs.reads]
  · intro x
    rw [hblocks, TreeMap.getElem?_insert_ite, hscores]
    split_ifs
    · simp
    · exact hs.known x
  · rintro x y ⟨c, hc, hgen, rfl⟩ m n hm hn
    rw [hblocks, TreeMap.getElem?_insert_ite] at hc
    split_ifs at hc with hx
    · -- the new block: its parent is stored already
      cases hc
      rw [hscores, if_pos hx] at hm
      rcases hs.hangs hb with ⟨hgen', -⟩ | ⟨-, sp, hsp, -⟩
      · simp [hgen] at hgen'
      · rw [hold _ (by simp [hsp])] at hn
        rw [← Option.some.inj hm]
        exact deriveScoreAndWork_lt hgen hn hblue
    · obtain ⟨sp, hsp, -⟩ := hs.tree.parent hc hgen
      rw [hold x (by simp [hc])] at hm
      rw [hold _ (by simp [hsp])] at hn
      exact hs.climbs x _ ⟨c, hc, hgen, rfl⟩ m n hm hn
  · exact grows_insert hnew

end Scores

namespace ChainSelector
variable {p : SelectorParams} {r : DagRules} {s s' : ChainSelector} {b : Block} {fuel : ℕ}
variable {score : UInt64}

theorem Moves.frame (ht : IsTree s.dag.blocks) (hm : Moves p fuel s b score s') :
    s'.ghostdag = s.ghostdag ∧ s'.dag.blocks = s.dag.blocks := by
  cases hm with
  | stay _ _ h => exact h ▸ ⟨rfl, rfl⟩
  | reorg ca depth newChain _ _ _ _ htracker =>
    obtain ⟨-, hghost, hadv⟩ := updateTracker_advances (s := s.moveTo b score newChain) ht htracker
    exact ⟨hghost, hadv.blocks⟩
  | extend _ _ htracker =>
    obtain ⟨-, hghost, hadv⟩ := updateTracker_advances
      (s := s.moveTo b score (s.chain.selectedChain ++ [b.hash])) ht htracker
    exact ⟨hghost, hadv.blocks⟩

theorem SelectorStep.scored {a : SelectorCall} (hs : InStep s.ghostdag s.dag)
    (hstep : SelectorStep p (Admission r) s a s') : InStep s'.ghostdag s'.dag := by
  cases hstep with
  | returned fuel flag hb h =>
    obtain ⟨score, -, hm⟩ := onNewBlock_ok hb h
    obtain ⟨hghost, hblocks⟩ := hm.frame hs.tree
    rw [hghost]
    exact ⟨hblocks ▸ hs.tree, hblocks ▸ hs.reads, hblocks ▸ hs.known, hblocks ▸ hs.climbs⟩
  | refused => exact hs
  | grow h => exact (hs.admission h).1

structure Unstarted (g : GhostDag) (dag : DagStore) : Prop where
  reads : g.dagStore.blocks = fun _ => none
  relations : g.relations = fun _ => none
  blocks : dag.blocks = ∅
  finalized : dag.finalized = ∅

theorem Unstarted.scored {g : GhostDag} {dag : DagStore} (h : Unstarted g dag) : InStep g dag where
  tree := h.blocks ▸ .empty
  reads := by
    intro x
    simp [h.reads, h.blocks]
  known := by
    intro x
    simp [derivedScore, h.relations, h.blocks]
  climbs := by
    rintro x y ⟨b, hb, -⟩
    simp [h.blocks] at hb

variable {calls : List SelectorCall}

theorem Runs.scored (hs : InStep s.ghostdag s.dag)
    (hr : Runs (SelectorStep p (Admission r)) s calls s') : InStep s'.ghostdag s'.dag :=
  hr.invariant (P := fun s => InStep s.ghostdag s.dag) hs fun _ _ _ hs hstep => hstep.scored hs

/-- The chain is empty and nothing is finalized, or the finalized blocks are ancestors of the tip that
lie no higher than the finalized height. -/
inductive Anchored (s : ChainSelector) : Prop
  | empty (htip : s.chain.tip = 0) (hscore : s.chain.blueScore = 0) (hnone : s.dag.finalized = ∅)
  | under (hscore : s.ghostdag.derivedScore s.chain.tip = some s.chain.blueScore)
      (hunder : ∀ x ∈ s.dag.finalized, Ancestor s.dag.blocks s.chain.tip x ∧
        heightOf s.dag.blocks x ≤ s.tracker.finalizedHeight.toNat ∧ s.tracker.finalizedTip.isSome)

/-- A block that names the tip as a merge parent only has a greater score than the chain. -/
def OutscoresMergedTip (s : ChainSelector) : SelectorCall → Prop
  | .returned b => s.chain.tip ∈ b.header.mergeParentHashes → b.selectedParent ≠ s.chain.tip →
      ∀ score, s.ghostdag.derivedScore b.hash = some score → s.chain.blueScore < score
  | _ => True

theorem Anchored.moveTo {newChain : List Hash} (ht : IsTree s.dag.blocks)
    (hscore : s.ghostdag.derivedScore b.hash = some score)
    (hunder : ∀ x ∈ s.dag.finalized, Ancestor s.dag.blocks b.hash x ∧
      heightOf s.dag.blocks x ≤ s.tracker.finalizedHeight.toNat ∧ s.tracker.finalizedTip.isSome)
    (h : (s.moveTo b score newChain).updateTracker p fuel b = some s') :
    Anchored s' ∧ s.dag.finalized ⊆ s'.dag.finalized ∧ s'.chain.blueScore = score := by
  obtain ⟨hchain, hghost, hadv⟩ := updateTracker_advances (s := s.moveTo b score newChain) ht h
  have hblocks : s'.dag.blocks = s.dag.blocks := hadv.blocks
  have hghost : s'.ghostdag = s.ghostdag := hghost
  have htip : s'.chain.tip = b.hash := by rw [hchain]; rfl
  have hblue : s'.chain.blueScore = score := by rw [hchain]; rfl
  refine ⟨.under ?_ ?_, hadv.keeps, hblue⟩
  · rw [hghost, htip, hblue]
    exact hscore
  · intro x hx
    rw [hblocks, htip]
    rcases hadv.marks x hx with hold | hnew
    · obtain ⟨ha, hle, hsome⟩ := hunder x hold
      exact ⟨ha, hle.trans (UInt64.le_iff_toNat_le.mp hadv.height), hadv.tip hsome⟩
    · exact hnew

variable {c : FinalityConfig}

theorem checkFinality_ok {ca : Hash} (hp : p.finality = some c)
    (h : s.checkFinality p ca = .ok ()) (hsome : s.tracker.finalizedTip.isSome) :
    s.tracker.finalizedHeight.toNat ≤ heightOf s.dag.blocks ca := by
  obtain ⟨f, hf⟩ := Option.isSome_iff_exists.mp hsome
  simp only [checkFinality, hp, FinalityTracker.checkReorgAllowed, hf] at h
  cases hca : s.dag.blocks[ca]? with
  | none => simp [hca] at h
  | some cb =>
    by_cases hlow : cb.height < s.tracker.finalizedHeight
    · simp [hca, hlow] at h
    · rw [heightOf_eq hca]
      exact UInt64.le_iff_toNat_le.mp (UInt64.not_lt.mp hlow)

theorem Anchored.under_reorg {ca : Hash} {depth : UInt64} (hp : p.finality = some c)
    (hs : InStep s.ghostdag s.dag) (ha : Anchored s) (hb : s.dag.blocks[b.hash]? = some b)
    (hca : findCommonAncestor s.dag.blocks fuel s.chain.tip b.hash = some (.ok (ca, depth)))
    (hfinal : s.checkFinality p ca = .ok ()) :
    ∀ x ∈ s.dag.finalized, Ancestor s.dag.blocks b.hash x ∧
      heightOf s.dag.blocks x ≤ s.tracker.finalizedHeight.toNat ∧ s.tracker.finalizedTip.isSome := by
  intro x hx
  cases ha with
  | empty _ _ hnone => simp [hnone] at hx
  | under hscore hunder =>
    obtain ⟨hxt, hle, hsome⟩ := hunder x hx
    obtain ⟨t, ht⟩ := Option.isSome_iff_exists.mp ((hs.known s.chain.tip).mp (by simp [hscore]))
    obtain ⟨h1, h2⟩ := findCommonAncestor_ok (hs.tree.ne_zero ht) (hs.tree.ne_zero hb) hca
    have hfh := checkFinality_ok hp hfinal hsome
    exact ⟨h2.trans (hs.tree.ancestor_of_le h1 hxt (hle.trans hfh)), hle, hsome⟩

theorem Anchored.extends_empty (hs : InStep s.ghostdag s.dag) (ha : Anchored s)
    (hb : s.dag.blocks[b.hash]? = some b) (hscore : s.ghostdag.derivedScore b.hash = some score)
    (hle : score ≤ s.chain.blueScore) (hm : OutscoresMergedTip s (.returned b))
    (hextends : s.extendsCurrentChain b = true) : s.dag.finalized = ∅ ∧ s.chain.blueScore = 0 := by
  cases ha with
  | empty _ hzero hnone => exact ⟨hnone, hzero⟩
  | under htip hunder =>
    exfalso
    obtain ⟨t, ht⟩ := Option.isSome_iff_exists.mp ((hs.known s.chain.tip).mp (by simp [htip]))
    have hne := hs.tree.ne_zero ht
    by_cases hsel : b.selectedParent = s.chain.tip
    · have hgen := Block.isGenesis_of_selectedParent_ne (hsel.trans_ne hne)
      have hlt := hs.climbs b.hash s.chain.tip ⟨b, hb, hgen, hsel⟩ _ _ hscore htip
      exact UInt64.not_lt.mpr hle hlt
    · rcases extendsCurrentChain_iff.mp hextends with h | h | hmem
      · exact hne h
      · exact hsel h
      · rcases List.mem_cons.mp hmem with h | h
        · exact hsel h.symm
        · exact UInt64.not_lt.mpr hle (hm h hsel score hscore)

structure Forward (s s' : ChainSelector) : Prop where
  anchored : Anchored s'
  keeps : s.dag.finalized ⊆ s'.dag.finalized
  score : s.chain.blueScore ≤ s'.chain.blueScore

section

variable (hp : p.finality = some c) (hs : InStep s.ghostdag s.dag) (ha : Anchored s)
include hp hs ha

theorem Anchored.moves (hb : s.dag.blocks[b.hash]? = some b)
    (hscore : s.ghostdag.derivedScore b.hash = some score)
    (hout : OutscoresMergedTip s (.returned b)) (hm : Moves p fuel s b score s') :
    Forward s s' := by
  cases hm with
  | stay _ _ h =>
    subst h
    exact ⟨ha, fun _ h => h, UInt64.le_refl _⟩
  | reorg ca depth newChain hgt hca hfinal _ htracker =>
    obtain ⟨ha', hkeeps, hblue⟩ := Anchored.moveTo hs.tree hscore
      (ha.under_reorg hp hs hb hca hfinal) htracker
    exact ⟨ha', hkeeps, hblue ▸ UInt64.le_of_lt hgt⟩
  | extend hle hextends htracker =>
    obtain ⟨hnone, hzero⟩ := ha.extends_empty hs hb hscore hle hout hextends
    obtain ⟨ha', hkeeps, hblue⟩ := Anchored.moveTo hs.tree hscore (by simp [hnone]) htracker
    refine ⟨ha', hkeeps, ?_⟩
    rw [hzero, UInt64.le_iff_toNat_le]
    exact Nat.zero_le _

theorem Forward.step {a : SelectorCall} (hout : OutscoresMergedTip s a)
    (hstep : SelectorStep p (Admission r) s a s') : Forward s s' := by
  cases hstep with
  | returned fuel flag hb h =>
    obtain ⟨score, hscore, hm⟩ := onNewBlock_ok hb h
    exact ha.moves hp hs hb hscore hout hm
  | refused => exact ⟨ha, fun _ h => h, UInt64.le_refl _⟩
  | grow h =>
    obtain ⟨-, hgrows, hfin, hold⟩ := hs.admission h
    refine ⟨?_, hfin.ge, UInt64.le_refl _⟩
    cases ha with
    | empty htip hzero hnone => exact .empty htip hzero (hfin.trans hnone)
    | under hscore hunder =>
      obtain ⟨t, ht⟩ := Option.isSome_iff_exists.mp ((hs.known s.chain.tip).mp (by simp [hscore]))
      refine .under ((hold s.chain.tip (by simp [ht])).trans hscore) ?_
      intro x hx
      have hx' : x ∈ s.dag.finalized := by rw [← hfin]; exact hx
      obtain ⟨hxt, hle, hsome⟩ := hunder x hx'
      obtain ⟨xb, hxb⟩ := hs.tree.stored_of_ancestor ht hxt
      refine ⟨(hgrows.ancestor_iff hs.tree ht).mpr hxt, ?_, hsome⟩
      rw [heightOf_eq (hgrows x xb hxb), ← heightOf_eq hxb]
      exact hle

end

/-- In a run from an empty store whose calls outscore the tips they only merge, a finalized block
stays on the selected-parent chain of the tip and the score of the chain never decreases. -/
theorem finalized_under_tip {c : FinalityConfig} {g : GhostDag} {dag : DagStore}
    {calls later : List SelectorCall} (hp : p.finality = some c) (hstart : Unstarted g dag)
    (hr : Runs (fun s a s' => OutscoresMergedTip s a ∧ SelectorStep p (Admission r) s a s')
      { ghostdag := g, dag := dag } calls s)
    (hr' : Runs (fun s a s' => OutscoresMergedTip s a ∧ SelectorStep p (Admission r) s a s')
      s later s') :
    (∀ x ∈ s.dag.finalized, Ancestor s'.dag.blocks s'.chain.tip x) ∧
      s.chain.blueScore ≤ s'.chain.blueScore := by
  have hmid : InStep s.ghostdag s.dag ∧ Anchored s := by
    refine hr.invariant (P := fun s => InStep s.ghostdag s.dag ∧ Anchored s)
      ⟨hstart.scored, .empty rfl rfl hstart.finalized⟩ ?_
    intro t a u ⟨hs, ha⟩ ⟨hout, hstep⟩
    exact ⟨hstep.scored hs, (Forward.step hp hs ha hout hstep).anchored⟩
  have hend : InStep s'.ghostdag s'.dag ∧ Forward s s' := by
    refine hr'.invariant (P := fun t => InStep t.ghostdag t.dag ∧ Forward s t)
      ⟨hmid.1, hmid.2, fun _ h => h, UInt64.le_refl _⟩ ?_
    intro t a u ⟨hs, ht⟩ ⟨hout, hstep⟩
    have hf := Forward.step hp hs ht.anchored hout hstep
    exact ⟨hstep.scored hs, hf.anchored, fun _ h => hf.keeps (ht.keeps h),
      UInt64.le_trans ht.score hf.score⟩
  refine ⟨?_, hend.2.score⟩
  intro x hx
  have hx' := hend.2.keeps hx
  cases hend.2.anchored with
  | empty _ _ hnone => simp [hnone] at hx'
  | under _ hunder => exact (hunder x hx').1

def eager : SelectorParams := { maxReorgDepth := 100, finality := some { confirmationDepth := 1 } }

def mainChain : List NodeAction :=
  [dagBlock 1 0 [] 0 0, dagBlock 2 1 [] 1 1, dagBlock 3 2 [] 2 2,
    dagBlock 4 3 [] 3 3, dagBlock 5 4 [] 4 4, dagBlock 6 5 [] 5 5,
    dagBlock 7 6 [] 6 6].flatMap fun b => [.receive b, .select b]

/-- Three blocks beside the main chain that merge their own ancestors and claim a point for each. -/
def sideChain : List NodeAction :=
  [.receive (dagBlock 11 1 [] 1 1), .receive (dagBlock 12 11 [1] 2 3),
    .receive (dagBlock 13 12 [1, 11] 3 6)]

def mergeOfTip : List NodeAction :=
  [.receive (dagBlock 20 13 [7] 4 7), .select (dagBlock 20 13 [7] 4 7)]

theorem freshSelector_unstarted : Unstarted freshSelector.ghostdag freshSelector.dag :=
  ⟨rfl, rfl, rfl, rfl⟩

theorem merge_of_tip_leaves_finalized : ∃ s s',
    Runs (SelectorStep eager (Admission permissive)) freshSelector
      ((mainChain ++ sideChain).map NodeAction.call) s ∧
    Runs (SelectorStep eager (Admission permissive)) s (mergeOfTip.map NodeAction.call) s' ∧
    (∃ x ∈ s.dag.finalized, ¬Ancestor s'.dag.blocks s'.chain.tip x) ∧
    s'.chain.blueScore < s.chain.blueScore := by
  obtain ⟨s, hr, hmem, hnext⟩ := exists_performed eager permissive 10 freshSelector
    (mainChain ++ sideChain) (q := fun s => (6 : Hash) ∈ s.dag.finalized ∧
      (perform eager permissive 10 s mergeOfTip).any (fun s' => s'.chain.blueScore < s.chain.blueScore ∧
        heightOf s'.dag.blocks s'.chain.tip < heightOf s'.dag.blocks 6)) (by decide)
  obtain ⟨s', hr', hscore, hheight⟩ := exists_performed _ _ _ _ _ hnext
  refine ⟨s, s', hr, hr', ⟨6, hmem, fun ha => ?_⟩, hscore⟩
  have hscored := Runs.scored (Runs.scored freshSelector_unstarted.scored hr) hr'
  exact absurd (hscored.tree.height_le ha) (not_le.mpr hheight)

theorem Runs.outscores (hr : Runs (SelectorStep p (Admission r)) s calls s')
    (hm : ∀ b, .returned b ∈ calls → b.header.mergeParentHashes = []) :
    Runs (fun s a s' => OutscoresMergedTip s a ∧ SelectorStep p (Admission r) s a s') s calls s' := by
  refine hr.imp fun t a u ha hstep => ⟨?_, hstep⟩
  cases a with
  | returned b =>
    intro hmem
    simp [hm b ha] at hmem
  | refused => trivial
  | grow => trivial

def nextBlock : List NodeAction :=
  [.receive (dagBlock 8 7 [] 7 7), .select (dagBlock 8 7 [] 7 7)]

theorem finalized_under_tip_main_chain : ∃ s s' : ChainSelector, (6 : Hash) ∈ s.dag.finalized ∧
    s'.chain.tip = 8 ∧ Ancestor s'.dag.blocks s'.chain.tip 6 := by
  obtain ⟨s, hs, hmem, hnext⟩ := exists_performed eager permissive 10 freshSelector mainChain
    (q := fun s => (6 : Hash) ∈ s.dag.finalized ∧
      (perform eager permissive 10 s nextBlock).any (fun s' => s'.chain.tip = 8)) (by decide)
  obtain ⟨s', hs', htip⟩ := exists_performed _ _ _ _ _ hnext
  have hr := Runs.outscores hs (by simp [mainChain, NodeAction.call, dagBlock])
  have hr' := Runs.outscores hs' (by simp [nextBlock, NodeAction.call, dagBlock])
  exact ⟨s, s', hmem, htip, (finalized_under_tip rfl freshSelector_unstarted hr hr').1 6 hmem⟩

end ChainSelector

end CitrateChain.Consensus
