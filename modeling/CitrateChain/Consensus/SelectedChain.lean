import CitrateChain.Consensus.ChainSelector
import CitrateChain.Consensus.DagRestart

/-! # The selected chain

What the chain selector records over runs of `on_new_block`: the list of the selected chain, the
finalized blocks below its tip and its score. A reorganisation replaces the recorded list by the part
above the common ancestor, and an extension accepts the tip as any parent. -/
namespace CitrateChain.Consensus
open GhostDag
open Std (ExtTreeMap)
open Transition (Runs)

inductive SelectedPath (blocks : ExtTreeMap Hash Block) : Hash → List Hash → Prop
  | genesis {x : Hash} {b : Block} (hb : blocks[x]? = some b) (hgen : b.isGenesis = true) :
      SelectedPath blocks x [x]
  | step {x y : Hash} {l : List Hash} (hs : Selected blocks x y) (hl : SelectedPath blocks y l) :
      SelectedPath blocks x (l ++ [x])

namespace ChainSelector
variable {blocks blocks' : ExtTreeMap Hash Block} {x : Hash} {b : Block} {l chain : List Hash} {fuel : ℕ}

theorem SelectedPath.grows (hg : Grows blocks blocks') (hl : SelectedPath blocks x l) :
    SelectedPath blocks' x l := by
  induction hl with
  | genesis hb hgen => exact .genesis (hg _ _ hb) hgen
  | step hs _ ih =>
    obtain ⟨b, hb, hgen, rfl⟩ := hs
    exact .step ⟨b, hg _ _ hb, hgen, rfl⟩ ih

theorem buildChain_path (ht : IsTree blocks) (hb : blocks[x]? = some b)
    (h : buildChain blocks 0 fuel x chain = some (.ok l)) :
    ∃ path, SelectedPath blocks x path ∧ l = path ++ chain := by
  induction fuel generalizing x b chain with
  | zero => cases h
  | succ fuel ih =>
    rw [buildChain, if_neg (ht.ne_zero hb)] at h
    simp only [hb] at h
    cases hgen : b.isGenesis with
    | true =>
      simp only [hgen, if_true, Option.some.injEq, Except.ok.injEq] at h
      exact ⟨[x], .genesis hb hgen, h.symm⟩
    | false =>
      simp only [hgen, Bool.false_eq_true, if_false] at h
      obtain ⟨q, hq, -⟩ := ht.parent hb hgen
      obtain ⟨path, hpath, rfl⟩ := ih hq h
      exact ⟨path ++ [x], .step ⟨b, hb, hgen, rfl⟩ hpath, by simp⟩

theorem SelectedPath.validateFrom (ht : IsTree blocks) (hl : SelectedPath blocks x l)
    (hb : blocks[x]? = some b) (rest : List Hash) :
    validateFrom blocks 0 0 (l ++ rest) = validateFrom blocks x b.height rest := by
  induction hl generalizing b rest with
  | genesis hb' hgen =>
    simp [ChainSelector.validateFrom, hb]
  | @step x y l hs _ ih =>
    obtain ⟨c, hc, hgen, rfl⟩ := hs
    cases hb.symm.trans hc
    obtain ⟨q, hq, hheight⟩ := ht.parent hb hgen
    have hlt : ¬ (b.height ≤ q.height ∧ 0 < q.height) := by
      rw [UInt64.le_iff_toNat_le]
      omega
    rw [List.append_assoc, ih hq]
    simp [ChainSelector.validateFrom, hb, hlt, Block.parents, Block.selectedParent]

def Complete (s : ChainSelector) : Prop :=
  (s.chain.tip = 0 ∧ s.chain.selectedChain = []) ∨
    SelectedPath s.dag.blocks s.chain.tip s.chain.selectedChain

theorem SelectedPath.ne_nil (hl : SelectedPath blocks x l) : l ≠ [] := by
  cases hl with
  | genesis => exact List.cons_ne_nil _ _
  | step => exact List.append_ne_nil_of_right_ne_nil _ (List.cons_ne_nil _ _)

theorem SelectedPath.stored (hl : SelectedPath blocks x l) : ∃ b, blocks[x]? = some b := by
  cases hl with
  | genesis hb => exact ⟨_, hb⟩
  | step hs =>
    obtain ⟨b, hb, -⟩ := hs
    exact ⟨b, hb⟩

theorem Complete.validateChain {s : ChainSelector} (ht : IsTree s.dag.blocks) (hs : Complete s) :
    s.validateChain = .ok true := by
  rcases hs with ⟨-, hnil⟩ | hpath
  · rw [ChainSelector.validateChain, hnil]
    rfl
  · obtain ⟨b, hb⟩ := SelectedPath.stored hpath
    have h := SelectedPath.validateFrom ht hpath hb []
    rw [List.append_nil] at h
    rw [ChainSelector.validateChain, h]
    rfl

def KeepsPath (s : ChainSelector) : SelectorCall → Prop
  | .returned b => ∀ score, s.ghostdag.derivedScore b.hash = some score →
      (s.chain.tip = 0 ∧ (s.chain.blueScore < score ∨ b.isGenesis = true)) ∨
      (s.chain.tip ≠ 0 ∧ score ≤ s.chain.blueScore ∧
        (b.selectedParent = s.chain.tip ∨ s.chain.tip ∉ b.parents))
  | _ => True

variable {s s' : ChainSelector} {p : SelectorParams}

theorem Complete.moves {score : UInt64} (ht : IsTree s.dag.blocks) (hs : Complete s)
    (hb : s.dag.blocks[b.hash]? = some b) (hscore : s.ghostdag.derivedScore b.hash = some score)
    (hk : KeepsPath s (.returned b)) (hm : Moves p fuel s b score s') :
    s'.dag.blocks = s.dag.blocks ∧ Complete s' := by
  cases hm with
  | stay _ _ h => exact ⟨by rw [h], h ▸ hs⟩
  | reorg ca depth newChain hgt hca _ hchain htracker =>
    obtain ⟨hchain', -, hadv⟩ := updateTracker_advances (s := s.moveTo b score newChain) ht htracker
    refine ⟨hadv.blocks, Or.inr ?_⟩
    rcases hk score hscore with ⟨htip, -⟩ | ⟨-, hle, -⟩
    · -- from the empty chain the search stops at the zero hash
      rw [findCommonAncestor, if_pos (Or.inl htip)] at hca
      obtain ⟨rfl, -⟩ := Prod.mk.inj (Except.ok.inj (Option.some.inj hca))
      obtain ⟨path, hpath, rfl⟩ := buildChain_path ht hb hchain
      rw [hchain', hadv.blocks, List.append_nil]
      exact hpath
    · exact absurd hgt (UInt64.not_lt.mpr hle)
  | extend hle hextends htracker =>
    obtain ⟨hchain', -, hadv⟩ := updateTracker_advances
      (s := s.moveTo b score (s.chain.selectedChain ++ [b.hash])) ht htracker
    refine ⟨hadv.blocks, Or.inr ?_⟩
    rw [hchain', hadv.blocks]
    rcases hk score hscore with ⟨htip, hgt | hgen⟩ | ⟨htip, -, hparent⟩
    · exact absurd hgt (UInt64.not_lt.mpr hle)
    · rcases hs with ⟨-, hnil⟩ | hpath
      · show SelectedPath _ b.hash (s.chain.selectedChain ++ [b.hash])
        rw [hnil]
        exact .genesis hb hgen
      · obtain ⟨c, hc⟩ := SelectedPath.stored hpath
        exact absurd htip (ht.ne_zero hc)
    · have hsel : b.selectedParent = s.chain.tip := by
        rcases hparent with h | h
        · exact h
        · rcases extendsCurrentChain_iff.mp hextends with h' | h' | h'
          · exact absurd h' htip
          · exact h'
          · exact absurd h' h
      rcases hs with ⟨hzero, -⟩ | hpath
      · exact absurd hzero htip
      · have hgen := Block.isGenesis_of_selectedParent_ne (hsel.trans_ne htip)
        exact .step ⟨b, hb, hgen, rfl⟩ (hsel ▸ hpath)

theorem Complete.step {a : SelectorCall} (ht : IsTree s.dag.blocks) (hs : Complete s)
    (hk : KeepsPath s a) (hstep : SelectorStep p TreeGrows s a s') :
    IsTree s'.dag.blocks ∧ Complete s' := by
  cases hstep with
  | returned fuel r hb h =>
    obtain ⟨score, hscore, hm⟩ := onNewBlock_ok hb h
    obtain ⟨hblocks, hs'⟩ := hs.moves ht hb hscore hk hm
    exact ⟨hblocks ▸ ht, hs'⟩
  | refused => exact ⟨ht, hs⟩
  | grow h =>
    obtain ⟨ht', hgrows, -⟩ := h
    exact ⟨ht', hs.imp id (SelectedPath.grows hgrows)⟩

/-- In a run whose calls keep the path, the recorded list is the selected chain of the tip and passes
`validate_chain`. -/
theorem selected_chain_complete {p : SelectorParams} {g : GhostDag} {dag : DagStore}
    {calls : List SelectorCall} {s : ChainSelector} (ht : IsTree dag.blocks)
    (hr : Runs (fun s a s' => KeepsPath s a ∧ SelectorStep p TreeGrows s a s')
      { ghostdag := g, dag := dag } calls s) : Complete s ∧ s.validateChain = .ok true := by
  have hinv : IsTree s.dag.blocks ∧ Complete s := by
    refine hr.invariant (P := fun s => IsTree s.dag.blocks ∧ Complete s) ⟨ht, Or.inl ⟨rfl, rfl⟩⟩ ?_
    intro s a s' ⟨ht, hs⟩ ⟨hk, hstep⟩
    exact hs.step ht hk hstep
  exact ⟨hinv.2, hinv.2.validateChain hinv.1⟩

def scoredEngine : GhostDag :=
  { genesisEngine with
    relations := fun x => if x = 3 then some ⟨3, 2, [], [], ⟨3, blueWorkForScore 3⟩, 2⟩ else none }

theorem selected_chain_complete_first_block : ∃ s : ChainSelector, s.chain.selectedChain = [1, 2, 3] ∧
    Complete s ∧ s.validateChain = .ok true := by
  let start : ChainSelector := { ghostdag := scoredEngine, dag := FinalityTracker.chainOfThree }
  have hok : (start.onNewBlock { maxReorgDepth := 100 } 5 (FinalityTracker.chainBlock 3 2 2)).map
      (fun r => r.toOption.map (·.2.chain.selectedChain)) = some (some [1, 2, 3]) := by decide
  obtain ⟨r, hr, hlist⟩ := Option.map_eq_some_iff.mp hok
  cases r with
  | error e => cases hlist
  | ok v =>
    refine ⟨v.2, Option.some.inj hlist, selected_chain_complete (g := scoredEngine)
      (p := { maxReorgDepth := 100 }) FinalityTracker.chainOfThree_isTree
      (Runs.refl.step ⟨?_, .returned 5 v.1 (by decide) hr⟩)⟩
    intro score hscore
    refine Or.inl ⟨rfl, Or.inl ?_⟩
    obtain rfl : (3 : UInt64) = score := Option.some.inj hscore
    decide

inductive NodeAction
  | receive (b : Block)
  | select (b : Block)

def perform (p : SelectorParams) (r : DagRules) (fuel : ℕ) : ChainSelector → List NodeAction →
    Option ChainSelector
  | s, [] => some s
  | s, .receive b :: actions =>
    match decide (b.hash = 0), s.ghostdag.dagStore.blocks b.hash, s.ghostdag.build b,
      s.dag.storeBlock r b none with
    | false, none, .ok ghostdag, .ok dag => perform p r fuel { s with ghostdag, dag } actions
    | _, _, _, _ => none
  | s, .select b :: actions =>
    match decide (s.dag.blocks[b.hash]? = some b), s.onNewBlock p fuel b with
    | true, some (.ok (_, s)) => perform p r fuel s actions
    | _, _ => none

def NodeAction.call : NodeAction → SelectorCall
  | .receive _ => .grow
  | .select b => .returned b

theorem exists_performed (p : SelectorParams) (r : DagRules) (fuel : ℕ) (s : ChainSelector)
    (actions : List NodeAction) {q : ChainSelector → Prop} [DecidablePred q]
    (hok : (perform p r fuel s actions).any (fun s' => q s') = true) :
    ∃ s', Runs (SelectorStep p (Admission r)) s (actions.map NodeAction.call) s' ∧ q s' := by
  obtain ⟨s', h, hq⟩ := (Option.any_eq_true _ _).mp hok
  refine ⟨s', ?_, of_decide_eq_true hq⟩
  clear hok
  induction actions generalizing s with
  | nil =>
    cases h
    exact .refl
  | cons a actions ih =>
    cases a with
    | receive b =>
      rw [perform] at h
      split at h
      · rename_i hzero hnew hbuild hstore
        exact .head (.grow ⟨b, none, of_decide_eq_false hzero, ⟨hnew, hbuild⟩, hstore⟩) (ih _ h)
      · cases h
    | select b =>
      rw [perform] at h
      split at h
      · rename_i hb hcall
        exact .head (.returned fuel _ (of_decide_eq_true hb) hcall) (ih _ h)
      · cases h

def freshSelector : ChainSelector := { ghostdag := genesisEngine, dag := {} }

def rootAndChild : List NodeAction :=
  [.receive (dagBlock 1 0 [] 0 0), .select (dagBlock 1 0 [] 0 0),
    .receive (dagBlock 2 1 [] 1 1), .select (dagBlock 2 1 [] 1 1)]

theorem reorganisation_drops_genesis : ∃ s,
    Runs (SelectorStep { maxReorgDepth := 100 } (Admission DagStore.permissive)) freshSelector
      (rootAndChild.map NodeAction.call) s ∧ ¬Complete s := by
  obtain ⟨s, hr, htip, hlist, hblock⟩ := exists_performed { maxReorgDepth := 100 } DagStore.permissive 5
    freshSelector rootAndChild (q := fun s => s.chain.tip = 2 ∧ s.chain.selectedChain = [2] ∧
      s.dag.blocks[(2 : Hash)]? = some (dagBlock 2 1 [] 1 1)) (by decide)
  refine ⟨s, hr, ?_⟩
  rintro (⟨hzero, -⟩ | hpath)
  · rw [htip] at hzero
    exact absurd hzero (by decide)
  rw [htip, hlist] at hpath
  generalize hl : [(2 : Hash)] = l at hpath
  cases hpath with
  | genesis hb hgen =>
    rw [← Option.some.inj (hblock.symm.trans hb)] at hgen
    exact absurd hgen (by decide)
  | step _ hpre =>
    exact SelectedPath.ne_nil hpre (List.append_inj' hl.symm rfl).1

end ChainSelector

end CitrateChain.Consensus
