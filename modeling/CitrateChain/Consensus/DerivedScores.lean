import CitrateChain.Consensus.PrunedScore

/-! # Derived scores along the selected chain

The derived score of a block is that of its selected parent and what the block adds, down to the one
point of the genesis. Admission compares the scores that headers claim. A block may claim less or more
than it adds, so a selected parent that claims the most need not have the greatest derived score. -/
namespace CitrateChain.Consensus.GhostDag
open Transition Word
variable {g g' : GhostDag} {b : Block} {score : Hash → UInt64} {x : Hash}

theorem deriveScoreAndWork_eq_ok {s : BlueSet} : g.deriveScoreAndWork b = .ok s ↔
    b.isGenesis = true ∧ s = lightweight 1 ∨
      b.isGenesis = false ∧ ∃ spScore added total, g.scoreOf b.selectedParent = .ok spScore ∧
        g.scoreContribution b = .ok added ∧ scoreAdd spScore added = .ok total ∧
        s = lightweight total := by
  unfold deriveScoreAndWork
  split
  · rename_i hgen
    constructor
    · intro h
      exact Or.inl ⟨hgen, (Except.ok.inj h).symm⟩
    · rintro (⟨-, rfl⟩ | ⟨hnot, -⟩)
      · rfl
      · cases hgen.symm.trans hnot
  · rename_i hgen
    rw [Bool.not_eq_true] at hgen
    constructor
    · intro h
      obtain ⟨spScore, hsp, h⟩ := Result.bind_eq_ok.mp h
      obtain ⟨added, hadded, h⟩ := Result.bind_eq_ok.mp h
      obtain ⟨total, htotal, h⟩ := Result.bind_eq_ok.mp h
      exact Or.inr ⟨hgen, spScore, added, total, hsp, hadded, htotal, (Except.ok.inj h).symm⟩
    · rintro (⟨hgen', -⟩ | ⟨-, spScore, added, total, hsp, hadded, htotal, rfl⟩)
      · cases hgen.symm.trans hgen'
      · refine Result.bind_eq_ok.mpr ⟨spScore, hsp, ?_⟩
        refine Result.bind_eq_ok.mpr ⟨added, hadded, ?_⟩
        exact Result.bind_eq_ok.mpr ⟨total, htotal, rfl⟩

/-- The genesis has one point, every other block those of its selected parent and what it adds. -/
structure ScoreRule (g : GhostDag) (score : Hash → UInt64) : Prop where
  genesis : ∀ x b, g.dagStore.blocks x = some b → b.isGenesis = true → score x = 1
  adds : ∀ x b, g.dagStore.blocks x = some b → b.isGenesis = false → ∃ added,
    g.scoreContribution b = .ok added ∧ scoreAdd (score b.selectedParent) added = .ok (score x)

structure Scored (g : GhostDag) (score : Hash → UInt64) : Prop extends ScoreRule g score where
  entries : ∀ x b, g.dagStore.blocks x = some b → g.entry x = some (entryOf b (lightweight (score x)))

theorem Scored.derivedScore (hs : Scored g score) (hx : g.dagStore.blocks x = some b) :
    g.derivedScore x = some (score x) := by
  rw [derivedScore_eq, hs.entries x b hx]
  rfl

theorem Scored.scoreOf (hs : Scored g score) (hx : g.dagStore.blocks x = some b) :
    g.scoreOf x = .ok (score x) :=
  scoreOf_of_entry (hs.entries x b hx)

theorem Scored.step (hs : Scored g score) (ha : Accepted g) (hb : Builds g b g') :
    ∃ score', Scored g' score' := by
  obtain ⟨-, -, -, s, hderive, hentry⟩ := hb.adds
  -- the new block gets the derived score, the others keep theirs
  let score' : Hash → UInt64 := fun x => if x = b.hash then s.score else score x
  have hself : score' b.hash = s.score := if_pos rfl
  have hkeep : ∀ x, x ≠ b.hash → score' x = score x := fun x hx => if_neg hx
  have hlight : s = lightweight s.score := by
    rcases deriveScoreAndWork_eq_ok.mp hderive with ⟨-, rfl⟩ | ⟨-, _, _, _, -, -, -, rfl⟩
    · rfl
    · rfl
  refine ⟨score', ⟨?_, ?_⟩, ?_⟩
  · intro x c hx hgen
    rcases hb.blocks_iff.mp hx with ⟨rfl, rfl⟩ | ⟨hxb, hx⟩
    · rcases deriveScoreAndWork_eq_ok.mp hderive with ⟨-, rfl⟩ | ⟨hnot, -⟩
      · exact hself
      · cases hgen.symm.trans hnot
    · rw [hkeep x hxb]
      exact hs.genesis x c hx hgen
  · intro x c hx hgen
    have hnear : ParentsNear g.dagStore.blocks c := by
      have hnot : ¬ c.isGenesis = true := by rw [hgen]; exact Bool.false_ne_true
      rcases hb.blocks_iff.mp hx with ⟨-, rfl⟩ | ⟨-, hx⟩
      · exact (validateBlockConsistency_near ha.depth hb.parts.1).resolve_left hnot
      · exact (ha.near x c hx).resolve_left hnot
    obtain ⟨sp, hsp, -⟩ := hnear.selected
    rw [scoreContribution, ha.count_after hb hnear, ← scoreContribution, hkeep _ (hb.ne_hash hsp)]
    rcases hb.blocks_iff.mp hx with ⟨rfl, rfl⟩ | ⟨hxb, hx⟩
    · rcases deriveScoreAndWork_eq_ok.mp hderive with
        ⟨hgen', -⟩ | ⟨-, spScore, added, total, hof, hadded, htotal, hst⟩
      · cases hgen.symm.trans hgen'
      · obtain rfl : score c.selectedParent = spScore := Except.ok.inj ((hs.scoreOf hsp).symm.trans hof)
        rw [hself, hst]
        exact ⟨added, hadded, htotal⟩
    · rw [hkeep x hxb]
      exact hs.adds x c hx hgen
  · intro x c hx
    rw [hentry]
    rcases hb.blocks_iff.mp hx with ⟨rfl, rfl⟩ | ⟨hxb, hx⟩
    · rw [if_pos rfl, hself, ← hlight]
    · rw [if_neg hxb, hkeep x hxb]
      exact hs.entries x c hx

theorem Runs.scored {bs : List Block} (hf : Fresh g) (hu : Unbuilt g) (hr : Runs Builds g bs g') :
    ∃ score, Scored g' score := by
  have hstart : Scored g fun _ => 0 := by
    refine ⟨⟨?_, ?_⟩, ?_⟩ <;>
    · intro x b hx
      rw [hu.empty] at hx
      cases hx
  refine (hr.invariant (P := fun t => Accepted t ∧ ∃ score, Scored t score)
    ⟨.unbuilt hf hu, _, hstart⟩ ?_).2
  rintro t b u ⟨ha, score, hs⟩ hb
  exact ⟨ha.step hb, hs.step ha hb⟩

/-- The block claims over its selected parent what it adds to the derived score. -/
def ClaimsAdded (g : GhostDag) (b : Block) : Prop :=
  b.isGenesis = false → ∀ sp ∈ g.dagStore.blocks b.selectedParent,
    g.scoreContribution b = .ok (b.header.blueScore - sp.header.blueScore)

instance decidableClaimsAdded (g : GhostDag) (b : Block) : Decidable (ClaimsAdded g b) :=
  inferInstanceAs (Decidable (b.isGenesis = false → ∀ sp ∈ g.dagStore.blocks b.selectedParent,
    g.scoreContribution b = .ok (b.header.blueScore - sp.header.blueScore)))

def BuildsExact (g : GhostDag) (b : Block) (g' : GhostDag) : Prop := Builds g b g' ∧ g.ClaimsAdded b

theorem ClaimsAdded.after {c : Block} (hc : g.ClaimsAdded c) (ha : Accepted g) (hb : Builds g b g')
    (hnear : c.isGenesis = true ∨ ParentsNear g.dagStore.blocks c) : g'.ClaimsAdded c := by
  intro hgen sp hmem
  have hnear := hnear.resolve_left (by simp [hgen])
  obtain ⟨sp', hsp', -⟩ := hnear.selected
  rw [scoreContribution, ha.count_after hb hnear, ← scoreContribution]
  rcases hb.blocks_iff.mp hmem with ⟨hnew, -⟩ | ⟨-, hold⟩
  · exact absurd hnew (hb.ne_hash hsp')
  · exact hc hgen sp hold

theorem Runs.claimsAdded {bs : List Block} (hf : Fresh g) (hu : Unbuilt g)
    (hr : Runs BuildsExact g bs g') : ∀ x b, g'.dagStore.blocks x = some b → g'.ClaimsAdded b := by
  refine (hr.invariant (P := fun t => Accepted t ∧
    ∀ x b, t.dagStore.blocks x = some b → t.ClaimsAdded b) ⟨.unbuilt hf hu, ?_⟩ ?_).2
  · intro x b hx
    rw [hu.empty] at hx
    cases hx
  rintro t b u ⟨ha, hclaims⟩ ⟨hb, hexact⟩
  refine ⟨ha.step hb, fun x c hx => ?_⟩
  rcases hb.blocks_iff.mp hx with ⟨-, rfl⟩ | ⟨-, hx⟩
  · exact hexact.after ha hb (validateBlockConsistency_near ha.depth hb.parts.1)
  · exact (hclaims x c hx).after ha hb (ha.near x c hx)

theorem ScoreRule.score_eq_claim (hs : ScoreRule g score) {root : Hash}
    (hl : Linked root g.dagStore.blocks)
    (hclaims : ∀ x b, g.dagStore.blocks x = some b → g.ClaimsAdded b) (n : ℕ)
    (hx : g.dagStore.blocks x = some b) (hn : b.height.toNat = n) :
    (score x).toNat + claimedScore g.dagStore.blocks root = b.header.blueScore.toNat + 1 := by
  induction n generalizing x b with
  | zero =>
    rcases hl.linked x b hx with ⟨hgen, rfl, -⟩ | ⟨-, sp, hsp⟩
    · rw [hs.genesis x b hx hgen, claimedScore_of hx]
      exact Nat.add_comm _ _
    · have hheight := hsp.height
      omega
  | succ n ih =>
    rcases hl.linked x b hx with ⟨-, -, hzero⟩ | ⟨hgen, sp, hsp⟩
    · rw [hzero] at hn
      cases hn
    have hheight := hsp.height
    have hrec := ih hsp.selected (by omega)
    obtain ⟨added, hadded, htotal⟩ := hs.adds x b hx hgen
    have hsum := scoreAdd_toNat htotal
    -- the band of admission keeps the claim above that of the selected parent
    have hclaim : added.toNat = b.header.blueScore.toNat - sp.header.blueScore.toNat := by
      rw [← UInt64.toNat_sub_of_le]
      · exact congrArg UInt64.toNat
          (Except.ok.inj (hadded.symm.trans (hclaims x b hx hgen sp hsp.selected)))
      · exact UInt64.le_iff_toNat_le.mpr (Nat.le_of_succ_le hsp.score)
    have hband := hsp.score
    omega

def SelectedHeaviest (g : GhostDag) : Prop :=
  ∀ x b, g.dagStore.blocks x = some b → b.isGenesis = false → ∀ m ∈ b.header.mergeParentHashes,
    ∃ s s', g.derivedScore m = some s ∧ g.derivedScore b.selectedParent = some s' ∧ s ≤ s'

/-- In a DAG built by admission from blocks that each claim over their selected parent what they add to
the derived score, selected parents have the greatest derived scores. -/
theorem selected_heaviest {bs : List Block} (hf : Fresh g) (hu : Unbuilt g)
    (hr : Runs BuildsExact g bs g') : SelectedHeaviest g' := by
  have hbuilds : Runs Builds g bs g' := hr.imp fun _ _ _ _ hb => hb.1
  obtain ⟨root, hl⟩ := Runs.linked hu hbuilds
  obtain ⟨score, hs⟩ := Runs.scored hf hu hbuilds
  have hclaims := Runs.claimsAdded hf hu hr
  intro x b hx hgen m hm
  rcases hl.linked x b hx with ⟨hgen', -⟩ | ⟨-, sp, hsp⟩
  · cases hgen.symm.trans hgen'
  obtain ⟨mb, hmb, hle⟩ := hsp.merges m hm
  refine ⟨_, _, hs.derivedScore hmb, hs.derivedScore hsp.selected, ?_⟩
  -- admission compared the claims, and the scores are the claims up to the genesis
  have hms := hs.score_eq_claim hl hclaims _ hmb rfl
  have hss := hs.score_eq_claim hl hclaims _ hsp.selected rfl
  rw [UInt64.le_iff_toNat_le] at hle ⊢
  omega

theorem selected_heaviest_exact_claims : ∃ bs g', Runs BuildsExact genesisEngine bs g' ∧
    g'.dagStore.blocks 6 = some (dagBlock 6 4 [5] 3 5) ∧ SelectedHeaviest g' := by
  obtain ⟨g', hr, h6⟩ := Runs.exists_foldlM (buildNew fun g b => decide (g.ClaimsAdded b)) genesisEngine
    [dagBlock 1 0 [] 0 0, dagBlock 2 1 [] 1 1, dagBlock 3 1 [] 1 1, dagBlock 4 2 [3] 2 3,
      dagBlock 5 3 [] 2 2, dagBlock 6 4 [5] 3 5]
    (p := fun g => g.dagStore.blocks 6 = some (dagBlock 6 4 [5] 3 5)) (by decide)
  have hr : Runs BuildsExact genesisEngine _ g' := hr.imp fun _ _ _ _ hb =>
    ⟨(builds_of_buildNew hb).1, of_decide_eq_true (builds_of_buildNew hb).2⟩
  exact ⟨_, g', hr, h6, selected_heaviest ⟨rfl, rfl⟩ genesisEngine_unbuilt hr⟩

theorem merge_parent_derives_more : ∃ bs g', Runs Builds genesisEngine bs g' ∧ ¬SelectedHeaviest g' := by
  let bs := [dagBlock 1 0 [] 0 0, dagBlock 2 1 [] 1 1, dagBlock 3 1 [] 1 1, dagBlock 4 2 [3] 2 2,
    dagBlock 5 1 [] 1 1, dagBlock 6 5 [] 2 2, dagBlock 7 6 [4] 3 3]
  obtain ⟨g', hr, h7, h4, h6⟩ := exists_built bs (fun g => g.dagStore.blocks 7 = some (dagBlock 7 6 [4] 3 3) ∧
    g.derivedScore 4 = some 4 ∧ g.derivedScore 6 = some 3) (by decide)
  refine ⟨bs, g', hr, ?_⟩
  intro hheavy
  obtain ⟨s, s', hs, hs', hle⟩ := hheavy 7 _ h7 rfl 4 (List.mem_singleton.mpr rfl)
  obtain rfl : 4 = s := Option.some.inj (h4.symm.trans hs)
  obtain rfl : 3 = s' := Option.some.inj (h6.symm.trans hs')
  exact absurd hle (by decide)

theorem ScoreRule.selected_lt (hs : ScoreRule g score) (hx : g.dagStore.blocks x = some b)
    (hgen : b.isGenesis = false) : (score b.selectedParent).toNat < (score x).toNat := by
  obtain ⟨added, hadded, htotal⟩ := hs.adds x b hx hgen
  have hsum := scoreAdd_toNat htotal
  have hpos := scoreContribution_pos hadded
  omega

theorem ScoreRule.height_lt (hs : ScoreRule g score) {root : Hash} (hl : Linked root g.dagStore.blocks)
    (n : ℕ) (hx : g.dagStore.blocks x = some b) (hn : b.height.toNat = n) : n < (score x).toNat := by
  induction n generalizing x b with
  | zero =>
    rcases hl.linked x b hx with ⟨hgen, -⟩ | ⟨hgen, -⟩
    · rw [hs.genesis x b hx hgen]
      decide
    · exact Nat.zero_lt_of_lt (hs.selected_lt hx hgen)
  | succ n ih =>
    rcases hl.linked x b hx with ⟨-, -, hzero⟩ | ⟨hgen, sp, hsp⟩
    · rw [hzero] at hn
      cases hn
    have hheight := hsp.height
    have hrec := ih hsp.selected (by omega)
    have hlt := hs.selected_lt hx hgen
    omega

/-- In a DAG built by admission every stored block has a derived score above its height, and above that of
its selected parent. -/
theorem score_above_height {bs : List Block} (hf : Fresh g) (hu : Unbuilt g) (hr : Runs Builds g bs g')
    (hx : g'.dagStore.blocks x = some b) : ∃ s, g'.derivedScore x = some s ∧ b.height < s ∧
      (b.isGenesis = false → ∃ s', g'.derivedScore b.selectedParent = some s' ∧ s' < s) := by
  obtain ⟨root, hl⟩ := Runs.linked hu hr
  obtain ⟨score, hs⟩ := Runs.scored hf hu hr
  refine ⟨score x, hs.derivedScore hx, UInt64.lt_iff_toNat_lt.mpr (hs.height_lt hl _ hx rfl), fun hgen => ?_⟩
  rcases hl.linked x b hx with ⟨hgen', -⟩ | ⟨-, sp, hsp⟩
  · cases hgen.symm.trans hgen'
  · exact ⟨_, hs.derivedScore hsp.selected, UInt64.lt_iff_toNat_lt.mpr (hs.selected_lt hx hgen)⟩

theorem score_above_height_child : ∃ (g : GhostDag) (s : UInt64), g.derivedScore 2 = some s ∧ 1 < s := by
  obtain ⟨g', hr, h2⟩ := exists_built [dagBlock 1 0 [] 0 0, dagBlock 2 1 [] 1 1]
    (fun g => g.dagStore.blocks 2 = some (dagBlock 2 1 [] 1 1)) (by decide)
  obtain ⟨s, hs, hlt, -⟩ := score_above_height ⟨rfl, rfl⟩ genesisEngine_unbuilt hr h2
  exact ⟨g', s, hs, hlt⟩

end CitrateChain.Consensus.GhostDag
