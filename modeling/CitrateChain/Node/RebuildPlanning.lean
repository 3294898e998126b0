import CitrateChain.Node.CanonicalIndex
import CitrateChain.Node.Recovery

/-! # Planning a rebuild

The precondition of a rebuild walks the head's selected parents until it meets the applied chain,
whose blocks are looked up in the ring, in the canonical index or in the headers. A plan names the
highest block both chains share and how many applied blocks the rebuild abandons. -/
namespace CitrateChain.Node
open Relation (ReflTransGen)
open Consensus (Hash Block)
open Storage BlockStore
open CanonicalApplicator (RingOnChain)

section Planning
variable {g : Hash} {s s' : BlockStore} {st : AppliedState} {tip x y : AppliedTip}

theorem OnChain.lineage (h : OnChain s.blocks tip x) (hx : Stands s x) : Lineage s tip x := by
  have hreach : Stands s tip ∧ ReflTransGen (Below s) tip x := by
    induction h using ReflTransGen.head_induction_on with
    | refl => exact ⟨hx, .refl⟩
    | head hab _ ih =>
      obtain ⟨hc, hcx⟩ := ih
      obtain ⟨b, hb, hheight, hne, rfl⟩ := hab
      have hheader : s.getHeader _ = some b.header := congrArg (Option.map Block.header) hb
      refine ⟨⟨b.header, hheader, hheight⟩, .head ⟨b.header, hheader, hheight, rfl, ?_, hc⟩ hcx⟩
      rw [UInt64.lt_iff_toNat_lt]
      have hpred := toNat_sub_one hne
      simp only
      omega
  exact hreach.1.lineage.tail hreach.2

/-- An applied state over its store: the stored blocks form a tree, the applied chain is stored down
to genesis, the ring holds blocks of it, and an index that describes the tip was written for it. -/
structure AppliedView (g : Hash) (s : BlockStore) (st : AppliedState) : Prop where
  wf : WellFormed g s.blocks
  rooted : Rooted g s.blocks st.tip
  ring : RingOnChain s.blocks st
  index : s.canonicalIndexTip = some st.tip →
    Indexed s ∧ ∀ m, s.canonicalMarker = some m → m.floor ≤ 1

def RootedStep (g : Hash) (s : BlockStore) (op : IndexOp) (s' : BlockStore) : Prop :=
  IndexStep s op s' ∧ ∀ tip, op = .putAppliedTip tip → Rooted g s.blocks tip

/-- The index that writes of rooted tips leave starts at genesis or right above it. -/
theorem rooted_run_index {s₀ : BlockStore} {ops : List IndexOp} (hstart : Unapplied s₀)
    (hrun : Transition.Runs (RootedStep g) s₀ ops s) :
    Indexed s ∧ ∀ m, s.canonicalMarker = some m → m.floor ≤ 1 := by
  refine hrun.invariant (P := fun s => Indexed s ∧ ∀ m, s.canonicalMarker = some m → m.floor ≤ 1)
    ⟨hstart.indexed, fun m hm => nomatch hstart.2.symm.trans hm⟩ ?_
  rintro t op u ⟨hindexed, hfloor⟩ ⟨hstep, hrooted⟩
  refine ⟨hindexed.step hstep, ?_⟩
  obtain ⟨-, rfl⟩ := hstep
  cases op with
  | putBlock b => exact hfloor
  | putAppliedTip tip =>
    refine stageCanonicalIndex_floor_le hfloor fun k hone hle => ?_
    have hr := hrooted tip rfl
    obtain ⟨x, hx, hheight⟩ := (parent_ranked t.blocks).exists_rank hr (Nat.zero_le k.toNat)
      (UInt64.le_iff_toNat_le.mp hle)
    obtain rfl := UInt64.toNat_inj.mp hheight
    have hne : x.height ≠ 0 := fun h0 => absurd (h0 ▸ hone) (by decide)
    obtain ⟨b, hb, hat, -⟩ := (hr.of_onChain hx).stored hne
    exact ⟨x.hash, OnChain.lineage hx ⟨b.header, congrArg (Option.map Block.header) hb, hat⟩⟩

variable {hash : Hash}

theorem AppliedView.appliedBlockAt_iff (hv : AppliedView g s st) {k : UInt64}
    {found : Option Hash} (h : appliedBlockAt s st k = .ok found) (hstands : Stands s ⟨hash, k⟩)
    (hne : hash ≠ g) : found = some hash ↔ OnChain s.blocks st.tip ⟨hash, k⟩ := by
  unfold appliedBlockAt at h
  split at h
  · rename_i hlt
    cases h
    constructor
    · nofun
    · intro hon
      exact absurd hlt (not_lt.mpr hon.height_le)
  · rename_i hle
    split at h
    · rename_i held hheld
      cases h
      have hon := hv.ring _ _ hheld
      constructor
      · intro heq
        rwa [← Option.some.inj heq]
      · intro hon'
        exact congrArg some (congrArg AppliedTip.hash (hon.eq_of_height hon' rfl))
    · split at h
      · rename_i hindexTip
        cases h
        obtain ⟨hindexed, hfloor⟩ := hv.index hindexTip
        obtain ⟨m, hm, htip, hget⟩ := hindexed.lookup (hindexed.tip.symm.trans hindexTip)
          (not_lt.mp hle)
        rw [hget]
        by_cases hlow : k < m.floor
        · rw [if_pos hlow]
          constructor
          · nofun
          · intro hon
            have hk0 : k = 0 := by
              have h1 := UInt64.lt_iff_toNat_lt.mp (lt_of_lt_of_le hlow (hfloor m hm))
              have hone : (1 : UInt64).toNat = 1 := rfl
              exact UInt64.toNat_inj.mp (show k.toNat = 0 by omega)
            subst hk0
            exact absurd (congrArg AppliedTip.hash ((hv.rooted.of_onChain hon).eq_genesis rfl)) hne
        · obtain ⟨other, hentry, hother⟩ := hindexed.sound m hm k (not_lt.mp hlow)
            (htip ▸ not_lt.mp hle)
          rw [htip] at hother
          have hother := hother.onChain hv.wf hv.rooted
          rw [if_neg hlow, hentry]
          constructor
          · intro heq
            rwa [← Option.some.inj heq]
          · intro hon
            exact congrArg some (congrArg AppliedTip.hash (hother.eq_of_height hon rfl))
      · rw [appliedHashAtHeight_iff h hash]
        constructor
        · intro hon
          exact hon.onChain hv.wf hv.rooted
        · intro hon
          exact hon.lineage hstands

theorem AppliedView.isApplied_iff (hv : AppliedView g s st) {b : Block} {r : Bool}
    (hb : s.blocks hash = some b) (hne : hash ≠ g) (h : isApplied s st hash b.height = .ok r) :
    r = true ↔ OnChain s.blocks st.tip ⟨hash, b.height⟩ := by
  obtain ⟨found, hat, rfl⟩ := Result.map_eq_ok.mp h
  have hstands : Stands s ⟨hash, b.height⟩ :=
    ⟨b.header, congrArg (Option.map Block.header) hb, rfl⟩
  rw [← hv.appliedBlockAt_iff hat hstands hne]
  exact beq_iff_eq

def HasHeight (g : Hash) (s : BlockStore) (hash : Hash) (k : UInt64) : Prop :=
  (hash = g → k = 0) ∧ ∀ b, s.blocks hash = some b → hash ≠ g → b.height = k

theorem hasHeight_parent (hwf : WellFormed g s.blocks) {b : Block} (hb : s.blocks hash = some b)
    (hne : b.height ≠ 0) : HasHeight g s b.selectedParent (b.height - 1) := by
  refine ⟨fun hgenesis => ?_, fun p hp _ => ?_⟩
  · rw [hwf.base hb hne hgenesis]
    rfl
  · have hdrop := hwf.parent hb hne hp
    have hpred := toNat_sub_one hne
    rw [← UInt64.toNat_inj]
    omega

variable {fork : AppliedTip}

theorem rebuildFork_succ_ok (hv : AppliedView g s st) {n : ℕ} {cursor : Hash}
    (h : rebuildFork s st g (n + 1) cursor = .ok fork) : (cursor = g ∧ fork = ⟨g, 0⟩) ∨
    ∃ b, s.blocks cursor = some b ∧ cursor ≠ g ∧
      ((OnChain s.blocks st.tip ⟨cursor, b.height⟩ ∧ fork = ⟨cursor, b.height⟩) ∨
        (¬OnChain s.blocks st.tip ⟨cursor, b.height⟩ ∧ b.height ≠ 0 ∧
          rebuildFork s st g n b.selectedParent = .ok fork)) := by
  unfold rebuildFork at h
  split at h
  · rename_i hgenesis
    exact .inl ⟨hgenesis, hgenesis ▸ (Except.ok.inj h).symm⟩
  rename_i hne
  cases hb : s.blocks cursor with
  | none => simp [getHeader, hb] at h
  | some b =>
    have hheader : s.getHeader cursor = some b.header := congrArg (Option.map Block.header) hb
    simp only [hheader] at h
    refine .inr ⟨b, rfl, hne, ?_⟩
    split at h
    · cases h
    · rename_i happlied
      have hon := (hv.isApplied_iff hb hne happlied).mp rfl
      exact .inl ⟨hon, (Except.ok.inj h).symm⟩
    · rename_i happlied
      have hnot : ¬OnChain s.blocks st.tip ⟨cursor, b.height⟩ :=
        fun hon => absurd ((hv.isApplied_iff hb hne happlied).mpr hon) (by decide)
      split at h
      · cases h
      · rename_i hne0
        exact .inr ⟨hnot, hne0, h⟩

theorem rebuildFork_highest (hv : AppliedView g s st) {n : ℕ} {cursor : Hash} {k : UInt64}
    (hk : HasHeight g s cursor k) (h : rebuildFork s st g n cursor = .ok fork) :
    OnChain s.blocks ⟨cursor, k⟩ fork ∧ OnChain s.blocks st.tip fork ∧
      ∀ y, OnChain s.blocks ⟨cursor, k⟩ y → OnChain s.blocks st.tip y → y.height ≤ fork.height := by
  induction n generalizing cursor k with
  | zero => cases h
  | succ n ih =>
    rcases rebuildFork_succ_ok hv h with ⟨rfl, rfl⟩ | ⟨b, hb, hne, hrest⟩
    · obtain rfl := hk.1 rfl
      exact ⟨.refl, hv.rooted, fun y hy _ => hy.height_le⟩
    obtain rfl := hk.2 b hb hne
    rcases hrest with ⟨hon, rfl⟩ | ⟨hnot, hne0, hrest⟩
    · exact ⟨.refl, hon, fun y hy _ => hy.height_le⟩
    have hstep : Parent s.blocks ⟨cursor, b.height⟩ ⟨b.selectedParent, b.height - 1⟩ :=
      ⟨b, hb, rfl, hne0, rfl⟩
    obtain ⟨hhead, htip, hmax⟩ := ih (hasHeight_parent hv.wf hb hne0) hrest
    refine ⟨.head hstep hhead, htip, fun y hy hyt => ?_⟩
    rcases ReflTransGen.cases_head hy with rfl | ⟨z, hz, hzy⟩
    · exact absurd hyt hnot
    · obtain rfl := (parent_ranked s.blocks).unique hstep hz
      exact hmax y hzy hyt

def Climbs (g : Hash) (s : BlockStore) (st : AppliedState) (a b : Hash) : Prop :=
  ∃ blk, s.blocks a = some blk ∧ a ≠ g ∧ blk.height ≠ 0 ∧
    ¬OnChain s.blocks st.tip ⟨a, blk.height⟩ ∧ b = blk.selectedParent

theorem rebuildFork_missing (hv : AppliedView g s st) {head missing : Hash}
    (hpath : ReflTransGen (Climbs g s st) head missing) (hnone : s.blocks missing = none)
    (hne : missing ≠ g) (n : ℕ) (fork : AppliedTip) : rebuildFork s st g n head ≠ .ok fork := by
  induction hpath using ReflTransGen.head_induction_on generalizing n with
  | refl =>
    intro h
    cases n with
    | zero => cases h
    | succ n =>
      rcases rebuildFork_succ_ok hv h with ⟨hgenesis, -⟩ | ⟨b, hb, -⟩
      · exact hne hgenesis
      · cases hnone.symm.trans hb
  | head hstep _ ih =>
    obtain ⟨blk, hblk, hneg, -, hnot, rfl⟩ := hstep
    intro h
    cases n with
    | zero => cases h
    | succ n =>
      rcases rebuildFork_succ_ok hv h with ⟨hgenesis, -⟩ | ⟨b, hb, -, hrest⟩
      · exact hneg hgenesis
      · cases hb.symm.trans hblk
        rcases hrest with ⟨hon, -⟩ | ⟨-, -, hrest⟩
        · exact hnot hon
        · exact ih n hrest

/-- The highest block that is an ancestor of `head` and of `tip`, or one of them. -/
structure IsForkPoint (blocks : KvStore Hash Block) (head : Block) (tip fork : AppliedTip) : Prop where
  ofHead : OnChain blocks ⟨head.hash, head.height⟩ fork
  ofTip : OnChain blocks tip fork
  highest : ∀ y, OnChain blocks ⟨head.hash, head.height⟩ y → OnChain blocks tip y →
    y.height ≤ fork.height

/-- `head` ranks above `tip`: it has a score, and a scored tip has a lower one or the same one and
the greater hash. Without a source of scores every head does. -/
def Outranks (forkWeight : Option (Hash → Option UInt64)) (head tip : Hash) : Prop :=
  ∀ weight, forkWeight = some weight → ∃ h, weight head = some h ∧
    ∀ t, weight tip = some t → t < h ∨ h = t ∧ head < tip

variable {forkWeight : Option (Hash → Option UInt64)}

theorem outranksTip_ok {head tip : Hash} (h : outranksTip forkWeight head tip = .ok ()) :
    Outranks forkWeight head tip := by
  rintro weight rfl
  unfold outranksTip at h
  simp only at h
  split at h
  · cases h
  · rename_i score hhead htip
    refine ⟨score, hhead, fun t ht => ?_⟩
    cases htip.symm.trans ht
  · rename_i score t hhead htip
    refine ⟨score, hhead, fun t' ht' => ?_⟩
    cases htip.symm.trans ht'
    split at h
    · assumption
    · cases h

theorem rebuildTarget_eq_ok {head : Hash} {plan : RebuildPlan}
    (h : rebuildTarget s st g forkWeight head = .ok plan) :
    rebuildFork s st g UInt64.size head = .ok plan.fork ∧ plan.fork.hash ≠ head ∧
      ¬(plan.fork.hash = st.tip.hash ∧ 0 < st.tip.height) ∧
      Outranks forkWeight head st.tip.hash ∧
      plan.abandoned = Word.saturatingSub st.tip.height plan.fork.height := by
  obtain ⟨fork, hfork, h⟩ := Result.bind_eq_ok.mp h
  split_ifs at h with hhead htip
  obtain ⟨⟨⟩, hrank, rfl⟩ := Result.map_eq_ok.mp h
  exact ⟨hfork, hhead, htip, outranksTip_ok hrank, rfl⟩

theorem rebuildFork_isForkPoint (hv : AppliedView g s st) {head : Hash}
    (hfork : rebuildFork s st g UInt64.size head = .ok fork) (hne : fork.hash ≠ head) :
    ∃ b, s.blocks head = some b ∧ IsForkPoint s.blocks b st.tip fork := by
  have hsize : UInt64.size = (UInt64.size - 1) + 1 := rfl
  rw [hsize] at hfork
  rcases rebuildFork_succ_ok hv hfork with ⟨rfl, rfl⟩ | ⟨b, hb, hneg, -⟩
  · exact absurd rfl hne
  · have hhash : b.hash = head := hv.wf.hash hb
    have hk : HasHeight g s head b.height := by
      refine ⟨fun hgenesis => absurd hgenesis hneg, fun c hc _ => ?_⟩
      rw [Option.some.inj (hc.symm.trans hb)]
    obtain ⟨hhead, htip, hmax⟩ := rebuildFork_highest hv hk hfork
    rw [← hhash] at hhead hmax
    exact ⟨b, hb, hhead, htip, hmax⟩

/-- A rebuild is planned toward a stored head with the highest block it shares with the applied
chain as its fork point and the applied blocks above it as abandoned, at least one unless the tip is
at height zero, and only if the head outranks the tip. A head on the applied chain, a descendant of a
tip above height zero and a head with a block missing below it are refused. -/
theorem rebuild_plan_exact (hv : AppliedView g s st) (forkWeight : Option (Hash → Option UInt64))
    (head : Hash) :
    (∀ plan, rebuildTarget s st g forkWeight head = .ok plan →
      ∃ b, s.blocks head = some b ∧ IsForkPoint s.blocks b st.tip plan.fork ∧
        plan.abandoned.toNat = st.tip.height.toNat - plan.fork.height.toNat ∧
        (st.tip.height ≠ 0 → 0 < plan.abandoned) ∧ Outranks forkWeight head st.tip.hash) ∧
    ((∃ k, OnChain s.blocks st.tip ⟨head, k⟩) ∨ (st.tip.height ≠ 0 ∧ ∃ b, s.blocks head = some b ∧
        OnChain s.blocks ⟨head, b.height⟩ st.tip) ∨
      (∃ missing, ReflTransGen (Climbs g s st) head missing ∧ s.blocks missing = none ∧
        missing ≠ g) →
      ∃ e, rebuildTarget s st g forkWeight head = .error e) := by
  have hpos : st.tip.height ≠ 0 → 0 < st.tip.height := fun hne =>
    lt_of_le_of_ne UInt64.zero_le (Ne.symm hne)
  -- a fork point at the height of the tip is the tip
  have hbelow : ∀ {fork : AppliedTip}, OnChain s.blocks st.tip fork → st.tip.height ≠ 0 →
      ¬(fork.hash = st.tip.hash ∧ 0 < st.tip.height) → fork.height < st.tip.height := by
    intro fork hon hne htip
    refine lt_of_le_of_ne hon.height_le fun heq => htip ⟨?_, hpos hne⟩
    exact congrArg AppliedTip.hash (hon.eq_of_height .refl heq)
  constructor
  · intro plan hplan
    obtain ⟨hfork, hhead, htip, hrank, habandoned⟩ := rebuildTarget_eq_ok hplan
    obtain ⟨b, hb, hpoint⟩ := rebuildFork_isForkPoint hv hfork hhead
    have hcount : plan.abandoned.toNat = st.tip.height.toNat - plan.fork.height.toNat := by
      rw [habandoned, Word.saturatingSub_toNat]
    refine ⟨b, hb, hpoint, hcount, fun hne => ?_, hrank⟩
    have hlt := UInt64.lt_iff_toNat_lt.mp (hbelow hpoint.ofTip hne htip)
    rw [UInt64.lt_iff_toNat_lt, hcount]
    have hzero : (0 : UInt64).toNat = 0 := rfl
    omega
  · intro hrefused
    cases hplan : rebuildTarget s st g forkWeight head with
    | error e => exact ⟨e, rfl⟩
    | ok plan =>
      obtain ⟨hfork, hhead, htip, -⟩ := rebuildTarget_eq_ok hplan
      obtain ⟨b, hb, hpoint⟩ := rebuildFork_isForkPoint hv hfork hhead
      have hhash : b.hash = head := hv.wf.hash hb
      rcases hrefused with ⟨k, hon⟩ | ⟨hne, c, hc, hon⟩ | ⟨missing, hpath, hnone, hneg⟩
      · -- the head itself would be a common block, so the fork point
        have hheight : b.height = k := (hv.rooted.of_onChain hon).height_eq hv.wf hb
        have hle := hpoint.highest ⟨b.hash, b.height⟩ .refl (by rw [hhash, hheight]; exact hon)
        have heq := hpoint.ofHead.eq_of_height .refl (le_antisymm hpoint.ofHead.height_le hle)
        exact absurd ((congrArg AppliedTip.hash heq).trans hhash) hhead
      · -- the tip would be a common block
        cases hc.symm.trans hb
        have hle := hpoint.highest st.tip (by rw [hhash]; exact hon) .refl
        exact absurd (hbelow hpoint.ofTip hne htip) (not_lt.mpr hle)
      · exact absurd hfork (rebuildFork_missing hv hpath hnone hneg _ _)

end Planning

theorem forkedStore_blocks {h : Hash} {b : Block} (hb : forkedStore.blocks h = some b) :
    (h = 10 ∧ b.hash = 10 ∧ b.height = 0) ∨
      ((h = 11 ∨ h = 21) ∧ b.hash = h ∧ b.height = 1 ∧ b.selectedParent = 10) := by
  have hread : forkedStore.blocks h =
      if h = 21 then some { header := { blockHash := 21, height := 1, selectedParentHash := 10 } }
      else if h = 11 then
        some { header := { blockHash := 11, height := 1, selectedParentHash := 10 } }
      else if h = 10 then some { header := { blockHash := 10 } } else none := by
    simp [forkedStore, forkedBlocks, IndexOp.apply, putBlock, empty, KvStore.write_put, Block.hash]
  rw [hread] at hb
  split_ifs at hb with h1 h2 h3 <;> cases hb
  · exact .inr ⟨.inr h1, h1.symm, rfl, rfl⟩
  · exact .inr ⟨.inl h2, h2.symm, rfl, rfl⟩
  · exact .inl ⟨h3, rfl, rfl⟩

theorem forkedStore_wellFormed : WellFormed 10 forkedStore.blocks where
  hash hb := by
    rcases forkedStore_blocks hb with ⟨rfl, hhash, -⟩ | ⟨-, hhash, -⟩
    · exact hhash
    · exact hhash
  parent hb hne hp := by
    rcases forkedStore_blocks hb with ⟨-, -, h0⟩ | ⟨-, -, h1, hparent⟩
    · exact absurd h0 hne
    · rw [hparent] at hp
      rcases forkedStore_blocks hp with ⟨-, -, h0⟩ | ⟨hother, -⟩
      · rw [h1, h0]
        rfl
      · exact absurd hother (by decide)
  base hb hne _ := by
    rcases forkedStore_blocks hb with ⟨-, -, h0⟩ | ⟨-, -, h1, -⟩
    · exact absurd h0 hne
    · exact h1
  genesis hb := by
    rcases forkedStore_blocks hb with ⟨-, -, h0⟩ | ⟨hother, -⟩
    · exact h0
    · exact absurd hother (by decide)

theorem forkedStore_rooted {hash : Hash} {b : Block} (hb : forkedStore.blocks hash = some b)
    (hheight : b.height = 1) (hparent : b.selectedParent = 10) :
    Rooted 10 forkedStore.blocks ⟨hash, 1⟩ := by
  have hone : (1 : UInt64) ≠ 0 := by decide
  have hpred : (1 : UInt64) - 1 = 0 := by decide
  exact .single ⟨b, hb, hheight, hone, by rw [hparent, hpred]⟩

def restartedState : AppliedState := ⟨⟨11, 1⟩, ∅⟩

theorem restarted_view : AppliedView 10 (forkedStore.putAppliedTip ⟨11, 1⟩) restartedState := by
  have hrooted : Rooted 10 forkedStore.blocks ⟨11, 1⟩ := forkedStore_rooted rfl rfl rfl
  have hmeets : IndexOp.Meets forkedStore (.putAppliedTip ⟨11, 1⟩) := fun hmax =>
    absurd hmax (by decide)
  have hstored : Transition.Runs (RootedStep 10) .empty forkedBlocks forkedStore :=
    forkedStore_runs.imp fun _ op _ hmem h => ⟨h.1, fun _ heq => by simp [forkedBlocks, heq] at hmem⟩
  have hrun : Transition.Runs (RootedStep 10) .empty _ (forkedStore.putAppliedTip ⟨11, 1⟩) :=
    hstored.step ⟨⟨hmeets, rfl⟩, fun _ heq => IndexOp.putAppliedTip.inj heq ▸ hrooted⟩
  refine ⟨?_, ?_, ?_, fun _ => rooted_run_index ⟨rfl, rfl⟩ hrun⟩
  · rw [putAppliedTip_blocks]
    exact forkedStore_wellFormed
  · rw [putAppliedTip_blocks]
    exact hrooted
  · intro h hash hheld
    simp [AppliedState.ringHash, restartedState] at hheld

def siblingWeights : Option (Hash → Option UInt64) := some fun h => if h = 21 then some 2 else some 1

theorem eq_ok_of_toOption {r : Except RebuildRefusal RebuildPlan} {plan : RebuildPlan}
    (h : r.toOption = some plan) : r = .ok plan := by
  cases r with
  | error e => cases h
  | ok p => exact congrArg Except.ok (Option.some.inj h)

theorem rebuild_plan_exact_sibling :
    rebuildTarget (forkedStore.putAppliedTip ⟨11, 1⟩) restartedState 10 siblingWeights 21 =
        .ok ⟨⟨10, 0⟩, 1⟩ ∧
      ∃ b, (forkedStore.putAppliedTip ⟨11, 1⟩).blocks 21 = some b ∧
        IsForkPoint (forkedStore.putAppliedTip ⟨11, 1⟩).blocks b ⟨11, 1⟩ ⟨10, 0⟩ := by
  have hplan : rebuildTarget (forkedStore.putAppliedTip ⟨11, 1⟩) restartedState 10 siblingWeights 21 =
      .ok ⟨⟨10, 0⟩, 1⟩ := eq_ok_of_toOption (by decide)
  obtain ⟨b, hb, hpoint, -⟩ := (rebuild_plan_exact restarted_view siblingWeights 21).1 _ hplan
  exact ⟨hplan, b, hb, hpoint⟩

def genesisState : AppliedState := ⟨⟨10, 0⟩, ∅⟩

theorem genesis_view : AppliedView 10 forkedStore genesisState where
  wf := forkedStore_wellFormed
  rooted := .refl
  ring := by
    intro h hash hheld
    simp [AppliedState.ringHash, genesisState] at hheld
  index := nofun

theorem genesis_tip_plans_descendant : AppliedView 10 forkedStore genesisState ∧
      rebuildTarget forkedStore genesisState 10 siblingWeights 21 = .ok ⟨⟨10, 0⟩, 0⟩ ∧
      OnChain forkedStore.blocks ⟨21, 1⟩ genesisState.tip :=
  ⟨genesis_view, eq_ok_of_toOption (by decide), forkedStore_rooted rfl rfl rfl⟩

end CitrateChain.Node
