import CitrateChain.Base.Runs
import CitrateChain.Node.AppliedLineage
import CitrateChain.Node.Recovery

/-! # Safety of the finality floor

Every operation of the applicator advances: the floor does not drop and the blocks of the applied
chain at or below it stay on the applied chain. The three ways to abandon blocks are each shown to
keep a block at or above the floor on both chains. -/
namespace CitrateChain.Node
open Std (ExtTreeMap)
open Relation (ReflTransGen)
open Consensus (Hash Block)
open Execution Storage Transition CanonicalApplicator Executor

variable {P : Type} {g : Hash} {app app' app'' : CanonicalApplicator P} {rt : Runtime P}

/-- The applied chain of a node: stored down to genesis, with the ring on it and the floor below
its tip. -/
structure ChainInv (g : Hash) (app : CanonicalApplicator P) : Prop where
  wf : WellFormed g app.blocks
  rooted : Rooted g app.blocks app.state.tip
  ring : RingOnChain app.blocks app.state
  floor_le : app.finalizedHeight ≤ app.state.tip.height

structure Advances (g : Hash) (app app' : CanonicalApplicator P) : Prop where
  inv : ChainInv g app'
  grows : ∀ h b, app.blocks h = some b → app'.blocks h = some b
  floor_le : app.finalizedHeight ≤ app'.finalizedHeight
  keeps : ∀ x : AppliedTip, x.height ≤ app.finalizedHeight → OnChain app.blocks app.state.tip x →
    OnChain app'.blocks app'.state.tip x
  raised : ∃ new, app'.raised = new ++ app.raised ∧
    ∀ c ∈ new, c.height ≤ app'.finalizedHeight ∧ OnChain app'.blocks app'.state.tip c
  earned : app'.finalizedHeight = app.finalizedHeight ∨
    ∃ c ∈ app'.raised, c.height = app'.finalizedHeight

namespace Advances

theorem refl (h : ChainInv g app) : Advances g app app :=
  ⟨h, fun _ _ hb => hb, le_rfl, fun _ _ hx => hx, ⟨[], rfl, nofun⟩, .inl rfl⟩

theorem trans (h : Advances g app app') (h' : Advances g app' app'') : Advances g app app'' := by
  obtain ⟨new, hnew, hon⟩ := h.raised
  obtain ⟨new', hnew', hon'⟩ := h'.raised
  refine ⟨h'.inv, fun k b hb => h'.grows k b (h.grows k b hb), h.floor_le.trans h'.floor_le,
    fun x hx hc => ?_, ⟨new' ++ new, ?_, ?_⟩, ?_⟩
  · exact h'.keeps x (hx.trans h.floor_le) (h.keeps x hx hc)
  · rw [hnew', hnew, List.append_assoc]
  · intro c hc
    rcases List.mem_append.mp hc with hc | hc
    · exact hon' c hc
    · obtain ⟨hle, hc⟩ := hon c hc
      exact ⟨hle.trans h'.floor_le, h'.keeps c hle hc⟩
  · rcases h'.earned with heq | hearned
    · rw [heq, hnew']
      exact h.earned.imp id fun ⟨c, hc, hh⟩ => ⟨c, List.mem_append_right _ hc, hh⟩
    · exact .inr hearned

section

variable (h : ChainInv g app)
include h

theorem of_frame (hb : app'.blocks = app.blocks) (hst : app'.state = app.state)
    (hf : app'.finalizedHeight = app.finalizedHeight) (hr : app'.raised = app.raised) :
    Advances g app app' := by
  refine ⟨⟨?_, ?_, ?_, ?_⟩, fun k b hk => ?_, hf.ge, fun x _ hx => ?_, ⟨[], hr, nofun⟩, .inl hf⟩
  · rw [hb]
    exact h.wf
  · rw [hb, hst]
    exact h.rooted
  · rw [hb, hst]
    exact h.ring
  · rw [hf, hst]
    exact h.floor_le
  · rwa [hb]
  · rwa [hb, hst]

theorem raiseFloor {height covered : UInt64} {hash : Hash}
    (hon : OnChain app.blocks app.state.tip ⟨hash, height⟩) :
    Advances g app (app.raiseFloor height hash covered) where
  inv := ⟨h.wf, h.rooted, h.ring, max_le h.floor_le hon.height_le⟩
  grows _ _ hb := hb
  floor_le := le_max_left _ _
  keeps _ _ hx := hx
  raised := by
    refine ⟨[⟨hash, height⟩], rfl, fun c hc => ?_⟩
    obtain rfl := List.mem_singleton.mp hc
    exact ⟨le_max_right _ _, hon⟩
  earned := by
    rcases le_total height app.finalizedHeight with hle | hle
    · exact .inl (max_eq_left hle)
    · exact .inr ⟨⟨hash, height⟩, List.mem_cons_self, (max_eq_right hle).symm⟩

theorem effectiveFloor {walkBelowRing : Bool} {floor : UInt64}
    (hf : app.effectiveFloor walkBelowRing = (floor, app')) : Advances g app app' := by
  rcases effectiveFloor_cases h.wf h.rooted h.ring hf with
    rfl | ⟨height, hash, covered, hon, rfl⟩
  · exact .refl h
  · exact .raiseFloor h hon

theorem switch {fork : AppliedTip} (hb : ∀ h b, app.blocks h = some b → app'.blocks h = some b)
    (hwf : WellFormed g app'.blocks) (hring : RingOnChain app'.blocks app'.state)
    (hold : OnChain app.blocks app.state.tip fork) (hle : app.finalizedHeight ≤ fork.height)
    (hnew : OnChain app'.blocks app'.state.tip fork)
    (hf : app'.finalizedHeight = app.finalizedHeight) (hr : app'.raised = app.raised) :
    Advances g app app' where
  inv := by
    refine ⟨hwf, hnew.trans ((h.rooted.of_onChain hold).mono hb), hring, ?_⟩
    rw [hf]
    exact hle.trans hnew.height_le
  grows := hb
  floor_le := hf.ge
  keeps x hx hc := hnew.trans ((hold.of_height_le hc (hx.trans hle)).mono hb)
  raised := ⟨[], hr, nofun⟩
  earned := .inl hf

theorem switch_of_blocks_eq {fork : AppliedTip} (hb : app'.blocks = app.blocks)
    (hring : RingOnChain app.blocks app'.state) (hold : OnChain app.blocks app.state.tip fork)
    (hle : app.finalizedHeight ≤ fork.height) (hnew : OnChain app.blocks app'.state.tip fork)
    (hf : app'.finalizedHeight = app.finalizedHeight) (hr : app'.raised = app.raised) :
    Advances g app app' := by
  refine .switch h (fun k c hc => ?_) ?_ ?_ hold hle ?_ hf hr
  · rwa [hb]
  · rw [hb]
    exact h.wf
  · rwa [hb]
  · rwa [hb]

end

end Advances

variable {hooks : RegistryHooks P} {call : RecoveryCall P} {b : Block} {r : Except String Bool}
variable {head : Hash} {st : AppliedState}

theorem write_put_of_some {s : KvStore Hash Block} (hnew : s b.hash = none) (h : Hash)
    (c : Block) (hc : s h = some c) : s.write (.put b.hash b) h = some c := by
  have hne : (KvOp.put b.hash b).key ≠ h := by
    rintro rfl
    cases (show s b.hash = some c from hc).symm.trans hnew
  rw [KvStore.write_of_ne hne, hc]

variable {blocks blocks' : KvStore Hash Block}

structure Storable (g : Hash) (app : CanonicalApplicator P) (b : Block) : Prop where
  fresh : app.blocks b.hash = none
  wf : WellFormed g (app.storeBlock b).blocks

section

variable (h : ChainInv g app)
include h

theorem Advances.storeBlock (hs : Storable g app b) : Advances g app (app.storeBlock b) := by
  have hsub := write_put_of_some hs.fresh
  exact .switch h hsub hs.wf (fun k x hx => (h.ring k x hx).mono hsub) .refl h.floor_le .refl rfl rfl

omit h in
theorem ringHash_record {hash x : Hash} {height h : UInt64} {db : StateDb}
    (hx : (st.record hash height db).ringHash h = some x) :
    (h = height ∧ x = hash) ∨ st.ringHash h = some x := by
  obtain ⟨e, he, rfl⟩ := Option.map_eq_some_iff.mp hx
  obtain ⟨he, -⟩ := TreeMap.getElem?_filter_eq_some.mp he
  rcases TreeMap.getElem?_insert_eq_some.mp he with ⟨rfl, rfl⟩ | ⟨-, he⟩
  · exact .inl ⟨rfl, rfl⟩
  · exact .inr (Option.map_eq_some_iff.mpr ⟨e, he, rfl⟩)

theorem Advances.recordApplied (hooks : RegistryHooks P)
    (hp : Parent app.blocks ⟨b.hash, b.height⟩ app.state.tip) :
    Advances g app (CanonicalApplicator.recordApplied hooks app b) := by
  have hb : (CanonicalApplicator.recordApplied hooks app b).blocks = app.blocks :=
    BlockStore.putAppliedTip_blocks _ _
  have hnew : OnChain app.blocks ⟨b.hash, b.height⟩ app.state.tip := .single hp
  refine .switch_of_blocks_eq h hb (fun k x hx => ?_) .refl h.floor_le hnew rfl rfl
  rcases ringHash_record hx with ⟨rfl, rfl⟩ | hx
  · exact .refl
  · exact hnew.trans (h.ring k x hx)

omit h in
theorem checkedAdd_one {h k : UInt64} (heq : some k = Word.checkedAdd h 1) : k ≠ 0 ∧ k - 1 = h := by
  unfold Word.checkedAdd at heq
  split at heq
  · rename_i hlt
    cases heq
    refine ⟨fun h0 => ?_, UInt64.add_sub_cancel h 1⟩
    have := congrArg UInt64.toNat h0
    rw [UInt64.toNat_add, Nat.mod_eq_of_lt hlt] at this
    exact absurd this (Nat.succ_ne_zero _)
  · cases heq

omit h in
theorem extension_parent (hwf : WellFormed g app.blocks) {tip : AppliedTip}
    (h : nextPersistedExtension app.storage.blocks tip = .ok (some b)) :
    app.blocks b.hash = some b ∧ Parent app.blocks ⟨b.hash, b.height⟩ tip := by
  have hmem : b ∈ extensions app.storage.blocks tip := by
    unfold nextPersistedExtension at h
    split at h
    · cases h
    · rename_i c hext
      obtain rfl : c = b := by simpa using h
      rw [hext]
      exact List.mem_singleton_self _
    · cases h
  obtain ⟨hchild, hext⟩ := List.mem_filter.mp hmem
  obtain ⟨hparent, hheight⟩ := of_decide_eq_true hext
  obtain ⟨child, -, hb⟩ := List.mem_filterMap.mp hchild
  obtain ⟨hne, hsub⟩ := checkedAdd_one hheight
  obtain rfl := hwf.hash hb
  refine ⟨hb, b, hb, rfl, hne, ?_⟩
  rw [hparent, hsub]

variable {fault : Hash → Option String}

theorem Advances.drainLoop {n : ℕ} {applied : List Hash} {out : CanonicalApplicator.DrainOutcome}
    (hd : drainLoop rt hooks fault n applied app = (out, app')) :
    Advances g app app' := by
  fun_induction CanonicalApplicator.drainLoop rt hooks fault n applied app with
  | case1 | case5 =>
    cases hd
    exact .refl h
  | case2 n applied app b hnext out ex st happly ih =>
    have hblocks := applyBlockInner_blocks happly
    have hmid : Advances g app { app with executor := ex, storage := st } :=
      .of_frame h hblocks rfl rfl rfl
    have hp : Parent st.blocks.blocks ⟨b.hash, b.height⟩ app.state.tip := by
      rw [hblocks]
      exact (extension_parent h.wf hnext).2
    have hrec := Advances.recordApplied hmid.inv hooks hp
    exact (hmid.trans hrec).trans (ih hrec.inv hd)
  | case3 _ _ app _ _ _ _ _ _ happly | case4 _ _ app _ _ _ _ _ _ happly =>
    cases hd
    exact .of_frame h (applyBlockInner_blocks happly) rfl rfl rfl

theorem Advances.produceBlock {fault : Option String} (hs : Storable g app b) :
    Advances g app (app.produceBlock rt hooks fault b) := by
  have hstore := Advances.storeBlock h hs
  fun_cases app.produceBlock rt hooks fault b with
  | case4 _ _ _ _ _ _ _ _ _ heq =>
    exact hstore.trans (.of_frame hstore.inv (persist_blocks heq) rfl rfl rfl)
  | case5 hguard _ _ _ _ _ _ db st heq =>
    have hblocks := persist_blocks heq
    have hmid : Advances g app { app with executor := { app.executor with db }, storage := st } :=
      hstore.trans (.of_frame hstore.inv hblocks rfl rfl rfl)
    refine hmid.trans (.recordApplied hmid.inv hooks ?_)
    simp only [not_or, not_not] at hguard
    obtain ⟨hne, hsub⟩ := checkedAdd_one hguard.2
    refine ⟨b, ?_, rfl, hne, ?_⟩
    · rw [blocks, hblocks]
      exact Function.update_self ..
    · rw [hguard.1, hsub]
  | _ => exact .refl h

theorem abortReorg_advances {fault : Option String} {plan : ReorgPlan} {st : StorageManager}
    (hb : st.blocks.blocks = app.blocks) :
    Advances g app (abortReorg rt fault app plan st) := by
  fun_cases abortReorg rt fault app plan st with
  | case1 _ _ heq => exact .of_frame h ((reconcile_blocks heq).trans hb) rfl rfl rfl
  | case2 => exact .of_frame h hb rfl rfl rfl

variable {blocks : KvStore Hash Block}

omit h in
theorem spliceRing_onChain {fork tip : AppliedTip} {branch : List Block}
    {snaps : List (UInt64 × Hash × StateDb)} (hwf : WellFormed g blocks)
    (hring : RingOnChain blocks st) (hfork : OnChain blocks st.tip fork)
    (hroot : Rooted g blocks fork) (hl : LinkedFrom blocks fork.hash branch)
    (htip : tip = lastPosition fork branch)
    (hsnaps : snaps.map (fun s => (s.1, s.2.1)) = branch.map fun b => (b.height, b.hash)) :
    RingOnChain blocks ⟨tip, spliceRing st.snapshots snaps tip.height⟩ := by
  subst htip
  intro k x hx
  obtain ⟨e, he, rfl⟩ := Option.map_eq_some_iff.mp hx
  obtain ⟨he, hwindow⟩ := TreeMap.getElem?_filter_eq_some.mp he
  simp only [Bool.and_eq_true, decide_eq_true_eq] at hwindow
  rcases TreeMap.getElem?_foldl_insert_eq_some he with hmem | ⟨hne, hold⟩
  · have hmap : (k, e.1) ∈ branch.map fun b => (b.height, b.hash) := by
      rw [← hsnaps]
      exact List.mem_map.mpr ⟨(k, e), hmem, rfl⟩
    obtain ⟨b, hb, heq⟩ := List.mem_map.mp hmap
    obtain ⟨rfl, hhash⟩ := Prod.mk.inj heq
    rw [← hhash]
    exact hl.onChain_of_mem hwf hroot hb
  · -- an old entry above the fork point would have been overwritten by the branch
    have hk : k ≤ fork.height := by
      by_contra hgt
      obtain ⟨b, hb, rfl⟩ := hl.exists_height hwf hroot (not_le.mp hgt) hwindow.1
      have hmap : (b.height, b.hash) ∈ snaps.map fun s => (s.1, s.2.1) := by
        rw [hsnaps]
        exact List.mem_map_of_mem hb
      obtain ⟨s, hs, heq⟩ := List.mem_map.mp hmap
      exact hne s hs (congrArg Prod.fst heq)
    have hon := hring k e.1 (Option.map_eq_some_iff.mpr ⟨e, hold, rfl⟩)
    exact (hl.onChain hwf hroot).trans (hfork.of_height_le hon hk)

variable {outcome : ReorgOutcome} {faults : ReorgFaults}

theorem Advances.executeReorg {newTip : Hash} {plan : ReorgPlan}
    (hle : app.finalizedHeight ≤ plan.fork.height)
    (hfork : OnChain app.blocks app.state.tip plan.fork)
    (hl : LinkedFrom app.blocks plan.fork.hash plan.branch)
    (hx : app.executeReorg rt hooks faults newTip plan = (outcome, app')) :
    Advances g app app' := by
  revert hx
  fun_cases app.executeReorg rt hooks faults newTip plan with
  | case1 =>
    rintro ⟨⟩
    exact abortReorg_advances h rfl
  | case2 _ _ _ hrevert | case3 _ _ _ hrevert =>
    rintro ⟨⟩
    exact abortReorg_advances h (reconcile_blocks hrevert)
  | case4 _ atFork ex hrevert done hdone st ex' hcommit =>
    rintro ⟨⟩
    obtain ⟨seeded, -, hreapply⟩ := Result.bind_eq_ok.mp hdone
    obtain ⟨htip, hsnaps⟩ := reapplyBranch_ok hreapply
    have hblocks : (st.blocks.putAppliedTip done.tip).blocks = app.blocks :=
      ((BlockStore.putAppliedTip_blocks _ _).trans (reconcile_blocks hcommit)).trans
        (reconcile_blocks hrevert)
    have hroot := h.rooted.of_onChain hfork
    refine .switch_of_blocks_eq h hblocks ?_ hfork hle ?_ rfl rfl
    · exact spliceRing_onChain h.wf h.ring hfork hroot hl htip (by simpa using hsnaps)
    · rw [htip]
      exact hl.onChain h.wf hroot

theorem Advances.reorgTo {newTip : Hash}
    (hx : app.reorgTo rt hooks faults newTip = (outcome, app')) : Advances g app app' := by
  unfold CanonicalApplicator.reorgTo at hx
  split at hx
  · rename_i app₁ hplan
    cases hx
    rcases planReorg_error hplan with rfl | ⟨floor, hfloor⟩
    · exact .refl h
    · exact .effectiveFloor h hfloor
  rename_i plan app₁ hplan
  obtain ⟨hfloor, hle, hsnap, -, -⟩ := planReorg_ok hplan
  obtain ⟨hst, -, hstate, -⟩ := effectiveFloor_frame hfloor
  have hraise := Advances.effectiveFloor h hfloor
  have hfork : OnChain app.blocks app.state.tip plan.fork :=
    h.ring _ _ (Option.map_eq_some_iff.mpr ⟨_, hsnap, rfl⟩)
  refine hraise.trans (.executeReorg hraise.inv hle ?_ ?_ hx)
  · rw [blocks, hst, hstate]
    exact hfork
  · rw [blocks, hst]
    exact planReorg_linked h.wf hplan

theorem Advances.of_sameChain (hs : CanonicalApplicator.SameChain app app') :
    Advances g app app' := .of_frame h hs.blocks hs.state hs.finalizedHeight hs.raised

omit h in
theorem replaySpine_rooted {spine : List Block} {k n : ℕ} (hwf : WellFormed g app.blocks)
    (hroot : Rooted g app.blocks app.state.tip) (hring : RingOnChain app.blocks app.state)
    (hl : LinkedFrom app.blocks app.state.tip.hash spine)
    (h : replaySpine rt hooks fault spine k app = (n, app')) :
    Rooted g app.blocks app'.state.tip ∧ RingOnChain app.blocks app'.state ∧
      app'.finalizedHeight = app.finalizedHeight ∧ app'.raised = app.raised := by
  fun_induction replaySpine rt hooks fault spine k app with
  | case1 | case3 =>
    cases h
    exact ⟨hroot, hring, rfl, rfl⟩
  | case2 b spine k app out ex st happly ih =>
    have hp : Parent app.blocks ⟨b.hash, b.height⟩ app.state.tip := hl.head_parent hwf hroot
    have hb : (recordApplied hooks { app with executor := ex, storage := st }
        b).blocks = app.blocks := (recordApplied_blocks hooks _ b).trans
      (applyBlockInner_blocks happly)
    have hring' : RingOnChain app.blocks (app.state.record b.hash b.height ex.db) := by
      intro k x hx
      rcases ringHash_record hx with ⟨rfl, rfl⟩ | hx
      · exact .refl
      · exact .head hp (hring k x hx)
    rw [← hb] at hwf hring' ⊢
    exact ih hwf (by rw [hb]; exact .head hp hroot) hring' (by rw [hb]; exact hl.2.2.2) h

theorem finalityGuard_fork {tip : AppliedTip}
    (hguard : finalityGuard app.storage.blocks app.state.tip head app.finalizedHeight = true)
    (htip : Rooted g app.blocks tip) (hhead : tip.hash = head) :
    ∃ fork, OnChain app.blocks app.state.tip fork ∧ app.finalizedHeight ≤ fork.height ∧
      OnChain app.blocks tip fork := by
  by_cases hpos : app.finalizedHeight = 0
  · refine ⟨⟨g, 0⟩, h.rooted, ?_, htip⟩
    rw [hpos]
  have hlt : 0 < app.finalizedHeight :=
    lt_of_le_of_ne UInt64.zero_le (Ne.symm hpos)
  obtain ⟨found, hfound, hon⟩ := ancestorWalk_spec h.rooted hpos h.floor_le
    (UInt64.toNat_lt_size app.state.tip.height)
  rw [finalityGuard, if_pos ⟨hlt, h.floor_le⟩, ancestorHashAtHeight, hfound] at hguard
  obtain ⟨a, ha, hh, -⟩ := (h.rooted.of_onChain hon).stored hpos
  simp only at hh
  rw [← hh] at hguard
  obtain ⟨b, hb, hdesc⟩ := descentWalk_sound h.wf ha hguard
  refine ⟨_, hon, le_rfl, ?_⟩
  subst hhead
  rw [htip.height_eq h.wf hb, hh] at hdesc
  exact hdesc

omit h in
theorem genesisRing_onChain {db : StateDb} :
    RingOnChain blocks ⟨⟨g, 0⟩, (∅ : ExtTreeMap UInt64 (Hash × StateDb)).insert 0 (g, db)⟩ := by
  intro k x hx
  obtain ⟨e, he, rfl⟩ := Option.map_eq_some_iff.mp hx
  rcases TreeMap.getElem?_insert_eq_some.mp he with ⟨rfl, rfl⟩ | ⟨-, he⟩
  · exact .refl
  · simp at he

theorem Advances.replayToHead {now : CanonicalApplicator P} {plan : SpinePlan}
    (hg : call.genesisHash = g) (hnow : CanonicalApplicator.SameChain app now)
    (hguard : finalityGuard app.storage.blocks app.state.tip head app.finalizedHeight = true)
    (hl : LinkedFrom app.blocks g plan.spine)
    (hx : replayToHead rt call app now head plan = (r, app')) :
    Advances g app app' := by
  subst hg
  unfold replayToHead at hx
  simp only at hx
  generalize hstart : ({ now with state := _ } : CanonicalApplicator P) = start at hx
  have hstate : start.state.tip = ⟨call.genesisHash, 0⟩ := by rw [← hstart]
  have hblocks : start.blocks = app.blocks := by
    rw [← hstart]
    exact hnow.blocks
  have hring : RingOnChain start.blocks start.state := by
    rw [← hstart]
    exact genesisRing_onChain
  rcases hreplay : replaySpine rt call.hooks call.faults.apply plan.spine 0 start
    with ⟨replayed, done⟩
  have hb := (replaySpine_blocks hreplay).trans hblocks
  obtain ⟨hroot, hring', hf, hr⟩ := replaySpine_rooted (g := call.genesisHash)
    (by rw [hblocks]; exact h.wf) (by rw [hstate]) hring (by rw [hblocks, hstate]; exact hl) hreplay
  rw [hreplay] at hx
  have hf' : done.finalizedHeight = app.finalizedHeight := by
    rw [hf, ← hstart]
    exact hnow.finalizedHeight
  have hr' : done.raised = app.raised := by
    rw [hr, ← hstart]
    exact hnow.raised
  rw [hblocks] at hroot hring'
  rcases hok : headRootOk rt done head with ⟨ok, done'⟩
  obtain ⟨hsame, hhead⟩ := headRootOk_sameChain hok
  simp only [hok] at hx
  cases ok with
  | false =>
    simp only at hx
    split at hx
    all_goals
      rename_i hroll
      cases hx
      exact .of_sameChain h (rollbackRebuild_sameChain hroll
        (hsame.blocks.trans hb) (hsame.finalizedHeight.trans hf') (hsame.raised.trans hr'))
  | true =>
    obtain ⟨fork, hold, hle, hnew⟩ := finalityGuard_fork h hguard hroot (hhead rfl)
    cases hx
    refine .switch_of_blocks_eq h ?_ ?_ hold hle ?_ (hsame.finalizedHeight.trans hf')
      (hsame.raised.trans hr')
    · rw [blocks, clearRebuildMarker_blocks, BlockStore.putAppliedTip_blocks]
      exact hsame.blocks.trans hb
    · rw [hsame.state]
      exact hring'
    · rw [hsame.state]
      exact hnew

theorem Advances.rebuildFromGenesis (hg : call.genesisHash = g)
    (hx : app.rebuildFromGenesis rt call head = (r, app')) : Advances g app app' := by
  subst hg
  revert hx
  fun_cases app.rebuildFromGenesis rt call head with
  | case1 floor app₁ hfloor | case2 floor app₁ hfloor | case3 floor app₁ hfloor =>
    rintro ⟨⟩
    exact .effectiveFloor h hfloor
  | case4 floor app₁ hfloor _ _ _ _ _ hreset =>
    rintro ⟨⟩
    have hraise := Advances.effectiveFloor h hfloor
    exact hraise.trans (.of_sameChain hraise.inv (resetToGenesis_sameChain hreset))
  | case5 floor app₁ hfloor hguard plan hplan now hreset =>
    intro hx
    have hraise := Advances.effectiveFloor h hfloor
    have h₁ := hraise.inv
    obtain ⟨-, -, -, rfl⟩ := effectiveFloor_frame hfloor
    obtain ⟨hl, -⟩ := planSpine_linked h₁.wf hplan
    rw [Bool.not_eq_false] at hguard
    exact hraise.trans (.replayToHead h₁ rfl (resetToGenesis_sameChain hreset) hguard hl hx)

theorem Advances.recoverInPlace {fork : AppliedTip} {r : Option (Except String Bool)}
    (hx : app.recoverInPlace rt call head fork = (r, app')) : Advances g app app' := by
  revert hx
  fun_cases app.recoverInPlace rt call head fork with
  | case1 | case7 =>
    rintro ⟨⟩
    exact .refl h
  | case2 _ _ _ _ _ _ _ _ hreorg | case3 _ _ _ _ _ _ hreorg | case4 _ _ _ _ hreorg =>
    rintro ⟨⟩
    exact .reorgTo h hreorg
  | case5 _ _ _ _ _ hreorg _ _ hfloor | case6 _ _ _ _ _ hreorg _ _ hfloor =>
    rintro ⟨⟩
    have hr := Advances.reorgTo h hreorg
    exact hr.trans (.effectiveFloor hr.inv hfloor)

theorem Advances.recoverToHeadInner (hg : call.genesisHash = g)
    (hx : app.recoverToHeadInner rt call = (r, app')) : Advances g app app' := by
  revert hx
  fun_cases app.recoverToHeadInner rt call with
  | case1 | case2 =>
    rintro ⟨⟩
    exact .refl h
  | case3 _ _ _ _ _ hclean | case4 _ hclean _ _ | case5 _ _ _ _ hclean =>
    rintro ⟨⟩
    exact .of_sameChain h (cleanupInterrupted_sameChain hclean)
  | case6 _ _ _ _ hclean =>
    intro hx
    have hc := Advances.of_sameChain h (cleanupInterrupted_sameChain hclean)
    exact hc.trans (.rebuildFromGenesis hc.inv hg hx)
  | case7 _ _ _ _ hclean _ _ _ _ _ _ hplace =>
    rintro ⟨⟩
    have hc := Advances.of_sameChain h (cleanupInterrupted_sameChain hclean)
    exact hc.trans (.recoverInPlace hc.inv hplace)
  | case8 _ _ _ _ hclean _ _ _ _ _ hplace =>
    intro hx
    have hc := Advances.of_sameChain h (cleanupInterrupted_sameChain hclean)
    have hp := hc.trans (.recoverInPlace hc.inv hplace)
    exact hp.trans (.rebuildFromGenesis hp.inv hg hx)

end

/-- What a running check knows: the tip it walked was applied, and what it found is on its chain. -/
def CallOk (g : Hash) (blocks : KvStore Hash Block) (c : CanonicalApplicator.VerifyCall) : Prop :=
  match c.pc with
  | .walking _ walked => Rooted g blocks walked
  | .confirming _ walked found => Rooted g blocks walked ∧
      ∀ hash, found = some hash → OnChain blocks walked ⟨hash, c.height⟩
  | _ => True

theorem CallOk.mono {c : CanonicalApplicator.VerifyCall}
    (hsub : ∀ h b, blocks h = some b → blocks' h = some b) (h : CallOk g blocks c) :
    CallOk g blocks' c := by
  unfold CallOk at h ⊢
  split
  · rename_i hpc
    rw [hpc] at h
    exact OnChain.mono hsub h
  · rename_i hpc
    rw [hpc] at h
    exact ⟨OnChain.mono hsub h.1, fun hash hf => (h.2 hash hf).mono hsub⟩
  · trivial

theorem walkStands_onChain (h : ChainInv g app) {walked : AppliedTip}
    (hw : walkStands app.storage.blocks app.state.tip walked = true) :
    OnChain app.blocks app.state.tip walked := by
  rcases Bool.or_eq_true_iff.mp hw with heq | hext
  · rw [of_decide_eq_true heq]
  · obtain ⟨-, hfound⟩ := Bool.and_eq_true_iff.mp hext
    split at hfound
    · rename_i found hat
      obtain rfl : found = walked.hash := of_decide_eq_true hfound
      exact appliedHashAtHeight_sound h.wf h.rooted hat
    · cases hfound

theorem Advances.verifyStep (h : ChainInv g app) {c c' : CanonicalApplicator.VerifyCall}
    (hc : CallOk g app.blocks c) (hx : app.verifyStep c = (c', app')) :
    Advances g app app' ∧ CallOk g app'.blocks c' := by
  revert hx
  fun_cases app.verifyStep c with
  | case3 =>
    rintro ⟨⟩
    exact ⟨.refl h, h.rooted⟩
  | case5 n walked hpc found hat =>
    rintro ⟨⟩
    rw [CallOk, hpc] at hc
    refine ⟨.refl h, hc, fun hash hf => ?_⟩
    subst hf
    exact appliedHashAtHeight_sound h.wf hc hat
  | case8 n walked found hpc hstands hfound =>
    rintro ⟨⟩
    rw [CallOk, hpc] at hc
    refine ⟨?_, trivial⟩
    split
    · have hon := walkStands_onChain h (Bool.not_eq_false _ ▸ hstands)
      exact .raiseFloor h (hon.trans (hc.2 c.hash (not_not.mp hfound)))
    · exact .refl h
  | case9 =>
    rintro ⟨⟩
    exact ⟨.refl h, hc⟩
  | _ =>
    rintro ⟨⟩
    exact ⟨.refl h, trivial⟩

structure Process (P : Type) where
  app : CanonicalApplicator P
  calls : ℕ → Option CanonicalApplicator.VerifyCall

inductive ProcessEvent (P : Type)
  | storeBlock (b : Block)
  | drainForward (hooks : RegistryHooks P) (fault : Hash → Option String)
  | reorgTo (hooks : RegistryHooks P) (faults : ReorgFaults) (newTip : Hash)
  | recover (call : RecoveryCall P)
  | produceBlock (hooks : RegistryHooks P) (fault : Option String) (b : Block)
  | registerCertified (height : UInt64) (hash : Hash)
  | settleRegisteredFloor
  | beginVerify (id : ℕ) (height : UInt64) (hash : Hash) (raise : Bool)
  | verifyStep (id : ℕ)

/-- The operations under the advance lock, in any order, with certificate checks between them. The
block store only grows, and stays well formed. -/
inductive ProcessStep (rt : Runtime P) (g : Hash) (p : Process P) : ProcessEvent P → Process P → Prop
  | storeBlock {b : Block} (hs : Storable g p.app b) :
      ProcessStep rt g p (.storeBlock b) { p with app := p.app.storeBlock b }
  | drainForward {hooks : RegistryHooks P} {fault} : ProcessStep rt g p (.drainForward hooks fault)
      { p with app := (p.app.drainForward rt hooks fault).2 }
  | reorgTo {hooks : RegistryHooks P} {faults newTip} : ProcessStep rt g p (.reorgTo hooks faults newTip)
      { p with app := (p.app.reorgTo rt hooks faults newTip).2 }
  | recover {call : RecoveryCall P} (hg : call.genesisHash = g) :
      ProcessStep rt g p (.recover call) { p with app := (p.app.recoverToHeadInner rt call).2 }
  | produceBlock {hooks : RegistryHooks P} {fault} {b : Block} (hs : Storable g p.app b) :
      ProcessStep rt g p (.produceBlock hooks fault b)
        { p with app := p.app.produceBlock rt hooks fault b }
  | registerCertified {height hash} : ProcessStep rt g p (.registerCertified height hash)
      { p with app := p.app.registerCertified height hash }
  | settleRegisteredFloor :
      ProcessStep rt g p .settleRegisteredFloor { p with app := (p.app.effectiveFloor true).2 }
  | beginVerify {id height hash raise} (hid : p.calls id = none) :
      ProcessStep rt g p (.beginVerify id height hash raise)
        { p with calls := Function.update p.calls id (some { height, hash, raise }) }
  | verifyStep {id c} (hc : p.calls id = some c) : ProcessStep rt g p (.verifyStep id)
      ⟨(p.app.verifyStep c).2, Function.update p.calls id (some (p.app.verifyStep c).1)⟩

/-- The constructor's state: no floor and no check; the ring holds the tip and what was restored of
the window below it. -/
structure Booted (g : Hash) (p : Process P) : Prop where
  wf : WellFormed g p.app.blocks
  rooted : Rooted g p.app.blocks p.app.state.tip
  ring : RingOnChain p.app.blocks p.app.state
  floor : p.app.finalizedHeight = 0
  raised : p.app.raised = []
  calls : ∀ id, p.calls id = none

structure FloorSafe (g : Hash) (p : Process P) : Prop where
  advanced : ∃ app : CanonicalApplicator P, app.finalizedHeight = 0 ∧ app.raised = [] ∧
    Advances g app p.app
  calls : ∀ id c, p.calls id = some c → CallOk g p.app.blocks c

section Runs
variable {p p' : Process P} {e : ProcessEvent P} {es es' : List (ProcessEvent P)}

theorem Booted.floorSafe (h : Booted g p) : FloorSafe g p := by
  have hle : p.app.finalizedHeight ≤ p.app.state.tip.height := by
    rw [h.floor]
    exact UInt64.zero_le
  refine ⟨⟨p.app, h.floor, h.raised, .refl ⟨h.wf, h.rooted, h.ring, hle⟩⟩, fun id c hc => ?_⟩
  cases (h.calls id).symm.trans hc

theorem FloorSafe.chain (h : FloorSafe g p) : ChainInv g p.app := by
  obtain ⟨_, -, -, ha⟩ := h.advanced
  exact ha.inv

theorem calls_update {calls : ℕ → Option CanonicalApplicator.VerifyCall}
    {blocks : KvStore Hash Block} {id : ℕ} {c : CanonicalApplicator.VerifyCall}
    (h : ∀ id c, calls id = some c → CallOk g blocks c) (hc : CallOk g blocks c) (id' : ℕ)
    (c' : CanonicalApplicator.VerifyCall)
    (hc' : Function.update calls id (some c) id' = some c') : CallOk g blocks c' := by
  rw [Function.update_apply] at hc'
  split at hc'
  · cases hc'
    exact hc
  · exact h id' c' hc'

theorem FloorSafe.step_advances (h : FloorSafe g p) (hs : ProcessStep rt g p e p') :
    Advances g p.app p'.app ∧ ∀ id c, p'.calls id = some c → CallOk g p'.app.blocks c := by
  have hkeep : ∀ {app' : CanonicalApplicator P}, Advances g p.app app' →
      Advances g p.app app' ∧ ∀ id c, p.calls id = some c → CallOk g app'.blocks c :=
    fun ha => ⟨ha, fun id c hc => (h.calls id c hc).mono ha.grows⟩
  cases hs with
  | storeBlock hs => exact hkeep (.storeBlock h.chain hs)
  | drainForward => exact hkeep (.drainLoop h.chain rfl)
  | reorgTo => exact hkeep (.reorgTo h.chain rfl)
  | recover hg => exact hkeep (.recoverToHeadInner h.chain hg rfl)
  | produceBlock hs => exact hkeep (.produceBlock h.chain hs)
  | registerCertified =>
    refine hkeep ?_
    fun_cases registerCertified with
    | case1 => exact .refl h.chain
    | case2 => exact .of_frame h.chain rfl rfl rfl rfl
  | settleRegisteredFloor => exact hkeep (.effectiveFloor h.chain rfl)
  | beginVerify hid => exact ⟨.refl h.chain, calls_update h.calls trivial⟩
  | verifyStep hc =>
    obtain ⟨ha, hc'⟩ := Advances.verifyStep h.chain (h.calls _ _ hc) rfl
    exact ⟨ha, calls_update (fun id c hid => (h.calls id c hid).mono ha.grows) hc'⟩

theorem FloorSafe.advance (h : FloorSafe g p) (ha : Advances g p.app p'.app)
    (hcalls : ∀ id c, p'.calls id = some c → CallOk g p'.app.blocks c) : FloorSafe g p' := by
  obtain ⟨app, hfloor, hraised, h₀⟩ := h.advanced
  exact ⟨⟨app, hfloor, hraised, h₀.trans ha⟩, hcalls⟩

theorem FloorSafe.runs (h : FloorSafe g p) (hr : Runs (ProcessStep rt g) p es p') :
    FloorSafe g p' ∧ Advances g p.app p'.app :=
  hr.invariant (P := fun p' => FloorSafe g p' ∧ Advances g p.app p'.app) ⟨h, .refl h.chain⟩
    fun t a u ⟨ht, hpt⟩ hs => by
      obtain ⟨ha, hcalls⟩ := ht.step_advances hs
      exact ⟨ht.advance ha hcalls, hpt.trans ha⟩

/-- The floor never drops, it is always the height of a block it was raised for, and every block it
was ever raised for stays on the applied chain. -/
theorem finality_floor_safety {p₀ : Process P} (h₀ : Booted g p₀)
    (hr : Runs (ProcessStep rt g) p₀ es p) (hr' : Runs (ProcessStep rt g) p es' p') :
    p.app.finalizedHeight ≤ p'.app.finalizedHeight ∧
      (p.app.finalizedHeight = 0 ∨ ∃ c ∈ p.app.raised, c.height = p.app.finalizedHeight) ∧
      ∀ c ∈ p.app.raised, c ∈ p'.app.raised ∧ OnChain p'.app.blocks p'.app.state.tip c := by
  obtain ⟨hp, -⟩ := h₀.floorSafe.runs hr
  obtain ⟨hp', ha⟩ := hp.runs hr'
  obtain ⟨_, hfloor, -, h₀⟩ := hp.advanced
  obtain ⟨_, -, hnil, h₀'⟩ := hp'.advanced
  obtain ⟨new, hnew, -⟩ := ha.raised
  obtain ⟨all, hall, hon⟩ := h₀'.raised
  rw [hnil, List.append_nil] at hall
  refine ⟨ha.floor_le, hfloor ▸ h₀.earned, fun c hc => ?_⟩
  have hmem : c ∈ p'.app.raised := by
    rw [hnew]
    exact List.mem_append_right _ hc
  exact ⟨hmem, (hon c (hall ▸ hmem)).2⟩

/-- Up to the floor the applied chain is settled: every later state has the same blocks on it, neither
fewer nor others. -/
theorem applied_chain_settled_to_floor {p₀ : Process P} (h₀ : Booted g p₀)
    (hr : Runs (ProcessStep rt g) p₀ es p) (hr' : Runs (ProcessStep rt g) p es' p') :
    Rooted g p'.app.blocks p'.app.state.tip ∧ p.app.finalizedHeight ≤ p'.app.state.tip.height ∧
      ∀ x : AppliedTip, x.height ≤ p.app.finalizedHeight →
        (OnChain p'.app.blocks p'.app.state.tip x ↔ OnChain p.app.blocks p.app.state.tip x) := by
  obtain ⟨hp, -⟩ := h₀.floorSafe.runs hr
  obtain ⟨hp', ha⟩ := hp.runs hr'
  refine ⟨hp'.chain.rooted, ha.floor_le.trans hp'.chain.floor_le, fun x hx => ⟨fun hon => ?_, ha.keeps x hx⟩⟩
  -- the old chain has a block at this height, which the new one kept
  obtain ⟨y, hy, hheight⟩ := (parent_ranked p.app.blocks).exists_rank hp.chain.rooted (Nat.zero_le x.height.toNat)
    (UInt64.le_iff_toNat_le.mp (hx.trans hp.chain.floor_le))
  have hyx : y.height = x.height := UInt64.toNat_inj.mp hheight
  have hkept := ha.keeps y (hyx ▸ hx) hy
  rwa [hon.eq_of_height hkept hyx.symm]

end Runs

/-! A process that applies one block, settles its certificate and then refuses to go back to
genesis. -/

def idleRuntime : Runtime Unit where
  rules := { keccak := fun _ => 0, encodeAccount := fun _ => [], activation := none }
  execute _ _ _ := .ok ([], [])
  encodedLen _ := 0

def emptyStorage : StorageManager := .empty

def genesisProcess : Process Unit where
  app :=
    { storage := emptyStorage
      executor := ⟨{}, ()⟩
      state := ⟨⟨0, 0⟩, (∅ : ExtTreeMap UInt64 (Hash × StateDb)).insert 0 (0, {})⟩ }
  calls _ := none

def firstBlock : Block := { header := { blockHash := 1, height := 1 } }

def firstBlockStored : Process Unit :=
  { genesisProcess with app := genesisProcess.app.storeBlock firstBlock }

def firstBlockApplied : Process Unit :=
  { firstBlockStored with
    app := (firstBlockStored.app.drainForward idleRuntime {} fun _ => none).2 }

def firstBlockCertified : Process Unit :=
  { firstBlockApplied with app := firstBlockApplied.app.registerCertified 1 1 }

def firstBlockSettled : Process Unit :=
  { firstBlockCertified with app := (firstBlockCertified.app.effectiveFloor true).2 }

theorem genesisProcess_booted : Booted 0 genesisProcess where
  wf := ⟨nofun, nofun, nofun, nofun⟩
  rooted := .refl
  ring := genesisRing_onChain
  floor := rfl
  raised := rfl
  calls _ := rfl

theorem storable_of_empty (hempty : ∀ h, app.blocks h = none) (hh : b.height = 1)
    (hg : b.hash ≠ g) (hp : b.selectedParent ≠ b.hash) : Storable g app b := by
  have hget : ∀ {h c}, (app.storeBlock b).blocks h = some c → h = b.hash ∧ c = b := by
    intro h c hc
    by_cases heq : h = b.hash
    · subst heq
      have hself : (app.storeBlock b).blocks b.hash = some b := Function.update_self ..
      exact ⟨rfl, Option.some.inj (hc.symm.trans hself)⟩
    · have hne : (KvOp.put b.hash b).key ≠ h := Ne.symm heq
      have hnone : (app.storeBlock b).blocks h = none := (KvStore.write_of_ne hne).trans (hempty h)
      cases hnone.symm.trans hc
  refine ⟨hempty _, fun hc => ?_, fun hc _ hparent => ?_, fun hc _ _ => ?_, fun hc => ?_⟩
  · obtain ⟨rfl, rfl⟩ := hget hc
    rfl
  · obtain ⟨rfl, rfl⟩ := hget hc
    exact absurd (hget hparent).1 hp
  · obtain ⟨-, rfl⟩ := hget hc
    exact hh
  · exact absurd (hget hc).1.symm hg

theorem firstBlockSettled_runs : Runs (ProcessStep idleRuntime 0) genesisProcess
    [.storeBlock firstBlock, .drainForward {} fun _ => none, .registerCertified 1 1,
      .settleRegisteredFloor] firstBlockSettled :=
  .step (.step (.step (.step .refl (.storeBlock (storable_of_empty (fun _ => rfl) rfl (by decide)
    (by decide)))) .drainForward) .registerCertified) .settleRegisteredFloor

def firstBlockRefused : Process Unit :=
  { firstBlockSettled with app := (firstBlockSettled.app.reorgTo idleRuntime {} {} 0).2 }

theorem firstBlockRefused_runs :
    Runs (ProcessStep idleRuntime 0) firstBlockSettled [.reorgTo {} {} 0] firstBlockRefused :=
  .step .refl .reorgTo

theorem finality_floor_safety_first_block : firstBlockSettled.app.raised = [⟨1, 1⟩] ∧
      OnChain firstBlockRefused.app.blocks firstBlockRefused.app.state.tip ⟨1, 1⟩ := by
  have hraised : firstBlockSettled.app.raised = [⟨1, 1⟩] := by decide +kernel
  have hsafe := finality_floor_safety genesisProcess_booted firstBlockSettled_runs firstBlockRefused_runs
  exact ⟨hraised, (hsafe.2.2 ⟨1, 1⟩ (by rw [hraised]; exact List.mem_singleton_self _)).2⟩

theorem applied_chain_settled_to_floor_first_block :
    OnChain firstBlockRefused.app.blocks firstBlockRefused.app.state.tip ⟨1, 1⟩ := by
  have htip : firstBlockSettled.app.state.tip = ⟨1, 1⟩ := by decide +kernel
  refine ((applied_chain_settled_to_floor genesisProcess_booted firstBlockSettled_runs
    firstBlockRefused_runs).2.2 ⟨1, 1⟩ (by decide +kernel)).mpr ?_
  rw [htip]

end CitrateChain.Node
