import CitrateChain.Node.ReorgAtomicity

/-! # The applied state refines the chain

What a node holds is a function of its applied tip: the result of executing the blocks of the tip's
selected-parent chain in order from genesis. Memory, store and every snapshot of the ring are shown
to be that result, over runs of drain, production, reorg and recovery. -/
namespace CitrateChain.Node
open Std (ExtTreeMap)
open Consensus (Hash Block)
open Execution Storage Transition CanonicalApplicator Executor

variable {P : Type} {rt : Runtime P} {policy : P} {g : Hash} {w₀ w w' : World}
variable {app app' : CanonicalApplicator P} {blocks blocks' : KvStore Hash Block} {x : AppliedTip}
variable {b : Block} {bs : List Block}

def executeBlocks (rt : Runtime P) (policy : P) (w : World) :
    List Block → Except ExecutionError World
  | [] => .ok w
  | b :: bs => (rt.nextWorld policy w b).bind fun w => executeBlocks rt policy w bs

theorem executeBlocks_concat (h : executeBlocks rt policy w₀ bs = .ok w)
    (hb : rt.nextWorld policy w b = .ok w') : executeBlocks rt policy w₀ (bs ++ [b]) = .ok w' := by
  induction bs generalizing w₀ with
  | nil =>
    cases h
    rw [List.nil_append, executeBlocks, hb]
    rfl
  | cons c bs ih =>
    obtain ⟨w₁, hc, h⟩ := Result.bind_eq_ok.mp h
    exact Result.bind_eq_ok.mpr ⟨w₁, hc, ih h⟩

/-- `w` is the state as of `x`: the chain from genesis `g` with state `w₀` to `x`, executed. -/
def ChainState (rt : Runtime P) (policy : P) (g : Hash) (w₀ : World) (blocks : KvStore Hash Block)
    (x : AppliedTip) (w : World) : Prop :=
  ∃ bs, LinkedFrom blocks g bs ∧ lastPosition ⟨g, 0⟩ bs = x ∧ executeBlocks rt policy w₀ bs = .ok w

theorem ChainState.genesis : ChainState rt policy g w₀ blocks ⟨g, 0⟩ w₀ := ⟨[], trivial, rfl, rfl⟩

theorem ChainState.mono (hsub : ∀ h b, blocks h = some b → blocks' h = some b)
    (h : ChainState rt policy g w₀ blocks x w) : ChainState rt policy g w₀ blocks' x w := by
  obtain ⟨bs, hl, hx, hw⟩ := h
  exact ⟨bs, hl.mono hsub, hx, hw⟩

theorem ChainState.next (h : ChainState rt policy g w₀ blocks x w)
    (hl : LinkedFrom blocks x.hash (b :: bs)) (hw : rt.nextWorld policy w b = .ok w') :
    ChainState rt policy g w₀ blocks ⟨b.hash, b.height⟩ w' := by
  obtain ⟨cs, hcs, rfl, hexec⟩ := h
  obtain ⟨hb, hne, hparent, -⟩ := hl
  exact ⟨cs ++ [b], (linkedFrom_concat (p := ⟨g, 0⟩)).mpr ⟨hcs, hb, hne, hparent⟩,
    lastPosition_concat _ _ _, executeBlocks_concat hexec hw⟩

structure Refined (rt : Runtime P) (policy : P) (g : Hash) (w₀ : World)
    (app : CanonicalApplicator P) : Prop where
  world : ChainState rt policy g w₀ app.blocks app.state.tip app.executor.db.toWorld
  dirty : app.executor.db.DirtyStored
  store : StoreReflects app
  ring : ∀ h e, app.state.snapshots[h]? = some e →
    Word.saturatingSub app.state.tip.height maxReorgDepth ≤ h ∧
      ChainState rt policy g w₀ app.blocks ⟨e.1, h⟩ e.2.toWorld ∧ e.2.DirtyStored

namespace Refined

variable (h : Refined rt policy g w₀ app)
include h

theorem of_frame (hb : app'.blocks = app.blocks) (hstate : app'.state = app.state)
    (hworld : app'.executor.db.toWorld = app.executor.db.toWorld)
    (hdirty : app'.executor.db.DirtyStored) (hstore : StoreReflects app') :
    Refined rt policy g w₀ app' := by
  refine ⟨?_, hdirty, hstore, ?_⟩
  · rw [hb, hstate, hworld]
    exact h.world
  · rw [hb, hstate]
    exact h.ring

theorem of_same (hst : app'.storage = app.storage)
    (hex : app'.executor = app.executor) (hstate : app'.state = app.state) :
    Refined rt policy g w₀ app' := by
  refine h.of_frame ?_ hstate ?_ ?_ ⟨?_, ?_⟩
  · rw [blocks, hst]
  · rw [hex]
  · rw [hex]
    exact h.dirty
  · rw [hst, hex]
    exact h.store.world
  · rw [hst, hstate]
    exact h.store.tip

theorem storeBlock (hs : Storable g app b) : Refined rt policy g w₀ (app.storeBlock b) where
  world := h.world.mono (write_put_of_some hs.fresh)
  dirty := h.dirty
  store := ⟨h.store.world, h.store.tip⟩
  ring k e he := by
    obtain ⟨hwindow, hstate, hdirty⟩ := h.ring k e he
    exact ⟨hwindow, hstate.mono (write_put_of_some hs.fresh), hdirty⟩

end Refined

theorem maybeSyncRegistry_db (hooks : RegistryHooks P) (ex : Executor P) (height : UInt64) :
    (maybeSyncRegistry hooks ex height).db = ex.db := by
  unfold maybeSyncRegistry
  split
  · split
    · rfl
    · rfl
  · rfl

theorem foldl_maybeSyncRegistry_db (hooks : RegistryHooks P) (bs : List Block) (ex : Executor P) :
    (bs.foldl (fun ex b => maybeSyncRegistry hooks ex b.height) ex).db = ex.db := by
  induction bs generalizing ex with
  | nil => rfl
  | cons b bs ih => exact (ih _).trans (maybeSyncRegistry_db hooks ex b.height)

theorem nextWorld_policy (hfix : ∀ p q, rt.execute p = rt.execute q) (p q : P) (w : World)
    (b : Block) : rt.nextWorld p w b = rt.nextWorld q w b := by
  simp only [Runtime.nextWorld, Runtime.executed, hfix p q]

variable (hfix : ∀ p q, rt.execute p = rt.execute q)

namespace Refined

variable (h : Refined rt policy g w₀ app)
include h

variable {st : StorageManager}

theorem recordApplied (hooks : RegistryHooks P) {ex : Executor P}
    (hblocks : st.blocks.blocks = app.blocks)
    (hl : LinkedFrom app.blocks app.state.tip.hash (b :: bs))
    (hnext : rt.nextWorld policy app.executor.db.toWorld b = .ok ex.db.toWorld)
    (hdirty : ex.db.DirtyStored) (hst : Reflects st.state ex.db.toWorld) : Refined rt policy g w₀
      (CanonicalApplicator.recordApplied hooks { app with executor := ex, storage := st } b) := by
  have hb : (CanonicalApplicator.recordApplied hooks { app with executor := ex, storage := st }
      b).blocks = app.blocks := (BlockStore.putAppliedTip_blocks _ _).trans hblocks
  have hdb : (CanonicalApplicator.recordApplied hooks { app with executor := ex, storage := st }
      b).executor.db = ex.db := maybeSyncRegistry_db hooks ex b.height
  have hnew := h.world.next hl hnext
  refine ⟨?_, ?_, ⟨?_, rfl⟩, ?_⟩
  · rw [hb, hdb]
    exact hnew
  · rw [hdb]
    exact hdirty
  · rw [hdb]
    exact hst
  · rw [hb]
    intro k e he
    obtain ⟨he, hwindow⟩ := TreeMap.getElem?_filter_eq_some.mp he
    refine ⟨of_decide_eq_true hwindow, ?_⟩
    rcases TreeMap.getElem?_insert_eq_some.mp he with ⟨rfl, rfl⟩ | ⟨-, he⟩
    · exact ⟨hnew, hdirty⟩
    · exact (h.ring k e he).2

theorem orphanCode (code : KvStore Hash Bytes) :
    Refined rt policy g w₀ { app with storage := { app.storage with state.code := code } } :=
  h.of_frame rfl rfl rfl h.dirty ⟨⟨h.store.world.accounts, h.store.world.slots⟩, h.store.tip⟩

theorem abortReorg {plan : ReorgPlan} (hb : st.blocks.blocks = app.blocks)
    (hst : Reflects st.state plan.base.toWorld ∨ Reflects st.state app.executor.db.toWorld) :
    Refined rt policy g w₀ (abortReorg rt none app plan st) := by
  rcases hrec : reconcileStoreFromWithUndo rt app.executor st plan.base.toWorld
    app.state.tip plan.restore [] none with ⟨_ | st', ex⟩
  · cases hrec
  have hblocks := (reconcile_blocks hrec).trans hb
  obtain ⟨htip, -, -⟩ := reconcile_frame hrec
  have hreflects := reconcile_reflects hst hrec
  obtain rfl : { app.executor with db.dirtyCode := [] } = ex := (Prod.mk.inj hrec).2
  rw [CanonicalApplicator.abortReorg, hrec]
  exact h.of_frame hblocks rfl rfl h.dirty ⟨hreflects, htip⟩

include hfix

variable {hooks : RegistryHooks P}

theorem drainLoop {fault : Hash → Option String} {n : ℕ} {applied : List Hash}
    {out : CanonicalApplicator.DrainOutcome} (hc : ChainInv g app)
    (hd : drainLoop rt hooks fault n applied app = (out, app')) :
    Refined rt policy g w₀ app' := by
  fun_induction CanonicalApplicator.drainLoop rt hooks fault n applied app with
  | case1 | case5 =>
    cases hd
    exact h
  | case2 n applied app b hnext out' ex st happly ih =>
    obtain ⟨hb, hp⟩ := extension_parent hc.wf hnext
    have hblocks := applyBlockInner_blocks happly
    obtain ⟨hworld, hdirty⟩ := applyBlockInner_world rfl h.dirty happly
    obtain ⟨hst, -⟩ := applyBlockInner_committed h.dirty h.store.world (.inl rfl) happly
    rw [nextWorld_policy hfix _ policy] at hworld
    have hmid : Advances g app { app with executor := ex, storage := st } :=
      .of_frame hc hblocks rfl rfl rfl
    have hp' : Parent st.blocks.blocks ⟨b.hash, b.height⟩ app.state.tip := by
      rw [hblocks]
      exact hp
    exact ih (h.recordApplied hooks hblocks (hp.linkedFrom hb) hworld hdirty hst)
      (Advances.recordApplied hmid.inv hooks hp').inv hd
  | case3 _ _ app _ _ _ _ _ _ happly | case4 _ _ app _ _ _ _ _ _ happly =>
    obtain ⟨rfl, code, rfl⟩ := applyBlockInner_error happly
    cases hd
    exact h.orphanCode code

theorem produceBlock {fault : Option String} (hs : Storable g app b) :
    Refined rt policy g w₀ (app.produceBlock rt hooks fault b) := by
  have hstored := h.storeBlock hs
  fun_cases app.produceBlock rt hooks fault b with
  | case4 _ _ _ _ _ _ _ _ _ hpersist =>
    cases fault with
    | none => cases (Prod.mk.inj hpersist).1
    | some e =>
      cases hpersist
      exact hstored.orphanCode _
  | case5 hguard effects receipts hexec _ _ _ db st hpersist =>
    simp only [not_or, not_not] at hguard
    obtain ⟨hworld, hdirty, hst⟩ := persist_rooted h.dirty hstored.store.world hexec hpersist
    rw [nextWorld_policy hfix _ policy] at hworld
    have hblocks : st.blocks.blocks = (app.storeBlock b).blocks := persist_blocks hpersist
    have hl : LinkedFrom (app.storeBlock b).blocks (app.storeBlock b).state.tip.hash [b] :=
      ⟨Function.update_self .., (checkedAdd_one hguard.2).1, hguard.1, trivial⟩
    exact hstored.recordApplied hooks hblocks hl hworld hdirty hst
  | _ => exact h

end Refined

variable {hooks : RegistryHooks P} {ex ex' : Executor P}

theorem runPolicyHook_db {hook : UInt64 → Executor P → Except String P} {height : UInt64}
    {f : String → String}
    (h : (runPolicyHook hook height ex).mapError f = .ok ex') : ex'.db = ex.db := by
  unfold runPolicyHook at h
  cases hhook : hook height ex with
  | error e => simp [hhook, Except.map, Except.mapError] at h
  | ok p =>
    rw [hhook] at h
    cases h
    rfl

theorem seedPolicy_db {fork : AppliedTip}
    (h : seedPolicy hooks ex fork = .ok ex') : ex'.db = ex.db := by
  unfold seedPolicy at h
  split at h
  · exact runPolicyHook_db h
  · rw [Except.ok.inj h]

theorem resyncPolicy_db {height : UInt64}
    (h : resyncPolicy hooks ex height = .ok ex') : ex'.db = ex.db := by
  unfold resyncPolicy at h
  split at h
  · split at h
    · exact runPolicyHook_db h
    · rw [Except.ok.inj h]
  · rw [Except.ok.inj h]

structure ReappliedStates (rt : Runtime P) (policy : P) (g : Hash) (w₀ : World)
    (blocks : KvStore Hash Block) (acc : Reapplied P) : Prop where
  world : ChainState rt policy g w₀ blocks acc.tip acc.executor.db.toWorld
  dirty : acc.executor.db.DirtyStored
  snaps : ∀ s ∈ acc.snaps, ChainState rt policy g w₀ blocks ⟨s.2.1, s.1⟩ s.2.2.toWorld ∧
    s.2.2.DirtyStored

namespace ReappliedStates
variable {st : StorageManager} {acc done : Reapplied P} (h : ReappliedStates rt policy g w₀ blocks acc)
include hfix h

theorem reapplyBlock (hl : LinkedFrom blocks acc.tip.hash (b :: bs))
    (hx : reapplyBlock rt hooks st b acc = .ok done) :
    ReappliedStates rt policy g w₀ blocks done := by
  unfold Node.reapplyBlock at hx
  split at hx
  · cases hx
  rename_i receipts ex st' happly
  obtain ⟨hworld, hdirty⟩ := applyBlockInner_world rfl h.dirty happly
  rw [nextWorld_policy hfix _ policy] at hworld
  have hnew := h.world.next hl hworld
  obtain ⟨ex', hsync, rfl⟩ := Result.map_eq_ok.mp hx
  have hdb := resyncPolicy_db hsync
  refine ⟨?_, ?_, fun s hs => ?_⟩
  · simp only [hdb]
    exact hnew
  · simp only [hdb]
    exact hdirty
  · rcases List.mem_append.mp hs with hs | hs
    · exact h.snaps s hs
    · obtain rfl := List.mem_singleton.mp hs
      exact ⟨hnew, hdirty⟩

theorem reapplyBranch (hl : LinkedFrom blocks acc.tip.hash bs)
    (hx : reapplyBranch rt hooks st bs acc = .ok done) :
    ReappliedStates rt policy g w₀ blocks done := by
  fun_induction Node.reapplyBranch rt hooks st bs acc with
  | case1 =>
    cases hx
    exact h
  | case2 => cases hx
  | case3 b bs acc acc' hblock ih =>
    obtain ⟨htip, -⟩ := reapplyBlock_ok hblock
    refine ih (h.reapplyBlock hfix hl hblock) ?_ hx
    rw [htip]
    exact hl.2.2.2

end ReappliedStates

namespace Refined

variable (h : Refined rt policy g w₀ app)
include h

theorem effectiveFloor {walkBelowRing : Bool} {floor : UInt64}
    (hf : app.effectiveFloor walkBelowRing = (floor, app')) : Refined rt policy g w₀ app' := by
  obtain ⟨hst, hex, hstate, -⟩ := effectiveFloor_frame hf
  exact h.of_same hst hex hstate

include hfix

variable {outcome : ReorgOutcome} {faults : ReorgFaults}

theorem executeReorg {newTip : Hash} {plan : ReorgPlan} (hrestore : faults.restore = none)
    (hsnap : app.state.snapshots[plan.fork.height]? = some (plan.fork.hash, plan.base))
    (hl : LinkedFrom app.blocks plan.fork.hash plan.branch)
    (hx : app.executeReorg rt hooks faults newTip plan = (outcome, app')) :
    Refined rt policy g w₀ app' := by
  obtain ⟨-, hbase, hbaseDirty⟩ := h.ring _ _ hsnap
  unfold CanonicalApplicator.executeReorg at hx
  simp only [hrestore] at hx
  split at hx
  · cases hx
    exact h.abortReorg rfl (.inr h.store.world)
  rename_i atFork ex hrevert
  have hatFork := reconcile_blocks hrevert
  have hforkState : Reflects atFork.state plan.base.toWorld :=
    reconcile_reflects (.inl h.store.world) hrevert
  obtain rfl := (Prod.mk.inj hrevert).2
  split at hx
  · cases hx
    exact h.abortReorg hatFork (.inl hforkState)
  rename_i done hdone
  split at hx
  · cases hx
    exact h.abortReorg hatFork (.inl hforkState)
  rename_i st ex' hcommit
  cases hx
  obtain ⟨seeded, hseed, hreapply⟩ := Result.bind_eq_ok.mp hdone
  have hseeded : ReappliedStates rt policy g w₀ app.blocks { executor := seeded, tip := plan.fork } := by
    have hdb := seedPolicy_db hseed
    refine ⟨?_, ?_, nofun⟩
    · simp only [hdb]
      exact hbase
    · simp only [hdb]
      exact hbaseDirty
  have hstates := hseeded.reapplyBranch hfix hl hreapply
  have hst := reconcile_reflects (.inl hforkState) hcommit
  have hblocks : (st.blocks.putAppliedTip done.tip).blocks = app.blocks :=
    ((BlockStore.putAppliedTip_blocks _ _).trans (reconcile_blocks hcommit)).trans hatFork
  obtain rfl := (Prod.mk.inj hcommit).2
  refine ⟨?_, ?_, ⟨?_, rfl⟩, fun k e he => ?_⟩
  · rw [blocks, hblocks, foldl_maybeSyncRegistry_db]
    exact hstates.world
  · rw [foldl_maybeSyncRegistry_db]
    exact hstates.dirty
  · rw [foldl_maybeSyncRegistry_db]
    exact hst
  · rw [blocks, hblocks]
    obtain ⟨he, hwindow⟩ := TreeMap.getElem?_filter_eq_some.mp he
    simp only [Bool.and_eq_true, decide_eq_true_eq] at hwindow
    refine ⟨hwindow.2, ?_⟩
    rcases TreeMap.getElem?_foldl_insert_eq_some he with hmem | ⟨-, hold⟩
    · exact hstates.snaps _ hmem
    · exact (h.ring k e hold).2

theorem reorgTo {newTip : Hash} (hwf : WellFormed g app.blocks) (hrestore : faults.restore = none)
    (hx : app.reorgTo rt hooks faults newTip = (outcome, app')) : Refined rt policy g w₀ app' := by
  unfold CanonicalApplicator.reorgTo at hx
  split at hx
  · rename_i app₁ hplan
    cases hx
    rcases planReorg_error hplan with rfl | ⟨floor, hfloor⟩
    · exact h
    · exact h.effectiveFloor hfloor
  rename_i plan app₁ hplan
  obtain ⟨hfloor, -, hsnap, -, -⟩ := planReorg_ok hplan
  obtain ⟨hst, -, hstate, -⟩ := effectiveFloor_frame hfloor
  refine (h.effectiveFloor hfloor).executeReorg hfix hrestore ?_ ?_ hx
  · rw [hstate]
    exact hsnap
  · rw [blocks, hst]
    exact planReorg_linked hwf hplan

end Refined

theorem ChainState.folded (h₀ : w₀.fold rt.rules = w₀) (h : ChainState rt policy g w₀ blocks x w) :
    w.fold rt.rules = w := by
  obtain ⟨bs, -, -, hexec⟩ := h
  induction bs generalizing w₀ with
  | nil =>
    cases hexec
    exact h₀
  | cons b bs ih =>
    obtain ⟨_, hb, hexec⟩ := Result.bind_eq_ok.mp hexec
    obtain ⟨w₁, -, rfl⟩ := Result.map_eq_ok.mp hb
    exact ih (World.fold_fold rt.rules w₁) hexec

/-- Executed in order from `w`, each block leaves every storage root folded by its own effects. -/
def ReplaysFolded (rt : Runtime P) (policy : P) (w : World) : List Block → Prop
  | [] => True
  | b :: bs => ∀ w', rt.executed policy w b = .ok w' →
      w'.fold rt.rules = w' ∧ ReplaysFolded rt policy w' bs

theorem executed_policy (hfix : ∀ p q, rt.execute p = rt.execute q) (p q : P) (w : World)
    (b : Block) : rt.executed p w b = rt.executed q w b := by
  simp only [Runtime.executed, hfix p q]

namespace Refined

variable (h : Refined rt policy g w₀ app)
include h

theorem rollbackRebuild {now : CanonicalApplicator P} {fault : Option String}
    {index : ReceiptIndexBatch} (hb : now.blocks = app.blocks)
    (hnow : Reflects now.storage.state now.executor.db.toWorld)
    (hx : CanonicalApplicator.rollbackRebuild rt fault app now index = (.ok (), app')) :
    Refined rt policy g w₀ app' := by
  unfold CanonicalApplicator.rollbackRebuild at hx
  split at hx
  · rename_i st ex hrec
    have hblocks := (reconcile_blocks hrec).trans hb
    obtain ⟨htip, -, -⟩ := reconcile_frame hrec
    have hreflects := reconcile_reflects (.inl hnow) hrec
    obtain rfl := (Prod.mk.inj hrec).2
    cases hx
    exact h.of_frame hblocks rfl rfl h.dirty ⟨hreflects, htip⟩
  · cases hx

theorem executorRoot (h₀ : w₀.fold rt.rules = w₀) :
    Refined rt policy g w₀ (app.executorRoot rt).2 := by
  have hfold : (app.executorRoot rt).2.executor.db.toWorld = app.executor.db.toWorld :=
    h.world.folded h₀
  refine h.of_frame rfl rfl hfold ?_ ⟨?_, h.store.tip⟩
  · exact (StateDb.Tracks.of_clean h.dirty).calculateStateRoot.dirty
  · rw [hfold]
    exact h.store.world

theorem headRootOk (h₀ : w₀.fold rt.rules = w₀) {head : Hash} {ok : Bool}
    (hx : CanonicalApplicator.headRootOk rt app head = (ok, app')) : Refined rt policy g w₀ app' := by
  unfold CanonicalApplicator.headRootOk at hx
  split at hx
  · cases hx
    exact h
  · cases hx
    exact h.executorRoot h₀

include hfix

theorem replaySpine {fault : Hash → Option String} {k n : ℕ}
    (hl : LinkedFrom app.blocks app.state.tip.hash bs)
    (hreplay : ReplaysFolded rt policy app.executor.db.toWorld bs)
    (hx : replaySpine rt hooks fault bs k app = (n, app')) :
    Refined rt policy g w₀ app' := by
  fun_induction CanonicalApplicator.replaySpine rt hooks fault bs k app with
  | case1 =>
    cases hx
    exact h
  | case2 b bs k app out ex st happly ih =>
    have hblocks := applyBlockInner_blocks happly
    obtain ⟨hworld, hdirty⟩ := applyBlockInner_world rfl h.dirty happly
    rw [nextWorld_policy hfix _ policy] at hworld
    obtain ⟨w', hw', hpost⟩ := Result.map_eq_ok.mp hworld
    obtain ⟨hfold, hrest⟩ := hreplay w' hw'
    obtain ⟨hst, -⟩ := applyBlockInner_committed h.dirty h.store.world (.inr fun w₁ hw₁ => by
        rw [executed_policy hfix _ policy, hw', Except.ok.injEq] at hw₁
        rw [← hw₁, hfold]) happly
    refine ih (h.recordApplied hooks hblocks hl hworld hdirty hst) ?_ ?_ hx
    · rw [CanonicalApplicator.blocks, CanonicalApplicator.recordApplied]
      simp only [BlockStore.putAppliedTip_blocks, hblocks]
      exact hl.2.2.2
    · simp only [CanonicalApplicator.recordApplied, maybeSyncRegistry_db, ← hpost, hfold]
      exact hrest
  | case3 _ _ _ _ _ _ _ happly =>
    obtain ⟨rfl, code, rfl⟩ := applyBlockInner_error happly
    cases hx
    exact h.orphanCode code

end Refined

structure HoldsGenesis (g : Hash) (w₀ : World) (app : CanonicalApplicator P) : Prop where
  world : app.executor.db.toWorld = w₀
  dirty : app.executor.db.DirtyStored
  store : Reflects app.storage.state w₀
  tip : app.storage.blocks.appliedTip = some ⟨g, 0⟩

theorem HoldsGenesis.executorRoot (h₀ : w₀.fold rt.rules = w₀) (h : HoldsGenesis g w₀ app) :
    HoldsGenesis g w₀ (app.executorRoot rt).2 where
  __ := h
  world := by
    change app.executor.db.toWorld.fold rt.rules = w₀
    rw [h.world, h₀]
  dirty := (StateDb.Tracks.of_clean h.dirty).calculateStateRoot.dirty

theorem HoldsGenesis.refined (h : HoldsGenesis g w₀ app) {db : StateDb} (hdb : db.toWorld = w₀)
    (hdirty : db.DirtyStored) : Refined rt policy g w₀ { app with
      state := ⟨⟨g, 0⟩, (∅ : ExtTreeMap UInt64 (Hash × StateDb)).insert 0 (g, db)⟩ } := by
  refine ⟨?_, h.dirty, ⟨?_, h.tip⟩, fun k e he => ?_⟩
  · simp only [h.world]
    exact .genesis
  · simp only [h.world]
    exact h.store
  · rcases TreeMap.getElem?_insert_eq_some.mp he with ⟨rfl, rfl⟩ | ⟨-, he⟩
    · have hwindow : Word.saturatingSub 0 maxReorgDepth ≤ 0 := by decide
      refine ⟨hwindow, ?_, hdirty⟩
      rw [hdb]
      exact .genesis
    · simp at he

namespace Refined

variable {call : RecoveryCall P} (h : Refined rt policy g w₀ app)
include h

theorem cleanupInterrupted {fault : ℕ → Option String} {r : Except String Unit}
    (hx : app.cleanupInterrupted fault = (r, app')) :
    Refined rt policy g w₀ app' := by
  unfold CanonicalApplicator.cleanupInterrupted at hx
  split at hx
  · cases hx
    exact h
  rename_i batches _
  rcases hput : putReceiptBatches fault 0 batches app.storage with ⟨r', st⟩
  obtain ⟨hb, hs⟩ := putReceiptBatches_frame hput
  have hst : Refined rt policy g w₀ { app with storage := st } := by
    refine h.of_frame (congrArg BlockStore.blocks hb) rfl rfl h.dirty ⟨?_, ?_⟩
    · simp only [hs]
      exact h.store.world
    · simp only [hb]
      exact h.store.tip
  rw [hput] at hx
  cases r' with
  | ok u | error e =>
    cases hx
    exact hst

variable {head : Hash}

include hfix in
theorem recoverInPlace {fork : AppliedTip} {r : Option (Except String Bool)}
    (hwf : WellFormed g app.blocks) (hrestore : call.faults.reorg.restore = none)
    (hx : app.recoverInPlace rt call head fork = (r, app')) :
    Refined rt policy g w₀ app' ∧ app'.blocks = app.blocks := by
  revert hx
  fun_cases app.recoverInPlace rt call head fork with
  | case1 | case7 =>
    rintro ⟨⟩
    exact ⟨h, rfl⟩
  | case2 _ _ _ _ _ _ _ _ hreorg | case3 _ _ _ _ _ _ hreorg | case4 _ _ _ _ hreorg =>
    rintro ⟨⟩
    exact ⟨h.reorgTo hfix hwf hrestore hreorg, reorgTo_blocks hreorg⟩
  | case5 _ _ _ _ _ hreorg _ _ hfloor | case6 _ _ _ _ _ hreorg _ _ hfloor =>
    rintro ⟨⟩
    refine ⟨(h.reorgTo hfix hwf hrestore hreorg).effectiveFloor hfloor, ?_⟩
    rw [blocks, (effectiveFloor_frame hfloor).1]
    exact reorgTo_blocks hreorg

variable (hg : call.genesisHash = g) (hw₀ : call.genesisState.toWorld = w₀)
  (h₀ : w₀.fold rt.rules = w₀) (hdirty : call.genesisState.DirtyStored)
include hw₀ h₀ hdirty

theorem resetToGenesis {plan : SpinePlan} {r : Except (Except String Bool) Unit}
    (hx : app.resetToGenesis rt call plan = (r, app')) :
    (r = .ok () → HoldsGenesis call.genesisHash w₀ app') ∧
      ∀ ok, r = .error (.ok ok) → Refined rt policy g w₀ app' := by
  unfold CanonicalApplicator.resetToGenesis at hx
  simp only at hx
  split at hx
  · cases hx
    exact ⟨nofun, nofun⟩
  rename_i st ex hreset
  have hblocks := reconcile_blocks hreset
  obtain ⟨htip, -, -⟩ := reconcile_frame hreset
  have hst := reconcile_reflects (.inl h.store.world) hreset
  obtain rfl := (Prod.mk.inj hreset).2
  subst hw₀
  generalize hback : ({ app with storage := st, executor := _ } : CanonicalApplicator P) = back at hx
  have hgen : HoldsGenesis call.genesisHash call.genesisState.toWorld back := by
    subst hback
    exact ⟨rfl, hdirty, hst, htip⟩
  have hb : back.blocks = app.blocks := by
    subst hback
    exact hblocks
  rcases hcheck : genesisMismatch rt back plan.genesisRoot with ⟨mismatch, now⟩
  obtain ⟨hnow, hbnow⟩ : HoldsGenesis call.genesisHash call.genesisState.toWorld now ∧
      now.blocks = app.blocks := by
    rcases genesisMismatch_cases hcheck with rfl | rfl
    · exact ⟨hgen, hb⟩
    · exact ⟨hgen.executorRoot h₀, hb⟩
  have hreflects : Reflects now.storage.state now.executor.db.toWorld := hnow.world ▸ hnow.store
  simp only [hcheck] at hx
  split at hx
  · split at hx
    · rename_i hroll
      cases hx
      exact ⟨nofun, fun _ _ => h.rollbackRebuild hbnow hreflects hroll⟩
    · cases hx
      exact ⟨nofun, nofun⟩
  split at hx
  · rename_i st' hput
    obtain ⟨hputb, hputs⟩ := putReceiptBatches_frame hput
    cases hx
    refine ⟨fun _ => ⟨hnow.world, hnow.dirty, ?_, ?_⟩, nofun⟩
    · simp only [hputs]
      exact hnow.store
    · simp only [hputb]
      exact hnow.tip
  · split at hx
    all_goals
      cases hx
      exact ⟨nofun, nofun⟩

include hfix hg

variable {ok : Bool}

theorem replayToHead {now : CanonicalApplicator P} {plan : SpinePlan}
    (hnow : HoldsGenesis g w₀ now) (hb : now.blocks = app.blocks)
    (hl : LinkedFrom app.blocks g plan.spine) (hreplay : ReplaysFolded rt policy w₀ plan.spine)
    (hx : CanonicalApplicator.replayToHead rt call app now head plan = (.ok ok, app')) :
    Refined rt policy g w₀ app' := by
  subst hg
  unfold CanonicalApplicator.replayToHead at hx
  simp only at hx
  have hstart : Refined rt policy call.genesisHash w₀ _ := hnow.refined hw₀ hdirty
  generalize hs : ({ now with state := _ } : CanonicalApplicator P) = start at hx hstart
  have hbs : start.blocks = app.blocks := by
    rw [← hs]
    exact hb
  rcases hrep : CanonicalApplicator.replaySpine rt call.hooks call.faults.apply plan.spine 0 start with
    ⟨replayed, done⟩
  have hdone := hstart.replaySpine hfix (by rw [hbs, ← hs]; exact hl)
    (by rw [← hs]; simp only [hnow.world]; exact hreplay) hrep
  have hbdone := (CanonicalApplicator.replaySpine_blocks hrep).trans hbs
  rcases hok : CanonicalApplicator.headRootOk rt done head with ⟨reached, done'⟩
  have hdone' := hdone.headRootOk h₀ hok
  have hbdone' := (CanonicalApplicator.headRootOk_sameChain hok).1.blocks.trans hbdone
  simp only [hrep, hok] at hx
  cases reached with
  | false =>
    simp only at hx
    split at hx
    · rename_i hroll
      cases hx
      exact h.rollbackRebuild hbdone' hdone'.store.world hroll
    · cases hx
  | true =>
    cases hx
    refine hdone'.of_frame ?_ rfl rfl hdone'.dirty ⟨?_, ?_⟩
    · rw [blocks, clearRebuildMarker_blocks, BlockStore.putAppliedTip_blocks]
    · rw [clearRebuildMarker_state]
      exact hdone'.store.world
    · rw [clearRebuildMarker_blocks]
      rfl

theorem rebuildFromGenesis (hwf : WellFormed g app.blocks)
    (hreplay : ∀ spine, LinkedFrom app.blocks g spine → (lastPosition ⟨g, 0⟩ spine).hash = head →
      ReplaysFolded rt policy w₀ spine)
    (hx : app.rebuildFromGenesis rt call head = (.ok ok, app')) : Refined rt policy g w₀ app' := by
  subst hg
  unfold rebuildFromGenesis at hx
  rcases hfloor : app.effectiveFloor true with ⟨floor, app₁⟩
  have h₁ := h.effectiveFloor hfloor
  obtain ⟨hst, -, -, -⟩ := effectiveFloor_frame hfloor
  rw [blocks, ← hst] at hwf hreplay
  simp only [hfloor] at hx
  split at hx
  · cases hx
    exact h₁
  split at hx
  · cases hx
  · cases hx
    exact h₁
  rename_i plan hplan
  obtain ⟨hl, hhead⟩ := planSpine_linked hwf hplan
  split at hx
  · rename_i hreset
    cases hx
    exact (h₁.resetToGenesis hw₀ h₀ hdirty hreset).2 ok rfl
  · rename_i now hreset
    have hnow := (h₁.resetToGenesis hw₀ h₀ hdirty hreset).1 rfl
    have hb := (resetToGenesis_sameChain hreset).blocks
    exact h₁.replayToHead hfix rfl hw₀ h₀ hdirty hnow hb hl (hreplay _ hl hhead) hx

theorem recoverToHeadInner (hwf : WellFormed g app.blocks)
    (hrestore : call.faults.reorg.restore = none)
    (hreplay : ∀ head, call.forkChoice = some head → ∀ spine, LinkedFrom app.blocks g spine →
      (lastPosition ⟨g, 0⟩ spine).hash = head → ReplaysFolded rt policy w₀ spine)
    (hx : app.recoverToHeadInner rt call = (.ok ok, app')) : Refined rt policy g w₀ app' := by
  unfold CanonicalApplicator.recoverToHeadInner at hx
  split at hx
  · cases hx
    exact h
  rename_i head hhead
  split at hx
  · cases hx
    exact h
  split at hx
  · cases hx
  rename_i app₁ hclean
  have h₁ := h.cleanupInterrupted hclean
  have hb := (cleanupInterrupted_sameChain hclean).blocks
  have hspine := hreplay head hhead
  rw [← hb] at hwf hspine
  split at hx
  · cases hx
    exact h₁
  split at hx
  · cases hx
    exact h₁
  split at hx
  · exact h₁.rebuildFromGenesis hfix hg hw₀ h₀ hdirty hwf hspine hx
  split at hx
  · rename_i hplace
    cases hx
    exact (h₁.recoverInPlace hfix hwf hrestore hplace).1
  · rename_i app₂ hplace
    obtain ⟨h₂, hb₂⟩ := h₁.recoverInPlace hfix hwf hrestore hplace
    rw [← hb₂] at hwf hspine
    exact h₂.rebuildFromGenesis hfix hg hw₀ h₀ hdirty hwf hspine hx

end Refined

/-- A process in the genesis state: memory, store and ring hold `genesis`, whose storage roots are
folded. -/
structure FromGenesis (rt : Runtime P) (g : Hash) (genesis : StateDb) (p : Process P) : Prop where
  booted : Booted g p
  db : p.app.executor.db = genesis
  state : p.app.state = ⟨⟨g, 0⟩, (∅ : ExtTreeMap UInt64 (Hash × StateDb)).insert 0 (g, genesis)⟩
  store : StoreReflects p.app
  folded : genesis.fold rt.rules = genesis.toWorld
  dirty : genesis.DirtyStored

/-- The store batch that restores an aborted reorg succeeds, and a recovery starts over from the
genesis state of the process and succeeds. -/
def Admissible (rt : Runtime P) (genesis : StateDb) (p : Process P) : ProcessEvent P → Prop
  | .reorgTo _ faults _ => faults.restore = none
  | .recover call => call.genesisState = genesis ∧ call.faults.reorg.restore = none ∧
      ∃ ok, (p.app.recoverToHeadInner rt call).1 = .ok ok
  | _ => True

/-- Each block of the chain a recovery may replay leaves every storage root folded by its own
effects. -/
def FoldedReplay (rt : Runtime P) (policy : P) (g : Hash) (genesis : StateDb) (p : Process P) :
    ProcessEvent P → Prop
  | .recover call => ∀ head, call.forkChoice = some head → ∀ spine, LinkedFrom p.app.blocks g spine →
      (lastPosition ⟨g, 0⟩ spine).hash = head → ReplaysFolded rt policy genesis.toWorld spine
  | _ => True

section Runs
variable {genesis : StateDb} {p p' p₀ : Process P} {e : ProcessEvent P} {es : List (ProcessEvent P)}

theorem FromGenesis.refined (h : FromGenesis rt g genesis p) :
    Refined rt policy g genesis.toWorld p.app := by
  have hheld : HoldsGenesis g genesis.toWorld p.app := by
    refine ⟨?_, ?_, ?_, ?_⟩
    · rw [h.db]
    · rw [h.db]
      exact h.dirty
    · rw [← h.db]
      exact h.store.world
    · rw [h.store.tip, h.state]
  have hrefined : Refined rt policy g genesis.toWorld _ := hheld.refined rfl h.dirty
  rwa [← h.state] at hrefined

theorem Refined.step (hfix : ∀ p q, rt.execute p = rt.execute q)
    (h₀ : genesis.fold rt.rules = genesis.toWorld) (hdirty : genesis.DirtyStored)
    (hc : FloorSafe g p) (h : Refined rt policy g genesis.toWorld p.app)
    (hs : ProcessStep rt g p e p') (ha : Admissible rt genesis p e)
    (hf : FoldedReplay rt policy g genesis p e) :
    Refined rt policy g genesis.toWorld p'.app := by
  cases hs with
  | storeBlock hs => exact h.storeBlock hs
  | drainForward => exact h.drainLoop hfix hc.chain rfl
  | reorgTo => exact h.reorgTo hfix hc.chain.wf ha rfl
  | recover hg =>
    obtain ⟨rfl, hrestore, ok, hok⟩ := ha
    have hx : p.app.recoverToHeadInner rt _ = (.ok ok, _) := Prod.ext hok rfl
    exact h.recoverToHeadInner hfix hg rfl h₀ hdirty hc.chain.wf hrestore hf hx
  | produceBlock hs => exact h.produceBlock hfix hs
  | registerCertified =>
    obtain ⟨hst, hex, hstate⟩ := p.app.registerCertified_frame _ _
    exact h.of_same hst hex hstate
  | settleRegisteredFloor => exact h.effectiveFloor rfl
  | beginVerify hid => exact h
  | verifyStep hid =>
    obtain ⟨hst, hex, hstate⟩ := p.app.verifyStep_frame _
    exact h.of_same hst hex hstate

/-- In every run from genesis in which a recovery replays only blocks that leave the storage roots
folded, memory and store hold the state of the applied chain, the durable tip is the applied tip, and
the ring holds, within its window, ancestors of the tip with their states. -/
theorem applied_state_refinement (hfix : ∀ p q, rt.execute p = rt.execute q) (policy : P)
    (h₀ : FromGenesis rt g genesis p₀)
    (hr : Runs (fun p e p' => (ProcessStep rt g p e p' ∧ Admissible rt genesis p e) ∧
      FoldedReplay rt policy g genesis p e) p₀ es p) :
    ChainState rt policy g genesis.toWorld p.app.blocks p.app.state.tip p.app.executor.db.toWorld ∧
      Reflects p.app.storage.state p.app.executor.db.toWorld ∧
      p.app.storage.blocks.appliedTip = some p.app.state.tip ∧
      ∀ h hash snapshot, p.app.state.snapshots[h]? = some (hash, snapshot) →
        Word.saturatingSub p.app.state.tip.height maxReorgDepth ≤ h ∧ h ≤ p.app.state.tip.height ∧
        OnChain p.app.blocks p.app.state.tip ⟨hash, h⟩ ∧
        ChainState rt policy g genesis.toWorld p.app.blocks ⟨hash, h⟩ snapshot.toWorld := by
  obtain ⟨hsafe, hrefined⟩ := hr.invariant
    (P := fun p => FloorSafe g p ∧ Refined rt policy g genesis.toWorld p.app)
    ⟨h₀.booted.floorSafe, h₀.refined⟩ fun t a u ⟨hsafe, hrefined⟩ ⟨⟨hs, ha⟩, hf⟩ => by
      obtain ⟨hadv, hcalls⟩ := hsafe.step_advances hs
      exact ⟨hsafe.advance hadv hcalls, hrefined.step hfix h₀.folded h₀.dirty hsafe hs ha hf⟩
  refine ⟨hrefined.world, hrefined.store.world, hrefined.store.tip, fun h hash snapshot he => ?_⟩
  obtain ⟨hwindow, hstate, -⟩ := hrefined.ring h _ he
  have hon := hsafe.chain.ring h hash (Option.map_eq_some_iff.mpr ⟨_, he, rfl⟩)
  exact ⟨hwindow, hon.height_le, hon, hstate⟩

end Runs

/-! A node at genesis whose recovery replays the block above it. -/

def genesisNode : Process Unit :=
  { genesisProcess with
    app := { genesisProcess.app with
      storage := { emptyStorage with
        blocks := { emptyStorage.blocks with appliedTip := some ⟨0, 0⟩ } } } }

def firstStored (b : Block) : Process Unit :=
  { genesisNode with app := genesisNode.app.storeBlock b }

/-- The node's own rebuild to block 1, after its reorg in place could not write the branch. -/
def firstRecovery : RecoveryCall Unit where
  genesisState := {}
  genesisHash := 0
  expected := some 1
  forkChoice := some 1
  forkWeight := some fun h => some (if h = 1 then 1 else 0)
  faults := { reorg := { commit := some "write failed" } }

def firstRebuilt (rt : Runtime Unit) (b : Block) : Process Unit :=
  { firstStored b with app := ((firstStored b).app.recoverToHeadInner rt firstRecovery).2 }

theorem genesisNode_fromGenesis (rt : Runtime Unit) : FromGenesis rt 0 {} genesisNode where
  booted :=
    { wf := ⟨nofun, nofun, nofun, nofun⟩
      rooted := .refl
      ring := genesisRing_onChain
      floor := rfl
      raised := rfl
      calls := fun _ => rfl }
  db := rfl
  state := rfl
  store :=
    { world := ⟨fun a => ExtTreeMap.getElem?_empty.symm, fun a key => by
        simp [genesisNode, genesisProcess, emptyStorage, StorageManager.empty, World.getStorage]⟩
      tip := rfl }
  folded := World.fold_of_no_tries rfl
  dirty := nofun

def contractRuntime : Runtime Unit where
  rules := { keccak := fun _ => 5, encodeAccount := fun _ => [], activation := none }
  execute _ _ _ := .ok ([.setBalance 1 1, .setStorage 1 [0] [1]], [])
  encodedLen _ := 0

def contractBlock : Block := { header := { blockHash := 1, height := 1 }, stateRoot := 5 }

theorem rebuild_stores_stale_storage_root : FromGenesis contractRuntime 0 {} genesisNode ∧
      Runs (fun p e p' => ProcessStep contractRuntime 0 p e p' ∧ Admissible contractRuntime {} p e)
        genesisNode [.storeBlock contractBlock, .recover firstRecovery]
        (firstRebuilt contractRuntime contractBlock) ∧
      (firstRebuilt contractRuntime contractBlock).app.state.tip = ⟨1, 1⟩ ∧
      (firstRebuilt contractRuntime contractBlock).app.executor.db.accounts[(1 : Address)]? =
        some { balance := 1, storageRoot := 5 } ∧
      (firstRebuilt contractRuntime contractBlock).app.storage.state.accounts 1 =
        some { balance := 1, storageRoot := 0 } := by
  refine ⟨genesisNode_fromGenesis _, .step (.step .refl ⟨.storeBlock ?_, trivial⟩)
    ⟨.recover rfl, rfl, rfl, true, by decide⟩, by decide⟩
  exact storable_of_empty (fun _ => rfl) rfl (by decide) (by decide)

def paidRuntime : Runtime Unit :=
  { contractRuntime with execute := fun _ _ _ => .ok ([.setBalance 1 1], []) }

theorem paid_replaysFolded (h : w.storageTries = ∅) (bs : List Block) :
    ReplaysFolded paidRuntime () w bs := by
  induction bs generalizing w with
  | nil => trivial
  | cons b bs ih =>
    intro w' hw'
    cases hw'
    exact ⟨World.fold_of_no_tries h, ih h⟩

theorem applied_state_refinement_first_block :
    (firstRebuilt paidRuntime contractBlock).app.state.tip = ⟨1, 1⟩ ∧
      (firstRebuilt paidRuntime contractBlock).app.executor.db.accounts[(1 : Address)]? =
        some { balance := 1 } ∧
      ChainState paidRuntime () 0 {} (firstRebuilt paidRuntime contractBlock).app.blocks ⟨1, 1⟩
        (firstRebuilt paidRuntime contractBlock).app.executor.db.toWorld := by
  have htip : (firstRebuilt paidRuntime contractBlock).app.state.tip = ⟨1, 1⟩ := by decide
  have hs : Storable 0 genesisNode.app contractBlock :=
    storable_of_empty (fun _ => rfl) rfl (by decide) (by decide)
  have hr : Runs (fun p e p' => (ProcessStep paidRuntime 0 p e p' ∧ Admissible paidRuntime {} p e) ∧
      FoldedReplay paidRuntime () 0 {} p e) genesisNode
      [.storeBlock contractBlock, .recover firstRecovery] (firstRebuilt paidRuntime contractBlock) :=
    .step (.step .refl ⟨⟨.storeBlock hs, trivial⟩, trivial⟩)
      ⟨⟨.recover rfl, rfl, rfl, true, by decide⟩,
        fun _ _ spine _ _ => paid_replaysFolded rfl spine⟩
  have href := applied_state_refinement (fun _ _ => rfl) () (genesisNode_fromGenesis paidRuntime) hr
  exact ⟨htip, by decide, htip ▸ href.1⟩

end CitrateChain.Node
