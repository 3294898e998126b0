import CitrateChain.Node.FloorSafety

/-! # Atomicity of a reorg

A reorg that is not adopted leaves memory, policy, ring and store as they were. The store is moved
by two differences, to the fork point and back; the receipts by a removal and a restore batch, which
puts back every receipt that can be read. -/
namespace CitrateChain.Node
open Std (ExtTreeMap)
open Relation (ReflTransGen)
open Consensus (Hash Block)
open Execution Storage CanonicalApplicator

variable {P : Type} {rt : Runtime P} {app app' pre : CanonicalApplicator P} {plan : ReorgPlan}

def AppliedTransaction (blocks : KvStore Hash Block) (tip : Hash) (e : Hash × Hash) : Prop :=
  ReflTransGen (fun x y => ∃ b, blocks x = some b ∧ y = b.selectedParent) tip e.1 ∧
    ∃ b, blocks e.1 = some b ∧ ∃ tx ∈ b.transactions, tx.hash = e.2

variable {acc : ReceiptIndexBatch × ReceiptIndexBatch}

theorem restores_abandonBlock {idx : ReceiptIndex} (h : idx.Restores acc.1 acc.2) (cursor : Hash)
    (b : Block) :
    idx.Restores (abandonBlock idx cursor b acc).1 (abandonBlock idx cursor b acc).2 where
  abandonOnly := by
    simp only [abandonBlock]
    rw [h.abandonOnly]
  restoreOnly := by
    simp only [abandonBlock]
    rw [h.restoreOnly]
  stored r hr := by
    simp only [abandonBlock, List.mem_append, List.mem_filter, List.mem_filterMap, List.mem_map,
      decide_eq_true_eq] at hr ⊢
    rcases hr with hr | ⟨⟨tx, htx, hread⟩, rfl⟩
    · obtain ⟨hs, hrem⟩ := h.stored r hr
      exact ⟨hs, .inl hrem⟩
    · rw [ReceiptIndex.readReceipt_eq_some] at hread
      rw [idx.keyed _ _ hread]
      exact ⟨hread, .inr ⟨tx, htx, rfl⟩⟩
  complete e he r hr hblock := by
    simp only [abandonBlock, List.mem_append, List.mem_filter, List.mem_filterMap, List.mem_map,
      decide_eq_true_eq] at he ⊢
    rcases he with he | ⟨tx, htx, rfl⟩
    · exact .inl (h.complete e he r hr hblock)
    · exact .inr ⟨⟨tx, htx, ReceiptIndex.readReceipt_eq_some.mpr hr⟩, hblock⟩

variable {st : StorageManager}

theorem abandonedReceiptIndex_restores {abandoned : Block → Bool} {start cursor tip : Hash}
    {maxBlocks n : ℕ} {k : UInt64} {base : Option AppliedTip}
    {abandon restore : ReceiptIndexBatch} (hacc : st.receipts.Restores acc.1 acc.2)
    (hcursor : ReflTransGen (fun x y => ∃ b, st.blocks.blocks x = some b ∧ y = b.selectedParent) tip cursor)
    (hrem : ∀ e ∈ acc.1.removals, AppliedTransaction st.blocks.blocks tip e)
    (h : abandonedReceiptIndex st abandoned start maxBlocks n cursor k acc = .ok (abandon, restore, base)) :
    st.receipts.Restores abandon restore ∧
      ∀ e ∈ abandon.removals, AppliedTransaction st.blocks.blocks tip e := by
  fun_induction abandonedReceiptIndex st abandoned start maxBlocks n cursor k acc with
  | case1 n cursor k acc hb | case2 n cursor k acc b hb hkept =>
    obtain ⟨rfl, rfl, -⟩ := by simpa only [Except.ok.injEq, Prod.mk.injEq] using h
    exact ⟨hacc, hrem⟩
  | case3 | case4 => cases h
  | case5 cursor k acc b hb hgone n h0 ih =>
    refine ih (restores_abandonBlock hacc cursor b) (hcursor.tail ⟨b, hb, rfl⟩) (fun e he => ?_) h
    rcases List.mem_append.mp he with he | he
    · exact hrem e he
    · obtain ⟨tx, htx, rfl⟩ := List.mem_map.mp he
      exact ⟨hcursor, b, hb, tx, htx, rfl⟩

def ReorgOutcome.isReorged : ReorgOutcome → Bool
  | .reorged _ _ _ _ => true
  | _ => false

structure Untouched (app app' : CanonicalApplicator P) : Prop where
  world : app'.executor.db.toWorld = app.executor.db.toWorld
  rewardPolicy : app'.executor.rewardPolicy = app.executor.rewardPolicy
  accounts : app'.storage.state.accounts = app.storage.state.accounts
  slots : app'.storage.state.slots = app.storage.state.slots
  undo : app'.storage.state.undo = app.storage.state.undo
  appliedTip : app'.storage.blocks.appliedTip = app.storage.blocks.appliedTip
  state : app'.state = app.state
  receipts : app.storage.receipts.KeptBut
    (AppliedTransaction app.blocks app.state.tip.hash) app'.storage.receipts

theorem Untouched.of_frame (hst : app'.storage = app.storage) (hex : app'.executor = app.executor)
    (hstate : app'.state = app.state) : Untouched app app' := by
  cases app'
  cases hst
  cases hex
  cases hstate
  exact ⟨rfl, rfl, rfl, rfl, rfl, rfl, rfl, .refl _ _⟩

/-- The store reflects the state the executor holds, as of the applied tip. -/
structure StoreReflects (app : CanonicalApplicator P) : Prop where
  world : Reflects app.storage.state app.executor.db.toWorld
  tip : app.storage.blocks.appliedTip = some app.state.tip

theorem Reflects.unique {s s' : StateStore} {w : World} (h : Reflects s w) (h' : Reflects s' w) :
    s'.accounts = s.accounts ∧ s'.slots = s.slots := by
  refine ⟨funext fun a => ?_, funext fun slot => ?_⟩
  · rw [h.accounts, h'.accounts]
  · obtain ⟨a, key⟩ := slot
    rw [h.slots, h'.slots]

theorem abortReorg_restored (hr : StoreReflects pre)
    (hst : Reflects st.state plan.base.toWorld ∨ Reflects st.state pre.executor.db.toWorld)
    (hundo : st.state.undo = pre.storage.state.undo)
    (hreceipts : pre.storage.receipts.KeptBut (AppliedTransaction pre.blocks pre.state.tip.hash)
      (st.receipts.stageReceiptIndex plan.restore)) :
    Untouched pre (abortReorg rt none pre plan st) := by
  rcases hrec : Executor.reconcileStoreFromWithUndo rt pre.executor st plan.base.toWorld
    pre.state.tip plan.restore [] none with ⟨_ | st', ex⟩
  · cases hrec
  obtain ⟨htip, hidx, hundo'⟩ := Executor.reconcile_frame hrec
  obtain ⟨haccounts, hslots⟩ := Reflects.unique hr.world (Executor.reconcile_reflects hst hrec)
  have hex : ex = { pre.executor with db.dirtyCode := [] } := (Prod.mk.inj hrec).2.symm
  rw [abortReorg, hrec]
  refine ⟨?_, ?_, haccounts, hslots, (hundo' rfl).trans hundo, htip.trans hr.tip.symm, rfl, ?_⟩
  · rw [hex]
  · rw [hex]
  · exact hidx ▸ hreceipts

theorem planReorg_restores {newTip : Hash} (h : app.planReorg newTip = (.ok plan, app')) :
    app.storage.receipts.Restores plan.abandon plan.restore ∧
      ∀ e ∈ plan.abandon.removals, AppliedTransaction app.blocks app.state.tip.hash e := by
  obtain ⟨-, -, -, -, hwalk⟩ := planReorg_ok h
  have hnone : app.storage.receipts.Restores {} {} :=
    ⟨rfl, rfl, nofun, nofun⟩
  exact abandonedReceiptIndex_restores hnone .refl (fun _ he => (List.not_mem_nil he).elim) hwalk

theorem executeReorg_untouched {hooks : RegistryHooks P} {faults : ReorgFaults} {newTip : Hash}
    {outcome : ReorgOutcome} (hr : StoreReflects app) (hrestore : faults.restore = none)
    (hplan : app.storage.receipts.Restores plan.abandon plan.restore)
    (hrem : ∀ e ∈ plan.abandon.removals, AppliedTransaction app.blocks app.state.tip.hash e)
    (hx : app.executeReorg rt hooks faults newTip plan = (outcome, app'))
    (hout : outcome.isReorged = false) : Untouched app app' := by
  unfold executeReorg at hx
  simp only [hrestore] at hx
  split at hx
  · cases hx
    exact abortReorg_restored hr (.inr hr.world) rfl (hplan.keptBut_untouched _)
  rename_i atFork ex hrevert
  obtain ⟨-, hidx, hundo⟩ := Executor.reconcile_frame hrevert
  have hbase : Reflects atFork.state plan.base.toWorld :=
    Executor.reconcile_reflects (.inl hr.world) hrevert
  have hkept : app.storage.receipts.KeptBut (AppliedTransaction app.blocks app.state.tip.hash)
      (atFork.receipts.stageReceiptIndex plan.restore) := by
    rw [hidx]
    exact hplan.keptBut.mono hrem
  split at hx
  · cases hx
    exact abortReorg_restored hr (.inl hbase) (hundo rfl) hkept
  split at hx
  · cases hx
    exact abortReorg_restored hr (.inl hbase) (hundo rfl) hkept
  · cases hx
    cases hout

/-- A reorg that is not adopted changes nothing that was applied, in memory or in the store, wherever
it failed; of the receipt index, only entries without a readable receipt of their block can go. -/
theorem reorgTo_atomic {hooks : RegistryHooks P} {faults : ReorgFaults} {newTip : Hash}
    {outcome : ReorgOutcome} (hr : StoreReflects app) (hrestore : faults.restore = none)
    (hx : app.reorgTo rt hooks faults newTip = (outcome, app'))
    (hout : outcome.isReorged = false) : Untouched app app' := by
  unfold reorgTo at hx
  split at hx
  · rename_i app₁ hplan
    cases hx
    rcases planReorg_error hplan with rfl | ⟨floor, hfloor⟩
    · exact .of_frame rfl rfl rfl
    · obtain ⟨hst, hex, hstate, -⟩ := effectiveFloor_frame hfloor
      exact .of_frame hst hex hstate
  · rename_i plan app₁ hplan
    obtain ⟨hfloor, -⟩ := planReorg_ok hplan
    obtain ⟨hrest, hrem⟩ := planReorg_restores hplan
    obtain ⟨hst, hex, hstate, -⟩ := effectiveFloor_frame hfloor
    -- the plan raised the floor at most, so everything it holds is about the same node
    obtain ⟨storage, executor, state, finalizedHeight, certifiedPending, raised⟩ := app₁
    simp only at hst hex hstate
    subst hst hex hstate
    have hr₁ : StoreReflects { app with finalizedHeight, certifiedPending, raised } :=
      ⟨hr.world, hr.tip⟩
    have hun := executeReorg_untouched hr₁ hrestore hrest hrem hx hout
    exact { hun with }

/-- A node that applied block 1 with transaction 7, whose receipt is stored as `stored`; block 2
beside it claims a state root its execution does not give. -/
def forkedNode (stored : StoredReceipt)
    (h : ∀ r, stored = .decoded r → r.txHash = 7 ∧ r.blockHash = 1) : CanonicalApplicator Unit where
  storage :=
    { emptyStorage with
      blocks :=
        { (emptyStorage.blocks.putBlock
            { header := { blockHash := 1, height := 1 }, transactions := [{ hash := 7 }] }).putBlock
            { header := { blockHash := 2, height := 1 }, stateRoot := 5 } with
          appliedTip := some ⟨1, 1⟩ }
      receipts :=
        { emptyStorage.receipts with
          receipts := fun tx => if tx = 7 then some stored else none
          entries := (∅ : PairSet Hash Hash).insert (1, 7) ()
          keyed := fun tx r hr => by
            split at hr
            · rename_i htx
              rw [htx]
              exact (h r (Option.some.inj hr)).1
            · cases hr
          entered := fun tx r hr => by
            split at hr
            · rename_i htx
              rw [htx, (h r (Option.some.inj hr)).2]
              exact ExtTreeMap.mem_insert_self
            · cases hr } }
  executor := ⟨{}, ()⟩
  state := ⟨⟨1, 1⟩, ((∅ : ExtTreeMap UInt64 (Hash × StateDb)).insert 0 (0, {})).insert 1 (1, {})⟩

theorem forkedNode_storeReflects (stored : StoredReceipt)
    (h : ∀ r, stored = .decoded r → r.txHash = 7 ∧ r.blockHash = 1) :
    StoreReflects (forkedNode stored h) where
  world := ⟨fun a => ExtTreeMap.getElem?_empty.symm, fun a key => by
    simp [forkedNode, emptyStorage, StorageManager.empty, World.getStorage]⟩
  tip := rfl

theorem aborted_reorg_drops_unreadable_receipt :
    StoreReflects (forkedNode (.undecodable [1]) nofun) ∧
      (forkedNode (.undecodable [1]) nofun).storage.receipts.receipts 7 = some (.undecodable [1]) ∧
      (((forkedNode (.undecodable [1]) nofun).reorgTo idleRuntime {} {} 2).1.isReorged = false ∧
        ((forkedNode (.undecodable [1]) nofun).reorgTo idleRuntime {} {} 2).2.storage.receipts.receipts
          7 = none) :=
  ⟨forkedNode_storeReflects _ _, by decide, by decide⟩

def firstReceipt : TransactionReceipt := { txHash := 7, blockHash := 1, blockNumber := 1 }

def firstReceiptNode : CanonicalApplicator Unit :=
  forkedNode (.decoded firstReceipt) fun r hr => by
    obtain rfl := StoredReceipt.decoded.inj hr
    exact ⟨rfl, rfl⟩

theorem reorgTo_atomic_bad_root :
    (firstReceiptNode.reorgTo idleRuntime {} {} 2).1.isReorged = false ∧
      Untouched firstReceiptNode (firstReceiptNode.reorgTo idleRuntime {} {} 2).2 := by
  have hout : (firstReceiptNode.reorgTo idleRuntime {} {} 2).1.isReorged = false := by
    decide
  have hx : firstReceiptNode.reorgTo idleRuntime {} {} 2 =
      ((firstReceiptNode.reorgTo idleRuntime {} {} 2).1,
        (firstReceiptNode.reorgTo idleRuntime {} {} 2).2) := Prod.mk.eta.symm
  exact ⟨hout, reorgTo_atomic (forkedNode_storeReflects _ _) rfl hx hout⟩

end CitrateChain.Node
