import CitrateChain.Node.Reorg

/-! # Recovery to the fork-choice head

`recover_to_head_inner`: after the preconditions of a rebuild are established, a fork point inside
the ring is reverted in place; otherwise memory and store are reset to genesis and the head's
selected-parent chain (the spine) is replayed, with one check of the final state root. -/
namespace CitrateChain.Node
open Std (ExtTreeMap)
open Consensus (Hash Block)
open Execution Storage Executor

def maxRecoverySpine : ℕ := 20000000

def receiptReconcileChunk : ℕ := 100000

structure RecoveryFaults where
  cleanup : ℕ → Option String := fun _ => none
  reorg : ReorgFaults := {}
  reset : Option String := none
  residual : ℕ → Option String := fun _ => none
  apply : Hash → Option String := fun _ => none
  restore : Option String := none
  clear : Option String := none

/-- One call: what fork choice, its weights and the pruned DAG answer during it, the hooks, and the
store writes that fail. -/
structure RecoveryCall (P : Type) where
  genesisState : StateDb
  genesisHash : Hash
  expected : Option Hash := none
  forkChoice : Option Hash
  forkWeight : Option (Hash → Option UInt64) := none
  dagPruneFloor : UInt64 := 0
  hooks : RegistryHooks P := {}
  faults : RecoveryFaults := {}

def RecoveryCall.weight {P : Type} (call : RecoveryCall P) (h : Hash) : Option UInt64 :=
  call.forkWeight.bind (· h)

inductive RebuildRefusal
  | onAppliedChain (height : UInt64)
  | descendsFromTip
  | missingAncestor (missing : Hash)
  | notHeavier (head tip : UInt64)
  | unreadable (e : String)

def rebuildFork (s : BlockStore) (st : AppliedState) (genesisHash : Hash) :
    ℕ → Hash → Except RebuildRefusal AppliedTip
  | 0, cursor => .error (.missingAncestor cursor)
  | n + 1, cursor =>
    if cursor = genesisHash then .ok ⟨cursor, 0⟩
    else match s.getHeader cursor with
      | none => .error (.missingAncestor cursor)
      | some header =>
        match isApplied s st cursor header.height with
        | .error e => .error (.unreadable e)
        | .ok true => .ok ⟨cursor, header.height⟩
        | .ok false =>
          if header.height = 0 then .error (.missingAncestor cursor)
          else rebuildFork s st genesisHash n header.selectedParentHash

/-- Whether fork choice ranks `head` above the applied tip: a higher score, or an equal one and the
smaller hash. -/
def outranksTip (forkWeight : Option (Hash → Option UInt64)) (head tip : Hash) :
    Except RebuildRefusal Unit :=
  match forkWeight with
  | none => .ok ()
  | some weight =>
    match weight head, weight tip with
    | none, _ => .error (.notHeavier 0 0)
    | some _, none => .ok ()
    | some h, some t =>
      if t < h ∨ (h = t ∧ head < tip) then .ok () else .error (.notHeavier h t)

structure RebuildPlan where
  fork : AppliedTip
  abandoned : UInt64
  deriving DecidableEq

def rebuildTarget (s : BlockStore) (st : AppliedState) (genesisHash : Hash)
    (forkWeight : Option (Hash → Option UInt64)) (head : Hash) : Except RebuildRefusal RebuildPlan :=
  (rebuildFork s st genesisHash UInt64.size head).bind fun fork =>
    if fork.hash = head then .error (.onAppliedChain fork.height)
    else if fork.hash = st.tip.hash ∧ 0 < st.tip.height then .error .descendsFromTip
    else (outranksTip forkWeight head st.tip.hash).map fun _ =>
      ⟨fork, Word.saturatingSub st.tip.height fork.height⟩

inductive RebuildDecision
  | rebuild
  | refusePruned (floor : UInt64)
  | refuseNotHeavier (head tip : Option UInt64)

def rebuildDecision (belowRing : Bool) (pruneFloor : UInt64) (head tip : Option UInt64)
    (tipHeld : Bool) : RebuildDecision :=
  let heavier : Bool := match head, tip with
    | some hw, some tw => tw < hw
    | some _, none => !tipHeld
    | none, _ => false
  if !heavier then .refuseNotHeavier head tip
  else if belowRing && 0 < pruneFloor then .refusePruned pruneFloor
  else .rebuild

/-- The block applied at the finalized height must be on the head's ancestry. -/
def finalityGuard (s : BlockStore) (tip : AppliedTip) (head : Hash) (floor : UInt64) : Bool :=
  if 0 < floor ∧ floor ≤ tip.height then
    match ancestorHashAtHeight s tip.hash floor with
    | some finalized => headDescendsFrom s head finalized floor
    | none => true
  else true

/-- Every index entry of a block above `durableHeight`, or of a block that is not stored. -/
def receiptIndexAbove (st : StorageManager) (durableHeight : UInt64) : List (Hash × Hash) :=
  st.receipts.entries.keys.filter fun e =>
    match st.blocks.getBlock e.1 with
    | some b => durableHeight < b.height
    | none => true

/-- The walk down the marked old chain and the durable chain to their common ancestor. -/
def interruptedRebuildWalk (st : StorageManager) (old durable : AppliedTip) :
    ℕ → AppliedTip → AppliedTip → List (Hash × Hash) → Except String (List (Hash × Hash))
  | steps, x, y, out =>
    if x.hash = y.hash then .ok out
    else match steps with
      | 0 => .error
          s!"C1-R: receipt cleanup walk from {old.hash} stopped after {maxRecoverySpine} blocks before the common ancestor"
      | steps + 1 =>
        if y.height ≤ x.height then
          match st.blocks.getBlock x.hash with
          | none =>
            if 0 < x.height then .ok (receiptIndexAbove st durable.height) else .ok out
          | some b =>
            let out := out ++ b.transactions.map fun tx => (x.hash, tx.hash)
            if b.height = 0 then .ok out
            else interruptedRebuildWalk st old durable steps
              ⟨b.selectedParent, Word.saturatingSub b.height 1⟩ y out
        else match st.blocks.getBlock y.hash with
          | none => .ok out
          | some b =>
            if b.height = 0 then .ok out
            else interruptedRebuildWalk st old durable steps x
              ⟨b.selectedParent, Word.saturatingSub b.height 1⟩ out

def chunks {α : Type} (size : ℕ) (l : List α) : List (List α) :=
  go l.length l
where
  go : ℕ → List α → List (List α)
    | 0, _ => []
    | _, [] => []
    | n + 1, l => l.take size :: go n (l.drop size)

def removalBatches (removals : List (Hash × Hash)) : List ReceiptIndexBatch :=
  (chunks receiptReconcileChunk removals).map fun removals => { removals }

/-- The batches that finish the receipt side of an unfinished rebuild, the marker cleared with the
last one. -/
def interruptedRebuildCleanup (st : StorageManager) : Except String (List ReceiptIndexBatch) :=
  match st.receipts.reconcileFrom with
  | none => .ok []
  | some marker =>
    match st.blocks.appliedTip with
    | none => .error
        s!"the receipt rebuild marker is set ({marker.1} @ {marker.2}) but no applied tip is stored"
    | some durable =>
      if 0 < durable.height ∧ ¬ st.blocks.hasBlock durable.hash then .ok []
      else
        let old : AppliedTip := ⟨marker.1, marker.2⟩
        (interruptedRebuildWalk st old durable maxRecoverySpine old durable []).map fun removals =>
          let batches := removalBatches removals
          batches.dropLast ++ [(batches.getLast?.getD {}).withMarker .clear]

def putReceiptBatches (fault : ℕ → Option String) :
    ℕ → List ReceiptIndexBatch → StorageManager → Except (ℕ × String) Unit × StorageManager
  | _, [], st => (.ok (), st)
  | i, batch :: rest, st =>
    match fault i with
    | some e => (.error (i, e), st)
    | none => putReceiptBatches fault (i + 1) rest (st.putReceiptIndex batch)

def offChainReceiptIndex (idx : ReceiptIndex) (keep : Hash → Bool) :
    ReceiptIndexBatch × ReceiptIndexBatch :=
  let dropped := idx.entries.keys.filter fun e => !keep e.1
  ({ removals := dropped },
    { receipts := dropped.filterMap fun e =>
        (idx.readReceipt e.2).filter fun r => r.blockHash = e.1 })

/-- The head's ancestry down to a block at height zero or one that is not stored, lowest first, with
the block the walk ended at and whether that is the stored genesis. -/
def spineWalk (s : BlockStore) (genesisHash : Hash) :
    ℕ → Hash → List Block → List Block × Hash × Bool
  | n, cursor, spine =>
    match s.getBlock cursor with
    | none => (spine, cursor, false)
    | some b =>
      if b.height = 0 then (spine, cursor, cursor = genesisHash)
      else match n with
        | 0 => (b :: spine, b.selectedParent, false)
        | n + 1 => spineWalk s genesisHash n b.selectedParent (b :: spine)

structure SpinePlan where
  genesisRoot : Option Hash
  spine : List Block
  removals : List (Hash × Hash)
  restore : ReceiptIndexBatch
  newRemovals : List (ℕ × List (Hash × Hash))

def freshReceipts (idx : ReceiptIndex) (b : Block) : List (Hash × Hash) :=
  (b.transactions.filter fun tx => (idx.readReceipt tx.hash).map (·.blockHash) ≠ some b.hash).map
    fun tx => (b.hash, tx.hash)

def planSpine (st : StorageManager) (tip : AppliedTip) (genesisHash head : Hash) :
    Except String (Option SpinePlan) :=
  let genesisBlock := st.blocks.getBlock genesisHash
  let (spine, cursor, reachedGenesis) := spineWalk st.blocks genesisHash (maxRecoverySpine - 1) head []
  if !(reachedGenesis || (cursor = genesisHash && genesisBlock.isNone)) then .ok none
  else
    let hashes := spine.map Block.hash
    match abandonedReceiptIndex st (fun b => 0 < b.height && b.hash ∉ hashes) tip.hash
      maxRecoverySpine maxRecoverySpine tip.hash tip.height ({}, {}) with
    | .error e => .error s!"C1-R: {e} (rebuild aborted)"
    | .ok (abandon, restore, common) =>
      let indices := match common with
        | some _ => (abandon, restore)
        | none => offChainReceiptIndex st.receipts fun h => h = genesisHash || h ∈ hashes
      let commonHeight := (common.map (·.height)).getD 0
      .ok <| some
        { genesisRoot := genesisBlock.map (·.stateRoot)
          spine
          removals := indices.1.removals
          restore := indices.2
          newRemovals := (spine.zipIdx.filter fun e => commonHeight < e.1.height).map
            fun e => (e.2, freshReceipts st.receipts e.1) }

/-- The receipt changes of a rollback after `appliedThrough` replayed blocks. -/
def SpinePlan.rollbackIndex (plan : SpinePlan) (appliedThrough : ℕ) : ReceiptIndexBatch :=
  let fresh : ReceiptIndexBatch :=
    { removals := (plan.newRemovals.filter fun e => e.1 < appliedThrough).flatMap Prod.snd }
  (fresh.extend plan.restore).withMarker .clear

/-- Best effort: a marker that stays is cleared by the next cleanup. -/
def clearRebuildMarker (fault : Option String) (st : StorageManager) : StorageManager :=
  match fault with
  | some _ => st
  | none => st.putReceiptIndex (ReceiptIndexBatch.withMarker {} .clear)

@[simp] theorem clearRebuildMarker_blocks (fault : Option String) (st : StorageManager) :
    (clearRebuildMarker fault st).blocks = st.blocks := by
  cases fault with
  | none => rfl
  | some => rfl

@[simp] theorem clearRebuildMarker_state (fault : Option String) (st : StorageManager) :
    (clearRebuildMarker fault st).state = st.state := by
  cases fault with
  | none => rfl
  | some => rfl

namespace CanonicalApplicator
variable {P : Type}

def replaySpine (rt : Runtime P) (hooks : RegistryHooks P) (fault : Hash → Option String) :
    List Block → ℕ → CanonicalApplicator P → ℕ × CanonicalApplicator P
  | [], replayed, app => (replayed, app)
  | b :: spine, replayed, app =>
    match applyBlockTrusted rt app.executor app.storage b (fault b.hash) with
    | (.ok _, ex, st) =>
      replaySpine rt hooks fault spine (replayed + 1)
        (recordApplied hooks { app with executor := ex, storage := st } b)
    | (.error _, ex, st) => (replayed, { app with executor := ex, storage := st })

/-- A rollback of the rebuild: memory, tip and ring as before it, the store moved back from what the
executor of `now` holds. The reward policy stays as the replay left it. -/
def rollbackRebuild (rt : Runtime P) (fault : Option String) (pre now : CanonicalApplicator P)
    (index : ReceiptIndexBatch) : Except String Unit × CanonicalApplicator P :=
  match reconcileStoreFromWithUndo rt (now.executor.stateRestore pre.executor.db) now.storage
    now.executor.db.toWorld pre.state.tip index [] fault with
  | (.ok st, ex) => (.ok (), { now with storage := st, executor := ex, state := pre.state })
  | (.error e, ex) => (.error e, { now with executor := ex, state := pre.state })

def executorRoot (rt : Runtime P) (app : CanonicalApplicator P) : Hash × CanonicalApplicator P :=
  let rooted := app.executor.db.calculateStateRoot rt.rules
  (rooted.1, { app with executor := app.executor.stateRestore rooted.2 })

def headRootOk (rt : Runtime P) (app : CanonicalApplicator P) (head : Hash) :
    Bool × CanonicalApplicator P :=
  match if app.state.tip.hash = head then app.storage.blocks.getBlock head else none with
  | none => (false, app)
  | some hb =>
    let (root, app) := app.executorRoot rt
    (root == hb.stateRoot, app)

def replayToHead (rt : Runtime P) (call : RecoveryCall P) (pre now : CanonicalApplicator P)
    (head : Hash) (plan : SpinePlan) : Except String Bool × CanonicalApplicator P :=
  let genesis : AppliedTip := ⟨call.genesisHash, 0⟩
  let state : AppliedState :=
    ⟨genesis, (∅ : ExtTreeMap UInt64 (Hash × StateDb)).insert 0 (genesis.hash, call.genesisState)⟩
  let (replayed, now) := replaySpine rt call.hooks call.faults.apply plan.spine 0 { now with state }
  match headRootOk rt now head with
  | (false, now) =>
    match rollbackRebuild rt call.faults.restore pre now (plan.rollbackIndex replayed) with
    | (.ok (), app) => (.ok false, app)
    | (.error e, app) => (.error
        s!"canonical recovery: did not reach head {head}, and restoring the store to {pre.state.tip.hash} failed: {e}",
        app)
  | (true, now) =>
    let st := { now.storage with blocks := now.storage.blocks.putAppliedTip now.state.tip }
    (.ok true, { now with storage := clearRebuildMarker call.faults.clear st })

def genesisMismatch (rt : Runtime P) (now : CanonicalApplicator P) :
    Option Hash → Bool × CanonicalApplicator P
  | none => (false, now)
  | some root =>
    let (rebuilt, now) := now.executorRoot rt
    (rebuilt != root, now)

/-- The reset to genesis: store and memory, the check of the genesis root, the remaining receipt
removals. Every failure after the reset batch rolls back. -/
def resetToGenesis (rt : Runtime P) (call : RecoveryCall P) (pre : CanonicalApplicator P)
    (plan : SpinePlan) : Except (Except String Bool) Unit × CanonicalApplicator P :=
  let tip := pre.state.tip
  let batches := removalBatches plan.removals
  let resetIndex := (batches.head?.getD {}).withMarker (.set tip.hash tip.height)
  match reconcileStoreFromWithUndo rt (pre.executor.stateRestore call.genesisState)
    pre.storage pre.executor.db.toWorld ⟨call.genesisHash, 0⟩ resetIndex [] call.faults.reset with
  | (.error e, _) =>
    (.error (.error s!"canonical recovery: genesis reset failed (nothing changed): {e}"), pre)
  | (.ok st, ex) =>
    let now := { pre with storage := st, executor := ex }
    let (mismatch, now) := now.genesisMismatch rt plan.genesisRoot
    if mismatch then
      match rollbackRebuild rt call.faults.restore pre now (plan.rollbackIndex 0) with
      | (.ok (), app) => (.error (.ok false), app)
      | (.error e, app) => (.error (.error
          s!"canonical recovery: genesis root mismatch, and restoring the store to {tip.hash} failed: {e}"),
          app)
    else match putReceiptBatches call.faults.residual 0 batches.tail now.storage with
      | (.ok (), st) => (.ok (), { now with storage := st })
      | (.error (i, e), st) =>
        match rollbackRebuild rt call.faults.restore pre { now with storage := st }
          (plan.rollbackIndex 0) with
        | (.ok (), app) => (.error (.error
            s!"canonical recovery: receipt removal write {i + 2} failed (rolled back to {tip.hash} @ {tip.height}): {e}"),
            app)
        | (.error e2, app) => (.error (.error
            s!"canonical recovery: receipt removal write {i + 2} failed ({e}), and restoring the store to {tip.hash} failed: {e2}"),
            app)

def rebuildFromGenesis (rt : Runtime P) (call : RecoveryCall P) (app : CanonicalApplicator P)
    (head : Hash) : Except String Bool × CanonicalApplicator P :=
  let (floor, app) := app.effectiveFloor true
  if finalityGuard app.storage.blocks app.state.tip head floor = false then (.ok false, app)
  else match planSpine app.storage app.state.tip call.genesisHash head with
    | .error e => (.error e, app)
    | .ok none => (.ok false, app)
    | .ok (some plan) =>
      match app.resetToGenesis rt call plan with
      | (.error r, app) => (r, app)
      | (.ok (), now) => replayToHead rt call app now head plan

/-- The node's own triggers: a strictly heavier head, not below the floor of a pruned store, and a
fork point inside the ring reverted in place. `none` goes on to the rebuild. -/
def recoverInPlace (rt : Runtime P) (call : RecoveryCall P) (app : CanonicalApplicator P)
    (head : Hash) (fork : AppliedTip) : Option (Except String Bool) × CanonicalApplicator P :=
  let belowRing := fork.height ∉ app.state.snapshots
  match rebuildDecision belowRing call.dagPruneFloor (call.weight head)
    (call.weight app.state.tip.hash) (app.storage.blocks.hasBlock app.state.tip.hash) with
  | .rebuild =>
    if belowRing then (none, app)
    else match app.reorgTo rt call.hooks call.faults.reorg head with
      | (.reorged .., app) => (some (.ok true), app)
      | (.beyondReorgWindow .., app) => (none, app)
      | (.noChange, app) => (some (.ok false), app)
      | (.rejected _, app) =>
        let (finalized, app) := app.effectiveFloor false
        if 0 < call.dagPruneFloor ∨ fork.height < finalized then (some (.ok false), app)
        else (none, app)
  | _ => (some (.ok false), app)

def cleanupInterrupted (fault : ℕ → Option String) (app : CanonicalApplicator P) :
    Except String Unit × CanonicalApplicator P :=
  match interruptedRebuildCleanup app.storage with
  | .error e =>
    (.error s!"C1-R: receipt cleanup before the rebuild failed (rebuild aborted): {e}", app)
  | .ok batches =>
    match putReceiptBatches fault 0 batches app.storage with
    | (.ok (), st) => (.ok (), { app with storage := st })
    | (.error (i, e), st) => (.error
        s!"C1-R: receipt cleanup write {i + 1} of {batches.length} failed (the rebuild marker is kept; rebuild aborted): {e}",
        { app with storage := st })

def recoverToHeadInner (rt : Runtime P) (call : RecoveryCall P) (app : CanonicalApplicator P) :
    Except String Bool × CanonicalApplicator P :=
  match call.forkChoice with
  | none => (.ok false, app)
  | some head =>
    if call.expected.any (· ≠ head) then (.ok false, app)
    else match app.cleanupInterrupted call.faults.cleanup with
      | (.error e, app) => (.error e, app)
      | (.ok (), app) =>
        if app.state.tip.hash = head then (.ok false, app)
        else match rebuildTarget app.storage.blocks app.state call.genesisHash call.forkWeight head with
          | .error _ => (.ok false, app)
          | .ok plan =>
            if call.expected.isNone then app.rebuildFromGenesis rt call head
            else match app.recoverInPlace rt call head plan.fork with
              | (some r, app) => (r, app)
              | (none, app) => app.rebuildFromGenesis rt call head

section Frame
variable {rt : Runtime P} {app app' pre now : CanonicalApplicator P} {call : RecoveryCall P}
variable {fault : ℕ → Option String}

theorem putReceiptBatches_frame {i : ℕ} {batches : List ReceiptIndexBatch}
    {st st' : StorageManager} {r : Except (ℕ × String) Unit}
    (h : putReceiptBatches fault i batches st = (r, st')) :
    st'.blocks = st.blocks ∧ st'.state = st.state := by
  induction batches generalizing i st with
  | nil =>
    cases h
    exact ⟨rfl, rfl⟩
  | cons batch rest ih =>
    unfold putReceiptBatches at h
    split at h
    · cases h
      exact ⟨rfl, rfl⟩
    · obtain ⟨hblocks, hstate⟩ := ih h
      exact ⟨hblocks.trans rfl, hstate.trans rfl⟩

/-- `app'` differs from `app` in its executor and in what its store holds beside the blocks. -/
structure SameChain (app app' : CanonicalApplicator P) : Prop where
  blocks : app'.blocks = app.blocks
  state : app'.state = app.state
  finalizedHeight : app'.finalizedHeight = app.finalizedHeight
  raised : app'.raised = app.raised

variable {r : Except String Unit}

theorem cleanupInterrupted_sameChain (h : app.cleanupInterrupted fault = (r, app')) :
    SameChain app app' := by
  unfold cleanupInterrupted at h
  split at h
  · cases h
    exact ⟨rfl, rfl, rfl, rfl⟩
  · split at h
    all_goals
      rename_i hput
      cases h
      exact ⟨congrArg BlockStore.blocks (putReceiptBatches_frame hput).1, rfl, rfl, rfl⟩

theorem rollbackRebuild_sameChain {fault : Option String} {index : ReceiptIndexBatch}
    (h : rollbackRebuild rt fault pre now index = (r, app')) (hb : now.blocks = pre.blocks)
    (hf : now.finalizedHeight = pre.finalizedHeight) (hr : now.raised = pre.raised) :
    SameChain pre app' := by
  unfold rollbackRebuild at h
  split at h
  · rename_i hrec
    cases h
    exact ⟨(reconcile_blocks hrec).trans hb, rfl, hf, hr⟩
  · cases h
    exact ⟨hb, rfl, hf, hr⟩

theorem genesisMismatch_cases {root : Option Hash} {mismatch : Bool}
    (h : genesisMismatch rt app root = (mismatch, app')) :
    app' = app ∨ app' = (executorRoot rt app).2 := by
  cases root with
  | none => exact .inl (Prod.mk.inj h).2.symm
  | some root => exact .inr (Prod.mk.inj h).2.symm

theorem resetToGenesis_sameChain {plan : SpinePlan} {r : Except (Except String Bool) Unit}
    (h : pre.resetToGenesis rt call plan = (r, app')) : SameChain pre app' := by
  unfold resetToGenesis at h
  simp only at h
  split at h
  · cases h
    exact ⟨rfl, rfl, rfl, rfl⟩
  rename_i st ex hreset
  have hst := reconcile_blocks hreset
  rcases hcheck : genesisMismatch rt { pre with storage := st, executor := ex } plan.genesisRoot with
    ⟨mismatch, now⟩
  have hnow : SameChain pre now := by
    rcases genesisMismatch_cases hcheck with rfl | rfl <;> exact ⟨hst, rfl, rfl, rfl⟩
  simp only [hcheck] at h
  split at h
  · split at h
    all_goals
      rename_i hroll
      cases h
      exact rollbackRebuild_sameChain hroll hnow.blocks hnow.finalizedHeight hnow.raised
  split at h
  · rename_i hput
    cases h
    exact ⟨(congrArg BlockStore.blocks (putReceiptBatches_frame hput).1).trans hnow.blocks, hnow.state,
      hnow.finalizedHeight, hnow.raised⟩
  rename_i st' hput
  have hblocks := (congrArg BlockStore.blocks (putReceiptBatches_frame hput).1).trans hnow.blocks
  split at h
  all_goals
    rename_i hroll
    cases h
    exact rollbackRebuild_sameChain hroll hblocks hnow.finalizedHeight hnow.raised

theorem recordApplied_blocks (hooks : RegistryHooks P) (app : CanonicalApplicator P) (b : Block) :
    (recordApplied hooks app b).blocks = app.blocks := BlockStore.putAppliedTip_blocks _ _

theorem replaySpine_blocks {hooks : RegistryHooks P} {fault : Hash → Option String}
    {spine : List Block} {k n : ℕ} (h : replaySpine rt hooks fault spine k app = (n, app')) :
    app'.blocks = app.blocks := by
  induction spine generalizing k app with
  | nil => rw [(Prod.mk.inj h).2]
  | cons b spine ih =>
    unfold replaySpine at h
    split at h
    · rename_i happly
      exact (ih h).trans ((recordApplied_blocks hooks _ b).trans (applyBlockInner_blocks happly))
    · rename_i happly
      cases h
      exact applyBlockInner_blocks happly

theorem headRootOk_sameChain {head : Hash} {ok : Bool} (h : headRootOk rt app head = (ok, app')) :
    SameChain app app' ∧ (ok = true → app.state.tip.hash = head) := by
  unfold headRootOk at h
  by_cases hhead : app.state.tip.hash = head
  · rw [if_pos hhead] at h
    split at h
    all_goals
      cases h
      exact ⟨⟨rfl, rfl, rfl, rfl⟩, fun _ => hhead⟩
  · rw [if_neg hhead] at h
    cases h
    exact ⟨⟨rfl, rfl, rfl, rfl⟩, nofun⟩

end Frame

end CanonicalApplicator

section Spine
variable {g : Hash} {s : BlockStore}

theorem spineWalk_linked {n : ℕ} {cursor last : Hash} {acc spine : List Block} {reached : Bool}
    (hwf : WellFormed g s.blocks) (hl : LinkedFrom s.blocks cursor acc)
    (h : spineWalk s g n cursor acc = (spine, last, reached)) :
    LinkedFrom s.blocks last spine ∧
      (lastPosition ⟨last, 0⟩ spine).hash = (lastPosition ⟨cursor, 0⟩ acc).hash ∧
      (reached = true → last = g) := by
  fun_induction spineWalk s g n cursor acc with
  | case1 n cursor acc hb =>
    obtain ⟨rfl, rfl, rfl⟩ := by simpa only [Prod.mk.injEq] using h
    exact ⟨hl, rfl, nofun⟩
  | case2 n cursor acc b hb h0 =>
    obtain ⟨rfl, rfl, rfl⟩ := by simpa only [Prod.mk.injEq] using h
    exact ⟨hl, rfl, of_decide_eq_true⟩
  | case3 cursor acc b hb h0 =>
    obtain ⟨rfl, rfl, rfl⟩ := by simpa only [Prod.mk.injEq] using h
    obtain rfl := hwf.hash hb
    exact ⟨⟨hb, h0, rfl, hl⟩, lastPosition_hash b.hash b.height 0 acc, nofun⟩
  | case4 cursor acc b hb h0 n ih =>
    obtain rfl := hwf.hash hb
    have hl' : LinkedFrom s.blocks b.selectedParent (b :: acc) := ⟨hb, h0, rfl, hl⟩
    obtain ⟨hspine, hlast, hreached⟩ := ih hl' h
    exact ⟨hspine, hlast.trans (lastPosition_hash b.hash b.height 0 acc), hreached⟩

theorem planSpine_linked {st : StorageManager} {tip : AppliedTip} {head : Hash} {plan : SpinePlan}
    (hwf : WellFormed g st.blocks.blocks) (h : planSpine st tip g head = .ok (some plan)) :
    LinkedFrom st.blocks.blocks g plan.spine ∧ (lastPosition ⟨g, 0⟩ plan.spine).hash = head := by
  unfold planSpine at h
  rcases hwalk : spineWalk st.blocks g (maxRecoverySpine - 1) head [] with ⟨spine, last, reached⟩
  have hnil : LinkedFrom st.blocks.blocks head [] := trivial
  obtain ⟨hl, hhead, hreached⟩ := spineWalk_linked hwf hnil hwalk
  simp only [hwalk] at h
  split at h
  · cases h
  rename_i hok
  have hlast : last = g := by
    cases reached with
    | true => exact hreached rfl
    | false =>
      simp only [Bool.false_or, Bool.not_eq_true', Bool.not_eq_false, Bool.and_eq_true,
        decide_eq_true_eq] at hok
      exact hok.1
  subst hlast
  split at h
  · cases h
  · cases Except.ok.inj h
    exact ⟨hl, hhead⟩

end Spine

end CitrateChain.Node
