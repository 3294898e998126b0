import CitrateChain.Base.Result
import CitrateChain.Node.CanonicalApplicator

/-! # Reorganisation

`reorg_to` reverts memory and store to the fork point, re-executes the winning branch in memory and
commits it with one batch. Everything it reads to plan the switch is read before anything changes,
and every later failure restores the state, the policy and the store the call started from. -/
namespace CitrateChain.Node
open Std (ExtTreeMap)
open Consensus (Hash Block)
open Execution Storage CanonicalApplicator Executor

inductive ReorgOutcome
  | reorged (newTip : Hash) (height reverted applied : UInt64)
  | noChange
  | beyondReorgWindow (newTip : Hash) (stoppedAt : UInt64)
  | rejected (why : String)

def maxReorgForward : ℕ := 10000

/-- The errors of the three store batches of a reorg, where they fail: the revert to the fork point,
the commit of the branch, and the batch that restores the store on an abort. -/
structure ReorgFaults where
  revert : Option String := none
  commit : Option String := none
  restore : Option String := none

/-- The walk from the new tip to the first block the ring holds, collecting the branch above it,
lowest block first. `n` blocks may still be collected. -/
def forkWalk (s : BlockStore) (st : AppliedState) (newTip : Hash) :
    ℕ → Hash → List Block → Except ReorgOutcome (AppliedTip × List Block)
  | n, cursor, branch =>
    match s.getBlock cursor with
    | none =>
      if st.ringHash 0 = some cursor then .ok (⟨cursor, 0⟩, branch)
      else .error (.rejected s!"reorg to {newTip}: missing block {cursor} on branch")
    | some b =>
      if st.ringHash b.height = some cursor then .ok (⟨cursor, b.height⟩, branch)
      else if b.height ≤ Word.saturatingSub st.tip.height maxReorgDepth then
        .error (.beyondReorgWindow newTip b.height)
      else match n with
        | 0 => .error (.beyondReorgWindow newTip b.height)
        | n + 1 => forkWalk s st newTip n b.selectedParent (b :: branch)

def abandonBlock (idx : ReceiptIndex) (cursor : Hash) (b : Block)
    (acc : ReceiptIndexBatch × ReceiptIndexBatch) : ReceiptIndexBatch × ReceiptIndexBatch :=
  ({ acc.1 with removals := acc.1.removals ++ b.transactions.map fun tx => (cursor, tx.hash) },
    { acc.2 with
      receipts := acc.2.receipts ++ (b.transactions.filterMap fun tx => idx.readReceipt tx.hash).filter
        fun r => r.blockHash = cursor })

/-- `abandoned_receipt_index`: the receipt changes for the blocks that stop being executed, and the
first ancestor that is kept. `n` blocks may still be abandoned. -/
def abandonedReceiptIndex (st : StorageManager) (abandoned : Block → Bool) (start : Hash)
    (maxBlocks : ℕ) : ℕ → Hash → UInt64 → ReceiptIndexBatch × ReceiptIndexBatch →
      Except String (ReceiptIndexBatch × ReceiptIndexBatch × Option AppliedTip)
  | n, cursor, expectedHeight, acc =>
    match st.blocks.getBlock cursor with
    | none => .ok (acc.1, acc.2, if expectedHeight = 0 then some ⟨cursor, 0⟩ else none)
    | some b =>
      if abandoned b = false then .ok (acc.1, acc.2, some ⟨cursor, b.height⟩)
      else match n with
        | 0 => .error
            s!"C1-R: abandoned-receipt walk from {start} passed {maxBlocks} blocks without reaching a kept ancestor"
        | n + 1 =>
          if b.height = 0 then .error
            s!"C1-R: abandoned-receipt walk from {start} reached genesis without a kept ancestor"
          else abandonedReceiptIndex st abandoned start maxBlocks n b.selectedParent
            (Word.saturatingSub b.height 1) (abandonBlock st.receipts cursor b acc)

def debugBase : Option AppliedTip → String
  | none => "None"
  | some t => s!"Some(AppliedTip \x7b hash: {t.hash}, height: {t.height} \x7d)"

structure ReorgPlan where
  fork : AppliedTip
  branch : List Block
  abandon : ReceiptIndexBatch
  restore : ReceiptIndexBatch
  base : StateDb

structure Reapplied (P : Type) where
  executor : Executor P
  tip : AppliedTip
  snaps : List (UInt64 × Hash × StateDb) := []
  index : ReceiptIndexBatch := {}

section Reapply
variable {P : Type}

def runPolicyHook (hook : UInt64 → Executor P → Except String P) (height : UInt64)
    (ex : Executor P) : Except String (Executor P) :=
  (hook height ex).map fun rewardPolicy => { ex with rewardPolicy }

def seedPolicy (hooks : RegistryHooks P) (ex : Executor P) (fork : AppliedTip) :
    Except String (Executor P) :=
  match hooks.policySeed.or hooks.policyResync, greatestSnapshotAt fork.height with
  | some hook, some gov =>
    (runPolicyHook hook gov ex).mapError fun e =>
      s!"reorg governing-epoch policy seed failed at S({gov}): {e}"
  | _, _ => .ok ex

def resyncPolicy (hooks : RegistryHooks P) (ex : Executor P) (height : UInt64) :
    Except String (Executor P) :=
  match hooks.policyResync with
  | some hook =>
    if (snapshotEpochAt height).isSome then
      (runPolicyHook hook height ex).mapError fun e =>
        s!"reorg reward-policy resync failed at height {height}: {e}"
    else .ok ex
  | none => .ok ex

def reapplyBlock (rt : Runtime P) (hooks : RegistryHooks P) (st : StorageManager) (b : Block)
    (acc : Reapplied P) : Except String (Reapplied P) :=
  match applyBlockNoPersist rt acc.executor st b with
  | (.error e, _, _) => .error s!"reorg reapply failed at {b.hash}: {e}"
  | (.ok (_, receipts), ex, _) =>
    (resyncPolicy hooks ex b.height).map fun executor =>
      { executor
        tip := ⟨b.hash, b.height⟩
        snaps := acc.snaps ++ [(b.height, b.hash, ex.db)]
        index := acc.index.extend (.forBlock b receipts) }

def reapplyBranch (rt : Runtime P) (hooks : RegistryHooks P) (st : StorageManager) :
    List Block → Reapplied P → Except String (Reapplied P)
  | [], acc => .ok acc
  | b :: branch, acc =>
    match reapplyBlock rt hooks st b acc with
    | .error e => .error e
    | .ok acc => reapplyBranch rt hooks st branch acc

end Reapply

def branchUndo (tip : UInt64) : AppliedTip → World → List (UInt64 × Hash × StateDb) → List BlockUndo
  | _, _, [] => []
  | parent, prev, (height, hash, snap) :: rest =>
    let record : BlockUndo :=
      { height, hash, parent := some parent
        accounts := preImages prev.accounts snap.accounts
        storage := (storageChanges snap.toWorld prev).map fun c => (c.address, c.key, c.value)
        modelsJobs := some (modelJobPreImages prev snap.toWorld) }
    (if Word.saturatingSub tip maxReorgDepth < height then [record] else []) ++
      branchUndo tip ⟨hash, height⟩ snap.toWorld rest

namespace CanonicalApplicator
variable {P : Type}

/-- The part of `reorg_to` that only reads: whether there is anything to do, the fork point and the
branch, the floor (which may be raised), the receipt changes and the snapshot to revert to. -/
def planReorg (app : CanonicalApplicator P) (newTip : Hash) :
    Except ReorgOutcome ReorgPlan × CanonicalApplicator P :=
  let s := app.storage.blocks
  if newTip = app.state.tip.hash then (.error .noChange, app)
  else
    let applied : Except String Bool := match s.getBlock newTip with
      | some nb => isApplied s app.state newTip nb.height
      | none => .ok false
    match applied with
    | .error e => (.error (.rejected s!"reorg to {newTip}: {e}"), app)
    | .ok true => (.error .noChange, app)
    | .ok false =>
      match forkWalk s app.state newTip maxReorgForward newTip [] with
      | .error outcome => (.error outcome, app)
      | .ok (fork, branch) =>
        let (floor, app) := app.effectiveFloor false
        if fork.height < floor then
          (.error (.rejected
            s!"reorg fork point height {fork.height} below finalized height {floor}"), app)
        else
          let tip := app.state.tip
          match abandonedReceiptIndex app.storage (fun b => fork.height < b.height) tip.hash
            maxReorgDepth.toNat maxReorgDepth.toNat tip.hash tip.height ({}, {}) with
          | .error e => (.error (.rejected s!"reorg to {newTip}: {e}"), app)
          | .ok (abandon, restore, base) =>
            if base ≠ some fork then
              (.error (.rejected
                s!"reorg to {newTip}: the applied chain from {tip.hash} does not reach the fork point {fork.hash} @ {fork.height} (walk ended at {debugBase base})"), app)
            else match app.state.snapshots[fork.height]? with
              | none => (.error (.rejected
                  s!"reorg fork point snapshot missing at height {fork.height}"), app)
              | some (_, base) => (.ok { fork, branch, abandon, restore, base }, app)

/-- Every abort: memory and policy as before, and the store moved back from the fork point with the
tip and the receipts it had. -/
def abortReorg (rt : Runtime P) (restoreFault : Option String) (pre : CanonicalApplicator P)
    (plan : ReorgPlan) (st : StorageManager) : CanonicalApplicator P :=
  match reconcileStoreFromWithUndo rt pre.executor st plan.base.toWorld pre.state.tip
    plan.restore [] restoreFault with
  | (.ok st, ex) => { pre with storage := st, executor := ex }
  | (.error _, ex) => { pre with storage := st, executor := ex }

def spliceRing (ring : ExtTreeMap UInt64 (Hash × StateDb)) (snaps : List (UInt64 × Hash × StateDb))
    (tip : UInt64) : ExtTreeMap UInt64 (Hash × StateDb) :=
  (snaps.foldl (fun m s => m.insert s.1 s.2) ring).filter fun h _ =>
    h ≤ tip && Word.saturatingSub tip maxReorgDepth ≤ h

def executeReorg (rt : Runtime P) (hooks : RegistryHooks P) (faults : ReorgFaults)
    (pre : CanonicalApplicator P) (newTip : Hash) (plan : ReorgPlan) :
    ReorgOutcome × CanonicalApplicator P :=
  let fork := plan.fork
  match reconcileStoreFromWithUndo rt (pre.executor.stateRestore plan.base) pre.storage
    pre.executor.db.toWorld fork plan.abandon [] faults.revert with
  | (.error e, _) =>
    (.rejected s!"reorg store-revert to fork point failed at height {fork.height}: {e}",
      abortReorg rt faults.restore pre plan pre.storage)
  | (.ok atFork, ex) =>
    match (seedPolicy hooks ex fork).bind fun executor =>
      reapplyBranch rt hooks atFork plan.branch { executor, tip := fork } with
    | .error e => (.rejected e, abortReorg rt faults.restore pre plan atFork)
    | .ok done =>
      match reconcileStoreFromWithUndo rt done.executor atFork plan.base.toWorld done.tip
        done.index (branchUndo done.tip.height fork plan.base.toWorld done.snaps) faults.commit with
      | (.error e, _) =>
        (.rejected s!"reorg store commit to {newTip} failed: {e}",
          abortReorg rt faults.restore pre plan atFork)
      | (.ok st, ex) =>
        (.reorged done.tip.hash done.tip.height
            (Word.saturatingSub pre.state.tip.height fork.height)
            (UInt64.ofNat plan.branch.length),
          { pre with
            executor := plan.branch.foldl (fun ex b => maybeSyncRegistry hooks ex b.height) ex
            storage := { st with blocks := st.blocks.putAppliedTip done.tip }
            state := ⟨done.tip, spliceRing pre.state.snapshots done.snaps done.tip.height⟩ })

def reorgTo (rt : Runtime P) (hooks : RegistryHooks P) (faults : ReorgFaults)
    (app : CanonicalApplicator P) (newTip : Hash) : ReorgOutcome × CanonicalApplicator P :=
  match app.planReorg newTip with
  | (.error outcome, app) => (outcome, app)
  | (.ok plan, app) => app.executeReorg rt hooks faults newTip plan

end CanonicalApplicator

section Plan
variable {P : Type} {g : Hash} {s : BlockStore} {st : AppliedState} {newTip : Hash}

variable {app app' : CanonicalApplicator P} {hooks : RegistryHooks P} {rt : Runtime P}
variable {store : StorageManager} {plan : ReorgPlan} {outcome : ReorgOutcome} {fork : AppliedTip}
variable {branch out : List Block}

theorem forkWalk_ring {n : ℕ} {cursor : Hash}
    (h : forkWalk s st newTip n cursor branch = .ok (fork, out)) :
    st.ringHash fork.height = some fork.hash := by
  fun_induction forkWalk s st newTip n cursor branch with
  | case1 n cursor branch hb hring | case3 n cursor branch b hb hring =>
    cases h
    exact hring
  | case2 | case4 | case5 => cases h
  | case6 cursor branch b hb hring hlow n ih => exact ih h

theorem forkWalk_linked {n : ℕ} {cursor : Hash} (hwf : WellFormed g s.blocks)
    (hl : LinkedFrom s.blocks cursor branch)
    (h : forkWalk s st newTip n cursor branch = .ok (fork, out)) :
    LinkedFrom s.blocks fork.hash out := by
  fun_induction forkWalk s st newTip n cursor branch with
  | case1 n cursor branch hb hring | case3 n cursor branch b hb hring =>
    cases h
    exact hl
  | case2 | case4 | case5 => cases h
  | case6 cursor branch b hb hring hlow n ih =>
    obtain rfl := hwf.hash hb
    have hne : b.height ≠ 0 := fun h0 =>
      hlow (h0 ▸ UInt64.zero_le)
    have hl' : LinkedFrom s.blocks b.selectedParent (b :: branch) := ⟨hb, hne, rfl, hl⟩
    exact ih hl' h

theorem planReorg_ok (h : app.planReorg newTip = (.ok plan, app')) :
    app.effectiveFloor false = (app'.finalizedHeight, app') ∧
      app'.finalizedHeight ≤ plan.fork.height ∧
      app.state.snapshots[plan.fork.height]? = some (plan.fork.hash, plan.base) ∧
      forkWalk app.storage.blocks app.state newTip maxReorgForward newTip [] =
        .ok (plan.fork, plan.branch) ∧
      abandonedReceiptIndex app.storage (fun b => plan.fork.height < b.height) app.state.tip.hash
        maxReorgDepth.toNat maxReorgDepth.toNat app.state.tip.hash app.state.tip.height ({}, {}) =
        .ok (plan.abandon, plan.restore, some plan.fork) := by
  unfold planReorg at h
  simp only at h
  split at h
  · cases h
  split at h
  · cases h
  · cases h
  split at h
  · cases h
  rename_i fork branch hwalk
  have hring := forkWalk_ring hwalk
  rcases hfloor : app.effectiveFloor false with ⟨floor, app₁⟩
  obtain ⟨hst, -, hstate, rfl⟩ := effectiveFloor_frame hfloor
  simp only [hfloor, hst, hstate] at h
  split at h
  · cases h
  rename_i hle
  split at h
  · cases h
  rename_i abandon restore base habandon
  split at h
  · cases h
  rename_i hbase
  split at h
  · cases h
  rename_i hash db hsnap
  obtain ⟨hplan, rfl⟩ := Prod.mk.inj h
  cases hplan
  have hhash : hash = fork.hash := by simpa [AppliedState.ringHash, hsnap] using hring
  rw [hhash] at hsnap
  rw [not_not.mp hbase] at habandon
  exact ⟨rfl, not_lt.mp hle, hsnap, hwalk, habandon⟩

theorem planReorg_linked
    (hwf : WellFormed g app.blocks) (h : app.planReorg newTip = (.ok plan, app')) :
    LinkedFrom app.blocks plan.fork.hash plan.branch := by
  obtain ⟨-, -, -, hwalk, -⟩ := planReorg_ok h
  have hnil : LinkedFrom app.blocks newTip [] := trivial
  exact forkWalk_linked hwf hnil hwalk

theorem planReorg_error (h : app.planReorg newTip = (.error outcome, app')) :
    app' = app ∨ ∃ floor, app.effectiveFloor false = (floor, app') := by
  unfold planReorg at h
  simp only at h
  split at h
  · exact .inl (Prod.mk.inj h).2.symm
  split at h
  · exact .inl (Prod.mk.inj h).2.symm
  · exact .inl (Prod.mk.inj h).2.symm
  split at h
  · exact .inl (Prod.mk.inj h).2.symm
  rcases hfloor : app.effectiveFloor false with ⟨floor, app₁⟩
  simp only [hfloor] at h
  refine .inr ⟨floor, ?_⟩
  split at h
  · rw [(Prod.mk.inj h).2]
  split at h
  · rw [(Prod.mk.inj h).2]
  split at h
  · rw [(Prod.mk.inj h).2]
  split at h
  · rw [(Prod.mk.inj h).2]
  · cases h

variable {acc done : Reapplied P}

theorem reapplyBlock_ok {b : Block} (h : reapplyBlock rt hooks store b acc = .ok done) :
    done.tip = ⟨b.hash, b.height⟩ ∧ ∃ db, done.snaps = acc.snaps ++ [(b.height, b.hash, db)] := by
  unfold reapplyBlock at h
  split at h
  · cases h
  · obtain ⟨ex', -, rfl⟩ := Result.map_eq_ok.mp h
    exact ⟨rfl, _, rfl⟩

variable {branch : List Block}

theorem reapplyBranch_ok (h : reapplyBranch rt hooks store branch acc = .ok done) :
    done.tip = lastPosition acc.tip branch ∧ done.snaps.map (fun s => (s.1, s.2.1)) =
        acc.snaps.map (fun s => (s.1, s.2.1)) ++ branch.map fun b => (b.height, b.hash) := by
  induction branch generalizing acc with
  | nil =>
    cases h
    simp [lastPosition]
  | cons b branch ih =>
    unfold reapplyBranch at h
    split at h
    · cases h
    · rename_i acc' hblock
      obtain ⟨htip, db, hsnaps⟩ := reapplyBlock_ok hblock
      obtain ⟨hdone, hmap⟩ := ih h
      rw [hdone, hmap, htip, hsnaps]
      simp [lastPosition]

theorem abortReorg_blocks {fault : Option String} {app : CanonicalApplicator P}
    (hb : store.blocks.blocks = app.blocks) :
    (abortReorg rt fault app plan store).blocks = app.blocks := by
  unfold abortReorg
  split
  · rename_i heq
    exact (reconcile_blocks heq).trans hb
  · exact hb

variable {faults : ReorgFaults}

theorem executeReorg_blocks (hx : app.executeReorg rt hooks faults newTip plan = (outcome, app')) :
    app'.blocks = app.blocks := by
  unfold executeReorg at hx
  simp only at hx
  split at hx
  · cases hx
    exact abortReorg_blocks rfl
  rename_i hrevert
  have hatFork := reconcile_blocks hrevert
  split at hx
  · cases hx
    exact abortReorg_blocks hatFork
  split at hx
  · cases hx
    exact abortReorg_blocks hatFork
  rename_i hcommit
  cases hx
  exact ((BlockStore.putAppliedTip_blocks _ _).trans (reconcile_blocks hcommit)).trans hatFork

theorem reorgTo_blocks (hx : app.reorgTo rt hooks faults newTip = (outcome, app')) :
    app'.blocks = app.blocks := by
  unfold reorgTo at hx
  split at hx
  · rename_i hplan
    cases hx
    rcases planReorg_error hplan with rfl | ⟨floor, hfloor⟩
    · rfl
    · rw [blocks, (effectiveFloor_frame hfloor).1]
  · rename_i hplan
    obtain ⟨hfloor, -⟩ := planReorg_ok hplan
    rw [executeReorg_blocks hx, blocks, (effectiveFloor_frame hfloor).1]

end Plan

end CitrateChain.Node
