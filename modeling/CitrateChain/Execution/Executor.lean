import CitrateChain.Storage.StateStore

/-! # Block application and store reconciliation

Applying a block runs its effects on the in-memory state, checks the state root unless the replay is
trusted, and commits the dirty accounts and slots with the tip. Any error restores the state the
call started from. A reorg moves the store by the difference of two states instead. -/
namespace CitrateChain.Execution
open Std (ExtTreeMap)
open Consensus (Hash Block)
open Storage KvStore World

inductive ExecutionError
  | stateRootMismatch (expected got : Hash)
  | reverted (message : String)
  | rejected (message : String)

instance : ToString ExecutionError where
  toString
    | .stateRootMismatch expected got =>
      s!"State root mismatch: block claims {expected}, re-execution produced {got}"
    | .reverted message => s!"Execution reverted: {message}"
    | .rejected message => message

/-- What block application is built on: the root rules, the execution of a block on a world state
under a reward policy (`P`), and the size of an encoded undo record. -/
structure Runtime (P : Type) where
  rules : RootRules
  execute : P → World → Block → Except ExecutionError (List Effect × List TransactionReceipt)
  encodedLen : BlockUndo → ℕ

structure Executor (P : Type) where
  db : StateDb
  rewardPolicy : P

/-- The entries that differ between two maps, with the value they held before. -/
def preImages {K V : Type} [Ord K] [Std.TransOrd K] [DecidableEq V] (before after : ExtTreeMap K V) :
    List (K × Option V) :=
  (after.toList.filter fun e => before[e.1]? ≠ some e.2).map (fun e => (e.1, before[e.1]?)) ++
    (before.toList.filter fun e => e.1 ∉ after).map fun e => (e.1, some e.2)

def modelJobPreImages (before after : World) : ModelJobUndo where
  models := preImages before.models after.models
  jobs := preImages before.trainingJobs after.trainingJobs

def World.slots (w : World) (a : Address) : ExtTreeMap Bytes Bytes :=
  (w.storageTries[a]?.map Trie.entriesMap).getD ∅

def storageChanges (baseline current : World) : List StateStorageChange :=
  (baseline.storageTries.keys ++ current.storageTries.keys).flatMap fun a =>
    (((baseline.slots a).keys ++ (current.slots a).keys).filter fun key =>
      (current.slots a)[key]? ≠ (baseline.slots a)[key]?).map fun key =>
        ⟨a, key, (current.slots a)[key]?⟩

def accountPuts (baseline current : World) : List (Address × AccountState) :=
  current.accounts.toList.filter fun e => baseline.accounts[e.1]? ≠ some e.2

def accountDels (baseline current : World) : List Address :=
  baseline.accounts.keys.filter fun a => a ∉ current.accounts

namespace Executor
variable {P : Type}

def dirtyAccountChanges (db : StateDb) : List (Address × AccountState) :=
  db.dirtyAccounts.map fun a => (a, db.getAccount a)

def dirtyStorageChanges (db : StateDb) : List StateStorageChange :=
  db.dirtyStorage.map fun s => ⟨s.1, s.2, db.getStorage s.1 s.2⟩

/-- `persist_state_changes_with_undo`: codes first, then one batch with the tip, then the commit.
`fault` is the error of the batch, if it fails. -/
def persistStateChangesWithUndo (rt : Runtime P) (db : StateDb) (st : StorageManager)
    (tip : AppliedTip) (index : ReceiptIndexBatch) (modelsJobs : Option ModelJobUndo)
    (fault : Option String) : Except String StateDb × StorageManager :=
  let code := st.state.code.writeBatch (db.dirtyCode.map fun e => .put e.1 e.2)
  let coded := { st with state.code := code }
  match fault with
  | some e => (.error e, coded)
  | none =>
    (.ok (StateDb.commit rt.rules { db with dirtyStorage := [], dirtyCode := [] }),
      coded.writeStateBatchWithAppliedTip rt.encodedLen (dirtyAccountChanges db)
        (dirtyStorageChanges db) tip index modelsJobs)

/-- The effects of a block and, unless the replay is trusted, its state root with the fold. A trusted
replay returns the root the block claims. -/
def executeAndRoot (rt : Runtime P) (db : StateDb) (b : Block) (effects : List Effect)
    (verifyRoot : Bool) : Hash × StateDb :=
  let executed := (db.applyAll rt.rules.keccak effects).setRootHeight b.height
  if verifyRoot then executed.calculateStateRoot rt.rules else (b.stateRoot, executed)

def applyBlockInner (rt : Runtime P) (ex : Executor P) (st : StorageManager) (b : Block)
    (persist verifyRoot : Bool) (fault : Option String) :
    Except ExecutionError (Hash × List TransactionReceipt) × Executor P × StorageManager :=
  match rt.execute ex.rewardPolicy ex.db.toWorld b with
  | .error e => (.error e, ex, st)
  | .ok (effects, receipts) =>
    let rooted := executeAndRoot rt ex.db b effects verifyRoot
    if rooted.1 ≠ b.stateRoot then
      (.error (.stateRootMismatch b.stateRoot rooted.1), ex, st)
    else if persist then
      match persistStateChangesWithUndo rt rooted.2 st ⟨b.hash, b.height⟩ (.forBlock b receipts)
        (some (modelJobPreImages ex.db.toWorld rooted.2.toWorld)) fault with
      | (.error e, st) => (.error (.reverted s!"persist after apply_block: {e}"), ex, st)
      | (.ok db, st) => (.ok (rooted.1, receipts), { ex with db }, st)
    else (.ok (rooted.1, receipts), { ex with db := rooted.2 }, st)

def applyBlock (rt : Runtime P) (ex : Executor P) (st : StorageManager) (b : Block)
    (fault : Option String) := applyBlockInner rt ex st b true true fault

def applyBlockTrusted (rt : Runtime P) (ex : Executor P) (st : StorageManager) (b : Block)
    (fault : Option String) := applyBlockInner rt ex st b true false fault

def applyBlockNoPersist (rt : Runtime P) (ex : Executor P) (st : StorageManager) (b : Block) :=
  applyBlockInner rt ex st b false true none

/-- `reconcile_store_from_with_undo`: the store, which reflects `baseline`, is moved to the current
state. The deployed codes leave the dirty set even when the batch fails. -/
def reconcileStoreFromWithUndo (rt : Runtime P) (ex : Executor P) (st : StorageManager)
    (baseline : World) (tip : AppliedTip) (index : ReceiptIndexBatch) (undo : List BlockUndo)
    (fault : Option String) : Except String StorageManager × Executor P :=
  let current := ex.db.toWorld
  let written := st.writeReorgBatchSync rt.encodedLen (accountPuts baseline current)
    (storageChanges baseline current) (accountDels baseline current) ex.db.dirtyCode tip index undo
  (match fault with
    | some e => .error e
    | none => .ok written,
    { ex with db.dirtyCode := [] })

def stateRestore (ex : Executor P) (db : StateDb) : Executor P := { ex with db }

end Executor

section Reconcile
variable {w base cur : World} {a : Address}

theorem World.slots_getElem? (w : World) (a : Address) (key : Bytes) :
    (w.slots a)[key]? = w.getStorage a key := by
  unfold slots getStorage
  cases w.storageTries[a]? with
  | none => simp
  | some t => simp [Trie.get_eq]

theorem mem_storageTries_of_getStorage {key v : Bytes} (h : w.getStorage a key = some v) :
    a ∈ w.storageTries := by
  obtain ⟨t, ht, -⟩ := Option.bind_eq_some_iff.mp h
  exact TreeMap.mem_of_getElem? ht

theorem mem_slots_of_getStorage {key v : Bytes} (h : w.getStorage a key = some v) :
    key ∈ w.slots a :=
  TreeMap.mem_of_getElem? ((slots_getElem? ..).trans h)

theorem reconcile_accounts (s : KvStore Address AccountState) (base cur : World) (a : Address) :
    s.writeBatch (((accountPuts base cur).map fun e => .put e.1 e.2) ++
      (accountDels base cur).map .delete) a =
      if cur.accounts[a]? = base.accounts[a]? then s a else cur.accounts[a]? := by
  refine (writeBatch_ite (q := fun a => cur.accounts[a]? ≠ base.accounts[a]?) (fun a => cur.accounts[a]?)
    (fun op hop => ?_) (fun a => ?_) a).trans (ite_not ..)
  · rcases List.mem_append.mp hop with hop | hop
    · obtain ⟨e, he, rfl⟩ := List.mem_map.mp hop
      exact (ExtTreeMap.mem_toList_iff_getElem?_eq_some.mp (List.mem_filter.mp he).1).symm
    · obtain ⟨b, hb, rfl⟩ := List.mem_map.mp hop
      have hb := (List.mem_filter.mp hb).2
      exact (ExtTreeMap.getElem?_eq_none (of_decide_eq_true hb)).symm
  · simp only [accountPuts, accountDels, List.mem_append, or_and_right, exists_or, List.mem_map, List.mem_filter,
      Prod.exists, ExtTreeMap.mem_toList_iff_getElem?_eq_some, ExtTreeMap.mem_keys, TreeMap.mem_iff_exists,
      decide_eq_true_eq]
    cases hcur : cur.accounts[a]? <;> cases hbase : base.accounts[a]? <;>
      simp [KvOp.key, hcur, hbase, eq_comm]

theorem changeOp_key (c : StateStorageChange) : (changeOp c).key = (c.address, c.key) := by
  unfold changeOp
  split
  · rfl
  · rfl

theorem changeOp_value (c : StateStorageChange) : (changeOp c).value = c.value := by
  unfold changeOp
  split
  · rename_i h
    exact h.symm
  · rename_i h
    exact h.symm

theorem mem_storageChanges {c : StateStorageChange} :
    c ∈ storageChanges base cur ↔ cur.getStorage c.address c.key ≠ base.getStorage c.address c.key ∧
      c.value = cur.getStorage c.address c.key := by
  simp only [storageChanges, List.mem_flatMap, List.mem_append, List.mem_map, List.mem_filter,
    ExtTreeMap.mem_keys, slots_getElem?, decide_eq_true_eq]
  constructor
  · rintro ⟨a, -, key, ⟨-, hne⟩, rfl⟩
    exact ⟨hne, rfl⟩
  rintro ⟨hne, hv⟩
  have hsome : (∃ v, base.getStorage c.address c.key = some v) ∨
      ∃ v, cur.getStorage c.address c.key = some v := by
    by_contra hnone
    simp only [not_or, not_exists, ← Option.eq_none_iff_forall_ne_some] at hnone
    exact hne (hnone.2.trans hnone.1.symm)
  refine ⟨c.address, ?_, c.key, ⟨?_, hne⟩, by rw [← hv]⟩
  · exact hsome.imp (fun ⟨_, h⟩ => mem_storageTries_of_getStorage h)
      fun ⟨_, h⟩ => mem_storageTries_of_getStorage h
  · exact hsome.imp (fun ⟨_, h⟩ => mem_slots_of_getStorage h) fun ⟨_, h⟩ => mem_slots_of_getStorage h

theorem reconcile_slots (s : KvStore (Address × Bytes) Bytes) (base cur : World) (a : Address)
    (key : Bytes) : s.writeBatch ((storageChanges base cur).map changeOp) (a, key) =
      if cur.getStorage a key = base.getStorage a key then s (a, key) else cur.getStorage a key := by
  refine (writeBatch_ite (q := fun k => cur.getStorage k.1 k.2 ≠ base.getStorage k.1 k.2)
    (fun k : Address × Bytes => cur.getStorage k.1 k.2) (fun op hop => ?_) (fun k => ?_) (a, key)).trans (ite_not ..)
  · obtain ⟨c, hc, rfl⟩ := List.mem_map.mp hop
    rw [changeOp_key, changeOp_value]
    exact (mem_storageChanges.mp hc).2
  · constructor
    · rintro ⟨op, hop, rfl⟩
      obtain ⟨c, hc, rfl⟩ := List.mem_map.mp hop
      rw [changeOp_key]
      exact (mem_storageChanges.mp hc).1
    · intro hne
      exact ⟨_, List.mem_map.mpr ⟨⟨k.1, k.2, cur.getStorage k.1 k.2⟩,
        mem_storageChanges.mpr ⟨hne, rfl⟩, rfl⟩, changeOp_key _⟩

end Reconcile

/-- The durable accounts and slots are exactly those of `w`. -/
structure Reflects (s : StateStore) (w : World) : Prop where
  accounts : ∀ a, s.accounts a = w.accounts[a]?
  slots : ∀ a key, s.slots (a, key) = w.getStorage a key

theorem reconciled_reflects {s s' : StateStore} {base cur : World}
    (hst : Reflects s base ∨ Reflects s cur)
    (haccounts : s'.accounts = s.accounts.writeBatch
      (((accountPuts base cur).map fun e => .put e.1 e.2) ++ (accountDels base cur).map .delete))
    (hslots : s'.slots = s.slots.writeBatch ((storageChanges base cur).map changeOp)) :
    Reflects s' cur := by
  refine ⟨fun a => ?_, fun a key => ?_⟩
  · rw [haccounts, reconcile_accounts]
    split
    · rename_i heq
      exact hst.elim (fun hst => (hst.accounts a).trans heq.symm) fun hst => hst.accounts a
    · rfl
  · rw [hslots, reconcile_slots]
    split
    · rename_i heq
      exact hst.elim (fun hst => (hst.slots a key).trans heq.symm) fun hst => hst.slots a key
    · rfl

def Runtime.executed {P : Type} (rt : Runtime P) (p : P) (w : World) (b : Block) :
    Except ExecutionError World :=
  (rt.execute p w b).map fun r =>
    { r.1.foldl (apply rt.rules.keccak) w with rootHeight := b.height }

def Runtime.nextWorld {P : Type} (rt : Runtime P) (p : P) (w : World) (b : Block) :
    Except ExecutionError World :=
  (rt.executed p w b).map (fold rt.rules)

namespace Executor
variable {P : Type} {rt : Runtime P} {ex ex' : Executor P} {st st' : StorageManager} {b : Block}
variable {fault : Option String} {out : Hash × List TransactionReceipt} {e : ExecutionError}
variable {persist verifyRoot : Bool} {db db' : StateDb} {w : World}

variable {index : ReceiptIndexBatch} {modelsJobs : Option ModelJobUndo} {tip : AppliedTip}
variable {receipts : List TransactionReceipt} {effects : List Effect} {undo : List BlockUndo}
variable {p : P}

theorem executed_of_execute (h : rt.execute p db.toWorld b = .ok (effects, receipts)) :
    rt.executed p db.toWorld b =
      .ok ((db.applyAll rt.rules.keccak effects).setRootHeight b.height).toWorld := by
  simp [Runtime.executed, h, Except.map, StateDb.setRootHeight, StateDb.applyAll_toWorld]

theorem applyBlockInner_cases (rt : Runtime P) (ex : Executor P) (st : StorageManager) (b : Block)
    (persist verifyRoot : Bool) (fault : Option String) :
    (∃ e code, applyBlockInner rt ex st b persist verifyRoot fault =
        (.error e, ex, { st with state.code := code }) ∧ (persist = false → code = st.state.code)) ∨
      ∃ effects receipts, rt.execute ex.rewardPolicy ex.db.toWorld b = .ok (effects, receipts) ∧
        (executeAndRoot rt ex.db b effects verifyRoot).1 = b.stateRoot ∧
        let db := (executeAndRoot rt ex.db b effects verifyRoot).2
        applyBlockInner rt ex st b persist verifyRoot fault = (.ok (b.stateRoot, receipts),
            { ex with
              db := if persist then
                  StateDb.commit rt.rules { db with dirtyStorage := [], dirtyCode := [] }
                else db },
            if persist then (persistStateChangesWithUndo rt db st ⟨b.hash, b.height⟩
              (.forBlock b receipts) (some (modelJobPreImages ex.db.toWorld db.toWorld)) none).2
            else st) := by
  unfold applyBlockInner
  cases hexec : rt.execute ex.rewardPolicy ex.db.toWorld b with
  | error e => exact .inl ⟨e, _, rfl, fun _ => rfl⟩
  | ok r =>
    obtain ⟨effects, receipts⟩ := r
    by_cases hroot : (executeAndRoot rt ex.db b effects verifyRoot).1 = b.stateRoot
    · cases persist with
      | false => exact .inr ⟨effects, receipts, rfl, hroot, by simp [hroot]⟩
      | true =>
        cases fault with
        | some e =>
          refine .inl ⟨.reverted s!"persist after apply_block: {e}", st.state.code.writeBatch
            ((executeAndRoot rt ex.db b effects verifyRoot).2.dirtyCode.map fun e => .put e.1 e.2),
            ?_, by simp⟩
          simp only [hroot, ne_eq, not_true, if_false, if_true, persistStateChangesWithUndo]
        | none =>
          refine .inr ⟨effects, receipts, rfl, hroot, ?_⟩
          simp only [hroot, ne_eq, not_true, if_false, if_true, persistStateChangesWithUndo]
    · exact .inl ⟨.stateRootMismatch _ _, _, if_pos hroot, fun _ => rfl⟩

theorem persist_blocks {r : Except String StateDb}
    (h : persistStateChangesWithUndo rt db st tip index modelsJobs fault = (r, st')) :
    st'.blocks.blocks = st.blocks.blocks := by
  obtain rfl := (Prod.mk.inj h).2 |> fun h => h
  cases fault with
  | some e => rfl
  | none => exact BlockStore.putAppliedTip_blocks _ _

theorem applyBlockInner_blocks {r : Except ExecutionError (Hash × List TransactionReceipt)}
    (h : applyBlockInner rt ex st b persist verifyRoot fault = (r, ex', st')) :
    st'.blocks.blocks = st.blocks.blocks := by
  rcases applyBlockInner_cases rt ex st b persist verifyRoot fault with
    ⟨e, code, heq, -⟩ | ⟨effects, receipts, -, -, heq⟩
  · obtain ⟨-, -, rfl⟩ := by simpa only [Prod.mk.injEq] using heq.symm.trans h
    rfl
  · obtain ⟨-, -, rfl⟩ := by simpa only [Prod.mk.injEq] using heq.symm.trans h
    cases persist with
    | false => rfl
    | true => exact BlockStore.putAppliedTip_blocks _ _

variable {baseline : World}

theorem reconcile_blocks
    (h : reconcileStoreFromWithUndo rt ex st baseline tip index undo fault = (.ok st', ex')) :
    st'.blocks.blocks = st.blocks.blocks := by
  cases fault with
  | some e => cases h
  | none =>
    cases h
    exact BlockStore.putAppliedTip_blocks _ _

theorem executeAndRoot_tracks (h : db.DirtyStored) (effects : List Effect) :
    StateDb.Tracks db.toWorld (executeAndRoot rt db b effects verifyRoot).2 := by
  have htracks : StateDb.Tracks db.toWorld
      ((db.applyAll rt.rules.keccak effects).setRootHeight b.height) :=
    ((StateDb.Tracks.of_clean h).applyAll effects).setRootHeight b.height
  unfold executeAndRoot
  split
  · exact htracks.calculateStateRoot
  · exact htracks

theorem persist_accounts (h : db.DirtyStored) (a : Address) :
    (persistStateChangesWithUndo rt db st tip index modelsJobs none).2.state.accounts a =
      if a ∈ db.dirtyAccounts then db.accounts[a]? else st.state.accounts a := by
  refine writeBatch_ite (fun a => db.accounts[a]?) (fun op hop => ?_) (fun a => ?_) a
  · obtain ⟨e, he, rfl⟩ := List.mem_map.mp hop
    obtain ⟨b, hb, rfl⟩ := List.mem_map.mp he
    obtain ⟨account, hacc⟩ := TreeMap.mem_iff_exists.mp (h b hb)
    simp [KvOp.value, KvOp.key, getAccount, hacc]
  · simp [dirtyAccountChanges, KvOp.key]

theorem persist_slots (a : Address) (key : Bytes) :
    (persistStateChangesWithUndo rt db st tip index modelsJobs none).2.state.slots (a, key) =
      if (a, key) ∈ db.dirtyStorage then db.getStorage a key else st.state.slots (a, key) := by
  refine writeBatch_ite (fun k : Address × Bytes => db.getStorage k.1 k.2) (fun op hop => ?_)
    (fun (a, key) => ?_) (a, key)
  · obtain ⟨c, hc, rfl⟩ := List.mem_map.mp hop
    obtain ⟨slot, hslot, rfl⟩ := List.mem_map.mp hc
    rw [changeOp_key, changeOp_value]
  · simp [dirtyStorageChanges, changeOp_key]

theorem persist_reflects (hst : Reflects st.state w) (h : StateDb.Tracks w db) :
    Reflects (persistStateChangesWithUndo rt db st tip index modelsJobs none).2.state db.toWorld := by
  refine ⟨fun a => ?_, fun a key => ?_⟩
  · rw [persist_accounts h.dirty]
    split
    · rfl
    · rename_i ha
      rw [h.account a ha]
      exact hst.accounts a
  · rw [persist_slots]
    split
    · rfl
    · rename_i hs
      rw [h.slot a key hs]
      exact hst.slots a key

theorem reconcile_reflects (hst : Reflects st.state baseline ∨ Reflects st.state ex.db.toWorld)
    (h : reconcileStoreFromWithUndo rt ex st baseline tip index undo fault = (.ok st', ex')) :
    Reflects st'.state ex.db.toWorld := by
  cases fault with
  | some e => cases h
  | none =>
    cases h
    exact reconciled_reflects hst rfl rfl

theorem reconcile_frame
    (h : reconcileStoreFromWithUndo rt ex st baseline tip index undo fault = (.ok st', ex')) :
    st'.blocks.appliedTip = some tip ∧ st'.receipts = st.receipts.stageReceiptIndex index ∧
      (undo = [] → st'.state.undo = st.state.undo) := by
  cases fault with
  | some e => cases h
  | none =>
    cases h
    refine ⟨rfl, rfl, ?_⟩
    rintro rfl
    rfl

theorem executeAndRoot_world (verifyRoot : Bool)
    (h : rt.execute p db.toWorld b = .ok (effects, receipts)) :
    ∃ w, rt.executed p db.toWorld b = .ok w ∧
      (executeAndRoot rt db b effects verifyRoot).2.toWorld =
        if verifyRoot then w.fold rt.rules else w := by
  refine ⟨_, executed_of_execute h, ?_⟩
  unfold executeAndRoot
  split
  · rfl
  · rfl

theorem nextWorld_of_executed (h : rt.executed p db.toWorld b = .ok w) :
    rt.nextWorld p db.toWorld b = .ok (w.fold rt.rules) := by
  rw [Runtime.nextWorld, h]
  rfl

theorem applyBlockInner_error
    (h : applyBlockInner rt ex st b persist verifyRoot fault = (.error e, ex', st')) :
    ex' = ex ∧ ∃ code, st' = { st with state.code := code } := by
  rcases applyBlockInner_cases rt ex st b persist verifyRoot fault with
    ⟨e', code, heq, -⟩ | ⟨effects, receipts, -, -, heq⟩
  · obtain ⟨-, rfl, rfl⟩ := by simpa only [Prod.mk.injEq] using heq.symm.trans h
    exact ⟨rfl, code, rfl⟩
  · exact nomatch (Prod.mk.inj (heq.symm.trans h)).1

theorem applyBlockInner_world (hmode : (persist || verifyRoot) = true) (hd : ex.db.DirtyStored)
    (h : applyBlockInner rt ex st b persist verifyRoot fault = (.ok out, ex', st')) :
    rt.nextWorld ex.rewardPolicy ex.db.toWorld b = .ok ex'.db.toWorld ∧ ex'.db.DirtyStored := by
  rcases applyBlockInner_cases rt ex st b persist verifyRoot fault with
    ⟨e', code, heq, -⟩ | ⟨effects, receipts, hexec, -, heq⟩
  · exact nomatch (Prod.mk.inj (heq.symm.trans h)).1
  obtain ⟨-, rfl, -⟩ := by simpa only [Prod.mk.injEq] using heq.symm.trans h
  obtain ⟨w, hw, hworld⟩ := executeAndRoot_world verifyRoot hexec
  rw [nextWorld_of_executed hw]
  cases persist with
  | true =>
    refine ⟨?_, fun a ha => nomatch ha⟩
    simp only [if_true, StateDb.commit_toWorld, hworld]
    split
    · rw [fold_fold]
    · rfl
  | false =>
    obtain rfl : verifyRoot = true := hmode
    simp only [if_true] at hworld
    simp only [Bool.false_eq_true, if_false, hworld]
    exact ⟨trivial, (executeAndRoot_tracks hd effects).dirty⟩

theorem applyBlockInner_committed (hd : ex.db.DirtyStored) (hst : Reflects st.state ex.db.toWorld)
    (hfold : verifyRoot = true ∨ ∀ w, rt.executed ex.rewardPolicy ex.db.toWorld b = .ok w →
      w.fold rt.rules = w)
    (h : applyBlockInner rt ex st b true verifyRoot fault = (.ok out, ex', st')) :
    Reflects st'.state ex'.db.toWorld ∧ st'.blocks.appliedTip = some ⟨b.hash, b.height⟩ := by
  rcases applyBlockInner_cases rt ex st b true verifyRoot fault with
    ⟨e', code, heq, -⟩ | ⟨effects, receipts, hexec, -, heq⟩
  · exact nomatch (Prod.mk.inj (heq.symm.trans h)).1
  obtain ⟨-, rfl, rfl⟩ := by simpa only [Prod.mk.injEq, if_true] using heq.symm.trans h
  obtain ⟨w, hw, hworld⟩ := executeAndRoot_world verifyRoot hexec
  have hfolded : (executeAndRoot rt ex.db b effects verifyRoot).2.toWorld.fold rt.rules =
      (executeAndRoot rt ex.db b effects verifyRoot).2.toWorld := by
    rw [hworld]
    split
    · exact fold_fold _ _
    · rename_i hv
      exact (hfold.resolve_left hv) w hw
  refine ⟨?_, rfl⟩
  rw [StateDb.commit_toWorld]
  exact hfolded.symm ▸ persist_reflects hst (executeAndRoot_tracks hd effects)

theorem persist_rooted (hd : db.DirtyStored) (hst : Reflects st.state db.toWorld)
    (hexec : rt.execute p db.toWorld b = .ok (effects, receipts))
    (h : persistStateChangesWithUndo rt (executeAndRoot rt db b effects true).2 st tip index
      modelsJobs fault = (.ok db', st')) :
    rt.nextWorld p db.toWorld b = .ok db'.toWorld ∧ db'.DirtyStored ∧
      Reflects st'.state db'.toWorld := by
  cases fault with
  | some e => exact nomatch (Prod.mk.inj h).1
  | none =>
    obtain ⟨w, hw, hworld⟩ := executeAndRoot_world true hexec
    rw [if_pos rfl] at hworld
    have hreflects : Reflects (persistStateChangesWithUndo rt (executeAndRoot rt db b effects true).2
        st tip index modelsJobs none).2.state (executeAndRoot rt db b effects true).2.toWorld :=
      persist_reflects hst (executeAndRoot_tracks hd effects)
    rw [h, hworld] at hreflects
    obtain rfl := Except.ok.inj (Prod.mk.inj h).1
    rw [nextWorld_of_executed hw]
    refine ⟨?_, nofun, ?_⟩
    · rw [StateDb.commit_toWorld]
      simp only [hworld, fold_fold]
    · rw [StateDb.commit_toWorld]
      simp only [hworld, fold_fold]
      exact hreflects

end Executor

end CitrateChain.Execution
