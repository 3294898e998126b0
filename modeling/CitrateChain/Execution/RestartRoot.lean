import CitrateChain.Base.Runs
import CitrateChain.Execution.Executor

/-! # The state root after a restart

A starting node loads every durable account and slot and roots the result at the height of the
applied tip. The store need not hold the storage root of an account with slots, since the fold
computes it again from them; an account without slots keeps the storage root it was stored with. -/
namespace CitrateChain.Execution
open Std (ExtTreeMap)
open Consensus (Hash Block)
open Storage Transition KvStore World AccountState KvOp

abbrev StorageRecord := (Address × Bytes) × Bytes

/-- Only 32-byte keys, each value as its first 32 bytes, zero if it has fewer. -/
def legacyHydrationView (records : List StorageRecord) : List StorageRecord :=
  records.filterMap fun e =>
    if e.1.2.length ≠ 32 then none
    else some (e.1, if 32 ≤ e.2.length then e.2.take 32 else List.replicate 32 0)

def bootStorageView (r : RootRules) (records : List StorageRecord) (tipHeight : UInt64) :
    List StorageRecord :=
  if r.activeAt (Word.saturatingAdd tipHeight 1) then records else legacyHydrationView records

def hydrate (r : RootRules) (accounts : List (Address × AccountState))
    (records : List StorageRecord) (tipHeight : UInt64) : StateDb :=
  let loaded : StateDb := accounts.foldl (fun db e => db.loadAccount e.1 e.2) {}
  let stored := loaded.applyAll r.keccak
    ((bootStorageView r records tipHeight).map fun e => .setStorage e.1.1 e.1.2 e.2)
  { stored with dirtyStorage := [], rootHeight := tipHeight }

section Hydrate
variable {r : RootRules} {accounts : List (Address × AccountState)} {records : List StorageRecord}
variable {w : World} {a : Address}

theorem loadAccount_foldl (accounts : List (Address × AccountState)) (db : StateDb) (a : Address) :
    (accounts.foldl (fun db e => db.loadAccount e.1 e.2) db).accounts[a]? =
        writeBatch (fun a => db.accounts[a]?) (accounts.map fun e => .put e.1 e.2) a ∧
      (accounts.foldl (fun db e => db.loadAccount e.1 e.2) db).storageTries = db.storageTries := by
  induction accounts generalizing db with
  | nil => exact ⟨rfl, rfl⟩
  | cons e accounts ih =>
    obtain ⟨hacc, htries⟩ := ih (db.loadAccount e.1 e.2)
    refine ⟨?_, htries⟩
    have hload : (fun a => (db.loadAccount e.1 e.2).accounts[a]?) =
        write (fun a => db.accounts[a]?) (.put e.1 e.2) := by
      funext b
      by_cases hb : b = e.1
      · simp [StateDb.loadAccount, write, key, value, hb]
      · have hne : ¬ e.1 = b := fun heq => hb heq.symm
        simp [StateDb.loadAccount, ExtTreeMap.getElem?_insert, write, key, hb, hne]
    rw [List.foldl_cons, hacc, hload]
    rfl

def World.Populated (w : World) : Prop := ∀ a ∈ w.storageTries, ∃ key, w.getStorage a key ≠ none

theorem World.Populated.setStorage (h : w.Populated) (keccak : Bytes → Hash) (a : Address)
    (key value : Bytes) : (w.apply keccak (.setStorage a key value)).Populated := by
  intro b hb
  by_cases hab : a = b
  · refine ⟨key, ?_⟩
    rw [getStorage_setStorage, if_pos (by rw [hab])]
    nofun
  · obtain ⟨key', hkey'⟩ := h b (by
      rcases ExtTreeMap.mem_insert.mp hb with heq | hb
      · exact absurd (Std.LawfulEqCmp.compare_eq_iff_eq.mp heq) hab
      · exact hb)
    refine ⟨key', ?_⟩
    rw [getStorage_setStorage, if_neg (by simp [hab])]
    exact hkey'

theorem setStorage_foldl (keccak : Bytes → Hash) (records : List StorageRecord) (w : World) :
    let w' := (records.map fun e => Effect.setStorage e.1.1 e.1.2 e.2).foldl (apply keccak) w
    w'.accounts = w.accounts ∧ (w.Populated → w'.Populated) ∧
      (fun s : Address × Bytes => w'.getStorage s.1 s.2) =
        writeBatch (fun s : Address × Bytes => w.getStorage s.1 s.2)
          (records.map fun e => .put e.1 e.2) := by
  induction records generalizing w with
  | nil => exact ⟨rfl, id, rfl⟩
  | cons e records ih =>
    obtain ⟨hacc, hpop, hslots⟩ := ih (w.apply keccak (.setStorage e.1.1 e.1.2 e.2))
    refine ⟨hacc, fun h => hpop (h.setStorage keccak _ _ _), hslots.trans ?_⟩
    have hwrite : (fun s : Address × Bytes =>
        (w.apply keccak (.setStorage e.1.1 e.1.2 e.2)).getStorage s.1 s.2) =
        write (fun s : Address × Bytes => w.getStorage s.1 s.2) (.put e.1 e.2) := by
      funext s
      rw [getStorage_setStorage]
      simp only [write, key, value, Function.update_apply, eq_comm]
    rw [hwrite]
    rfl

theorem RootRules.activeAt_succ {h : UInt64} (hactive : r.activeAt h = true) :
    r.activeAt (Word.saturatingAdd h 1) = true := by
  unfold activeAt at hactive ⊢
  split
  · rename_i start hstart
    simp only [hstart, Bool.and_eq_true, decide_eq_true_eq] at hactive ⊢
    have hle := Word.le_saturatingAdd h 1
    exact ⟨hactive.1.trans_le hle, hactive.2.trans hle⟩
  · rename_i hstart
    simp [hstart] at hactive

theorem hydrate_spec {s : StateStore} {h : UInt64} (hactive : r.activeAt h = true)
    (haccounts : s.accounts.ListedBy accounts) (hrecords : s.slots.ListedBy records) :
    (∀ a, (hydrate r accounts records h).accounts[a]? = s.accounts a) ∧
      (∀ a key, (hydrate r accounts records h).getStorage a key = s.slots (a, key)) ∧
      (hydrate r accounts records h).Populated ∧ (hydrate r accounts records h).rootHeight = h := by
  have hview : bootStorageView r records h = records := if_pos (RootRules.activeAt_succ hactive)
  have hworld : (hydrate r accounts records h).toWorld =
      { (records.map fun e => Effect.setStorage e.1.1 e.1.2 e.2).foldl (apply r.keccak)
          (accounts.foldl (fun db e => db.loadAccount e.1 e.2) ({} : StateDb)).toWorld with
        rootHeight := h } := by
    simp only [hydrate, hview, StateDb.applyAll_toWorld]
  generalize hl : accounts.foldl (fun db e => db.loadAccount e.1 e.2) ({} : StateDb) = loaded at hworld
  have hload := fun a => hl ▸ loadAccount_foldl accounts {} a
  have htries : loaded.storageTries = ∅ := (hload 0).2
  obtain ⟨hacc, hpop, hslots⟩ := setStorage_foldl r.keccak records loaded.toWorld
  refine ⟨fun a => ?_, fun a key => ?_, ?_, rfl⟩
  · have hnone : (fun a : Address => ({} : StateDb).accounts[a]?) = fun _ => none :=
      funext fun _ => ExtTreeMap.getElem?_empty
    rw [hworld]
    simp only [hacc, (hload a).1]
    rw [hnone, haccounts.writeBatch]
  · have hnone : (fun s : Address × Bytes => loaded.getStorage s.1 s.2) = fun _ => none := by
      funext s
      simp [getStorage, htries]
    rw [hnone, hrecords.writeBatch] at hslots
    rw [hworld]
    exact congrFun hslots (a, key)
  · rw [hworld]
    refine hpop fun a ha => ?_
    simp [htries] at ha

end Hydrate

def AccountState.withoutRoot (account : AccountState) : AccountState :=
  { account with storageRoot := 0 }

/-- The store holds the slots of `w` and its accounts, up to the storage roots of accounts with
slots. -/
structure Restorable (s : StateStore) (w : World) : Prop where
  slots : ∀ a key, s.slots (a, key) = w.getStorage a key
  accounts : ∀ a, (s.accounts a).map withoutRoot = w.accounts[a]?.map withoutRoot
  bare : ∀ a, (∀ key, w.getStorage a key = none) → s.accounts a = w.accounts[a]?

theorem Reflects.restorable {s : StateStore} {w : World} (h : Reflects s w) : Restorable s w where
  slots := h.slots
  accounts a := by rw [h.accounts]
  bare a _ := h.accounts a

section Root
variable {r : RootRules} {s : StateStore} {w v : World} {a : Address}

theorem entriesMap_eq {t t' : Trie} (ht : w.storageTries[a]? = some t)
    (ht' : v.storageTries[a]? = some t') (h : ∀ key, w.getStorage a key = v.getStorage a key) :
    t.entriesMap = t'.entriesMap := by
  apply ExtTreeMap.ext_getElem?
  intro key
  have hkey := h key
  simpa [getStorage, ht, ht', Trie.get_eq] using hkey

theorem folded_congr {account account' : AccountState} {key : Bytes} {value : Bytes}
    (hw : r.activeAt w.rootHeight = true) (hv : r.activeAt v.rootHeight = true)
    (h : ∀ key, w.getStorage a key = v.getStorage a key) (hkey : w.getStorage a key = some value)
    (heq : account.withoutRoot = account'.withoutRoot) :
    w.folded r a account = v.folded r a account' := by
  obtain ⟨t, ht⟩ := TreeMap.mem_iff_exists.mp (mem_storageTries_of_getStorage hkey)
  obtain ⟨t', ht'⟩ := TreeMap.mem_iff_exists.mp
    (mem_storageTries_of_getStorage ((h key).symm.trans hkey))
  have hroot : t.rootHash r.keccak = t'.rootHash r.keccak :=
    Trie.rootHash_congr (entriesMap_eq ht ht' h)
  simp only [folded, ht, ht', hw, hv, storageRootOf, if_true, hroot]
  cases account
  cases account'
  simp only [AccountState.withoutRoot, AccountState.mk.injEq] at heq ⊢
  tauto

theorem Restorable.root_eq {accounts : List (Address × AccountState)} {records : List StorageRecord}
    (h : Restorable s w) (hfold : w.fold r = w) (hactive : r.activeAt w.rootHeight = true)
    (haccounts : s.accounts.ListedBy accounts) (hrecords : s.slots.ListedBy records) :
    (hydrate r accounts records w.rootHeight).toWorld.stateRoot r = w.stateRoot r := by
  obtain ⟨hacc, hslots, hpop, hheight⟩ := hydrate_spec hactive haccounts hrecords
  generalize (hydrate r accounts records w.rootHeight).toWorld = v at *
  have hget : ∀ a key, w.getStorage a key = v.getStorage a key := fun a key =>
    ((hslots a key).trans (h.slots a key)).symm
  have heq : (v.fold r).accounts = (w.fold r).accounts := by
    apply ExtTreeMap.ext_getElem?
    intro a
    by_cases hempty : ∀ key, w.getStorage a key = none
    · have hnot : a ∉ v.storageTries := by
        intro ha
        obtain ⟨key, hkey⟩ := hpop a ha
        exact hkey ((hget a key).symm.trans (hempty key))
      rw [hfold, fold_accounts, hacc, h.bare a hempty]
      cases w.accounts[a]? with
      | none => rfl
      | some account => exact congrArg some (folded_of_not_mem hnot)
    · obtain ⟨key, hkey⟩ := not_forall.mp hempty
      obtain ⟨value, hvalue⟩ := Option.ne_none_iff_exists'.mp hkey
      have hmap := h.accounts a
      rw [fold_accounts, fold_accounts, hacc]
      cases hs : s.accounts a with
      | none =>
        cases hw : w.accounts[a]? with
        | none => rfl
        | some account => simp [hs, hw] at hmap
      | some stored =>
        cases hw : w.accounts[a]? with
        | none => simp [hs, hw] at hmap
        | some account =>
          rw [hs, hw] at hmap
          have hroots : account.withoutRoot = stored.withoutRoot := (Option.some.inj hmap).symm
          exact congrArg some (folded_congr hactive (hheight ▸ hactive) (hget a) hvalue hroots).symm
  simp only [stateRoot, accountsRoot, heq]

end Root

structure CommittingNode (P : Type) where
  executor : Executor P
  storage : StorageManager

structure Commit where
  block : Block
  trusted : Bool
  fault : Option String := none

variable {P : Type} {rt : Runtime P} {n n' : CommittingNode P} {c : Commit}

def CommittingNode.commit (rt : Runtime P) (n : CommittingNode P) (c : Commit) : CommittingNode P :=
  let done := if c.trusted then Executor.applyBlockTrusted rt n.executor n.storage c.block c.fault
    else Executor.applyBlock rt n.executor n.storage c.block c.fault
  ⟨done.2.1, done.2.2⟩

/-- A trusted block leaves no account with an emptied trie: an account without slots after its
effects had none before it, and already has the storage root the fold gives it. -/
def KeepsTries (rt : Runtime P) (n : CommittingNode P) (c : Commit) : Prop :=
  c.trusted = true → ∀ w, rt.executed n.executor.rewardPolicy n.executor.db.toWorld c.block = .ok w →
    ∀ a account, w.accounts[a]? = some account → (∀ key, w.getStorage a key = none) →
      (∀ key, n.executor.db.getStorage a key = none) ∧ w.folded rt.rules a account = account

structure RestartOk (rt : Runtime P) (n : CommittingNode P) : Prop where
  store : Restorable n.storage.state n.executor.db.toWorld
  folded : n.executor.db.fold rt.rules = n.executor.db.toWorld
  dirty : n.executor.db.DirtyStored
  tip : ∀ tip, n.storage.blocks.appliedTip = some tip → tip.height = n.executor.db.rootHeight

section Commits
open Executor
variable {db : StateDb} {st : StorageManager} {w : World} {b : Block} {effects : List Effect}

theorem folded_withoutRoot {r : RootRules} {a : Address} {account : AccountState} :
    (w.folded r a account).withoutRoot = account.withoutRoot := by
  unfold folded
  split
  · rfl
  · rfl

theorem Restorable.none_iff {s : StateStore} {a : Address} (h : Restorable s w) :
    s.accounts a = none ↔ w.accounts[a]? = none := by
  have hmap := h.accounts a
  rw [← Option.map_eq_none_iff, hmap, Option.map_eq_none_iff]

variable {modelsJobs : Option ModelJobUndo} {index : ReceiptIndexBatch}

theorem Restorable.trusted {tip : AppliedTip} (h : Restorable st.state w) (ht : StateDb.Tracks w db)
    (hkeep : ∀ a account, db.accounts[a]? = some account → (∀ key, db.getStorage a key = none) →
      (∀ key, w.getStorage a key = none) ∧ db.folded rt.rules a account = account) :
    Restorable (persistStateChangesWithUndo rt db st tip index modelsJobs none).2.state
      (db.fold rt.rules) := by
  refine ⟨fun a key => ?_, fun a => ?_, fun a hbare => ?_⟩
  · rw [persist_slots, fold_getStorage]
    split
    · rfl
    · rename_i hs
      rw [ht.slot a key hs]
      exact h.slots a key
  · rw [persist_accounts ht.dirty, fold_accounts, Option.map_map]
    have hroot : withoutRoot ∘ db.folded rt.rules a = withoutRoot :=
      funext fun account => folded_withoutRoot
    rw [hroot]
    split
    · rfl
    · rename_i ha
      rw [ht.account a ha]
      exact h.accounts a
  · rw [persist_accounts ht.dirty, fold_accounts]
    cases hdb : db.accounts[a]? with
    | none =>
      split
      · rfl
      · rename_i ha
        exact h.none_iff.mpr ((ht.account a ha).symm.trans hdb)
    | some account =>
      obtain ⟨hbefore, hfolded⟩ := hkeep a account hdb hbare
      rw [Option.map_some, hfolded]
      split
      · rfl
      · rename_i ha
        rw [h.bare a hbefore, ← ht.account a ha, hdb]

theorem Restorable.verified {tip : AppliedTip} (h : Restorable st.state db.toWorld)
    (hd : db.DirtyStored) :
    Reflects (persistStateChangesWithUndo rt (executeAndRoot rt db b effects true).2 st tip index
      modelsJobs none).2.state (executeAndRoot rt db b effects true).2.toWorld := by
  have ht : StateDb.Tracks db.toWorld (executeAndRoot rt db b effects true).2 :=
    executeAndRoot_tracks hd effects
  refine ⟨fun a => ?_, fun a key => ?_⟩
  · rw [persist_accounts ht.dirty]
    split
    · rfl
    rename_i ha
    rw [ht.account a ha]
    simp only [executeAndRoot, if_true, StateDb.calculateStateRoot, StateDb.mem_foldl_insert, not_or,
      List.mem_filter, ExtTreeMap.mem_keys, decide_eq_true_eq, not_and] at ha
    by_cases hmem : a ∈ ((db.applyAll rt.rules.keccak effects).setRootHeight b.height).accounts
    · -- no resident trie after the block, hence none before it
      apply h.bare
      intro key
      by_contra hkey
      obtain ⟨value, hvalue⟩ := Option.ne_none_iff_exists'.mp hkey
      exact ha.2 hmem (StateDb.mem_storageTries_applyAll (mem_storageTries_of_getStorage hvalue) _)
    · have hexec := ((StateDb.Tracks.of_clean hd).applyAll effects).account a ha.1
      have hnone := ExtTreeMap.getElem?_eq_none hmem
      rw [← hexec]
      exact (h.none_iff.mpr (hexec.symm.trans hnone)).trans hnone.symm
  · rw [persist_slots]
    split
    · rfl
    · rename_i hs
      rw [ht.slot a key hs]
      exact h.slots a key

theorem executeAndRoot_rootHeight (db : StateDb) (b : Block) (effects : List Effect)
    (verifyRoot : Bool) : (executeAndRoot rt db b effects verifyRoot).2.rootHeight = b.height := by
  unfold executeAndRoot
  split
  · rfl
  · rfl

theorem RestartOk.commit (h : RestartOk rt n) (hkeep : KeepsTries rt n c) :
    RestartOk rt (n.commit rt c) := by
  obtain ⟨block, trusted, fault⟩ := c
  have hcommit : n.commit rt ⟨block, trusted, fault⟩ =
      ⟨(applyBlockInner rt n.executor n.storage block true (!trusted) fault).2.1,
        (applyBlockInner rt n.executor n.storage block true (!trusted) fault).2.2⟩ := by
    cases trusted with
    | true => rfl
    | false => rfl
  rw [hcommit]
  rcases applyBlockInner_cases rt n.executor n.storage block true (!trusted) fault with
    ⟨e, code, heq, -⟩ | ⟨effects, receipts, hexec, -, heq⟩
  · rw [heq]
    exact ⟨⟨h.store.slots, h.store.accounts, h.store.bare⟩, h.folded, h.dirty, h.tip⟩
  rw [heq]
  simp only [if_true]
  refine ⟨?_, ?_, nofun, ?_⟩
  · rw [StateDb.commit_toWorld]
    cases trusted with
    | true =>
      obtain ⟨w, hw, hworld⟩ := executeAndRoot_world false hexec
      refine Restorable.trusted h.store (executeAndRoot_tracks h.dirty effects) ?_
      rw [Bool.not_true, hworld]
      exact hkeep rfl w hw
    | false =>
      have hfold : (executeAndRoot rt n.executor.db block effects true).2.toWorld.fold rt.rules =
          (executeAndRoot rt n.executor.db block effects true).2.toWorld := fold_fold _ _
      exact hfold.symm ▸ (h.store.verified h.dirty).restorable
  · rw [StateDb.commit_toWorld]
    exact fold_fold _ _
  · rintro tip htip
    cases htip
    exact (executeAndRoot_rootHeight n.executor.db block effects (!trusted)).symm

end Commits

/-- A node whose store holds the state in memory, rooted at the height of the durable tip. -/
structure Persisted (rt : Runtime P) (n : CommittingNode P) : Prop where
  store : Reflects n.storage.state n.executor.db.toWorld
  folded : n.executor.db.fold rt.rules = n.executor.db.toWorld
  dirty : n.executor.db.DirtyStored
  tip : ∀ tip, n.storage.blocks.appliedTip = some tip → tip.height = n.executor.db.rootHeight

theorem Persisted.restartOk (h : Persisted rt n) : RestartOk rt n :=
  ⟨h.store.restorable, h.folded, h.dirty, h.tip⟩

/-- After every sequence of commits in which no trusted block empties a trie, a node restarted on the
store computes the state root of the running one. -/
theorem restart_root_pure {n₀ : CommittingNode P} {cs : List Commit} {tip : AppliedTip}
    {accounts : List (Address × AccountState)} {records : List StorageRecord}
    (h₀ : Persisted rt n₀)
    (hr : Runs (fun n c n' => n' = n.commit rt c ∧ KeepsTries rt n c) n₀ cs n)
    (htip : n.storage.blocks.appliedTip = some tip) (hactive : rt.rules.activeAt tip.height = true)
    (haccounts : n.storage.state.accounts.ListedBy accounts)
    (hrecords : n.storage.state.slots.ListedBy records) :
    ((hydrate rt.rules accounts records tip.height).calculateStateRoot rt.rules).1 =
      (n.executor.db.calculateStateRoot rt.rules).1 := by
  have hok : RestartOk rt n := hr.invariant h₀.restartOk fun t c u ht ⟨hu, hkeep⟩ => by
    rw [hu]
    exact ht.commit hkeep
  rw [hok.tip tip htip] at hactive ⊢
  exact hok.store.root_eq hok.folded hactive haccounts hrecords

def freshNode : CommittingNode Unit where
  executor := ⟨{}, ()⟩
  storage := .empty

/-- Block 1 gives account 1 a balance and a slot, every other block deletes the slot. -/
def slotRuntime : Runtime Unit where
  rules :=
    { keccak := fun bs => BitVec.ofNat 256 (bs.foldl (fun n b => 256 * n + b.toNat) 1)
      encodeAccount := fun account => account.storageRoot.asBytes
      activation := some 0 }
  execute _ _ b :=
    .ok (if b.height = 1 then [.setBalance 1 1, .setStorage 1 [0] [1]] else [.deleteStorage 1 [0]], [])
  encodedLen _ := 0

def slotCommit (height : UInt64) : Commit where
  block := { header := { blockHash := BitVec.ofNat 256 height.toNat, height } }
  trusted := true

def slotWritten : CommittingNode Unit := freshNode.commit slotRuntime (slotCommit 1)

def slotNode : CommittingNode Unit := slotWritten.commit slotRuntime (slotCommit 2)

theorem listedBy_single {K V : Type} [DecidableEq K] (k : K) (v : V) :
    KvStore.ListedBy (writeBatch (fun _ => none) [.put k v]) [(k, v)] := by
  intro k' v'
  rw [writeBatch_cons, writeBatch_nil, write, Function.update_apply]
  by_cases hk : k' = k
  · simp [key, value, hk, eq_comm]
  · simp [key, hk]

theorem slotNode_slots : slotNode.storage.state.slots.ListedBy [] := by
  have h : slotNode.storage.state.slots =
      writeBatch (fun _ => none) [.put (1, [0]) [1], .delete (1, [0])] := rfl
  intro slot value
  rw [h, writeBatch_cons, writeBatch_cons, writeBatch_nil, write,
    write, Function.update_apply, Function.update_apply]
  by_cases hs : slot = (1#160, [0])
  · simp [KvOp.key, KvOp.value, hs]
  · simp [KvOp.key, hs]

theorem freshNode_persisted (rt : Runtime Unit) : Persisted rt freshNode where
  store := ⟨fun a => ExtTreeMap.getElem?_empty.symm, fun a key => by
    simp [freshNode, StorageManager.empty, getStorage]⟩
  folded := fold_of_no_tries rfl
  dirty := nofun
  tip := nofun

theorem trusted_delete_changes_restart_root : Persisted slotRuntime freshNode ∧
      Runs (fun n c n' => n' = n.commit slotRuntime c) freshNode [slotCommit 1, slotCommit 2]
        slotNode ∧
      slotNode.storage.blocks.appliedTip = some ⟨2, 2⟩ ∧
      slotNode.storage.state.accounts.ListedBy [(1, { balance := 1 })] ∧
      slotNode.storage.state.slots.ListedBy [] ∧
      ((hydrate slotRuntime.rules [(1, { balance := 1 })] [] 2).calculateStateRoot
        slotRuntime.rules).1 ≠ (slotNode.executor.db.calculateStateRoot slotRuntime.rules).1 :=
  ⟨freshNode_persisted _, .step (.step .refl rfl) rfl, by decide, listedBy_single _ _,
    slotNode_slots, by decide +kernel⟩

theorem slotCommit_keepsTries : KeepsTries slotRuntime freshNode (slotCommit 1) := by
  intro _ w hw a account hacc hbare
  cases hw
  by_cases ha : a = 1
  · subst ha
    exact absurd (hbare [0]) (by decide)
  · have hins : ((∅ : ExtTreeMap Address AccountState).insert 1 { balance := 1 })[a]? = some account :=
      hacc
    rcases TreeMap.getElem?_insert_eq_some.mp hins with ⟨rfl, -⟩ | ⟨-, hnone⟩
    · exact absurd rfl ha
    · simp at hnone

theorem restart_root_pure_one_slot :
    ((hydrate slotRuntime.rules [(1, { balance := 1 })] [((1, [0]), [1])] 1).calculateStateRoot
      slotRuntime.rules).1 = (slotWritten.executor.db.calculateStateRoot slotRuntime.rules).1 := by
  have hr : Runs (fun n c n' => n' = n.commit slotRuntime c ∧ KeepsTries slotRuntime n c) freshNode
      [slotCommit 1] slotWritten := .step .refl ⟨rfl, slotCommit_keepsTries⟩
  have htip : slotWritten.storage.blocks.appliedTip = some ⟨1, 1⟩ := rfl
  have haccounts : slotWritten.storage.state.accounts =
      writeBatch (fun _ => none) [.put 1 { balance := 1 }] := rfl
  have hslots : slotWritten.storage.state.slots =
      writeBatch (fun _ => none) [.put (1, [0]) [1]] := rfl
  have hactive : slotRuntime.rules.activeAt 1 = true := by decide
  have hlisted := listedBy_single (1 : Address) ({ balance := 1 } : AccountState)
  have hlisted' := listedBy_single ((1, [0]) : Address × Bytes) ([1] : Bytes)
  rw [← haccounts] at hlisted
  rw [← hslots] at hlisted'
  -- elaborated before it meets the goal, which would be unfolded otherwise
  have hpure := restart_root_pure (freshNode_persisted _) hr htip hactive hlisted hlisted'
  exact hpure

end CitrateChain.Execution
