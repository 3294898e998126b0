import CitrateChain.Consensus.Block
import CitrateChain.Execution.Trie

/-! # The in-memory state

The world state a block executes on: accounts, one storage trie per contract, models and training
jobs. Around it the database tracks which accounts, slots and codes changed since the last commit.
The state root folds the root of every resident storage trie into its account first. -/
namespace CitrateChain.Execution
open Std (ExtTreeMap)
open Consensus (Hash Block)

abbrev Address := BitVec 160

abbrev ModelId := Hash

abbrev JobId := Hash

instance lawfulSlot : LawfulBEq (Address × Bytes) := inferInstance

/-- Model and training-job records are moved and compared by their encodings only. -/
abbrev ModelState := Bytes

abbrev TrainingJob := Bytes

structure AccountState where
  nonce : UInt64 := 0
  balance : BitVec 256 := 0
  storageRoot : Hash := 0
  codeHash : Hash := 0
  modelPermissions : List ModelId := []
  deriving DecidableEq

def AccountState.isEmpty (a : AccountState) : Bool :=
  a.nonce == 0 && a.balance == 0 && a.codeHash == 0 && a.storageRoot == 0 &&
    a.modelPermissions.isEmpty

/-- What state roots are computed with: the hash, the account encoding and the height from which
storage roots are a function of the slots alone. -/
structure RootRules where
  keccak : Bytes → Hash
  encodeAccount : AccountState → Bytes
  activation : Option UInt64

def RootRules.activeAt (r : RootRules) (height : UInt64) : Bool :=
  match r.activation with
  | some a => 0 < height && a ≤ height
  | none => false

structure World where
  accounts : ExtTreeMap Address AccountState := ∅
  storageTries : ExtTreeMap Address Trie := ∅
  models : ExtTreeMap ModelId ModelState := ∅
  trainingJobs : ExtTreeMap JobId TrainingJob := ∅
  rootHeight : UInt64 := 0

inductive Effect
  | setBalance (address : Address) (balance : BitVec 256)
  | setNonce (address : Address) (nonce : UInt64)
  | createAccountIfNotExists (address : Address)
  | setCode (address : Address) (code : Bytes)
  | addModelPermission (address : Address) (model : ModelId)
  | setStorage (address : Address) (key value : Bytes)
  | deleteStorage (address : Address) (key : Bytes)
  | putModel (id : ModelId) (model : ModelState)
  | putJob (id : JobId) (job : TrainingJob)

namespace World
variable {w : World} {r : RootRules} {a : Address}

def getAccount (w : World) (a : Address) : AccountState := w.accounts[a]?.getD {}

def getStorage (w : World) (a : Address) (key : Bytes) : Option Bytes :=
  w.storageTries[a]?.bind (·.get key)

def setAccount (w : World) (a : Address) (state : AccountState) : World :=
  { w with accounts := w.accounts.insert a state }

def apply (keccak : Bytes → Hash) (w : World) : Effect → World
  | .setBalance a balance => w.setAccount a { w.getAccount a with balance }
  | .setNonce a nonce => w.setAccount a { w.getAccount a with nonce }
  | .createAccountIfNotExists a => if a ∈ w.accounts then w else w.setAccount a {}
  | .setCode a code => w.setAccount a { w.getAccount a with codeHash := keccak code }
  | .addModelPermission a model =>
    let account := w.getAccount a
    if model ∈ account.modelPermissions then w
    else w.setAccount a { account with modelPermissions := account.modelPermissions ++ [model] }
  | .setStorage a key value =>
    let trie := w.storageTries[a]?.getD Trie.new
    { w with storageTries := w.storageTries.insert a (trie.insert key value) }
  | .deleteStorage a key =>
    match w.storageTries[a]? with
    | some trie => { w with storageTries := w.storageTries.insert a (trie.remove key) }
    | none => w
  | .putModel id model => { w with models := w.models.insert id model }
  | .putJob id job => { w with trainingJobs := w.trainingJobs.insert id job }

def accountSet (w : World) : Effect → Option Address
  | .setBalance a _ => some a
  | .setNonce a _ => some a
  | .createAccountIfNotExists a => if a ∈ w.accounts then none else some a
  | .setCode a _ => some a
  | .addModelPermission a model => if model ∈ (w.getAccount a).modelPermissions then none else some a
  | _ => none

def storageRootOf (r : RootRules) (canonical : Bool) (t : Trie) : Hash :=
  if canonical then t.rootHash r.keccak else t.legacyRootHash r.keccak

def folded (r : RootRules) (w : World) (a : Address) (account : AccountState) : AccountState :=
  match w.storageTries[a]? with
  | some t => { account with storageRoot := storageRootOf r (r.activeAt w.rootHeight) t }
  | none => account

def fold (r : RootRules) (w : World) : World :=
  { w with accounts := w.accounts.map (w.folded r) }

/-- The hash of the trie of all accounts that are not empty, in address order. -/
def accountsRoot (r : RootRules) (w : World) : Hash :=
  let trie := w.accounts.toList.foldl (fun t e =>
    if e.2.isEmpty then t else t.insert (Bytes.toBe 20 e.1.toNat) (r.encodeAccount e.2)) Trie.new
  trie.legacyRootHash r.keccak

def stateRoot (r : RootRules) (w : World) : Hash := (w.fold r).accountsRoot r

theorem getAccount_setAccount (w : World) (a b : Address) (state : AccountState) :
    (w.setAccount a state).accounts[b]? = if a = b then some state else w.accounts[b]? := by
  simp [setAccount, ExtTreeMap.getElem?_insert]

theorem getStorage_setStorage (w : World) (keccak : Bytes → Hash) (a b : Address)
    (key value key' : Bytes) : (w.apply keccak (.setStorage a key value)).getStorage b key' =
      if (a, key) = (b, key') then some value else w.getStorage b key' := by
  simp only [apply, getStorage, ExtTreeMap.getElem?_insert, Trie.get_eq, Prod.mk.injEq]
  by_cases hb : a = b
  · subst hb
    cases hw : w.storageTries[a]? with
    | none | some t => simp [ExtTreeMap.getElem?_insert]
  · simp [hb]

theorem getStorage_deleteStorage (w : World) (keccak : Bytes → Hash) (a b : Address)
    (key key' : Bytes) : (w.apply keccak (.deleteStorage a key)).getStorage b key' =
      if (a, key) = (b, key') then none else w.getStorage b key' := by
  cases hw : w.storageTries[a]? with
  | none =>
    simp only [apply, hw]
    split
    · rename_i h
      cases h
      simp [getStorage, hw]
    · rfl
  | some t =>
    simp only [apply, hw, getStorage, ExtTreeMap.getElem?_insert, Trie.get_eq, Prod.mk.injEq]
    by_cases hb : a = b
    · subst hb
      simp [hw, ExtTreeMap.getElem?_erase]
    · simp [hb]

theorem fold_accounts (r : RootRules) (w : World) (a : Address) :
    (w.fold r).accounts[a]? = w.accounts[a]?.map (w.folded r a) := by
  simp [fold]

@[simp] theorem fold_getStorage (r : RootRules) (w : World) (a : Address) (key : Bytes) :
    (w.fold r).getStorage a key = w.getStorage a key := rfl

theorem folded_of_not_mem {account : AccountState} (h : a ∉ w.storageTries) :
    w.folded r a account = account := by
  simp [folded, ExtTreeMap.getElem?_eq_none h]

theorem folded_folded (r : RootRules) (w : World) (a : Address) (account : AccountState) :
    w.folded r a (w.folded r a account) = w.folded r a account := by
  unfold folded
  split
  · rfl
  · rfl

theorem fold_of_no_tries (h : w.storageTries = ∅) : w.fold r = w := by
  have hfolded : ∀ a, w.folded r a = id := fun a =>
    funext fun _ => folded_of_not_mem (h ▸ ExtTreeMap.not_mem_empty)
  have hmap : w.accounts.map (w.folded r) = w.accounts := by
    apply ExtTreeMap.ext_getElem?
    simp [hfolded]
  exact congrArg (fun accounts => { w with accounts }) hmap

@[simp] theorem fold_fold (r : RootRules) (w : World) : (w.fold r).fold r = w.fold r := by
  have hacc : ((w.fold r).fold r).accounts = (w.fold r).accounts := by
    apply ExtTreeMap.ext_getElem?
    intro a
    have hf : (w.fold r).folded r a = w.folded r a := rfl
    rw [fold_accounts, hf, fold_accounts, Option.map_map]
    congr 1
    funext account
    exact folded_folded r w a account
  exact congrArg (fun accounts => { w with accounts }) hacc

end World

structure StateDb extends World where
  dirtyAccounts : List Address := []
  dirtyStorage : List (Address × Bytes) := []
  dirtyCode : List (Hash × Bytes) := []

namespace StateDb

def apply (keccak : Bytes → Hash) (db : StateDb) (e : Effect) : StateDb where
  toWorld := db.toWorld.apply keccak e
  dirtyAccounts := match db.accountSet e with
    | some a => db.dirtyAccounts.insert a
    | none => db.dirtyAccounts
  dirtyStorage := match e with
    | .setStorage a key _ => db.dirtyStorage.insert (a, key)
    | .deleteStorage a key => db.dirtyStorage.insert (a, key)
    | _ => db.dirtyStorage
  dirtyCode := match e with
    | .setCode _ code => db.dirtyCode.insert (keccak code, code)
    | _ => db.dirtyCode

def loadAccount (db : StateDb) (a : Address) (state : AccountState) : StateDb :=
  { db with accounts := db.accounts.insert a state, dirtyAccounts := db.dirtyAccounts.erase a }

def applyAll (keccak : Bytes → Hash) (db : StateDb) (es : List Effect) : StateDb :=
  es.foldl (apply keccak) db

def setRootHeight (db : StateDb) (height : UInt64) : StateDb := { db with rootHeight := height }

/-- The state root; every account with a resident trie is set to its folded value. -/
def calculateStateRoot (r : RootRules) (db : StateDb) : Hash × StateDb :=
  (db.toWorld.stateRoot r,
    { db with
      toWorld := db.toWorld.fold r
      dirtyAccounts := (db.accounts.keys.filter (· ∈ db.storageTries)).foldl
        (fun dirty a => dirty.insert a) db.dirtyAccounts })

def commit (r : RootRules) (db : StateDb) : StateDb :=
  { (db.calculateStateRoot r).2 with dirtyAccounts := [] }

variable {db : StateDb} {w : World} {r : RootRules} {keccak : Bytes → Hash}

@[simp] theorem calculateStateRoot_toWorld (db : StateDb) :
    (db.calculateStateRoot r).2.toWorld = db.toWorld.fold r := rfl

@[simp] theorem commit_toWorld (db : StateDb) : (db.commit r).toWorld = db.toWorld.fold r := rfl

theorem applyAll_toWorld (db : StateDb) (es : List Effect) :
    (db.applyAll keccak es).toWorld = es.foldl (World.apply keccak) db.toWorld := by
  induction es generalizing db with
  | nil => rfl
  | cons e es ih => exact ih (db.apply keccak e)

/-- `db` differs from `w` only where it is dirty, and every dirty account is there. -/
structure Tracks (w : World) (db : StateDb) : Prop where
  account : ∀ a, a ∉ db.dirtyAccounts → db.accounts[a]? = w.accounts[a]?
  dirty : ∀ a ∈ db.dirtyAccounts, a ∈ db.accounts
  slot : ∀ a key, (a, key) ∉ db.dirtyStorage → db.getStorage a key = w.getStorage a key

def DirtyStored (db : StateDb) : Prop := ∀ a ∈ db.dirtyAccounts, a ∈ db.accounts

theorem Tracks.of_clean (h : db.DirtyStored) : Tracks db.toWorld db :=
  ⟨fun _ _ => rfl, h, fun _ _ _ => rfl⟩

end StateDb

namespace World
variable {w : World} {keccak : Bytes → Hash} {a : Address}

theorem apply_accounts (keccak : Bytes → Hash) (w : World) (e : Effect) :
    (w.accountSet e = none ∧ (w.apply keccak e).accounts = w.accounts) ∨
      ∃ a state, w.accountSet e = some a ∧
        (w.apply keccak e).accounts = w.accounts.insert a state := by
  cases e with
  | setBalance a _ | setNonce a _ | setCode a _ => exact .inr ⟨a, _, rfl, rfl⟩
  | createAccountIfNotExists a =>
    by_cases h : a ∈ w.accounts
    · exact .inl ⟨by simp [accountSet, h], by simp [apply, h]⟩
    · exact .inr ⟨a, _, by simp [accountSet, h], by simp only [apply, h, if_false]; rfl⟩
  | addModelPermission a model =>
    by_cases h : model ∈ (w.getAccount a).modelPermissions
    · exact .inl ⟨by simp [accountSet, h], by simp [apply, h]⟩
    · exact .inr ⟨a, _, by simp [accountSet, h], by simp only [apply, h, if_false]; rfl⟩
  | setStorage | putModel | putJob => exact .inl ⟨rfl, rfl⟩
  | deleteStorage a key =>
    refine .inl ⟨rfl, ?_⟩
    simp only [apply]
    split
    · rfl
    · rfl

def slotSet : Effect → Option (Address × Bytes)
  | .setStorage a key _ => some (a, key)
  | .deleteStorage a key => some (a, key)
  | _ => none

theorem apply_getStorage {e : Effect} {key : Bytes} (h : slotSet e ≠ some (a, key)) :
    (w.apply keccak e).getStorage a key = w.getStorage a key := by
  cases e with
  | setStorage b key' value =>
    rw [getStorage_setStorage, if_neg (by simpa [slotSet] using h)]
  | deleteStorage b key' =>
    rw [getStorage_deleteStorage, if_neg (by simpa [slotSet] using h)]
  | setBalance | setNonce | setCode | putModel | putJob => rfl
  | createAccountIfNotExists b | addModelPermission b model =>
    simp only [apply]
    split
    · rfl
    · rfl

theorem mem_storageTries_apply {e : Effect} (h : a ∈ w.storageTries) :
    a ∈ (w.apply keccak e).storageTries := by
  cases e with
  | setStorage b key value => exact ExtTreeMap.mem_insert.mpr (.inr h)
  | deleteStorage b key =>
    simp only [apply]
    split
    · exact ExtTreeMap.mem_insert.mpr (.inr h)
    · exact h
  | setBalance | setNonce | setCode | putModel | putJob => exact h
  | createAccountIfNotExists b | addModelPermission b model =>
    simp only [apply]
    split
    · exact h
    · exact h

end World

namespace StateDb
variable {db : StateDb} {w : World} {r : RootRules} {keccak : Bytes → Hash}

theorem mem_storageTries_applyAll {a : Address} (h : a ∈ db.storageTries) (es : List Effect) :
    a ∈ (db.applyAll keccak es).storageTries :=
  List.foldlRecOn (motive := fun db : StateDb => a ∈ db.storageTries) es _ h
    fun _ h _ _ => World.mem_storageTries_apply h

theorem apply_dirtyStorage (db : StateDb) (e : Effect) :
    (db.apply keccak e).dirtyStorage = match World.slotSet e with
      | some slot => db.dirtyStorage.insert slot
      | none => db.dirtyStorage := by
  cases e <;> rfl

theorem Tracks.apply (h : Tracks w db) (e : Effect) : Tracks w (db.apply keccak e) := by
  have hslot : ∀ a key, (a, key) ∉ (db.apply keccak e).dirtyStorage →
      (db.apply keccak e).getStorage a key = w.getStorage a key := by
    intro a key hn
    rw [apply_dirtyStorage] at hn
    have hold : (a, key) ∉ db.dirtyStorage ∧ World.slotSet e ≠ some (a, key) := by
      cases hs : World.slotSet e with
      | none => exact ⟨by simpa [hs] using hn, nofun⟩
      | some slot =>
        simp only [hs, List.mem_insert_iff, not_or] at hn
        exact ⟨hn.2, fun he => hn.1 (Option.some.inj he).symm⟩
    exact (World.apply_getStorage hold.2).trans (h.slot a key hold.1)
  rcases db.toWorld.apply_accounts keccak e with ⟨hset, hacc⟩ | ⟨b, state, hset, hacc⟩
  · refine ⟨fun a ha => ?_, fun a ha => ?_, hslot⟩
    · simp only [StateDb.apply, hset] at ha
      exact (congrArg (·[a]?) hacc).trans (h.account a ha)
    · simp only [StateDb.apply, hset] at ha
      simpa only [StateDb.apply, hacc] using h.dirty a ha
  refine ⟨fun a ha => ?_, fun a ha => ?_, hslot⟩
  · simp only [StateDb.apply, hset, List.mem_insert_iff, not_or] at ha
    have hb : ¬ b = a := fun he => ha.1 he.symm
    have := h.account a ha.2
    simp only [StateDb.apply, hacc, ExtTreeMap.getElem?_insert]
    simpa [hb] using this
  · simp only [StateDb.apply, hset, List.mem_insert_iff] at ha
    simp only [StateDb.apply, hacc, ExtTreeMap.mem_insert]
    rcases ha with rfl | ha
    · exact .inl (by simp)
    · exact .inr (h.dirty a ha)

theorem Tracks.applyAll (h : Tracks w db) (es : List Effect) : Tracks w (db.applyAll keccak es) :=
  List.foldlRecOn es _ h fun _ h e _ => h.apply e

theorem Tracks.setRootHeight (h : Tracks w db) (height : UInt64) :
    Tracks w (db.setRootHeight height) := ⟨h.account, h.dirty, h.slot⟩

theorem mem_foldl_insert {as dirty : List Address} {a : Address} :
    a ∈ as.foldl (fun dirty a => dirty.insert a) dirty ↔ a ∈ dirty ∨ a ∈ as := by
  induction as generalizing dirty with
  | nil => simp
  | cons b as ih =>
    rw [List.foldl_cons, ih, List.mem_insert_iff, List.mem_cons]
    tauto

theorem Tracks.calculateStateRoot (h : Tracks w db) : Tracks w (db.calculateStateRoot r).2 := by
  refine ⟨fun a ha => ?_, fun a ha => ?_, h.slot⟩
  · simp only [StateDb.calculateStateRoot, mem_foldl_insert, not_or, List.mem_filter,
      ExtTreeMap.mem_keys, decide_eq_true_eq, not_and] at ha
    obtain ⟨hclean, htrie⟩ := ha
    rw [calculateStateRoot_toWorld, World.fold_accounts, ← h.account a hclean]
    cases hacc : db.accounts[a]? with
    | none => rfl
    | some account =>
      rw [Option.map_some, World.folded_of_not_mem (htrie (TreeMap.mem_of_getElem? hacc))]
  · simp only [StateDb.calculateStateRoot, mem_foldl_insert, List.mem_filter,
      ExtTreeMap.mem_keys] at ha
    have hmem : a ∈ db.accounts := by
      rcases ha with ha | ha
      · exact h.dirty a ha
      · exact ha.1
    simpa [calculateStateRoot_toWorld, World.fold] using hmem

end StateDb

end CitrateChain.Execution
