import CitrateChain.Base.Overlay
import CitrateChain.Execution.BlockApplication

/-! # Transfers that execute into a journal

A transfer reads the state and leaves its writes in a journal, together with the accounts it read and
the version it was pinned at. Draining the journal makes the writes part of the state. What a transfer
leaves behind depends on the accounts in its read set only. -/
namespace CitrateChain.Execution
open World
open Std (ExtTreeMap)
open Consensus (Hash)

abbrev ReadVersion := UInt64

structure ReadSet where
  pinnedVersion : Option ReadVersion := none
  accounts : List Address := []

def ReadSet.isValidAt (rs : ReadSet) (accountVersion : Address → ReadVersion) : Bool :=
  match rs.pinnedVersion with
  | some pinned => rs.accounts.all fun a => accountVersion a ≤ pinned
  | none => false

abbrev WriteSet := List Address

structure ScratchJournal where
  readSet : ReadSet := {}
  writeSet : WriteSet := []
  pending : ExtTreeMap Address PendingWrite := ∅
  requiresSerialCommit : Bool := false

namespace ScratchJournal

def pinAt (_ : ScratchJournal) (version : ReadVersion) : ScratchJournal where
  readSet := { pinnedVersion := some version }

def recordRead (j : ScratchJournal) (a : Address) : ScratchJournal :=
  { j with readSet := { j.readSet with accounts := j.readSet.accounts.insert a } }

def recordBalance (j : ScratchJournal) (a : Address) (newBalance : U256) : ScratchJournal :=
  { j with
    writeSet := j.writeSet.insert a
    pending := j.pending.insert a { j.pending[a]?.getD {} with newBalance := some newBalance } }

def recordNonce (j : ScratchJournal) (a : Address) (newNonce : UInt64) : ScratchJournal :=
  { j with
    writeSet := j.writeSet.insert a
    pending := j.pending.insert a { j.pending[a]?.getD {} with newNonce := some newNonce } }

def pendingBalance (j : ScratchJournal) (a : Address) : Option U256 :=
  j.pending[a]?.bind (·.newBalance)

def pendingNonce (j : ScratchJournal) (a : Address) : Option UInt64 :=
  j.pending[a]?.bind (·.newNonce)

def discardWrites (j : ScratchJournal) : ScratchJournal := { j with pending := ∅ }

def balanceOf (j : ScratchJournal) (w : World) (a : Address) : U256 :=
  (j.pendingBalance a).getD (w.getAccount a).balance

def nonceOf (j : ScratchJournal) (w : World) (a : Address) : UInt64 :=
  (j.pendingNonce a).getD (w.getAccount a).nonce

def Covered (j : ScratchJournal) : Prop :=
  ∀ a ∈ j.pending, a ∈ j.readSet.accounts ∧ a ∈ j.writeSet

variable {j : ScratchJournal}

theorem Covered.recordRead (h : j.Covered) (a : Address) : (j.recordRead a).Covered := fun b hb =>
  ⟨List.mem_insert_of_mem (h b hb).1, (h b hb).2⟩

variable {a : Address}

section

variable (h : j.Covered) (ha : a ∈ j.readSet.accounts)
include h ha

theorem Covered.record (write : PendingWrite) :
    ({ j with writeSet := j.writeSet.insert a, pending := j.pending.insert a write } :
      ScratchJournal).Covered := by
  intro b hb
  rcases ExtTreeMap.mem_insert.mp hb with hab | hb
  · obtain rfl := Std.LawfulEqCmp.eq_of_compare hab
    exact ⟨ha, List.mem_insert_self⟩
  · exact ⟨(h b hb).1, List.mem_insert_of_mem (h b hb).2⟩

theorem Covered.recordBalance (balance : U256) : (j.recordBalance a balance).Covered :=
  h.record ha _

theorem Covered.recordNonce (nonce : UInt64) : (j.recordNonce a nonce).Covered :=
  h.record ha _

end

theorem discardWrites_covered (j : ScratchJournal) : j.discardWrites.Covered :=
  fun _ hb => absurd hb ExtTreeMap.not_mem_empty

/-! A journal at another version. -/

def repin (j : ScratchJournal) (version : ReadVersion) : ScratchJournal :=
  { j with readSet := { j.readSet with pinnedVersion := some version } }

@[simp] theorem pinAt_repin (j : ScratchJournal) (v version : ReadVersion) :
    (j.pinAt v).repin version = j.pinAt version := rfl

@[simp] theorem recordRead_repin (j : ScratchJournal) (version : ReadVersion) (a : Address) :
    (j.repin version).recordRead a = (j.recordRead a).repin version := rfl

@[simp] theorem recordBalance_repin (j : ScratchJournal) (version : ReadVersion) (a : Address)
    (b : U256) : (j.repin version).recordBalance a b = (j.recordBalance a b).repin version := rfl

@[simp] theorem balanceOf_repin (j : ScratchJournal) (version : ReadVersion) (w : World)
    (a : Address) : (j.repin version).balanceOf w a = j.balanceOf w a := rfl

theorem balanceOf_congr {w w' : World} (h : w'.getAccount a = w.getAccount a) :
    j.balanceOf w' a = j.balanceOf w a := by
  rw [balanceOf, balanceOf, h]

theorem nonceOf_congr {w w' : World} (h : w'.getAccount a = w.getAccount a) :
    j.nonceOf w' a = j.nonceOf w a := by
  rw [nonceOf, nonceOf, h]

end ScratchJournal

section Drain
variable (keccak : Bytes → Hash)

def drainWrite (w : World) (e : Address × PendingWrite) : World :=
  let w := match e.2.newBalance with
    | some balance => w.apply keccak (.setBalance e.1 balance)
    | none => w
  let w := match e.2.newNonce with
    | some nonce => w.apply keccak (.setNonce e.1 nonce)
    | none => w
  match e.2.newCode with
  | some code => (w.apply keccak (.createAccountIfNotExists e.1)).apply keccak (.setCode e.1 code)
  | none => w

/-- `drain_journal` for a journal without storage, model and job writes. -/
def drainJournal (w : World) (j : ScratchJournal) : World :=
  j.pending.toList.foldl (drainWrite keccak) w

def PendingWrite.update (p : PendingWrite) (account : AccountState) : AccountState :=
  { account with
    balance := p.newBalance.getD account.balance
    nonce := p.newNonce.getD account.nonce
    codeHash := (p.newCode.map keccak).getD account.codeHash }

def ScratchJournal.patch (j : ScratchJournal) : Patch Address AccountState := fun a =>
  j.pending[a]?.map (PendingWrite.update keccak)

section

variable (w : World)
include w

theorem World.getAccount_setAccount_ite (a b : Address) (state : AccountState) :
    (w.setAccount a state).getAccount b = if a = b then state else w.getAccount b := by
  rw [getAccount, getAccount_setAccount]
  split <;> rfl

theorem World.getAccount_setBalance (a b : Address) (balance : U256) :
    (w.apply keccak (.setBalance a balance)).getAccount b =
      if a = b then { w.getAccount b with balance } else w.getAccount b := by
  rw [apply, getAccount_setAccount_ite]
  split <;> simp_all

theorem World.getAccount_setNonce (a b : Address) (nonce : UInt64) :
    (w.apply keccak (.setNonce a nonce)).getAccount b =
      if a = b then { w.getAccount b with nonce } else w.getAccount b := by
  rw [apply, getAccount_setAccount_ite]
  split <;> simp_all

theorem World.getAccount_setCode (a b : Address) (code : Bytes) :
    (w.apply keccak (.setCode a code)).getAccount b =
      if a = b then { w.getAccount b with codeHash := keccak code } else w.getAccount b := by
  rw [apply, getAccount_setAccount_ite]
  split <;> simp_all

theorem World.getAccount_create (a b : Address) :
    (w.apply keccak (.createAccountIfNotExists a)).getAccount b = w.getAccount b := by
  rw [apply]
  split
  · rfl
  next ha =>
  rw [getAccount_setAccount_ite]
  split
  · next hab =>
    subst hab
    rw [getAccount, ExtTreeMap.getElem?_eq_none ha]
    rfl
  · rfl

end

variable {keccak}

theorem getAccount_drainWrite (w : World) (e : Address × PendingWrite) (b : Address) :
    (drainWrite keccak w e).getAccount b =
      if e.1 = b then e.2.update keccak (w.getAccount b) else w.getAccount b := by
  obtain ⟨a, balance, nonce, code⟩ := e
  by_cases hab : a = b <;> cases balance <;> cases nonce <;> cases code <;>
    simp [drainWrite, PendingWrite.update, getAccount_setBalance, getAccount_setNonce,
      getAccount_setCode, getAccount_create, hab]

variable {es : List (Address × PendingWrite)}

theorem getAccount_foldl_drainWrite_of_ne {a : Address} (h : ∀ e ∈ es, e.1 ≠ a) (w : World) :
    (es.foldl (drainWrite keccak) w).getAccount a = w.getAccount a := by
  induction es generalizing w with
  | nil => rfl
  | cons e es ih =>
    rw [List.foldl_cons, ih fun e' he' => h e' (List.mem_cons_of_mem _ he'), getAccount_drainWrite,
      if_neg (h e List.mem_cons_self)]

theorem getAccount_foldl_drainWrite (hes : es.Pairwise fun e e' => e.1 ≠ e'.1)
    {e : Address × PendingWrite} (he : e ∈ es) (w : World) :
    (es.foldl (drainWrite keccak) w).getAccount e.1 = e.2.update keccak (w.getAccount e.1) := by
  induction es generalizing w with
  | nil => cases he
  | cons d es ih =>
    obtain ⟨hd, hes⟩ := List.pairwise_cons.mp hes
    rw [List.foldl_cons]
    rcases List.mem_cons.mp he with rfl | he
    · rw [getAccount_foldl_drainWrite_of_ne fun e' he' => (hd e' he').symm, getAccount_drainWrite,
        if_pos rfl]
    · rw [ih hes he, getAccount_drainWrite, if_neg (hd e he)]

theorem getAccount_drainJournal (w : World) (j : ScratchJournal) :
    (drainJournal keccak w j).getAccount = (j.patch keccak).apply w.getAccount := by
  have hdistinct : j.pending.toList.Pairwise fun e e' => e.1 ≠ e'.1 :=
    (ExtTreeMap.distinct_keys_toList (t := j.pending)).imp fun hne heq => hne (by simp [heq])
  funext a
  cases ha : j.pending[a]? with
  | none =>
    rw [Patch.apply, ScratchJournal.patch, ha, drainJournal, getAccount_foldl_drainWrite_of_ne]
    · rfl
    rintro ⟨b, p⟩ he rfl
    cases (ExtTreeMap.mem_toList_iff_getElem?_eq_some.mp he).symm.trans ha
  | some p =>
    rw [Patch.apply, ScratchJournal.patch, ha]
    exact getAccount_foldl_drainWrite hdistinct (ExtTreeMap.mem_toList_iff_getElem?_eq_some.mpr ha) w

end Drain

structure Transfer where
  sender : Address
  recipient : Option Address
  value : BitVec 128
  nonce : UInt64
  gasLimit : UInt64
  gasPrice : UInt64

structure TransferReceipt where
  sender : Address
  recipient : Option Address
  gasUsed : UInt64
  status : Bool
  effectiveGasPrice : UInt64
  revertReason : Option String
  deriving DecidableEq

namespace Transfer
variable (transferGas : UInt64)

def parties (tx : Transfer) : List Address := tx.sender :: tx.recipient.toList

def amount (tx : Transfer) : U256 := tx.value.setWidth 256

def gasFee (gas gasPrice : UInt64) : U256 := (U256.ofWord gas).saturatingMul (U256.ofWord gasPrice)

def invalidNonce (expected got : UInt64) : ExecutionError :=
  .rejected s!"Invalid nonce: expected {expected}, got {got}"

def insufficientBalance (need balance : U256) : ExecutionError :=
  .rejected s!"Insufficient balance: need {need.toNat}, have {balance.toNat}"

def overflow (what : String) : ExecutionError := .rejected s!"Arithmetic overflow: {what}"

def transferBalances (fromBalance toBalance value : U256) : Except ExecutionError (U256 × U256) :=
  if fromBalance < value then .error (insufficientBalance value fromBalance)
  else
    match toBalance.checkedAdd value with
    | none => .error (overflow "recipient balance")
    | some newTo => .ok (fromBalance.saturatingSub value, newTo)

def journalTransfer (w : World) (j : ScratchJournal) (sender recipient : Address) (value : U256) :
    ScratchJournal × Except ExecutionError Unit :=
  if sender = recipient then (j, .ok ())
  else
    let j := (j.recordRead sender).recordRead recipient
    match transferBalances (j.balanceOf w sender) (j.balanceOf w recipient) value with
    | .error e => (j, .error e)
    | .ok (newFrom, newTo) => ((j.recordBalance sender newFrom).recordBalance recipient newTo, .ok ())

def executeTransfer (w : World) (j : ScratchJournal) (tx : Transfer) (recipient : Address) :
    ScratchJournal × Except ExecutionError Unit :=
  if tx.gasLimit < transferGas then (j, .error (.rejected "Out of gas"))
  else journalTransfer w j tx.sender recipient tx.amount

/-- After dispatch: a success pays the unused gas back, a failure keeps the gas and the nonce step. -/
def settle (gasUsed : UInt64) (w : World) (tx : Transfer) (charged : U256) (nextNonce : UInt64) :
    ScratchJournal × Except ExecutionError Unit → ScratchJournal × TransferReceipt
  | (j, .ok ()) =>
    let refund := gasFee (Word.saturatingSub tx.gasLimit gasUsed) tx.gasPrice
    let currentBalance := j.balanceOf w tx.sender
    ((j.recordNonce tx.sender nextNonce).recordBalance tx.sender (currentBalance.saturatingAdd refund),
      { sender := tx.sender, recipient := tx.recipient, gasUsed, status := true,
        effectiveGasPrice := tx.gasPrice, revertReason := none })
  | (j, .error e) =>
    ((j.discardWrites.recordBalance tx.sender charged).recordNonce tx.sender nextNonce,
      { sender := tx.sender, recipient := tx.recipient, gasUsed := tx.gasLimit, status := false,
        effectiveGasPrice := tx.gasPrice, revertReason := some (toString e) })

/-- The checks in front of dispatch, and the balance that buying the gas leaves. -/
def charge (w : World) (tx : Transfer) (j : ScratchJournal) : Except ExecutionError U256 :=
  let currentNonce := j.nonceOf w tx.sender
  if currentNonce ≠ tx.nonce then .error (invalidNonce currentNonce tx.nonce)
  else
    let gasCost := gasFee tx.gasLimit tx.gasPrice
    let balance := j.balanceOf w tx.sender
    let need := gasCost.saturatingAdd tx.amount
    if balance < need then .error (insufficientBalance need balance)
    else if tx.nonce.toNat + 1 = 2 ^ 64 then .error (overflow "sender nonce")
    else .ok (balance.saturatingSub gasCost)

def executeTxIntoJournal (w : World) (tx : Transfer) (j : ScratchJournal) :
    Except ExecutionError (ScratchJournal × TransferReceipt × WriteSet) := do
  let j := j.recordRead tx.sender
  let charged ← charge w tx j
  match tx.recipient with
  | none => .error (.rejected "Invalid input data")
  | some recipient =>
    let settled := settle transferGas w tx charged (tx.nonce + 1)
      (executeTransfer transferGas w (j.recordBalance tx.sender charged) tx recipient)
    return (settled.1, settled.2, tx.parties)

section Locality
open ScratchJournal
variable {transferGas} {w w' : World} {tx : Transfer} {j j' : ScratchJournal} {recipient : Address}
  {receipt : TransferReceipt} {writes : WriteSet} {charged : U256} {nextNonce : UInt64}
  {r : ScratchJournal × Except ExecutionError Unit} {version : ReadVersion}

theorem executeTransfer_journal {P : ScratchJournal → Prop} (hsame : P j)
    (hread : P ((j.recordRead tx.sender).recordRead recipient))
    (hwrite : ∀ b c, P ((((j.recordRead tx.sender).recordRead recipient).recordBalance tx.sender
      b).recordBalance recipient c)) : P (executeTransfer transferGas w j tx recipient).1 := by
  unfold executeTransfer journalTransfer
  dsimp only
  split_ifs
  · exact hsame
  · exact hsame
  · split
    · exact hread
    · exact hwrite _ _

theorem executeTransfer_congr (hs : w'.getAccount tx.sender = w.getAccount tx.sender)
    (hr : recipient ∈ (executeTransfer transferGas w j tx recipient).1.readSet.accounts →
      w'.getAccount recipient = w.getAccount recipient) :
    executeTransfer transferGas w' j tx recipient = executeTransfer transferGas w j tx recipient := by
  unfold executeTransfer journalTransfer at hr ⊢
  dsimp only at hr ⊢
  rw [balanceOf_congr hs]
  split_ifs at hr ⊢
  · rfl
  · rfl
  · rw [balanceOf_congr (hr (by split <;> simp [recordRead, recordBalance]))]

theorem settle_readSet :
    (settle transferGas w tx charged nextNonce r).1.readSet = r.1.readSet := by
  obtain ⟨j, ⟨⟩ | _⟩ := r <;> rfl

theorem mem_executeTransfer_accounts {a : Address} (h : a ∈ j.readSet.accounts) :
    a ∈ (executeTransfer transferGas w j tx recipient).1.readSet.accounts :=
  have hread := List.mem_insert_of_mem (b := recipient) (List.mem_insert_of_mem (b := tx.sender) h)
  executeTransfer_journal (P := fun j => a ∈ j.readSet.accounts) h hread fun _ _ => hread

theorem executeTransfer_accounts {a : Address}
    (h : a ∈ (executeTransfer transferGas w j tx recipient).1.readSet.accounts) :
    a ∈ j.readSet.accounts ∨ a = tx.sender ∨ a = recipient := by
  have hread : a ∈ ((j.recordRead tx.sender).recordRead recipient).readSet.accounts →
      a ∈ j.readSet.accounts ∨ a = tx.sender ∨ a = recipient := by
    intro ha
    simp only [recordRead, List.mem_insert_iff] at ha
    tauto
  exact executeTransfer_journal (P := fun j' => a ∈ j'.readSet.accounts →
    a ∈ j.readSet.accounts ∨ a = tx.sender ∨ a = recipient) Or.inl hread (fun _ _ => hread) h

theorem executeTransfer_pin : (executeTransfer transferGas w j tx recipient).1.readSet.pinnedVersion =
    j.readSet.pinnedVersion :=
  executeTransfer_journal (P := fun j' => j'.readSet.pinnedVersion = j.readSet.pinnedVersion) rfl rfl
    fun _ _ => rfl

theorem executeTransfer_covered (h : j.Covered) :
    (executeTransfer transferGas w j tx recipient).1.Covered := by
  have hread := (h.recordRead tx.sender).recordRead recipient
  refine executeTransfer_journal h hread fun b c => ?_
  refine (hread.recordBalance ?_ b).recordBalance ?_ c
  · exact List.mem_insert_of_mem List.mem_insert_self
  · exact List.mem_insert_self

theorem settle_covered (h : r.1.Covered)
    (hs : tx.sender ∈ r.1.readSet.accounts) :
    (settle transferGas w tx charged nextNonce r).1.Covered := by
  obtain ⟨j, _ | _⟩ := r
  · exact (j.discardWrites_covered.recordBalance hs _).recordNonce hs _
  · exact (h.recordNonce hs _).recordBalance hs _

theorem settle_congr (hs : w'.getAccount tx.sender = w.getAccount tx.sender) :
    settle transferGas w' tx charged nextNonce r =
      settle transferGas w tx charged nextNonce r := by
  obtain ⟨j, _ | _⟩ := r
  · rfl
  · rw [settle, settle, balanceOf_congr hs]

section

variable (h : executeTxIntoJournal transferGas w tx j = .ok (j', receipt, writes))
include h

theorem executeTxIntoJournal_eq_ok :
    writes = tx.parties ∧ ∃ recipient charged nextNonce, tx.recipient = some recipient ∧
      settle transferGas w tx charged nextNonce (executeTransfer transferGas w
        ((j.recordRead tx.sender).recordBalance tx.sender charged) tx recipient) = (j', receipt) := by
  obtain ⟨charged, -, h⟩ := Result.bind_eq_ok.mp h
  split at h
  · cases h
  · cases h
    exact ⟨rfl, _, _, _, ‹_›, rfl⟩

theorem executeTxIntoJournal_congr
    (hw : ∀ a ∈ j'.readSet.accounts, w'.getAccount a = w.getAccount a) :
    executeTxIntoJournal transferGas w' tx j = .ok (j', receipt, writes) := by
  obtain ⟨charged, hcharged, hdone⟩ := Result.bind_eq_ok.mp h
  split at hdone
  · cases hdone
  rename_i recipient hrecipient
  have hreads := congrArg (·.1.readSet) (Except.ok.inj hdone)
  simp only [settle_readSet] at hreads
  have hs : w'.getAccount tx.sender = w.getAccount tx.sender := by
    refine hw _ (hreads ▸ mem_executeTransfer_accounts ?_)
    simp [recordRead, recordBalance]
  have hcharge : charge w' tx (j.recordRead tx.sender) = .ok charged := by
    rw [← hcharged, charge, charge, nonceOf_congr hs, balanceOf_congr hs]
  refine Result.bind_eq_ok.mpr ⟨charged, hcharge, ?_⟩
  rw [hrecipient]
  dsimp only
  rw [executeTransfer_congr hs fun hr => hw _ (hreads ▸ hr), settle_congr hs, hdone]

end

structure Journaled (tx : Transfer) (pin : ReadVersion) (j : ScratchJournal) (writes : WriteSet) :
    Prop where
  pinned : j.readSet.pinnedVersion = some pin
  covered : j.Covered
  touched : ∀ a ∈ j.readSet.accounts, a ∈ tx.parties
  writes : writes = tx.parties

theorem executeTxIntoJournal_journaled {pin : ReadVersion} (h : executeTxIntoJournal transferGas w tx
    (j.pinAt pin) = .ok (j', receipt, writes)) : Journaled tx pin j' writes := by
  obtain ⟨hwrites, recipient, charged, nextNonce, hrecipient, hsettle⟩ := executeTxIntoJournal_eq_ok h
  obtain rfl := congrArg Prod.fst hsettle
  generalize hstart : ((j.pinAt pin).recordRead tx.sender).recordBalance tx.sender
    charged = start at hsettle ⊢
  have hreads : start.readSet = { pinnedVersion := some pin, accounts := [tx.sender] } := hstart ▸ rfl
  have hsender : tx.sender ∈ start.readSet.accounts := by simp [hreads]
  have hempty : (j.pinAt pin).Covered := fun _ hb => absurd hb ExtTreeMap.not_mem_empty
  have hcovered : start.Covered := hstart ▸ (hempty.recordRead tx.sender).recordBalance
      (show tx.sender ∈ [].insert tx.sender from List.mem_insert_self) charged
  refine ⟨?_, ?_, fun a ha => ?_, hwrites⟩
  · rw [settle_readSet, executeTransfer_pin, hreads]
  · exact settle_covered (executeTransfer_covered hcovered) (mem_executeTransfer_accounts hsender)
  · rw [settle_readSet] at ha
    rw [parties, hrecipient, Option.toList_some, List.mem_cons, List.mem_singleton]
    rcases executeTransfer_accounts ha with ha | ha
    · rw [hreads] at ha
      exact .inl (List.mem_singleton.mp ha)
    · exact ha

theorem executeTransfer_repin : executeTransfer transferGas w (j.repin version) tx recipient =
    ((executeTransfer transferGas w j tx recipient).1.repin version,
      (executeTransfer transferGas w j tx recipient).2) := by
  unfold executeTransfer journalTransfer
  simp only [recordRead_repin, balanceOf_repin]
  split_ifs
  · rfl
  · rfl
  · split <;> rfl

theorem settle_repin : settle transferGas w tx charged nextNonce (r.1.repin version, r.2) =
    ((settle transferGas w tx charged nextNonce r).1.repin version,
      (settle transferGas w tx charged nextNonce r).2) := by
  obtain ⟨j, _ | _⟩ := r <;> rfl

theorem executeTxIntoJournal_repin (w : World) (tx : Transfer) (j : ScratchJournal)
    (version : ReadVersion) : executeTxIntoJournal transferGas w tx (j.repin version) =
      (executeTxIntoJournal transferGas w tx j).map fun r => (r.1.repin version, r.2) := by
  have hcharge : charge w tx ((j.recordRead tx.sender).repin version) =
    charge w tx (j.recordRead tx.sender) := rfl
  unfold executeTxIntoJournal
  simp only [recordRead_repin, hcharge, recordBalance_repin, executeTransfer_repin, settle_repin]
  cases charge w tx (j.recordRead tx.sender) with
  | error e => rfl
  | ok charged => cases tx.recipient <;> rfl

end Locality

end Transfer

end CitrateChain.Execution
