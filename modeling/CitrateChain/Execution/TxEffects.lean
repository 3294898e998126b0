import CitrateChain.Execution.TxExecution

/-! # What a transaction leaves behind

From the supply-hardening height on no program of a transaction writes to the state, so that what is
drained at the end is all it does. A failure drains the fee and the nonce. A success with a recipient
that is neither a contract nor a precompile moves the value if there is no data; a call with data
returns where it finds no code, and moves nothing. -/
namespace CitrateChain.Execution
open ScratchJournal BitVec CitrateChain.Action U256
open Consensus (Hash SignedTx)
open Transfer (gasFee transferBalances)

section Frame
variable {keccak : Bytes → Hash}

def SameWorld (s s' : TxState) : Prop := s'.world = s.world

instance : Std.Refl SameWorld := ⟨fun _ => rfl⟩

instance : IsTrans TxState SameWorld := ⟨fun _ _ _ h h' => Eq.trans h' h⟩

theorem onJournal_sameWorld (f : TxJournal → TxJournal) : Within SameWorld (onJournal f) :=
  .modify fun _ => rfl

theorem useGas_sameWorld (amount : UInt64) : Within SameWorld (useGas amount) :=
  .bind .get fun _ => .bind (.ensure _ _) fun _ => .modify fun _ => rfl

theorem txWrite_sameWorld (record : TxJournal → TxJournal) (effect : Effect) :
    Within SameWorld (txWrite keccak true record effect) := onJournal_sameWorld record

theorem txRead_sameWorld {α : Type} (journaled : Bool) (slot : Address) (pending : TxJournal → Option α)
    (stored : World → α) : Within SameWorld (txRead journaled slot pending stored) :=
  .bind (.whenever (onJournal_sameWorld _)) fun _ => .bind .get fun _ => .pure _

theorem journalTransfer_sameWorld (sender recipient : Address) (value : U256) :
    Within SameWorld (journalTransfer sender recipient value) :=
  .bind .get fun _ => .bind (onJournal_sameWorld _) fun _ => .ofExcept _

theorem callMachine_sameWorld (m : Machine) : Within SameWorld (callMachine m) := by
  intro s
  rfl

theorem TxProgram.run_sameWorld (p : TxProgram) : Within SameWorld (p.run keccak true) := by
  induction p with
  | ret => exact .pure ()
  | fail e => exact .throw e
  | panicked message => exact .throw _
  | useGas amount next ih => exact .bind (useGas_sameWorld amount) fun _ => ih
  | getStorage a key next ih | getModel id next ih | getJob id next ih =>
    exact .bind (txRead_sameWorld _ _ _ _) fun o => ih o
  | getBalance a next ih => exact .bind (txRead_sameWorld _ _ _ _) fun b => ih b
  | setStorage a key value next ih | setBalance a balance next ih | deleteStorage a key next ih =>
    exact .bind (txWrite_sameWorld _ _) fun _ => ih
  | registerModel id model next ih | updateModel id model next ih | updateJob id job next ih =>
    exact .bind (.bind (txRead_sameWorld _ _ _ _) fun _ => .bind (.ensure _ _) fun _ => txWrite_sameWorld _ _)
      fun _ => ih
  | journalTransfer sender recipient value next ih | modelFeeTransfer sender recipient value next ih =>
    exact .bind (journalTransfer_sameWorld sender recipient value) fun _ => ih
  | recordCode a code next ih => exact .bind (onJournal_sameWorld _) fun _ => ih
  | getCodeHash a next ih => exact .bind .get fun s => ih _
  | machine m next ih => exact .bind (callMachine_sameWorld m) fun result => ih result
  | emit output logs next ih => exact .bind (.modify fun _ => rfl) fun _ => ih

end Frame

namespace U256
variable {a b c : U256}

theorem toNat_saturatingSub (a b : U256) : (a.saturatingSub b).toNat = a.toNat - b.toNat := by
  unfold saturatingSub
  split
  · rename_i h
    exact (Nat.sub_eq_zero_of_le (Nat.le_of_lt h)).symm
  · rename_i h
    exact BitVec.toNat_sub_of_le (BitVec.not_lt.mp h)

theorem toNat_of_checkedAdd (h : a.checkedAdd b = some c) : c.toNat = a.toNat + b.toNat := by
  unfold checkedAdd at h
  split at h
  · rename_i hlt
    rw [← Option.some.inj h, toNat_add, Nat.mod_eq_of_lt hlt]
  · cases h

theorem toNat_saturatingAdd (h : a.toNat + b.toNat < 2 ^ 256) :
    (a.saturatingAdd b).toNat = a.toNat + b.toNat := by
  unfold saturatingAdd checkedAdd
  rw [if_pos h, Option.getD_some, toNat_add, Nat.mod_eq_of_lt h]

end U256

theorem toNat_gasFee (gas price : UInt64) : (gasFee gas price).toNat = gas.toNat * price.toNat := by
  have hword : ∀ x : UInt64, (ofWord x).toNat = x.toNat := fun x => by
    have := x.toNat_lt
    exact Nat.mod_eq_of_lt (by omega)
  have hlt : gas.toNat * price.toNat < 2 ^ 256 :=
    (Nat.mul_lt_mul'' gas.toNat_lt price.toNat_lt).trans (by decide)
  unfold gasFee saturatingMul
  rw [hword, hword, if_pos hlt, toNat_mul, hword, hword, Nat.mod_eq_of_lt hlt]

namespace TxRules
variable {r : TxRules} {block : Consensus.Block} {tx : SignedTx} {c c' : CommitCoordinator} {w w' : World}
  {s : TxState} {receipt : TxReceipt} {writes : WriteSet} {n : ℕ}

structure Started (r : TxRules) (tx : SignedTx) (w : World) (type : TxType) : Prop where
  parsed : r.parseTransactionType tx = .ok type
  nonce : (w.getAccount (r.normalizeAddress tx.sender)).nonce = tx.nonce
  nonce_lt : tx.nonce.toNat + 1 < 2 ^ 64
  funded : tx.gasLimit.toNat * tx.gasPrice.toNat + tx.value.toNat ≤
    (w.getAccount (r.normalizeAddress tx.sender)).balance.toNat

def charged (r : TxRules) (tx : SignedTx) (w : World) : U256 :=
  saturatingSub (w.getAccount (r.normalizeAddress tx.sender)).balance (gasFee tx.gasLimit tx.gasPrice)

def startJournal (r : TxRules) (tx : SignedTx) (c : CommitCoordinator) (w : World) : ScratchJournal :=
  (((({} : ScratchJournal).pinAt c.stateVersion).recordRead (r.normalizeAddress tx.sender)).recordBalance
    (r.normalizeAddress tx.sender) (r.charged tx w))

def startState (r : TxRules) (tx : SignedTx) (c : CommitCoordinator) (w : World) : TxState :=
  ⟨w, { gasLimit := tx.gasLimit, journal.toScratchJournal := r.startJournal tx c w }⟩

def dispatched (r : TxRules) (block : Consensus.Block) (tx : SignedTx) (c : CommitCoordinator) (w : World)
    (type : TxType) : Except ExecutionError Unit × TxState :=
  ((r.executeTransactionType block (r.normalizeAddress tx.sender) type).run r.keccak (r.journaled block)).on
    (r.startState tx c w)

theorem executeTxIntoJournal_ok
    (h : r.executeTxIntoJournal block tx (freshState tx c w) = .ok (s, receipt, writes)) :
    ∃ type, Started r tx w type ∧ r.settle block tx (r.charged tx w) (tx.nonce + 1)
      (r.dispatched block tx c w type) = (s, receipt, writes) := by
  have hvalue : (tx.value.setWidth 256).toNat = tx.value.toNat := toNat_setWidth_of_le (by decide)
  have hneed : (saturatingAdd (gasFee tx.gasLimit tx.gasPrice) (tx.value.setWidth 256)).toNat =
      tx.gasLimit.toNat * tx.gasPrice.toNat + tx.value.toNat := by
    have hlt := Nat.mul_lt_mul'' tx.gasLimit.toNat_lt tx.gasPrice.toNat_lt
    rw [toNat_saturatingAdd (by rw [toNat_gasFee, hvalue]; omega), toNat_gasFee, hvalue]
  obtain ⟨charged, hcharge, h⟩ := Result.bind_eq_ok.mp h
  obtain ⟨type, hparsed, hsettle⟩ := Result.bind_eq_ok.mp h
  unfold Transfer.charge at hcharge
  dsimp only at hcharge
  split_ifs at hcharge with hnonce hbalance hnext
  cases hcharge
  have hfunded := hneed ▸ BitVec.le_def.mp (BitVec.not_lt.mp hbalance)
  have hnext : tx.nonce.toNat + 1 ≠ 2 ^ 64 := hnext
  have := tx.nonce.toNat_lt
  exact ⟨type, ⟨hparsed, not_not.mp hnonce, by omega, hfunded⟩, Except.ok.inj hsettle⟩

/-- The transaction got as far as its dispatch, and what it left in its journal is drained. -/
def Executed (r : TxRules) (block : Consensus.Block) (tx : SignedTx) (c : CommitCoordinator) (w : World)
    (receipt : TxReceipt) (w' : World) : Prop :=
  ∃ type s writes, Started r tx w type ∧ r.settle block tx (r.charged tx w) (tx.nonce + 1)
    (r.dispatched block tx c w type) = (s, receipt, writes) ∧ w' = s.context.journal.drain r.keccak w

section

variable (hkeep : ∀ type, r.parseTransactionType tx = .ok type → (r.dispatched block tx c w type).2.world = w)
include hkeep

theorem Executed.of_attempt
    (h : r.executeTxIntoJournal block tx (freshState tx c w) = .ok (s, receipt, writes)) :
    s.world = w ∧ Executed r block tx c w receipt (s.context.journal.drain r.keccak w) := by
  obtain ⟨type, hstart, hsettle⟩ := executeTxIntoJournal_ok h
  refine ⟨?_, type, s, writes, hstart, hsettle, rfl⟩
  rw [← hkeep type hstart.parsed, ← (Prod.mk.inj hsettle).1]
  rfl

theorem Executed.of_attempts (h : r.attempts block tx c n w = (.ok receipt, w', c')) :
    Executed r block tx c w receipt w' := by
  induction n
  all_goals
    unfold attempts at h
    split at h
    · exact nomatch (Prod.mk.inj h).1
    rename_i hok
    obtain ⟨hworld, hdone⟩ := Executed.of_attempt hkeep hok
    rw [hworld] at h
  -- the last attempt commits whatever it finds, an earlier one only if nothing was written meanwhile
  on_goal 2 =>
    rename_i n ih _ _ _ _
    dsimp only at h
    split at h
    swap
    · exact ih h
  all_goals
    obtain ⟨rfl, rfl, -⟩ := by simpa only [Prod.mk.injEq, Except.ok.injEq] using h
    exact hdone

end

end TxRules

section Drain
variable {keccak : Bytes → Hash}

def AccountsOnly (w w' : World) : Prop := w' = { w with accounts := w'.accounts }

theorem AccountsOnly.trans {w w' w'' : World} (h : AccountsOnly w w') (h' : AccountsOnly w' w'') :
    AccountsOnly w w'' := by
  rw [AccountsOnly, h', h]

variable (w : World)
include w

theorem create_accountsOnly (a : Address) :
    AccountsOnly w (w.apply keccak (.createAccountIfNotExists a)) := by
  rw [World.apply]
  split
  · rfl
  · rfl

theorem drainWrite_accountsOnly (e : Address × PendingWrite) :
    AccountsOnly w (drainWrite keccak w e) := by
  obtain ⟨a, balance, nonce, code⟩ := e
  have hnone : AccountsOnly w (drainWrite keccak w (a, ⟨balance, nonce, none⟩)) := by
    cases balance <;> cases nonce <;> rfl
  cases code with
  | none => exact hnone
  | some code => exact hnone.trans ((create_accountsOnly _ a).trans rfl)

theorem drainJournal_accountsOnly (j : ScratchJournal) :
    AccountsOnly w (drainJournal keccak w j) := by
  unfold drainJournal
  induction j.pending.toList generalizing w with
  | nil => rfl
  | cons e es ih => exact (drainWrite_accountsOnly w e).trans (ih _)

theorem drain_discardWrites (j : TxJournal) (f : ScratchJournal → ScratchJournal) :
    (j.discardWrites.onAccounts f).drain keccak w = drainJournal keccak w (f j.toScratchJournal.discardWrites) :=
  rfl

theorem getAccount_drain_failed (j : ScratchJournal) (a : Address) (balance : U256)
    (nonce : UInt64) :
    (drainJournal keccak w ((j.discardWrites.recordBalance a balance).recordNonce a nonce)).getAccount =
      Function.update w.getAccount a { w.getAccount a with balance, nonce } := by
  rw [getAccount_drainJournal]
  funext b
  by_cases hb : b = a
  · subst hb
    simp [Patch.apply, patch, recordNonce, recordBalance, discardWrites, PendingWrite.update]
  · simp [Patch.apply, patch, recordNonce, recordBalance,
      discardWrites, TreeMap.getElem?_insert_ite, hb]

end Drain

namespace TxRules
variable {r : TxRules} {block : Consensus.Block} {tx : SignedTx} {c c' : CommitCoordinator} {w w' : World}
  {s : TxState} {receipt : TxReceipt} {writes : WriteSet} {n : ℕ}

/-- A failed transaction costs its sender the gas limit and a nonce, and changes nothing else. -/
theorem failed_transaction_burns_gas_only (hactive : r.supplyHardening block.height = true)
    (h : r.executeTransaction block tx c w = (.ok receipt, w', c')) (hstatus : receipt.status = false) :
    ∃ balance nonce, balance.toNat + tx.gasLimit.toNat * tx.gasPrice.toNat =
        (w.getAccount (r.normalizeAddress tx.sender)).balance.toNat ∧
      nonce.toNat = (w.getAccount (r.normalizeAddress tx.sender)).nonce.toNat + 1 ∧
      w'.getAccount = Function.update w.getAccount (r.normalizeAddress tx.sender)
        { w.getAccount (r.normalizeAddress tx.sender) with balance, nonce } ∧
      AccountsOnly w w' := by
  have hkeep : ∀ type, r.parseTransactionType tx = .ok type →
      (r.dispatched block tx c w type).2.world = w := by
    intro type _
    unfold dispatched
    rw [journaled, hactive]
    exact TxProgram.run_sameWorld _ _
  obtain ⟨type, s, writes, hstart, hsettle, rfl⟩ := Executed.of_attempts hkeep h
  rcases hd : r.dispatched block tx c w type with ⟨_ | ⟨⟩, d⟩
  · rename_i e
    rw [hd] at hsettle
    have hjournal : s.context.journal = d.context.journal.discardWrites.onAccounts fun j =>
        (j.recordBalance (r.normalizeAddress tx.sender) (r.charged tx w)).recordNonce
          (r.normalizeAddress tx.sender) (tx.nonce + 1) := by
      rw [← (Prod.mk.inj hsettle).1]
      rfl
    rw [hjournal, drain_discardWrites]
    refine ⟨r.charged tx w, tx.nonce + 1, ?_, ?_, getAccount_drain_failed .., drainJournal_accountsOnly ..⟩
    · have := hstart.funded
      rw [charged, toNat_saturatingSub, toNat_gasFee]
      omega
    · rw [hstart.nonce, UInt64.toNat_add]
      exact Nat.mod_eq_of_lt hstart.nonce_lt
  · rw [hd] at hsettle
    obtain ⟨-, hrest⟩ := Prod.mk.inj hsettle
    rw [← (Prod.mk.inj hrest).1] at hstatus
    cases hstatus

end TxRules

section Success
variable {keccak : Bytes → Hash} {s s' : TxState} {sender recipient a b : Address} {value x : U256}
  {amount n : UInt64} {w : World} {j : ScratchJournal}

theorem balanceOf_recordBalance : (j.recordBalance a x).balanceOf w b = if b = a then x else j.balanceOf w b := by
  by_cases hb : b = a
  · subst hb
    simp [balanceOf, pendingBalance, recordBalance]
  · simp [balanceOf, pendingBalance, recordBalance, TreeMap.getElem?_insert_ite, hb]

theorem balanceOf_recordNonce : (j.recordNonce a n).balanceOf w b = j.balanceOf w b := by
  by_cases hb : b = a
  · subst hb
    cases hp : j.pending[b]? <;> simp [balanceOf, pendingBalance, recordNonce, hp]
  · simp [balanceOf, pendingBalance, recordNonce, TreeMap.getElem?_insert_ite, hb]

theorem balance_drainJournal : ((drainJournal keccak w j).getAccount a).balance = j.balanceOf w a := by
  rw [getAccount_drainJournal]
  cases hp : j.pending[a]? <;>
    simp [Patch.apply, patch, balanceOf, pendingBalance, PendingWrite.update, hp]

theorem useGas_ok (h : (useGas amount).on s = (.ok (), s')) :
    s.context.gasUsed.toNat + amount.toNat ≤ s.context.gasLimit.toNat ∧
      s' = { s with context.gasUsed := s.context.gasUsed + amount } := by
  replace h := on_get_bind h
  obtain ⟨_, _, hensure, h⟩ := on_bind_eq_ok h
  obtain ⟨hle, rfl⟩ := on_ensure_eq_ok hensure
  exact ⟨hle, (Prod.mk.inj h).2.symm⟩

theorem transferBalances_ok {fb tb newFrom newTo : U256} (h : transferBalances fb tb value = .ok (newFrom, newTo)) :
    newFrom.toNat + value.toNat = fb.toNat ∧ newTo.toNat = tb.toNat + value.toNat := by
  unfold transferBalances at h
  split_ifs at h with hlt
  split at h
  · cases h
  · rename_i sum hsum
    cases h
    have hle := BitVec.le_def.mp (BitVec.not_lt.mp hlt)
    refine ⟨?_, toNat_of_checkedAdd hsum⟩
    rw [toNat_saturatingSub]
    omega

structure Moves (sender recipient : Address) (value fee : ℕ) (before after : Address → U256) : Prop where
  debit : (after sender).toNat + value + fee = (before sender).toNat
  credit : (after recipient).toNat = (before recipient).toNat + value
  others : ∀ a, a ≠ sender → a ≠ recipient → after a = before a

theorem Moves.refl (balances : Address → U256) : Moves sender recipient 0 0 balances balances :=
  ⟨rfl, rfl, fun _ _ _ => rfl⟩

theorem journalTransfer_ok (hne : sender ≠ recipient)
    (h : (journalTransfer sender recipient value).on s = (.ok (), s')) :
    ∃ f, s' = { s with context.journal := s.context.journal.onAccounts f } ∧
      Moves sender recipient value.toNat 0 (s.context.journal.balanceOf s.world)
        ((f s.context.journal.toScratchJournal).balanceOf s.world) := by
  replace h := on_get_bind h
  generalize hpair : Transfer.journalTransfer s.world s.context.journal.toScratchJournal sender
    recipient value = pair at h
  obtain ⟨j, _ | _⟩ := pair
  · exact nomatch (Prod.mk.inj h).1
  obtain rfl := (Prod.mk.inj h).2.symm
  refine ⟨fun _ => j, rfl, ?_⟩
  unfold Transfer.journalTransfer at hpair
  rw [if_neg hne] at hpair
  dsimp only at hpair
  split at hpair
  · exact nomatch (Prod.mk.inj hpair).2
  rename_i newFrom newTo hbalances
  obtain ⟨rfl, -⟩ := Prod.mk.inj hpair
  obtain ⟨hfrom, hto⟩ := transferBalances_ok hbalances
  refine ⟨?_, ?_, fun a ha hb => ?_⟩
  · rw [balanceOf_recordBalance, if_neg hne, balanceOf_recordBalance, if_pos rfl]
    exact hfrom
  · rw [balanceOf_recordBalance, if_pos rfl]
    exact hto
  · rw [balanceOf_recordBalance, if_neg hb, balanceOf_recordBalance, if_neg ha]
    rfl

end Success

namespace TxRules
variable {r : TxRules} {block : Consensus.Block} {tx : SignedTx} {c c' : CommitCoordinator} {w w' : World}
  {s : TxState} {receipt : TxReceipt} {writes : WriteSet} {n : ℕ} {type : TxType} {d : TxState}

theorem balance_of_success {charged : U256} {nextNonce : UInt64} {j : ScratchJournal}
    (h : r.settle block tx charged nextNonce (.ok (), d) = (s, receipt, writes))
    (hj : d.context.journal = { toScratchJournal := j }) (hw : d.world = w) (a : Address) :
    ((s.context.journal.drain r.keccak w).getAccount a).balance = if a = r.normalizeAddress tx.sender then
      saturatingAdd (j.balanceOf w (r.normalizeAddress tx.sender))
        (gasFee (Word.saturatingSub tx.gasLimit d.context.gasUsed) tx.gasPrice) else j.balanceOf w a := by
  rw [← (Prod.mk.inj h).1, hj, hw]
  change ((drainJournal r.keccak w ((j.recordNonce _ nextNonce).recordBalance _ _)).getAccount a).balance = _
  rw [balance_drainJournal, balanceOf_recordBalance, balanceOf_recordNonce]
  rfl

variable {sender recipient : Address} {value : U256} {jn : Bool}

theorem run_transfer_ok {s s' : TxState} (hne : sender ≠ recipient)
    (h : ((r.executeTransfer sender recipient value).run r.keccak jn).on s = (.ok (), s')) :
    s.context.gasUsed.toNat + r.gas.transfer.toNat ≤ s.context.gasLimit.toNat ∧
    s'.context.gasUsed = s.context.gasUsed + r.gas.transfer ∧ s'.world = s.world ∧
    ∃ f, s'.context.journal = s.context.journal.onAccounts f ∧
      Moves sender recipient value.toNat 0 (s.context.journal.balanceOf s.world)
        ((f s.context.journal.toScratchJournal).balanceOf s.world) := by
  obtain ⟨_, _, hgas, h⟩ := on_bind_eq_ok h
  obtain ⟨hle, rfl⟩ := useGas_ok hgas
  obtain ⟨_, _, hpaid, h⟩ := on_bind_eq_ok h
  obtain ⟨f, rfl, hmoves⟩ := journalTransfer_ok hne hpaid
  cases h
  exact ⟨hle, rfl, rfl, f, rfl, hmoves⟩

theorem run_call_ok {data : Bytes} {s s' : TxState} (hpre : isPrecompileAddress recipient = false)
    (hrevm : r.isRevmPrecompile recipient block.height = false)
    (hcode : r.code (s.world.getAccount recipient).codeHash = none)
    (h : ((r.executeCall block sender recipient data value).run r.keccak jn).on s = (.ok (), s')) :
    s.context.gasUsed.toNat + r.gas.call.toNat ≤ s.context.gasLimit.toNat ∧
      s' = { s with context.gasUsed := s.context.gasUsed + r.gas.call } := by
  obtain ⟨_, _, hgas, h⟩ := on_bind_eq_ok h
  obtain ⟨hle, rfl⟩ := useGas_ok hgas
  refine ⟨hle, ?_⟩
  rw [if_neg (by rw [hpre]; exact Bool.false_ne_true)] at h
  replace h := on_get_bind h
  dsimp only at h
  rw [hcode, hrevm, Bool.and_false] at h
  exact (Prod.mk.inj h).2.symm

theorem moves_of_success {v : ℕ} {recipient : Address} {j : ScratchJournal} (hstart : Started r tx w type)
    (hne : r.normalizeAddress tx.sender ≠ recipient)
    (hsettle : r.settle block tx (r.charged tx w) (tx.nonce + 1) (.ok (), d) = (s, receipt, writes))
    (hj : d.context.journal = { toScratchJournal := j }) (hw : d.world = w)
    (hgas : d.context.gasUsed.toNat ≤ tx.gasLimit.toNat)
    (hmoves : Moves (r.normalizeAddress tx.sender) recipient v 0
      (Function.update (fun a => (w.getAccount a).balance) (r.normalizeAddress tx.sender) (r.charged tx w))
      (j.balanceOf w)) :
    Moves (r.normalizeAddress tx.sender) recipient v (receipt.gasUsed.toNat * tx.gasPrice.toNat)
      (fun a => (w.getAccount a).balance)
      (fun a => ((s.context.journal.drain r.keccak w).getAccount a).balance) := by
  obtain ⟨hdebit, hcredit, hothers⟩ := hmoves
  have hused : receipt.gasUsed = d.context.gasUsed := by
    rw [← (Prod.mk.inj (Prod.mk.inj hsettle).2).1]
    rfl
  have hfee : (d.context.gasUsed.toNat + (tx.gasLimit.toNat - d.context.gasUsed.toNat)) * tx.gasPrice.toNat =
      tx.gasLimit.toNat * tx.gasPrice.toNat := by rw [Nat.add_sub_cancel' hgas]
  rw [Nat.add_mul] at hfee
  have hrefund : (gasFee (Word.saturatingSub tx.gasLimit d.context.gasUsed) tx.gasPrice).toNat =
      (tx.gasLimit.toNat - d.context.gasUsed.toNat) * tx.gasPrice.toNat := by
    rw [toNat_gasFee, Word.saturatingSub_toNat]
  have hfunded := hstart.funded
  rw [Function.update_self, charged, toNat_saturatingSub, toNat_gasFee] at hdebit
  refine ⟨?_, ?_, fun a ha hb => ?_⟩
  · rw [balance_of_success hsettle hj hw, if_pos rfl, hused, toNat_saturatingAdd, hrefund]
    · omega
    · have := (w.getAccount (r.normalizeAddress tx.sender)).balance.isLt
      omega
  · rw [balance_of_success hsettle hj hw, if_neg hne.symm, hcredit, Function.update_of_ne hne.symm]
  · rw [balance_of_success hsettle hj hw, if_neg ha, hothers a ha hb, Function.update_of_ne ha]

theorem executeCall_sameWorld {data : Bytes} (hpre : isPrecompileAddress recipient = false) :
    Within SameWorld ((r.executeCall block sender recipient data value).run r.keccak jn) := by
  refine .bind (useGas_sameWorld _) fun _ => ?_
  rw [if_neg (by rw [hpre]; exact Bool.false_ne_true)]
  refine .bind .get fun s => ?_
  dsimp only
  split
  · exact .pure ()
  · refine .bind (callMachine_sameWorld _) fun result => .bind (useGas_sameWorld _) fun _ => ?_
    unfold payFirst
    refine .bind (.modify fun _ => rfl) fun _ => ?_
    split
    · exact .bind (journalTransfer_sameWorld _ _ _) fun _ => .bind (.modify fun _ => rfl) fun _ => .pure ()
    · exact .bind (.modify fun _ => rfl) fun _ => .pure ()

theorem parseTransactionType_eq {key : Consensus.PublicKey} (hto : tx.recipient = some key)
    (hop : AiOpKind.classify tx.data = none) : r.parseTransactionType tx = .ok (if tx.data = [] then
      .transfer (r.normalizeAddress key) (tx.value.setWidth 256)
      else .call (r.normalizeAddress key) tx.data (tx.value.setWidth 256)) := by
  unfold parseTransactionType
  cases hdata : tx.data with
  | nil => simp [hto]
  | cons b bs =>
    rw [hdata] at hop
    simp [hto, hop]

theorem balanceOf_start : (r.startJournal tx c w).balanceOf w =
    Function.update (fun a => (w.getAccount a).balance) (r.normalizeAddress tx.sender) (r.charged tx w) := by
  funext a
  rw [startJournal, balanceOf_recordBalance, Function.update_apply]
  rfl

theorem gasUsed_le {gas used limit : UInt64} (hused : used = 0 + gas)
    (hle : (0 : UInt64).toNat + gas.toNat ≤ limit.toNat) : used.toNat ≤ limit.toNat := by
  rw [hused, UInt64.zero_add]
  simpa using hle

/-- Of a success with such a recipient, the value has moved exactly when there is no data or no value. -/
theorem value_moves_iff {key : Consensus.PublicKey} (hto : tx.recipient = some key)
    (hop : AiOpKind.classify tx.data = none) (hne : r.normalizeAddress tx.sender ≠ r.normalizeAddress key)
    (hpre : isPrecompileAddress (r.normalizeAddress key) = false)
    (hrevm : r.isRevmPrecompile (r.normalizeAddress key) block.height = false)
    (hcode : r.code (w.getAccount (r.normalizeAddress key)).codeHash = none)
    (h : r.executeTransaction block tx c w = (.ok receipt, w', c')) (hstatus : receipt.status = true) :
    Moves (r.normalizeAddress tx.sender) (r.normalizeAddress key) tx.value.toNat
        (receipt.gasUsed.toNat * tx.gasPrice.toNat) (fun a => (w.getAccount a).balance)
        (fun a => (w'.getAccount a).balance) ↔
      tx.data = [] ∨ tx.value = 0 := by
  have hparse := parseTransactionType_eq (r := r) hto hop
  have hkeep : ∀ type, r.parseTransactionType tx = .ok type →
      (r.dispatched block tx c w type).2.world = w := by
    intro type htype
    cases hparse.symm.trans htype
    split
    · exact (Within.bind (useGas_sameWorld _) fun _ => .bind (journalTransfer_sameWorld _ _ _)
        fun _ => .pure ()) _
    · exact executeCall_sameWorld hpre _
  obtain ⟨type, s, writes, hstart, hsettle, rfl⟩ := Executed.of_attempts hkeep h
  have hkept := hkeep type hstart.parsed
  cases hparse.symm.trans hstart.parsed
  rcases hd : r.dispatched block tx c w _ with ⟨_ | ⟨⟩, d⟩
  · rw [hd] at hsettle
    rw [← (Prod.mk.inj (Prod.mk.inj hsettle).2).1] at hstatus
    cases hstatus
  rw [hd] at hsettle hkept
  by_cases hdata : tx.data = []
  · rw [if_pos hdata] at hd hstart
    have hrun : ((r.executeTransfer (r.normalizeAddress tx.sender) (r.normalizeAddress key)
      (tx.value.setWidth 256)).run r.keccak (r.journaled block)).on (r.startState tx c w) = (.ok (), d) := hd
    obtain ⟨hle, hused, -, f, hj, hmoves⟩ := run_transfer_ok hne hrun
    have hmoves : Moves _ _ _ 0 ((r.startJournal tx c w).balanceOf w) _ := hmoves
    rw [balanceOf_start, toNat_setWidth_of_le (by decide)] at hmoves
    exact iff_of_true (moves_of_success hstart hne hsettle hj hkept (gasUsed_le hused hle) hmoves) (.inl hdata)
  · rw [if_neg hdata] at hd hstart
    have hrun : ((r.executeCall block (r.normalizeAddress tx.sender) (r.normalizeAddress key) tx.data
      (tx.value.setWidth 256)).run r.keccak (r.journaled block)).on (r.startState tx c w) = (.ok (), d) := hd
    obtain ⟨hle, hd⟩ := run_call_ok hpre hrevm hcode hrun
    have hj : d.context.journal = { toScratchJournal := r.startJournal tx c w } := by rw [hd]; rfl
    have hused : d.context.gasUsed = 0 + r.gas.call := by rw [hd]; rfl
    have hmoves : Moves (r.normalizeAddress tx.sender) (r.normalizeAddress key) 0 0
      ((r.startJournal tx c w).balanceOf w) ((r.startJournal tx c w).balanceOf w) := .refl _
    nth_rewrite 1 [balanceOf_start] at hmoves
    have hfee := moves_of_success hstart hne hsettle hj hkept (gasUsed_le hused hle) hmoves
    rw [or_iff_right hdata]
    refine ⟨fun hvalue => ?_, fun hzero => ?_⟩
    · have hcredit := hfee.credit.symm.trans hvalue.credit
      exact eq_of_toNat_eq (by simpa using hcredit.symm)
    · rw [hzero]
      exact hfee

end TxRules

def plainRules : TxRules where
  keccak _ := 0
  gas := ⟨2, 2, 2⟩
  supplyHardening _ := true
  hardening := {}
  valueTransferActivation := 0
  code _ := none
  isRevmPrecompile _ _ := false
  create _ _ _ := fun _ _ j writes => (.error (.reverted ""), j, writes)
  callContract _ _ _ _ _ := fun _ _ j writes => (.error (.reverted ""), j, writes)
  precompile _ _ sender := .setBalance sender 7 (.fail (.reverted "Unknown selector"))
  modelOperation _ _ := .ok fun _ => .ret

def payFive (recipient : ℕ) (data : Bytes) : SignedTx where
  hash := 0
  sender := BitVec.ofNat 256 (2 ^ 96)
  recipient := some (BitVec.ofNat 256 (recipient * 2 ^ 96))
  value := 5
  gasLimit := 9
  gasPrice := 1
  data

def onePayer : World where
  accounts := .insert ∅ 1 { balance := 100 }

def paid (recipient : ℕ) (data : Bytes) : Except ExecutionError TxReceipt × World × CommitCoordinator :=
  plainRules.executeTransaction ⟨{ blockHash := 0 }, 0, []⟩ (payFive recipient data) {} onePayer

theorem paid_ok {recipient : ℕ} {data : Bytes} {status : Bool}
    (h : (paid recipient data).1.toOption.map (·.status) = some status) : ∃ receipt,
      paid recipient data = (.ok receipt, (paid recipient data).2) ∧ receipt.status = status := by
  cases hr : (paid recipient data).1 with
  | error e =>
    rw [hr] at h
    cases h
  | ok receipt =>
    rw [hr] at h
    exact ⟨receipt, by rw [← hr], Option.some.inj h⟩

theorem failed_transaction_burns_gas_only_precompile : ∃ balance nonce,
    balance.toNat + 9 = (onePayer.getAccount 1).balance.toNat ∧
    nonce.toNat = (onePayer.getAccount 1).nonce.toNat + 1 ∧
    (paid 0x1000 [7]).2.1.getAccount =
      Function.update onePayer.getAccount 1 { onePayer.getAccount 1 with balance, nonce } ∧
    AccountsOnly onePayer (paid 0x1000 [7]).2.1 := by
  obtain ⟨receipt, h, hstatus⟩ := paid_ok
    (show (paid 0x1000 [7]).1.toOption.map (·.status) = some false by decide)
  exact TxRules.failed_transaction_burns_gas_only rfl h hstatus

theorem value_moves_iff_plain_transfer : ∃ fee, Moves 1 2 5 fee
    (fun a => (onePayer.getAccount a).balance) (fun a => ((paid 2 []).2.1.getAccount a).balance) := by
  obtain ⟨receipt, h, hstatus⟩ := paid_ok (show (paid 2 []).1.toOption.map (·.status) = some true by
    decide)
  have hto : (payFive 2 []).recipient = some (BitVec.ofNat 256 (2 * 2 ^ 96)) := rfl
  exact ⟨_, (TxRules.value_moves_iff hto rfl (by decide) (by decide) rfl rfl h
    hstatus).mpr (.inl rfl)⟩

theorem value_with_data_stays : (paid 2 [7]).1.toOption.map (·.status) = some true ∧ ∀ fee, ¬ Moves 1 2 5 fee
    (fun a => (onePayer.getAccount a).balance) (fun a => ((paid 2 [7]).2.1.getAccount a).balance) := by
  refine ⟨by decide, fun fee h => ?_⟩
  have := h.credit
  cases this

end CitrateChain.Execution
