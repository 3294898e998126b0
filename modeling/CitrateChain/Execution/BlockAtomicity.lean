import CitrateChain.Execution.BlockApplication

/-! # A rejected block leaves no trace

While a block is applied nothing goes to the store, so that everything a failure has to undo is in
memory, and the snapshot of the start holds all of that. The commit is the only step that stores, and
one that fails has stored codes at most. -/
namespace CitrateChain.Execution
open Std (ExtTreeMap)
open Consensus (Hash PublicKey SignedTx)
open Storage

namespace ApplyState

def Deferred (s s' : ApplyState) : Prop :=
  s.deferPersist = true → s'.deferPersist = true ∧ s'.store = s.store

instance : Std.Refl Deferred := ⟨fun _ h => ⟨h, rfl⟩⟩

instance : IsTrans ApplyState Deferred where
  trans _ _ _ h h' hd := ⟨(h' (h hd).1).1, (h' (h hd).1).2.trans (h hd).2⟩

structure CodesOnly (s s' : ApplyState) : Prop where
  deferPersist : s'.deferPersist = s.deferPersist
  store : ∃ f : KvStore Hash Bytes → KvStore Hash Bytes,
    s'.store = s.store.map fun st => { st with state.code := f st.state.code }

theorem CodesOnly.of_eq {s s' : ApplyState} (hd : s'.deferPersist = s.deferPersist)
    (h : s'.store = s.store) : CodesOnly s s' := by
  refine ⟨hd, id, h.trans ?_⟩
  cases s.store <;> rfl

instance : Std.Refl CodesOnly := ⟨fun _ => .of_eq rfl rfl⟩

instance : IsTrans ApplyState CodesOnly where
  trans s _ _ := by
    rintro ⟨hd, f, hf⟩ ⟨hd', g, hg⟩
    refine ⟨hd'.trans hd, g ∘ f, ?_⟩
    rw [hg, hf]
    cases s.store <;> rfl

theorem Deferred.codesOnly {s s' : ApplyState} (h : Deferred s s') (hd : s.deferPersist = true) :
    CodesOnly s s' := .of_eq ((h hd).1.trans hd.symm) (h hd).2

/-- World state and block context are as they were, and the store is, up to codes: no account, slot,
applied tip, receipt or undo record was written. -/
structure Untouched (s s' : ApplyState) : Prop extends CodesOnly s s' where
  db : s'.db = s.db
  blockContext : s'.blockContext = s.blockContext

end ApplyState

namespace ApplyRules
open ApplyState CitrateChain.Action
variable (r : ApplyRules)

theorem mutate_deferred (m : Mutation) : Within Deferred (r.mutate m) := .modify fun _ h => ⟨h, rfl⟩

theorem mutateAll_deferred (ms : List Mutation) : Within Deferred (r.mutateAll ms) :=
  .forEach r.mutate_deferred ms

theorem getBalance_deferred (a : Address) : Within Deferred (r.getBalance a) := by
  refine .bind .get fun s => .ite (.pure _) ?_
  split
  · exact .bind (r.mutate_deferred _) fun _ => .pure _
  · exact .pure _

theorem putAccount_deferred (a : Address) : Within Deferred (putAccount a) :=
  .modify fun s h => by simp [h]

theorem putCode_deferred (code : Bytes) : Within Deferred (r.putCode code) :=
  .modify fun s h => by simp [h]

theorem setBalance_deferred (a : Address) (balance : U256) : Within Deferred (r.setBalance a balance) :=
  .bind (r.mutate_deferred _) fun _ => putAccount_deferred a

theorem setCode_deferred (a : Address) (code : Bytes) : Within Deferred (r.setCode a code) :=
  .bind (r.mutate_deferred _) fun _ => .bind (r.putCode_deferred code) fun _ => putAccount_deferred a

theorem drainWrite_deferred (w : Address × PendingWrite) : Within Deferred (r.drainWrite w) :=
  .bind (.forSome (fun _ => r.mutate_deferred _) _) fun _ =>
    .bind (.forSome (fun _ => r.mutate_deferred _) _) fun _ =>
      .forSome (fun _ => .bind (r.mutate_deferred _) fun _ => r.setCode_deferred _ _) _

theorem drainJournal_deferred (j : Journal) : Within Deferred (r.drainJournal j) :=
  .bind (r.mutateAll_deferred _) fun _ => .bind (r.mutateAll_deferred _) fun _ =>
    .bind (.forEach r.drainWrite_deferred _) fun _ => .bind (r.mutateAll_deferred _) fun _ =>
      r.mutateAll_deferred _

theorem executeTransaction_deferred (b : ImportedBlock) (tx : SignedTx) :
    Within Deferred (r.executeTransaction b tx) := by
  refine .bind .get fun s => .bind (r.mutateAll_deferred _) fun _ => ?_
  split
  · exact .throw _
  · exact .bind (r.drainJournal_deferred _) fun _ => .pure _

theorem executeTransactions_deferred (b : ImportedBlock) : Within Deferred (r.executeTransactions b) :=
  .mapEach (r.executeTransaction_deferred b) _

theorem addBalance_deferred (a : Address) (amount : U256) (message : String) :
    Within Deferred (r.addBalance a amount message) :=
  .bind (r.getBalance_deferred a) fun _ => .bind (.orThrow _ _) fun _ => r.setBalance_deferred a _

theorem creditBasic_deferred (credit : Address × U256) : Within Deferred (r.creditBasic credit) :=
  .whenever (r.addBalance_deferred _ _ _)

theorem creditValidatorReward_deferred (policy : EpochRewardPolicy) (pubkey : PublicKey) (amount : U256)
    (height : UInt64) : Within Deferred (r.creditValidatorReward policy pubkey amount height) := by
  refine .bind (r.getBalance_deferred _) fun before => .bind (.orThrow _ _) fun funded =>
    .bind (r.setBalance_deferred _ _) fun _ => .bind .get fun s =>
      .bind (r.mutateAll_deferred _) fun _ => ?_
  split
  case h_3 =>
    exact .bind (.whenever (.bind (r.setBalance_deferred _ _) fun _ => r.addBalance_deferred _ _ _))
      fun _ => .pure _
  all_goals exact .bind (r.setBalance_deferred _ _) fun _ => .pure _

theorem vestPriorityShare_deferred (policy : EpochRewardPolicy) (b : ImportedBlock) (coinbase : Address)
    (receipts : List TransactionReceipt) :
    Within Deferred (r.vestPriorityShare policy b coinbase receipts) :=
  .bind (.ensure _ _) fun _ => .bind (.orThrow _ _) fun _ => .bind (.ensure _ _) fun _ =>
    .bind (.ofExcept _) fun _ => .whenever (.bind (r.creditValidatorReward_deferred _ _ _ _) fun _ => .pure _)

theorem settleBlockRewards_deferred (b : ImportedBlock) (coinbase : Address)
    (receipts : List TransactionReceipt) (credits : List (Address × U256)) :
    Within Deferred (r.settleBlockRewards b coinbase receipts credits) := by
  refine .bind (.modify fun _ h => ⟨h, rfl⟩) fun _ =>
    .bind (.forEach r.creditBasic_deferred _) fun _ => ?_
  split
  · exact .ensure _ _
  · exact .whenever (r.vestPriorityShare_deferred _ _ _ _)

theorem verifiedRoot_deferred (b : ImportedBlock) (verifyRoot : Bool) :
    Within Deferred (r.verifiedRoot b verifyRoot) := by
  have hroot : Within Deferred r.calculateStateRoot := fun _ h => ⟨h, rfl⟩
  exact .ite (.bind hroot fun _ => .bind (.ensure _ _) fun _ => .pure _) (.pure _)

theorem writeCode_codesOnly (code : Hash × Bytes) : Within CodesOnly (r.writeCode code) := by
  unfold writeCode
  split
  · exact .throw _
  · exact .modify fun s => ⟨rfl, fun stored => stored.write (.put code.1 code.2), rfl⟩

theorem persistStateChangesWithUndo_error {tip : AppliedTip} {index : ReceiptIndexBatch}
    {modelsJobs : Option ModelJobUndo} {s s' : ApplyState} {e : String}
    (h : (r.persistStateChangesWithUndo tip index modelsJobs).on s = (.error e, s')) :
    CodesOnly s s' := by
  unfold persistStateChangesWithUndo at h
  rw [on_bind_ok (on_get s)] at h
  split at h
  · exact nomatch (Prod.mk.inj h).1
  rw [on_bind_ok (on_modify _ s)] at h
  generalize ht : ({ s with db := { s.db with dirtyStorage := [], dirtyCode := [] } } : ApplyState) = t at h
  have htaken : CodesOnly s t := ht ▸ .of_eq rfl rfl
  have hcodes := trans_of CodesOnly htaken (Within.forEach r.writeCode_codesOnly s.db.dirtyCode t)
  rcases on_bind_eq_error h with hfail | ⟨_, u, hu, h⟩
  · rwa [hfail] at hcodes
  rw [hu] at hcodes
  rcases on_bind_eq_error h with hfail | ⟨_, v, _, h⟩
  · -- a batch that fails writes nothing
    unfold writeStateBatch at hfail
    split at hfail
    · cases hfail
      exact hcodes
    · exact nomatch (Prod.mk.inj hfail).1
  · rw [on_bind_ok (on_modify _ v)] at h
    exact nomatch (Prod.mk.inj h).1

variable {r} {b : ImportedBlock} {coinbase : Address} {reward : RewardFn} {persist verifyRoot : Bool}
variable {s s' t t' : ApplyState} {e : ExecutionError}

theorem persistBlock_error {before : ApplyState} {receipts : List TransactionReceipt}
    (h : (r.persistBlock b before receipts).on s = (.error e, s')) : CodesOnly s s' := by
  unfold persistBlock at h
  rw [on_bind_ok (on_get s)] at h
  rcases on_bind_eq_error h with hfail | ⟨_, u, _, h⟩
  · rw [on_mapError] at hfail
    obtain ⟨herr, rfl⟩ := Prod.mk.inj hfail
    generalize hrun : (r.persistStateChangesWithUndo _ _ _).on s = result at herr
    obtain ⟨_ | _, u⟩ := result
    · exact r.persistStateChangesWithUndo_error hrun
    · cases herr
  · exact nomatch (Prod.mk.inj h).1

theorem untouched_of_reverting {α : Type} {m : Apply α}
    (hm : ∀ u, m.on t = (.error e, u) → CodesOnly s u)
    (h : (reverting (revertTo s.db.snapshot s.blockContext) m).on t = (.error e, s')) :
    Untouched s s' := by
  obtain ⟨u, hu, rfl⟩ := on_reverting_error h
  exact ⟨⟨(hm u hu).deferPersist, (hm u hu).store⟩, StateDb.restore_snapshot _ u.db, rfl⟩

theorem step_of_reverting {α β : Type} {m : Apply α} {f : α → Apply β} (hm : Within Deferred m)
    (hd : s.deferPersist = true) (hst : Deferred s t)
    (h : (reverting (revertTo s.db.snapshot s.blockContext) m >>= f).on t = (.error e, s')) :
    Untouched s s' ∨ ∃ a t', Deferred s t' ∧ (f a).on t' = (.error e, s') := by
  have hafter : Deferred s (m.on t).2 := trans_of Deferred hst (hm t)
  rcases on_bind_eq_error h with hfail | ⟨a, t', hok, h⟩
  · refine .inl (untouched_of_reverting (fun u hu => ?_) hfail)
    rw [hu] at hafter
    exact hafter.codesOnly hd
  · rw [on_reverting_ok.mp hok] at hafter
    exact .inr ⟨a, t', hafter, h⟩

theorem applyBlockBody_error (hd : s.deferPersist = true)
    (h : (r.applyBlockBody b coinbase reward persist verifyRoot).on s = (.error e, s')) :
    Untouched s s' := by
  unfold applyBlockBody at h
  rcases on_bind_eq_error h with hbody | ⟨_, t, hbody, h⟩
  · obtain ⟨-, rfl⟩ := Prod.mk.inj hbody
    exact ⟨refl s, rfl, rfl⟩
  obtain ⟨-, rfl⟩ := Prod.mk.inj hbody
  rw [on_bind_ok (on_get s), on_bind_ok (on_modify _ s)] at h
  have hctx : Deferred s { s with blockContext := ⟨coinbase, b.tail.vrfReveal.output, ∅⟩ } :=
    fun h => ⟨h, rfl⟩
  rcases step_of_reverting (r.executeTransactions_deferred b) hd hctx h with hu | ⟨receipts, t, ht, h⟩
  · exact hu
  rcases step_of_reverting (.ofExcept _) hd ht h with hu | ⟨credits, t, ht, h⟩
  · exact hu
  rcases step_of_reverting (r.settleBlockRewards_deferred b coinbase receipts credits) hd ht h with
    hu | ⟨_, t, ht, h⟩
  · exact hu
  rcases step_of_reverting (r.verifiedRoot_deferred b verifyRoot) hd ht h with hu | ⟨got, t, ht, h⟩
  · exact hu
  rcases on_bind_eq_error h with hpersist | ⟨_, t', _, h⟩
  · unfold whenever at hpersist
    split at hpersist
    · exact untouched_of_reverting
        (fun u hu => trans_of CodesOnly (ht.codesOnly hd) (persistBlock_error hu)) hpersist
    · exact nomatch (Prod.mk.inj hpersist).1
  · exact nomatch (Prod.mk.inj h).1

theorem applyBlockInner_error
    (h : (r.applyBlockInner b coinbase reward persist verifyRoot).on s = (.error e, s')) :
    Untouched s s' := by
  generalize hrun : (r.applyBlockBody b coinbase reward persist verifyRoot).on
    { s with deferPersist := true } = result
  have hs : (result.1, { result.2 with deferPersist := s.deferPersist }) =
      (Except.error e, s') := by
    rw [← hrun]
    exact h
  obtain ⟨herr, rfl⟩ := Prod.mk.inj hs
  obtain ⟨outcome, t⟩ := result
  obtain rfl : outcome = .error e := herr
  obtain ⟨⟨-, hstore⟩, hdb, hctx⟩ := applyBlockBody_error rfl hrun
  exact ⟨⟨rfl, hstore⟩, hdb, hctx⟩

/-- A block that is rejected, for whatever reason, leaves no trace: not in the world state, its dirty
sets, its root height or the block context, and in the store at most codes. -/
theorem rejected_block_leaves_no_trace (h : (r.applyBlock b coinbase reward).on s = (.error e, s') ∨
      (r.applyBlockTrusted b coinbase reward).on s = (.error e, s') ∨
      (r.applyBlockNoPersist b coinbase reward).on s = (.error e, s')) : Untouched s s' := by
  have hinner : ∀ {persist verifyRoot : Bool},
      (do let result ← r.applyBlockInner b coinbase reward persist verifyRoot
          return result.1 : Apply Hash).on s = (.error e, s') → Untouched s s' := by
    intro persist verifyRoot h
    rcases on_bind_eq_error h with hfail | ⟨_, t, _, h⟩
    · exact applyBlockInner_error hfail
    · exact nomatch (Prod.mk.inj h).1
  rcases h with h | h | h
  · exact hinner h
  · exact hinner h
  · exact hinner h

/-! A block of two transactions: the first is executed and drained, the second has a bad nonce. -/

def twoTxRules : ApplyRules where
  rules := { keccak := fun bs => BitVec.ofNat 256 bs.length, encodeAccount := fun _ => [], activation := none }
  encodedLen _ := 0
  sha3 _ := 0
  crypto := ⟨fun _ => 0, fun _ _ _ => none, fun _ => true, fun _ => false, fun _ _ _ => true, fun _ _ _ => true⟩
  hardening := {}
  chainId := 1
  rewardPolicy := none
  validatorActivationHeight := Word.maxWord
  valueTransferActivation := 0
  executeTx _ _ tx :=
    if tx.nonce = 0 then
      { result := .ok ({ txHash := tx.hash },
          { writes := [(7, { newBalance := some 5, newNonce := some 1, newCode := some [1] })] }) }
    else { result := .error (.rejected "Invalid nonce: expected 1, got 2") }
  creditReward _ _ := { result := .ok }
  codeFault _ := none
  batchFault := none

def twoTxBlock : ImportedBlock where
  header := { blockHash := 1, height := 1 }
  transactions := [{ hash := 2 }, { hash := 3, nonce := 2 }]
  body := [{ hash := 2 }, { hash := 3, nonce := 2 }]
  body_transactions := rfl

def emptyState : ApplyState where
  db := {}
  blockContext := {}
  deferPersist := false
  store := some .empty

theorem rejected_block_leaves_no_trace_bad_nonce :
    Untouched emptyState ((twoTxRules.applyBlock twoTxBlock 0 fun _ _ => .ok []).on emptyState).2 := by
  have h : (twoTxRules.applyBlock twoTxBlock 0 fun _ _ => .ok []).on emptyState =
      (.error (.rejected "Invalid nonce: expected 1, got 2"),
        ((twoTxRules.applyBlock twoTxBlock 0 fun _ _ => .ok []).on emptyState).2) := rfl
  exact rejected_block_leaves_no_trace (.inl h)

section Refinement
variable {P : Type} {rt : Runtime P} {st : StorageManager}

/-- A runtime with the rules of the executor, and a store that takes every code. -/
structure Runs (rt : Runtime P) (r : ApplyRules) : Prop where
  rules : rt.rules = r.rules
  encodedLen : rt.encodedLen = r.encodedLen
  codes : ∀ h, r.codeFault h = none

theorem Runs.writeCodes (h : Runs rt r) (codes : List (Hash × Bytes)) : ∀ t : ApplyState,
    (forEach r.writeCode codes).on t = (.ok (), { t with store := t.store.map fun st =>
      { st with state.code := st.state.code.writeBatch (codes.map fun e => .put e.1 e.2) } }) := by
  induction codes with
  | nil =>
    intro t
    change (Except.ok (), t) = _
    cases t with
    | mk db context deferPersist store => cases store <;> rfl
  | cons code codes ih =>
    intro t
    have hwrite : (r.writeCode code).on t = (.ok (), { t with store := t.store.map fun st =>
        { st with state.code := st.state.code.write (.put code.1 code.2) } }) := by
      rw [writeCode, h.codes]
      rfl
    change (r.writeCode code >>= fun _ => forEach r.writeCode codes).on t = _
    rw [on_bind_ok hwrite, ih]
    cases t.store <;> rfl

theorem Runs.persistStateChanges (h : Runs rt r) (hstore : s.store = some st) (tip : AppliedTip)
    (index : ReceiptIndexBatch) (modelsJobs : Option ModelJobUndo) :
    ∃ n, (r.persistStateChangesWithUndo tip index modelsJobs).on s =
      let out := Executor.persistStateChangesWithUndo rt s.db st tip index modelsJobs r.batchFault
      (out.1.map fun _ => n, { s with
        db := out.1.toOption.getD { s.db with dirtyStorage := [], dirtyCode := [] }
        store := some out.2 }) := by
  unfold persistStateChangesWithUndo
  rw [on_bind_ok (on_get s), hstore]
  dsimp only
  rw [on_bind_ok (on_modify _ s), on_bind_ok (h.writeCodes _ _), hstore]
  unfold writeStateBatch Executor.persistStateChangesWithUndo
  cases r.batchFault with
  | some e => exact ⟨0, rfl⟩
  | none =>
    rw [h.rules, h.encodedLen]
    exact ⟨_, rfl⟩

theorem Runs.persistBlock (h : Runs rt r) (hstore : t.store = some st)
    (receipts : List TransactionReceipt) : (r.persistBlock b s receipts).on t =
      let out := Executor.persistStateChangesWithUndo rt t.db st ⟨b.hash, b.height⟩
        (.forBlock b.toBlock receipts) (some (modelJobPreImages s.db.toWorld t.db.toWorld)) r.batchFault
      ((out.1.mapError fun e => .reverted s!"persist after apply_block: {e}").map fun _ => (), { t with
        db := out.1.toOption.getD { t.db with dirtyStorage := [], dirtyCode := [] }
        store := some out.2 }) := by
  obtain ⟨n, hn⟩ := h.persistStateChanges hstore ⟨b.hash, b.height⟩ (.forBlock b.toBlock receipts)
    (some (modelJobPreImages s.db.toWorld t.db.toWorld))
  unfold ApplyRules.persistBlock
  rw [on_bind_ok (on_get t), on_bind, on_mapError, hn]
  dsimp only
  cases (Executor.persistStateChangesWithUndo rt t.db st _ _ _ r.batchFault).1 <;> rfl

theorem on_verifiedRoot {rooted : Hash × StateDb}
    (h : (if verifyRoot then t.db.calculateStateRoot r.rules else (b.stateRoot, t.db)) = rooted) :
    (r.verifiedRoot b verifyRoot).on t =
      (if rooted.1 ≠ b.stateRoot then .error (.stateRootMismatch b.stateRoot rooted.1) else .ok rooted.1,
        { t with db := rooted.2 }) := by
  subst h
  cases verifyRoot with
  | false =>
    rw [if_neg Bool.false_ne_true, if_neg (not_not.mpr rfl)]
    rfl
  | true =>
    change (ensure _ _ >>= fun _ => pure _ : Apply Hash).on _ = _
    unfold ensure
    rw [if_pos rfl, ite_not]
    split_ifs <;> rfl

theorem applyBlockBody_refines {ex : Executor P} {t₁ : ApplyState} {effects : List Effect}
    {receipts : List TransactionReceipt} {credits : List (Address × U256)} (h : Runs rt r) (hd : s.deferPersist = true)
    (hstore : s.store = some st) (hdb : ex.db = s.db) (hbody : r.verifyBlockBody b = .ok ())
    (hexec : rt.execute ex.rewardPolicy ex.db.toWorld b.toBlock = .ok (effects, receipts))
    (htxs : (r.executeTransactions b).on
      { s with blockContext := ⟨coinbase, b.tail.vrfReveal.output, ∅⟩ } = (.ok receipts, t₁))
    (hcredits : reward b receipts = .ok credits)
    (hsettle : (r.settleBlockRewards b coinbase receipts credits).on t₁ = (.ok (), t))
    (hend : t.db = (ex.db.applyAll r.rules.keccak effects).setRootHeight b.height) :
    let out := Executor.applyBlockInner rt ex st b.toBlock persist verifyRoot r.batchFault
    ∃ s', (r.applyBlockBody b coinbase reward persist verifyRoot).on s = (out.1, s') ∧
      s'.db = out.2.1.db ∧ s'.store = some out.2.2 := by
  have hkept : t.store = some st := by
    have hran := r.executeTransactions_deferred b
      { s with blockContext := ⟨coinbase, b.tail.vrfReveal.output, ∅⟩ } hd
    rw [htxs] at hran
    have hsettled := r.settleBlockRewards_deferred b coinbase receipts credits t₁ hran.1
    rw [hsettle] at hsettled
    exact (hsettled.2.trans hran.2).trans hstore
  have hroot : Executor.executeAndRoot rt ex.db b.toBlock effects verifyRoot =
      if verifyRoot then t.db.calculateStateRoot r.rules else (b.stateRoot, t.db) := by
    rw [Executor.executeAndRoot, hend, h.rules]
  unfold applyBlockBody Executor.applyBlockInner
  rw [hexec, hbody, on_bind_ok (show (Action.ofExcept (.ok ()) : Apply Unit).on s = (.ok (), s) from rfl),
    on_bind_ok (on_get s), on_bind_ok (on_modify _ s), on_bind_ok (on_reverting_ok.mpr htxs), hcredits,
    on_bind_ok (on_reverting_ok.mpr (show (Action.ofExcept (.ok credits) : Apply _).on t₁ =
      (.ok credits, t₁) from rfl)), on_bind_ok (on_reverting_ok.mpr hsettle)]
  dsimp only
  rw [hroot]
  generalize hrooted : (if verifyRoot then t.db.calculateStateRoot r.rules else (b.stateRoot, t.db)) = rooted
  have hverify := on_verifiedRoot hrooted
  by_cases hne : rooted.1 ≠ b.stateRoot
  · rw [if_pos hne] at hverify
    rw [if_pos hne, on_bind, on_reverting_of_error hverify]
    exact ⟨_, rfl, (StateDb.restore_snapshot s.db rooted.2).trans hdb.symm, hkept⟩
  rw [if_neg hne] at hverify
  rw [if_neg hne, on_bind_ok (on_reverting_ok.mpr hverify)]
  cases persist with
  | false => exact ⟨_, rfl, rfl, hkept⟩
  | true =>
    have hpersist := h.persistBlock (b := b) (s := s) (t := { t with db := rooted.2 }) hkept receipts
    rw [← hdb] at hpersist
    rw [whenever, if_pos rfl, if_pos rfl, on_bind]
    dsimp only at hpersist
    revert hpersist
    generalize Executor.persistStateChangesWithUndo rt rooted.2 st _ _ _ r.batchFault = out
    intro hpersist
    obtain ⟨_ | db', st'⟩ := out
    · rw [on_reverting_of_error hpersist]
      exact ⟨_, rfl, (StateDb.restore_snapshot s.db { rooted.2 with dirtyStorage := [], dirtyCode := [] }).trans
        hdb.symm, rfl⟩
    · rw [on_reverting_ok.mpr hpersist]
      exact ⟨_, rfl, rfl, rfl⟩

end Refinement

end ApplyRules

end CitrateChain.Execution
