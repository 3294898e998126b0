import CitrateChain.Storage.StateStore

/-! # Staging undo records that fails

No failure while undo records are staged fails the commit. What was staged before it stays in the
batch, and the removal of the records that could not be kept is staged last, where that succeeds. -/
namespace CitrateChain.Storage
open Execution (Address AccountState)

@[ext] structure Durable where
  accounts : KvStore Address AccountState
  slots : KvStore (Address × Bytes) Bytes

def StateStore.durable (s : StateStore) : Durable := ⟨s.accounts, s.slots⟩

namespace BlockUndo

def slotLog (r : BlockUndo) : List ((Address × Bytes) × Option Bytes) :=
  r.storage.map fun e => ((e.1, e.2.1), e.2.2)

theorem slotLog_keys (r : BlockUndo) :
    r.slotLog.map Prod.fst = r.storage.map fun e => (e.1, e.2.1) := List.map_map

def revert (r : BlockUndo) (d : Durable) : Durable where
  accounts := d.accounts.restore r.accounts
  slots := d.slots.restore r.slotLog

/-- `r` undoes the step from `before` to `now`. -/
structure Undoes (r : BlockUndo) (now before : Durable) : Prop where
  accounts : KvStore.PreImages r.accounts now.accounts before.accounts
  slots : KvStore.PreImages r.slotLog now.slots before.slots

theorem Undoes.revert {r : BlockUndo} {now before : Durable} (h : r.Undoes now before) :
    r.revert now = before := Durable.ext h.accounts.restore h.slots.restore

end BlockUndo

inductive StagingStop
  | record (staged : ℕ)
  | window (deleted : UInt64 → Bool)

structure UndoFault where
  stop : StagingStop
  dropped : UInt64 → Bool

namespace StateStore

def stageUndoWindowUntil (deleted : UInt64 → Bool) (undo : KvStore UInt64 BlockUndo) (tip : UInt64) :
    KvStore UInt64 BlockUndo :=
  fun h => if !inUndoWindow h tip && deleted h then none else undo h

def dropUndoRecords (dropped : UInt64 → Bool) (undo : KvStore UInt64 BlockUndo)
    (heights : List UInt64) : KvStore UInt64 BlockUndo :=
  undo.writeBatch ((heights.filter dropped).map .delete)

section Staging
variable (encodedLen : BlockUndo → ℕ)

def stageBlockUndoWith (fault : Option UndoFault) (s : StateStore) (durableTip : Option AppliedTip)
    (accounts : List (Address × AccountState)) (storage : List StateStorageChange)
    (modelsJobs : Option ModelJobUndo) (tip : AppliedTip) : KvStore UInt64 BlockUndo :=
  match fault with
  | none => s.stageBlockUndo encodedLen durableTip accounts storage modelsJobs tip
  | some f =>
    let staged := match f.stop with
      | .record _ => s.undo
      | .window deleted => stageUndoWindowUntil deleted
          (s.stageOwnRecord encodedLen durableTip accounts storage modelsJobs tip) tip.height
    dropUndoRecords f.dropped staged [tip.height]

def stageBranchUndoWith (fault : Option UndoFault) (undo : KvStore UInt64 BlockUndo)
    (records : List BlockUndo) (tip : UInt64) : KvStore UInt64 BlockUndo :=
  match fault with
  | none => stageBranchUndo encodedLen undo records tip
  | some f =>
    let kept := records.filter fun r => inUndoWindow r.height tip
    let staged := match f.stop with
      | .record n => (kept.take n).foldl (stageUndoRecord encodedLen) undo
      | .window deleted => stageUndoWindowUntil deleted
          (kept.foldl (stageUndoRecord encodedLen) undo) tip
    dropUndoRecords f.dropped staged (records.map (·.height))

end Staging

section Lemmas
variable {encodedLen : BlockUndo → ℕ} {undo : KvStore UInt64 BlockUndo} {k tip : UInt64}
variable {r record : BlockUndo} {records : List BlockUndo} {fault : Option UndoFault}

theorem stageUndoRecord_some (h : stageUndoRecord encodedLen undo record k = some r) :
    k = record.height ∧ r = record ∨ k ≠ record.height ∧ undo k = some r := by
  unfold stageUndoRecord at h
  split at h
  · rw [KvStore.write_delete] at h
    split_ifs at h with hk
    exact .inr ⟨hk, h⟩
  · rw [KvStore.write_put] at h
    split_ifs at h with hk
    · exact .inl ⟨hk, (Option.some.inj h).symm⟩
    · exact .inr ⟨hk, h⟩

theorem stageUndoRecords_some (h : records.foldl (stageUndoRecord encodedLen) undo k = some r) :
    r ∈ records ∧ r.height = k ∨ undo k = some r := by
  induction records generalizing undo with
  | nil => exact .inr h
  | cons record records ih =>
    rcases ih h with ⟨hmem, hk⟩ | h
    · exact .inl ⟨List.mem_cons_of_mem _ hmem, hk⟩
    · rcases stageUndoRecord_some h with ⟨hk, rfl⟩ | ⟨-, h⟩
      · exact .inl ⟨List.mem_cons_self, hk.symm⟩
      · exact .inr h

theorem stageUndoWindow_some (h : stageUndoWindow undo tip k = some r) :
    inUndoWindow k tip ∧ undo k = some r := by
  unfold stageUndoWindow at h
  split_ifs at h with hk
  exact ⟨hk, h⟩

theorem stageUndoWindowUntil_some {deleted : UInt64 → Bool}
    (h : stageUndoWindowUntil deleted undo tip k = some r) : undo k = some r := by
  unfold stageUndoWindowUntil at h
  split_ifs at h
  exact h

theorem dropUndoRecords_some {dropped : UInt64 → Bool} {heights : List UInt64}
    (h : dropUndoRecords dropped undo heights k = some r) :
    undo k = some r ∧ (k ∈ heights → dropped k = false) := by
  rcases KvStore.writeBatch_eq_some h with hput | ⟨hundo, hne⟩
  · obtain ⟨height, -, he⟩ := List.mem_map.mp hput
    cases he
  · refine ⟨hundo, fun hk => Bool.eq_false_iff.mpr fun hd => ?_⟩
    exact hne (.delete k) (List.mem_map.mpr ⟨k, List.mem_filter.mpr ⟨hk, hd⟩, rfl⟩) rfl

theorem stageBranchUndoWith_some
    (h : stageBranchUndoWith encodedLen fault undo records tip k = some r) :
    r ∈ records ∧ r.height = k ∨ undo k = some r := by
  cases fault with
  | none =>
    refine (stageUndoRecords_some (stageUndoWindow_some h).2).imp_left fun ⟨hmem, hk⟩ => ?_
    exact ⟨(List.mem_filter.mp hmem).1, hk⟩
  | some f =>
    have hstaged := (dropUndoRecords_some h).1
    cases hstop : f.stop with
    | record n =>
      simp only [hstop] at hstaged
      refine (stageUndoRecords_some hstaged).imp_left fun ⟨hmem, hk⟩ => ?_
      exact ⟨(List.mem_filter.mp (List.mem_of_mem_take hmem)).1, hk⟩
    | window deleted =>
      simp only [hstop] at hstaged
      refine (stageUndoRecords_some (stageUndoWindowUntil_some hstaged)).imp_left fun ⟨hmem, hk⟩ => ?_
      exact ⟨(List.mem_filter.mp hmem).1, hk⟩

section Commit
variable {s : StateStore} {durableTip : Option AppliedTip} {tip : AppliedTip}
variable {accounts : List (Address × AccountState)} {storage : List StateStorageChange}
variable {modelsJobs : Option ModelJobUndo}

def committed (s : StateStore) (accounts : List (Address × AccountState))
    (storage : List StateStorageChange) : Durable where
  accounts := s.accounts.writeBatch (accounts.map fun e => .put e.1 e.2)
  slots := s.slots.writeBatch (storage.map changeOp)

theorem changeOp_eq_restore (c : StateStorageChange) :
    changeOp c = KvOp.restore ((c.address, c.key), c.value) := by
  obtain ⟨address, key, value⟩ := c
  cases value with
  | none => rfl
  | some v => rfl

inductive UndoBase (s : StateStore) (durableTip : Option AppliedTip) (tip : AppliedTip) :
    BlockUndo → Prop
  | fresh (modelsJobs : Option ModelJobUndo) : durableTip ≠ some tip →
      UndoBase s durableTip tip
        { height := tip.height, hash := tip.hash, parent := durableTip, modelsJobs }
  | own {record : BlockUndo} (modelsJobs : Option ModelJobUndo) : durableTip = some tip →
      s.undo tip.height = some record → record.hash = tip.hash → record.height = tip.height →
      UndoBase s durableTip tip { record with modelsJobs }

theorem blockUndo_some (h : s.blockUndo durableTip accounts storage modelsJobs tip = some r) :
    ∃ base, UndoBase s durableTip tip base ∧ r.height = base.height ∧ r.hash = base.hash ∧
      r.parent = base.parent ∧ ∀ before, base.Undoes s.durable before →
        r.Undoes (s.committed accounts storage) before := by
  obtain ⟨base, hbase, rfl⟩ := Option.map_eq_some_iff.mp h
  refine ⟨base, ?_, rfl, rfl, rfl, fun before hundo => ⟨?_, ?_⟩⟩
  · split at hbase
    · rename_i htip
      split at hbase
      · rename_i record hrecord
        split_ifs at hbase with hnames
        cases hbase
        exact .own _ htip hrecord hnames.1 hnames.2
      · cases hbase
    · rename_i htip
      cases hbase
      exact .fresh _ htip
  · refine hundo.accounts.extend (fun e he => ?_) fun op hop => or_iff_not_imp_left.mpr fun hk => ?_
    · obtain ⟨c, hc, rfl⟩ := List.mem_map.mp he
      exact ⟨of_decide_eq_true (List.mem_filter.mp hc).2, rfl⟩
    · obtain ⟨c, hc, rfl⟩ := List.mem_map.mp hop
      exact List.mem_map.mpr ⟨_, List.mem_map.mpr
        ⟨c, List.mem_filter.mpr ⟨hc, decide_eq_true hk⟩, rfl⟩, rfl⟩
  · rw [BlockUndo.slotLog, List.map_append]
    refine hundo.slots.extend (fun e he => ?_) fun op hop => or_iff_not_imp_left.mpr fun hk => ?_
    · obtain ⟨held, hheld, rfl⟩ := List.mem_map.mp he
      obtain ⟨c, hc, rfl⟩ := List.mem_map.mp hheld
      rw [BlockUndo.slotLog_keys]
      exact ⟨of_decide_eq_true (List.mem_filter.mp hc).2, rfl⟩
    · obtain ⟨c, hc, rfl⟩ := List.mem_map.mp hop
      rw [changeOp_eq_restore, KvOp.restore_key] at hk ⊢
      rw [BlockUndo.slotLog_keys] at hk
      exact List.mem_map.mpr ⟨_, List.mem_map.mpr ⟨_, List.mem_map.mpr
        ⟨c, List.mem_filter.mpr ⟨hc, decide_eq_true hk⟩, rfl⟩, rfl⟩, rfl⟩

theorem UndoBase.names {base : BlockUndo} (h : UndoBase s durableTip tip base) :
    base.height = tip.height ∧ base.hash = tip.hash := by
  cases h with
  | fresh => exact ⟨rfl, rfl⟩
  | own _ _ _ hhash hheight => exact ⟨hheight, hhash⟩

theorem stageOwnRecord_some
    (h : s.stageOwnRecord encodedLen durableTip accounts storage modelsJobs tip k = some r) :
    k = tip.height ∧ s.blockUndo durableTip accounts storage modelsJobs tip = some r ∨
      k ≠ tip.height ∧ s.undo k = some r := by
  cases hrecord : s.blockUndo durableTip accounts storage modelsJobs tip with
  | some record =>
    simp only [stageOwnRecord, hrecord] at h
    obtain ⟨base, hbase, hheight, -⟩ := blockUndo_some hrecord
    rw [← hbase.names.1, ← hheight]
    exact (stageUndoRecord_some h).imp_left fun ⟨hk, he⟩ => ⟨hk, by rw [he]⟩
  | none =>
    simp only [stageOwnRecord, hrecord, KvStore.write_delete] at h
    split_ifs at h with hk
    exact .inr ⟨hk, h⟩

theorem stageBlockUndoWith_some (hdrop : ∀ f ∈ fault, f.dropped tip.height = true)
    (h : s.stageBlockUndoWith encodedLen fault durableTip accounts storage modelsJobs tip k = some r) :
    k = tip.height ∧ s.blockUndo durableTip accounts storage modelsJobs tip = some r ∨
      k ≠ tip.height ∧ s.undo k = some r := by
  cases fault with
  | none => exact stageOwnRecord_some (stageUndoWindow_some h).2
  | some f =>
    obtain ⟨hstaged, hkept⟩ := dropUndoRecords_some h
    have hk : k ≠ tip.height := by
      rintro rfl
      have hfalse := hkept (List.mem_singleton_self _)
      cases (hdrop f rfl).symm.trans hfalse
    refine .inr ⟨hk, ?_⟩
    cases hstop : f.stop with
    | record n =>
      simp only [hstop] at hstaged
      exact hstaged
    | window deleted =>
      simp only [hstop] at hstaged
      rcases stageOwnRecord_some (stageUndoWindowUntil_some hstaged) with ⟨htip, -⟩ | ⟨-, hundo⟩
      · exact absurd htip hk
      · exact hundo

end Commit

end Lemmas

end StateStore

namespace StorageManager
variable (encodedLen : BlockUndo → ℕ) (fault : Option UndoFault)

def commitBatch (st : StorageManager) (accounts : List (Address × AccountState))
    (storage : List StateStorageChange) (tip : AppliedTip) (index : ReceiptIndexBatch)
    (modelsJobs : Option ModelJobUndo) : StorageManager :=
  { st.writeStateBatchWithAppliedTip encodedLen accounts storage tip index modelsJobs with
    state.undo := st.state.stageBlockUndoWith encodedLen fault st.blocks.appliedTip accounts storage
      modelsJobs tip }

def reorgBatch (st : StorageManager) (accounts : List (Address × AccountState))
    (storage : List StateStorageChange) (accountDels : List Address)
    (code : List (Consensus.Hash × Bytes)) (tip : AppliedTip) (index : ReceiptIndexBatch)
    (undo : List BlockUndo) : StorageManager :=
  { st.writeReorgBatchSync encodedLen accounts storage accountDels code tip index undo with
    state.undo := if undo.isEmpty then st.state.undo
      else StateStore.stageBranchUndoWith encodedLen fault st.state.undo undo tip.height }

end StorageManager

end CitrateChain.Storage
