import CitrateChain.Consensus.Block

/-! # The receipt index

Receipts by transaction hash and the block-to-transaction entries written with them. A batch stages
its removals before its puts, and decides each removal on what is stored before the batch. -/
namespace CitrateChain.Storage
open Std (ExtTreeMap)
open Consensus (Hash Block Transaction PublicKey)

structure TransactionReceipt where
  txHash : Hash
  blockHash : Hash := 0
  blockNumber : UInt64 := 0
  gasUsed : UInt64 := 0
  status : Bool := true
  deriving DecidableEq

/-- A stored receipt value: a receipt, or bytes that do not decode as one. -/
inductive StoredReceipt
  | decoded (receipt : TransactionReceipt)
  | undecodable (bytes : Bytes)
  deriving DecidableEq

inductive ReceiptReconcileMarker
  | set (hash : Hash) (height : UInt64)
  | clear

structure ReceiptIndexBatch where
  removals : List (Hash × Hash) := []
  receipts : List TransactionReceipt := []
  transactions : List Transaction := []
  reconcileMarker : Option ReceiptReconcileMarker := none

/-- The stored index. Every writer puts a receipt under its own transaction hash, together with the
entry for the block it names. -/
structure ReceiptIndex where
  receipts : KvStore Hash StoredReceipt
  entries : PairSet Hash Hash
  transactions : KvStore Hash Transaction
  senders : KvStore (PublicKey × UInt64) Hash
  reconcileFrom : Option (Hash × UInt64)
  keyed : ∀ tx r, receipts tx = some (.decoded r) → r.txHash = tx
  entered : ∀ tx r, receipts tx = some (.decoded r) → (r.blockHash, tx) ∈ entries

namespace ReceiptIndexBatch

def forBlock (b : Block) (receipts : List TransactionReceipt) : ReceiptIndexBatch where
  receipts := receipts.map fun r => { r with blockHash := b.hash, blockNumber := b.height }
  transactions := b.transactions

def extend (x y : ReceiptIndexBatch) : ReceiptIndexBatch where
  removals := x.removals ++ y.removals
  receipts := x.receipts ++ y.receipts
  transactions := x.transactions ++ y.transactions
  reconcileMarker := y.reconcileMarker.or x.reconcileMarker

def withMarker (x : ReceiptIndexBatch) (marker : ReceiptReconcileMarker) : ReceiptIndexBatch :=
  { x with reconcileMarker := some marker }

end ReceiptIndexBatch

namespace ReceiptIndex

/-- Whether removing `(block, tx)` deletes the stored receipt of `tx`: it names the block, or it
cannot be read. -/
def removesReceipt (idx : ReceiptIndex) (removal : Hash × Hash) : Bool :=
  match idx.receipts removal.2 with
  | none => false
  | some (.decoded r) => r.blockHash == removal.1
  | some (.undecodable _) => true

def receiptOps (idx : ReceiptIndex) (batch : ReceiptIndexBatch) : List (KvOp Hash StoredReceipt) :=
  ((batch.removals.filter idx.removesReceipt).map fun r => .delete r.2) ++
    batch.receipts.map fun r => .put r.txHash (.decoded r)

def stagedEntries (idx : ReceiptIndex) (batch : ReceiptIndexBatch) : PairSet Hash Hash :=
  (batch.receipts.map fun r => (r.blockHash, r.txHash)).foldl (fun m e => m.insert e ())
    (batch.removals.foldl ExtTreeMap.erase idx.entries)

variable {idx : ReceiptIndex} {batch : ReceiptIndexBatch}

theorem mem_stagedEntries {e : Hash × Hash} : e ∈ idx.stagedEntries batch ↔
      (e ∈ idx.entries ∧ e ∉ batch.removals) ∨ ∃ r ∈ batch.receipts, (r.blockHash, r.txHash) = e := by
  rw [stagedEntries, TreeMap.mem_foldl_insert_unit, TreeMap.mem_foldl_erase, List.mem_map]

variable {r : TransactionReceipt}

theorem staged_receipt {tx : Hash}
    (h : idx.receipts.writeBatch (idx.receiptOps batch) tx = some (.decoded r)) :
    (r ∈ batch.receipts ∧ r.txHash = tx) ∨ idx.receipts tx = some (.decoded r) ∧
      ∀ e ∈ batch.removals, e.2 = tx → idx.removesReceipt e = false := by
  rcases KvStore.writeBatch_eq_some h with hput | ⟨hs, hne⟩
  · rcases List.mem_append.mp hput with hdel | hput
    · obtain ⟨e, -, he⟩ := List.mem_map.mp hdel
      cases he
    · obtain ⟨r', hr', heq⟩ := List.mem_map.mp hput
      obtain ⟨htx, hr⟩ := KvOp.put.inj heq
      obtain rfl := StoredReceipt.decoded.inj hr
      exact .inl ⟨hr', htx⟩
  · refine .inr ⟨hs, fun e he htx => ?_⟩
    by_contra hrem
    rw [Bool.not_eq_false] at hrem
    have hop : KvOp.delete e.2 ∈ idx.receiptOps batch :=
      List.mem_append_left _ (List.mem_map.mpr ⟨e, List.mem_filter.mpr ⟨he, hrem⟩, rfl⟩)
    exact hne _ hop htx

def stageReceiptIndex (idx : ReceiptIndex) (batch : ReceiptIndexBatch) : ReceiptIndex where
  receipts := idx.receipts.writeBatch (idx.receiptOps batch)
  entries := idx.stagedEntries batch
  transactions := idx.transactions.writeBatch <| batch.transactions.map fun tx => .put tx.hash tx
  senders := idx.senders.writeBatch <|
    batch.transactions.map fun tx => .put (tx.sender, tx.nonce) tx.hash
  reconcileFrom := match batch.reconcileMarker with
    | some (.set hash height) => some (hash, height)
    | some .clear => none
    | none => idx.reconcileFrom
  keyed tx r h := by
    rcases staged_receipt h with ⟨-, htx⟩ | ⟨hold, -⟩
    · exact htx
    · exact idx.keyed tx r hold
  entered tx r h := by
    rw [mem_stagedEntries]
    rcases staged_receipt h with ⟨hr, rfl⟩ | ⟨hold, hkept⟩
    · exact .inr ⟨r, hr, rfl⟩
    · refine .inl ⟨idx.entered tx r hold, fun hrem => ?_⟩
      have := hkept _ hrem rfl
      simp [removesReceipt, hold] at this

/-- The stored receipt of `tx` as the reconcile reads it: a value that does not decode is dropped. -/
def readReceipt (idx : ReceiptIndex) (tx : Hash) : Option TransactionReceipt :=
  match idx.receipts tx with
  | some (.decoded r) => some r
  | _ => none

theorem readReceipt_eq_some {tx : Hash} :
    idx.readReceipt tx = some r ↔ idx.receipts tx = some (.decoded r) := by
  unfold readReceipt
  split
  · rename_i r' h
    rw [h]
    simp
  · rename_i h
    constructor
    · nofun
    · intro hr
      exact absurd hr (h r)

/-- `restore` holds the readable receipts that `abandon` removes from `idx`. -/
structure Restores (idx : ReceiptIndex) (abandon restore : ReceiptIndexBatch) : Prop where
  abandonOnly : abandon = { removals := abandon.removals }
  restoreOnly : restore = { receipts := restore.receipts }
  stored : ∀ r ∈ restore.receipts, idx.receipts r.txHash = some (.decoded r) ∧
    (r.blockHash, r.txHash) ∈ abandon.removals
  complete : ∀ e ∈ abandon.removals, ∀ r, idx.receipts e.2 = some (.decoded r) →
    r.blockHash = e.1 → r ∈ restore.receipts

/-- `idx'` is `idx` but for removed pairs without a readable receipt that names their block: their
entries are gone, and so is a receipt that does not decode. -/
structure KeptBut (removed : Hash × Hash → Prop) (idx idx' : ReceiptIndex) : Prop where
  receipts : ∀ tx, idx'.receipts tx = idx.receipts tx ∨
    (∃ block bytes, removed (block, tx) ∧ idx.receipts tx = some (.undecodable bytes)) ∧
      idx'.receipts tx = none
  entries : ∀ e, (e ∈ idx'.entries ↔ e ∈ idx.entries) ∨
    removed e ∧ e ∉ idx'.entries ∧ ∀ r, idx.receipts e.2 = some (.decoded r) → r.blockHash ≠ e.1
  transactions : idx'.transactions = idx.transactions
  senders : idx'.senders = idx.senders
  reconcileFrom : idx'.reconcileFrom = idx.reconcileFrom

theorem KeptBut.refl (removed : Hash × Hash → Prop) (idx : ReceiptIndex) : KeptBut removed idx idx :=
  ⟨fun _ => .inl rfl, fun _ => .inl Iff.rfl, rfl, rfl, rfl⟩

theorem KeptBut.mono {removed removed' : Hash × Hash → Prop} {idx idx' : ReceiptIndex}
    (hsub : ∀ e, removed e → removed' e) (h : KeptBut removed idx idx') : KeptBut removed' idx idx' where
  __ := h
  receipts tx := by
    refine (h.receipts tx).imp_right (And.imp_left ?_)
    rintro ⟨block, bytes, hr, hb⟩
    exact ⟨block, bytes, hsub _ hr, hb⟩
  entries e := (h.entries e).imp_right (And.imp_left (hsub e))

section Restore
variable {idx : ReceiptIndex} {abandon restore : ReceiptIndexBatch} {tx : Hash}

variable (h : Restores idx abandon restore)
include h

theorem Restores.restored_receipt (idx' : ReceiptIndex) (tx : Hash) :
    (idx'.stageReceiptIndex restore).receipts tx =
      if tx ∈ restore.receipts.map (·.txHash) then idx.receipts tx else idx'.receipts tx := by
  have hops : idx'.receiptOps restore =
      restore.receipts.map fun r => .put r.txHash (.decoded r) := by
    rw [receiptOps, h.restoreOnly]
    rfl
  change idx'.receipts.writeBatch (idx'.receiptOps restore) tx = _
  rw [hops]
  refine KvStore.writeBatch_ite idx.receipts (List.forall_mem_map.mpr fun r hr => ?_) (fun tx => ?_) tx
  · exact (h.stored r hr).1.symm
  · simp [KvOp.key]

theorem Restores.mem_restored (idx' : ReceiptIndex) {e : Hash × Hash} :
    e ∈ (idx'.stageReceiptIndex restore).entries ↔
      e ∈ idx'.entries ∨ ∃ r ∈ restore.receipts, (r.blockHash, r.txHash) = e := by
  have hrem : restore.removals = [] := by rw [h.restoreOnly]
  change e ∈ idx'.stagedEntries restore ↔ _
  rw [mem_stagedEntries, hrem]
  simp

theorem Restores.keptBut_untouched (removed : Hash × Hash → Prop) :
    KeptBut removed idx (idx.stageReceiptIndex restore) where
  receipts tx := by
    rw [h.restored_receipt, ite_self]
    exact .inl rfl
  entries e := by
    refine .inl ?_
    rw [h.mem_restored]
    constructor
    · rintro (he | ⟨r, hr, rfl⟩)
      · exact he
      · exact idx.entered _ _ (h.stored r hr).1
    · exact .inl
  transactions := by
    rw [h.restoreOnly]
    rfl
  senders := by
    rw [h.restoreOnly]
    rfl
  reconcileFrom := by
    rw [h.restoreOnly]
    rfl

theorem Restores.keptBut : KeptBut (· ∈ abandon.removals) idx
      ((idx.stageReceiptIndex abandon).stageReceiptIndex restore) where
  receipts tx := by
    have hops : idx.receiptOps abandon =
        (abandon.removals.filter idx.removesReceipt).map fun r => .delete r.2 := by
      rw [h.abandonOnly]
      exact List.append_nil _
    have hcut : (idx.stageReceiptIndex abandon).receipts tx =
        if tx ∈ (abandon.removals.filter idx.removesReceipt).map Prod.snd then none
        else idx.receipts tx := by
      change idx.receipts.writeBatch (idx.receiptOps abandon) tx = _
      rw [hops]
      refine KvStore.writeBatch_ite (fun _ => none) (List.forall_mem_map.mpr fun _ _ => rfl) ?_ tx
      simp [KvOp.key]
    rw [h.restored_receipt, hcut]
    split_ifs with hback hrem
    · exact .inl rfl
    · obtain ⟨e, he, rfl⟩ := List.mem_map.mp hrem
      obtain ⟨he, hdel⟩ := List.mem_filter.mp he
      refine .inr ⟨?_, rfl⟩
      cases hr : idx.receipts e.2 with
      | none => simp [removesReceipt, hr] at hdel
      | some stored =>
        cases stored with
        | undecodable bytes => exact ⟨e.1, bytes, he, rfl⟩
        | decoded r =>
          have hblock : r.blockHash = e.1 := by simpa [removesReceipt, hr] using hdel
          exact absurd (List.mem_map.mpr ⟨r, h.complete e he r hr hblock, idx.keyed _ _ hr⟩) hback
    · exact .inl rfl
  entries e := by
    have hcut : e ∈ (idx.stageReceiptIndex abandon).entries ↔
        e ∈ idx.entries ∧ e ∉ abandon.removals := by
      have hnil : abandon.receipts = [] := by rw [h.abandonOnly]
      change e ∈ idx.stagedEntries abandon ↔ _
      rw [mem_stagedEntries, hnil]
      simp
    rw [h.mem_restored, hcut]
    by_cases hback : ∃ r ∈ restore.receipts, (r.blockHash, r.txHash) = e
    · obtain ⟨r, hr, rfl⟩ := hback
      refine .inl ⟨fun _ => idx.entered _ _ (h.stored r hr).1, fun _ => .inr ⟨r, hr, rfl⟩⟩
    by_cases hrem : e ∈ abandon.removals
    · have hgone : ¬ (e ∈ idx.entries ∧ e ∉ abandon.removals ∨
          ∃ r ∈ restore.receipts, (r.blockHash, r.txHash) = e) :=
        fun hin => hin.elim (fun hin => hin.2 hrem) hback
      refine .inr ⟨hrem, hgone, fun r hr hblock => hback ?_⟩
      exact ⟨r, h.complete e hrem r hr hblock, by rw [hblock, idx.keyed _ _ hr]⟩
    · exact .inl ⟨fun hin => hin.elim And.left fun hin => absurd hin hback,
        fun he => .inl ⟨he, hrem⟩⟩
  transactions := by
    rw [h.restoreOnly, h.abandonOnly]
    rfl
  senders := by
    rw [h.restoreOnly, h.abandonOnly]
    rfl
  reconcileFrom := by
    rw [h.restoreOnly, h.abandonOnly]
    rfl

end Restore

end ReceiptIndex

end CitrateChain.Storage
