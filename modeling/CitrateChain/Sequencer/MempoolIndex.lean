import CitrateChain.Sequencer.Mempool

/-! # The indexes of the mempool agree

After every call the transaction map, the priority queue and the queues of the senders hold the same
hashes, each sender's nonce set is the set of its pooled nonces, and the limits are kept. -/
namespace CitrateChain.Sequencer
open TreeMap PriorityQueue
open Std (ExtTreeMap)
open Consensus (Hash PublicKey SignedTx)

namespace Mempool
variable {p : Mempool} {h : Hash} {m : MempoolTx}

def Holds (p : Mempool) (h : Hash) (m : MempoolTx) : Prop := p.transactions[h]? = some m

structure Indexed (p : Mempool) : Prop where
  keyed : ∀ h m, p.Holds h m → m.tx.hash = h
  queue_nodup : (p.priorityQueue.map (·.1)).Nodup
  queue_mem : ∀ h, h ∈ p.priorityQueue.map (·.1) ↔ ∃ m, p.Holds h m
  sender_nodup : ∀ s, (p.queueOf s).Nodup
  sender_mem : ∀ s h, h ∈ p.queueOf s ↔ ∃ m, p.Holds h m ∧ m.tx.sender = s
  nonce_mem : ∀ s n, n ∈ p.noncesOf s ↔ ∃ h m, p.Holds h m ∧ m.tx.sender = s ∧ m.tx.nonce = n
  unique : ∀ h h' m m', p.Holds h m → p.Holds h' m' → m.tx.sender = m'.tx.sender →
    m.tx.nonce = m'.tx.nonce → h = h'
  size_eq : p.totalSize = sumBy (fun _ m => m.size) p.transactions

structure WithinLimits (c : MempoolConfig) (p : Mempool) : Prop where
  length : p.transactions.size ≤ c.maxSize
  perSender : ∀ s, (p.queueOf s).length ≤ c.maxPerSender
  bytes : p.totalSize ≤ maxPoolBytes

theorem Indexed.empty (banned : ExtTreeMap PublicKey ℕ) (swept : Bool) :
    Indexed { banned, nativeSigSwept := swept } where
  keyed _ _ h := by simp [Holds] at h
  queue_nodup := List.nodup_nil
  queue_mem _ := by simp [Holds]
  sender_nodup _ := by simp [queueOf]
  sender_mem _ _ := by simp [Holds, queueOf]
  nonce_mem _ _ := by simp [Holds, noncesOf]
  unique _ _ _ _ h := by simp [Holds] at h
  size_eq := (sumBy_empty _).symm

theorem WithinLimits.empty (c : MempoolConfig) (banned : ExtTreeMap PublicKey ℕ) (swept : Bool) :
    WithinLimits c { banned, nativeSigSwept := swept } where
  length := by simp
  perSender _ := by simp [queueOf]
  bytes := Nat.zero_le _

theorem queueOf_dropFromSender (p : Mempool) (s s' : PublicKey) (h : Hash) :
    (p.dropFromSender s h).queueOf s' = if s' = s then (p.queueOf s').filter (· != h) else p.queueOf s' := by
  unfold dropFromSender
  split
  · next q hq =>
    rw [queueOf, getElem?_insert_ite]
    split
    · next hs => rw [hs, queueOf, hq, Option.getD_some, Option.getD_some]
    · rfl
  · next hq =>
    split
    · next hs => simp [queueOf, hs, hq]
    · rfl

theorem noncesOf_dropNonce (p : Mempool) (s s' : PublicKey) (n : UInt64) :
    (p.dropNonce s n).noncesOf s' = if s' = s then (p.noncesOf s').filter (· != n) else p.noncesOf s' := by
  unfold dropNonce
  split
  · next set hset =>
    have hsame : p.noncesOf s = set := by rw [noncesOf, hset, Option.getD_some]
    dsimp only
    split
    · next hempty =>
      rw [noncesOf, getElem?_erase_ite]
      split
      · next hs => rw [hs, hsame, Option.getD_none, List.isEmpty_iff.mp hempty]
      · rfl
    · rw [noncesOf, getElem?_insert_ite]
      split
      · next hs => rw [hs, hsame, Option.getD_some]
      · rfl
  · next hset =>
    split
    · next hs => simp [noncesOf, hs, hset]
    · rfl

structure Removed (p : Mempool) (h : Hash) (m : MempoolTx) (p' : Mempool) : Prop where
  transactions : p'.transactions = p.transactions.erase h
  priorityQueue : p'.priorityQueue = p.priorityQueue.remove h
  queueOf : ∀ s, p'.queueOf s =
    if s = m.tx.sender then (p.queueOf s).filter (· != h) else p.queueOf s
  noncesOf : ∀ s, p'.noncesOf s =
    if s = m.tx.sender then (p.noncesOf s).filter (· != m.tx.nonce) else p.noncesOf s
  totalSize : p'.totalSize = p.totalSize - m.size

@[simp] theorem dropFromSender_fields (p : Mempool) (s : PublicKey) (h : Hash) :
    (p.dropFromSender s h).transactions = p.transactions ∧
      (p.dropFromSender s h).priorityQueue = p.priorityQueue ∧
      (p.dropFromSender s h).senderNonces = p.senderNonces ∧
      (p.dropFromSender s h).totalSize = p.totalSize := by
  unfold dropFromSender
  split <;> exact ⟨rfl, rfl, rfl, rfl⟩

@[simp] theorem dropNonce_fields (p : Mempool) (s : PublicKey) (n : UInt64) :
    (p.dropNonce s n).transactions = p.transactions ∧
      (p.dropNonce s n).priorityQueue = p.priorityQueue ∧
      (p.dropNonce s n).bySender = p.bySender ∧ (p.dropNonce s n).totalSize = p.totalSize := by
  unfold dropNonce
  split <;> exact ⟨rfl, rfl, rfl, rfl⟩

@[simp] theorem markEvicted_fields (p : Mempool) (h : Hash) :
    (p.markEvicted h).transactions = p.transactions ∧
      (p.markEvicted h).priorityQueue = p.priorityQueue ∧
      (p.markEvicted h).bySender = p.bySender ∧ (p.markEvicted h).senderNonces = p.senderNonces ∧
      (p.markEvicted h).totalSize = p.totalSize := by
  unfold markEvicted
  split <;> exact ⟨rfl, rfl, rfl, rfl, rfl⟩

theorem removeTransaction_of_holds (hm : p.Holds h m) : Removed p h m (p.removeTransaction h).1 := by
  have heq : (p.removeTransaction h).1 = (((((p.dropTransaction h).dropFromQueue h).dropFromSender
      m.tx.sender h).dropSize m.size).dropNonce m.tx.sender m.tx.nonce).markEvicted h := by
    rw [removeTransaction, show p.transactions[h]? = some m from hm]
  rw [heq]
  refine ⟨?_, ?_, fun s => ?_, fun s => ?_, ?_⟩
  · simp [dropSize, dropFromQueue, dropTransaction]
  · simp [dropSize, dropFromQueue, dropTransaction]
  · rw [Mempool.queueOf, (markEvicted_fields _ _).2.2.1, (dropNonce_fields _ _ _).2.2.1]
    exact queueOf_dropFromSender _ _ _ _
  · rw [Mempool.noncesOf, (markEvicted_fields _ _).2.2.2.1, ← Mempool.noncesOf, noncesOf_dropNonce]
    simp [Mempool.noncesOf, dropSize, dropFromQueue, dropTransaction]
  · simp [dropSize, dropFromQueue, dropTransaction]

theorem removeTransaction_of_not_holds (hm : ∀ m, ¬ p.Holds h m) : (p.removeTransaction h).1 = p := by
  have hnone : p.transactions[h]? = none := Option.eq_none_iff_forall_not_mem.mpr hm
  rw [removeTransaction, hnone]

section Removed
variable {p' : Mempool}

variable (hr : Removed p h m p')
include hr

theorem Removed.holds {h' : Hash} {m' : MempoolTx} : p'.Holds h' m' ↔ h ≠ h' ∧ p.Holds h' m' := by
  rw [Holds, hr.transactions, getElem?_erase_eq_some]
  rfl

theorem Removed.mem_queueOf (hp : p.Indexed) (hm : p.Holds h m) {s : PublicKey} {h' : Hash} :
    h' ∈ p'.queueOf s ↔ h ≠ h' ∧ h' ∈ p.queueOf s := by
  rw [hr.queueOf]
  split
  · rw [List.mem_filter, bne_iff_ne, and_comm, ne_comm]
  · next hs =>
    refine ⟨fun hmem => ⟨?_, hmem⟩, And.right⟩
    rintro rfl
    obtain ⟨m', hm', hs'⟩ := (hp.sender_mem s h).mp hmem
    cases hm.symm.trans hm'
    exact hs hs'.symm

theorem Removed.mem_noncesOf {s : PublicKey} {n : UInt64} :
    n ∈ p'.noncesOf s ↔ n ∈ p.noncesOf s ∧ ¬ (s = m.tx.sender ∧ n = m.tx.nonce) := by
  rw [hr.noncesOf]
  split
  · next hs => simp [hs]
  · next hs => simp [hs]

theorem Removed.indexed (hp : p.Indexed) (hm : p.Holds h m) : p'.Indexed where
  keyed h' m' hm' := hp.keyed h' m' (hr.holds.mp hm').2
  queue_nodup := by
    rw [hr.priorityQueue]
    exact hp.queue_nodup.sublist (List.filter_sublist.map _)
  queue_mem h' := by
    have hmem : h' ∈ p'.priorityQueue.map (·.1) ↔ h ≠ h' ∧ h' ∈ p.priorityQueue.map (·.1) := by
      rw [hr.priorityQueue, remove]
      simp only [List.mem_map, List.mem_filter, bne_iff_ne]
      constructor
      · rintro ⟨e, ⟨he, hne⟩, rfl⟩
        exact ⟨Ne.symm hne, e, he, rfl⟩
      · rintro ⟨hne, e, he, rfl⟩
        exact ⟨e, ⟨he, Ne.symm hne⟩, rfl⟩
    simp only [hmem, hp.queue_mem, hr.holds, exists_and_left]
  sender_nodup s := by
    rw [hr.queueOf]
    split
    · exact (hp.sender_nodup s).filter _
    · exact hp.sender_nodup s
  sender_mem s h' := by
    simp only [hr.mem_queueOf hp hm, hp.sender_mem, hr.holds, and_assoc, exists_and_left]
  nonce_mem s n := by
    rw [hr.mem_noncesOf, hp.nonce_mem]
    constructor
    · rintro ⟨⟨h', m', hm', rfl, rfl⟩, hne⟩
      refine ⟨h', m', hr.holds.mpr ⟨?_, hm'⟩, rfl, rfl⟩
      rintro rfl
      cases hm.symm.trans hm'
      exact hne ⟨rfl, rfl⟩
    · rintro ⟨h', m', hm', rfl, rfl⟩
      obtain ⟨hne, hm'⟩ := hr.holds.mp hm'
      refine ⟨⟨h', m', hm', rfl, rfl⟩, fun hsame => hne ?_⟩
      exact hp.unique h h' m m' hm hm' hsame.1.symm hsame.2.symm
  unique h₁ h₂ m₁ m₂ hm₁ hm₂ := hp.unique h₁ h₂ m₁ m₂ (hr.holds.mp hm₁).2 (hr.holds.mp hm₂).2
  size_eq := by
    rw [hr.totalSize, hr.transactions, hp.size_eq, sumBy_erase _ hm, Nat.add_sub_cancel_left]

theorem Removed.withinLimits {c : MempoolConfig} (hp : WithinLimits c p) : WithinLimits c p' where
  length := by
    rw [hr.transactions]
    exact ExtTreeMap.size_erase_le.trans hp.length
  perSender s := by
    rw [hr.queueOf]
    split
    · exact (List.length_filter_le _ _).trans (hp.perSender s)
    · exact hp.perSender s
  bytes := by
    rw [hr.totalSize]
    exact (Nat.sub_le _ _).trans hp.bytes

end Removed

structure Sound (c : MempoolConfig) (p : Mempool) : Prop where
  indexed : p.Indexed
  limits : WithinLimits c p

variable {c : MempoolConfig}

theorem Sound.removeTransaction (hp : Sound c p) (h : Hash) : Sound c (p.removeTransaction h).1 := by
  by_cases hm : ∃ m, p.Holds h m
  · obtain ⟨m, hm⟩ := hm
    have hr := removeTransaction_of_holds hm
    exact ⟨hr.indexed hp.indexed hm, hr.withinLimits hp.limits⟩
  · rw [removeTransaction_of_not_holds (not_exists.mp hm)]
    exact hp

theorem Sound.removeAll (hp : Sound c p) (hs : List Hash) : Sound c (p.removeAll hs) := by
  induction hs generalizing p with
  | nil => exact hp
  | cons h hs ih => exact ih (hp.removeTransaction h)

theorem Sound.congr {p' : Mempool} (hp : Sound c p) (ht : p'.transactions = p.transactions)
    (hq : p'.priorityQueue = p.priorityQueue) (hs : p'.bySender = p.bySender)
    (hn : p'.senderNonces = p.senderNonces) (hz : p'.totalSize = p.totalSize) : Sound c p' := by
  obtain ⟨transactions, queue, bySender, nonces, total, evicted, banned, swept⟩ := p
  subst ht hq hs hn hz
  exact ⟨⟨hp.indexed.keyed, hp.indexed.queue_nodup, hp.indexed.queue_mem, hp.indexed.sender_nodup,
    hp.indexed.sender_mem, hp.indexed.nonce_mem, hp.indexed.unique, hp.indexed.size_eq⟩,
    ⟨hp.limits.length, hp.limits.perSender, hp.limits.bytes⟩⟩

section Rules
variable {r : PoolRules}

theorem Sound.sweepIfV1WindowClosed (hp : Sound c p) (env : Readings) :
    Sound c (p.sweepIfV1WindowClosed r env) := by
  unfold Mempool.sweepIfV1WindowClosed
  split
  · have hmarked : Sound c { p with nativeSigSwept := true } := hp.congr rfl rfl rfl rfl rfl
    exact hmarked.removeAll _
  · exact hp

theorem PriorityQueue.mem_of_lowest {q : PriorityQueue} {e : Hash × TxPriority}
    (h : q.lowest = some e) : e ∈ q := by
  induction q generalizing e with
  | nil => cases h
  | cons d q ih =>
    rw [lowest] at h
    split at h
    · cases h
      exact List.mem_cons_self
    · next e' he' =>
      cases h
      split
      · exact List.mem_cons_of_mem _ (ih he')
      · exact List.mem_cons_self

theorem evictLowerPriorityThan_cases (hp : p.Indexed) (incoming : TxPriority) :
    (∃ h m, p.Holds h m ∧ evictLowerPriorityThan r p incoming = ((p.removeTransaction h).1, .ok ())) ∨
      evictLowerPriorityThan r p incoming = (p, .error .full) := by
  unfold evictLowerPriorityThan
  split
  · next h lowest hlowest =>
    split
    · left
      have hmem := (r.walk_perm _).mem_iff.mp (PriorityQueue.mem_of_lowest hlowest)
      obtain ⟨m, hm⟩ := (hp.queue_mem h).mp (List.mem_map_of_mem hmem)
      exact ⟨h, m, hm, rfl⟩
    · exact .inr rfl
  · exact .inr rfl

structure Admissible (c : MempoolConfig) (p : Mempool) (tx : SignedTx) : Prop where
  hash_fresh : ∀ m, ¬ p.Holds tx.hash m
  nonce_fresh : tx.nonce ∉ p.noncesOf tx.sender
  sender_room : (p.queueOf tx.sender).length < c.maxPerSender

variable {tx : SignedTx} {p' : Mempool}

theorem Removed.admissible (hr : Removed p h m p') (ha : Admissible c p tx) :
    Admissible c p' tx where
  hash_fresh m' hm' := ha.hash_fresh m' (hr.holds.mp hm').2
  nonce_fresh hn := ha.nonce_fresh (hr.mem_noncesOf.mp hn).1
  sender_room := by
    rw [hr.queueOf]
    split
    · exact (List.length_filter_le _ _).trans_lt ha.sender_room
    · exact ha.sender_room

theorem Removed.size_lt (hr : Removed p h m p') (hm : p.Holds h m) :
    p'.transactions.size < p.transactions.size := by
  rw [hr.transactions, size_erase_of_eq_some hm]
  exact Nat.lt_succ_self _

variable {res : Except MempoolError Unit} {incoming : TxPriority}

theorem evictUntilFits_spec {size fuel : ℕ} (hp : Sound c p) (ha : Admissible c p tx)
    (h : evictUntilFits r incoming size fuel p = (p', res)) :
    Sound c p' ∧ Admissible c p' tx ∧ p'.transactions.size ≤ p.transactions.size ∧
      (res = .ok () → usizeAdd p'.totalSize size ≤ maxPoolBytes) := by
  induction fuel generalizing p with
  | zero =>
    cases h
    exact ⟨hp, ha, le_rfl, nofun⟩
  | succ fuel ih =>
    rw [evictUntilFits] at h
    split at h
    · next hfits =>
      cases h
      exact ⟨hp, ha, le_rfl, fun _ => hfits⟩
    rcases evictLowerPriorityThan_cases hp.indexed incoming with ⟨h', m, hm, heq⟩ | heq
    · have hr := removeTransaction_of_holds hm
      rw [heq] at h
      obtain ⟨hp', ha', hle, hfits⟩ := ih (hp.removeTransaction h') (hr.admissible ha) h
      exact ⟨hp', ha', hle.trans (hr.size_lt hm).le, hfits⟩
    · rw [heq] at h
      cases h
      exact ⟨hp, ha, le_rfl, nofun⟩

theorem makeRoom_spec {size : ℕ} (hp : Sound r.config p) (ha : Admissible r.config p tx)
    (h : makeRoom r p incoming size = (p', res)) :
    Sound r.config p' ∧ (res = .ok () → Admissible r.config p' tx ∧
      p'.transactions.size < r.config.maxSize ∧ usizeAdd p'.totalSize size ≤ maxPoolBytes) := by
  unfold makeRoom at h
  -- with enough entries one is evicted first, or the call is refused
  generalize hcount : (if r.config.maxSize ≤ p.transactions.size then
    evictLowerPriorityThan r p incoming else (p, .ok ())) = first at h
  obtain ⟨p₁, res₁⟩ := first
  have hroom : Sound r.config p₁ ∧ (res₁ = .ok () → Admissible r.config p₁ tx ∧
      p₁.transactions.size < r.config.maxSize) := by
    split at hcount
    · rcases evictLowerPriorityThan_cases hp.indexed incoming with ⟨h', m, hm, heq⟩ | heq
      · obtain ⟨rfl, -⟩ := Prod.mk.inj (heq.symm.trans hcount)
        have hr := removeTransaction_of_holds hm
        exact ⟨hp.removeTransaction h', fun _ =>
          ⟨hr.admissible ha, (hr.size_lt hm).trans_le hp.limits.length⟩⟩
      · cases heq.symm.trans hcount
        exact ⟨hp, nofun⟩
    · next hlt =>
      cases hcount
      exact ⟨hp, fun _ => ⟨ha, not_le.mp hlt⟩⟩
  cases res₁ with
  | error e =>
    cases h
    exact ⟨hroom.1, nofun⟩
  | ok =>
    obtain ⟨ha₁, hlt⟩ := hroom.2 rfl
    obtain ⟨hp', ha', hle, hfits⟩ := evictUntilFits_spec hroom.1 ha₁ h
    exact ⟨hp', fun hok => ⟨ha', hle.trans_lt hlt, hfits hok⟩⟩

variable {h : Hash}

theorem PriorityQueue.push_of_not_mem {q : PriorityQueue} {pr : TxPriority} (hq : h ∉ q.map (·.1)) :
    q.push h pr = q ++ [(h, pr)] := by
  rw [push, if_neg]
  intro hany
  obtain ⟨e, he, heq⟩ := List.any_eq_true.mp hany
  exact hq (List.mem_map.mpr ⟨e, he, by simpa using heq⟩)

theorem insertTx_holds {m m' : MempoolTx} : (p.insertTx m).Holds h m' ↔
    (m.tx.hash = h ∧ m = m') ∨ (m.tx.hash ≠ h ∧ p.Holds h m') :=
  getElem?_insert_eq_some

theorem insertTx_queueOf (p : Mempool) (m : MempoolTx) (s : PublicKey) : (p.insertTx m).queueOf s =
    if s = m.tx.sender then p.queueOf s ++ [m.tx.hash] else p.queueOf s := by
  change (p.bySender.insert m.tx.sender (p.queueOf m.tx.sender ++ [m.tx.hash]))[s]?.getD [] = _
  rw [getElem?_insert_ite]
  split
  · next hs => rw [hs, Option.getD_some]
  · rfl

theorem insertTx_noncesOf (p : Mempool) (m : MempoolTx) (s : PublicKey) : (p.insertTx m).noncesOf s =
    if s = m.tx.sender then (p.noncesOf s).insert m.tx.nonce else p.noncesOf s := by
  change (p.senderNonces.insert m.tx.sender ((p.noncesOf m.tx.sender).insert m.tx.nonce))[s]?.getD [] = _
  rw [getElem?_insert_ite]
  split
  · next hs => rw [hs, Option.getD_some]
  · rfl

theorem insertTx_totalSize (hfits : usizeAdd p.totalSize m.size ≤ maxPoolBytes) :
    (p.insertTx m).totalSize = p.totalSize + m.size := by
  change usizeAdd p.totalSize m.size = _
  unfold usizeAdd maxPoolBytes at *
  omega

theorem Admissible.exists_insertTx (ha : Admissible c p m.tx) {P : Hash → MempoolTx → Prop} :
    (∃ h m', (p.insertTx m).Holds h m' ∧ P h m') ↔
      (∃ h m', p.Holds h m' ∧ P h m') ∨ P m.tx.hash m := by
  simp only [insertTx_holds]
  constructor
  · rintro ⟨h, m', ⟨rfl, rfl⟩ | ⟨-, hm'⟩, hP⟩
    · exact .inr hP
    · exact .inl ⟨h, m', hm', hP⟩
  · rintro (⟨h, m', hm', hP⟩ | hP)
    · refine ⟨h, m', .inr ⟨?_, hm'⟩, hP⟩
      rintro rfl
      exact ha.hash_fresh m' hm'
    · exact ⟨_, m, .inl ⟨rfl, rfl⟩, hP⟩

theorem Indexed.insertTx_queue (hp : p.Indexed) (ha : Admissible c p m.tx) :
    (p.insertTx m).priorityQueue.map (·.1) = p.priorityQueue.map (·.1) ++ [m.tx.hash] := by
  change (p.priorityQueue.push m.tx.hash m.priority).map (·.1) = _
  rw [PriorityQueue.push_of_not_mem fun hmem => (hp.queue_mem _).mp hmem |>.elim ha.hash_fresh,
    List.map_append]
  rfl

theorem nodup_concat {l : List Hash} (hl : l.Nodup) (hh : h ∉ l) : (l ++ [h]).Nodup :=
  List.nodup_append.mpr ⟨hl, List.nodup_singleton _, fun _ ha _ hb hab =>
    hh ((hab.trans (List.mem_singleton.mp hb)) ▸ ha)⟩

theorem Indexed.insertTx (hp : p.Indexed) (ha : Admissible c p m.tx)
    (hfits : usizeAdd p.totalSize m.size ≤ maxPoolBytes) : (p.insertTx m).Indexed where
  keyed h m' hm' := by
    rcases insertTx_holds.mp hm' with ⟨rfl, rfl⟩ | ⟨-, hm'⟩
    · rfl
    · exact hp.keyed h m' hm'
  queue_nodup := by
    rw [hp.insertTx_queue ha]
    exact nodup_concat hp.queue_nodup fun hmem => (hp.queue_mem _).mp hmem |>.elim ha.hash_fresh
  queue_mem h := by
    have hexists := ha.exists_insertTx (P := fun h' _ => h' = h)
    rw [hp.insertTx_queue ha, List.mem_append, hp.queue_mem, List.mem_singleton]
    simpa [eq_comm] using hexists.symm
  sender_nodup s := by
    rw [insertTx_queueOf]
    split
    · refine nodup_concat (hp.sender_nodup s) fun hmem => ?_
      obtain ⟨m', hm', -⟩ := (hp.sender_mem s _).mp hmem
      exact ha.hash_fresh m' hm'
    · exact hp.sender_nodup s
  sender_mem s h := by
    have hexists := ha.exists_insertTx (P := fun h' m' => h' = h ∧ m'.tx.sender = s)
    have hmem : h ∈ (p.insertTx m).queueOf s ↔ h ∈ p.queueOf s ∨ m.tx.hash = h ∧ m.tx.sender = s := by
      rw [insertTx_queueOf]
      split
      · next hs => simp [hs, eq_comm]
      · next hs => simp [Ne.symm hs]
    rw [hmem, hp.sender_mem]
    simpa using hexists.symm
  nonce_mem s n := by
    have hmem : n ∈ (p.insertTx m).noncesOf s ↔ n ∈ p.noncesOf s ∨ m.tx.sender = s ∧ m.tx.nonce = n := by
      rw [insertTx_noncesOf]
      split
      · next hs => simp [hs, List.mem_insert_iff, or_comm, eq_comm]
      · next hs => simp [Ne.symm hs]
    rw [hmem, hp.nonce_mem]
    exact ha.exists_insertTx.symm
  unique h₁ h₂ m₁ m₂ hm₁ hm₂ hs hn := by
    -- an old transaction of the sender has another nonce
    have hother : ∀ h' m', p.Holds h' m' → m'.tx.sender = m.tx.sender → m'.tx.nonce ≠ m.tx.nonce := by
      intro h' m' hm' hs' hn'
      exact ha.nonce_fresh ((hp.nonce_mem _ _).mpr ⟨h', m', hm', hs', hn'⟩)
    rcases insertTx_holds.mp hm₁ with ⟨rfl, rfl⟩ | ⟨-, hm₁⟩
    · rcases insertTx_holds.mp hm₂ with ⟨rfl, -⟩ | ⟨-, hm₂⟩
      · rfl
      · exact absurd hn.symm (hother h₂ m₂ hm₂ hs.symm)
    · rcases insertTx_holds.mp hm₂ with ⟨rfl, rfl⟩ | ⟨-, hm₂⟩
      · exact absurd hn (hother h₁ m₁ hm₁ hs)
      · exact hp.unique h₁ h₂ m₁ m₂ hm₁ hm₂ hs hn
  size_eq := by
    have hfresh : m.tx.hash ∉ p.transactions := fun hmem =>
      (TreeMap.mem_iff_exists.mp hmem).elim ha.hash_fresh
    rw [insertTx_totalSize hfits, hp.size_eq]
    change _ = sumBy _ (p.transactions.insert m.tx.hash m)
    rw [sumBy_insert_of_not_mem _ hfresh, Nat.add_comm]

theorem Sound.insertTx (hp : Sound c p) (ha : Admissible c p m.tx)
    (hlen : p.transactions.size < c.maxSize) (hfits : usizeAdd p.totalSize m.size ≤ maxPoolBytes) :
    Sound c (p.insertTx m) := by
  refine ⟨hp.indexed.insertTx ha hfits, ?_, fun s => ?_, hfits⟩
  · exact ExtTreeMap.size_insert_le.trans hlen
  · rw [insertTx_queueOf]
    split
    · next hs =>
      subst hs
      rw [List.length_append, List.length_singleton]
      exact ha.sender_room
    · exact hp.limits.perSender s

theorem checkSenderLimit_ok (hpos : 0 < r.config.maxPerSender)
    (h : checkSenderLimit r p tx = .ok ()) :
    (p.queueOf tx.sender).length < r.config.maxPerSender := by
  unfold checkSenderLimit at h
  rw [queueOf]
  split at h
  · next txs htxs =>
    rw [htxs, Option.getD_some]
    split at h
    · cases h
    · next hlt => exact not_le.mp hlt
  · next hnone =>
    rw [hnone]
    exact hpos

theorem checkNonce_ok (h : checkNonce r p tx = .ok ()) : tx.nonce ∉ p.noncesOf tx.sender := by
  unfold checkNonce at h
  rw [noncesOf]
  split at h
  · next hnone =>
    rw [hnone]
    exact List.not_mem_nil
  · next set hset =>
    rw [hset, Option.getD_some]
    split at h
    · cases h
    · assumption

theorem checkAdmission_ok {env : Readings} (hpos : 0 < r.config.maxPerSender)
    (h : checkAdmission r p env tx = .ok ()) : Admissible r.config p tx := by
  obtain ⟨⟨⟩, hdup, h⟩ := Result.bind_eq_ok.mp h
  obtain ⟨⟨⟩, -, h⟩ := Result.bind_eq_ok.mp h
  obtain ⟨⟨⟩, hlimit, h⟩ := Result.bind_eq_ok.mp h
  obtain ⟨⟨⟩, hnonce, -⟩ := Result.bind_eq_ok.mp h
  refine ⟨fun m hm => ?_, checkNonce_ok hnonce, checkSenderLimit_ok hpos hlimit⟩
  unfold checkDuplicate at hdup
  split at hdup
  · cases hdup
  · next hnot => exact hnot (TreeMap.mem_of_getElem? hm)

theorem Sound.addTransaction (hpos : 0 < r.config.maxPerSender) (hp : Sound r.config p) (env : Readings)
    (tx : SignedTx) (txClass : TxClass) : Sound r.config (addTransaction r p env tx txClass).1 := by
  have hswept : Sound r.config (p.sweepIfV1WindowClosed r env) := hp.sweepIfV1WindowClosed env
  unfold Mempool.addTransaction
  dsimp only
  split
  · exact hswept
  split
  · exact hswept
  next hcheck =>
  have ha := checkAdmission_ok hpos hcheck
  split
  · next hroom => exact (makeRoom_spec hswept ha hroom).1
  · next hroom =>
    obtain ⟨hp', hok⟩ := makeRoom_spec hswept ha hroom
    obtain ⟨ha', hlen, hfits⟩ := hok rfl
    exact hp'.insertTx ha' hlen hfits

theorem reconcileNonces_eq_some {s : PublicKey} {set : List UInt64} :
    p.reconcileNonces.senderNonces[s]? = some set ↔ (s, set) ∈
      (p.bySender.toList.map fun e => (e.1, (e.2.filterMap fun h =>
        p.transactions[h]?.map (·.tx.nonce)).dedup)).filter fun e => !e.2.isEmpty := by
  rw [reconcileNonces, ExtTreeMap.ofList_eq_foldl]
  refine getElem?_foldl_insert_nodup (List.Nodup.sublist (List.filter_sublist.map _) ?_)
  rw [List.map_map]
  have hkeys : p.bySender.toList.map (·.1) = p.bySender.keys := ExtTreeMap.map_fst_toList_eq_keys
  exact hkeys ▸ ExtTreeMap.nodup_keys

theorem noncesOf_reconcileNonces (p : Mempool) (s : PublicKey) (n : UInt64) :
    n ∈ p.reconcileNonces.noncesOf s ↔ ∃ h ∈ p.queueOf s, ∃ m, p.Holds h m ∧ m.tx.nonce = n := by
  have hpooled : ∀ q : List Hash, n ∈ (q.filterMap fun h => p.transactions[h]?.map (·.tx.nonce)).dedup ↔
      ∃ h ∈ q, ∃ m, p.Holds h m ∧ m.tx.nonce = n := by
    intro q
    simp only [List.mem_dedup, List.mem_filterMap, Option.map_eq_some_iff]
    rfl
  constructor
  · intro hn
    rw [noncesOf] at hn
    cases hset : p.reconcileNonces.senderNonces[s]? with
    | none =>
      rw [hset] at hn
      cases hn
    | some set =>
      rw [hset, Option.getD_some] at hn
      obtain ⟨hmem, -⟩ := List.mem_filter.mp (reconcileNonces_eq_some.mp hset)
      obtain ⟨⟨s', q⟩, he, heq⟩ := List.mem_map.mp hmem
      cases heq
      rw [queueOf, ExtTreeMap.mem_toList_iff_getElem?_eq_some.mp he]
      exact (hpooled q).mp hn
  · rintro ⟨h, hq, hm⟩
    rw [queueOf] at hq
    cases hqueue : p.bySender[s]? with
    | none =>
      rw [hqueue] at hq
      cases hq
    | some q =>
      rw [hqueue, Option.getD_some] at hq
      have hn := (hpooled q).mpr ⟨h, hq, hm⟩
      have hset := reconcileNonces_eq_some.mpr (List.mem_filter.mpr ⟨List.mem_map.mpr
        ⟨(s, q), ExtTreeMap.mem_toList_iff_getElem?_eq_some.mpr hqueue, rfl⟩, by
          simpa using List.ne_nil_of_mem hn⟩)
      rw [noncesOf, hset]
      exact hn

theorem Sound.reconcileNonces (hp : Sound c p) : Sound c p.reconcileNonces := by
  refine ⟨⟨hp.indexed.keyed, hp.indexed.queue_nodup, hp.indexed.queue_mem, hp.indexed.sender_nodup,
    hp.indexed.sender_mem, fun s n => ?_, hp.indexed.unique, hp.indexed.size_eq⟩,
    hp.limits.length, hp.limits.perSender, hp.limits.bytes⟩
  rw [noncesOf_reconcileNonces]
  constructor
  · rintro ⟨h, hq, m, hm, hn⟩
    obtain ⟨m', hm', hs⟩ := (hp.indexed.sender_mem s h).mp hq
    cases hm.symm.trans hm'
    exact ⟨h, m, hm, hs, hn⟩
  · rintro ⟨h, m, hm, hs, hn⟩
    exact ⟨h, (hp.indexed.sender_mem s h).mpr ⟨m, hm, hs⟩, m, hm, hn⟩

theorem Sound.evictLowerPriorityThan (hp : Sound c p) (incoming : TxPriority) :
    Sound c (evictLowerPriorityThan r p incoming).1 := by
  rcases evictLowerPriorityThan_cases hp.indexed incoming with ⟨h, m, -, heq⟩ | heq
  · rw [heq]
    exact hp.removeTransaction h
  · rw [heq]
    exact hp

theorem Sound.clearExpired (hp : Sound c p) (env : Readings) : Sound c (clearExpired r p env) := by
  unfold Mempool.clearExpired
  split
  · exact hp.removeAll _
  · exact (hp.removeAll _).removeAll _

end Rules

inductive Call
  | addTransaction (env : Readings) (tx : SignedTx) (txClass : TxClass)
  | removeTransaction (h : Hash)
  | reconcileNonces
  | getBestTransactions (env : Readings) (maxCount maxSize : ℕ)
  | evict (incoming : TxPriority)
  | clearExpired (env : Readings)
  | clear
  | banSender (s : PublicKey) (now til : ℕ)

def Call.run (r : PoolRules) (p : Mempool) : Call → Mempool
  | .addTransaction env tx txClass => (Mempool.addTransaction r p env tx txClass).1
  | .removeTransaction h => (p.removeTransaction h).1
  | .reconcileNonces => p.reconcileNonces
  | .getBestTransactions env maxCount maxSize => (Mempool.getBestTransactions r p env maxCount maxSize).1
  | .evict incoming => (evictLowerPriorityThan r p incoming).1
  | .clearExpired env => Mempool.clearExpired r p env
  | .clear => p.clear
  | .banSender s now til => p.banSender s now til

theorem Sound.call {r : PoolRules} (hpos : 0 < r.config.maxPerSender) (hp : Sound r.config p)
    (call : Call) : Sound r.config (call.run r p) := by
  cases call with
  | addTransaction env tx txClass => exact hp.addTransaction hpos env tx txClass
  | removeTransaction h => exact hp.removeTransaction h
  | reconcileNonces => exact hp.reconcileNonces
  | getBestTransactions env maxCount maxSize => exact hp.sweepIfV1WindowClosed env
  | evict incoming => exact hp.evictLowerPriorityThan incoming
  | clearExpired env => exact hp.clearExpired env
  | clear => exact ⟨.empty _ _, .empty _ _ _⟩
  | banSender s now til =>
    have hbanned : Sound r.config (p.ban s now til) := hp.congr rfl rfl rfl rfl rfl
    exact hbanned.removeAll _

/-- Whatever is called, with whatever answers from the state: the indexes agree and the limits are
kept, when at least one transaction per sender is allowed. -/
theorem calls_keep_indexes (r : PoolRules) (hpos : 0 < r.config.maxPerSender) (calls : List Call) :
    (calls.foldl (Call.run r) {}).Indexed ∧ WithinLimits r.config (calls.foldl (Call.run r) {}) := by
  have hsound : Sound r.config (calls.foldl (Call.run r) {}) :=
    List.foldlRecOn calls _ ⟨.empty ∅ false, .empty _ ∅ false⟩ fun _ hp call _ => hp.call hpos call
  exact ⟨hsound.1, hsound.2⟩

/-! A pool that does not check signatures. -/

def openRules (config : MempoolConfig) : PoolRules where
  config := { config with requireValidSignature := false }
  devnet := true
  isExecutable _ := true
  crypto :=
    { keccak := fun _ => 0
      recover := fun _ _ _ => none
      validKey := fun _ => false
      isWeak := fun _ => false
      verify := fun _ _ _ => false
      verifyStrict := fun _ _ _ => false }
  nativeSig := none
  walk q := q
  walk_perm _ := .refl _

def plainTx (hash : Hash) (nonce : UInt64) (value : BitVec 128) : SignedTx where
  hash := hash
  nonce := nonce
  sender := 5
  recipient := some 6
  value := value
  gasPrice := 1000000000
  chainId := some 40204

theorem calls_keep_indexes_two_nonces :
    ([Call.addTransaction {} (plainTx 1 0 0) .standard, .addTransaction {} (plainTx 2 1 0) .standard].foldl
      (Call.run (openRules {})) {}).queueOf 5 = [1, 2] ∧
    ([Call.addTransaction {} (plainTx 1 0 0) .standard, .addTransaction {} (plainTx 2 1 0) .standard].foldl
      (Call.run (openRules {})) {}).Indexed ∧
    WithinLimits (openRules {}).config ([Call.addTransaction {} (plainTx 1 0 0) .standard,
      .addTransaction {} (plainTx 2 1 0) .standard].foldl (Call.run (openRules {})) {}) :=
  ⟨by decide, calls_keep_indexes (openRules {}) (by decide) _⟩

theorem first_of_sender_unchecked : (openRules { maxPerSender := 0 }).config.maxPerSender = 0 ∧
    ([Call.addTransaction {} (plainTx 1 0 0) .standard].foldl
      (Call.run (openRules { maxPerSender := 0 })) {}).queueOf 5 = [1] ∧
    ¬ WithinLimits (openRules { maxPerSender := 0 }).config
      ([Call.addTransaction {} (plainTx 1 0 0) .standard].foldl
        (Call.run (openRules { maxPerSender := 0 })) {}) := by
  have hqueue : ([Call.addTransaction {} (plainTx 1 0 0) .standard].foldl
      (Call.run (openRules { maxPerSender := 0 })) {}).queueOf 5 = [1] := by decide
  refine ⟨rfl, hqueue, fun hlimits => ?_⟩
  have hlen := hlimits.perSender 5
  exact absurd hlen (by decide)

end Mempool

end CitrateChain.Sequencer
