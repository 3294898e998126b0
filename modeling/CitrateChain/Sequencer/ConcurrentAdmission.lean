import CitrateChain.Base.Exclusive
import CitrateChain.Sequencer.MempoolIndex

/-! # Concurrent admission

Calls of `add_transaction` side by side. A step is what a call does between taking one lock and the
next: a check reads one structure, an insertion or a removal changes one. -/
namespace CitrateChain.Sequencer
open Std (ExtTreeMap)
open Consensus (Hash PublicKey SignedTx)

structure AddCall where
  env : Readings
  tx : SignedTx
  txClass : TxClass

def AddCall.entry (r : PoolRules) (call : AddCall) : MempoolTx :=
  let tx := Mempool.determineType call.tx
  Mempool.mempoolTx call.env (Mempool.canonical r tx) (Mempool.admissionClass tx call.txClass)

/-- The structure that a removal changes next; the transaction map is changed first. -/
inductive RemovalStep
  | queue | sender | size | nonces | evicted

inductive InsertStep
  | transactions | queue | sender | nonces | size

inductive Resume
  | sweep (rest : List Hash)
  | bytes

inductive AddPhase
  | start
  | collect
  | remove (h : Hash) (resume : Resume)
  | removing (h : Hash) (m : MempoolTx) (step : RemovalStep) (resume : Resume)
  | validate
  | duplicate
  | evicted
  | senderLimit
  | nonce
  | balance
  | count
  | bytes
  | evictCount
  | evictBytes
  | insert (step : InsertStep)
  | ended (result : Except MempoolError Unit)

def Resume.phase : Resume → AddPhase
  | .sweep [] => .validate
  | .sweep (h :: rest) => .remove h (.sweep rest)
  | .bytes => .bytes

namespace AddPhase

def active : AddPhase → Bool
  | .start | .validate | .duplicate | .ended _ => false
  | _ => true

def check (next : AddPhase) : Except MempoolError Unit → AddPhase
  | .ok () => next
  | .error e => .ended (.error e)

end AddPhase

namespace Mempool
variable (r : PoolRules)

def removalStep (p : Mempool) (h : Hash) (m : MempoolTx) : RemovalStep → Mempool
  | .queue => p.dropFromQueue h
  | .sender => p.dropFromSender m.tx.sender h
  | .size => p.dropSize m.size
  | .nonces => p.dropNonce m.tx.sender m.tx.nonce
  | .evicted => p.markEvicted h

def insertStep (p : Mempool) (m : MempoolTx) : InsertStep → Mempool
  | .transactions => p.putTransaction m
  | .queue => p.pushQueue m
  | .sender => p.pushSender m
  | .nonces => p.addNonce m
  | .size => p.addSize m

def evictPhase (p : Mempool) (incoming : TxPriority) : AddPhase :=
  match (r.walk p.priorityQueue).lowest with
  | some (h, lowest) =>
    if lowest.score ≤ incoming.score then .remove h .bytes else .ended (.error .full)
  | none => .ended (.error .full)

def RemovalStep.next (h : Hash) (m : MempoolTx) (resume : Resume) : RemovalStep → AddPhase
  | .queue => .removing h m .sender resume
  | .sender => .removing h m .size resume
  | .size => .removing h m .nonces resume
  | .nonces => .removing h m .evicted resume
  | .evicted => resume.phase

def InsertStep.next : InsertStep → AddPhase
  | .transactions => .insert .queue
  | .queue => .insert .sender
  | .sender => .insert .nonces
  | .nonces => .insert .size
  | .size => .ended (.ok ())

def addStep (call : AddCall) (p : Mempool) : AddPhase → Option (Mempool × AddPhase)
  | .start =>
    if p.sweeps r call.env then some ({ p with nativeSigSwept := true }, .collect)
    else some (p, .validate)
  | .collect => some (p, (Resume.sweep (p.nativeBlockRuleFailures r)).phase)
  | .remove h resume =>
    match p.transactions[h]? with
    | none => some (p, resume.phase)
    | some m => some (p.dropTransaction h, .removing h m .queue resume)
  | .removing h m step resume => some (p.removalStep h m step, RemovalStep.next h m resume step)
  | .validate => some (p, .check .duplicate (validateTransaction r p call.env (determineType call.tx)))
  | .duplicate => some (p, .check .evicted (p.checkDuplicate (call.entry r).tx))
  | .evicted => some (p, .check .senderLimit (p.checkEvicted (call.entry r).tx))
  | .senderLimit => some (p, .check .nonce (checkSenderLimit r p (call.entry r).tx))
  | .nonce => some (p, .check .balance (do
      checkNonce r p (call.entry r).tx
      checkNonceMax (call.entry r).tx))
  | .balance => some (p, .check .count (p.checkBalance call.env (call.entry r).tx))
  | .count => some (p, if r.config.maxSize ≤ p.transactions.size then .evictCount else .bytes)
  | .bytes => some (p, if usizeAdd p.totalSize (call.entry r).size ≤ maxPoolBytes then
      .insert .transactions else .evictBytes)
  | .evictCount | .evictBytes => some (p, evictPhase r p (call.entry r).priority)
  | .insert step => some (p.insertStep (call.entry r) step, InsertStep.next step)
  | .ended _ => none

def ofSender (p : Mempool) (s : PublicKey) : List MempoolTx :=
  (p.transactions.toList.filter fun e => e.2.tx.sender == s).map (·.2)

def summedCost (p : Mempool) (s : PublicKey) : ℕ := ((p.ofSender s).map fun m => txMaxCost m.tx).sum

structure Admitted (c : MempoolConfig) (p : Mempool) : Prop where
  unique : ∀ h h' m m', p.Holds h m → p.Holds h' m' → m.tx.sender = m'.tx.sender →
    m.tx.nonce = m'.tx.nonce → h = h'
  length : p.transactions.size ≤ c.maxSize
  perSender : ∀ s, (p.ofSender s).length ≤ c.maxPerSender

section OfSender
variable {r} {p p' : Mempool} {h : Hash} {m : MempoolTx} {c : MempoolConfig} {s : PublicKey}

theorem ofSender_congr (h : p'.transactions = p.transactions) (s : PublicKey) :
    p'.ofSender s = p.ofSender s := by rw [ofSender, ofSender, h]

theorem Indexed.queueOf_perm (hp : p.Indexed) (s : PublicKey) : (p.queueOf s).Perm
    ((p.transactions.toList.filter fun e => e.2.tx.sender == s).map (·.1)) := by
  have hkeys : (p.transactions.toList.map (·.1)).Nodup := by
    rw [ExtTreeMap.map_fst_toList_eq_keys]
    exact ExtTreeMap.nodup_keys
  rw [List.perm_ext_iff_of_nodup (hp.sender_nodup s) (hkeys.sublist (List.filter_sublist.map _))]
  intro h
  rw [hp.sender_mem, List.mem_map]
  constructor
  · rintro ⟨m, hm, hs⟩
    exact ⟨(h, m), List.mem_filter.mpr
      ⟨ExtTreeMap.mem_toList_iff_getElem?_eq_some.mpr hm, by simpa using hs⟩, rfl⟩
  · rintro ⟨⟨h', m⟩, he, rfl⟩
    obtain ⟨he, hs⟩ := List.mem_filter.mp he
    exact ⟨m, ExtTreeMap.mem_toList_iff_getElem?_eq_some.mp he, by simpa using hs⟩

theorem Indexed.length_ofSender (hp : p.Indexed) (s : PublicKey) :
    (p.ofSender s).length = (p.queueOf s).length := by
  rw [(hp.queueOf_perm s).length_eq, ofSender, List.length_map, List.length_map]

theorem foldl_costAdd (f : Hash → ℕ) (hs : List Hash) (acc : ℕ) (hacc : acc ≤ 2 ^ 128 - 1) :
    hs.foldl (fun acc h => costAdd acc (f h)) acc = min (acc + (hs.map f).sum) (2 ^ 128 - 1) := by
  induction hs generalizing acc with
  | nil => simpa using hacc
  | cons h hs ih =>
    rw [List.foldl_cons, ih (costAdd acc (f h)) (min_le_right _ _), List.map_cons, List.sum_cons, costAdd]
    omega

theorem Indexed.pooledCost_eq (hp : p.Indexed) (s : PublicKey) :
    p.pooledCost s = min (p.summedCost s) (2 ^ 128 - 1) := by
  rw [pooledCost, foldl_costAdd _ _ 0 (Nat.zero_le _), Nat.zero_add,
    ((hp.queueOf_perm s).map _).sum_eq, summedCost, ofSender, List.map_map, List.map_map]
  congr 2
  refine List.map_congr_left fun e he => ?_
  have hm := ExtTreeMap.mem_toList_iff_getElem?_eq_some.mp (List.mem_filter.mp he).1
  simp only [Function.comp_apply, hm]

theorem ofSender_perm (hperm : p.transactions.toList.Perm ((h, m) :: p'.transactions.toList))
    (s : PublicKey) :
    (p.ofSender s).Perm (if m.tx.sender = s then m :: p'.ofSender s else p'.ofSender s) := by
  have hperm := (hperm.filter fun e => e.2.tx.sender == s).map (·.2)
  rw [ofSender, ofSender]
  split
  · next hs => simpa [hs] using hperm
  · next hs => simpa [hs] using hperm

theorem ofSender_erase (hm : p.Holds h m) (h' : p'.transactions = p.transactions.erase h) (s : PublicKey) :
    (p.ofSender s).Perm (if m.tx.sender = s then m :: p'.ofSender s else p'.ofSender s) :=
  ofSender_perm (h' ▸ TreeMap.toList_erase_perm hm) s

section

variable (hm : ∀ m', ¬ p.Holds m.tx.hash m')
  (h' : p'.transactions = p.transactions.insert m.tx.hash m)
include hm h'

theorem ofSender_insert (s : PublicKey) :
    (p'.ofSender s).Perm (if m.tx.sender = s then m :: p.ofSender s else p.ofSender s) := by
  have hfresh : m.tx.hash ∉ p.transactions := fun hmem =>
    (TreeMap.mem_iff_exists.mp hmem).elim hm
  exact ofSender_perm (h' ▸ TreeMap.toList_insert_perm hfresh) s

theorem summedCost_insert (s : PublicKey) :
    p'.summedCost s = if m.tx.sender = s then txMaxCost m.tx + p.summedCost s else p.summedCost s := by
  rw [summedCost, ((ofSender_insert hm h' s).map _).sum_eq, summedCost]
  split
  · rw [List.map_cons, List.sum_cons]
  · rfl

end

theorem summedCost_erase_le (hm : p.Holds h m) (h' : p'.transactions = p.transactions.erase h)
    (s : PublicKey) : p'.summedCost s ≤ p.summedCost s := by
  rw [summedCost, summedCost, ((ofSender_erase hm h' s).map _).sum_eq]
  split
  · rw [List.map_cons, List.sum_cons]
    exact Nat.le_add_left _ _
  · exact le_rfl

end OfSender

section Phases
variable {r} {p p' : Mempool} {h : Hash} {m : MempoolTx} {bound : PublicKey → ℕ → Prop}

/-- No sender's pooled transactions can take more than it is bound by. -/
def Funded (bound : PublicKey → ℕ → Prop) (p : Mempool) : Prop := ∀ s b, bound s b → p.summedCost s ≤ b

structure Idle (r : PoolRules) (bound : PublicKey → ℕ → Prop) (p : Mempool) : Prop where
  sound : Sound r.config p
  funded : Funded bound p

structure Ready (r : PoolRules) (bound : PublicKey → ℕ → Prop) (p : Mempool) (tx : SignedTx) : Prop where
  admissible : Admissible r.config p tx
  payable : ∀ b, bound tx.sender b → p.summedCost tx.sender + txMaxCost tx ≤ b

def removalPrefix (p : Mempool) (h : Hash) (m : MempoolTx) : RemovalStep → Mempool
  | .queue => p.dropTransaction h
  | .sender => (p.dropTransaction h).dropFromQueue h
  | .size => ((p.dropTransaction h).dropFromQueue h).dropFromSender m.tx.sender h
  | .nonces => (((p.dropTransaction h).dropFromQueue h).dropFromSender m.tx.sender h).dropSize m.size
  | .evicted => ((((p.dropTransaction h).dropFromQueue h).dropFromSender m.tx.sender h).dropSize
      m.size).dropNonce m.tx.sender m.tx.nonce

def insertPrefix (p : Mempool) (m : MempoolTx) : InsertStep → Mempool
  | .transactions => p
  | .queue => p.putTransaction m
  | .sender => (p.putTransaction m).pushQueue m
  | .nonces => ((p.putTransaction m).pushQueue m).pushSender m
  | .size => (((p.putTransaction m).pushQueue m).pushSender m).addNonce m

theorem removalPrefix_transactions (p : Mempool) (h : Hash) (m : MempoolTx) (step : RemovalStep) :
    (removalPrefix p h m step).transactions = p.transactions.erase h := by
  cases step <;> simp [removalPrefix, dropTransaction, dropFromQueue, dropSize]

theorem insertPrefix_transactions (p : Mempool) (m : MempoolTx) (step : InsertStep) :
    (insertPrefix p m step).transactions = p.transactions ∨
      (insertPrefix p m step).transactions = p.transactions.insert m.tx.hash m := by
  cases step with
  | transactions => exact .inl rfl
  | queue | sender | nonces | size => exact .inr rfl

def Busy (r : PoolRules) (bound : PublicKey → ℕ → Prop) (call : AddCall) (ph : AddPhase) (p : Mempool) :
    Prop :=
  match ph with
  | .collect | .remove _ (.sweep _) => Idle r bound p
  | .remove h .bytes => Idle r bound p ∧ Ready r bound p (call.entry r).tx ∧ ∃ m, p.Holds h m
  | .removing h m step resume => ∃ p₀, Idle r bound p₀ ∧ p₀.Holds h m ∧ p = removalPrefix p₀ h m step ∧
      (resume = .bytes → Ready r bound p₀ (call.entry r).tx)
  | .evicted | .senderLimit => Idle r bound p ∧ ∀ m, ¬ p.Holds (call.entry r).tx.hash m
  | .nonce => Idle r bound p ∧ (∀ m, ¬ p.Holds (call.entry r).tx.hash m) ∧
      (p.queueOf (call.entry r).tx.sender).length < r.config.maxPerSender
  | .balance => Idle r bound p ∧ Admissible r.config p (call.entry r).tx
  | .count | .evictCount => Idle r bound p ∧ Ready r bound p (call.entry r).tx
  | .bytes | .evictBytes => Idle r bound p ∧ Ready r bound p (call.entry r).tx ∧
      p.transactions.size < r.config.maxSize
  | .insert step => ∃ p₀, Idle r bound p₀ ∧ Ready r bound p₀ (call.entry r).tx ∧
      p₀.transactions.size < r.config.maxSize ∧
      usizeAdd p₀.totalSize (call.entry r).size ≤ maxPoolBytes ∧ p = insertPrefix p₀ (call.entry r) step
  | .start | .validate | .duplicate | .ended _ => True

section

variable (hr : Removed p h m p') (hm : p.Holds h m)
include hr hm

theorem Removed.funded (hp : Funded bound p) :
    Funded bound p' := fun s b hb => (summedCost_erase_le hm hr.transactions s).trans (hp s b hb)

theorem Removed.idle (hp : Idle r bound p) : Idle r bound p' :=
  ⟨⟨hr.indexed hp.sound.indexed hm, hr.withinLimits hp.sound.limits⟩, hr.funded hm hp.funded⟩

theorem Removed.ready {tx : SignedTx} (hp : Ready r bound p tx) : Ready r bound p' tx where
  admissible := hr.admissible hp.admissible
  payable b hb := by
    have hle := summedCost_erase_le hm hr.transactions tx.sender
    have hpay := hp.payable b hb
    omega

end

theorem removalPrefix_evicted (hm : p.Holds h m) :
    (removalPrefix p h m .evicted).markEvicted h = (p.removeTransaction h).1 := by
  rw [removeTransaction, show p.transactions[h]? = some m from hm]
  rfl

theorem Idle.insertTx (hp : Idle r bound p) (hready : Ready r bound p m.tx)
    (hlen : p.transactions.size < r.config.maxSize)
    (hfits : usizeAdd p.totalSize m.size ≤ maxPoolBytes) : Idle r bound (p.insertTx m) := by
  refine ⟨hp.sound.insertTx hready.admissible hlen hfits, fun s b hb => ?_⟩
  rw [summedCost_insert hready.admissible.hash_fresh rfl s]
  split
  · next hs =>
    subst hs
    have hpay := hready.payable b hb
    omega
  · exact hp.funded s b hb

def After (r : PoolRules) (bound : PublicKey → ℕ → Prop) (call : AddCall) (ph : AddPhase) (p : Mempool) :
    Prop :=
  if ph.active then Busy r bound call ph p else Idle r bound p

variable {call : AddCall}

theorem After.check {next : AddPhase} {res : Except MempoolError Unit} (hp : Idle r bound p)
    (hok : res = .ok () → After r bound call next p) : After r bound call (.check next res) p := by
  cases res with
  | ok u => exact hok rfl
  | error e => exact hp

theorem After.resume (resume : Resume) (hp : Idle r bound p)
    (hbytes : resume = .bytes →
      Ready r bound p (call.entry r).tx ∧ p.transactions.size < r.config.maxSize) :
    After r bound call resume.phase p := by
  match resume with
  | .sweep [] => exact hp
  | .sweep (h :: rest) => exact hp
  | .bytes => exact ⟨hp, hbytes rfl⟩

theorem After.evict (hp : Idle r bound p) (hready : Ready r bound p (call.entry r).tx)
    (incoming : TxPriority) : After r bound call (evictPhase r p incoming) p := by
  unfold evictPhase
  split
  · next h lowest hlowest =>
    split
    · have hmem := (r.walk_perm _).mem_iff.mp (PriorityQueue.mem_of_lowest hlowest)
      exact ⟨hp, hready, (hp.sound.indexed.queue_mem h).mp (List.mem_map_of_mem hmem)⟩
    · exact hp
  · exact hp

theorem After.removing {p₀ : Mempool} {step : RemovalStep} {resume : Resume}
    (hp₀ : Idle r bound p₀) (hm : p₀.Holds h m)
    (hready : resume = .bytes → Ready r bound p₀ (call.entry r).tx) :
    After r bound call (RemovalStep.next h m resume step)
      ((removalPrefix p₀ h m step).removalStep h m step) := by
  cases step with
  | queue | sender | size | nonces => exact ⟨p₀, hp₀, hm, rfl, hready⟩
  | evicted =>
    have hr := removeTransaction_of_holds hm
    rw [show (removalPrefix p₀ h m .evicted).removalStep h m .evicted = (p₀.removeTransaction h).1 from
      removalPrefix_evicted hm]
    refine After.resume resume (hr.idle hm hp₀) fun hbytes => ⟨hr.ready hm (hready hbytes), ?_⟩
    exact (hr.size_lt hm).trans_le hp₀.sound.limits.length

theorem After.insert {p₀ : Mempool} {step : InsertStep} (hp₀ : Idle r bound p₀)
    (hready : Ready r bound p₀ (call.entry r).tx) (hlen : p₀.transactions.size < r.config.maxSize)
    (hfits : usizeAdd p₀.totalSize (call.entry r).size ≤ maxPoolBytes) :
    After r bound call (InsertStep.next step)
      ((insertPrefix p₀ (call.entry r) step).insertStep (call.entry r) step) := by
  cases step with
  | transactions | queue | sender | nonces => exact ⟨p₀, hp₀, hready, hlen, hfits, rfl⟩
  | size => exact hp₀.insertTx hready hlen hfits

theorem checkDuplicate_ok {tx : SignedTx} (h : p.checkDuplicate tx = .ok ()) :
    ∀ m, ¬ p.Holds tx.hash m := by
  intro m hm
  unfold checkDuplicate at h
  split at h
  · cases h
  · next hnot => exact hnot (TreeMap.mem_of_getElem? hm)

structure Observes (call : AddCall) (s : PublicKey) (b : ℕ) : Prop where
  reads : call.tx.sender = s → ∃ read, call.env.stateBalance = some read ∧ (read s).toNat = b
  lt_max : b < 2 ^ 128 - 1

theorem entry_sender (r : PoolRules) (call : AddCall) : (call.entry r).tx.sender = call.tx.sender := by
  unfold AddCall.entry mempoolTx canonical
  dsimp only
  split <;> rfl

theorem checkBalance_ok (hp : p.Indexed) (hobs : ∀ s b, bound s b → Observes call s b)
    (h : p.checkBalance call.env (call.entry r).tx = .ok ()) (b : ℕ)
    (hb : bound (call.entry r).tx.sender b) :
    p.summedCost (call.entry r).tx.sender + txMaxCost (call.entry r).tx ≤ b := by
  obtain ⟨hreads, hlt⟩ := hobs _ b hb
  obtain ⟨read, hread, hbalance⟩ := hreads (entry_sender r call).symm
  rw [checkBalance, hread] at h
  dsimp only at h
  split at h
  · cases h
  · next hge =>
    rw [hbalance, hp.pooledCost_eq, costAdd] at hge
    omega

theorem addStep_after {ph ph' : AddPhase} (hpos : 0 < r.config.maxPerSender)
    (hobs : ∀ s b, bound s b → Observes call s b) (hb : After r bound call ph p)
    (h : addStep r call p ph = some (p', ph')) : After r bound call ph' p' := by
  cases ph with
  | start =>
    simp only [addStep] at h
    split at h
    · cases h
      exact ⟨hb.sound.congr rfl rfl rfl rfl rfl, hb.funded⟩
    · cases h
      exact hb
  | collect =>
    cases h
    exact .resume _ hb nofun
  | remove h' resume =>
    simp only [addStep] at h
    split at h
    · next hnone =>
      cases h
      match resume with
      | .sweep rest => exact .resume _ hb nofun
      | .bytes =>
        obtain ⟨-, -, m, hm⟩ := hb
        exact nomatch hnone.symm.trans hm
    · next m hm =>
      cases h
      match resume with
      | .sweep rest => exact ⟨p, hb, hm, rfl, nofun⟩
      | .bytes => exact ⟨p, hb.1, hm, rfl, fun _ => hb.2.1⟩
  | removing h' m step resume =>
    cases h
    obtain ⟨p₀, hp₀, hm, rfl, hready⟩ := hb
    exact .removing hp₀ hm hready
  | validate =>
    cases h
    exact .check hb fun _ => hb
  | duplicate =>
    cases h
    exact .check hb fun hok => ⟨hb, checkDuplicate_ok hok⟩
  | evicted =>
    cases h
    exact .check hb.1 fun _ => hb
  | senderLimit =>
    cases h
    exact .check hb.1 fun hok => ⟨hb.1, hb.2, checkSenderLimit_ok hpos hok⟩
  | nonce =>
    cases h
    refine .check hb.1 fun hok => ?_
    obtain ⟨⟨⟩, hnonce, -⟩ := Result.bind_eq_ok.mp hok
    exact ⟨hb.1, hb.2.1, checkNonce_ok hnonce, hb.2.2⟩
  | balance =>
    cases h
    exact .check hb.1 fun hok => ⟨hb.1, hb.2, checkBalance_ok hb.1.sound.indexed hobs hok⟩
  | count =>
    cases h
    split
    · exact hb
    · next hlt => exact ⟨hb.1, hb.2, not_le.mp hlt⟩
  | bytes =>
    simp only [addStep, Option.some.injEq, Prod.mk.injEq] at h
    obtain ⟨rfl, hph⟩ := h
    by_cases hfits : usizeAdd p.totalSize (call.entry r).size ≤ maxPoolBytes
    · rw [if_pos hfits] at hph
      subst hph
      exact ⟨p, hb.1, hb.2.1, hb.2.2, hfits, rfl⟩
    · rw [if_neg hfits] at hph
      subst hph
      exact hb
  | evictCount =>
    cases h
    exact .evict hb.1 hb.2 _
  | evictBytes =>
    cases h
    exact .evict hb.1 hb.2.1 _
  | insert step =>
    cases h
    obtain ⟨p₀, hp₀, hready, hlen, hfits, rfl⟩ := hb
    exact .insert hp₀ hready hlen hfits
  | ended res => cases h

theorem addStep_quiet {ph ph' : AddPhase} (h : addStep r call p ph = some (p', ph'))
    (hph : ¬ ph.active) (hph' : ¬ ph'.active) : p' = p := by
  cases ph with
  | start =>
    simp only [addStep] at h
    split at h
    · obtain ⟨-, rfl⟩ := Prod.mk.inj (Option.some.inj h)
      exact absurd rfl hph'
    · exact (Prod.mk.inj (Option.some.inj h)).1.symm
  | validate | duplicate => exact (Prod.mk.inj (Option.some.inj h)).1.symm
  | ended res => cases h
  | _ => exact absurd rfl hph

theorem Idle.admitted {q : Mempool} (hq : Idle r bound q) (hsame : p.transactions = q.transactions) :
    Admitted r.config p ∧ Funded bound p := by
  refine ⟨⟨?_, ?_, fun s => ?_⟩, fun s b hb => ?_⟩
  · intro h₁ h₂ m₁ m₂ hm₁ hm₂
    rw [Holds, hsame] at hm₁ hm₂
    exact hq.sound.indexed.unique h₁ h₂ m₁ m₂ hm₁ hm₂
  · rw [hsame]
    exact hq.sound.limits.length
  · rw [ofSender_congr hsame, hq.sound.indexed.length_ofSender]
    exact hq.sound.limits.perSender s
  · rw [summedCost, ofSender_congr hsame]
    exact hq.funded s b hb

theorem Busy.admitted {ph : AddPhase} (hph : ph.active) (hb : Busy r bound call ph p) :
    Admitted r.config p ∧ Funded bound p := by
  match ph with
  | .collect | .remove _ (.sweep _) => exact Idle.admitted hb rfl
  | .removing h m step resume =>
    obtain ⟨p₀, hp₀, hm, rfl, -⟩ := hb
    have hr := removeTransaction_of_holds hm
    exact (hr.idle hm hp₀).admitted ((removalPrefix_transactions p₀ h m step).trans hr.transactions.symm)
  | .remove _ .bytes | .evicted | .senderLimit | .nonce | .balance | .count | .evictCount | .bytes
  | .evictBytes => exact Idle.admitted hb.1 rfl
  | .insert step =>
    obtain ⟨p₀, hp₀, hready, hlen, hfits, rfl⟩ := hb
    rcases insertPrefix_transactions p₀ (call.entry r) step with heq | heq
    · exact hp₀.admitted heq
    · exact (hp₀.insertTx hready hlen hfits).admitted heq

variable {ι : Type} {call : ι → AddCall}

theorem addStep_keeps (hpos : 0 < r.config.maxPerSender)
    (hobs : ∀ i s b, bound s b → Observes (call i) s b) :
    Shared.Keeps (fun i => addStep r (call i)) (fun ph => ph.active = true) (Idle r bound)
      (fun i => Busy r bound (call i)) where
  quiet := addStep_quiet
  enter {i p ph p' ph'} h hph hph' hp := by
    have hafter := addStep_after hpos (hobs i) (by rwa [After, if_neg hph]) h
    rwa [After, if_pos hph'] at hafter
  stay {i p ph p' ph'} h hph hph' hp := by
    have hafter := addStep_after hpos (hobs i) (by rwa [After, if_pos hph]) h
    rwa [After, if_pos hph'] at hafter
  leave {i p ph p' ph'} h hph hph' hp := by
    have hafter := addStep_after hpos (hobs i) (by rwa [After, if_pos hph]) h
    rwa [After, if_neg hph'] at hafter

end Phases

abbrev Admission (ι : Type) := Shared ι Mempool AddPhase

section Admission
variable {ι : Type} [DecidableEq ι]

def admissionStep (call : ι → AddCall) (s : Admission ι) (i : ι) : Option (Admission ι) :=
  s.advance (fun i => addStep r (call i)) i

/-- A call begins to sweep, or to check against the pool, only while no other call is between there
and its end. -/
def Apart (call : ι → AddCall) (s : Admission ι) (i : ι) : Prop :=
  s.Exclusive (fun i => addStep r (call i)) (fun ph => ph.active = true) i

instance [Fintype ι] (call : ι → AddCall) (s : Admission ι) (i : ι) : Decidable (Apart r call s i) :=
  inferInstanceAs (Decidable (s.Exclusive (fun i => addStep r (call i)) _ i))

variable {r}

/-- In every run in which the calls keep apart, and in each of its states: no two pooled transactions
share a sender and a nonce, the limits are kept, and what a sender's transactions can take together is
within the balance that all its calls observed. -/
theorem calls_apart_admit_within_limits (hpos : 0 < r.config.maxPerSender) {call : ι → AddCall}
    {p₀ : Mempool} (hp₀ : Sound r.config p₀) {schedule : List ι} {s : Admission ι}
    (hr : Transition.Runs (fun s i s' => Apart r call s i ∧ admissionStep r call s i = some s')
      ⟨p₀, fun _ => .start⟩ schedule s) :
    Admitted r.config s.shared ∧ ∀ sender b, (∀ i, Observes (call i) sender b) →
      p₀.summedCost sender ≤ b → s.shared.summedCost sender ≤ b := by
  let bound (sender : PublicKey) (b : ℕ) : Prop :=
    (∀ i, Observes (call i) sender b) ∧ p₀.summedCost sender ≤ b
  have hkeeps : Shared.Keeps (fun i => addStep r (call i)) (fun ph => ph.active = true) (Idle r bound)
      (fun i => Busy r bound (call i)) := addStep_keeps hpos fun i _ _ hb => hb.1 i
  have hstart : Shared.Settled (fun ph => ph.active = true) (Idle r bound)
      (fun i => Busy r bound (call i)) (⟨p₀, fun _ => .start⟩ : Admission ι) :=
    .inl ⟨fun _ => Bool.false_ne_true, hp₀, fun s b hb => hb.2⟩
  have hgood : Admitted r.config s.shared ∧ Funded bound s.shared := by
    rcases hkeeps.runs hr hstart with ⟨-, hidle⟩ | ⟨i, hi, hbusy, -⟩
    · exact hidle.admitted rfl
    · exact hbusy.admitted hi
  exact ⟨hgood.1, fun sender b hobs hle => hgood.2 sender b ⟨hobs, hle⟩⟩

end Admission

/-! One sender with a balance of 15, and transfers of 10 at one nonce. -/

def oneEach : PoolRules := openRules { maxSize := 1, maxPerSender := 1 }

def twoEach : PoolRules := openRules { maxSize := 2, maxPerSender := 2 }

def payTen (hash : Hash) : AddCall where
  env := { stateBalance := some fun _ => 15 }
  tx := plainTx hash 0 10
  txClass := .standard

theorem payTen_observes (hash : Hash) : Observes (payTen hash) 5 15 :=
  ⟨fun _ => ⟨_, rfl, rfl⟩, by decide⟩

def admissionSteps : ℕ := 14

def payBoth : Bool → AddCall
  | false => payTen 1
  | true => { payTen 2 with tx := plainTx 2 1 5 }

theorem calls_apart_admit_within_limits_overlapping : ∃ s : Admission Bool,
    s.shared.transactions.size = 2 ∧ s.shared.summedCost 5 = 15 ∧ Admitted twoEach.config s.shared ∧
      ∀ sender b, (∀ i, Observes (payBoth i) sender b) → ({} : Mempool).summedCost sender ≤ b →
        s.shared.summedCost sender ≤ b := by
  obtain ⟨s, hs, hsize, hcost⟩ := Transition.Runs.exists_foldlM
    (fun s i => if Apart twoEach payBoth s i then admissionStep twoEach payBoth s i else none)
    ⟨{}, fun _ => .start⟩ ([false, true, true, false] ++ List.replicate (admissionSteps - 2) false ++
      List.replicate (admissionSteps - 2) true)
    (p := fun s => s.shared.transactions.size = 2 ∧ s.shared.summedCost 5 = 15) (by decide)
  exact ⟨s, hsize, hcost, calls_apart_admit_within_limits (by decide)
    ⟨.empty ∅ false, .empty _ ∅ false⟩ (hs.imp fun _ _ _ _ h => Option.ite_none_right_eq_some.mp h)⟩

theorem both_admitted : ∃ s : Admission Bool,
    Transition.Runs (fun s i s' => admissionStep oneEach (fun i => payTen (if i then 2 else 1)) s i = some s')
      ⟨{}, fun _ => .start⟩ ((List.replicate admissionSteps [false, true]).flatten) s ∧
    (∀ i : Bool, Observes (payTen (if i then 2 else 1)) 5 15) ∧
    (s.shared.ofSender 5).map (·.tx.nonce) = [0, 0] ∧ s.shared.transactions.size = 2 ∧
    (s.shared.ofSender 5).length = 2 ∧ s.shared.summedCost 5 = 20 := by
  exact (Transition.Runs.exists_foldlM _ _ _ (by decide)).imp
    fun s h => ⟨h.1, fun i => payTen_observes _, h.2⟩

end Mempool

end CitrateChain.Sequencer
