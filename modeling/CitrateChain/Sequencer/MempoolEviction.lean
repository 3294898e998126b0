import CitrateChain.Base.Runs
import CitrateChain.Sequencer.MempoolIndex

/-! # What leaves the mempool for a newcomer

Admission evicts the lowest-scored transaction, and again until the newcomer fits, as long as the
lowest score is not above the newcomer's. A refusal takes nothing back, and a sender whose last
transaction is removed keeps its empty queue. -/
namespace CitrateChain.Sequencer
open Std (ExtTreeMap)
open Consensus (Hash PublicKey SignedTx)

namespace Mempool
variable {r : PoolRules} {p p' q : Mempool} {score : UInt64} {h : Hash}

/-- A hash whose score is above `score` keeps its transaction and its place in the queue. -/
def Spares (score : UInt64) (p p' : Mempool) : Prop :=
  ∀ h, (∀ prio, (h, prio) ∈ p.priorityQueue → score < prio.score) →
    p'.transactions[h]? = p.transactions[h]? ∧
      ∀ prio, (h, prio) ∈ p'.priorityQueue ↔ (h, prio) ∈ p.priorityQueue

/-- Some transactions were removed, none of them with a score above `score`. -/
def Evicted (score : UInt64) (p p' : Mempool) : Prop :=
  (∃ hs, p' = p.removeAll hs) ∧ Spares score p p'

theorem Evicted.refl (p : Mempool) : Evicted score p p :=
  ⟨⟨[], rfl⟩, fun _ _ => ⟨rfl, fun _ => Iff.rfl⟩⟩

theorem Evicted.trans (hpq : Evicted score p p') (hqr : Evicted score p' q) : Evicted score p q := by
  obtain ⟨⟨hs, rfl⟩, hspare⟩ := hpq
  obtain ⟨⟨hs', rfl⟩, hspare'⟩ := hqr
  refine ⟨⟨hs ++ hs', by rw [removeAll, removeAll, removeAll, List.foldl_append]⟩, fun h hhigh => ?_⟩
  obtain ⟨htx, hqueue⟩ := hspare h hhigh
  obtain ⟨htx', hqueue'⟩ := hspare' h fun prio hmem => hhigh prio ((hqueue prio).mp hmem)
  exact ⟨htx'.trans htx, fun prio => (hqueue' prio).trans (hqueue prio)⟩

theorem Evicted.removeTransaction {prio : TxPriority} (hmem : (h, prio) ∈ p.priorityQueue)
    (hle : prio.score ≤ score) : Evicted score p (p.removeTransaction h).1 := by
  refine ⟨⟨[h], rfl⟩, fun h' hhigh => ?_⟩
  have hne : h ≠ h' := by
    rintro rfl
    exact absurd (hhigh prio hmem) (not_lt.mpr hle)
  by_cases hm : ∃ m, p.Holds h m
  · obtain ⟨m, hm⟩ := hm
    have hr := removeTransaction_of_holds hm
    rw [hr.transactions, hr.priorityQueue, TreeMap.getElem?_erase_ite, if_neg hne.symm]
    exact ⟨rfl, fun prio => by simp [PriorityQueue.remove, hne.symm]⟩
  · rw [removeTransaction_of_not_holds (not_exists.mp hm)]
    exact ⟨rfl, fun _ => Iff.rfl⟩

theorem evictLowerPriorityThan_evicted (p : Mempool) (incoming : TxPriority) :
    Evicted incoming.score p (evictLowerPriorityThan r p incoming).1 ∧
      ∀ e, (evictLowerPriorityThan r p incoming).2 = .error e → e = .full := by
  unfold evictLowerPriorityThan
  split
  · next h lowest hlowest =>
    split
    · next hle =>
      have hmem := (r.walk_perm _).mem_iff.mp (PriorityQueue.mem_of_lowest hlowest)
      exact ⟨.removeTransaction hmem hle, nofun⟩
    · exact ⟨.refl p, by rintro _ ⟨⟩; rfl⟩
  · exact ⟨.refl p, by rintro _ ⟨⟩; rfl⟩

theorem evictUntilFits_evicted (incoming : TxPriority) (size fuel : ℕ) (p : Mempool) :
    Evicted incoming.score p (evictUntilFits r incoming size fuel p).1 ∧
      ∀ e, (evictUntilFits r incoming size fuel p).2 = .error e → e = .full := by
  induction fuel generalizing p with
  | zero => exact ⟨.refl p, by rintro _ ⟨⟩; rfl⟩
  | succ fuel ih =>
    have hone := evictLowerPriorityThan_evicted (r := r) p incoming
    rw [evictUntilFits]
    split
    · exact ⟨.refl p, by simp⟩
    split
    · next p' heq =>
      rw [heq] at hone
      exact ⟨hone.1.trans (ih p').1, (ih p').2⟩
    · next p' e heq =>
      rw [heq] at hone
      exact hone

theorem makeRoom_evicted (p : Mempool) (incoming : TxPriority) (size : ℕ) :
    Evicted incoming.score p (makeRoom r p incoming size).1 ∧
      ∀ e, (makeRoom r p incoming size).2 = .error e → e = .full := by
  have hfirst : ∀ first, (if r.config.maxSize ≤ p.transactions.size then
      evictLowerPriorityThan r p incoming else (p, .ok ())) = first →
      Evicted incoming.score p first.1 ∧ ∀ e, first.2 = .error e → e = .full := by
    rintro _ rfl
    split
    · exact evictLowerPriorityThan_evicted p incoming
    · exact ⟨.refl p, nofun⟩
  unfold makeRoom
  split
  · next p' e heq => exact hfirst _ heq
  · next p' heq =>
    have hrest := evictUntilFits_evicted (r := r) incoming size (p'.priorityQueue.length + 1) p'
    exact ⟨(hfirst _ heq).1.trans hrest.1, hrest.2⟩

def incoming (r : PoolRules) (env : Readings) (tx : SignedTx) (txClass : TxClass) : MempoolTx :=
  mempoolTx env (canonical r (determineType tx)) (admissionClass (determineType tx) txClass)

theorem addTransaction_cases (r : PoolRules) (p : Mempool) (env : Readings) (tx : SignedTx)
    (txClass : TxClass) : let swept := p.sweepIfV1WindowClosed r env
    let m := incoming r env tx txClass
    (∃ e, addTransaction r p env tx txClass = (swept, .error e)) ∨
    (∃ p', Evicted m.priority.score swept p' ∧ (addTransaction r p env tx txClass = (p', .error .full) ∨
      checkAdmission r swept env m.tx = .ok () ∧
        addTransaction r p env tx txClass = (p'.insertTx m, .ok ()))) := by
  intro swept m
  have hroom := makeRoom_evicted (r := r) swept m.priority m.size
  unfold addTransaction
  dsimp only
  split
  · exact .inl ⟨_, rfl⟩
  split
  · exact .inl ⟨_, rfl⟩
  next hcheck =>
    split
    · next p' e heq =>
      rw [show makeRoom r swept m.priority m.size = (p', .error e) from heq] at hroom
      obtain rfl := hroom.2 e rfl
      exact .inr ⟨p', hroom.1, .inl rfl⟩
    · next p' heq =>
      rw [show makeRoom r swept m.priority m.size = (p', .ok ()) from heq] at hroom
      exact .inr ⟨p', hroom.1, .inr ⟨hcheck, rfl⟩⟩

theorem removeAll_queue (p : Mempool) (hs : List Hash) :
    (p.removeAll hs).priorityQueue.Sublist p.priorityQueue := by
  induction hs generalizing p with
  | nil => exact .refl _
  | cons h hs ih =>
    refine (ih (p.removeTransaction h).1).trans ?_
    by_cases hm : ∃ m, p.Holds h m
    · obtain ⟨m, hm⟩ := hm
      rw [(removeTransaction_of_holds hm).priorityQueue]
      exact List.filter_sublist
    · rw [removeTransaction_of_not_holds (not_exists.mp hm)]

theorem sweep_queue {env : Readings} :
    (p.sweepIfV1WindowClosed r env).priorityQueue.Sublist p.priorityQueue := by
  unfold sweepIfV1WindowClosed
  split
  · exact removeAll_queue _ _
  · exact .refl _

/-- A transaction that is evicted for a newcomer does not score above it, so that the highest-scored
stays for any newcomer that scores below. Every hash is queued once. -/
theorem eviction_respects_priority (hqueue : (p.priorityQueue.map (·.1)).Nodup) (env : Readings)
    (tx : SignedTx) (txClass : TxClass) :
    let swept := p.sweepIfV1WindowClosed r env
    let score := (incoming r env tx txClass).priority.score
    let out := (addTransaction r p env tx txClass).1
    (∀ h prio, (h, prio) ∈ swept.priorityQueue → h ∈ swept.transactions → h ∉ out.transactions →
      prio.score ≤ score) ∧
    ∀ h prio, (h, prio) ∈ swept.priorityQueue → h ∈ swept.transactions →
      (∀ e ∈ swept.priorityQueue, e.2.score ≤ prio.score) → score < prio.score →
      h ∈ out.transactions := by
  intro swept score out
  have hsub : swept.priorityQueue.Sublist p.priorityQueue := sweep_queue
  have hspared : ∀ h prio, (h, prio) ∈ swept.priorityQueue → h ∈ swept.transactions →
      score < prio.score → h ∈ out.transactions := by
    intro h prio hmem htx hlt
    have hone : ∀ prio', (h, prio') ∈ swept.priorityQueue → score < prio'.score := by
      intro prio' hmem'
      have heq := List.inj_on_of_nodup_map (hqueue.sublist (hsub.map _)) hmem hmem' rfl
      exact (Prod.mk.inj heq).2 ▸ hlt
    rcases addTransaction_cases r p env tx txClass with ⟨e, heq⟩ | ⟨p', hev, heq⟩
    · change h ∈ (addTransaction r p env tx txClass).1.transactions
      rwa [heq]
    have hkept : h ∈ p'.transactions := by
      rw [ExtTreeMap.mem_iff_isSome_getElem?, (hev.2 h hone).1]
      exact ExtTreeMap.mem_iff_isSome_getElem?.mp htx
    change h ∈ (addTransaction r p env tx txClass).1.transactions
    rcases heq with heq | ⟨-, heq⟩
    · rwa [heq]
    · rw [heq]
      exact ExtTreeMap.mem_insert.mpr (.inr hkept)
  refine ⟨fun h prio hmem htx hout => ?_, fun h prio hmem htx _ hlt => hspared h prio hmem htx hlt⟩
  by_contra hlt
  exact hout (hspared h prio hmem htx (not_le.mp hlt))

def onePool : Mempool := (addTransaction (openRules { maxSize := 1 }) {} {} (plainTx 1 0 0) .standard).1

theorem eviction_respects_priority_one : 1 ∈ onePool.transactions ∧
    1 ∉ (addTransaction (openRules { maxSize := 1 }) onePool {}
      { plainTx 2 0 0 with sender := 6, gasPrice := 2000000000 } .standard).1.transactions ∧
    (1000000000 : UInt64) ≤ (incoming (openRules { maxSize := 1 }) {}
      { plainTx 2 0 0 with sender := 6, gasPrice := 2000000000 } .standard).priority.score :=
  ⟨by decide, by decide,
    (eviction_respects_priority (p := onePool) (by decide) {} _ .standard).1 1
      { gasPrice := 1000000000, txClass := .standard, timestamp := 0 } (by decide)
      (by decide) (by decide)⟩

/-- A refusal leaves the pool as the sweep of the closed signature window left it, which is a pool of
before when no sweep is due. Only `Full` may come after evictions, and these are of transactions that
do not score above the newcomer. -/
theorem refused_admission {e : MempoolError} {env : Readings} {tx : SignedTx} {txClass : TxClass}
    (h : addTransaction r p env tx txClass = (p', .error e)) :
    (p.sweeps r env = false → p.sweepIfV1WindowClosed r env = p) ∧
    (e ≠ .full → p' = p.sweepIfV1WindowClosed r env) ∧
    Evicted (incoming r env tx txClass).priority.score (p.sweepIfV1WindowClosed r env) p' := by
  refine ⟨fun hsweep => by rw [sweepIfV1WindowClosed, hsweep, if_neg Bool.false_ne_true], ?_⟩
  rcases addTransaction_cases r p env tx txClass with ⟨e', heq⟩ | ⟨q, hev, heq | ⟨-, heq⟩⟩
  · obtain ⟨rfl, -⟩ := Prod.mk.inj (heq.symm.trans h)
    exact ⟨fun _ => rfl, .refl _⟩
  · obtain ⟨rfl, herr⟩ := Prod.mk.inj (heq.symm.trans h)
    exact ⟨fun hne => absurd (Except.error.inj herr).symm hne, hev⟩
  · exact nomatch (Prod.mk.inj (heq.symm.trans h)).2

theorem refused_admission_one : ∃ p', addTransaction (openRules { maxSize := 1 }) onePool {}
      { plainTx 2 0 0 with sender := 6, chainId := none } .standard = (p', .error (.invalidTransaction
        "Missing chain ID: all transactions must specify chain_id=40204")) ∧ p' = onePool := by
  have heq : ∃ p', addTransaction (openRules { maxSize := 1 }) onePool {}
      { plainTx 2 0 0 with sender := 6, chainId := none } .standard = (p', .error (.invalidTransaction
        "Missing chain ID: all transactions must specify chain_id=40204")) := ⟨_, rfl⟩
  obtain ⟨p', heq⟩ := heq
  obtain ⟨hsweep, hsame, -⟩ := refused_admission heq
  exact ⟨p', heq, (hsame (by decide)).trans (hsweep rfl)⟩

theorem refused_after_removal :
    let rules := { openRules {} with nativeSig := some ⟨some 5⟩ }
    let p := (addTransaction rules {} {} (plainTx 1 0 0) .standard).1
    let out := addTransaction rules p { sweepTip := some 9 } { plainTx 2 1 0 with chainId := none } .standard
    1 ∈ p.transactions ∧ out.2 ≠ .ok () ∧ 1 ∉ out.1.transactions := by
  decide

def Filled {α : Type} (m : ExtTreeMap PublicKey (List α)) : Prop := ∀ s : PublicKey, m[s]? ≠ some []

/-- No transaction is new, no sender has a queue that had none, and no nonce set became empty. -/
structure Shrunk (p p' : Mempool) : Prop where
  holds : ∀ h m, p'.Holds h m → p.Holds h m
  senders : ∀ s, s ∈ p'.bySender → s ∈ p.bySender
  nonces : Filled p.senderNonces → Filled p'.senderNonces

theorem Shrunk.refl (p : Mempool) : Shrunk p p := ⟨fun _ _ => id, fun _ => id, id⟩

theorem Shrunk.trans (h : Shrunk p p') (h' : Shrunk p' q) : Shrunk p q :=
  ⟨fun x m hm => h.holds x m (h'.holds x m hm), fun s hs => h.senders s (h'.senders s hs),
    fun hp => h'.nonces (h.nonces hp)⟩

theorem Filled.insert {α : Type} {m : ExtTreeMap PublicKey (List α)} (hm : Filled m) {s : PublicKey}
    {l : List α} (hl : l ≠ []) : Filled (m.insert s l) := by
  intro s' hs'
  obtain ⟨-, rfl⟩ | ⟨-, hs'⟩ := TreeMap.getElem?_insert_eq_some.mp hs'
  · exact hl rfl
  · exact hm s' hs'

theorem Filled.dropNonce (hp : Filled p.senderNonces) (s : PublicKey) (n : UInt64) :
    Filled (p.dropNonce s n).senderNonces := by
  unfold Mempool.dropNonce
  split
  · dsimp only
    split
    · exact fun s' hs' => hp s' (TreeMap.getElem?_erase_eq_some.mp hs').2
    · next hne => exact hp.insert (by simpa using hne)
  · exact hp

theorem mem_bySender_dropFromSender {s s' : PublicKey} (hs : s' ∈ (p.dropFromSender s h).bySender) :
    s' ∈ p.bySender := by
  unfold dropFromSender at hs
  split at hs
  · next q hq =>
    obtain heq | hs := ExtTreeMap.mem_insert.mp hs
    · exact Std.LawfulEqCmp.eq_of_compare heq ▸ TreeMap.mem_of_getElem? hq
    · exact hs
  · exact hs

theorem Shrunk.removeTransaction (p : Mempool) (h : Hash) : Shrunk p (p.removeTransaction h).1 := by
  by_cases hm : ∃ m, p.Holds h m
  · obtain ⟨m, hm⟩ := hm
    have heq : (p.removeTransaction h).1 = (((((p.dropTransaction h).dropFromQueue h).dropFromSender
        m.tx.sender h).dropSize m.size).dropNonce m.tx.sender m.tx.nonce).markEvicted h := by
      rw [Mempool.removeTransaction, show p.transactions[h]? = some m from hm]
    refine ⟨fun x m' hm' => ((removeTransaction_of_holds hm).holds.mp hm').2, fun s hs => ?_, fun hp => ?_⟩
    · rw [heq, (markEvicted_fields _ _).2.2.1, (dropNonce_fields _ _ _).2.2.1] at hs
      exact mem_bySender_dropFromSender (p := (p.dropTransaction h).dropFromQueue h) hs
    · rw [heq, (markEvicted_fields _ _).2.2.2.1]
      exact Filled.dropNonce (by simpa [dropSize, dropFromQueue, dropTransaction] using hp) _ _
  · rw [removeTransaction_of_not_holds (not_exists.mp hm)]
    exact .refl p

theorem Shrunk.removeAll (p : Mempool) (hs : List Hash) : Shrunk p (p.removeAll hs) := by
  induction hs generalizing p with
  | nil => exact .refl p
  | cons h hs ih => exact (Shrunk.removeTransaction p h).trans (ih _)

theorem Shrunk.sweepIfV1WindowClosed (p : Mempool) (env : Readings) :
    Shrunk p (p.sweepIfV1WindowClosed r env) := by
  unfold Mempool.sweepIfV1WindowClosed
  split
  · have hflag : Shrunk p { p with nativeSigSwept := true } := ⟨fun _ _ => id, fun _ => id, id⟩
    exact hflag.trans (.removeAll _ _)
  · exact .refl p

theorem checkAdmission_nonce {env : Readings} {tx : SignedTx}
    (h : checkAdmission r p env tx = .ok ()) : tx.nonce ≠ Word.maxWord := by
  unfold checkAdmission at h
  obtain ⟨⟨⟩, -, h⟩ := Result.bind_eq_ok.mp h
  obtain ⟨⟨⟩, -, h⟩ := Result.bind_eq_ok.mp h
  obtain ⟨⟨⟩, -, h⟩ := Result.bind_eq_ok.mp h
  obtain ⟨⟨⟩, -, h⟩ := Result.bind_eq_ok.mp h
  obtain ⟨⟨⟩, hmax, -⟩ := Result.bind_eq_ok.mp h
  intro heq
  rw [checkNonceMax, if_pos heq] at hmax
  cases hmax

theorem Call.run_shrunk (r : PoolRules) (p : Mempool) (call : Call) : Shrunk p (call.run r p) ∨
      ∃ q m, Shrunk p q ∧ m.tx.nonce ≠ Word.maxWord ∧ call.run r p = q.insertTx m := by
  cases call with
  | addTransaction env tx txClass =>
    have hsweep := Shrunk.sweepIfV1WindowClosed (r := r) p env
    simp only [Call.run]
    rcases addTransaction_cases r p env tx txClass with ⟨e, heq⟩ | ⟨p', ⟨⟨hs, rfl⟩, -⟩, heq | ⟨hok, heq⟩⟩
    · exact .inl (by rw [heq]; exact hsweep)
    · exact .inl (by rw [heq]; exact hsweep.trans (.removeAll _ _))
    · exact .inr ⟨_, _, hsweep.trans (.removeAll _ _), checkAdmission_nonce hok, by rw [heq]⟩
  | removeTransaction h => exact .inl (.removeTransaction p h)
  | reconcileNonces =>
    refine .inl ⟨fun _ _ => id, fun _ => id, fun _ s hs => ?_⟩
    simpa using (List.mem_filter.mp (reconcileNonces_eq_some.mp hs)).2
  | getBestTransactions env maxCount maxSize => exact .inl (.sweepIfV1WindowClosed p env)
  | evict incoming =>
    obtain ⟨⟨hs, heq⟩, -⟩ := (evictLowerPriorityThan_evicted (r := r) p incoming).1
    exact .inl (by rw [Call.run, heq]; exact .removeAll _ _)
  | clearExpired env =>
    left
    unfold Call.run Mempool.clearExpired
    dsimp only
    split
    · exact .removeAll _ _
    · exact (Shrunk.removeAll _ _).trans (.removeAll _ _)
  | clear => exact .inl ⟨by simp [Call.run, Mempool.clear, Holds], by simp [Call.run, Mempool.clear],
      fun _ s => by simp [Call.run, Mempool.clear]⟩
  | banSender s now til =>
    have hban : Shrunk p (p.ban s now til) := ⟨fun _ _ => id, fun _ => id, id⟩
    exact .inl (hban.trans (.removeAll _ _))

def outscored (p : Mempool) (score : UInt64) (h : Hash) : Bool :=
  p.priorityQueue.any fun e => e.1 == h && e.2.score ≤ score

def swept (r : PoolRules) (p : Mempool) (env : Readings) (h : Hash) : Bool :=
  p.sweeps r env && decide (h ∈ p.nativeBlockRuleFailures r)

def hasRoom (r : PoolRules) (p : Mempool) (m : MempoolTx) : Bool :=
  p.transactions.size < r.config.maxSize && usizeAdd p.totalSize m.size ≤ maxPoolBytes

/-- Whether the call may take the transaction out, as far as the pool before it tells: a sweep takes
what fails the block rule, and where there is no room what does not score above the newcomer goes. -/
def Call.takes (r : PoolRules) (p : Mempool) : Call → Hash → Bool
  | .addTransaction env tx txClass, h =>
    let m := incoming r env tx txClass
    p.swept r env h || ((p.sweeps r env || !p.hasRoom r m) && p.outscored m.priority.score h)
  | .removeTransaction h', h => h == h'
  | .reconcileNonces, _ => false
  | .getBestTransactions env _ _, h => p.swept r env h
  | .evict incoming, h => p.outscored incoming.score h
  | .clearExpired env, h => decide (h ∈ p.nativeBlockRuleFailures r) || (p.transactions[h]?).any
      fun m => m.addedAt < Word.saturatingSub env.timestamp r.config.txExpirySecs
  | .clear, _ => true
  | .banSender s _ _, h => decide (h ∈ p.queueOf s)

/-- Of every sender that has a queue, one transaction is out of the reach of the call. -/
def KeepsSenders (r : PoolRules) (p : Mempool) (call : Call) : Prop :=
  call = .clear ∨ ∀ (s : PublicKey) (q : List Hash), p.bySender[s]? = some q → q.any (!call.takes r p ·)

section Kept
variable {m : MempoolTx} (hm : p.Holds h m)
include hm

theorem removeAll_holds {hs : List Hash} (hh : h ∉ hs) : (p.removeAll hs).Holds h m := by
  induction hs generalizing p with
  | nil => exact hm
  | cons h' hs ih =>
    obtain ⟨hne, hh⟩ := List.ne_and_not_mem_of_not_mem_cons hh
    refine ih (p := (p.removeTransaction h').1) ?_ hh
    by_cases hm' : ∃ m', p.Holds h' m'
    · obtain ⟨m', hm'⟩ := hm'
      exact (removeTransaction_of_holds hm').holds.mpr ⟨Ne.symm hne, hm⟩
    · rwa [removeTransaction_of_not_holds (not_exists.mp hm')]

theorem swept_holds {env : Readings} (hh : p.swept r env h = false) :
    (p.sweepIfV1WindowClosed r env).Holds h m := by
  unfold sweepIfV1WindowClosed
  split
  · next hsweep =>
    rw [swept, hsweep, Bool.true_and, decide_eq_false_iff_not] at hh
    exact removeAll_holds (p := { p with nativeSigSwept := true }) hm hh
  · exact hm

theorem Evicted.holds (hev : Evicted score p p') (hh : p.outscored score h = false) : p'.Holds h m := by
  refine (hev.2 h fun prio hmem => ?_).1.trans hm
  have hhigh := List.any_eq_false.mp hh (h, prio) hmem
  simpa using hhigh

omit hm in
theorem addTransaction_hasRoom {env : Readings} {tx : SignedTx} {txClass : TxClass}
    (hsweep : p.sweeps r env = false) (hroom : p.hasRoom r (incoming r env tx txClass)) :
    (addTransaction r p env tx txClass).1 = p ∨
      (addTransaction r p env tx txClass).1 = p.insertTx (incoming r env tx txClass) := by
  have hsame : p.sweepIfV1WindowClosed r env = p := by
    rw [sweepIfV1WindowClosed, hsweep, if_neg Bool.false_ne_true]
  simp only [hasRoom, Bool.and_eq_true, decide_eq_true_eq] at hroom
  have hmake : makeRoom r p (incoming r env tx txClass).priority (incoming r env tx txClass).size =
      (p, .ok ()) := by
    rw [makeRoom, if_neg (not_le.mpr hroom.1)]
    exact if_pos hroom.2
  unfold addTransaction
  dsimp only
  rw [hsame]
  split
  · exact .inl rfl
  split
  · exact .inl rfl
  · exact .inr (by rw [incoming] at hmake ⊢; rw [hmake])

theorem Call.run_holds {call : Call} (hp : Sound r.config p) (hh : call.takes r p h = false) :
    ∃ q, Sound r.config q ∧ q.Holds h m ∧ (call.run r p = q ∨ ∃ m', call.run r p = q.insertTx m') := by
  cases call with
  | addTransaction env tx txClass =>
    simp only [takes, Bool.or_eq_false_iff, Bool.and_eq_false_iff, Bool.not_eq_false'] at hh
    obtain ⟨hswept, ⟨hsweep, hroom⟩ | hscore⟩ := hh
    · exact ⟨p, hp, hm, (addTransaction_hasRoom hsweep hroom).imp_right fun h => ⟨_, h⟩⟩
    have hkept := swept_holds hm hswept
    have hsound := hp.sweepIfV1WindowClosed (r := r) env
    have hscore : (p.sweepIfV1WindowClosed r env).outscored
        (incoming r env tx txClass).priority.score h = false :=
      List.any_eq_false.mpr fun e he => List.any_eq_false.mp hscore e (sweep_queue.mem he)
    rcases addTransaction_cases r p env tx txClass with ⟨e, heq⟩ | ⟨p', hev, heq | ⟨-, heq⟩⟩
    · exact ⟨_, hsound, hkept, .inl (by rw [Call.run, heq])⟩
    all_goals
      obtain ⟨⟨hs, hremoved⟩, -⟩ := id hev
      refine ⟨p', hremoved ▸ hsound.removeAll hs, hev.holds hkept hscore, ?_⟩
    · exact .inl (by rw [Call.run, heq])
    · exact .inr ⟨_, by rw [Call.run, heq]⟩
  | removeTransaction h' =>
    have hne : h ∉ [h'] := by simpa [takes] using hh
    exact ⟨_, hp.removeTransaction h', removeAll_holds hm hne, .inl rfl⟩
  | reconcileNonces => exact ⟨_, hp.reconcileNonces, hm, .inl rfl⟩
  | getBestTransactions env maxCount maxSize =>
    exact ⟨_, hp.sweepIfV1WindowClosed env, swept_holds hm hh, .inl rfl⟩
  | evict incoming =>
    have hev := (evictLowerPriorityThan_evicted (r := r) p incoming).1
    exact ⟨_, hp.evictLowerPriorityThan incoming, hev.holds hm hh, .inl rfl⟩
  | clearExpired env =>
    simp only [takes, Bool.or_eq_false_iff, decide_eq_false_iff_not] at hh
    refine ⟨_, hp.clearExpired env, ?_, .inl rfl⟩
    have hyoung : h ∉ (p.transactions.toList.filter fun e => e.2.addedAt <
        Word.saturatingSub env.timestamp r.config.txExpirySecs).map (·.1) := by
      intro hmem
      obtain ⟨⟨_, m'⟩, he, rfl⟩ := List.mem_map.mp hmem
      obtain ⟨he, hold⟩ := List.mem_filter.mp he
      rw [ExtTreeMap.mem_toList_iff_getElem?_eq_some.mp he, Option.any_some] at hh
      exact absurd hold (Bool.eq_false_iff.mp hh.2)
    have hfirst := removeAll_holds hm hyoung
    unfold Mempool.clearExpired
    dsimp only
    split
    · exact hfirst
    · refine removeAll_holds hfirst fun hmem => hh.1 ?_
      obtain ⟨⟨_, m'⟩, he, rfl⟩ := List.mem_map.mp hmem
      obtain ⟨he, hfails⟩ := List.mem_filter.mp he
      have hm' := (Shrunk.removeAll p _).holds _ _ (ExtTreeMap.mem_toList_iff_getElem?_eq_some.mp he)
      exact List.mem_map.mpr ⟨_, List.mem_filter.mpr
        ⟨ExtTreeMap.mem_toList_iff_getElem?_eq_some.mpr hm', hfails⟩, rfl⟩
  | clear => cases hh
  | banSender s now til =>
    have hbanned : Sound r.config (p.ban s now til) := hp.congr rfl rfl rfl rfl rfl
    refine ⟨_, hbanned.removeAll _, removeAll_holds (p := p.ban s now til) hm ?_, .inl rfl⟩
    exact of_decide_eq_false hh

end Kept

theorem KeepsSenders.queueOf {call : Call} (hkeeps : KeepsSenders r p call) (hp : Sound r.config p)
    (hclear : call ≠ .clear) {s : PublicKey} (hs : s ∈ p.bySender) : (call.run r p).queueOf s ≠ [] := by
  obtain ⟨q, hq⟩ := TreeMap.mem_iff_exists.mp hs
  obtain ⟨h, hmem, hh⟩ := List.any_eq_true.mp (hkeeps.resolve_left hclear s q hq)
  obtain ⟨m, hm, rfl⟩ := (hp.indexed.sender_mem s h).mp (by rw [Mempool.queueOf, hq]; exact hmem)
  obtain ⟨p', hp', hm', heq | ⟨m', heq⟩⟩ := Call.run_holds hm hp (Bool.not_eq_true' _ ▸ hh)
  all_goals have hmem := (hp'.indexed.sender_mem _ h).mpr ⟨m, hm', rfl⟩
  · rw [heq]
    exact List.ne_nil_of_mem hmem
  · rw [heq, insertTx_queueOf]
    split
    · exact List.append_ne_nil_of_right_ne_nil _ (List.cons_ne_nil _ _)
    · exact List.ne_nil_of_mem hmem

theorem Filled.call {call : Call} (hp : Sound r.config p) (hn : Filled p.senderNonces)
    (hkeeps : KeepsSenders r p call) :
    Filled (call.run r p).bySender ∧ Filled (call.run r p).senderNonces := by
  have hnew : (∀ s ∈ (call.run r p).bySender, s ∈ p.bySender ∨ (call.run r p).queueOf s ≠ []) ∧
      Filled (call.run r p).senderNonces := by
    rcases Call.run_shrunk r p call with hs | ⟨q, m, hs, -, heq⟩
    · exact ⟨fun s hmem => .inl (hs.senders s hmem), hs.nonces hn⟩
    · rw [heq]
      refine ⟨fun s hmem => ?_, (hs.nonces hn).insert (List.ne_nil_of_mem (List.mem_insert_self ..))⟩
      obtain hsame | hmem := ExtTreeMap.mem_insert.mp hmem
      · rw [insertTx_queueOf, if_pos (Std.LawfulEqCmp.eq_of_compare hsame).symm]
        exact .inr (by simp)
      · exact .inl (hs.senders s hmem)
  refine ⟨fun s hempty => ?_, hnew.2⟩
  by_cases hclear : call = .clear
  · subst hclear
    simp [Call.run, clear] at hempty
  · have hnil : (call.run r p).queueOf s = [] := by rw [queueOf, hempty]; rfl
    have hmem := (hnew.1 s (TreeMap.mem_of_getElem? hempty)).resolve_right (not_not.mpr hnil)
    exact hkeeps.queueOf hp hclear hmem hnil

/-- When of every sender that has a queue one transaction is out of the reach of the call, there are at
most as many queues and nonce sets as transactions. -/
theorem sender_entries_bounded (hpos : 0 < r.config.maxPerSender) {calls : List Call}
    (hr : Transition.Runs (fun p call p' => KeepsSenders r p call ∧ p' = call.run r p) {} calls p) :
    p.bySender.size ≤ p.transactions.size ∧ p.senderNonces.size ≤ p.transactions.size := by
  have hinv : Sound r.config p ∧ Filled p.bySender ∧ Filled p.senderNonces := by
    refine hr.invariant (P := fun p => Sound r.config p ∧ Filled p.bySender ∧ Filled p.senderNonces)
      ⟨⟨.empty ∅ false, .empty _ ∅ false⟩, fun s => by simp, fun s => by simp⟩ ?_
    rintro t call _ ⟨ht, -, hn⟩ ⟨hkeeps, rfl⟩
    exact ⟨ht.call hpos call, Filled.call ht hn hkeeps⟩
  obtain ⟨⟨hindexed, -⟩, hqueues, hnonces⟩ := hinv
  constructor
  · refine TreeMap.size_le_of_forall (fun _ m => m.tx.sender) fun s hs => ?_
    obtain ⟨q, hq⟩ := TreeMap.mem_iff_exists.mp hs
    obtain ⟨h, hmem⟩ := List.exists_mem_of_ne_nil q fun hnil => hqueues s (hnil ▸ hq)
    obtain ⟨m, hm, hsender⟩ := (hindexed.sender_mem s h).mp (by rw [queueOf, hq]; exact hmem)
    exact ⟨h, m, hm, hsender⟩
  · refine TreeMap.size_le_of_forall (fun _ m => m.tx.sender) fun s hs => ?_
    obtain ⟨set, hset⟩ := TreeMap.mem_iff_exists.mp hs
    obtain ⟨n, hmem⟩ := List.exists_mem_of_ne_nil set fun hnil => hnonces s (hnil ▸ hset)
    obtain ⟨h, m, hm, hsender, -⟩ := (hindexed.nonce_mem s n).mp (by rw [noncesOf, hset]; exact hmem)
    exact ⟨h, m, hm, hsender⟩

instance (p : Mempool) (call : Call) : Decidable (KeepsSenders r p call) :=
  decidable_of_iff ((match call with | .clear => true | _ => false) = true ∨
    ∀ e ∈ p.bySender.toList, e.2.any (!call.takes r p ·) = true) <| by
    simp only [KeepsSenders, Prod.forall, ExtTreeMap.mem_toList_iff_getElem?_eq_some]
    refine or_congr_left ?_
    cases call <;> simp

def addTwoRemoveOne : List Call :=
  [.addTransaction {} (plainTx 1 0 0) .standard, .addTransaction {} (plainTx 2 1 0) .standard,
    .removeTransaction 1]

theorem sender_entries_bounded_removal : ∃ p : Mempool, p.transactions.size = 1 ∧
    p.bySender.size ≤ 1 ∧ p.senderNonces.size ≤ 1 := by
  obtain ⟨p, hs, hsize⟩ := Transition.Runs.exists_foldlM
    (fun p call => if KeepsSenders (openRules {}) p call then some (call.run (openRules {}) p) else none)
    {} addTwoRemoveOne (p := fun p => p.transactions.size = 1) (by decide)
  have hr := hs.imp fun _ _ _ _ h => (Option.ite_none_right_eq_some.mp h).imp_right
    fun h => (Option.some.inj h).symm
  exact ⟨p, hsize, hsize ▸ sender_entries_bounded (by decide) hr⟩

theorem removed_sender_keeps_queue :
    let p := [Call.addTransaction {} (plainTx 1 0 0) .standard, .removeTransaction 1].foldl
      (Call.run (openRules {})) {}
    p.transactions.size = 0 ∧ p.bySender.size = 1 ∧ p.senderNonces.size = 0 := by
  decide

end Mempool

end CitrateChain.Sequencer
