import CitrateChain.Sequencer.MempoolEviction

/-! # The transactions of a block template

`get_best_transactions` passes over the queue, best priority first, and takes each transaction that is
next for its sender and fits, until a pass takes none. -/
namespace CitrateChain.Sequencer
open Std (ExtTreeMap)
open Consensus (Hash PublicKey SignedTx)

namespace Mempool
variable {p : Mempool} {maxCount maxSize : ℕ} {sel : Selection} {h : Hash} {m : MempoolTx}
  {sorted : List Hash}

def lowestNonce (p : Mempool) (s : PublicKey) : Option UInt64 :=
  p.bySender[s]?.bind fun q => (q.filterMap fun h => p.transactions[h]?.map (·.tx.nonce)).min?

def sizeOf (p : Mempool) (h : Hash) : ℕ := p.transactions[h]?.elim 0 (·.size)

def pooledNonces (p : Mempool) (s : PublicKey) : Set UInt64 :=
  {n | ∃ h m, p.Holds h m ∧ m.tx.sender = s ∧ m.tx.nonce = n}

theorem Indexed.lowestNonce_eq_some (hp : p.Indexed) {s : PublicKey} {n : UInt64} :
    p.lowestNonce s = some n ↔ IsLeast (p.pooledNonces s) n := by
  have hmem : ∀ n, n ∈ ((p.queueOf s).filterMap fun h => p.transactions[h]?.map (·.tx.nonce)) ↔
      n ∈ p.pooledNonces s := by
    intro n
    simp only [List.mem_filterMap, Option.map_eq_some_iff]
    constructor
    · rintro ⟨h, hq, m, hm, rfl⟩
      obtain ⟨m', hm', hs⟩ := (hp.sender_mem s h).mp hq
      cases hm.symm.trans hm'
      exact ⟨h, m, hm, hs, rfl⟩
    · rintro ⟨h, m, hm, hs, rfl⟩
      exact ⟨h, (hp.sender_mem s h).mpr ⟨m, hm, hs⟩, m, hm, rfl⟩
  have heq : p.lowestNonce s =
      ((p.queueOf s).filterMap fun h => p.transactions[h]?.map (·.tx.nonce)).min? := by
    unfold lowestNonce queueOf
    cases p.bySender[s]? <;> rfl
  rw [heq, List.min?_eq_some_iff, hmem]
  exact and_congr_right fun _ => forall_congr' fun k => by rw [hmem]

structure Takes (p : Mempool) (maxCount maxSize : ℕ) (sel : Selection) (h : Hash) (m : MempoolTx) :
    Prop where
  held : p.Holds h m
  room : sel.selected.length < maxCount
  fresh : h ∉ sel.picked
  fits : usizeAdd sel.totalSize m.size ≤ maxSize
  next : ∀ n, p.expectedNonce sel m.tx.sender = some n → m.tx.nonce = n
  nonce : m.tx.nonce ≠ Word.maxWord

def taken (sel : Selection) (h : Hash) (m : MempoolTx) : Selection where
  selected := sel.selected ++ [m.tx]
  totalSize := usizeAdd sel.totalSize m.size
  nextNonce := sel.nextNonce.insert m.tx.sender (m.tx.nonce + 1)
  picked := h :: sel.picked

theorem taken_selected : (taken sel h m).selected = sel.selected ++ [m.tx] := rfl

theorem checkedAdd_one {n : UInt64} :
    Word.checkedAdd n 1 = if n = Word.maxWord then none else some (n + 1) := by
  have hlt := n.toNat_lt_size
  have hsum : n.toNat + UInt64.toNat 1 < UInt64.size ↔ n ≠ Word.maxWord := by
    rw [ne_eq, ← UInt64.toNat_inj]
    change n.toNat + 1 < 2 ^ 64 ↔ ¬ n.toNat = 2 ^ 64 - 1
    change n.toNat < 2 ^ 64 at hlt
    omega
  simp only [Word.checkedAdd, hsum, ite_not]

theorem selectOne_of_takes (ht : Takes p maxCount maxSize sel h m) :
    p.selectOne maxCount maxSize sel h = taken sel h m := by
  have hnext : (p.expectedNonce sel m.tx.sender).all (m.tx.nonce == ·) = true := by
    cases he : p.expectedNonce sel m.tx.sender with
    | none => rfl
    | some n => simpa using ht.next n he
  simp only [selectOne, not_le.mpr ht.room, if_false, show p.transactions[h]? = some m from ht.held,
    ht.fresh, not_lt.mpr ht.fits, hnext, Bool.true_eq_false, checkedAdd_one, ht.nonce]
  rfl

theorem selectOne_cases (p : Mempool) (maxCount maxSize : ℕ) (sel : Selection) (h : Hash) :
    p.selectOne maxCount maxSize sel h = sel ∨ ∃ m, Takes p maxCount maxSize sel h m := by
  unfold selectOne
  split
  · exact .inl rfl
  split
  · exact .inl rfl
  split
  · exact .inl rfl
  split
  · exact .inl rfl
  split
  · exact .inl rfl
  · next hroom _ m hm hfresh hfits hnext =>
    rw [checkedAdd_one]
    split_ifs with hmax
    · exact .inl rfl
    · refine .inr ⟨m, hm, not_le.mp hroom, hfresh, not_lt.mp hfits, fun n hn => ?_, hmax⟩
      simpa [hn] using hnext

def noncesFrom (txs : List SignedTx) (s : PublicKey) : List ℕ :=
  (txs.filter (·.sender = s)).map (·.nonce.toNat)

/-- The transactions of each sender have the nonces from its lowest on, and the next is expected. -/
structure Chosen (p : Mempool) (maxCount maxSize : ℕ) (sel : Selection) : Prop where
  hashes : sel.selected.map (·.hash) = sel.picked.reverse
  nodup : sel.picked.Nodup
  held : ∀ tx ∈ sel.selected, ∃ m, p.Holds tx.hash m ∧ m.tx = tx
  size : sel.totalSize = min (sel.picked.map p.sizeOf).sum (2 ^ 64 - 1)
  count_le : sel.selected.length ≤ maxCount
  size_le : sel.totalSize ≤ maxSize
  nonces : ∀ s low, p.lowestNonce s = some low →
    noncesFrom sel.selected s = List.range' low.toNat (noncesFrom sel.selected s).length ∧
    ∃ n, p.expectedNonce sel s = some n ∧ n.toNat = low.toNat + (noncesFrom sel.selected s).length

theorem Chosen.empty : Chosen p maxCount maxSize {} where
  hashes := rfl
  nodup := List.nodup_nil
  held := by simp
  size := rfl
  count_le := Nat.zero_le _
  size_le := Nat.zero_le _
  nonces s low hlow := ⟨rfl, low, by simpa [expectedNonce, lowestNonce] using hlow, rfl⟩

theorem Chosen.taken (hp : p.Indexed) (hc : Chosen p maxCount maxSize sel)
    (ht : Takes p maxCount maxSize sel h m) : Chosen p maxCount maxSize (taken sel h m) where
  hashes := by simp [Mempool.taken, hc.hashes, hp.keyed h m ht.held]
  nodup := List.nodup_cons.mpr ⟨ht.fresh, hc.nodup⟩
  held tx htx := by
    rcases List.mem_append.mp htx with htx | htx
    · exact hc.held tx htx
    · obtain rfl := List.mem_singleton.mp htx
      exact ⟨m, by rw [hp.keyed h m ht.held]; exact ht.held, rfl⟩
  size := by
    have hsize : p.sizeOf h = m.size := by rw [sizeOf, show p.transactions[h]? = some m from ht.held]; rfl
    change usizeAdd sel.totalSize m.size = min ((h :: sel.picked).map p.sizeOf).sum _
    rw [hc.size, List.map_cons, List.sum_cons, hsize, usizeAdd]
    omega
  count_le := by
    rw [taken_selected, List.length_append]
    exact ht.room
  size_le := ht.fits
  nonces s low hlow := by
    obtain ⟨hrange, n, hn, hsum⟩ := hc.nonces s low hlow
    rw [taken_selected]
    by_cases hs : m.tx.sender = s
    · subst hs
      obtain rfl := ht.next n hn
      have happend : noncesFrom (sel.selected ++ [m.tx]) m.tx.sender =
          noncesFrom sel.selected m.tx.sender ++ [m.tx.nonce.toNat] := by
        simp [noncesFrom, List.filter_append]
      have hsucc : (m.tx.nonce + 1).toNat = m.tx.nonce.toNat + 1 :=
        Word.checkedAdd_toNat (checkedAdd_one.trans (if_neg ht.nonce))
      rw [happend, List.length_append, List.length_singleton, List.range'_concat, ← hrange]
      refine ⟨by simp [hsum], m.tx.nonce + 1, ?_, by omega⟩
      simp [expectedNonce, Mempool.taken]
    · have hsame : noncesFrom (sel.selected ++ [m.tx]) s = noncesFrom sel.selected s := by
        simp [noncesFrom, List.filter_append, hs]
      have hexpected : p.expectedNonce (Mempool.taken sel h m) s = p.expectedNonce sel s := by
        simp only [expectedNonce, Mempool.taken]
        rw [TreeMap.getElem?_insert_ite, if_neg (Ne.symm hs)]
      rw [hexpected, hsame]
      exact ⟨hrange, n, hn, hsum⟩

theorem Chosen.selectOne (hp : p.Indexed) (hc : Chosen p maxCount maxSize sel) (h : Hash) :
    Chosen p maxCount maxSize (p.selectOne maxCount maxSize sel h) := by
  rcases selectOne_cases p maxCount maxSize sel h with heq | ⟨m, ht⟩
  · rwa [heq]
  · rw [selectOne_of_takes ht]
    exact hc.taken hp ht

theorem selectOne_eq_or_lt (p : Mempool) (maxCount maxSize : ℕ) (sel : Selection) (h : Hash) :
    p.selectOne maxCount maxSize sel h = sel ∨
      sel.picked.length < (p.selectOne maxCount maxSize sel h).picked.length := by
  refine (selectOne_cases p maxCount maxSize sel h).imp_right ?_
  rintro ⟨m, ht⟩
  rw [selectOne_of_takes ht]
  exact Nat.lt_succ_self _

theorem pass_eq_or_lt (p : Mempool) (maxCount maxSize : ℕ) (sorted : List Hash) (sel : Selection) :
    (sorted.foldl (p.selectOne maxCount maxSize) sel = sel ∧
        ∀ h ∈ sorted, p.selectOne maxCount maxSize sel h = sel) ∨
      sel.picked.length < (sorted.foldl (p.selectOne maxCount maxSize) sel).picked.length := by
  induction sorted generalizing sel with
  | nil => exact .inl ⟨rfl, nofun⟩
  | cons h sorted ih =>
    rw [List.foldl_cons]
    rcases selectOne_eq_or_lt p maxCount maxSize sel h with heq | hlt
    · rw [heq]
      exact (ih sel).imp_left fun hrest => ⟨hrest.1, List.forall_mem_cons.mpr ⟨heq, hrest.2⟩⟩
    · rcases ih (p.selectOne maxCount maxSize sel h) with hrest | hrest
      · rw [hrest.1]
        exact .inr hlt
      · exact .inr (hlt.trans hrest)

theorem Chosen.pass (hp : p.Indexed) (hc : Chosen p maxCount maxSize sel) (hs : List Hash) :
    Chosen p maxCount maxSize (hs.foldl (p.selectOne maxCount maxSize) sel) :=
  List.foldlRecOn hs _ hc fun _ hc h _ => hc.selectOne hp h

theorem Chosen.length_le (hc : Chosen p maxCount maxSize sel) (hall : ∀ h m, p.Holds h m → h ∈ sorted) :
    sel.picked.length ≤ sorted.length := by
  refine (hc.nodup.subperm fun h hh => ?_).length_le
  rw [← List.mem_reverse, ← hc.hashes] at hh
  obtain ⟨tx, htx, rfl⟩ := List.mem_map.mp hh
  obtain ⟨m, hm, -⟩ := hc.held tx htx
  exact hall _ m hm

theorem selectLoop_spec (hp : p.Indexed) (hall : ∀ h m, p.Holds h m → h ∈ sorted) {fuel : ℕ}
    (hc : Chosen p maxCount maxSize sel) (hfuel : sorted.length < fuel + sel.picked.length) :
    let last := p.selectLoop maxCount maxSize sorted fuel sel
    Chosen p maxCount maxSize last ∧ (∀ h ∈ sorted, p.selectOne maxCount maxSize last h = last) ∧
      ∀ more, p.selectLoop maxCount maxSize sorted (fuel + more) sel = last := by
  induction fuel generalizing sel with
  | zero => exact absurd (hc.length_le hall) (by omega)
  | succ fuel ih =>
    have hpass := pass_eq_or_lt p maxCount maxSize sorted sel
    simp only [Nat.succ_add fuel, selectLoop]
    split
    · next heq =>
      obtain ⟨hsame, hfixed⟩ := hpass.resolve_right (by omega)
      rw [hsame]
      exact ⟨hc, hfixed, fun _ => rfl⟩
    · next hne =>
      have hlt := hpass.resolve_left fun hsame => hne (by rw [hsame.1])
      exact ih (hc.pass hp sorted) (by omega)

theorem Chosen.maximal (hc : Chosen p maxCount maxSize sel)
    (hfixed : p.selectOne maxCount maxSize sel h = sel) (hm : p.Holds h m) (hnot : m.tx ∉ sel.selected)
    (hmax : m.tx.nonce ≠ Word.maxWord) {low : UInt64}
    (hlow : p.lowestNonce m.tx.sender = some low)
    (hnext : m.tx.nonce.toNat = low.toNat + (noncesFrom sel.selected m.tx.sender).length) :
    sel.selected.length = maxCount ∨ maxSize < usizeAdd sel.totalSize m.size := by
  by_contra hcontra
  obtain ⟨hroom, hfits⟩ := not_or.mp hcontra
  have hfresh : h ∉ sel.picked := by
    intro hh
    rw [← List.mem_reverse, ← hc.hashes] at hh
    obtain ⟨tx, htx, htxh⟩ := List.mem_map.mp hh
    obtain ⟨m', hm', rfl⟩ := hc.held tx htx
    rw [htxh] at hm'
    cases hm.symm.trans hm'
    exact hnot htx
  have hexpected : ∀ n, p.expectedNonce sel m.tx.sender = some n → m.tx.nonce = n := by
    intro n hn
    obtain ⟨-, n', hn', hsum⟩ := hc.nonces _ low hlow
    cases hn.symm.trans hn'
    exact UInt64.toNat_inj.mp (hnext.trans hsum.symm)
  have htake := selectOne_of_takes ⟨hm, lt_of_le_of_ne hc.count_le hroom, hfresh, not_lt.mp hfits,
    hexpected, hmax⟩
  have hlen := congrArg (fun sel => sel.picked.length) (htake.symm.trans hfixed)
  exact Nat.succ_ne_self _ hlen

variable {r : PoolRules} {c : MempoolConfig}

/-- Every pooled nonce has a successor; admission refuses the last one. -/
def Spendable (p : Mempool) : Prop := ∀ h m, p.Holds h m → m.tx.nonce ≠ Word.maxWord

theorem Spendable.call (hp : Spendable p) (call : Call) : Spendable (call.run r p) := by
  rcases Call.run_shrunk r p call with hs | ⟨q, m, hs, hmax, heq⟩
  · exact fun h m hm => hp h m (hs.holds h m hm)
  · rw [heq]
    intro h m' hm'
    obtain ⟨-, rfl⟩ | ⟨-, hm'⟩ := insertTx_holds.mp hm'
    · exact hmax
    · exact hp h m' (hs.holds h m' hm')

def sortedHashes (r : PoolRules) (p : Mempool) : List Hash :=
  ((r.walk p.priorityQueue).mergeSort fun a b => b.2.le a.2).map (·.1)

theorem Indexed.mem_sortedHashes (hp : p.Indexed) (hm : p.Holds h m) : h ∈ sortedHashes r p := by
  have hmem := (hp.queue_mem h).mpr ⟨m, hm⟩
  exact (((List.mergeSort_perm _ _).trans (r.walk_perm _)).map _).mem_iff.mpr hmem

theorem Sound.selected_size (hp : Sound c p) (hc : Chosen p maxCount maxSize sel) :
    (sel.selected.map fun tx => p.sizeOf tx.hash).sum = sel.totalSize := by
  have hsum : (sel.selected.map fun tx => p.sizeOf tx.hash).sum = (sel.picked.map p.sizeOf).sum := by
    have hmap := congrArg (List.map p.sizeOf) hc.hashes
    rw [List.map_map, List.map_reverse] at hmap
    exact (congrArg List.sum hmap).trans (List.sum_reverse _)
  have hle := TreeMap.sum_le_sumBy (m := p.transactions) (fun _ m => m.size) hc.nodup
  rw [← hp.indexed.size_eq] at hle
  have hbytes := hp.limits.bytes
  rw [hsum, hc.size, min_eq_left]
  exact (hle.trans hbytes).trans (by decide)

/-- A template has no transaction twice, keeps both limits, has the transactions of each sender in the
order of their nonces from the lowest pooled one on, and leaves out nothing that is next for its sender
and fits. More passes would change nothing. -/
theorem block_template (hp : Sound c p) (hspend : Spendable p) (env : Readings) (maxCount maxSize : ℕ) :
    let out := getBestTransactions r p env maxCount maxSize
    let size := (out.2.map fun tx => out.1.sizeOf tx.hash).sum
    (∀ more, (out.1.selectLoop maxCount maxSize (sortedHashes r out.1)
      ((sortedHashes r out.1).length + 1 + more) {}).selected = out.2) ∧
    (out.2.map (·.hash)).Nodup ∧ (∀ tx ∈ out.2, ∃ m, out.1.Holds tx.hash m ∧ m.tx = tx) ∧
    (∀ s low, IsLeast (out.1.pooledNonces s) low →
      noncesFrom out.2 s = List.range' low.toNat (noncesFrom out.2 s).length) ∧
    out.2.length ≤ maxCount ∧ size ≤ maxSize ∧
    ∀ h m low, out.1.Holds h m → m.tx ∉ out.2 → IsLeast (out.1.pooledNonces m.tx.sender) low →
      m.tx.nonce.toNat = low.toNat + (noncesFrom out.2 m.tx.sender).length →
      out.2.length = maxCount ∨ maxSize < size + m.size := by
  intro out size
  have hswept : Sound c out.1 := hp.sweepIfV1WindowClosed env
  have hspendable : Spendable out.1 := hspend.call (.getBestTransactions env maxCount maxSize)
  have hempty : Chosen out.1 maxCount maxSize {} := Chosen.empty
  obtain ⟨hc, hfixed, hmore⟩ := selectLoop_spec hswept.indexed
    (fun _ _ => hswept.indexed.mem_sortedHashes) hempty (Nat.lt_succ_self (sortedHashes r out.1).length)
  have hout : out.2 = (out.1.selectLoop maxCount maxSize (sortedHashes r out.1)
      ((sortedHashes r out.1).length + 1) {}).selected := by
    have hlen : (sortedHashes r out.1).length =
        ((r.walk out.1.priorityQueue).mergeSort fun a b => b.2.le a.2).length := List.length_map ..
    rw [hlen]
    rfl
  have hsize : size = _ := (congrArg (fun txs => (txs.map fun tx => out.1.sizeOf tx.hash).sum) hout).trans
    (hswept.selected_size hc)
  have hlowest : ∀ {s low}, IsLeast (out.1.pooledNonces s) low → out.1.lowestNonce s = some low :=
    hswept.indexed.lowestNonce_eq_some.mpr
  rw [hsize, hout]
  refine ⟨fun more => by rw [hmore], ?_, hc.held, fun s low hlow => (hc.nonces s low (hlowest hlow)).1,
    hc.count_le, hc.size_le, fun h m low hm hnot hlow hnext => ?_⟩
  · rw [hc.hashes]
    exact List.nodup_reverse.mpr hc.nodup
  · have hleft := hc.maximal (hfixed h (hswept.indexed.mem_sortedHashes hm)) hm hnot (hspendable h m hm)
      (hlowest hlow) hnext
    exact hleft.imp_right fun hbig => hbig.trans_le (min_le_left _ _)

def twoNonces : Mempool :=
  Call.run (openRules {}) (Call.run (openRules {}) {} (.addTransaction {} (plainTx 2 1 0) .standard))
    (.addTransaction {} (plainTx 1 0 0) .standard)

theorem block_template_two_nonces : twoNonces.transactions.size = 2 ∧
    (getBestTransactions (openRules {}) twoNonces {} 1 1000).2.length ≤ 1 := by
  have hempty : Sound (openRules {}).config {} := ⟨.empty ∅ false, .empty _ ∅ false⟩
  have hspend : Spendable {} := fun h m hm => by simp [Holds] at hm
  have hsound : Sound (openRules {}).config twoNonces := (hempty.call (by decide) _).call (by decide) _
  have hspendable : Spendable twoNonces := (hspend.call _).call _
  have htemplate := block_template (r := openRules {}) hsound hspendable {} 1 1000
  exact ⟨by decide, htemplate.2.2.2.2.1⟩

end Mempool

end CitrateChain.Sequencer
