import Mathlib.Data.List.Sort
import CitrateChain.Base.Result
import CitrateChain.Consensus.DagStore

/-! # The total order of a DAG

The blocks of the selected chain from genesis on, each followed by the blocks that it reaches along
merge edges and that are not listed yet. -/
namespace CitrateChain.Consensus
open Std (ExtTreeMap)
open Relation (ReflTransGen)

inductive OrderingError
  | blockNotFound (hash : Hash)
  | invalidState
  | cycleDetected
  | dagStoreError (text : String)
  | dagError (text : String)
  deriving DecidableEq

structure BlockOrderingInfo where
  hash : Hash
  blueScore : UInt64

def BlockOrderingInfo.le (a b : BlockOrderingInfo) : Prop :=
  b.blueScore < a.blueScore ∨ a.blueScore = b.blueScore ∧ a.hash.toNat ≤ b.hash.toNat

instance : DecidableRel BlockOrderingInfo.le := fun _ _ => inferInstanceAs (Decidable (_ ∨ _))

/-- `score` is `calculate_blue_score` of the engine. The first half of every cache key is zero. -/
structure TotalOrdering where
  dagStore : DagStore
  score : Block → Except String UInt64
  orderCache : ExtTreeMap Hash (List Hash) := ∅

namespace TotalOrdering

-- the fuel of the walks is an argument; a walk that runs out of it fails
def buildSelectedParentChain (dag : DagStore) : ℕ → Hash → Except OrderingError (List Hash)
  | 0, _ => .error .cycleDetected
  | n + 1, current =>
    match dag.blocks[current]? with
    | none => .error (.blockNotFound current)
    | some b =>
      if b.isGenesis then .ok [current]
      else (current :: ·) <$> buildSelectedParentChain dag n b.selectedParent

def collectMergesetRecursive (dag : DagStore) (yielded : List Hash) :
    ℕ → List Hash → Hash → Except OrderingError (List Hash)
  | 0, _, _ => .error .cycleDetected
  | n + 1, collected, hash =>
    if hash ∈ yielded ∨ hash ∈ collected then .ok collected
    else
      match dag.blocks[hash]? with
      | none => .ok (collected ++ [hash])
      | some b =>
        b.header.mergeParentHashes.foldlM (collectMergesetRecursive dag yielded n) (collected ++ [hash])

def orderingInfo (score : Block → Except String UInt64) (e : Hash × Block) :
    Except OrderingError BlockOrderingInfo :=
  match score e.2 with
  | .error text => .error (.dagError text)
  | .ok blueScore => .ok ⟨e.1, blueScore⟩

def prepareMergeset (dag : DagStore) (score : Block → Except String UInt64) (fuel : ℕ)
    (yielded : List Hash) (chainBlock : Hash) : Except OrderingError (List Hash) :=
  match dag.blocks[chainBlock]? with
  | none => .error (.blockNotFound chainBlock)
  | some b => do
    let mergeset ← b.header.mergeParentHashes.foldlM (collectMergesetRecursive dag yielded fuel) []
    let stored := mergeset.filterMap fun h => (dag.blocks[h]?).map (Prod.mk h)
    let infos ← stored.mapM (orderingInfo score)
    return ((infos.insertionSort BlockOrderingInfo.le).map (·.hash)).filter (· ∉ yielded)

def yieldOnce (yielded : List Hash) (hash : Hash) : List Hash :=
  if hash ∈ yielded then yielded else yielded ++ [hash]

/-- What `next` yields from a chain block on until the queue of its mergeset is empty. -/
def nextChainBlock (dag : DagStore) (score : Block → Except String UInt64) (fuel : ℕ)
    (yielded : List Hash) (chainBlock : Hash) : Except OrderingError (List Hash) := do
  let queue ← prepareMergeset dag score fuel yielded chainBlock
  return queue.foldl yieldOnce (yieldOnce yielded chainBlock)

def collect (dag : DagStore) (score : Block → Except String UInt64) (fuel : ℕ) (tip : Hash) :
    Except OrderingError (List Hash) := do
  let chain ← buildSelectedParentChain dag fuel tip
  chain.reverse.foldlM (nextChainBlock dag score fuel) []

def getTotalOrder (o : TotalOrdering) (fuel : ℕ) (tip : Hash) :
    Except OrderingError (List Hash) × TotalOrdering :=
  match o.orderCache[tip]? with
  | some order => (.ok order, o)
  | none =>
    match collect o.dagStore o.score fuel tip with
    | .error e => (.error e, o)
    | .ok order => (.ok order, { o with orderCache := o.orderCache.insert tip order })

structure TransactionRef where
  blockHash : Hash
  txIndex : ℕ
  txHash : Hash
  deriving DecidableEq

structure OrderedBlockRange where
  blocks : List Hash
  transactionOrder : List TransactionRef
  fromHash : Hash
  toHash : Hash

def blockRefs (hash : Hash) (b : Block) : List TransactionRef :=
  b.transactions.zipIdx.map fun tx => ⟨hash, tx.2, tx.1.hash⟩

def transactionRefs (dag : DagStore) (hash : Hash) : Except OrderingError (List TransactionRef) :=
  match dag.blocks[hash]? with
  | none => .error (.blockNotFound hash)
  | some b => .ok (blockRefs hash b)

def fromIdx (start : Hash) (fullOrder : List Hash) : Except OrderingError ℕ :=
  if start = 0 then .ok 0
  else if start ∈ fullOrder then .ok (fullOrder.idxOf start + 1)
  else .error (.blockNotFound start)

def getOrderedBlocks (o : TotalOrdering) (fuel : ℕ) (start stop : Hash) :
    Except OrderingError OrderedBlockRange × TotalOrdering :=
  let result := o.getTotalOrder fuel stop
  (do
    let fullOrder ← result.1
    let blocks := fullOrder.drop (← fromIdx start fullOrder)
    let refs ← blocks.mapM (transactionRefs o.dagStore)
    return ⟨blocks, refs.flatten, start, stop⟩, result.2)

def Selected (dag : DagStore) (x p : Hash) : Prop :=
  ∃ b, dag.blocks[x]? = some b ∧ b.isGenesis = false ∧ b.selectedParent = p

def Merges (dag : DagStore) (x m : Hash) : Prop :=
  ∃ b, dag.blocks[x]? = some b ∧ m ∈ b.header.mergeParentHashes

def Parent (dag : DagStore) (x p : Hash) : Prop := Selected dag x p ∨ Merges dag x p

/-- On the selected chain of the tip, or reached from it along merge edges. -/
def Listed (dag : DagStore) (tip x : Hash) : Prop :=
  ∃ c, ReflTransGen (Selected dag) tip c ∧ ReflTransGen (Merges dag) c x

/-- All parents are stored and no edge leads back. Every stored block has a score. -/
structure Orderable (dag : DagStore) (score : Block → Except String UInt64) (rank : Hash → ℕ)
    (fuel : ℕ) : Prop where
  stored : ∀ x p, Parent dag x p → dag.hasBlock p
  descends : ∀ x p, Parent dag x p → rank p < rank x
  bounded : ∀ x, dag.hasBlock x → rank x < fuel
  scored : ∀ (x : Hash) b, dag.blocks[x]? = some b → ∃ s, score b = .ok s

variable {dag : DagStore} {score : Block → Except String UInt64} {rank : Hash → ℕ} {fuel : ℕ}
  {tip x p : Hash} {yielded : List Hash}

theorem hasBlock_iff : dag.hasBlock x ↔ ∃ b, dag.blocks[x]? = some b := Option.isSome_iff_exists

theorem Listed.past (h : Listed dag tip x) : ReflTransGen (Parent dag) tip x := by
  obtain ⟨c, hc, hx⟩ := h
  have hselected : Selected dag ≤ Parent dag := fun _ _ => Or.inl
  have hmerges : Merges dag ≤ Parent dag := fun _ _ => Or.inr
  exact (ReflTransGen.mono hselected _ _ hc).trans (ReflTransGen.mono hmerges _ _ hx)

theorem Orderable.past_stored (h : Orderable dag score rank fuel) (hx : dag.hasBlock x)
    (hp : ReflTransGen (Parent dag) x p) : dag.hasBlock p := by
  induction hp with
  | refl => exact hx
  | tail _ hm _ => exact h.stored _ _ hm

theorem Orderable.past_rank_le (h : Orderable dag score rank fuel)
    (hp : ReflTransGen (Parent dag) x p) : rank p ≤ rank x := by
  induction hp with
  | refl => exact le_rfl
  | tail _ hm ih => exact (h.descends _ _ hm).le.trans ih

theorem Listed.merges (h : Listed dag tip x) (hp : Merges dag x p) : Listed dag tip p := by
  obtain ⟨c, hc, hx⟩ := h
  exact ⟨c, hc, hx.tail hp⟩

structure Collected (dag : DagStore) (yielded roots before after : List Hash) : Prop where
  subset : ∀ x ∈ before, x ∈ after
  new : ∀ x ∈ after, x ∈ before ∨ ∃ m ∈ roots, ReflTransGen (Merges dag) m x
  closed : ∀ x ∈ after, x ∈ before ∨ ∀ m, Merges dag x m → m ∈ yielded ∨ m ∈ after
  roots : ∀ m ∈ roots, m ∈ yielded ∨ m ∈ after

theorem Collected.trans {m : Hash} {ms l l' l'' : List Hash} (h : Collected dag yielded [m] l l')
    (h' : Collected dag yielded ms l' l'') : Collected dag yielded (m :: ms) l l'' where
  subset x hx := h'.subset x (h.subset x hx)
  new x hx := by
    rcases h'.new x hx with hx | ⟨r, hr, hreach⟩
    · refine (h.new x hx).imp_right fun ⟨r, hr, hreach⟩ => ⟨r, ?_, hreach⟩
      exact List.mem_singleton.mp hr ▸ List.mem_cons_self
    · exact .inr ⟨r, List.mem_cons_of_mem _ hr, hreach⟩
  closed x hx := by
    rcases h'.closed x hx with hx | hclosed
    · exact (h.closed x hx).imp_right fun hclosed m hm => (hclosed m hm).imp_right (h'.subset m)
    · exact .inr hclosed
  roots := List.forall_mem_cons.mpr
    ⟨(h.roots m (List.mem_singleton_self m)).imp_right (h'.subset m), h'.roots⟩

theorem collected_foldlM {f : List Hash → Hash → Except OrderingError (List Hash)} {ms : List Hash}
    (hf : ∀ m ∈ ms, ∀ l, ∃ l', f l m = .ok l' ∧ Collected dag yielded [m] l l') (l : List Hash) :
    ∃ l', ms.foldlM f l = .ok l' ∧ Collected dag yielded ms l l' := by
  induction ms generalizing l with
  | nil => exact ⟨l, rfl, fun _ => id, fun _ => .inl, fun _ => .inl, nofun⟩
  | cons m ms ih =>
    obtain ⟨hm, hms⟩ := List.forall_mem_cons.mp hf
    obtain ⟨l', hl', hfirst⟩ := hm l
    obtain ⟨l'', hl'', hrest⟩ := ih hms l'
    exact ⟨l'', Result.bind_eq_ok.mpr ⟨l', hl', hl''⟩, hfirst.trans hrest⟩

section

variable (h : Orderable dag score rank fuel)
include h

theorem Orderable.collectMergeset (n : ℕ) (l : List Hash) (hx : dag.hasBlock x) (hn : rank x < n) :
    ∃ l', collectMergesetRecursive dag yielded n l x = .ok l' ∧ Collected dag yielded [x] l l' := by
  induction n generalizing l x with
  | zero => exact absurd hn (Nat.not_lt_zero _)
  | succ n ih =>
    rw [collectMergesetRecursive]
    split_ifs with hskip
    · refine ⟨l, rfl, fun _ => id, fun _ => .inl, fun _ => .inl, fun m hm => ?_⟩
      exact List.mem_singleton.mp hm ▸ hskip
    obtain ⟨b, hb⟩ := hasBlock_iff.mp hx
    have hmerges : ∀ m ∈ b.header.mergeParentHashes, Merges dag x m := fun m hm => ⟨b, hb, hm⟩
    obtain ⟨l', hl', hc⟩ := @collected_foldlM dag yielded _ _ (fun m hm l =>
      ih l (h.stored x m (.inr (hmerges m hm)))
        ((h.descends x m (.inr (hmerges m hm))).trans_le (Nat.lt_succ_iff.mp hn))) (l ++ [x])
    rw [hb]
    refine ⟨l', hl', fun y hy => hc.subset y (List.mem_append_left _ hy), fun y hy => ?_,
      fun y hy => ?_, fun m hm => ?_⟩
    · rcases hc.new y hy with hy | ⟨m, hm, hreach⟩
      · refine (List.mem_append.mp hy).imp_right fun hy => ?_
        exact ⟨x, List.mem_singleton_self x, List.mem_singleton.mp hy ▸ .refl⟩
      · exact .inr ⟨x, List.mem_singleton_self x, hreach.head (hmerges m hm)⟩
    · rcases hc.closed y hy with hy | hclosed
      · refine (List.mem_append.mp hy).imp_right fun hy m hmerged => ?_
        obtain ⟨b', hb', hm⟩ := hmerged
        rw [List.mem_singleton.mp hy, hb] at hb'
        exact hc.roots m (Option.some.inj hb' ▸ hm)
      · exact .inr hclosed
    · rw [List.mem_singleton.mp hm]
      exact .inr (hc.subset x (List.mem_append_right _ (List.mem_singleton_self x)))

theorem Orderable.orderingInfos {l : List Hash} (hl : ∀ x ∈ l, dag.hasBlock x) :
    ∃ infos, (l.filterMap fun x => (dag.blocks[x]?).map (Prod.mk x)).mapM (orderingInfo score) =
      .ok infos ∧ infos.map (·.hash) = l := by
  induction l with
  | nil => exact ⟨[], rfl, rfl⟩
  | cons x l ih =>
    obtain ⟨hx, hl⟩ := List.forall_mem_cons.mp hl
    obtain ⟨b, hb⟩ := hasBlock_iff.mp hx
    obtain ⟨s, hs⟩ := h.scored x b hb
    obtain ⟨infos, hinfos, hmap⟩ := ih hl
    refine ⟨⟨x, s⟩ :: infos, ?_, by rw [List.map_cons, hmap]⟩
    simp only [List.filterMap_cons, hb, Option.map_some, List.mapM_cons, orderingInfo, hs, hinfos]
    rfl

theorem Orderable.prepareMergeset_ok (hx : dag.hasBlock x) :
    ∃ queue, prepareMergeset dag score fuel yielded x = .ok queue ∧
      (∀ y ∈ queue, ReflTransGen (Merges dag) x y) ∧
      ∀ y, y = x ∨ y ∈ queue → ∀ m, Merges dag y m → m ∈ yielded ∨ m ∈ queue := by
  obtain ⟨b, hb⟩ := hasBlock_iff.mp hx
  have hmerges : ∀ m ∈ b.header.mergeParentHashes, Merges dag x m := fun m hm => ⟨b, hb, hm⟩
  have hstored : ∀ m ∈ b.header.mergeParentHashes, dag.hasBlock m :=
    fun m hm => h.stored x m (.inr (hmerges m hm))
  obtain ⟨l, hl, hc⟩ := @collected_foldlM dag yielded _ _ (fun m hm l =>
    h.collectMergeset fuel l (hstored m hm) (h.bounded m (hstored m hm))) []
  have hreach : ∀ y ∈ l, ReflTransGen (Merges dag) x y := fun y hy => by
    obtain hy | ⟨m, hm, hy⟩ := hc.new y hy
    · cases hy
    · exact hy.head (hmerges m hm)
  obtain ⟨infos, hinfos, hmap⟩ := h.orderingInfos fun y hy => h.past_stored hx (Listed.past ⟨x, .refl, hreach y hy⟩)
  refine ⟨((infos.insertionSort BlockOrderingInfo.le).map (·.hash)).filter (· ∉ yielded), ?_, ?_⟩
  · simp only [prepareMergeset, hb, hl, Result.bind_eq_ok]
    exact ⟨l, rfl, infos, hinfos, rfl⟩
  have hmem : ∀ y, y ∈ ((infos.insertionSort BlockOrderingInfo.le).map (·.hash)).filter
      (· ∉ yielded) ↔ y ∈ l ∧ y ∉ yielded := fun y => by
    rw [List.mem_filter, ((List.perm_insertionSort _ infos).map _).mem_iff, hmap, decide_eq_true_iff]
  simp only [hmem]
  refine ⟨fun y hy => hreach y hy.1, fun y hy m hm => ?_⟩
  have hcovered : m ∈ yielded ∨ m ∈ l := by
    rcases hy with rfl | ⟨hy, -⟩
    · obtain ⟨b', hb', hm⟩ := hm
      exact hc.roots m (Option.some.inj (hb.symm.trans hb') ▸ hm)
    · exact (hc.closed y hy).elim nofun fun hclosed => hclosed m hm
  by_cases hfree : m ∈ yielded
  · exact .inl hfree
  · exact .inr ⟨hcovered.resolve_left hfree, hfree⟩

omit h in
theorem mem_yieldOnce {y : Hash} : y ∈ yieldOnce yielded x ↔ y ∈ yielded ∨ y = x := by
  unfold yieldOnce
  split_ifs with hx
  · exact ⟨.inl, fun hy => hy.elim id fun hy => hy ▸ hx⟩
  · rw [List.mem_append, List.mem_singleton]

omit h in
theorem yieldOnce_nodup (h : yielded.Nodup) : (yieldOnce yielded x).Nodup := by
  unfold yieldOnce
  split_ifs with hx
  · exact h
  · exact List.nodup_append.mpr ⟨h, List.nodup_singleton x, fun y hy z hz hyz =>
      hx (List.mem_singleton.mp hz ▸ hyz ▸ hy)⟩

omit h in
theorem foldl_yieldOnce (queue : List Hash) : ∃ rest,
    queue.foldl yieldOnce yielded = yielded ++ rest ∧ (yielded.Nodup → (yielded ++ rest).Nodup) ∧
      ∀ y, y ∈ yielded ++ rest ↔ y ∈ yielded ∨ y ∈ queue := by
  induction queue generalizing yielded with
  | nil => exact ⟨[], by simp⟩
  | cons x queue ih =>
    obtain ⟨rest, heq, hnodup, hmem⟩ := @ih (yieldOnce yielded x)
    obtain ⟨first, hfirst⟩ : ∃ first, yieldOnce yielded x = yielded ++ first := by
      unfold yieldOnce
      split_ifs
      · exact ⟨[], (List.append_nil _).symm⟩
      · exact ⟨[x], rfl⟩
    refine ⟨first ++ rest, ?_⟩
    rw [← List.append_assoc, ← hfirst]
    exact ⟨heq, fun h => hnodup (yieldOnce_nodup h), fun y => by
      rw [hmem, mem_yieldOnce, List.mem_cons, or_assoc]⟩

theorem Orderable.nextChainBlock_ok (hx : dag.hasBlock x) (hfree : x ∉ yielded)
    (hnodup : yielded.Nodup) (hclosed : ∀ y ∈ yielded, ∀ m, Merges dag y m → m ∈ yielded) :
    ∃ merged,
    nextChainBlock dag score fuel yielded x = .ok (yielded ++ x :: merged) ∧
      (yielded ++ x :: merged).Nodup ∧
      ∀ y, y ∈ yielded ++ x :: merged ↔ y ∈ yielded ∨ ReflTransGen (Merges dag) x y := by
  obtain ⟨queue, hqueue, hreach, hcovered⟩ := @h.prepareMergeset_ok _ _ _ _ _ yielded hx
  obtain ⟨merged, heq, hkept, hmem⟩ := @foldl_yieldOnce (yieldOnce yielded x) queue
  have hyield : yieldOnce yielded x ++ merged = yielded ++ x :: merged := by
    rw [yieldOnce, if_neg hfree, List.append_assoc, List.singleton_append]
  rw [hyield] at heq hkept hmem
  refine ⟨merged, Result.bind_eq_ok.mpr ⟨queue, hqueue, congrArg _ heq⟩,
    hkept (yieldOnce_nodup hnodup), fun y => ?_⟩
  rw [hmem, mem_yieldOnce]
  constructor
  · rintro ((hy | rfl) | hy)
    · exact .inl hy
    · exact .inr .refl
    · exact .inr (hreach y hy)
  rintro (hy | hy)
  · exact .inl (.inl hy)
  · induction hy with
    | refl => exact .inl (.inr rfl)
    | tail _ hm ih =>
      rcases ih with (hy | hy) | hy
      · exact .inl (.inl (hclosed _ hy _ hm))
      · exact (hcovered _ (.inl hy) _ hm).imp_left .inl
      · exact (hcovered _ (.inr hy) _ hm).imp_left .inl

-- any two amounts of fuel above the rank give one chain
theorem Orderable.exists_chain (hx : dag.hasBlock x) :
    ∃ chain, ∀ n, rank x < n → buildSelectedParentChain dag n x = .ok chain := by
  induction hr : rank x using Nat.strong_induction_on generalizing x with
  | _ r ih =>
    obtain ⟨b, hb⟩ := hasBlock_iff.mp hx
    cases hg : b.isGenesis with
    | true =>
      refine ⟨[x], fun n hn => ?_⟩
      obtain ⟨n, rfl⟩ := Nat.exists_eq_add_one_of_ne_zero (Nat.ne_zero_of_lt hn)
      simp only [buildSelectedParentChain, hb, hg, if_true]
    | false =>
      have hp : Parent dag x b.selectedParent := .inl ⟨b, hb, hg, rfl⟩
      have hlt := hr ▸ h.descends x _ hp
      obtain ⟨chain, hchain⟩ := ih _ hlt (h.stored x _ hp) rfl
      refine ⟨x :: chain, fun n hn => ?_⟩
      obtain ⟨n, rfl⟩ := Nat.exists_eq_add_one_of_ne_zero (Nat.ne_zero_of_lt hn)
      simp only [buildSelectedParentChain, hb, hg, Bool.false_eq_true, if_false,
        hchain n (hlt.trans_le (Nat.lt_succ_iff.mp hn))]
      rfl

theorem Orderable.collect_selected (hp : Selected dag x p) : collect dag score fuel x =
      collect dag score fuel p >>= fun order => nextChainBlock dag score fuel order x := by
  obtain ⟨b, hb, hg, rfl⟩ := hp
  have hx : dag.hasBlock x := hasBlock_iff.mpr ⟨b, hb⟩
  have hp : Parent dag x b.selectedParent := .inl ⟨b, hb, hg, rfl⟩
  obtain ⟨chain, hchain⟩ := h.exists_chain (h.stored x _ hp)
  obtain ⟨n, rfl⟩ := Nat.exists_eq_add_one_of_ne_zero (Nat.ne_zero_of_lt (h.bounded x hx))
  have hn := (h.descends x _ hp).trans_le (Nat.lt_succ_iff.mp (h.bounded x hx))
  have hlong : buildSelectedParentChain dag (n + 1) x = .ok (x :: chain) := by
    simp only [buildSelectedParentChain, hb, hg, Bool.false_eq_true, if_false, hchain n hn]
    rfl
  rw [collect, collect, hlong, hchain (n + 1) (hn.trans (Nat.lt_succ_self n))]
  change (x :: chain).reverse.foldlM _ [] = chain.reverse.foldlM _ [] >>= _
  simp only [List.reverse_cons, List.foldlM_append, List.foldlM_cons, List.foldlM_nil, bind_pure]

theorem Orderable.collect_genesis {b : Block} (hb : dag.blocks[x]? = some b)
    (hg : b.isGenesis = true) : collect dag score fuel x = nextChainBlock dag score fuel [] x := by
  have hx : dag.hasBlock x := hasBlock_iff.mpr ⟨b, hb⟩
  obtain ⟨n, rfl⟩ := Nat.exists_eq_add_one_of_ne_zero (Nat.ne_zero_of_lt (h.bounded x hx))
  simp only [collect, buildSelectedParentChain, hb, hg, if_true]
  exact bind_pure (nextChainBlock dag score (n + 1) [] x)

end

theorem listed_iff {y : Hash} : Listed dag x y ↔
    (∃ p, Selected dag x p ∧ Listed dag p y) ∨ ReflTransGen (Merges dag) x y := by
  constructor
  · rintro ⟨c, hc, hy⟩
    rcases hc.cases_head with rfl | ⟨p, hp, hc⟩
    · exact .inr hy
    · exact .inl ⟨p, hp, c, hc, hy⟩
  · rintro (⟨p, hp, c, hc, hy⟩ | hy)
    · exact ⟨c, hc.head hp, hy⟩
    · exact ⟨x, .refl, hy⟩

/-- The order of a block is that of its selected parent, the block and what it newly merges. -/
structure Ordered (dag : DagStore) (score : Block → Except String UInt64) (fuel : ℕ) (x : Hash)
    (before merged : List Hash) : Prop where
  collected : collect dag score fuel x = .ok (before ++ x :: merged)
  nodup : (before ++ x :: merged).Nodup
  mem_iff : ∀ y, y ∈ before ++ x :: merged ↔ Listed dag x y
  mem_before : ∀ y, y ∈ before ↔ ∃ p, Selected dag x p ∧ Listed dag p y
  parent : ∀ p, Selected dag x p → collect dag score fuel p = .ok before

theorem Orderable.ordered (h : Orderable dag score rank fuel) (hx : dag.hasBlock x) :
    ∃ before merged, Ordered dag score fuel x before merged := by
  induction hr : rank x using Nat.strong_induction_on generalizing x with
  | _ r ih =>
    obtain ⟨b, hb⟩ := hasBlock_iff.mp hx
    obtain ⟨before, hcollect, hnodup, hbefore, hparent⟩ : ∃ before,
        collect dag score fuel x = nextChainBlock dag score fuel before x ∧ before.Nodup ∧
          (∀ y, y ∈ before ↔ ∃ p, Selected dag x p ∧ Listed dag p y) ∧
          ∀ p, Selected dag x p → collect dag score fuel p = .ok before := by
      cases hg : b.isGenesis with
      | true =>
        have hnone : ∀ p, ¬Selected dag x p := by
          rintro p ⟨b', hb', hg', -⟩
          cases hb.symm.trans hb'
          cases hg.symm.trans hg'
        exact ⟨[], h.collect_genesis hb hg, List.nodup_nil,
          fun y => iff_of_false List.not_mem_nil fun hsel => hnone _ hsel.choose_spec.1,
          fun p hp => absurd hp (hnone p)⟩
      | false =>
        have hp : Selected dag x b.selectedParent := ⟨b, hb, hg, rfl⟩
        have honly : ∀ p, Selected dag x p → p = b.selectedParent := by
          rintro p ⟨b', hb', -, hp⟩
          exact hp ▸ congrArg Block.selectedParent (Option.some.inj (hb'.symm.trans hb))
        obtain ⟨before, merged, hord⟩ :=
          ih _ (hr ▸ h.descends x _ (.inl hp)) (h.stored x _ (.inl hp)) rfl
        refine ⟨_, ?_, hord.nodup, fun y => ?_, fun p hp => honly p hp ▸ hord.collected⟩
        · rw [h.collect_selected hp, hord.collected]
          rfl
        · rw [hord.mem_iff]
          refine ⟨fun hy => ⟨_, hp, hy⟩, ?_⟩
          rintro ⟨p, hp, hy⟩
          exact honly p hp ▸ hy
    have hfree : x ∉ before := fun hmem => by
      obtain ⟨p, hp, hl⟩ := (hbefore x).mp hmem
      exact absurd (h.past_rank_le hl.past) (not_le.mpr (h.descends x p (.inl hp)))
    obtain ⟨merged, heq, hnodup, hmem⟩ := h.nextChainBlock_ok hx hfree hnodup fun y hy m hm => by
      obtain ⟨p, hp, hl⟩ := (hbefore y).mp hy
      exact (hbefore m).mpr ⟨p, hp, hl.merges hm⟩
    exact ⟨before, merged, hcollect.trans heq, hnodup,
      fun y => by rw [hmem, hbefore, ← listed_iff], hbefore, hparent⟩

variable {before merged : List Hash}

theorem Ordered.mem_merged (h : Ordered dag score fuel x before merged) {y : Hash} :
    y ∈ merged ↔ Listed dag x y ∧ y ≠ x ∧ y ∉ before := by
  obtain ⟨-, hrest, hdisj⟩ := List.nodup_append.mp h.nodup
  rw [← h.mem_iff, List.mem_append, List.mem_cons]
  constructor
  · intro hy
    exact ⟨.inr (.inr hy), fun hyx => (List.nodup_cons.mp hrest).1 (hyx ▸ hy),
      fun ho => hdisj y ho y (List.mem_cons_of_mem _ hy) rfl⟩
  · rintro ⟨hy, hne, hnew⟩
    exact (hy.resolve_left hnew).resolve_left hne

def Consistent (o : TotalOrdering) (dag : DagStore) (score : Block → Except String UInt64)
    (fuel : ℕ) : Prop :=
  o.dagStore = dag ∧ o.score = score ∧
    ∀ (tip : Hash) order, o.orderCache[tip]? = some order → collect dag score fuel tip = .ok order

theorem Consistent.getTotalOrder {o : TotalOrdering} (h : o.Consistent dag score fuel) (tip : Hash) :
    (o.getTotalOrder fuel tip).1 = collect dag score fuel tip ∧
      (o.getTotalOrder fuel tip).2.Consistent dag score fuel := by
  obtain ⟨rfl, rfl, hcache⟩ := h
  unfold TotalOrdering.getTotalOrder
  split
  · rename_i order horder
    exact ⟨(hcache tip order horder).symm, rfl, rfl, hcache⟩
  split
  · rename_i hcollect
    exact ⟨hcollect.symm, rfl, rfl, hcache⟩
  · rename_i hcollect
    refine ⟨hcollect.symm, rfl, rfl, fun t order ht => ?_⟩
    rw [TreeMap.getElem?_insert_ite] at ht
    split_ifs at ht with heq
    · exact heq ▸ Option.some.inj ht ▸ hcollect
    · exact hcache t order ht

def queried (dag : DagStore) (score : Block → Except String UInt64) (fuel : ℕ) (tips : List Hash) :
    TotalOrdering :=
  tips.foldl (fun o tip => (o.getTotalOrder fuel tip).2) { dagStore := dag, score }

theorem queried_consistent (dag : DagStore) (score : Block → Except String UInt64) (fuel : ℕ)
    (tips : List Hash) : (queried dag score fuel tips).Consistent dag score fuel :=
  List.foldlRecOn (motive := (Consistent · dag score fuel)) tips _ ⟨rfl, rfl, by simp⟩ fun _ ho tip _ =>
    (ho.getTotalOrder tip).2

/-- The order lists no block twice, and it lists the whole past of the tip just if every selected
parent of a listed block is on the selected chain or reached from it along merge edges: a merged
block's own selected chain is not followed. -/
theorem total_order_covers_past_iff (h : Orderable dag score rank fuel) (earlier : List Hash)
    (hx : dag.hasBlock tip) : ∃ order,
    ((queried dag score fuel earlier).getTotalOrder fuel tip).1 = .ok order ∧ order.Nodup ∧
      ((∀ x, x ∈ order ↔ ReflTransGen (Parent dag) tip x) ↔
        ∀ x p, Listed dag tip x → Selected dag x p → Listed dag tip p) := by
  obtain ⟨before, merged, hord⟩ := h.ordered hx
  refine ⟨_, ((queried_consistent dag score fuel earlier).getTotalOrder tip).1.trans hord.collected,
    hord.nodup, ?_⟩
  simp only [hord.mem_iff]
  constructor
  · intro hall x p hx hp
    exact (hall p).mpr (((hall x).mp hx).tail (.inl hp))
  · refine fun hclosed x => ⟨Listed.past, fun hx => ?_⟩
    induction hx with
    | refl => exact ⟨tip, .refl, .refl⟩
    | tail _ hstep ih => exact hstep.elim (hclosed _ _ ih) ih.merges

def branchBlock (hash selected : Hash) (merges : List Hash) (txs : List Transaction) : Hash × Block :=
  (hash, ⟨{ blockHash := hash, selectedParentHash := selected, mergeParentHashes := merges }, 0, txs⟩)

def headerScore (b : Block) : Except String UInt64 := .ok b.header.blueScore

def sideBranch : DagStore :=
  { blocks := .ofList [branchBlock 1 0 [] [], branchBlock 2 1 [] [], branchBlock 3 1 [] [],
      branchBlock 4 3 [] [⟨9, 0, 0, none, 0, 0, 0, []⟩], branchBlock 5 2 [4] [],
      branchBlock 6 5 [] []] }

theorem sideBranch_orderable : Orderable sideBranch headerScore BitVec.toNat 7 := by
  have hall : sideBranch.blocks.toList.all (fun e => decide (e.1.toNat < 7) &&
      (e.2.isGenesis || e.2.parents.all fun p => sideBranch.hasBlock p && decide (p.toNat < e.1.toNat))) =
      true := by decide
  have hstored : ∀ (x : Hash) b, sideBranch.blocks[x]? = some b → x.toNat < 7 ∧ (b.isGenesis = true ∨
      ∀ p ∈ b.parents, sideBranch.hasBlock p ∧ p.toNat < x.toNat) := fun x b hb => by
    simpa using List.all_eq_true.mp hall (x, b) (ExtTreeMap.mem_toList_iff_getElem?_eq_some.mpr hb)
  have hparent : ∀ x p, Parent sideBranch x p → sideBranch.hasBlock p ∧ p.toNat < x.toNat := by
    rintro x p (⟨b, hb, hg, rfl⟩ | ⟨b, hb, hm⟩)
    · exact ((hstored x b hb).2.resolve_left (by simp [hg])) _ List.mem_cons_self
    · refine ((hstored x b hb).2.resolve_left fun hg => ?_) p (List.mem_cons_of_mem _ hm)
      simp only [Block.isGenesis, Bool.and_eq_true, List.isEmpty_iff] at hg
      simp [hg.2] at hm
  exact ⟨fun x p h => (hparent x p h).1, fun x p h => (hparent x p h).2,
    fun x hx => (hasBlock_iff.mp hx).elim fun b hb => (hstored x b hb).1, fun x b _ => ⟨_, rfl⟩⟩

theorem total_order_covers_past_iff_sideBranch : ∃ order,
    ((queried sideBranch headerScore 7 [4]).getTotalOrder 7 6).1 = .ok order ∧
      order.Nodup ∧ ((∀ x, x ∈ order ↔ ReflTransGen (Parent sideBranch) 6 x) ↔
        ∀ x p, Listed sideBranch 6 x → Selected sideBranch x p → Listed sideBranch 6 p) :=
  total_order_covers_past_iff sideBranch_orderable [4] (by decide)

theorem merged_branch_left_out : ReflTransGen (Parent sideBranch) 5 3 ∧
      ((queried sideBranch headerScore 7 []).getTotalOrder 7 5).1 = .ok [1, 2, 5, 4] := by
  have hmerges : Merges sideBranch 5 4 := ⟨_, rfl, by decide⟩
  have hselected : Selected sideBranch 4 3 := ⟨_, rfl, by decide⟩
  exact ⟨.head (.inr hmerges) (.single (.inl hselected)), by decide⟩

theorem total_order_extends_parent (h : Orderable dag score rank fuel) (earlier : List Hash)
    (hp : Selected dag x p) :
    let first := (queried dag score fuel earlier).getTotalOrder fuel p
    let second := first.2.getTotalOrder fuel x
    ∃ order merged, first.1 = .ok order ∧ second.1 = .ok (order ++ x :: merged) ∧
      ∀ y, y ∈ merged ↔ ReflTransGen (Merges dag) x y ∧ y ≠ x ∧ y ∉ order := by
  obtain ⟨before, merged, hord⟩ := h.ordered (hasBlock_iff.mpr (hp.imp fun _ => And.left))
  obtain ⟨hfirst, hnext⟩ := (queried_consistent dag score fuel earlier).getTotalOrder p
  refine ⟨before, merged, hfirst.trans (hord.parent p hp),
    (hnext.getTotalOrder x).1.trans hord.collected, fun y => ?_⟩
  rw [hord.mem_merged, listed_iff, ← hord.mem_before]
  exact ⟨fun ⟨hy, hne, hnew⟩ => ⟨hy.resolve_left hnew, hne, hnew⟩,
    fun ⟨hy, hne, hnew⟩ => ⟨.inr hy, hne, hnew⟩⟩

theorem total_order_extends_parent_sideBranch :
    let first := (queried sideBranch headerScore 7 []).getTotalOrder 7 2
    let second := first.2.getTotalOrder 7 5
    ∃ order merged, first.1 = .ok order ∧ second.1 = .ok (order ++ 5 :: merged) ∧
      ∀ y, y ∈ merged ↔ ReflTransGen (Merges sideBranch) 5 y ∧ y ≠ 5 ∧ y ∉ order :=
  total_order_extends_parent sideBranch_orderable [] ⟨_, rfl, by decide⟩

def refsOf (dag : DagStore) (hash : Hash) : List TransactionRef :=
  (dag.blocks[hash]?).elim [] (blockRefs hash)

theorem mapM_transactionRefs {l : List Hash} (hl : ∀ x ∈ l, dag.hasBlock x) :
    l.mapM (transactionRefs dag) = .ok (l.map (refsOf dag)) := by
  induction l with
  | nil => rfl
  | cons x l ih =>
    obtain ⟨hx, hl⟩ := List.forall_mem_cons.mp hl
    obtain ⟨b, hb⟩ := hasBlock_iff.mp hx
    simp only [List.mapM_cons, ih hl, transactionRefs, List.map_cons, refsOf, hb]
    rfl

theorem refsOf_eq_nil : refsOf dag x = [] ↔ ∀ b, dag.blocks[x]? = some b → b.transactions = [] := by
  unfold refsOf
  cases dag.blocks[x]? with
  | none => simp
  | some b => simp [blockRefs]

theorem flatMap_refsOf_nodup {l : List Hash} (hl : l.Nodup) : (l.flatMap (refsOf dag)).Nodup := by
  have hhash : ∀ x, ∀ r ∈ refsOf dag x, r.blockHash = x := fun x r hr => by
    unfold refsOf at hr
    cases hb : dag.blocks[x]? with
    | none => simp [hb] at hr
    | some b =>
      simp only [hb, Option.elim_some, blockRefs, List.mem_map] at hr
      obtain ⟨tx, -, rfl⟩ := hr
      rfl
  refine List.nodup_flatMap.mpr ⟨fun x _ => ?_, hl.imp fun {x y} hne r hx hy => ?_⟩
  · refine List.Nodup.of_map (·.txIndex) ?_
    unfold refsOf
    cases dag.blocks[x]? with
    | none => exact List.nodup_nil
    | some b =>
      have hidx : (blockRefs x b).map (·.txIndex) = b.transactions.zipIdx.map Prod.snd :=
        List.map_map
      rw [Option.elim_some, hidx, List.zipIdx_map_snd]
      exact List.nodup_range'
  · exact hne ((hhash x r hx).symm.trans (hhash y r hy))

theorem Consistent.getOrderedBlocks {o : TotalOrdering} (h : o.Consistent dag score fuel)
    {start stop : Hash} {skipped blocks : List Hash}
    (hcollect : collect dag score fuel stop = .ok (skipped ++ blocks))
    (hstart : if start = 0 then skipped = [] else ∃ pre, start ∉ pre ∧ skipped = pre ++ [start])
    (hstored : ∀ x ∈ blocks, dag.hasBlock x) :
    (o.getOrderedBlocks fuel start stop).1 =
        .ok ⟨blocks, blocks.flatMap (refsOf dag), start, stop⟩ ∧
      (o.getOrderedBlocks fuel start stop).2.Consistent dag score fuel := by
  obtain ⟨hval, hnext⟩ := h.getTotalOrder stop
  refine ⟨?_, hnext⟩
  simp only [TotalOrdering.getOrderedBlocks, hval, hcollect, Result.bind_eq_ok]
  refine ⟨_, rfl, skipped.length, ?_, blocks.map (refsOf dag), ?_, ?_⟩
  · unfold fromIdx
    split_ifs at hstart ⊢ with hzero hmem
    · rw [hstart, List.length_nil]
    · obtain ⟨pre, hpre, rfl⟩ := hstart
      rw [List.append_assoc, List.idxOf_append_of_notMem hpre, List.singleton_append,
        List.idxOf_cons_self, List.length_append, List.length_singleton, Nat.add_zero]
    · obtain ⟨pre, -, rfl⟩ := hstart
      simp at hmem
  · rw [List.drop_left, h.1, mapM_transactionRefs hstored]
  · rw [List.drop_left, List.flatMap_def]
    rfl

/-- What the range from a block on lists although the range up to the block has it: what the block
newly merges, and everything if its hash is the zero hash. -/
def Repeated (dag : DagStore) (a m : Hash) : Prop :=
  Listed dag a m ∧ (a = 0 ∨ m ≠ a ∧ ¬∃ p, Selected dag a p ∧ Listed dag p m)

theorem Ordered.split {a : Hash} (h : Ordered dag score fuel a before merged) : ∃ skipped repeated,
    before ++ a :: merged = skipped ++ repeated ∧
      (if a = 0 then skipped = [] else ∃ pre, a ∉ pre ∧ skipped = pre ++ [a]) ∧
      ∀ m, m ∈ repeated ↔ Repeated dag a m := by
  by_cases hzero : a = 0
  · refine ⟨[], before ++ a :: merged, rfl, if_pos hzero ▸ rfl, fun m => ?_⟩
    rw [h.mem_iff, Repeated, and_iff_left (.inl hzero)]
  · refine ⟨before ++ [a], merged, by simp, ?_, fun m => ?_⟩
    · rw [if_neg hzero]
      exact ⟨before, fun ha => (List.nodup_append.mp h.nodup).2.2 a ha a List.mem_cons_self rfl, rfl⟩
    · rw [h.mem_merged, h.mem_before, Repeated, or_iff_right hzero]

theorem Orderable.collect_below (h : Orderable dag score rank fuel) {a b : Hash} {order : List Hash}
    (ha : ReflTransGen (Selected dag) b a) (horder : collect dag score fuel a = .ok order) :
    ∃ rest, collect dag score fuel b = .ok (order ++ rest) := by
  induction ha using ReflTransGen.head_induction_on with
  | refl => exact ⟨[], by rw [horder, List.append_nil]⟩
  | head hp _ ih =>
    obtain ⟨rest, hrest⟩ := ih
    obtain ⟨before, merged, hord⟩ := h.ordered (hasBlock_iff.mpr (hp.imp fun _ => And.left))
    cases (hord.parent _ hp).symm.trans hrest
    exact ⟨rest ++ _ :: merged, by rw [hord.collected, List.append_assoc]⟩

theorem ordered_ranges_compose_iff (h : Orderable dag score rank fuel) (earlier : List Hash)
    {a b : Hash} (hb : dag.hasBlock b) (ha : ReflTransGen (Selected dag) b a) :
    let low := (queried dag score fuel earlier).getOrderedBlocks fuel 0 a
    let high := low.2.getOrderedBlocks fuel a b
    let whole := high.2.getOrderedBlocks fuel 0 b
    ∃ x y z, low.1 = .ok x ∧ high.1 = .ok y ∧ whole.1 = .ok z ∧ z.transactionOrder.Nodup ∧
      (x.transactionOrder ++ y.transactionOrder = z.transactionOrder ↔
        ∀ m block, Repeated dag a m → dag.blocks[m]? = some block → block.transactions = []) := by
  have hbelow : Listed dag b a := ⟨a, ha, .refl⟩
  obtain ⟨before, merged, hord⟩ := h.ordered (h.past_stored hb hbelow.past)
  obtain ⟨before', merged', hord'⟩ := h.ordered hb
  obtain ⟨rest, hrest⟩ := h.collect_below ha hord.collected
  have hwhole : before' ++ b :: merged' = before ++ a :: merged ++ rest :=
    Except.ok.inj (hord'.collected.symm.trans hrest)
  have hstored : ∀ x ∈ before ++ a :: merged ++ rest, dag.hasBlock x := fun x hx =>
    h.past_stored hb ((hord'.mem_iff x).mp (hwhole ▸ hx)).past
  obtain ⟨skipped, repeated, hsplit, hstart, hrepeated⟩ := hord.split
  obtain ⟨hlow, hnext⟩ := @Consistent.getOrderedBlocks dag score fuel _
    (queried_consistent dag score fuel earlier) 0 a [] _ hord.collected rfl
    fun x hx => hstored x (List.mem_append_left _ hx)
  obtain ⟨hhigh, hnext⟩ := @Consistent.getOrderedBlocks dag score fuel _ hnext a b skipped
    (repeated ++ rest) (by rw [hrest, hsplit, List.append_assoc]) hstart fun x hx => hstored x (by
      rw [hsplit, List.append_assoc]
      exact List.mem_append_right _ hx)
  obtain ⟨hall, -⟩ := @Consistent.getOrderedBlocks dag score fuel _ hnext 0 b [] _ hrest rfl hstored
  have hnodup : (before ++ a :: merged ++ rest).Nodup := hwhole ▸ hord'.nodup
  refine ⟨_, _, _, hlow, hhigh, hall, flatMap_refsOf_nodup hnodup, ?_⟩
  change (before ++ a :: merged).flatMap _ ++ (repeated ++ rest).flatMap _ =
    (before ++ a :: merged ++ rest).flatMap _ ↔ _
  simp only [List.flatMap_append, List.append_assoc, List.append_cancel_left_eq,
    List.append_left_eq_self, List.flatMap_eq_nil_iff, refsOf_eq_nil, hrepeated]
  exact ⟨fun hm m block hr => hm m hr block, fun hm m hr block => hm m block hr⟩

theorem ordered_ranges_compose_iff_sideBranch :
    let low := (queried sideBranch headerScore 7 []).getOrderedBlocks 7 0 5
    let high := low.2.getOrderedBlocks 7 5 6
    let whole := high.2.getOrderedBlocks 7 0 6
    ∃ x y z, low.1 = .ok x ∧ high.1 = .ok y ∧ whole.1 = .ok z ∧ z.transactionOrder.Nodup ∧
      (x.transactionOrder ++ y.transactionOrder = z.transactionOrder ↔ ∀ m block,
        Repeated sideBranch 5 m → sideBranch.blocks[m]? = some block → block.transactions = []) :=
  ordered_ranges_compose_iff sideBranch_orderable [] (by decide)
    (.single ⟨_, rfl, by decide⟩)

theorem boundary_mergeset_twice :
    let low := (queried sideBranch headerScore 7 []).getOrderedBlocks 7 0 5
    let high := low.2.getOrderedBlocks 7 5 6
    let whole := high.2.getOrderedBlocks 7 0 6
    ReflTransGen (Selected sideBranch) 6 5 ∧ low.1.map (·.transactionOrder) = .ok [⟨4, 0, 9⟩] ∧
      high.1.map (·.transactionOrder) = .ok [⟨4, 0, 9⟩] ∧
      whole.1.map (·.transactionOrder) = .ok [⟨4, 0, 9⟩] := by
  refine ⟨.single ⟨_, rfl, ?_, ?_⟩, ?_, ?_, ?_⟩
  all_goals decide

end TotalOrdering

end CitrateChain.Consensus
