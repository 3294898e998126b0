import CitrateChain.Consensus.DagRestart

/-! # Bounded residency of block bodies

A persistent store keeps the bodies of its newest blocks in memory. An older block stays as a
skeleton, and its body is read back from the backend. -/
namespace CitrateChain.Consensus
open Transition DagStore TreeMap
open Std (ExtTreeMap)

def stripBody (b : Block) : Block := { b with transactions := [] }

structure BodyResidency where
  order : List Hash := []
  stripped : Finset Hash := ∅

/-- The blocks of `dag` are the entries in memory, full blocks and skeletons. -/
structure ResidentStore where
  dag : DagStore
  residency : BodyResidency := {}
  residentBodyCap : ℕ

namespace ResidentStore

def loadFullBlock (r : DagRules) (s : ResidentStore) (hash : Hash) : Except DagStoreError Block :=
  match s.dag.persistent with
  | none => .error (.storageError ("block " ++ hash.display ++ " body evicted with no backend"))
  | some kv =>
    match kv (.dagBlocks, hash.asBytes) with
    | none => .error (.storageError ("reload block " ++ hash.display ++ ": missing from backend"))
    | some bytes =>
      match r.block.decode bytes with
      | none => .error (.storageError ("decode block " ++ hash.display))
      | some b =>
        if b.hash = hash then .ok b
        else .error (.storageError ("reload block " ++ hash.display ++ ": backend entry has hash " ++
          b.hash.display))

def fullBlock (r : DagRules) (s : ResidentStore) (hash : Hash) (entry : Block) :
    Except DagStoreError Block :=
  if hash ∈ s.residency.stripped then s.loadFullBlock r hash else .ok entry

def getBlock (r : DagRules) (s : ResidentStore) (hash : Hash) : Except DagStoreError Block :=
  match s.dag.blocks[hash]? with
  | none => .error (.blockNotFound hash)
  | some entry => s.fullBlock r hash entry

def evict (s : ResidentStore) (old : Hash) : ResidentStore :=
  match s.dag.blocks[old]? with
  | none => s
  | some entry =>
    { s with
      dag := { s.dag with blocks := s.dag.blocks.insert old (stripBody entry) }
      residency := { s.residency with stripped := insert old s.residency.stripped } }

/-- Pop the oldest resident block while there are more than the bound. -/
def boundBodies (s : ResidentStore) : ResidentStore :=
  let excess := s.residency.order.length - s.residentBodyCap
  (s.residency.order.take excess).foldl evict
    { s with residency := { s.residency with order := s.residency.order.drop excess } }

def storeBlock (r : DagRules) (s : ResidentStore) (b : Block) (fault : Option String) :
    Except DagStoreError ResidentStore :=
  match s.dag.storeBlock r b fault with
  | .error e => .error e
  | .ok dag =>
    let bodyOnDisk := s.dag.persistent.isSome
    let order := s.residency.order ++ [b.hash]
    if bodyOnDisk then
      .ok { s with dag, residency := { s.residency with order } }.boundBodies
    else .ok { s with dag }

def forgetResidency (s : ResidentStore) (hash : Hash) : ResidentStore :=
  { s with residency := ⟨s.residency.order.filter (· ≠ hash), s.residency.stripped.erase hash⟩ }

def pruneHash (s : ResidentStore) (hash : Hash) : ResidentStore :=
  if s.dag.hasBlock hash then { s with dag := s.dag.pruneHash hash }.forgetResidency hash else s

def pruneHeight (s : ResidentStore) (height : UInt64) : ResidentStore :=
  match s.dag.blocksByHeight[height]? with
  | none => s
  | some hashes =>
    let index := s.dag.blocksByHeight.erase height
    let pruned := hashes.foldl pruneHash { s with dag := { s.dag with blocksByHeight := index } }
    { pruned with dag := pruned.dag.persist [.delete (.dagHeightIndex, heightKey height)] }

def prune (r : DagRules) (s : ResidentStore) : Except DagStoreError (ℕ × ResidentStore) :=
  if s.dag.pruningPoint = 0 then .ok (0, s)
  else
    match s.getBlock r s.dag.pruningPoint with
    | .error e => .error e
    | .ok point =>
      let pruned := (s.dag.blocksByHeight.keys.filter (· < point.height)).foldl pruneHeight s
      .ok (s.dag.blocks.size - pruned.dag.blocks.size, pruned)

/-- A fresh store with any bound on the same backend. It keeps the skeletons only. -/
def reload (r : DagRules) (kv : PersistentStore) (iter : Cf → List (Bytes × Bytes)) (cap : ℕ) :
    Except DagStoreError ResidentStore :=
  match loadFromPersistent r kv iter with
  | .error e => .error e
  | .ok loaded =>
    .ok
      { dag := { loaded with blocks := loaded.blocks.map fun _ b => stripBody b }
        residency := { stripped := loaded.blocks.keys.toFinset }
        residentBodyCap := cap }

inductive ResidentStep (r : DagRules) (s : ResidentStore) : DagCall → ResidentStore → Prop
  | storeBlock {b fault s'} (h : s.storeBlock r b fault = .ok s') : ResidentStep r s (.storeBlock b) s'
  | finalizeBlock {hash dag} (h : s.dag.finalizeBlock hash = .ok dag) :
      ResidentStep r s (.finalizeBlock hash) { s with dag }
  | updatePruningPoint {hash dag} (h : s.dag.updatePruningPoint hash = .ok dag) :
      ResidentStep r s (.updatePruningPoint hash) { s with dag }
  | prune {n s'} (h : s.prune r = .ok (n, s')) : ResidentStep r s .prune s'
  | reopen {kv iter cap s'} (hkv : s.dag.persistent = some kv) (hiter : Iterates kv iter)
      (h : reload r kv iter cap = .ok s') : ResidentStep r s .reopen s'

structure Kept where
  stored : Hash → Option Block := fun _ => none
  point : Hash := 0

def Kept.after (t : Kept) : DagCall → Kept
  | .storeBlock b => { t with stored := Function.update t.stored b.hash (some b) }
  | .updatePruningPoint hash => { t with point := hash }
  | .prune =>
    match t.stored t.point with
    | some point =>
      if t.point = 0 then t
      else { t with stored := fun x => (t.stored x).filter fun b => !decide (b.height < point.height) }
    | none => t
  | .finalizeBlock _ | .reopen => t

def shell (d : DagStore) : DagStore := { d with blocks := ∅ }

/-- The entries in memory belong to the blocks of `d`; one that was not stripped is the block. -/
structure Resembles (s : ResidentStore) (d : DagStore) : Prop where
  rest : shell s.dag = shell d
  stored : ∀ x, s.dag.hasBlock x = d.hasBlock x
  full : ∀ x ∉ s.residency.stripped, s.dag.blocks[x]? = d.blocks[x]?

variable {r : DagRules} {s s' : ResidentStore} {d d' : DagStore} {kv : PersistentStore}
  {rows : Hash → Option (List Hash)}

section

variable (h : Resembles s d)
include h

theorem Resembles.getBlock (hd : Recorded r d rows kv) (x : Hash) :
    s.getBlock r x = d.getBlock x := by
  have hstored := h.stored x
  have hfull := h.full x
  unfold ResidentStore.getBlock fullBlock DagStore.getBlock
  unfold hasBlock at hstored
  cases hx : d.blocks[x]? with
  | none =>
    rw [hx, Option.isSome_none, Option.isSome_eq_false_iff, Option.isNone_iff_eq_none] at hstored
    rw [hstored]
  | some b =>
    rw [hx, Option.isSome_some, Option.isSome_iff_exists] at hstored
    obtain ⟨entry, hentry⟩ := hstored
    rw [hentry]
    by_cases hs : x ∈ s.residency.stripped
    · have hback : s.dag.persistent = some kv := (congrArg persistent h.rest :).trans hd.backend
      have hrec : kv (.dagBlocks, x.asBytes) = some (r.block.encode b) :=
        (hd.blocks.row x).trans (by rw [hx, Option.map_some])
      simp only [if_pos hs, loadFullBlock, hback, hrec, r.block.decode_encode, hd.named x b hx,
        if_true]
    · cases hentry.symm.trans ((hfull hs).trans hx)
      simp only [if_neg hs]

theorem Resembles.update {f : DagStore → DagStore} (hshell : ∀ e, shell (f e) = f (shell e))
    (hblocks : ∀ e, (f e).blocks = e.blocks) : Resembles { s with dag := f s.dag } (f d) where
  rest := by rw [hshell, hshell, h.rest]
  stored x := by
    rw [hasBlock, hasBlock, hblocks, hblocks]
    exact h.stored x
  full x hx := by
    rw [hblocks, hblocks]
    exact h.full x hx

theorem Resembles.evict (old : Hash) : Resembles (s.evict old) d := by
  unfold ResidentStore.evict
  split
  · exact h
  rename_i entry hentry
  refine ⟨h.rest, fun x => ?_, fun x hx => ?_⟩
  · rw [← h.stored, hasBlock, hasBlock, getElem?_insert_ite]
    split
    · rename_i hold
      rw [hold, hentry]
      rfl
    · rfl
  · obtain ⟨hne, hx⟩ := not_or.mp (mt Finset.mem_insert.mpr hx)
    rw [← h.full x hx, getElem?_insert_ite, if_neg hne]

theorem Resembles.boundBodies : Resembles s.boundBodies d := by
  unfold ResidentStore.boundBodies
  have hstart : ∀ order, Resembles { s with residency := { s.residency with order } } d :=
    fun _ => ⟨h.rest, h.stored, h.full⟩
  refine List.foldlRecOn (motive := fun s => Resembles s d) _ _ (hstart _) ?_
  exact fun s hs x _ => hs.evict x

theorem Resembles.store {b : Block} {order : List Hash} : Resembles { s with
      dag := (s.dag.persist (storeOps r s.dag b)).storeInMemory b
      residency := { s.residency with order } } ((d.persist (storeOps r d b)).storeInMemory b) := by
  refine ⟨congrArg (fun dag => shell ((dag.persist (storeOps r dag b)).storeInMemory b)) h.rest,
    fun x => ?_, fun x hx => ?_⟩
  · have hstored := h.stored x
    simp only [hasBlock, storeInMemory, persist, getElem?_insert_ite] at hstored ⊢
    split
    · rfl
    · exact hstored
  · have hfull := h.full x hx
    simp only [storeInMemory, persist, getElem?_insert_ite] at hfull ⊢
    rw [hfull]

theorem Resembles.pruneHash (hash : Hash) : Resembles (s.pruneHash hash) (d.pruneHash hash) := by
  have hstored := h.stored
  unfold ResidentStore.pruneHash DagStore.pruneHash
  rw [hstored]
  cases d.hasBlock hash with
  | false => exact h
  | true =>
    refine ⟨congrArg (·.persist (pruneOps hash)) h.rest, fun x => ?_, fun x hx => ?_⟩
    · have hx := hstored x
      simp only [forgetResidency, hasBlock, persist, if_true, getElem?_erase_ite] at hx ⊢
      split
      · rfl
      · exact hx
    · simp only [forgetResidency, persist, if_true, getElem?_erase_ite] at hx ⊢
      split
      · rfl
      · rename_i hne
        exact h.full x fun hs => hx (Finset.mem_erase.mpr ⟨hne, hs⟩)

theorem Resembles.pruneHeight (height : UInt64) :
    Resembles (s.pruneHeight height) (d.pruneHeight height) := by
  have hindex : s.dag.blocksByHeight = d.blocksByHeight :=
    (congrArg DagStore.blocksByHeight h.rest :)
  unfold ResidentStore.pruneHeight DagStore.pruneHeight
  rw [hindex]
  cases d.blocksByHeight[height]? with
  | none => exact h
  | some hashes =>
    have hstart := h.update (f := fun dag => { dag with
      blocksByHeight := d.blocksByHeight.erase height }) (fun _ => rfl) fun _ => rfl
    exact (List.foldl_rel hstart fun hash _ _ _ h => h.pruneHash hash).update
      (f := (·.persist [.delete (.dagHeightIndex, heightKey height)])) (fun _ => rfl) fun _ => rfl

end

/-- The store resembles one without a bound, which holds the blocks of `t`. -/
structure Shows (r : DagRules) (t : Kept) (s : ResidentStore) (d : DagStore) : Prop where
  resembles : Resembles s d
  recorded : ∃ rows kv, Recorded r d rows kv
  indexed : Indexed d
  stored : ∀ x, d.blocks[x]? = t.stored x
  point : d.pruningPoint = t.point

variable {t : Kept}

section

variable (h : Shows r t s d)
include h

theorem Shows.storeBlock {b : Block} {fault : Option String}
    (hs : s.storeBlock r b fault = .ok s') : ∃ d', Shows r (t.after (.storeBlock b)) s' d' := by
  unfold ResidentStore.storeBlock at hs
  split at hs
  · cases hs
  rename_i dag hdag
  obtain ⟨hnew, rfl⟩ := storeBlock_ok hdag
  obtain ⟨_, kv, hkv⟩ := h.recorded
  have hfresh : d.blocks[b.hash]? = none := by
    have hsame := h.resembles.stored b.hash
    rw [hasBlock, hnew, hasBlock] at hsame
    exact Option.not_isSome_iff_eq_none.mp (hsame ▸ Bool.false_ne_true)
  have hback : s.dag.persistent.isSome = true :=
    congrArg Option.isSome ((congrArg persistent h.resembles.rest :).trans hkv.backend)
  rw [if_pos hback] at hs
  cases hs
  have hindexed : Indexed (d.persist (storeOps r d b)) := { h.indexed with }
  refine ⟨_, h.resembles.store.boundBodies, ⟨_, _, hkv.store⟩, hindexed.store hfresh, fun x => ?_,
    h.point⟩
  simp only [storeInMemory, persist, getElem?_insert_ite, Kept.after, Function.update_apply,
    h.stored]

theorem Shows.prune {n : ℕ} (hs : s.prune r = .ok (n, s')) :
    ∃ d', Shows r (t.after .prune) s' d' := by
  obtain ⟨_, kv, hkv⟩ := h.recorded
  have hpoint : s.dag.pruningPoint = d.pruningPoint := (congrArg pruningPoint h.resembles.rest :)
  have hindex : s.dag.blocksByHeight = d.blocksByHeight :=
    (congrArg DagStore.blocksByHeight h.resembles.rest :)
  unfold ResidentStore.prune at hs
  rw [hpoint, hindex, h.resembles.getBlock hkv, DagStore.getBlock, h.stored, h.point] at hs
  split_ifs at hs with hzero
  · obtain ⟨-, rfl⟩ := Prod.mk.inj (Except.ok.inj hs)
    refine ⟨d, ?_⟩
    have hsame : t.after .prune = t := by
      simp only [Kept.after, hzero]
      split <;> rfl
    rwa [hsame]
  · cases hp : t.stored t.point with
    | none =>
      rw [hp] at hs
      cases hs
    | some point =>
      rw [hp] at hs
      obtain ⟨-, rfl⟩ := Prod.mk.inj (Except.ok.inj hs)
      have hafter : t.after .prune =
          { t with stored := fun x => (t.stored x).filter fun b => !decide (b.height < point.height) } := by
        simp only [Kept.after, hp, if_neg hzero]
      rw [hafter]
      refine ⟨_, List.foldl_rel h.resembles fun height _ _ _ h => h.pruneHeight height,
        List.foldlRecOn (motive := fun d => ∃ rows kv, Recorded r d rows kv) _ _ h.recorded
          fun _ h height _ => Recorded.pruneHeight h height,
        List.foldlRecOn _ _ h.indexed fun _ h height _ => h.pruneHeight height, fun x => ?_, ?_⟩
      · rw [h.indexed.blocks_prune, h.stored]
      · exact List.foldlRecOn (motive := fun e : DagStore => e.pruningPoint = t.point) _ _ h.point
          fun _ he height _ => pruneHeight_keeps (P := fun e => e.pruningPoint = t.point)
            (fun _ _ => id) (fun _ _ => id) (fun _ _ => id) he height

theorem Shows.reload {kv : PersistentStore} {iter : Cf → List (Bytes × Bytes)} {cap : ℕ}
    (hkv : s.dag.persistent = some kv) (hiter : Iterates kv iter)
    (hs : reload r kv iter cap = .ok s') : ∃ d', Shows r t s' d' := by
  obtain ⟨_, kv', hrec⟩ := h.recorded
  have hback : s.dag.persistent = some kv' :=
    (congrArg persistent h.resembles.rest :).trans hrec.backend
  obtain rfl := Option.some.inj (hback.symm.trans hkv)
  rw [ResidentStore.reload, hrec.load hiter] at hs
  cases hs
  refine ⟨loadedStore r kv' iter, ⟨rfl, fun x => ?_, fun x hx => ?_⟩, ⟨_, _, hrec.reopened hiter⟩,
    h.indexed.reopened hrec hiter, ?_, ?_⟩
  · simp [hasBlock]
  · simp_all [ExtTreeMap.mem_keys]
  · rw [hrec.loaded_blocks hiter]
    exact h.stored
  · exact hrec.point.trans h.point

theorem Shows.step {call : DagCall} (hs : ResidentStep r s call s') :
    ∃ d', Shows r (t.after call) s' d' := by
  obtain ⟨_, kv, hkv⟩ := h.recorded
  cases hs with
  | storeBlock hs => exact h.storeBlock hs
  | @finalizeBlock hash _ hs =>
    obtain rfl := finalizeBlock_ok hs
    exact ⟨_, h.resembles.update (f := fun dag => { dag with
      finalized := insert hash dag.finalized }.persist [.put (.dagFinalized, hash.asBytes) [1]])
      (fun _ => rfl) fun _ => rfl, ⟨_, _, hkv.finalize hash⟩, { h.indexed with }, h.stored, h.point⟩
  | @updatePruningPoint hash _ hs =>
    obtain rfl := updatePruningPoint_ok hs
    exact ⟨_, h.resembles.update (f := fun dag => { dag with pruningPoint := hash }.persist
      [.put (.dagMetadata, pruningPointKey) hash.asBytes]) (fun _ => rfl) fun _ => rfl,
      ⟨_, _, hkv.movePoint hash⟩, { h.indexed with }, h.stored, rfl⟩
  | prune hs => exact h.prune hs
  | reopen hkv hiter hs => exact h.reload hkv hiter hs

end

def openedWith (cap : ℕ) : ResidentStore := { dag := opened, residentBodyCap := cap }

/-- A read returns the block that was stored and not pruned, whatever the bound. -/
theorem getBlock_ignores_residency {cap : ℕ} {calls : List DagCall}
    (hr : Runs (ResidentStep r) (openedWith cap) calls s) (x : Hash) :
    s.getBlock r x = match (calls.foldl Kept.after {}).stored x with
      | some b => .ok b
      | none => .error (.blockNotFound x) := by
  obtain ⟨d, h⟩ : ∃ d, Shows r (calls.foldl Kept.after {}) s d := by
    refine hr.history (P := fun calls s => ∃ d, Shows r (calls.foldl Kept.after {}) s d) ?_ ?_
    · exact ⟨opened, ⟨rfl, fun _ => rfl, fun _ _ => rfl⟩, ⟨_, _, opened_mirrors.toRecorded⟩,
        opened_indexed, fun x => by simp [opened], rfl⟩
    · rintro calls s call s' ⟨d, h⟩ hs
      rw [List.foldl_append]
      exact h.step hs
  obtain ⟨_, kv, hkv⟩ := h.recorded
  exact (h.resembles.getBlock hkv x).trans (h.stored x ▸ rfl)

theorem storeBlock_bounds {b : Block} (hnew : s.dag.hasBlock b.hash = false)
    (hback : s.dag.persistent.isSome = true) : s.storeBlock permissive b none = .ok { s with
        dag := (s.dag.persist (storeOps permissive s.dag b)).storeInMemory b
        residency := { s.residency with order := s.residency.order ++ [b.hash] } }.boundBodies := by
  rw [storeBlock, storeBlock_permissive hnew, hback]
  rfl

theorem getBlock_ignores_residency_evicted : ∃ s, Runs (ResidentStep permissive) (openedWith 0)
    [.storeBlock looseGenesis, .storeBlock looseBlock] s ∧
      s.getBlock permissive 2 = .ok looseBlock := by
  have hrun := Runs.head (ResidentStep.storeBlock (r := permissive) (s := openedWith 0)
    (storeBlock_bounds (b := looseGenesis) (by decide) rfl))
    (.head (.storeBlock (storeBlock_bounds (b := looseBlock) (by decide) rfl)) .refl)
  exact ⟨_, hrun, getBlock_ignores_residency hrun 2⟩

end ResidentStore

end CitrateChain.Consensus
