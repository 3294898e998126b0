import CitrateChain.Consensus.DagRestart

/-! # Purging blocks from the backend of the DAG store

Before a store is loaded, blocks that are no longer valid are removed from the backend, with the
records that name them. The records of finalized blocks are not looked at. -/
namespace CitrateChain.Consensus.DagStore
open Transition KvStore
open Std (ExtTreeMap)

def isDoomed (doomed : List Hash) (key : Bytes) : Bool :=
  (Hash.ofBytes? key).any fun hash => decide (hash ∈ doomed)

def keptHashes (doomed hashes : List Hash) : List Hash := hashes.filter (· ∉ doomed)

def purgeBlock (doomed : List Hash) (e : Bytes × Bytes) : Option (KvOp Bytes Bytes) :=
  if isDoomed doomed e.1 then some (.delete e.1) else none

def purgeChildren (r : DagRules) (doomed : List Hash) (e : Bytes × Bytes) :
    Option (KvOp Bytes Bytes) :=
  if isDoomed doomed e.1 then some (.delete e.1)
  else
    match r.children.decode e.2 with
    | none => none
    | some (parent, list) =>
      if list.any (· ∈ doomed) then
        some (.put parent.asBytes (r.children.encode (parent, keptHashes doomed list)))
      else none

def purgeHeight (r : DagRules) (doomed : List Hash) (e : Bytes × Bytes) : Option (KvOp Bytes Bytes) :=
  match r.hashes.decode e.2 with
  | none => none
  | some list =>
    if list.any (· ∈ doomed) then
      if (keptHashes doomed list).isEmpty then some (.delete e.1)
      else some (.put e.1 (r.hashes.encode (keptHashes doomed list)))
    else none

def inCf (cf : Cf) : KvOp Bytes Bytes → DagOp
  | .put key value => .put (cf, key) value
  | .delete key => .delete (cf, key)

def purgeOps (r : DagRules) (iter : Cf → List (Bytes × Bytes)) (doomed : List Hash) : List DagOp :=
  ((iter .dagBlocks).filterMap (purgeBlock doomed)).map (inCf .dagBlocks) ++
    doomed.flatMap (fun h => [.delete (.dagTips, h.asBytes), .delete (.dagMetadata, scoreKey h)]) ++
    ((iter .dagChildren).filterMap (purgeChildren r doomed)).map (inCf .dagChildren) ++
    ((iter .dagHeightIndex).filterMap (purgeHeight r doomed)).map (inCf .dagHeightIndex)

/-- `iter` is what the backend iterates, `fault` what it reports when it refuses the batch. -/
def purgePersistedBlocks (r : DagRules) (kv : PersistentStore) (iter : Cf → List (Bytes × Bytes))
    (doomed : List Hash) (fault : Option String) : Except DagStoreError (ℕ × PersistentStore) :=
  if doomed.isEmpty then .ok (0, kv)
  else
    match fault with
    | some text => .error (.storageError ("purge batch: " ++ text))
    | none =>
      .ok ((iter .dagBlocks).countP (fun e => isDoomed doomed e.1),
        kv.writeBatch (purgeOps r iter doomed))

variable {r : DagRules} {full clean : DagStore} {kv kv₁ kv₂ : PersistentStore}
  {iter : Cf → List (Bytes × Bytes)} {doomed : List Hash}

theorem filterMap_inCf (c c' : Cf) (ops : List (KvOp Bytes Bytes)) :
    (ops.map (inCf c')).filterMap (inColumn c) = if c' = c then ops else [] := by
  induction ops with
  | nil => simp
  | cons op ops ih =>
    rw [List.map_cons, List.filterMap_cons, ih]
    by_cases hc : c' = c <;> cases op <;> simp [inCf, inColumn, hc]

theorem column_purgeOps (c : Cf) : (kv.writeBatch (purgeOps r iter doomed)).column c =
    (kv.column c).writeBatch (match c with
      | .dagBlocks => (iter .dagBlocks).filterMap (purgeBlock doomed)
      | .dagChildren => (iter .dagChildren).filterMap (purgeChildren r doomed)
      | .dagHeightIndex => (iter .dagHeightIndex).filterMap (purgeHeight r doomed)
      | .dagTips => doomed.map fun h => .delete h.asBytes
      | .dagMetadata => doomed.map fun h => .delete (scoreKey h)
      | .dagFinalized => []) := by
  rw [column_writeBatch]
  have hnil : doomed.flatMap (fun _ => ([] : List (KvOp Bytes Bytes))) = [] :=
    List.flatMap_eq_nil_iff.mpr fun _ _ => rfl
  simp only [purgeOps, List.filterMap_append, filterMap_inCf]
  cases c <;> simp [List.filterMap_flatMap, inColumn, List.map_eq_flatMap, hnil]

theorem purgeOps_nil : purgeOps r iter [] = [] := by
  have hblock : purgeBlock [] = fun _ => none := funext fun e => by simp [purgeBlock, isDoomed]
  have hchildren : purgeChildren r [] = fun _ => none := funext fun e => by
    cases hd : r.children.decode e.2 <;> simp [purgeChildren, isDoomed, hd]
  have hheight : purgeHeight r [] = fun _ => none := funext fun e => by
    cases hd : r.hashes.decode e.2 <;> simp [purgeHeight, hd]
  simp [purgeOps, hblock, hchildren, hheight]

theorem isDoomed_asBytes (x : Hash) : isDoomed doomed x.asBytes = decide (x ∈ doomed) := by
  rw [isDoomed, Hash.ofBytes?_asBytes, Option.any_some]

variable {rows : Hash → Option (List Hash)}

theorem Recorded.purge_blocks (hm : Recorded r full rows kv) (hi : Iterates kv iter) :
    ((kv.writeBatch (purgeOps r iter doomed)).column .dagBlocks).Holds Hash.asBytes fun x =>
      if x ∈ doomed then none else (full.blocks[x]?).map r.block.encode := by
  rw [column_purgeOps]
  refine (hm.blocks.writeBatch_filterMap (hi.mem .dagBlocks) ?_).congr fun x => ?_
  · intro x v op _ hop
    exact Option.some.inj (Option.ite_none_right_eq_some.mp hop).2 ▸ rfl
  · simp only [purgeBlock, isDoomed_asBytes]
    by_cases hx : x ∈ doomed <;> cases full.blocks[x]? <;> simp [hx, KvOp.value]

theorem purgeChildren_eq (x : Hash) (l : List Hash) :
    purgeChildren r doomed (x.asBytes, r.children.encode (x, l)) =
      if x ∈ doomed then some (.delete x.asBytes)
      else if l.any (· ∈ doomed) then
        some (.put x.asBytes (r.children.encode (x, keptHashes doomed l)))
      else none := by
  simp only [purgeChildren, isDoomed_asBytes, r.children.decode_encode, decide_eq_true_eq]

theorem Recorded.purge_children (hm : Recorded r full rows kv) (hi : Iterates kv iter) :
    ((kv.writeBatch (purgeOps r iter doomed)).column .dagChildren).Holds Hash.asBytes fun x =>
      ((if x ∈ doomed then none else (rows x).map (keptHashes doomed)).map (Prod.mk x)).map
        r.children.encode := by
  rw [column_purgeOps]
  refine (hm.children.writeBatch_filterMap (hi.mem .dagChildren) ?_).congr fun x => ?_
  · intro x v op hv hop
    simp only [Option.map_map, Option.map_eq_some_iff, Function.comp_apply] at hv
    obtain ⟨l, -, rfl⟩ := hv
    rw [purgeChildren_eq] at hop
    split_ifs at hop <;> exact Option.some.inj hop ▸ rfl
  cases rows x with
  | none => simp
  | some l =>
    simp only [Option.map_some, Option.bind_some, purgeChildren_eq]
    by_cases hx : x ∈ doomed
    · simp [hx, KvOp.value]
    · by_cases hany : l.any (· ∈ doomed)
      · simp [hx, hany, KvOp.value]
      · have hkeep : keptHashes doomed l = l := List.filter_eq_self.mpr (by simpa using hany)
        simp [hx, hany, hkeep]

def Grows : DagCall → Prop
  | .storeBlock _ | .finalizeBlock _ => True
  | _ => False

def keepsCall (doomed : List Hash) : DagCall → Bool
  | .storeBlock b => b.hash ∉ doomed
  | .finalizeBlock hash => hash ∉ doomed
  | _ => true

/-- `clean` is `full` without the doomed blocks, and the child records are those in memory. -/
structure Spared (r : DagRules) (doomed : List Hash) (full clean : DagStore)
    (kv₁ kv₂ : PersistentStore) : Prop where
  fullRecorded : Recorded r full (full.children[·]?) kv₁
  cleanRecorded : Recorded r clean (clean.children[·]?) kv₂
  indexed : Indexed clean
  blocks : ∀ x : Hash, clean.blocks[x]? = if x ∈ doomed then none else full.blocks[x]?
  finalized : ∀ x, x ∈ clean.finalized ↔ x ∈ full.finalized ∧ x ∉ doomed
  point : clean.pruningPoint = full.pruningPoint
  children : ∀ x, clean.getChildren x =
    if x ∈ doomed then [] else keptHashes doomed (full.getChildren x)

variable {b : Block}

theorem Recorded.storeExact {dag : DagStore} (hm : Recorded r dag (dag.children[·]?) kv)
    (hnodup : (linkedParents b).Nodup) :
    Recorded r ((dag.persist (storeOps r dag b)).storeInMemory b)
      (((dag.persist (storeOps r dag b)).storeInMemory b).children[·]?)
      (kv.writeBatch (storeOps r dag b)) := by
  have hrows : storeRows dag b (dag.children[·]?) = ((dag.storeInMemory b).children[·]?) :=
    funext fun x => (children_storeInMemory hnodup x).symm
  have hstore := hm.store (b := b)
  rwa [hrows] at hstore

theorem getChildren_storeInMemory {dag : DagStore} (hnodup : (linkedParents b).Nodup) (x : Hash) :
    ((dag.persist (storeOps r dag b)).storeInMemory b).getChildren x = if x = b.hash then []
      else if x ∈ linkedParents b then dag.getChildren x ++ [b.hash] else dag.getChildren x := by
  have hrow : ((dag.persist (storeOps r dag b)).storeInMemory b).children[x]? =
    storeRows dag b (dag.children[·]?) x := children_storeInMemory hnodup x
  simp only [getChildren, ExtTreeMap.getD_eq_getD_getElem?, hrow, storeRows]
  split_ifs <;> rfl

section

variable (h : Spared r doomed full clean kv₁ kv₂)
include h

theorem Spared.storeKept (hnodup : (linkedParents b).Nodup) (hb : b.hash ∉ doomed)
    (hp : ∀ p ∈ linkedParents b, p ∉ doomed) (hnew : clean.blocks[b.hash]? = none) :
    Spared r doomed ((full.persist (storeOps r full b)).storeInMemory b)
      ((clean.persist (storeOps r clean b)).storeInMemory b)
      (kv₁.writeBatch (storeOps r full b)) (kv₂.writeBatch (storeOps r clean b)) where
  __ := h
  fullRecorded := h.fullRecorded.storeExact hnodup
  cleanRecorded := h.cleanRecorded.storeExact hnodup
  indexed := by
    have hindexed : Indexed (clean.persist (storeOps r clean b)) := { h.indexed with }
    exact hindexed.store hnew
  blocks x := by
    simp only [storeInMemory, persist, TreeMap.getElem?_insert_ite, h.blocks]
    by_cases hx : x = b.hash
    · simp [hx, hb]
    · simp [hx]
  children x := by
    simp only [getChildren_storeInMemory hnodup, h.children]
    by_cases hx : x = b.hash
    · simp [hx, hb, keptHashes]
    · by_cases hmem : x ∈ linkedParents b
      · simp [hx, hmem, hp x hmem, keptHashes, hb]
      · simp [hx, hmem]

theorem Spared.storeDoomed (hnodup : (linkedParents b).Nodup) (hb : b.hash ∈ doomed) :
    Spared r doomed ((full.persist (storeOps r full b)).storeInMemory b) clean
      (kv₁.writeBatch (storeOps r full b)) kv₂ :=
  { h with
    fullRecorded := h.fullRecorded.storeExact hnodup
    blocks := fun x => by
      simp only [storeInMemory, persist, TreeMap.getElem?_insert_ite, h.blocks]
      by_cases hx : x = b.hash
      · simp [hx, hb]
      · simp [hx]
    children := fun x => by
      simp only [getChildren_storeInMemory hnodup, h.children]
      by_cases hx : x = b.hash
      · simp [hx, hb]
      · by_cases hmem : x ∈ linkedParents b
        · simp [hx, hmem, keptHashes, hb]
        · simp [hx, hmem] }

theorem Spared.step {call : DagCall} {full' : DagStore} (hs : DagStep r full call full')
    (hgrows : Grows call) (hnodup : ∀ b, call = .storeBlock b → (linkedParents b).Nodup)
    (hclosed : ∀ b, call = .storeBlock b → (∃ p ∈ linkedParents b, p ∈ doomed) → b.hash ∈ doomed) :
    (keepsCall doomed call = false → ∃ kv₁', Spared r doomed full' clean kv₁' kv₂) ∧
      ∀ clean', keepsCall doomed call = true → DagStep r clean call clean' →
        ∃ kv₁' kv₂', Spared r doomed full' clean' kv₁' kv₂' := by
  cases hs with
  | @storeBlock b fault _ hs =>
    obtain ⟨-, rfl⟩ := storeBlock_ok hs
    refine ⟨fun hb => ⟨_, h.storeDoomed (hnodup b rfl) (by simpa [keepsCall] using hb)⟩, ?_⟩
    rintro clean' hb (⟨hs'⟩)
    obtain ⟨hnew, rfl⟩ := storeBlock_ok hs'
    have hkept : b.hash ∉ doomed := by simpa [keepsCall] using hb
    exact ⟨_, _, h.storeKept (hnodup b rfl) hkept
      (fun p hp hdoom => hkept (hclosed b rfl ⟨p, hp, hdoom⟩)) hnew⟩
  | @finalizeBlock hash _ hs =>
    obtain rfl := finalizeBlock_ok hs
    refine ⟨fun hb => ⟨_, { h with
      fullRecorded := h.fullRecorded.finalize hash, finalized := fun x => ?_ }⟩, ?_⟩
    · have hdoom : hash ∈ doomed := by simpa [keepsCall] using hb
      rw [h.finalized]
      change _ ↔ x ∈ insert hash full.finalized ∧ _
      rw [Finset.mem_insert]
      refine ⟨fun hx => ⟨.inr hx.1, hx.2⟩, fun ⟨hx, hfree⟩ => ⟨hx.resolve_left ?_, hfree⟩⟩
      rintro rfl
      exact hfree hdoom
    · rintro clean' hb (- | ⟨hs'⟩)
      obtain rfl := finalizeBlock_ok hs'
      have hkept : hash ∉ doomed := by simpa [keepsCall] using hb
      refine ⟨_, _, { h with
        fullRecorded := h.fullRecorded.finalize hash
        cleanRecorded := h.cleanRecorded.finalize hash
        indexed := { h.indexed with }
        finalized := fun x => ?_ }⟩
      change x ∈ insert hash clean.finalized ↔ x ∈ insert hash full.finalized ∧ _
      rw [Finset.mem_insert, Finset.mem_insert, h.finalized, or_and_right]
      refine or_congr_left ⟨fun hx => ⟨hx, hx ▸ hkept⟩, And.left⟩
  | updatePruningPoint _ | prune _ | reopen _ _ _ => exact hgrows.elim

end

theorem Runs.spared {calls : List DagCall} (hr : Runs (DagStep r) opened calls full)
    (hr' : Runs (DagStep r) opened (calls.filter (keepsCall doomed)) clean)
    (hgrows : ∀ call ∈ calls, Grows call)
    (hnodup : ∀ b, .storeBlock b ∈ calls → (linkedParents b).Nodup)
    (hclosed : ∀ b, .storeBlock b ∈ calls → (∃ p ∈ linkedParents b, p ∈ doomed) → b.hash ∈ doomed) :
    ∃ kv₁ kv₂, Spared r doomed full clean kv₁ kv₂ := by
  induction hr generalizing clean with
  | refl =>
    obtain rfl := Runs.of_nil hr'
    have hrec : Recorded r opened (opened.children[·]?) fun _ => none := by
      simpa [opened] using opened_mirrors.toRecorded
    refine ⟨_, _, hrec, hrec, opened_indexed, fun x => ?_, fun x => ?_, rfl, fun x => ?_⟩
    all_goals simp [opened, getChildren, keptHashes]
  | @step calls full call full' _ hs ih =>
    have hmem : call ∈ calls ++ [call] := List.mem_append_right _ (List.mem_singleton_self _)
    have ih : ∀ {clean}, Runs (DagStep r) opened (calls.filter (keepsCall doomed)) clean →
        ∃ kv₁ kv₂, Spared r doomed full clean kv₁ kv₂ := fun hr' =>
      ih hr' (fun c hc => hgrows c (List.mem_append_left _ hc))
        (fun b hb => hnodup b (List.mem_append_left _ hb))
        fun b hb => hclosed b (List.mem_append_left _ hb)
    rw [List.filter_append] at hr'
    cases hkeep : keepsCall doomed call with
    | false =>
      rw [List.filter_singleton, hkeep, cond_false, List.append_nil] at hr'
      obtain ⟨kv₁, kv₂, h⟩ := ih hr'
      obtain ⟨hdrop, -⟩ := h.step hs (hgrows call hmem) (fun b hb => hnodup b (hb ▸ hmem))
        fun b hb => hclosed b (hb ▸ hmem)
      obtain ⟨kv₁', h'⟩ := hdrop hkeep
      exact ⟨kv₁', kv₂, h'⟩
    | true =>
      rw [List.filter_singleton, hkeep] at hr'
      obtain ⟨clean', hrun, hs'⟩ := Runs.snoc_inv hr'
      obtain ⟨kv₁, kv₂, h⟩ := ih hrun
      obtain ⟨-, hkept⟩ := h.step hs (hgrows call hmem) (fun b hb => hnodup b (hb ▸ hmem))
        fun b hb => hclosed b (hb ▸ hmem)
      exact hkept clean hkeep hs'

structure SameLoaded (a b : DagStore) : Prop where
  blocks : a.blocks = b.blocks
  tips : a.tips = b.tips
  children : ∀ x, a.getChildren x = b.getChildren x
  heights : ∀ n, (a.blocksByHeight.getD n []).Perm (b.blocksByHeight.getD n [])
  finalized : a.finalized = b.finalized
  pruningPoint : a.pruningPoint = b.pruningPoint

section

variable (h : Spared r doomed full clean kv₁ kv₂) (hi : Iterates kv₁ iter)
include h hi

theorem Spared.purged :
    Recorded r { clean with
      finalized := full.finalized, persistent := some (kv₁.writeBatch (purgeOps r iter doomed)) }
      (fun x => if x ∈ doomed then none else (full.children[x]?).map (keptHashes doomed))
      (kv₁.writeBatch (purgeOps r iter doomed)) where
  backend := rfl
  named := h.cleanRecorded.named
  blocks := by
    refine (h.fullRecorded.purge_blocks hi).congr fun x => ?_
    rw [h.blocks]
    split_ifs <;> rfl
  children := h.fullRecorded.purge_children hi
  finalized := by
    rw [column_purgeOps]
    exact h.fullRecorded.finalized
  point := by
    have hkeep : (kv₁.writeBatch (purgeOps r iter doomed)).column .dagMetadata pruningPointKey =
        kv₁.column .dagMetadata pruningPointKey := by
      rw [column_purgeOps]
      refine writeBatch_of_forall_ne fun op hop => ?_
      obtain ⟨x, -, rfl⟩ := List.mem_map.mp hop
      exact (scoreKey_ne x).symm
    rw [hkeep, h.fullRecorded.point]
    exact h.point.symm

theorem Spared.purge_iff :
    ∃ n kv, purgePersistedBlocks r kv₁ iter doomed none = .ok (n, kv) ∧
      ∀ iter₁ iter₂, Iterates kv iter₁ → Iterates kv₂ iter₂ → ∃ purged never,
        loadFromPersistent r kv iter₁ = .ok purged ∧ loadFromPersistent r kv₂ iter₂ = .ok never ∧
          (SameLoaded purged never ↔ ∀ x ∈ full.finalized, x ∉ doomed) := by
  obtain ⟨n, hpurge⟩ : ∃ n, purgePersistedBlocks r kv₁ iter doomed none =
      .ok (n, kv₁.writeBatch (purgeOps r iter doomed)) := by
    unfold purgePersistedBlocks
    split_ifs with hnone
    · rw [List.isEmpty_iff.mp hnone, purgeOps_nil]
      exact ⟨0, rfl⟩
    · exact ⟨_, rfl⟩
  refine ⟨n, _, hpurge, fun iter₁ iter₂ hi₁ hi₂ => ?_⟩
  have hp := h.purged hi
  have hn := h.cleanRecorded
  have hblocks := (hp.loaded_blocks hi₁).trans (hn.loaded_blocks hi₂).symm
  refine ⟨_, _, hp.load hi₁, hn.load hi₂, fun hsame x hx hdoom => ?_, fun hfree => ?_⟩
  · have hfin := hsame.finalized
    rw [hp.loaded_finalized hi₁, hn.loaded_finalized hi₂] at hfin
    exact ((h.finalized x).mp (hfin ▸ hx)).2 hdoom
  refine ⟨hblocks, congrArg derivedTips hblocks, fun x => ?_, fun n => ?_, ?_, ?_⟩
  · have hchildren := h.children x
    simp only [getChildren, ExtTreeMap.getD_eq_getD_getElem?] at hchildren ⊢
    rw [hp.loaded_children hi₁, hn.loaded_children hi₂, hchildren]
    split_ifs
    · rfl
    · cases full.children[x]? <;> rfl
  · exact (hp.loaded_heights hi₁ { h.indexed with } n).trans (hn.loaded_heights hi₂ h.indexed n).symm
  · rw [hp.loaded_finalized hi₁, hn.loaded_finalized hi₂]
    ext x
    rw [h.finalized]
    exact ⟨fun hx => ⟨hx, hfree x hx⟩, And.left⟩
  · exact hp.point.trans hn.point.symm

end

/-- Where no block names a parent twice, the purge of a set that is closed under descendants leaves
what a store without these blocks would load, unless one of them was finalized. -/
theorem purge_equals_never_stored_iff {calls : List DagCall}
    (hr : Runs (DagStep r) opened calls full)
    (hr' : Runs (DagStep r) opened (calls.filter (keepsCall doomed)) clean)
    (hgrows : ∀ call ∈ calls, Grows call)
    (hclosed : ∀ b, .storeBlock b ∈ calls → (∃ p ∈ linkedParents b, p ∈ doomed) → b.hash ∈ doomed)
    (hnodup : ∀ b, .storeBlock b ∈ calls → (linkedParents b).Nodup) :
    ∃ kv₁ kv₂, full.persistent = some kv₁ ∧ clean.persistent = some kv₂ ∧
      ∀ iter, Iterates kv₁ iter → ∃ n kv, purgePersistedBlocks r kv₁ iter doomed none = .ok (n, kv) ∧
        ∀ iter₁ iter₂, Iterates kv iter₁ → Iterates kv₂ iter₂ → ∃ purged never,
          loadFromPersistent r kv iter₁ = .ok purged ∧ loadFromPersistent r kv₂ iter₂ = .ok never ∧
            (SameLoaded purged never ↔ ∀ x ∈ full.finalized, x ∉ doomed) := by
  obtain ⟨kv₁, kv₂, h⟩ := Runs.spared hr hr' hgrows hnodup hclosed
  exact ⟨kv₁, kv₂, h.fullRecorded.backend, h.cleanRecorded.backend, fun iter hi => h.purge_iff hi⟩

theorem Written.iterates_purged (h : Written (some kv₁)) (h' : Written (some kv₂)) :
    ∃ iter iter₁ iter₂, Iterates kv₁ iter ∧
      Iterates (kv₁.writeBatch (purgeOps r iter doomed)) iter₁ ∧ Iterates kv₂ iter₂ := by
  obtain ⟨iter, hi⟩ := h.iterates
  obtain ⟨iter₁, hi₁⟩ := (h.persist (purgeOps r iter doomed)).iterates
  obtain ⟨iter₂, hi₂⟩ := h'.iterates
  exact ⟨iter, iter₁, iter₂, hi, hi₁, hi₂⟩

/-- What is loaded after a purge, and by a store that never had the purged blocks. -/
def Compared (calls : List DagCall) (doomed : List Hash) (full purged never : DagStore) : Prop :=
  ∃ clean kv₁ kv₂ iter n kv iter₁ iter₂, Runs (DagStep permissive) opened calls full ∧
    Runs (DagStep permissive) opened (calls.filter (keepsCall doomed)) clean ∧
    full.persistent = some kv₁ ∧ clean.persistent = some kv₂ ∧ Iterates kv₁ iter ∧
    purgePersistedBlocks permissive kv₁ iter doomed none = .ok (n, kv) ∧
    Iterates kv iter₁ ∧ Iterates kv₂ iter₂ ∧ loadFromPersistent permissive kv iter₁ = .ok purged ∧
    loadFromPersistent permissive kv₂ iter₂ = .ok never

def chainCalls : List DagCall :=
  [.storeBlock looseGenesis, .finalizeBlock 1, .storeBlock heirBlock, .storeBlock headBlock]

theorem purge_equals_never_stored_iff_chain : ∃ full purged never,
    Compared chainCalls [3, 4] full purged never ∧ full.getChildren 1 = [3] ∧ SameLoaded purged never := by
  obtain ⟨full, hs, hchildren, hfinalized⟩ := Runs.exists_foldlM tryCall opened chainCalls
    (p := fun dag => dag.getChildren 1 = [3] ∧ dag.finalized = {1}) (by decide)
  obtain ⟨clean, hs', -⟩ := Runs.exists_foldlM tryCall opened (chainCalls.filter (keepsCall [3, 4]))
    (p := fun _ => True) (by decide)
  have hr := hs.imp fun _ _ _ _ h => tryCall_step h
  have hr' := hs'.imp fun _ _ _ _ h => tryCall_step h
  have hclosed : ∀ b, .storeBlock b ∈ chainCalls →
      (∃ p ∈ linkedParents b, p ∈ [(3 : Hash), 4]) → b.hash ∈ [(3 : Hash), 4] := by
    simp only [chainCalls, List.mem_cons, DagCall.storeBlock.injEq, List.not_mem_nil, or_false,
      reduceCtorEq, false_or]
    rintro b (rfl | rfl | rfl)
    · rintro ⟨p, ⟨⟩, -⟩
    · exact fun _ => by decide
    · exact fun _ => by decide
  obtain ⟨kv₁, kv₂, hkv₁, hkv₂, hpurge⟩ := purge_equals_never_stored_iff hr hr'
    (by simp [chainCalls, Grows]) hclosed (by simp +decide [chainCalls])
  obtain ⟨iter, iter₁, iter₂, hi, hi₁, hi₂⟩ :=
    (hkv₁ ▸ Runs.written hr).iterates_purged (hkv₂ ▸ Runs.written hr')
  obtain ⟨n, kv, hok, hload⟩ := hpurge iter hi
  obtain rfl : kv₁.writeBatch (purgeOps permissive iter [3, 4]) = kv :=
    congrArg Prod.snd (Except.ok.inj hok)
  obtain ⟨purged, never, hpurged, hnever, hsame⟩ := hload iter₁ iter₂ hi₁ hi₂
  refine ⟨full, purged, never, ⟨clean, kv₁, kv₂, iter, n, _, iter₁, iter₂, hr, hr', hkv₁, hkv₂, hi, hok,
    hi₁, hi₂, hpurged, hnever⟩, hchildren, hsame.mpr ?_⟩
  simp [hfinalized]

-- two unconnected blocks, of which the second is finalized and purged
def finalizedCalls : List DagCall :=
  [.storeBlock looseGenesis, .storeBlock looseBlock, .finalizeBlock 2]

theorem purge_keeps_finalized : ∃ full purged never, Compared finalizedCalls [2] full purged never ∧
    (2 : Hash) ∈ purged.finalized ∧ (2 : Hash) ∉ never.finalized := by
  obtain ⟨full, hs, hfinalized⟩ := Runs.exists_foldlM tryCall opened finalizedCalls
    (p := fun dag => (2 : Hash) ∈ dag.finalized) (by decide)
  obtain ⟨clean, hs', -⟩ := Runs.exists_foldlM tryCall opened (finalizedCalls.filter (keepsCall [2]))
    (p := fun _ => True) (by decide)
  have hr := hs.imp fun _ _ _ _ h => tryCall_step h
  have hr' := hs'.imp fun _ _ _ _ h => tryCall_step h
  have hroots : ∀ b, .storeBlock b ∈ finalizedCalls → linkedParents b = [] := by
    simp +decide [finalizedCalls]
  obtain ⟨kv₁, kv₂, h⟩ := Runs.spared hr hr' (by simp [finalizedCalls, Grows])
    (fun b hb => hroots b hb ▸ List.nodup_nil)
    fun b hb ⟨_, hp, _⟩ => absurd (hroots b hb ▸ hp) List.not_mem_nil
  have hback := h.fullRecorded.backend
  have hback' := h.cleanRecorded.backend
  obtain ⟨iter, iter₁, iter₂, hi, hi₁, hi₂⟩ :=
    (hback ▸ Runs.written hr).iterates_purged (hback' ▸ Runs.written hr')
  have hp := h.purged hi
  refine ⟨full, _, _, ⟨clean, kv₁, kv₂, iter, _, _, iter₁, iter₂, hr, hr', hback, hback', hi, rfl, hi₁, hi₂,
    hp.load hi₁, h.cleanRecorded.load hi₂⟩, ?_, ?_⟩
  · rwa [hp.loaded_finalized hi₁]
  · rw [h.cleanRecorded.loaded_finalized hi₂, h.finalized]
    simp

end CitrateChain.Consensus.DagStore
