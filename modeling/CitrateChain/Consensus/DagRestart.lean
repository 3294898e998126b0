import CitrateChain.Base.Result
import CitrateChain.Base.Runs
import CitrateChain.Consensus.DagStore

/-! # Restarting the DAG store

What the backend holds mirrors the blocks, the child lists of stored blocks, the finalized blocks and
the pruning point of the running store. A fresh store loads the same, with the hashes of a height in
the order of the backend, and with the tips that the headers give. -/
namespace CitrateChain.Consensus.DagStore
open Transition KvStore TreeMap Hash
open Std (ExtTreeMap)
variable {r : DagRules} {dag dag' : DagStore} {kv kv' : PersistentStore} {b : Block}
  {rows : Hash → Option (List Hash)}

/-- The records of the backend are those of the blocks, finalized blocks and pruning point in
memory, and `rows` is the child list recorded for each parent. -/
structure Recorded (r : DagRules) (dag : DagStore) (rows : Hash → Option (List Hash))
    (kv : PersistentStore) : Prop where
  backend : dag.persistent = some kv
  named : ∀ (x : Hash) b, dag.blocks[x]? = some b → b.hash = x
  blocks : (kv.column .dagBlocks).Holds asBytes fun x => (dag.blocks[x]?).map r.block.encode
  children : (kv.column .dagChildren).Holds asBytes fun x =>
    ((rows x).map (Prod.mk x)).map r.children.encode
  finalized : (kv.column .dagFinalized).Holds asBytes fun x =>
    if x ∈ dag.finalized then some [1] else none
  point : ((kv.column .dagMetadata pruningPointKey).bind ofBytes?).getD 0 = dag.pruningPoint

/-- The recorded child lists are those in memory; of a block that was pruned none is recorded. -/
structure Mirrors (r : DagRules) (dag : DagStore) (rows : Hash → Option (List Hash))
    (kv : PersistentStore) : Prop extends Recorded r dag rows kv where
  listed : ∀ x l, rows x = some l → dag.children[x]? = some l
  stored : ∀ x ∈ dag.blocks, rows x ≠ none

structure Indexed (dag : DagStore) : Prop where
  mem : ∀ n (x : Hash), x ∈ dag.blocksByHeight.getD n [] ↔ ∃ b, dag.blocks[x]? = some b ∧ b.height = n
  nodup : ∀ n, (dag.blocksByHeight.getD n []).Nodup
  keys : ∀ n, n ∈ dag.blocksByHeight → dag.blocksByHeight.getD n [] ≠ []

/-- `iter` yields every record of every column family once. -/
structure Iterates (kv : PersistentStore) (iter : Cf → List (Bytes × Bytes)) : Prop where
  nodup : ∀ cf, ((iter cf).map Prod.fst).Nodup
  mem : ∀ cf k v, (k, v) ∈ iter cf ↔ kv.column cf k = some v

section Decoded
variable {α β : Type} {c : Codec α} {key : α → Hash} {entry : Hash → Option α}
  {s : KvStore Bytes Bytes} {entries : List (Bytes × Bytes)}
variable (h : s.Holds asBytes fun x => (entry x).map c.encode)
  (hkey : ∀ x a, entry x = some a → key a = x) (hlist : s.ListedBy entries)

def decoded (c : Codec α) (entries : List (Bytes × Bytes)) : List α :=
  entries.filterMap fun e => c.decode e.2

theorem decodeAll_of_forall {what : String} (hd : ∀ e ∈ entries, ∃ a, c.decode e.2 = some a) :
    decodeAll what c entries = .ok (decoded c entries) := by
  induction entries with
  | nil => rfl
  | cons e entries ih =>
    obtain ⟨⟨a, ha⟩, hd⟩ := List.forall_mem_cons.mp hd
    simp only [decodeAll, ha, ih hd, decoded, List.filterMap_cons]
    rfl

include h hkey hlist

theorem exists_decoded {e : Bytes × Bytes} (he : e ∈ entries) :
    ∃ a, entry (key a) = some a ∧ e.1 = (key a).asBytes ∧ c.decode e.2 = some a := by
  have hrow := (hlist e.1 e.2).mp he
  obtain ⟨x, hx⟩ := h.keyed _ _ hrow
  rw [hx, h.row, Option.map_eq_some_iff] at hrow
  obtain ⟨a, ha, hv⟩ := hrow
  obtain rfl := hkey x a ha
  exact ⟨a, ha, hx, by rw [← hv, c.decode_encode]⟩

theorem mem_decoded {a : α} : a ∈ decoded c entries ↔ entry (key a) = some a := by
  rw [decoded, List.mem_filterMap]
  constructor
  · rintro ⟨e, he, hd⟩
    obtain ⟨a', ha', -, hd'⟩ := exists_decoded h hkey hlist he
    cases hd'.symm.trans hd
    exact ha'
  · intro ha
    have hrow : s (key a).asBytes = some (c.encode a) := by
      rw [h.row, ha, Option.map_some]
    exact ⟨_, (hlist _ _).mpr hrow, c.decode_encode a⟩

theorem decodeAll_eq (what : String) : decodeAll what c entries = .ok (decoded c entries) :=
  decodeAll_of_forall fun _ he => (exists_decoded h hkey hlist he).imp fun _ ha => ha.2.2

theorem nodup_decoded (hnodup : (entries.map Prod.fst).Nodup) :
    ((decoded c entries).map key).Nodup := by
  have hkeys : ∀ l ⊆ entries, (decoded c l).map (fun a => (key a).asBytes) = l.map Prod.fst := by
    intro l hl
    induction l with
    | nil => rfl
    | cons e l ih =>
      obtain ⟨he, hl⟩ := List.cons_subset.mp hl
      obtain ⟨a, -, hk, hd⟩ := exists_decoded h hkey hlist he
      have hrest := ih hl
      rw [decoded] at hrest ⊢
      rw [List.filterMap_cons, hd, List.map_cons, List.map_cons, hrest, hk]
  rw [← hkeys _ (List.Subset.refl _)] at hnodup
  exact List.Nodup.of_map asBytes (by rwa [List.map_map])

theorem getElem?_decoded (hnodup : (entries.map Prod.fst).Nodup) (val : α → β) (x : Hash) :
    ((decoded c entries).foldl (fun m a => m.insert (key a) (val a)) (∅ : ExtTreeMap Hash β))[x]? =
      (entry x).map val := by
  ext v
  rw [getElem?_foldl_insert_by (nodup_decoded h hkey hlist hnodup), Option.map_eq_some_iff]
  constructor
  · rintro ⟨a, ha, rfl, rfl⟩
    exact ⟨a, (mem_decoded h hkey hlist).mp ha, rfl⟩
  · rintro ⟨a, ha, rfl⟩
    obtain rfl := hkey x a ha
    exact ⟨a, (mem_decoded h hkey hlist).mpr ha, rfl, rfl⟩

end Decoded

section

variable (bs : List Block) (m : ExtTreeMap UInt64 (List Hash)) (n : UInt64)
include bs m n

theorem foldl_index :
    (bs.foldl (fun m b => m.insert b.height (m.getD b.height [] ++ [b.hash])) m).getD n [] =
      m.getD n [] ++ (bs.filter (·.height = n)).map Block.hash := by
  induction bs generalizing m with
  | nil => simp
  | cons b bs ih =>
    rw [List.foldl_cons, ih, getD_insert_append]
    by_cases hb : b.height = n
    · simp [hb]
    · simp [hb]

theorem foldl_index_keys :
    n ∈ bs.foldl (fun m b => m.insert b.height (m.getD b.height [] ++ [b.hash])) m ↔
      n ∈ m ∨ ∃ b ∈ bs, b.height = n := by
  induction bs generalizing m with
  | nil => simp
  | cons b bs ih =>
    rw [List.foldl_cons, ih, ExtTreeMap.mem_insert, Std.LawfulEqCmp.compare_eq_iff_eq]
    simp only [List.mem_cons, exists_eq_or_imp]
    tauto

end

variable {iter : Cf → List (Bytes × Bytes)}

def Unreferenced (m : ExtTreeMap Hash Block) (x : Hash) : Prop :=
  ∀ (y : Hash) (c : Block), m[y]? = some c → x ∉ c.parents

def Placed (m : ExtTreeMap Hash Block) (x : Hash) : Prop :=
  ∃ b : Block, m[x]? = some b ∧ (b.height ≠ 0 ∨ m.size = 1)

def HeaderTip (m : ExtTreeMap Hash Block) (x : Hash) : Prop := Placed m x ∧ (x = 0 ∨ Unreferenced m x)

theorem mem_derivedTips (m : ExtTreeMap Hash Block) (x : Hash) :
    x ∈ derivedTips m ↔ HeaderTip m x := by
  have hnamed : x ∈ namedParents (m.toList.map Prod.snd) ↔
      x ≠ 0 ∧ ∃ (y : Hash) (c : Block), m[y]? = some c ∧ x ∈ c.parents := by
    simp only [namedParents, List.mem_filter, List.mem_flatMap, List.mem_map, Prod.exists,
      ExtTreeMap.mem_toList_iff_getElem?_eq_some, decide_eq_true_eq]
    constructor
    · rintro ⟨⟨c, ⟨y, c', hy, rfl⟩, hx⟩, hne⟩
      exact ⟨hne, y, c', hy, hx⟩
    · rintro ⟨hne, y, c, hy, hx⟩
      exact ⟨⟨c, ⟨y, c, hy, rfl⟩, hx⟩, hne⟩
  simp only [derivedTips, List.mem_toFinset, List.mem_filterMap, Prod.exists,
    ExtTreeMap.mem_toList_iff_getElem?_eq_some, Option.ite_none_left_eq_some, Option.some.injEq]
  constructor
  · rintro ⟨y, b, hb, hout, rfl⟩
    rw [hnamed, not_or, not_and_or, not_and_or, not_not, not_exists] at hout
    refine ⟨⟨b, hb, hout.2.imp id not_not.mp⟩, hout.1.imp id ?_⟩
    intro hno y' c hc hx
    exact hno y' ⟨c, hc, hx⟩
  · rintro ⟨⟨b, hb, hheight⟩, hun⟩
    refine ⟨x, b, hb, ?_, rfl⟩
    rw [hnamed, not_or, not_and_or, not_and_or, not_not, not_exists]
    refine ⟨hun.imp id ?_, hheight.imp id not_not.mpr⟩
    rintro hno y ⟨c, hc, hx⟩
    exact hno y c hc hx

structure Restored (dag loaded : DagStore) : Prop where
  blocks : loaded.blocks = dag.blocks
  heights : ∀ n, (loaded.blocksByHeight.getD n []).Perm (dag.blocksByHeight.getD n [])
  heightKeys : ∀ n, n ∈ loaded.blocksByHeight ↔ n ∈ dag.blocksByHeight
  children : ∀ x ∈ dag.blocks, loaded.children[x]? = dag.children[x]?
  finalized : loaded.finalized = dag.finalized
  pruningPoint : loaded.pruningPoint = dag.pruningPoint
  tips : ∀ x, x ∈ loaded.tips ↔ HeaderTip dag.blocks x

def loadedStore (r : DagRules) (kv : PersistentStore) (iter : Cf → List (Bytes × Bytes)) : DagStore :=
  let loaded := decoded r.block (iter .dagBlocks)
  let blocks : ExtTreeMap Hash Block := loaded.foldl (fun m b => m.insert b.hash b) ∅
  { blocks
    blocksByHeight := loaded.foldl (fun m b => m.insert b.height (m.getD b.height [] ++ [b.hash])) ∅
    children := (decoded r.children (iter .dagChildren)).foldl (fun m c => m.insert c.1 c.2) ∅
    tips := derivedTips blocks
    finalized := hashKeys (iter .dagFinalized)
    pruningPoint := ((kv (.dagMetadata, pruningPointKey)).bind ofBytes?).getD 0
    persistent := some kv }

theorem rows_named (x : Hash) (e : Hash × List Hash) (he : (rows x).map (Prod.mk x) = some e) :
    e.1 = x := by
  obtain ⟨l, -, rfl⟩ := Option.map_eq_some_iff.mp he
  rfl

namespace Recorded
variable (hm : Recorded r dag rows kv) (hi : Iterates kv iter)
include hm hi

theorem load : loadFromPersistent r kv iter = .ok (loadedStore r kv iter) := by
  rw [loadFromPersistent, decodeAll_eq hm.blocks hm.named (hi.mem _),
    decodeAll_eq hm.children rows_named (hi.mem _)]
  rfl

theorem mem_loaded : b ∈ decoded r.block (iter .dagBlocks) ↔ dag.blocks[b.hash]? = some b :=
  mem_decoded hm.blocks hm.named (hi.mem _)

theorem loaded_blocks : (loadedStore r kv iter).blocks = dag.blocks := by
  apply ExtTreeMap.ext_getElem?
  intro x
  have hget := getElem?_decoded hm.blocks hm.named (hi.mem _) (hi.nodup _) id x
  rwa [Option.map_id] at hget

theorem loaded_children (x : Hash) : (loadedStore r kv iter).children[x]? = rows x := by
  rw [loadedStore, getElem?_decoded hm.children rows_named (hi.mem _) (hi.nodup _), Option.map_map]
  exact Option.map_id_fun ▸ rfl

theorem loaded_heights (hx : Indexed dag) (n : UInt64) :
    ((loadedStore r kv iter).blocksByHeight.getD n []).Perm (dag.blocksByHeight.getD n []) := by
  have hnodup := nodup_decoded hm.blocks hm.named (hi.mem _) (hi.nodup _)
  rw [loadedStore, foldl_index, ExtTreeMap.getD_empty, List.nil_append,
    List.perm_ext_iff_of_nodup (hnodup.sublist (List.filter_sublist.map _)) (hx.nodup n)]
  intro x
  rw [hx.mem, List.mem_map]
  simp only [List.mem_filter, hm.mem_loaded hi, decide_eq_true_eq]
  constructor
  · rintro ⟨b, ⟨hb, hn⟩, rfl⟩
    exact ⟨b, hb, hn⟩
  · rintro ⟨b, hb, hn⟩
    obtain rfl := hm.named x b hb
    exact ⟨b, ⟨hb, hn⟩, rfl⟩

theorem loaded_heightKeys (hx : Indexed dag) (n : UInt64) :
    n ∈ (loadedStore r kv iter).blocksByHeight ↔ n ∈ dag.blocksByHeight := by
  rw [loadedStore, foldl_index_keys]
  constructor
  · rintro (hempty | ⟨b, hb, rfl⟩)
    · exact absurd hempty ExtTreeMap.not_mem_empty
    · have hmem := (hx.mem b.height b.hash).mpr ⟨b, (hm.mem_loaded hi).mp hb, rfl⟩
      by_contra hno
      rw [ExtTreeMap.getD_eq_fallback hno] at hmem
      exact List.not_mem_nil hmem
  · intro hn
    obtain ⟨x, hxl⟩ := List.exists_mem_of_ne_nil _ (hx.keys n hn)
    obtain ⟨b, hb, hheight⟩ := (hx.mem n x).mp hxl
    obtain rfl := hm.named x b hb
    exact Or.inr ⟨b, (hm.mem_loaded hi).mpr hb, hheight⟩

theorem loaded_finalized : (loadedStore r kv iter).finalized = dag.finalized := by
  ext x
  simp only [loadedStore, hashKeys, List.mem_toFinset, List.mem_filterMap]
  constructor
  · rintro ⟨⟨k, v⟩, he, hk⟩
    have hrow := (hi.mem _ _ _).mp he
    obtain ⟨y, hy⟩ := hm.finalized.keyed k v hrow
    rw [hy, ofBytes?_asBytes] at hk
    rw [hy, Option.some.inj hk, hm.finalized.row] at hrow
    exact (Option.ite_none_right_eq_some.mp hrow).1
  · intro hx
    have hrow := hm.finalized.row x
    rw [if_pos hx] at hrow
    exact ⟨_, (hi.mem _ _ _).mpr hrow, ofBytes?_asBytes x⟩

theorem reopened : Recorded r (loadedStore r kv iter) rows kv where
  backend := rfl
  named := by
    rw [hm.loaded_blocks hi]
    exact hm.named
  blocks := by
    rw [hm.loaded_blocks hi]
    exact hm.blocks
  children := hm.children
  finalized := by
    rw [hm.loaded_finalized hi]
    exact hm.finalized
  point := rfl

end Recorded

theorem Mirrors.restored (hm : Mirrors r dag rows kv) (hx : Indexed dag) (hi : Iterates kv iter) :
    Restored dag (loadedStore r kv iter) where
  blocks := hm.loaded_blocks hi
  heights := hm.loaded_heights hi hx
  heightKeys := hm.loaded_heightKeys hi hx
  children x hmem := by
    obtain ⟨l, hl⟩ := Option.ne_none_iff_exists'.mp (hm.stored x hmem)
    rw [hm.loaded_children hi, hl, hm.listed x l hl]
  finalized := hm.loaded_finalized hi
  pruningPoint := hm.point
  tips x := by
    have htips : (loadedStore r kv iter).tips = derivedTips (loadedStore r kv iter).blocks := rfl
    rw [htips, mem_derivedTips, hm.loaded_blocks hi]

theorem Mirrors.reopened (hm : Mirrors r dag rows kv) (hi : Iterates kv iter) :
    Mirrors r (loadedStore r kv iter) rows kv where
  toRecorded := hm.toRecorded.reopened hi
  listed x l hl := by rw [hm.loaded_children hi, hl]
  stored := by
    rw [hm.loaded_blocks hi]
    exact hm.stored

theorem Indexed.reopened (hx : Indexed dag) (hm : Recorded r dag rows kv) (hi : Iterates kv iter) :
    Indexed (loadedStore r kv iter) where
  mem n x := by
    rw [(hm.loaded_heights hi hx n).mem_iff, hm.loaded_blocks hi]
    exact hx.mem n x
  nodup n := (hm.loaded_heights hi hx n).nodup_iff.mpr (hx.nodup n)
  keys n hn := by
    have hne := hx.keys n ((hm.loaded_heightKeys hi hx n).mp hn)
    intro hnil
    have hperm := hm.loaded_heights hi hx n
    rw [hnil] at hperm
    exact hne hperm.nil_eq.symm

theorem column_storeOps_blocks : (kv.writeBatch (storeOps r dag b)).column .dagBlocks =
    (kv.column .dagBlocks).write (.put b.hash.asBytes (r.block.encode b)) := by
  rw [column_writeBatch]
  simp [storeOps, pushChildrenOp, inColumn, List.filterMap_append, List.filterMap_map,
    Function.comp_def]

theorem column_storeOps_children : (kv.writeBatch (storeOps r dag b)).column .dagChildren =
    ((kv.column .dagChildren).writeBatch ((linkedParents b).map fun p =>
      .put p.asBytes (r.children.encode (p, dag.children.getD p [] ++ [b.hash])))).write
        (.put b.hash.asBytes (r.children.encode (b.hash, []))) := by
  rw [column_writeBatch]
  simp [storeOps, pushChildrenOp, inColumn, List.filterMap_append, List.filterMap_map,
    Function.comp_def, writeBatch_append]

theorem column_storeOps_other {c : Cf} (hc : c = .dagFinalized ∨ c = .dagMetadata) :
    (kv.writeBatch (storeOps r dag b)).column c = kv.column c := by
  rw [column_writeBatch]
  rcases hc with rfl | rfl
  all_goals simp [storeOps, pushChildrenOp, inColumn, List.filterMap_append, List.filterMap_map,
      Function.comp_def]

theorem getElem?_foldl_pushChild {block : Hash} {ps : List Hash} (hnodup : ps.Nodup)
    (m : ExtTreeMap Hash (List Hash)) (x : Hash) :
    (ps.foldl (pushChild block) m)[x]? =
      if x ∈ ps then some (m.getD x [] ++ [block]) else m[x]? := by
  induction ps generalizing m with
  | nil => rfl
  | cons p ps ih =>
    obtain ⟨hp, hps⟩ := List.nodup_cons.mp hnodup
    rw [List.foldl_cons, ih hps, pushChild, getD_insert_append, getElem?_insert_ite]
    by_cases hx : x = p
    · subst hx
      simp [hp]
    · simp [hx, Ne.symm hx]

def storeRows (dag : DagStore) (b : Block) (rows : Hash → Option (List Hash)) (x : Hash) :
    Option (List Hash) :=
  if x = b.hash then some []
  else if x ∈ linkedParents b then some (dag.children.getD x [] ++ [b.hash]) else rows x

theorem children_storeInMemory (hnodup : (linkedParents b).Nodup) (x : Hash) :
    (dag.storeInMemory b).children[x]? = storeRows dag b (dag.children[·]?) x := by
  rw [storeInMemory, getElem?_insert_ite, getElem?_foldl_pushChild hnodup, storeRows]

theorem Recorded.store (hm : Recorded r dag rows kv) :
    Recorded r ((dag.persist (storeOps r dag b)).storeInMemory b) (storeRows dag b rows)
      (kv.writeBatch (storeOps r dag b)) where
  backend := by
    simp only [storeInMemory, persist, hm.backend, Option.map_some]
  named x c hc := by
    rcases getElem?_insert_eq_some.mp hc with ⟨hx, rfl⟩ | ⟨-, hc⟩
    · exact hx
    · exact hm.named x c hc
  blocks := by
    rw [column_storeOps_blocks]
    refine (hm.blocks.put b.hash (r.block.encode b)).congr fun x => ?_
    rw [storeInMemory, getElem?_insert_ite, Function.update_apply]
    split
    · rfl
    · rfl
  children := by
    rw [column_storeOps_children]
    have hparents := hm.children.puts
      (fun p => r.children.encode (p, dag.children.getD p [] ++ [b.hash])) (linkedParents b)
    refine (hparents.put b.hash (r.children.encode (b.hash, []))).congr fun x => ?_
    rw [Function.update_apply, storeRows]
    split_ifs with hx
    · rw [hx]
      rfl
    · rfl
    · rfl
  finalized := by
    rw [column_storeOps_other (Or.inl rfl)]
    exact hm.finalized
  point := by
    rw [column_storeOps_other (Or.inr rfl)]
    exact hm.point

theorem Mirrors.store (hm : Mirrors r dag rows kv) (hnodup : (linkedParents b).Nodup) :
    Mirrors r ((dag.persist (storeOps r dag b)).storeInMemory b) (storeRows dag b rows)
      (kv.writeBatch (storeOps r dag b)) where
  toRecorded := hm.toRecorded.store
  listed x l hl := by
    refine (children_storeInMemory hnodup x).trans ?_
    unfold storeRows at hl ⊢
    split_ifs at hl ⊢
    · exact hl
    · exact hl
    · exact hm.listed x l hl
  stored x hx := by
    rw [storeInMemory, ExtTreeMap.mem_insert, Std.LawfulEqCmp.compare_eq_iff_eq] at hx
    unfold storeRows
    split_ifs with hne
    · exact Option.some_ne_none _
    · exact Option.some_ne_none _
    · exact hm.stored x (hx.resolve_left (Ne.symm hne))

section

variable (hx : Indexed dag) (hnew : dag.blocks[b.hash]? = none)
include hx hnew

theorem Indexed.notMem (n : UInt64) : b.hash ∉ dag.blocksByHeight.getD n [] := by
  intro hmem
  obtain ⟨c, hc, -⟩ := (hx.mem n b.hash).mp hmem
  cases hnew.symm.trans hc

theorem Indexed.store : Indexed (dag.storeInMemory b) where
  mem n x := by
    have hmem : ∀ c, (dag.storeInMemory b).blocks[x]? = some c ↔
        (b.hash = x ∧ b = c) ∨ (b.hash ≠ x ∧ dag.blocks[x]? = some c) :=
      fun c => getElem?_insert_eq_some
    simp only [hmem]
    rw [storeInMemory, getD_insert_append]
    by_cases hxb : b.hash = x
    · subst hxb
      by_cases hn : b.height = n
      · simp [hn]
      · simp [hn, hx.notMem hnew n]
    · have hold := hx.mem n x
      by_cases hn : b.height = n
      · simp [hn, hxb, Ne.symm hxb, hold]
      · simp [hn, hxb, hold]
  nodup n := by
    rw [storeInMemory, getD_insert_append]
    split
    · rw [List.nodup_append]
      refine ⟨hx.nodup n, List.nodup_singleton _, ?_⟩
      intro y hy z hz hyz
      rw [hyz, List.mem_singleton.mp hz] at hy
      exact hx.notMem hnew n hy
    · exact hx.nodup n
  keys n hn := by
    rw [storeInMemory, ExtTreeMap.mem_insert, Std.LawfulEqCmp.compare_eq_iff_eq] at hn
    rw [storeInMemory, getD_insert_append]
    split
    · simp
    · rename_i hne
      exact hx.keys n (hn.resolve_left hne)

end

theorem column_single {op : DagOp} {c : Cf} (hc : op.key.1 ≠ c) :
    (kv.writeBatch [op]).column c = kv.column c := by
  rw [column_writeBatch]
  cases op with
  | put key value | delete key =>
    have hne : key.1 ≠ c := hc
    simp [inColumn, hne]

theorem Recorded.write {op : DagOp} (hm : Recorded r dag rows kv)
    (hcol : op.key.1 ≠ .dagBlocks ∧ op.key.1 ≠ .dagChildren) (hmem : dag'.blocks = dag.blocks)
    (hback : dag'.persistent = dag.persistent.map (·.writeBatch [op]))
    (hfinalized : ((kv.writeBatch [op]).column .dagFinalized).Holds asBytes fun x =>
      if x ∈ dag'.finalized then some [1] else none)
    (hpoint : (((kv.writeBatch [op]).column .dagMetadata pruningPointKey).bind ofBytes?).getD 0 =
      dag'.pruningPoint) : Recorded r dag' rows (kv.writeBatch [op]) := by
  refine ⟨?_, ?_, ?_, ?_, hfinalized, hpoint⟩
  · rw [hback, hm.backend, Option.map_some]
  · rw [hmem]
    exact hm.named
  · rw [hmem, column_single hcol.1]
    exact hm.blocks
  · rw [column_single hcol.2]
    exact hm.children

theorem Recorded.mirrors (h : Recorded r dag' rows kv') (hm : Mirrors r dag rows kv)
    (hblocks : dag'.blocks = dag.blocks) (hchildren : dag'.children = dag.children) :
    Mirrors r dag' rows kv' :=
  ⟨h, hchildren ▸ hm.listed, hblocks ▸ hm.stored⟩

theorem Recorded.finalize (hm : Recorded r dag rows kv) (hash : Hash) :
    Recorded r ({ dag with finalized := insert hash dag.finalized }.persist
      [.put (.dagFinalized, hash.asBytes) [1]]) rows
      (kv.writeBatch [.put (.dagFinalized, hash.asBytes) [1]]) := by
  have hcol : (kv.writeBatch [.put (.dagFinalized, hash.asBytes) [1]]).column .dagFinalized =
      (kv.column .dagFinalized).write (.put hash.asBytes [1]) := by
    rw [column_writeBatch]
    simp [inColumn]
  refine hm.write ⟨by simp [KvOp.key], by simp [KvOp.key]⟩ rfl rfl ?_ ?_
  · rw [hcol]
    refine (hm.finalized.put hash [1]).congr fun x => ?_
    by_cases hx : x = hash
    · simp [persist, hx]
    · simp [persist, hx]
  · rw [column_single (by simp [KvOp.key])]
    exact hm.point

theorem Recorded.movePoint (hm : Recorded r dag rows kv) (hash : Hash) :
    Recorded r ({ dag with pruningPoint := hash }.persist
      [.put (.dagMetadata, pruningPointKey) hash.asBytes]) rows
      (kv.writeBatch [.put (.dagMetadata, pruningPointKey) hash.asBytes]) := by
  refine hm.write ⟨nofun, nofun⟩ rfl rfl ?_ ?_
  · rw [column_single (by nofun)]
    exact hm.finalized
  · have hcol : (kv.writeBatch [.put (.dagMetadata, pruningPointKey) hash.asBytes]).column
        .dagMetadata pruningPointKey = some hash.asBytes := by
      rw [column_writeBatch]
      simp [inColumn, write_put]
    rw [hcol, Option.bind_some, ofBytes?_asBytes]
    rfl

theorem scoreKey_ne (hash : Hash) : pruningPointKey ≠ scoreKey hash := by
  intro he
  have hlen := congrArg List.length he
  simp [pruningPointKey, scoreKey, Bytes.ascii, asBytes] at hlen

theorem column_pruneOps (hash : Hash) (c : Cf) : (kv.writeBatch (pruneOps hash)).column c =
    if c = .dagBlocks ∨ c = .dagChildren then (kv.column c).write (.delete hash.asBytes)
    else if c = .dagMetadata then (kv.column c).write (.delete (scoreKey hash))
    else kv.column c := by
  rw [column_writeBatch]
  cases c <;> simp [pruneOps, inColumn]

theorem Recorded.erase (hm : Recorded r dag rows kv) (hash : Hash) :
    Recorded r ({ dag with blocks := dag.blocks.erase hash }.persist (pruneOps hash))
      (Function.update rows hash none) (kv.writeBatch (pruneOps hash)) := by
  refine ⟨?_, ?_, ?_, ?_, ?_, ?_⟩
  · simp only [persist, hm.backend, Option.map_some]
  · intro x c hc
    exact hm.named x c (getElem?_erase_eq_some.mp hc).2
  · rw [column_pruneOps, if_pos (Or.inl rfl)]
    refine (hm.blocks.delete hash).congr fun x => ?_
    rw [persist, getElem?_erase_ite, Function.update_apply]
    split
    · rfl
    · rfl
  · rw [column_pruneOps, if_pos (Or.inr rfl)]
    refine (hm.children.delete hash).congr fun x => ?_
    rw [Function.update_apply, Function.update_apply]
    split
    · rfl
    · rfl
  · rw [column_pruneOps]
    exact hm.finalized
  · rw [column_pruneOps, if_neg (by decide), if_pos rfl, write_delete, if_neg (scoreKey_ne hash)]
    exact hm.point

theorem Mirrors.erase (hm : Mirrors r dag rows kv) (hash : Hash) :
    Mirrors r ({ dag with blocks := dag.blocks.erase hash }.persist (pruneOps hash))
      (Function.update rows hash none) (kv.writeBatch (pruneOps hash)) where
  toRecorded := hm.toRecorded.erase hash
  listed x l hl := by
    rw [Function.update_apply] at hl
    split_ifs at hl
    exact hm.listed x l hl
  stored x hx := by
    obtain ⟨hne, hx⟩ := ExtTreeMap.mem_erase.mp hx
    rw [Function.update_apply, if_neg]
    · exact hm.stored x hx
    · rintro rfl
      exact hne Std.ReflCmp.compare_self

structure Removed (dag dag' : DagStore) (xs : List Hash) : Prop where
  blocks : ∀ x : Hash, dag'.blocks[x]? = if x ∈ xs then none else dag.blocks[x]?
  blocksByHeight : dag'.blocksByHeight = dag.blocksByHeight

theorem removed_foldl_pruneHash (xs : List Hash) : Removed dag (xs.foldl pruneHash dag) xs := by
  induction xs generalizing dag with
  | nil => exact ⟨fun x => by simp, rfl⟩
  | cons hash xs ih =>
    have hone : Removed dag (dag.pruneHash hash) [hash] := by
      unfold pruneHash
      split
      · exact ⟨fun x => by simp [persist, getElem?_erase_ite], rfl⟩
      · rename_i hhas
        have hnone : dag.blocks[hash]? = none := by simpa [hasBlock] using hhas
        exact ⟨fun x => by simp +contextual [hnone], rfl⟩
    have hrem := @ih (dag.pruneHash hash)
    refine ⟨fun x => ?_, hrem.blocksByHeight.trans hone.blocksByHeight⟩
    rw [List.foldl_cons, hrem.blocks, hone.blocks]
    by_cases hx : x = hash <;> simp [hx]

theorem Recorded.index (hm : Recorded r dag rows kv) (index : ExtTreeMap UInt64 (List Hash))
    (height : UInt64) : Recorded r { dag with blocksByHeight := index } rows kv ∧
      Recorded r (dag.persist [.delete (.dagHeightIndex, heightKey height)]) rows
        (kv.writeBatch [.delete (.dagHeightIndex, heightKey height)]) := by
  refine ⟨{ hm with }, ?_⟩
  refine hm.write ⟨nofun, nofun⟩ rfl rfl ?_ ?_
  · rw [column_single (by nofun)]
    exact hm.finalized
  · rw [column_single (by nofun)]
    exact hm.point

variable {P : DagStore → Prop}

theorem pruneHeight_keeps
    (herase : ∀ dag hash, P dag → P ({ dag with blocks := dag.blocks.erase hash }.persist (pruneOps hash)))
    (hindex : ∀ dag index, P dag → P { dag with blocksByHeight := index })
    (hdelete : ∀ dag height, P dag → P (dag.persist [.delete (.dagHeightIndex, heightKey height)]))
    (h : P dag) (height : UInt64) : P (dag.pruneHeight height) := by
  unfold pruneHeight
  split
  · exact h
  refine hdelete _ height (List.foldlRecOn _ _ (hindex dag _ h) fun dag h hash _ => ?_)
  unfold pruneHash
  split
  · exact herase dag hash h
  · exact h

theorem Indexed.listed_iff (hx : Indexed dag) {x : Hash} (hb : dag.blocks[x]? = some b)
    (height : UInt64) : x ∈ dag.blocksByHeight.getD height [] ↔ b.height = height := by
  rw [hx.mem]
  constructor
  · rintro ⟨c, hc, hheight⟩
    cases hb.symm.trans hc
    exact hheight
  · intro hheight
    exact ⟨b, hb, hheight⟩

theorem pruneHeight_blocksByHeight (dag : DagStore) (height : UInt64) :
    (dag.pruneHeight height).blocksByHeight = dag.blocksByHeight.erase height := by
  unfold pruneHeight
  split
  · rename_i hnone
    refine ExtTreeMap.ext_getElem? fun n => ?_
    rw [getElem?_erase_ite]
    split
    · next hn => rw [hn, hnone]
    · rfl
  · exact (removed_foldl_pruneHash _).blocksByHeight

section Pruned
variable (hx : Indexed dag)
include hx

theorem Indexed.blocks_pruneHeight (height : UInt64) (x : Hash) :
    (dag.pruneHeight height).blocks[x]? = (dag.blocks[x]?).filter fun b => b.height ≠ height := by
  have hkept : (dag.pruneHeight height).blocks[x]? =
      if x ∈ dag.blocksByHeight.getD height [] then none else dag.blocks[x]? := by
    unfold DagStore.pruneHeight
    split
    · rename_i hentry
      simp [ExtTreeMap.getD_eq_getD_getElem?, hentry]
    · rename_i hashes hentry
      rw [ExtTreeMap.getD_eq_getD_getElem?, hentry]
      exact (removed_foldl_pruneHash hashes).blocks x
  cases hb : dag.blocks[x]? with
  | none => simp [hkept, hb]
  | some b => simp [hkept, hb, hx.listed_iff hb, Option.filter_some]

theorem Indexed.pruneHeight (height : UInt64) : Indexed (dag.pruneHeight height) := by
  have hindex : ∀ n, (dag.blocksByHeight.erase height).getD n [] =
      if n = height then [] else dag.blocksByHeight.getD n [] := by
    intro n
    rw [ExtTreeMap.getD_eq_getD_getElem?, getElem?_erase_ite]
    split
    · rfl
    · rw [ExtTreeMap.getD_eq_getD_getElem?]
  refine ⟨fun n x => ?_, fun n => ?_, fun n hn => ?_⟩
  · simp only [pruneHeight_blocksByHeight, hindex, hx.blocks_pruneHeight, Option.filter_eq_some_iff]
    by_cases hn : n = height
    · simp +contextual [hn]
    · rw [if_neg hn, hx.mem]
      refine exists_congr fun b => and_congr_left fun hheight => ?_
      simp [hheight, hn]
  · rw [pruneHeight_blocksByHeight, hindex]
    split
    · exact List.nodup_nil
    · exact hx.nodup n
  · rw [pruneHeight_blocksByHeight, ExtTreeMap.mem_erase, ne_eq,
      Std.LawfulEqCmp.compare_eq_iff_eq] at hn
    rw [pruneHeight_blocksByHeight, hindex, if_neg (Ne.symm hn.1)]
    exact hx.keys n hn.2

theorem Indexed.blocks_foldl_pruneHeight (heights : List UInt64) (x : Hash) :
    (heights.foldl DagStore.pruneHeight dag).blocks[x]? =
      (dag.blocks[x]?).filter fun b => b.height ∉ heights := by
  induction heights generalizing dag with
  | nil => cases hb : dag.blocks[x]? <;> simp [hb, Option.filter_some]
  | cons height heights ih =>
    rw [List.foldl_cons, ih (hx.pruneHeight height), hx.blocks_pruneHeight, Option.filter_filter]
    simp [not_or]

theorem Indexed.blocks_prune (height : UInt64) (x : Hash) :
    ((dag.blocksByHeight.keys.filter (· < height)).foldl DagStore.pruneHeight dag).blocks[x]? =
      (dag.blocks[x]?).filter fun b => !decide (b.height < height) := by
  rw [hx.blocks_foldl_pruneHeight]
  cases hb : dag.blocks[x]? with
  | none => rfl
  | some b =>
    have hkey : b.height ∈ dag.blocksByHeight := by
      by_contra hno
      have hmem := (hx.listed_iff hb b.height).mpr rfl
      rw [ExtTreeMap.getD_eq_fallback hno] at hmem
      cases hmem
    simp [Option.filter_some, List.mem_filter, hkey]

end Pruned

theorem Recorded.pruneHeight (hm : ∃ rows kv, Recorded r dag rows kv) (height : UInt64) :
    ∃ rows kv, Recorded r (dag.pruneHeight height) rows kv :=
  pruneHeight_keeps (P := fun dag => ∃ rows kv, Recorded r dag rows kv)
    (fun _ hash ⟨_, _, h⟩ => ⟨_, _, h.erase hash⟩)
    (fun _ index ⟨_, _, h⟩ => ⟨_, _, (h.index index 0).1⟩)
    (fun _ height ⟨_, _, h⟩ => ⟨_, _, (h.index ∅ height).2⟩) hm height

theorem Mirrors.pruneHeight (hm : ∃ rows kv, Mirrors r dag rows kv) (height : UInt64) :
    ∃ rows kv, Mirrors r (dag.pruneHeight height) rows kv :=
  pruneHeight_keeps (P := fun dag => ∃ rows kv, Mirrors r dag rows kv)
    (fun _ hash ⟨_, _, h⟩ => ⟨_, _, h.erase hash⟩)
    (fun _ index ⟨_, _, h⟩ => ⟨_, _, (h.index index 0).1.mirrors h rfl rfl⟩)
    (fun _ height ⟨_, _, h⟩ => ⟨_, _, (h.index ∅ height).2.mirrors h rfl rfl⟩) hm height

theorem prune_ok {n : ℕ} (h : dag.prune = .ok (n, dag')) :
    dag' = dag ∨ ∃ point : Block, dag.blocks[dag.pruningPoint]? = some point ∧
      dag' = (dag.blocksByHeight.keys.filter (· < point.height)).foldl DagStore.pruneHeight dag := by
  unfold DagStore.prune at h
  split at h
  · exact .inl (Prod.mk.inj (Except.ok.inj h)).2.symm
  cases hpoint : dag.blocks[dag.pruningPoint]? with
  | none =>
    rw [getBlock, hpoint] at h
    cases h
  | some point =>
    rw [getBlock, hpoint] at h
    exact .inr ⟨point, rfl, (Prod.mk.inj (Except.ok.inj h)).2.symm⟩

theorem prune_keeps {n : ℕ} (hheight : ∀ dag height, P dag → P (dag.pruneHeight height)) (h : P dag)
    (hok : dag.prune = .ok (n, dag')) : P dag' := by
  obtain rfl | ⟨point, -, rfl⟩ := prune_ok hok
  · exact h
  · exact List.foldlRecOn _ _ h fun dag h height _ => hheight dag height h

theorem finalizeBlock_ok {hash : Hash} (h : dag.finalizeBlock hash = .ok dag') :
    dag' = { dag with finalized := insert hash dag.finalized }.persist
      [.put (.dagFinalized, hash.asBytes) [1]] := by
  unfold finalizeBlock at h
  split_ifs at h
  exact (Except.ok.inj h).symm

theorem updatePruningPoint_ok {hash : Hash} (h : dag.updatePruningPoint hash = .ok dag') :
    dag' = { dag with pruningPoint := hash }.persist
      [.put (.dagMetadata, pruningPointKey) hash.asBytes] := by
  unfold updatePruningPoint at h
  split_ifs at h
  exact (Except.ok.inj h).symm

/-- The calls of a run; `reopen` opens a fresh store on the same backend. -/
inductive DagCall
  | storeBlock (b : Block)
  | finalizeBlock (hash : Hash)
  | updatePruningPoint (hash : Hash)
  | prune
  | reopen

inductive DagStep (r : DagRules) (dag : DagStore) : DagCall → DagStore → Prop
  | storeBlock {b : Block} {fault : Option String} {dag' : DagStore}
      (h : dag.storeBlock r b fault = .ok dag') : DagStep r dag (.storeBlock b) dag'
  | finalizeBlock {hash : Hash} {dag' : DagStore} (h : dag.finalizeBlock hash = .ok dag') :
      DagStep r dag (.finalizeBlock hash) dag'
  | updatePruningPoint {hash : Hash} {dag' : DagStore} (h : dag.updatePruningPoint hash = .ok dag') :
      DagStep r dag (.updatePruningPoint hash) dag'
  | prune {n : ℕ} {dag' : DagStore} (h : dag.prune = .ok (n, dag')) : DagStep r dag .prune dag'
  | reopen {kv : PersistentStore} {iter : Cf → List (Bytes × Bytes)} {dag' : DagStore}
      (hkv : dag.persistent = some kv) (hiter : Iterates kv iter)
      (h : loadFromPersistent r kv iter = .ok dag') : DagStep r dag .reopen dag'

def opened : DagStore := { persistent := some fun _ => none }

theorem opened_mirrors : Mirrors r opened (fun _ => none) (fun _ => none) where
  backend := rfl
  named x b hb := by simp [opened] at hb
  blocks := ⟨fun _ _ => asBytes_inj, fun x => by simp [opened, column], nofun⟩
  children := ⟨fun _ _ => asBytes_inj, fun _ => rfl, nofun⟩
  finalized := ⟨fun _ _ => asBytes_inj, fun x => by simp [opened, column], nofun⟩
  point := rfl
  listed := nofun
  stored x hx := by simp [opened] at hx

theorem opened_indexed : Indexed opened where
  mem n x := by simp [opened]
  nodup n := by simp [opened]
  keys n hn := by simp [opened] at hn

theorem storeBlock_ok {fault : Option String} (h : dag.storeBlock r b fault = .ok dag') :
    dag.blocks[b.hash]? = none ∧ dag' = (dag.persist (storeOps r dag b)).storeInMemory b := by
  unfold storeBlock at h
  split at h
  · cases h
  · rename_i hnew
    refine ⟨by simpa [hasBlock] using hnew, ?_⟩
    split at h
    · cases h
    · split at h
      · cases h
      · exact (Except.ok.inj h).symm

theorem DagStep.mirrors {call : DagCall} (hs : DagStep r dag call dag')
    (hnodup : ∀ b, call = .storeBlock b → (linkedParents b).Nodup)
    (hm : Mirrors r dag rows kv) (hx : Indexed dag) :
    (∃ rows' kv', Mirrors r dag' rows' kv') ∧ Indexed dag' := by
  cases hs with
  | @storeBlock b fault _ h =>
    obtain ⟨hnew, rfl⟩ := storeBlock_ok h
    have hindexed : Indexed (dag.persist (storeOps r dag b)) := { hx with }
    exact ⟨⟨_, _, hm.store (hnodup _ rfl)⟩, hindexed.store hnew⟩
  | finalizeBlock h =>
    obtain rfl := finalizeBlock_ok h
    exact ⟨⟨_, _, (hm.finalize _).mirrors hm rfl rfl⟩, { hx with }⟩
  | updatePruningPoint h =>
    obtain rfl := updatePruningPoint_ok h
    exact ⟨⟨_, _, (hm.movePoint _).mirrors hm rfl rfl⟩, { hx with }⟩
  | prune h =>
    exact prune_keeps (P := fun dag => (∃ rows kv, Mirrors r dag rows kv) ∧ Indexed dag)
      (fun _ height h => ⟨Mirrors.pruneHeight h.1 height, h.2.pruneHeight height⟩) ⟨⟨_, _, hm⟩, hx⟩ h
  | reopen hkv hiter h =>
    cases hm.backend.symm.trans hkv
    cases (hm.load hiter).symm.trans h
    exact ⟨⟨_, _, hm.reopened hiter⟩, hx.reopened hm.toRecorded hiter⟩

theorem Runs.mirrors {calls : List DagCall} (hr : Runs (DagStep r) opened calls dag)
    (hnodup : ∀ b, .storeBlock b ∈ calls → (linkedParents b).Nodup) :
    (∃ rows kv, Mirrors r dag rows kv) ∧ Indexed dag := by
  induction hr with
  | refl => exact ⟨⟨_, _, opened_mirrors⟩, opened_indexed⟩
  | @step calls t call u _ hs ih =>
    obtain ⟨⟨rows, kv, hm⟩, hx⟩ := ih fun b hb => hnodup b (List.mem_append_left _ hb)
    refine hs.mirrors ?_ hm hx
    rintro b rfl
    exact hnodup b (by simp)

/-- A block is stored before the blocks that name it; a tip is not pruned, nor a block whose parent
stays. The condition is on the store before the call. -/
def KeepsTips (dag : DagStore) : DagCall → Prop
  | .storeBlock b => b.hash ≠ 0 ∧ b.hash ∉ b.parents ∧ Unreferenced dag.blocks b.hash
  | .prune => ∀ point ∈ dag.blocks[dag.pruningPoint]?, ∀ (x : Hash) (b : Block),
      dag.blocks[x]? = some b → b.height < point.height →
        x ∉ dag.tips ∧ ∀ p ∈ b.parents, ∀ c ∈ dag.blocks[p]?, c.height < point.height
  | .finalizeBlock _ | .updatePruningPoint _ | .reopen => True

/-- The tips in memory are stored and unnamed, and every unnamed block that a fresh store would take
for a tip is one. -/
structure TipsKept (dag : DagStore) : Prop where
  nonzero : dag.blocks[(0 : Hash)]? = none
  free : ∀ x ∈ dag.tips, (∃ b, dag.blocks[x]? = some b) ∧ Unreferenced dag.blocks x
  tip : ∀ x, Placed dag.blocks x → Unreferenced dag.blocks x → x ∈ dag.tips

namespace TipsKept
variable (ht : TipsKept dag)
include ht

theorem ne_zero {x : Hash} (hb : dag.blocks[x]? = some b) : x ≠ 0 := by
  rintro rfl
  cases ht.nonzero.symm.trans hb

theorem headerTip_iff (x : Hash) : HeaderTip dag.blocks x ↔ x ∈ dag.tips ∧ Placed dag.blocks x := by
  constructor
  · rintro ⟨hplaced, hun⟩
    obtain ⟨b, hb, -⟩ := id hplaced
    exact ⟨ht.tip x hplaced (hun.resolve_left (ht.ne_zero hb)), hplaced⟩
  · rintro ⟨htip, hplaced⟩
    exact ⟨hplaced, .inr (ht.free x htip).2⟩

theorem store (hnew : dag.blocks[b.hash]? = none) (hb : KeepsTips dag (.storeBlock b)) :
    TipsKept (dag.storeInMemory b) := by
  obtain ⟨hzero, hself, hun⟩ := hb
  have hmem : ∀ {x : Hash} {c : Block}, (dag.storeInMemory b).blocks[x]? = some c ↔
      (b.hash = x ∧ b = c) ∨ (b.hash ≠ x ∧ dag.blocks[x]? = some c) := getElem?_insert_eq_some
  have hold : ∀ {x : Hash} {c : Block}, dag.blocks[x]? = some c →
      (dag.storeInMemory b).blocks[x]? = some c := by
    intro x c hc
    refine hmem.mpr (.inr ⟨?_, hc⟩)
    rintro rfl
    cases hnew.symm.trans hc
  have hunnamed : ∀ {x : Hash}, Unreferenced (dag.storeInMemory b).blocks x ↔
      x ∉ b.parents ∧ Unreferenced dag.blocks x := by
    intro x
    constructor
    · exact fun h => ⟨h b.hash b (hmem.mpr (.inl ⟨rfl, rfl⟩)), fun y c hc => h y c (hold hc)⟩
    · rintro ⟨hparents, h⟩ y c hc
      rcases hmem.mp hc with ⟨-, rfl⟩ | ⟨-, hc⟩
      · exact hparents
      · exact h y c hc
  -- a block of the genesis shape names the zero hash only
  have hlinked : ∀ {x : Hash}, x ≠ 0 → (x ∈ linkedParents b ↔ x ∈ b.parents) := by
    intro x hx
    unfold linkedParents
    split
    · next hgen => simpa [Block.isGenesis_parts hgen] using hx
    · rfl
  refine ⟨?_, fun x hx => ?_, ?_⟩
  · rw [storeInMemory, getElem?_insert_ite, if_neg (Ne.symm hzero)]
    exact ht.nonzero
  · rcases Finset.mem_insert.mp hx with rfl | hx
    · exact ⟨⟨b, hmem.mpr (.inl ⟨rfl, rfl⟩)⟩, hunnamed.mpr ⟨hself, hun⟩⟩
    · obtain ⟨hx, hparent⟩ := Finset.mem_sdiff.mp hx
      obtain ⟨⟨c, hc⟩, hfree⟩ := ht.free x hx
      rw [List.mem_toFinset, hlinked (ht.ne_zero hc)] at hparent
      exact ⟨⟨c, hold hc⟩, hunnamed.mpr ⟨hparent, hfree⟩⟩
  · rintro x ⟨c, hc, hplace⟩ hfree
    obtain ⟨hparent, hfree⟩ := hunnamed.mp hfree
    rcases hmem.mp hc with ⟨rfl, -⟩ | ⟨-, hc⟩
    · exact Finset.mem_insert_self _ _
    have hsize : (dag.storeInMemory b).blocks.size ≠ 1 := by
      have hmissing : b.hash ∉ dag.blocks := by simpa using hnew
      have hpos : dag.blocks.size ≠ 0 := fun hsize => by
        rw [ExtTreeMap.eq_empty_iff_size_eq_zero.mpr hsize] at hc
        simp at hc
      simp [storeInMemory, ExtTreeMap.size_insert, hmissing, hpos]
    refine Finset.mem_insert_of_mem (Finset.mem_sdiff.mpr ⟨?_, ?_⟩)
    · exact ht.tip x ⟨c, hc, .inl (hplace.resolve_right hsize)⟩ hfree
    · rwa [List.mem_toFinset, hlinked (ht.ne_zero hc)]

theorem prune (hx : Indexed dag) (hc : KeepsTips dag .prune) {n : ℕ}
    (h : dag.prune = .ok (n, dag')) : TipsKept dag' := by
  have htips : dag'.tips = dag.tips := prune_keeps (P := fun d => d.tips = dag.tips) (fun _ height hd =>
    pruneHeight_keeps (P := fun d => d.tips = dag.tips) (fun _ _ => id) (fun _ _ => id) (fun _ _ => id)
      hd height) rfl h
  obtain rfl | ⟨point, hpoint, hdag⟩ := prune_ok h
  · exact ht
  have hkept := hc point hpoint
  have hblocks : ∀ (x : Hash) (b : Block), dag'.blocks[x]? = some b ↔
      dag.blocks[x]? = some b ∧ ¬b.height < point.height := by
    simp [hdag, hx.blocks_prune, Option.filter_eq_some_iff]
  refine ⟨?_, fun x htip => ?_, ?_⟩
  · rw [Option.eq_none_iff_forall_ne_some]
    intro b hb
    cases ht.nonzero.symm.trans ((hblocks 0 b).mp hb).1
  · rw [htips] at htip
    obtain ⟨⟨b, hb⟩, hfree⟩ := ht.free x htip
    refine ⟨⟨b, (hblocks x b).mpr ⟨hb, fun hlow => (hkept x b hb hlow).1 htip⟩⟩, ?_⟩
    exact fun y c hy => hfree y c ((hblocks y c).mp hy).1
  · rintro x ⟨b, hb, hplace⟩ hfree
    obtain ⟨hb, hhigh⟩ := (hblocks x b).mp hb
    rw [htips]
    refine ht.tip x ⟨b, hb, ?_⟩ fun y c hy hmem => ?_
    · by_cases hheight : b.height = 0
      · -- nothing lies below a pruning point of height zero
        have hsame : dag'.blocks = dag.blocks := by
          refine ExtTreeMap.ext_getElem? fun y => Option.ext fun c => ?_
          rw [hblocks, and_iff_left_iff_imp]
          intro _ hlow
          rw [UInt64.lt_iff_toNat_lt] at hlow hhigh
          rw [hheight] at hhigh
          exact hhigh (Nat.zero_lt_of_lt hlow)
        rw [hsame] at hplace
        exact hplace
      · exact .inl hheight
    · by_cases hlow : c.height < point.height
      · exact hhigh ((hkept y c hy hlow).2 x hmem b hb)
      · exact hfree y c ((hblocks y c).mpr ⟨hy, hlow⟩) hmem

theorem reopened (hm : Recorded r dag rows kv) (hi : Iterates kv iter) :
    TipsKept (loadedStore r kv iter) := by
  have hblocks := hm.loaded_blocks hi
  have hmem : ∀ x, x ∈ (loadedStore r kv iter).tips ↔ HeaderTip (loadedStore r kv iter).blocks x :=
    mem_derivedTips _
  refine ⟨hblocks ▸ ht.nonzero, fun x htip => ?_, fun x hplaced hfree => ?_⟩
  · obtain ⟨⟨b, hb, -⟩, hun⟩ := (hmem x).mp htip
    exact ⟨⟨b, hb⟩, hun.resolve_left (ht.ne_zero (hblocks ▸ hb))⟩
  · exact (hmem x).mpr ⟨hplaced, .inr hfree⟩

end TipsKept

theorem DagStep.tipsKept {call : DagCall} (hs : DagStep r dag call dag') (hc : KeepsTips dag call)
    (hm : Recorded r dag rows kv) (hx : Indexed dag) (ht : TipsKept dag) : TipsKept dag' := by
  cases hs with
  | @storeBlock b _ _ h =>
    obtain ⟨hnew, rfl⟩ := storeBlock_ok h
    have hkept : TipsKept (dag.persist (storeOps r dag b)) := { ht with }
    exact hkept.store hnew hc
  | finalizeBlock h =>
    obtain rfl := finalizeBlock_ok h
    exact { ht with }
  | updatePruningPoint h =>
    obtain rfl := updatePruningPoint_ok h
    exact { ht with }
  | prune h => exact ht.prune hx hc h
  | reopen hkv hiter h =>
    cases hm.backend.symm.trans hkv
    cases (hm.load hiter).symm.trans h
    exact ht.reopened hm hiter

def OrderedStep (r : DagRules) (dag : DagStore) (call : DagCall) (dag' : DagStore) : Prop :=
  KeepsTips dag call ∧ DagStep r dag call dag'

theorem Runs.tipsKept {calls : List DagCall} (hr : Runs (OrderedStep r) opened calls dag)
    (hnodup : ∀ b, .storeBlock b ∈ calls → (linkedParents b).Nodup) : TipsKept dag := by
  induction hr with
  | refl => exact ⟨by simp [opened], by simp [opened], by simp [Placed, opened]⟩
  | @step calls t call u hr hs ih =>
    have hnodup := fun b hb => hnodup b (List.mem_append_left [call] hb)
    obtain ⟨⟨rows, kv, hm⟩, hx⟩ := Runs.mirrors (hr.imp fun _ _ _ _ h => h.2) hnodup
    exact hs.2.tipsKept hs.1 hm.toRecorded hx (ih hnodup)

noncomputable def permissive : DagRules where
  block := (Codec.exists_of_countable Block).some
  children := (Codec.exists_of_countable (Hash × List Hash)).some
  hashes := (Codec.exists_of_countable (List Hash)).some
  strictVrf := false
  admission _ _ := none

theorem exists_iterates (ops : List DagOp) :
    ∃ iter, Iterates (writeBatch (fun _ => none) ops) iter := by
  have hlist : ∀ c : Cf, ∃ l : List (Bytes × Bytes), (l.map Prod.fst).Nodup ∧
      KvStore.ListedBy ((writeBatch (fun _ => none) ops).column c) l := by
    intro c
    rw [column_writeBatch]
    exact exists_listing _
  choose iter hnodup hmem using hlist
  exact ⟨iter, hnodup, hmem⟩

-- the genesis of the chain store, and a first block that does not name it
def looseGenesis : Block := ⟨⟨1, 1, 0, [], 0, 0, 0, 0⟩, 0, []⟩
def looseBlock : Block := ⟨⟨1, 2, 0, [], 0, 1, 1, 1000000⟩, 0, []⟩

theorem storeBlock_permissive (hnew : dag.hasBlock b.hash = false) :
    dag.storeBlock permissive b none =
      .ok ((dag.persist (storeOps permissive dag b)).storeInMemory b) := by
  unfold storeBlock
  rw [if_neg (by simp [hnew])]
  cases hp : dag.persistent <;> rfl

def Written (kv : Option PersistentStore) : Prop := ∃ ops, kv = some (writeBatch (fun _ => none) ops)

theorem Written.persist {kv : Option PersistentStore} (h : Written kv) (ops : List DagOp) :
    Written (kv.map (·.writeBatch ops)) := by
  obtain ⟨before, rfl⟩ := h
  exact ⟨before ++ ops, congrArg some (writeBatch_append _ before ops).symm⟩

theorem DagStep.written {call : DagCall} (hs : DagStep r dag call dag')
    (h : Written dag.persistent) : Written dag'.persistent := by
  cases hs with
  | storeBlock hok =>
    obtain ⟨-, rfl⟩ := storeBlock_ok hok
    exact h.persist _
  | finalizeBlock hok =>
    obtain rfl := finalizeBlock_ok hok
    exact h.persist _
  | updatePruningPoint hok =>
    obtain rfl := updatePruningPoint_ok hok
    exact h.persist _
  | prune hok =>
    exact prune_keeps (P := fun dag => Written dag.persistent) (fun _ height h =>
      pruneHeight_keeps (P := fun dag => Written dag.persistent) (fun _ _ h => h.persist _)
        (fun _ _ h => h) (fun _ _ h => h.persist _) h height) h hok
  | reopen hkv _ hok =>
    rw [hkv] at h
    obtain ⟨_, -, hok⟩ := Result.bind_eq_ok.mp hok
    obtain ⟨_, -, hok⟩ := Result.bind_eq_ok.mp hok
    cases hok
    exact h

theorem Runs.written {calls : List DagCall} (hr : Runs (DagStep r) opened calls dag) :
    Written dag.persistent :=
  hr.invariant (P := fun dag => Written dag.persistent) ⟨[], rfl⟩ fun _ _ _ h hs => hs.written h

theorem Written.iterates (h : Written (some kv)) : ∃ iter, Iterates kv iter := by
  obtain ⟨ops, hops⟩ := h
  rw [Option.some.inj hops]
  exact exists_iterates ops

instance decidableUnreferenced (m : ExtTreeMap Hash Block) (x : Hash) : Decidable (Unreferenced m x) :=
  decidable_of_iff (∀ e ∈ m.toList, x ∉ e.2.parents) <| by
    simp only [Unreferenced, Prod.forall, ExtTreeMap.mem_toList_iff_getElem?_eq_some]

instance decidableKeepsTips (dag : DagStore) : (call : DagCall) → Decidable (KeepsTips dag call)
  | .storeBlock b =>
    inferInstanceAs (Decidable (b.hash ≠ 0 ∧ b.hash ∉ b.parents ∧ Unreferenced dag.blocks b.hash))
  | .prune => decidable_of_iff (∀ point ∈ dag.blocks[dag.pruningPoint]?, ∀ e ∈ dag.blocks.toList,
      e.2.height < point.height → e.1 ∉ dag.tips ∧
        e.2.parents.all fun p => decide (∀ c ∈ dag.blocks[p]?, c.height < point.height)) <| by
    simp only [KeepsTips, Prod.forall, ExtTreeMap.mem_toList_iff_getElem?_eq_some, List.all_eq_true,
      decide_eq_true_eq]
  | .finalizeBlock _ | .updatePruningPoint _ | .reopen => inferInstanceAs (Decidable True)

/-- The call where every block is admitted and the backend never refuses. -/
noncomputable def tryCall (dag : DagStore) : DagCall → Option DagStore
  | .storeBlock b => (dag.storeBlock permissive b none).toOption
  | .finalizeBlock hash => (dag.finalizeBlock hash).toOption
  | .updatePruningPoint hash => (dag.updatePruningPoint hash).toOption
  | .prune => dag.prune.toOption.map Prod.snd
  | .reopen => none

theorem tryCall_step {call : DagCall} (h : tryCall dag call = some dag') :
    DagStep permissive dag call dag' := by
  have hok : ∀ {α : Type} {e : Except DagStoreError α} {a : α}, e.toOption = some a → e = .ok a := by
    rintro α (_ | _) a ha
    · cases ha
    · exact congrArg Except.ok (Option.some.inj ha)
  cases call with
  | storeBlock b => exact .storeBlock (hok h)
  | finalizeBlock hash => exact .finalizeBlock (hok h)
  | updatePruningPoint hash => exact .updatePruningPoint (hok h)
  | prune =>
    obtain ⟨⟨n, _⟩, hn, rfl⟩ := Option.map_eq_some_iff.mp h
    exact .prune (hok hn)
  | reopen => cases h

-- a chain on the genesis, whose root is pruned away
def heirBlock : Block := ⟨⟨1, 3, 1, [], 0, 1, 1, 1000000⟩, 0, []⟩
def headBlock : Block := ⟨⟨1, 4, 3, [], 0, 2, 2, 2000000⟩, 0, []⟩

def prunedCalls : List DagCall :=
  [.storeBlock looseGenesis, .storeBlock heirBlock, .updatePruningPoint 3, .prune, .storeBlock headBlock]

def ReloadDrops (calls : List DagCall) (x : Hash) : Prop := ∃ dag kv iter loaded,
  Runs (DagStep permissive) opened calls dag ∧ dag.persistent = some kv ∧ Iterates kv iter ∧
    loadFromPersistent permissive kv iter = .ok loaded ∧ x ∈ dag.tips ∧ x ∉ loaded.tips

theorem reloadDrops_of_foldlM {calls : List DagCall} {x : Hash}
    (hnodup : ∀ b, .storeBlock b ∈ calls → (linkedParents b).Nodup)
    (h : (calls.foldlM tryCall opened).any
      (fun dag => x ∈ dag.tips ∧ x ∉ derivedTips dag.blocks) = true) : ReloadDrops calls x := by
  obtain ⟨dag, hs, htip, hdropped⟩ := Runs.exists_foldlM tryCall opened calls h
  have hr : Runs (DagStep permissive) opened calls dag := hs.imp fun _ _ _ _ h => tryCall_step h
  obtain ⟨⟨rows, kv, hm⟩, hx⟩ := Runs.mirrors hr hnodup
  obtain ⟨iter, hiter⟩ := (hm.backend ▸ Runs.written hr).iterates
  refine ⟨dag, kv, iter, _, hr, hm.backend, hiter, hm.load hiter, htip, ?_⟩
  rwa [(hm.restored hx hiter).tips, ← mem_derivedTips]

end CitrateChain.Consensus.DagStore
