import Mathlib.Data.List.Dedup

/-! # Key-value stores with atomic write batches

A store is a partial map. A batch is a list of operations applied in order; what it leaves at a
key depends only on the operations that name that key. -/
namespace CitrateChain
variable {K V : Type*}

abbrev KvStore (K V : Type*) := K → Option V

inductive KvOp (K V : Type*)
  | put (key : K) (value : V)
  | delete (key : K)

def KvOp.key : KvOp K V → K
  | .put k _ => k
  | .delete k => k

def KvOp.value : KvOp K V → Option V
  | .put _ v => some v
  | .delete _ => none

namespace KvStore
variable [DecidableEq K]

def write (s : KvStore K V) (op : KvOp K V) : KvStore K V := Function.update s op.key op.value

def writeBatch (s : KvStore K V) (ops : List (KvOp K V)) : KvStore K V := ops.foldl write s

section

variable (s : KvStore K V)
include s

@[simp] theorem writeBatch_nil : s.writeBatch [] = s := rfl

@[simp] theorem writeBatch_cons (op : KvOp K V) (ops : List (KvOp K V)) :
    s.writeBatch (op :: ops) = (s.write op).writeBatch ops := rfl

theorem writeBatch_append (ops ops' : List (KvOp K V)) :
    s.writeBatch (ops ++ ops') = (s.writeBatch ops).writeBatch ops' := List.foldl_append

omit s in
theorem write_of_ne {s : KvStore K V} {op : KvOp K V} {k : K} (h : op.key ≠ k) :
    s.write op k = s k := Function.update_of_ne h.symm _ _

theorem write_put (k : K) (v : V) (k' : K) :
    s.write (.put k v) k' = if k' = k then some v else s k' := Function.update_apply s k (some v) k'

theorem write_delete (k k' : K) :
    s.write (.delete k) k' = if k' = k then none else s k' := Function.update_apply s k none k'

end

variable {s : KvStore K V} {ops : List (KvOp K V)}

theorem writeBatch_of_forall_ne {k : K} (h : ∀ op ∈ ops, op.key ≠ k) :
    s.writeBatch ops k = s k := by
  induction ops generalizing s with
  | nil => rfl
  | cons op ops ih =>
    obtain ⟨hop, hops⟩ := List.forall_mem_cons.mp h
    rw [writeBatch_cons, ih hops, write_of_ne hop]

theorem writeBatch_of_mem {k : K} (f : K → Option V) (hf : ∀ op ∈ ops, op.value = f op.key)
    (hk : ∃ op ∈ ops, op.key = k) : s.writeBatch ops k = f k := by
  induction ops generalizing s with
  | nil => simp at hk
  | cons op ops ih =>
    obtain ⟨hop, hops⟩ := List.forall_mem_cons.mp hf
    by_cases hrest : ∃ op ∈ ops, op.key = k
    · exact ih hops hrest
    · obtain ⟨op', hmem, rfl⟩ := hk
      rcases List.mem_cons.mp hmem with rfl | hmem
      · rw [writeBatch_cons, writeBatch_of_forall_ne fun op hm he => hrest ⟨op, hm, he⟩, write,
          Function.update_self, hop]
      · exact absurd ⟨op', hmem, rfl⟩ hrest

theorem writeBatch_ite {q : K → Prop} [DecidablePred q] (f : K → Option V)
    (hf : ∀ op ∈ ops, op.value = f op.key) (hq : ∀ k, (∃ op ∈ ops, op.key = k) ↔ q k) (k : K) :
    s.writeBatch ops k = if q k then f k else s k := by
  split_ifs with hk
  · exact writeBatch_of_mem f hf ((hq k).mpr hk)
  · exact writeBatch_of_forall_ne fun op hop hkey => hk ((hq k).mp ⟨op, hop, hkey⟩)

theorem writeBatch_eq_some {k : K} {v : V} (h : s.writeBatch ops k = some v) :
    .put k v ∈ ops ∨ s k = some v ∧ ∀ op ∈ ops, op.key ≠ k := by
  induction ops generalizing s with
  | nil => exact .inr ⟨h, nofun⟩
  | cons op ops ih =>
    rcases ih h with hput | ⟨hs, hne⟩
    · exact .inl (List.mem_cons_of_mem _ hput)
    by_cases hop : op.key = k
    · subst hop
      rw [write, Function.update_self] at hs
      cases op with
      | put key value =>
        cases hs
        exact .inl List.mem_cons_self
      | delete key => cases hs
    · rw [write_of_ne hop] at hs
      exact .inr ⟨hs, List.forall_mem_cons.mpr ⟨hop, hne⟩⟩

section Column
variable {C : Type*} [DecidableEq C]

def column (s : KvStore (C × K) V) (c : C) : KvStore K V := fun k => s (c, k)

def inColumn (c : C) : KvOp (C × K) V → Option (KvOp K V)
  | .put key value => if key.1 = c then some (.put key.2 value) else none
  | .delete key => if key.1 = c then some (.delete key.2) else none

theorem column_write (s : KvStore (C × K) V) (c : C) (op : KvOp (C × K) V) :
    (s.write op).column c = (s.column c).writeBatch (inColumn c op).toList := by
  funext k
  obtain ⟨⟨c', k'⟩, value⟩ | ⟨c', k'⟩ := op
  all_goals
    by_cases hc : c' = c
    · subst hc
      by_cases hk : k = k'
      · subst hk
        simp [column, inColumn, write, KvOp.key, KvOp.value]
      · simp [column, inColumn, write, KvOp.key, Function.update_of_ne, hk]
    · have hne : (c, k) ≠ (c', k') := fun he => hc (Prod.mk.inj he).1.symm
      simp [column, inColumn, write, KvOp.key, Function.update_of_ne hne, hc]

theorem column_writeBatch (s : KvStore (C × K) V) (c : C) (ops : List (KvOp (C × K) V)) :
    (s.writeBatch ops).column c = (s.column c).writeBatch (ops.filterMap (inColumn c)) := by
  induction ops generalizing s with
  | nil => rfl
  | cons op ops ih =>
    rw [writeBatch_cons, ih, column_write]
    cases h : inColumn c op with
    | none => simp [h]
    | some op' => simp [h]

end Column

section Rows
variable {X : Type*} [DecidableEq X] {key : X → K} {s : KvStore K V} {rows rows' : X → Option V}

/-- Every key stands for one `x`, and the row of `x` stands under it. -/
structure Holds (s : KvStore K V) (key : X → K) (rows : X → Option V) : Prop where
  injective : key.Injective
  row : ∀ x, s (key x) = rows x
  keyed : ∀ k v, s k = some v → ∃ x, k = key x

variable (h : s.Holds key rows)
include h

omit [DecidableEq K] [DecidableEq X] in
theorem Holds.congr (hrows : ∀ x, rows x = rows' x) : s.Holds key rows' :=
  ⟨h.injective, fun x => (h.row x).trans (hrows x), h.keyed⟩

theorem Holds.write {op : KvOp K V} {x : X} (hop : op.key = key x) :
    (s.write op).Holds key (Function.update rows x op.value) where
  injective := h.injective
  row y := by
    simp only [KvStore.write, hop, Function.update_apply, h.row, h.injective.eq_iff]
  keyed k v hv := by
    by_cases hk : op.key = k
    · exact ⟨x, hk.symm.trans hop⟩
    · rw [write_of_ne hk] at hv
      exact h.keyed k v hv

theorem Holds.put (x : X) (v : V) :
    (s.write (.put (key x) v)).Holds key (Function.update rows x (some v)) := h.write rfl

theorem Holds.delete (x : X) :
    (s.write (.delete (key x))).Holds key (Function.update rows x none) := h.write rfl

theorem Holds.puts (f : X → V) (xs : List X) :
    (s.writeBatch (xs.map fun x => .put (key x) (f x))).Holds key fun x =>
      if x ∈ xs then some (f x) else rows x := by
  induction xs generalizing s rows with
  | nil => exact h.congr fun x => by simp
  | cons x xs ih =>
    refine (ih (h.put x (f x))).congr fun y => ?_
    by_cases hy : y = x
    · simp [hy]
    · simp [hy]

end Rows

def ListedBy (s : KvStore K V) (l : List (K × V)) : Prop := ∀ k v, (k, v) ∈ l ↔ s k = some v

theorem exists_listing (ops : List (KvOp K V)) : ∃ l : List (K × V), (l.map Prod.fst).Nodup ∧
    ListedBy (KvStore.writeBatch (fun _ => none) ops) l := by
  generalize hs : KvStore.writeBatch (fun _ => none) ops = s
  let keys := (ops.map KvOp.key).dedup
  refine ⟨keys.filterMap fun k => (s k).map (Prod.mk k), ?_, ?_⟩
  · have hkeys : ∀ ks : List K, (ks.filterMap fun k => (s k).map (Prod.mk k)).map Prod.fst =
        ks.filter fun k => (s k).isSome := by
      intro ks
      induction ks with
      | nil => rfl
      | cons k ks ih =>
        cases hk : s k with
        | none => simpa [hk] using ih
        | some v => simpa [hk] using ih
    rw [hkeys]
    exact (List.nodup_dedup _).filter _
  · intro k v
    rw [List.mem_filterMap]
    constructor
    · rintro ⟨k', -, hk'⟩
      obtain ⟨v', hv', he⟩ := Option.map_eq_some_iff.mp hk'
      cases he
      exact hv'
    · intro hv
      refine ⟨k, ?_, by rw [hv]; rfl⟩
      rw [← hs] at hv
      rcases writeBatch_eq_some hv with hput | ⟨hnone, -⟩
      · exact List.mem_dedup.mpr (List.mem_map.mpr ⟨_, hput, rfl⟩)
      · cases hnone

variable {l : List (K × V)} {f : K × V → Option (KvOp K V)}

theorem ListedBy.writeBatch_filterMap (h : s.ListedBy l)
    (hf : ∀ e ∈ l, ∀ op, f e = some op → op.key = e.1) (k : K) :
    s.writeBatch (l.filterMap f) k = (s k).bind fun v => (f (k, v)).elim (some v) KvOp.value := by
  by_cases hk : ∃ op ∈ l.filterMap f, op.key = k
  · refine writeBatch_of_mem (fun k => (s k).bind fun v => (f (k, v)).elim (some v) KvOp.value) ?_ hk
    intro op hop
    obtain ⟨⟨k', v⟩, he, hfe⟩ := List.mem_filterMap.mp hop
    obtain rfl : op.key = k' := hf _ he op hfe
    rw [(h _ _).mp he, Option.bind_some, hfe]
    rfl
  · rw [writeBatch_of_forall_ne fun op hop he => hk ⟨op, hop, he⟩]
    cases hv : s k with
    | none => rfl
    | some v =>
      have he := (h k v).mpr hv
      cases hfe : f (k, v) with
      | none => rw [Option.bind_some, hfe, Option.elim_none]
      | some op => exact absurd ⟨op, List.mem_filterMap.mpr ⟨_, he, hfe⟩, hf _ he op hfe⟩ hk

theorem Holds.writeBatch_filterMap {X : Type*} {key : X → K} {rows : X → Option V}
    (h : s.Holds key rows) (hl : s.ListedBy l)
    (hf : ∀ x v op, rows x = some v → f (key x, v) = some op → op.key = key x) :
    (s.writeBatch (l.filterMap f)).Holds key fun x =>
      (rows x).bind fun v => (f (key x, v)).elim (some v) KvOp.value := by
  have hkeys : ∀ e ∈ l, ∀ op, f e = some op → op.key = e.1 := by
    rintro ⟨k, v⟩ he op hop
    have hrow := (hl k v).mp he
    obtain ⟨x, rfl⟩ := h.keyed k v hrow
    exact hf x v op (h.row x ▸ hrow) hop
  refine ⟨h.injective, fun x => ?_, fun k v hv => ?_⟩
  · rw [hl.writeBatch_filterMap hkeys, h.row]
  · rw [hl.writeBatch_filterMap hkeys] at hv
    obtain ⟨v', hv', -⟩ := Option.bind_eq_some_iff.mp hv
    exact h.keyed k v' hv'

theorem ListedBy.writeBatch (h : s.ListedBy l) :
    KvStore.writeBatch (fun _ => none) (l.map fun e => .put e.1 e.2) = s := by
  funext k
  cases hk : s k with
  | none =>
    apply writeBatch_of_forall_ne
    rintro op hop rfl
    obtain ⟨e, he, rfl⟩ := List.mem_map.mp hop
    have hsome := (h e.1 e.2).mp he
    cases (show s e.1 = none from hk).symm.trans hsome
  | some v =>
    rw [writeBatch_of_mem s, hk]
    · intro op hop
      obtain ⟨e, he, rfl⟩ := List.mem_map.mp hop
      exact ((h e.1 e.2).mp he).symm
    · exact ⟨_, List.mem_map.mpr ⟨(k, v), (h k v).mpr hk, rfl⟩, rfl⟩

end KvStore

/-! ## Undo logs

A log lists, for some keys, what an earlier store held there. It is complete for a later store when
the two agree on every other key; writing it back then gives the earlier store. -/

def KvOp.restore (e : K × Option V) : KvOp K V :=
  match e.2 with
  | some v => .put e.1 v
  | none => .delete e.1

@[simp] theorem KvOp.restore_key (e : K × Option V) : (KvOp.restore e).key = e.1 := by
  unfold KvOp.restore
  split
  · rfl
  · rfl

@[simp] theorem KvOp.restore_value (e : K × Option V) : (KvOp.restore e).value = e.2 := by
  unfold KvOp.restore
  split
  · rename_i h
    exact h.symm
  · rename_i h
    exact h.symm

namespace KvStore
variable {log : List (K × Option V)} {now before : KvStore K V}

/-- `log` holds what `before` held, at every key where `now` differs from it. -/
structure PreImages (log : List (K × Option V)) (now before : KvStore K V) : Prop where
  held : ∀ e ∈ log, e.2 = before e.1
  rest : ∀ k, k ∉ log.map Prod.fst → now k = before k

theorem PreImages.nil (s : KvStore K V) : PreImages [] s s := ⟨nofun, fun _ _ => rfl⟩

variable [DecidableEq K]

def restore (s : KvStore K V) (log : List (K × Option V)) : KvStore K V :=
  s.writeBatch (log.map KvOp.restore)

theorem PreImages.restore (h : PreImages log now before) : now.restore log = before := by
  funext k
  rw [KvStore.restore, writeBatch_ite (q := (· ∈ log.map Prod.fst)) before]
  · exact ite_eq_left_iff.mpr (h.rest k)
  · refine List.forall_mem_map.mpr fun e he => ?_
    rw [KvOp.restore_key, KvOp.restore_value]
    exact h.held e he
  · intro k
    simp [KvOp.restore_key]

theorem PreImages.extend (h : PreImages log now before) {more : List (K × Option V)}
    {ops : List (KvOp K V)} (hmore : ∀ e ∈ more, e.1 ∉ log.map Prod.fst ∧ e.2 = now e.1)
    (hops : ∀ op ∈ ops, op.key ∈ log.map Prod.fst ∨ op.key ∈ more.map Prod.fst) :
    PreImages (log ++ more) (now.writeBatch ops) before := by
  refine ⟨fun e he => ?_, fun k hk => ?_⟩
  · rcases List.mem_append.mp he with he | he
    · exact h.held e he
    · obtain ⟨hnot, hnow⟩ := hmore e he
      exact hnow.trans (h.rest e.1 hnot)
  · rw [List.map_append, List.mem_append, not_or] at hk
    rw [writeBatch_of_forall_ne, h.rest k hk.1]
    rintro op hop rfl
    exact (hops op hop).elim hk.1 hk.2

end KvStore

end CitrateChain
