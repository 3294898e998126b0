import Mathlib.Data.List.Perm.Subperm

/-! # Facts about finite maps

Entry-wise facts about `Std.ExtTreeMap` with a lawful comparison: how entries survive erasure
and filtering, and how inclusion bounds the number of entries. -/
namespace CitrateChain

/-- Pairs are ordered by their first component, then by their second. -/
instance pairOrd {α β : Type*} [Ord α] [Ord β] : Ord (α × β) := lexOrd

abbrev PairSet (α β : Type*) [Ord α] [Ord β] := Std.ExtTreeMap (α × β) Unit

-- named at the widths in use, so that definitions refer to a constant
instance transOrd256 : Std.TransOrd (BitVec 256) := inferInstance

instance transOrd160 : Std.TransOrd (BitVec 160) := inferInstance

instance transOrdPair : Std.TransOrd (BitVec 256 × BitVec 256) := inferInstance

instance transOrdIndexed : Std.TransOrd (UInt64 × BitVec 256) := inferInstance

instance lawfulBEq256 : LawfulBEq (BitVec 256) := inferInstance

end CitrateChain

namespace CitrateChain.TreeMap
open Std (ExtTreeMap TransCmp LawfulEqCmp)
variable {K V : Type*} {cmp : K → K → Ordering} [TransCmp cmp] [LawfulEqCmp cmp]
variable {m n : ExtTreeMap K V cmp} {k k' : K} {v v' : V}

omit [LawfulEqCmp cmp] in
theorem mem_iff_exists : k ∈ m ↔ ∃ v, m[k]? = some v :=
  ExtTreeMap.mem_iff_isSome_getElem?.trans Option.isSome_iff_exists

omit [LawfulEqCmp cmp] in
theorem mem_of_getElem? (h : m[k]? = some v) : k ∈ m := mem_iff_exists.mpr ⟨v, h⟩

omit [LawfulEqCmp cmp] in
theorem not_mem_of_getElem? (h : m[k]? = none) : k ∉ m := by
  rw [ExtTreeMap.mem_iff_isSome_getElem?, h]
  exact Bool.false_ne_true

def Sub (m n : ExtTreeMap K V cmp) : Prop := ∀ (k : K) (v : V), m[k]? = some v → n[k]? = some v

omit [LawfulEqCmp cmp] in
theorem Sub.refl (m : ExtTreeMap K V cmp) : Sub m m := fun _ _ h => h

omit [LawfulEqCmp cmp] in
theorem Sub.trans {o : ExtTreeMap K V cmp} (h : Sub m n) (h' : Sub n o) : Sub m o :=
  fun k v hk => h' k v (h k v hk)

theorem getElem?_insert_eq_some : (m.insert k v)[k']? = some v' ↔
    (k = k' ∧ v = v') ∨ (k ≠ k' ∧ m[k']? = some v') := by
  rw [ExtTreeMap.getElem?_insert]
  by_cases h : k = k'
  · simp [h]
  · simp [h, LawfulEqCmp.compare_eq_iff_eq]

theorem getElem?_insert_ite [DecidableEq K] :
    (m.insert k v)[k']? = if k' = k then some v else m[k']? := by
  rw [ExtTreeMap.getElem?_insert]
  by_cases h : k = k'
  · simp [h]
  · simp [h, Ne.symm h, LawfulEqCmp.compare_eq_iff_eq]

theorem getElem?_erase_eq_some : (m.erase k)[k']? = some v' ↔ k ≠ k' ∧ m[k']? = some v' := by
  rw [ExtTreeMap.getElem?_erase]
  by_cases h : k = k'
  · simp [h]
  · simp [h, LawfulEqCmp.compare_eq_iff_eq]

theorem getElem?_erase_ite [DecidableEq K] : (m.erase k)[k']? = if k' = k then none else m[k']? := by
  rw [ExtTreeMap.getElem?_erase]
  by_cases h : k = k'
  · simp [h]
  · simp [h, Ne.symm h, LawfulEqCmp.compare_eq_iff_eq]

theorem getElem?_filter_eq_some {p : K → V → Bool} :
    (m.filter p)[k]? = some v ↔ m[k]? = some v ∧ p k v = true := by
  rw [ExtTreeMap.getElem?_filter, Option.pfilter_eq_some_iff]
  constructor
  all_goals
    rintro ⟨h, hp⟩
    exact ⟨h, by simpa using hp⟩

theorem erase_sub (m : ExtTreeMap K V cmp) (k : K) : Sub (m.erase k) m :=
  fun _ _ h => (getElem?_erase_eq_some.mp h).2

theorem filter_sub (m : ExtTreeMap K V cmp) (p : K → V → Bool) : Sub (m.filter p) m :=
  fun _ _ h => (getElem?_filter_eq_some.mp h).1

theorem foldl_erase_sub (ks : List K) (m : ExtTreeMap K V cmp) : Sub (ks.foldl .erase m) m := by
  induction ks generalizing m with
  | nil => exact .refl m
  | cons k ks ih => exact (ih (m.erase k)).trans (erase_sub m k)

theorem mem_foldl_erase {ks : List K} : k ∈ ks.foldl ExtTreeMap.erase m ↔ k ∈ m ∧ k ∉ ks := by
  induction ks generalizing m with
  | nil => simp
  | cons k' ks ih =>
    rw [List.foldl_cons, ih, ExtTreeMap.mem_erase, List.mem_cons, Ne, LawfulEqCmp.compare_eq_iff_eq]
    tauto

theorem mem_foldl_insert_unit {m : ExtTreeMap K Unit cmp} {ks : List K} :
    k ∈ ks.foldl (fun m k => m.insert k ()) m ↔ k ∈ m ∨ k ∈ ks := by
  induction ks generalizing m with
  | nil => simp
  | cons k' ks ih =>
    rw [List.foldl_cons, ih, ExtTreeMap.mem_insert, LawfulEqCmp.compare_eq_iff_eq, List.mem_cons]
    tauto

theorem Sub.size_le (h : Sub m n) : m.size ≤ n.size := by
  have hk : m.keys ⊆ n.keys := by
    intro k hk
    rw [ExtTreeMap.mem_keys] at hk ⊢
    obtain ⟨v, hv⟩ := mem_iff_exists.mp hk
    exact mem_of_getElem? (h k v hv)
  have hl := (ExtTreeMap.nodup_keys.subperm hk).length_le
  rwa [ExtTreeMap.length_keys, ExtTreeMap.length_keys] at hl

theorem size_eq_one (hk : k ∈ m) (honly : ∀ k' ∈ m, k' = k) : m.size = 1 := by
  have hkeys : m.keys = [k] := by
    refine List.perm_singleton.mp ((List.perm_ext_iff_of_nodup ExtTreeMap.nodup_keys
      (List.pairwise_singleton _ k)).mpr fun k' => ?_)
    rw [ExtTreeMap.mem_keys, List.mem_singleton]
    exact ⟨honly k', fun h => h ▸ hk⟩
  rw [← ExtTreeMap.length_keys, hkeys]
  rfl

variable {es : List (K × V)}

theorem getElem?_foldl_insert_of_forall_ne (h : ∀ e ∈ es, e.1 ≠ k) :
    (es.foldl (fun m e => m.insert e.1 e.2) m)[k]? = m[k]? := by
  induction es generalizing m with
  | nil => rfl
  | cons e es ih =>
    obtain ⟨he, hes⟩ := List.forall_mem_cons.mp h
    rw [List.foldl_cons, ih hes, ExtTreeMap.getElem?_insert,
      if_neg (by rwa [LawfulEqCmp.compare_eq_iff_eq])]

theorem getElem?_foldl_insert_eq_some
    (h : (es.foldl (fun m e => m.insert e.1 e.2) m)[k]? = some v) :
    (k, v) ∈ es ∨ (∀ e ∈ es, e.1 ≠ k) ∧ m[k]? = some v := by
  induction es generalizing m with
  | nil => exact .inr ⟨nofun, h⟩
  | cons e es ih =>
    rcases ih h with hmem | ⟨hne, hk⟩
    · exact .inl (List.mem_cons_of_mem _ hmem)
    · rcases getElem?_insert_eq_some.mp hk with ⟨rfl, rfl⟩ | ⟨hek, hm⟩
      · exact .inl List.mem_cons_self
      · exact .inr ⟨List.forall_mem_cons.mpr ⟨hek, hne⟩, hm⟩

theorem getElem?_foldl_insert_nodup (hnodup : (es.map Prod.fst).Nodup) :
    (es.foldl (fun m e => m.insert e.1 e.2) (∅ : ExtTreeMap K V cmp))[k]? = some v ↔ (k, v) ∈ es := by
  constructor
  · intro h
    rcases getElem?_foldl_insert_eq_some h with hmem | ⟨-, hnone⟩
    · exact hmem
    · exact absurd hnone (by simp)
  · intro hmem
    rw [← ExtTreeMap.ofList_eq_foldl]
    refine ExtTreeMap.getElem?_ofList_of_mem Std.ReflCmp.compare_self ?_ hmem
    rw [List.Nodup, List.pairwise_map] at hnodup
    refine hnodup.imp fun hne => ?_
    rwa [LawfulEqCmp.compare_eq_iff_eq]

theorem getElem?_foldl_insert_by {A : Type*} {key : A → K} {val : A → V} {l : List A}
    (hnodup : (l.map key).Nodup) :
    (l.foldl (fun m a => m.insert (key a) (val a)) (∅ : ExtTreeMap K V cmp))[k]? = some v ↔
      ∃ a ∈ l, key a = k ∧ val a = v := by
  have hpairs : ((l.map fun a => (key a, val a)).map Prod.fst).Nodup := by rwa [List.map_map]
  have hfold : ((l.map fun a => (key a, val a)).foldl (fun m e => m.insert e.1 e.2)
      (∅ : ExtTreeMap K V cmp))[k]? = some v ↔ _ := getElem?_foldl_insert_nodup hpairs
  rw [List.foldl_map] at hfold
  simpa only [List.mem_map, Prod.mk.injEq] using hfold

theorem getD_insert_append {W : Type*} {m : ExtTreeMap K (List W) cmp} [DecidableEq K] {w : W} :
    (m.insert k (m.getD k [] ++ [w])).getD k' [] =
      if k = k' then m.getD k' [] ++ [w] else m.getD k' [] := by
  rw [ExtTreeMap.getD_insert]
  by_cases h : k = k'
  · subst h
    simp
  · simp [h, LawfulEqCmp.compare_eq_iff_eq]

theorem foldl_insert_toList (m : ExtTreeMap K V cmp) :
    m.toList.foldl (fun m e => m.insert e.1 e.2) ∅ = m := by
  apply ExtTreeMap.ext_getElem?
  intro k
  cases hk : m[k]? with
  | some v =>
    rw [← ExtTreeMap.ofList_eq_foldl]
    exact ExtTreeMap.getElem?_ofList_of_mem Std.ReflCmp.compare_self
      ExtTreeMap.distinct_keys_toList (ExtTreeMap.mem_toList_iff_getElem?_eq_some.mpr hk)
  | none =>
    rw [getElem?_foldl_insert_of_forall_ne, ExtTreeMap.getElem?_empty]
    rintro ⟨_, v⟩ he rfl
    cases (ExtTreeMap.mem_toList_iff_getElem?_eq_some.mp he).symm.trans hk

end CitrateChain.TreeMap
