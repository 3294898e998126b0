import Mathlib.Algebra.GroupWithZero.Nat
import Mathlib.Algebra.Order.BigOperators.Group.List
import CitrateChain.Base.TreeMap

/-! # Sums over finite maps

The entries of a map after an insertion or an erasure are a permutation of the old ones with one
entry more, or one less. What is summed over them changes by that entry. -/
namespace CitrateChain.TreeMap
open Std (ExtTreeMap TransCmp LawfulEqCmp)
variable {K V : Type*} {cmp : K → K → Ordering} [TransCmp cmp] [LawfulEqCmp cmp]
variable {m : ExtTreeMap K V cmp} {k : K} {v v' : V}

theorem nodup_toList (m : ExtTreeMap K V cmp) : m.toList.Nodup := by
  refine (ExtTreeMap.distinct_keys_toList (t := m)).imp ?_
  rintro a b hne rfl
  exact hne Std.ReflCmp.compare_self

theorem toList_insert_perm (h : k ∉ m) : (m.insert k v).toList.Perm ((k, v) :: m.toList) := by
  have hnot : (k, v) ∉ m.toList := by
    intro hmem
    rw [ExtTreeMap.mem_toList_iff_getElem?_eq_some, ExtTreeMap.getElem?_eq_none h] at hmem
    cases hmem
  rw [List.perm_ext_iff_of_nodup (nodup_toList _) (List.nodup_cons.mpr ⟨hnot, nodup_toList _⟩)]
  rintro ⟨k', v'⟩
  rw [ExtTreeMap.mem_toList_iff_getElem?_eq_some, getElem?_insert_eq_some, List.mem_cons,
    ExtTreeMap.mem_toList_iff_getElem?_eq_some, Prod.mk.injEq]
  constructor
  · rintro (⟨rfl, rfl⟩ | ⟨-, hk'⟩)
    · exact .inl ⟨rfl, rfl⟩
    · exact .inr hk'
  · rintro (⟨rfl, rfl⟩ | hk')
    · exact .inl ⟨rfl, rfl⟩
    · refine .inr ⟨?_, hk'⟩
      rintro rfl
      cases (ExtTreeMap.getElem?_eq_none h).symm.trans hk'

theorem insert_erase (m : ExtTreeMap K V cmp) (k : K) (v : V) : (m.erase k).insert k v = m.insert k v := by
  apply ExtTreeMap.ext_getElem?
  intro k'
  rw [ExtTreeMap.getElem?_insert, ExtTreeMap.getElem?_insert, ExtTreeMap.getElem?_erase]
  split <;> rfl

theorem insert_getElem? (h : m[k]? = some v) : m.insert k v = m := by
  apply ExtTreeMap.ext_getElem?
  intro k'
  rw [ExtTreeMap.getElem?_insert]
  split
  · next hk =>
    rw [← LawfulEqCmp.eq_of_compare hk, h]
  · rfl

theorem not_mem_erase_self (m : ExtTreeMap K V cmp) (k : K) : k ∉ m.erase k := by
  rw [ExtTreeMap.mem_erase]
  exact fun h => h.1 Std.ReflCmp.compare_self

theorem toList_erase_perm (h : m[k]? = some v) : m.toList.Perm ((k, v) :: (m.erase k).toList) := by
  have hperm := toList_insert_perm (v := v) (not_mem_erase_self m k)
  rwa [insert_erase, insert_getElem? h] at hperm

theorem size_insert_of_not_mem (h : k ∉ m) : (m.insert k v).size = m.size + 1 := by
  rw [← ExtTreeMap.length_toList, (toList_insert_perm h).length_eq, List.length_cons,
    ExtTreeMap.length_toList]

theorem size_erase_of_eq_some (h : m[k]? = some v) : m.size = (m.erase k).size + 1 := by
  rw [← ExtTreeMap.length_toList, (toList_erase_perm h).length_eq, List.length_cons,
    ExtTreeMap.length_toList]

theorem size_le_of_forall {K' V' : Type*} {cmp' : K' → K' → Ordering} [TransCmp cmp'] [LawfulEqCmp cmp']
    {m' : ExtTreeMap K' V' cmp'} (f : K' → V' → K)
    (h : ∀ k ∈ m, ∃ k' v', m'[k']? = some v' ∧ f k' v' = k) : m.size ≤ m'.size := by
  have hsub : m.keys ⊆ m'.toList.map fun e => f e.1 e.2 := by
    intro k hk
    obtain ⟨k', v', hv', rfl⟩ := h k (ExtTreeMap.mem_keys.mp hk)
    exact List.mem_map.mpr ⟨(k', v'), ExtTreeMap.mem_toList_iff_getElem?_eq_some.mpr hv', rfl⟩
  have hle := (ExtTreeMap.nodup_keys.subperm hsub).length_le
  rwa [ExtTreeMap.length_keys, List.length_map, ExtTreeMap.length_toList] at hle

def sumBy (f : K → V → ℕ) (m : ExtTreeMap K V cmp) : ℕ := (m.toList.map fun e => f e.1 e.2).sum

variable (f : K → V → ℕ)
include f

theorem sumBy_empty : sumBy f (∅ : ExtTreeMap K V cmp) = 0 := by
  have hnil : (∅ : ExtTreeMap K V cmp).toList = [] := by
    rw [List.eq_nil_iff_forall_not_mem]
    rintro ⟨k, v⟩ hmem
    rw [ExtTreeMap.mem_toList_iff_getElem?_eq_some, ExtTreeMap.getElem?_empty] at hmem
    cases hmem
  rw [sumBy, hnil, List.map_nil, List.sum_nil]

theorem sumBy_insert_of_not_mem (h : k ∉ m) : sumBy f (m.insert k v) = f k v + sumBy f m := by
  rw [sumBy, ((toList_insert_perm h).map _).sum_eq, List.map_cons, List.sum_cons, sumBy]

theorem sumBy_erase (h : m[k]? = some v) : sumBy f m = f k v + sumBy f (m.erase k) := by
  rw [sumBy, ((toList_erase_perm h).map _).sum_eq, List.map_cons, List.sum_cons, sumBy]

theorem sumBy_insert_of_eq_some (h : m[k]? = some v) :
    sumBy f (m.insert k v') + f k v = sumBy f m + f k v' := by
  rw [← insert_erase, sumBy_insert_of_not_mem f (not_mem_erase_self m k), sumBy_erase f h]
  omega

theorem le_sumBy (h : m[k]? = some v) : f k v ≤ sumBy f m := by
  rw [sumBy_erase f h]
  exact Nat.le_add_right _ _

theorem sum_le_sumBy {ks : List K} (hnodup : ks.Nodup) :
    (ks.map fun k => m[k]?.elim 0 (f k)).sum ≤ sumBy f m := by
  induction ks generalizing m with
  | nil => exact Nat.zero_le _
  | cons k ks ih =>
    obtain ⟨hk, hnodup⟩ := List.nodup_cons.mp hnodup
    rw [List.map_cons, List.sum_cons]
    cases hv : m[k]? with
    | none => simpa [hv] using ih hnodup
    | some v =>
      have hrest : ks.map (fun k' => (m.erase k)[k']?.elim 0 (f k')) =
          ks.map fun k' => m[k']?.elim 0 (f k') := by
        refine List.map_congr_left fun k' hk' => ?_
        rw [ExtTreeMap.getElem?_erase, if_neg]
        intro heq
        exact hk (LawfulEqCmp.eq_of_compare heq ▸ hk')
      have hle := ih (m := m.erase k) hnodup
      rw [hrest] at hle
      rw [sumBy_erase f hv]
      exact Nat.add_le_add_left hle _

end CitrateChain.TreeMap
