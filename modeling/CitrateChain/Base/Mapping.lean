import CitrateChain.Base.MapSum

/-! # Mappings with a default

A value for every key, of which finitely many were set. What is summed over the keys changes, when
one is set, by the difference of its values. -/
namespace CitrateChain
open Std (ExtTreeMap TransOrd LawfulEqOrd)

structure Mapping (K V : Type*) [Ord K] where
  entries : ExtTreeMap K V := ∅

namespace Mapping
variable {K V : Type*} [Ord K]

instance : EmptyCollection (Mapping K V) := ⟨{}⟩

variable [TransOrd K]

def get [Inhabited V] (m : Mapping K V) (k : K) : V := m.entries[k]?.getD default

def set (m : Mapping K V) (k : K) (v : V) : Mapping K V := ⟨m.entries.insert k v⟩

/-- The sum of `f` over the values of all keys, for an `f` that is zero on the default. -/
def sum (f : V → ℕ) (m : Mapping K V) : ℕ := TreeMap.sumBy (fun _ => f) m.entries

variable [LawfulEqOrd K] {m : Mapping K V} {k k' : K} {v : V} {f : V → ℕ}

omit [LawfulEqOrd K] in
@[simp] theorem get_empty [Inhabited V] (k : K) : (∅ : Mapping K V).get k = default := by
  change ((∅ : ExtTreeMap K V)[k]?).getD default = default
  rw [ExtTreeMap.getElem?_empty, Option.getD_none]

omit [LawfulEqOrd K] in
@[simp] theorem get_set_self [Inhabited V] (m : Mapping K V) (k : K) (v : V) : (m.set k v).get k = v := by
  rw [get, set, ExtTreeMap.getElem?_insert_self, Option.getD_some]

theorem get_set_of_ne [Inhabited V] (h : k' ≠ k) : (m.set k v).get k' = m.get k' := by
  rw [get, set, ExtTreeMap.getElem?_insert, if_neg]
  · rfl
  · intro hcmp
    exact h (Std.LawfulEqCmp.eq_of_compare hcmp).symm

theorem get_set [Inhabited V] [DecidableEq K] (m : Mapping K V) (k k' : K) (v : V) :
    (m.set k v).get k' = if k' = k then v else m.get k' := by
  split
  · next h => rw [h, get_set_self]
  · next h => exact get_set_of_ne h

theorem get_set_eq_update [Inhabited V] [DecidableEq K] (m : Mapping K V) (k : K) (v : V) :
    (m.set k v).get = Function.update m.get k v := by
  funext k'
  rw [get_set, Function.update_apply]

@[simp] theorem sum_empty (f : V → ℕ) : (∅ : Mapping K V).sum f = 0 := TreeMap.sumBy_empty _

theorem sum_set [Inhabited V] (hf : f default = 0) (m : Mapping K V) (k : K) (v : V) :
    (m.set k v).sum f + f (m.get k) = m.sum f + f v := by
  unfold sum set get
  cases hk : m.entries[k]? with
  | none =>
    rw [TreeMap.sumBy_insert_of_not_mem _ (TreeMap.not_mem_of_getElem? hk), Option.getD_none, hf]
    omega
  | some w => exact TreeMap.sumBy_insert_of_eq_some (fun _ => f) hk

theorem le_sum [Inhabited V] (hf : f default = 0) (m : Mapping K V) (k : K) : f (m.get k) ≤ m.sum f := by
  unfold sum get
  cases hk : m.entries[k]? with
  | none =>
    rw [Option.getD_none, hf]
    exact Nat.zero_le _
  | some w => exact TreeMap.le_sumBy (fun _ => f) hk

end Mapping

end CitrateChain
