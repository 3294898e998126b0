import Mathlib.Order.WellFounded

/-! # 64-bit machine words

The order of `UInt64` as a linear order, and the saturating and checked operations. -/
namespace CitrateChain.Word

instance order : LinearOrder UInt64 where
  le_refl := UInt64.le_refl
  le_trans _ _ _ := UInt64.le_trans
  lt_iff_le_not_ge a b := by
    simp only [UInt64.lt_iff_toNat_lt, UInt64.le_iff_toNat_le]
    omega
  le_antisymm _ _ := UInt64.le_antisymm
  le_total := UInt64.le_total
  toDecidableLE := inferInstance
  compare_eq_compareOfLessAndEq _ _ := rfl

theorem exists_isGreatest {words : Set UInt64} (h : words.Nonempty) : ∃ m, IsGreatest words m := by
  have hwf := InvImage.wf (fun k : UInt64 => UInt64.size - k.toNat) Nat.lt_wfRel.wf
  obtain ⟨m, hm, hmin⟩ := hwf.has_min words h
  refine ⟨m, hm, fun k hk => not_lt.mp fun hlt => hmin k hk ?_⟩
  have hlt := UInt64.lt_iff_toNat_lt.mp hlt
  have hbound := k.toNat_lt_size
  exact Nat.sub_lt_sub_left (by omega) hlt

def maxWord : UInt64 := UInt64.ofNat (UInt64.size - 1)

def checkedAdd (a b : UInt64) : Option UInt64 :=
  if a.toNat + b.toNat < UInt64.size then some (a + b) else none

def checkedMul (a b : UInt64) : Option UInt64 :=
  if a.toNat * b.toNat < UInt64.size then some (a * b) else none

def checkedSub (a b : UInt64) : Option UInt64 := if b ≤ a then some (a - b) else none

def checkedDiv (a b : UInt64) : Option UInt64 :=
  if b = 0 then none else some (a / b)

def saturatingMul (a b : UInt64) : UInt64 := (checkedMul a b).getD maxWord

def saturatingAdd (a b : UInt64) : UInt64 := (checkedAdd a b).getD maxWord

def saturatingSub (a b : UInt64) : UInt64 := if b ≤ a then a - b else 0

variable {a b c : UInt64}

theorem checkedAdd_toNat (h : checkedAdd a b = some c) : c.toNat = a.toNat + b.toNat := by
  unfold checkedAdd at h
  split at h
  · rename_i hlt
    cases h
    rw [UInt64.toNat_add, Nat.mod_eq_of_lt hlt]
  · cases h

theorem checkedAdd_eq_some : checkedAdd a b = some c ↔ c.toNat = a.toNat + b.toNat := by
  refine ⟨checkedAdd_toNat, fun h => ?_⟩
  have hlt : a.toNat + b.toNat < UInt64.size := h ▸ c.toNat_lt_size
  rw [checkedAdd, if_pos hlt, Option.some_inj, ← UInt64.toNat_inj, h, UInt64.toNat_add,
    Nat.mod_eq_of_lt hlt]

theorem checkedMul_eq_some : checkedMul a b = some c ↔ c.toNat = a.toNat * b.toNat := by
  have hc := c.toNat_lt_size
  rw [checkedMul, Option.ite_none_right_eq_some, Option.some_inj, ← UInt64.toNat_inj, UInt64.toNat_mul]
  constructor
  · rintro ⟨hlt, h⟩
    rw [← h, Nat.mod_eq_of_lt hlt]
  · intro h
    rw [← h, Nat.mod_eq_of_lt hc]
    exact ⟨hc, rfl⟩

theorem checkedSub_eq_some : checkedSub a b = some c ↔ c.toNat + b.toNat = a.toNat := by
  rw [checkedSub, Option.ite_none_right_eq_some, Option.some_inj, ← UInt64.toNat_inj]
  constructor
  · rintro ⟨hle, h⟩
    rw [← h, UInt64.toNat_sub_of_le _ _ hle, Nat.sub_add_cancel (UInt64.le_iff_toNat_le.mp hle)]
  · intro h
    have hle : b ≤ a := UInt64.le_iff_toNat_le.mpr (by omega)
    rw [UInt64.toNat_sub_of_le _ _ hle]
    exact ⟨hle, by omega⟩

theorem le_saturatingAdd (a b : UInt64) : a ≤ saturatingAdd a b := by
  rw [UInt64.le_iff_toNat_le]
  unfold saturatingAdd checkedAdd
  split
  · rename_i h
    rw [Option.getD_some, UInt64.toNat_add, Nat.mod_eq_of_lt h]
    omega
  · have hmax : maxWord.toNat = UInt64.size - 1 := rfl
    have ha := a.toNat_lt_size
    rw [Option.getD_none, hmax]
    omega

theorem saturatingAdd_toNat_of_lt {a b : UInt64} (h : a.toNat + b.toNat < UInt64.size) :
    (saturatingAdd a b).toNat = a.toNat + b.toNat := by
  unfold saturatingAdd checkedAdd
  rw [if_pos h, Option.getD_some, UInt64.toNat_add, Nat.mod_eq_of_lt h]

theorem saturatingSub_toNat (a b : UInt64) : (saturatingSub a b).toNat = a.toNat - b.toNat := by
  unfold saturatingSub
  split
  · rename_i h
    exact UInt64.toNat_sub_of_le _ _ h
  · rename_i h
    rw [UInt64.le_iff_toNat_le] at h
    change 0 = _
    omega

end CitrateChain.Word
