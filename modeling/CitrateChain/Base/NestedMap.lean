import CitrateChain.Base.MapSum

/-! # Maps of rows

A finite map from row names to rows, each row a finite map. Rows are made when their first entry is
put and removed with their last one, so a row that stands is not empty. -/
namespace CitrateChain
open TreeMap
open Std (ExtTreeMap TransOrd LawfulEqOrd)

abbrev NestedMap (A B V : Type*) [Ord A] [Ord B] := ExtTreeMap A (ExtTreeMap B V)

namespace NestedMap
variable {A B V : Type*} [Ord A] [Ord B] [TransOrd A] [TransOrd B]
variable {m : NestedMap A B V} {a a' : A} {b b' : B} {v : V} {r : ExtTreeMap B V}

def get (m : NestedMap A B V) (a : A) (b : B) : Option V := m[a]?.bind (·[b]?)

def put (m : NestedMap A B V) (a : A) (b : B) (v : V) : NestedMap A B V :=
  m.insert a ((m[a]?.getD ∅).insert b v)

def drop (m : NestedMap A B V) (a : A) (b : B) : NestedMap A B V :=
  match m[a]? with
  | none => m
  | some row => if (row.erase b).isEmpty then m.erase a else m.insert a (row.erase b)

def rowSize (m : NestedMap A B V) (a : A) : ℕ := (m[a]?.map ExtTreeMap.size).getD 0

def count (m : NestedMap A B V) : ℕ := sumBy (fun _ row => row.size) m

def Proper (m : NestedMap A B V) : Prop := ∀ (a : A) (row : ExtTreeMap B V), m[a]? = some row → row ≠ ∅

def row (m : NestedMap A B V) (a : A) : ExtTreeMap B V := m[a]?.getD ∅

theorem get_eq_some : get m a b = some v ↔ ∃ r, m[a]? = some r ∧ r[b]? = some v :=
  Option.bind_eq_some_iff

theorem get_eq_row : get m a b = (row m a)[b]? := by
  unfold get row
  cases m[a]? with
  | none => exact ExtTreeMap.getElem?_empty.symm
  | some r => rfl

theorem get_of_row (h : m[a]? = some r) (b : B) : get m a b = r[b]? := by
  rw [get, h, Option.bind_some]

omit [TransOrd B] in
theorem rowSize_eq_row : rowSize m a = (row m a).size := by
  unfold rowSize row
  cases m[a]? with
  | none => exact ExtTreeMap.size_empty.symm
  | some r => rfl

omit [TransOrd B] in
theorem rowSize_of_row (h : m[a]? = some r) : rowSize m a = r.size := by
  rw [rowSize, h, Option.map_some, Option.getD_some]

variable [LawfulEqOrd A]

section Rows
variable [DecidableEq A]

omit [TransOrd B] in
theorem row_erase (m : NestedMap A B V) (a a' : A) :
    row (m.erase a) a' = if a' = a then ∅ else row m a' := by
  unfold row
  rw [getElem?_erase_ite]
  split
  · rfl
  · rfl

theorem row_put (m : NestedMap A B V) (a a' : A) (b : B) (v : V) :
    row (put m a b v) a' = if a' = a then (row m a).insert b v else row m a' := by
  unfold row put
  rw [getElem?_insert_ite]
  split
  · rfl
  · rfl

theorem row_drop (m : NestedMap A B V) (a a' : A) (b : B) :
    row (drop m a b) a' = if a' = a then (row m a).erase b else row m a' := by
  have hrow : ∀ {r : ExtTreeMap B V}, m[a]? = some r → row m a = r := fun h => by
    rw [row, h, Option.getD_some]
  unfold drop
  split
  · rename_i hnone
    split
    · rename_i ha
      rw [ha, row, hnone, Option.getD_none, ExtTreeMap.erase_empty]
    · rfl
  · rename_i r hr
    rw [hrow hr]
    split
    · rename_i hempty
      rw [row_erase, ExtTreeMap.isEmpty_iff.mp hempty]
    · unfold row
      rw [getElem?_insert_ite]
      split
      · rfl
      · rfl

theorem get_erase (m : NestedMap A B V) (a a' : A) (b : B) :
    get (m.erase a) a' b = if a' = a then none else get m a' b := by
  rw [get_eq_row, row_erase]
  split
  · exact ExtTreeMap.getElem?_empty
  · exact get_eq_row.symm

end Rows

variable [LawfulEqOrd B]

section Entries
variable [DecidableEq A] [DecidableEq B]

theorem get_put (m : NestedMap A B V) (a a' : A) (b b' : B) (v : V) :
    get (put m a b v) a' b' = if a' = a ∧ b' = b then some v else get m a' b' := by
  rw [get_eq_row, get_eq_row, row_put]
  by_cases ha : a' = a
  · simp [ha, getElem?_insert_ite]
  · simp [ha]

theorem get_drop (m : NestedMap A B V) (a a' : A) (b b' : B) :
    get (drop m a b) a' b' = if a' = a ∧ b' = b then none else get m a' b' := by
  rw [get_eq_row, get_eq_row, row_drop]
  by_cases ha : a' = a
  · simp [ha, getElem?_erase_ite]
  · simp [ha]

end Entries

namespace Proper

omit [LawfulEqOrd A] [TransOrd B] [LawfulEqOrd B] in
theorem empty : Proper (∅ : NestedMap A B V) := by
  intro a row h
  cases ExtTreeMap.getElem?_empty.symm.trans h

omit [LawfulEqOrd A] [LawfulEqOrd B] in
theorem mem_iff (h : Proper m) : a ∈ m ↔ ∃ b v, get m a b = some v := by
  constructor
  · intro ha
    obtain ⟨r, hr⟩ := TreeMap.mem_iff_exists.mp ha
    have hne := h a r hr
    rw [Ne, ExtTreeMap.eq_empty_iff_forall_not_mem, not_forall_not] at hne
    obtain ⟨b, hb⟩ := hne
    obtain ⟨v, hv⟩ := TreeMap.mem_iff_exists.mp hb
    exact ⟨b, v, get_eq_some.mpr ⟨r, hr, hv⟩⟩
  · rintro ⟨b, v, hv⟩
    obtain ⟨r, hr, -⟩ := get_eq_some.mp hv
    exact mem_of_getElem? hr

omit [LawfulEqOrd B] in
theorem put (h : Proper m) (a : A) (b : B) (v : V) : Proper (m.put a b v) := by
  intro a' row hrow
  rcases getElem?_insert_eq_some.mp hrow with ⟨rfl, rfl⟩ | ⟨-, hold⟩
  · exact ExtTreeMap.ne_empty_of_mem ExtTreeMap.mem_insert_self
  · exact h a' row hold

omit [TransOrd B] [LawfulEqOrd B] in
theorem erase (h : Proper m) (a : A) : Proper (ExtTreeMap.erase m a) :=
  fun a' row hrow => h a' row (getElem?_erase_eq_some.mp hrow).2

omit [LawfulEqOrd B] in
theorem drop (h : Proper m) (a : A) (b : B) : Proper (m.drop a b) := by
  unfold NestedMap.drop
  split
  · exact h
  · rename_i row hrow
    split
    · exact h.erase a
    · rename_i hne
      intro a' row' hrow'
      rcases getElem?_insert_eq_some.mp hrow' with ⟨rfl, rfl⟩ | ⟨-, hold⟩
      · exact fun he => hne (ExtTreeMap.isEmpty_iff.mpr he)
      · exact h a' row' hold

end Proper

theorem rowSize_put [DecidableEq A] (h : get m a b = none) (v : V) (a' : A) :
    rowSize (put m a b v) a' = if a' = a then rowSize m a + 1 else rowSize m a' := by
  rw [get_eq_row] at h
  simp only [rowSize_eq_row, row_put]
  split
  · exact size_insert_of_not_mem (not_mem_of_getElem? h)
  · rfl

omit [LawfulEqOrd A] in
theorem rowSize_pos (h : get m a b = some v) : 0 < rowSize m a := by
  rw [get_eq_row] at h
  rw [rowSize_eq_row, size_erase_of_eq_some h]
  exact Nat.succ_pos _

theorem rowSize_drop [DecidableEq A] (h : get m a b = some v) (a' : A) :
    rowSize (drop m a b) a' = if a' = a then rowSize m a - 1 else rowSize m a' := by
  rw [get_eq_row] at h
  simp only [rowSize_eq_row, row_drop]
  split
  · rw [size_erase_of_eq_some h, Nat.add_sub_cancel]
  · rfl

omit [LawfulEqOrd B] in
theorem rowSize_drop_le [DecidableEq A] (m : NestedMap A B V) (a a' : A) (b : B) :
    rowSize (drop m a b) a' ≤ rowSize m a' := by
  simp only [rowSize_eq_row, row_drop]
  split
  · rename_i ha
    exact ha ▸ ExtTreeMap.size_erase_le
  · exact le_rfl

theorem count_put (h : get m a b = none) (v : V) : count (put m a b v) = count m + 1 := by
  unfold count put
  cases hrow : m[a]? with
  | none =>
    rw [sumBy_insert_of_not_mem _ (not_mem_of_getElem? hrow), Option.getD_none,
      size_insert_of_not_mem ExtTreeMap.not_mem_empty, ExtTreeMap.size_empty]
    omega
  | some row =>
    rw [get_of_row hrow] at h
    have hb := not_mem_of_getElem? h
    have hsum : sumBy (fun _ row => row.size) (ExtTreeMap.insert m a (row.insert b v)) +
        row.size = sumBy (fun _ row => row.size) m + (row.insert b v).size :=
      sumBy_insert_of_eq_some _ hrow
    rw [size_insert_of_not_mem hb] at hsum
    rw [Option.getD_some]
    omega

omit [TransOrd B] [LawfulEqOrd B] in
theorem count_erase (h : m[a]? = some r) : count m = r.size + count (m.erase a) :=
  sumBy_erase _ h

theorem count_drop (h : get m a b = some v) : count m = count (drop m a b) + 1 := by
  obtain ⟨row, hrow, hb⟩ := get_eq_some.mp h
  have hsize := size_erase_of_eq_some hb
  unfold drop
  rw [hrow]
  dsimp only
  split
  · rename_i hempty
    have hzero := ExtTreeMap.eq_empty_iff_size_eq_zero.mp (ExtTreeMap.isEmpty_iff.mp hempty)
    rw [count_erase hrow]
    omega
  · have hsum : sumBy (fun _ row => row.size) (ExtTreeMap.insert m a (row.erase b)) +
        row.size = sumBy (fun _ row => row.size) m + (row.erase b).size :=
      sumBy_insert_of_eq_some _ hrow
    unfold count
    omega

end NestedMap

end CitrateChain
