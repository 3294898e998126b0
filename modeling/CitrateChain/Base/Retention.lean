import Mathlib.Data.Finset.Card
import CitrateChain.Base.TreeMap

/-! # Retention of the greatest keys

A bounded set that takes every new element in and drops its least when it is over the bound has the
greatest elements of all it was given, in whatever order they came. -/
namespace CitrateChain.Retention
variable {α : Type*} [LinearOrder α] {n : ℕ} {R T : Finset α} {a m : α}

def greatest (n : ℕ) (R : Finset α) : Finset α := {x ∈ R | ({y ∈ R | x < y} : Finset α).card < n}

structure Retains (n : ℕ) (R T : Finset α) : Prop where
  sub : T ⊆ R
  card_le : T.card ≤ n
  upward : ∀ x ∈ T, ∀ y ∈ R, x < y → y ∈ T
  full : T.card = n ∨ T = R

theorem Retains.empty (n : ℕ) : Retains n (∅ : Finset α) ∅ where
  sub := subset_rfl
  card_le := by simp
  upward := by simp
  full := .inr rfl

theorem Retains.eq_greatest (h : Retains n R T) : T = greatest n R := by
  ext x
  rw [greatest, Finset.mem_filter]
  constructor
  · intro hx
    have habove : ({y ∈ R | x < y} : Finset α) ⊆ T.erase x := by
      intro y hy
      obtain ⟨hy, hlt⟩ := Finset.mem_filter.mp hy
      exact Finset.mem_erase.mpr ⟨hlt.ne', h.upward x hx y hy hlt⟩
    refine ⟨h.sub hx, (Finset.card_le_card habove).trans_lt ?_⟩
    exact (Finset.card_erase_lt_of_mem hx).trans_le h.card_le
  · rintro ⟨hx, hfew⟩
    by_contra hnot
    have habove : T ⊆ ({y ∈ R | x < y} : Finset α) := by
      intro t ht
      refine Finset.mem_filter.mpr ⟨h.sub ht, lt_of_not_ge fun hle => hnot ?_⟩
      obtain rfl | hlt := hle.eq_or_lt
      · exact ht
      · exact h.upward t ht x hx hlt
    obtain hfull | rfl := h.full
    · exact absurd (Finset.card_le_card habove) (by omega)
    · exact hnot hx

theorem Retains.take (h : Retains n R T) (hcard : (insert a T).card ≤ n) :
    Retains n (insert a R) (insert a T) where
  sub := Finset.insert_subset_insert a h.sub
  card_le := hcard
  upward := by
    have hroom : a ∉ T → T = R := fun ha => h.full.resolve_left fun hfull => by
      rw [Finset.card_insert_of_notMem ha] at hcard
      omega
    grind [h.upward, h.sub]
  full := by
    by_cases ha : a ∈ T
    · rw [Finset.insert_eq_of_mem ha, Finset.insert_eq_of_mem (h.sub ha)]
      exact h.full
    · rw [Finset.card_insert_of_notMem ha] at hcard
      exact .inr (by rw [h.full.resolve_left (by omega)])

theorem Retains.replace (h : Retains n R T) (hcard : n < (insert a T).card)
    (hm : m ∈ insert a T) (hmin : ∀ x ∈ insert a T, m ≤ x) :
    Retains n (insert a R) ((insert a T).erase m) := by
  have hone := Finset.card_insert_le a T
  have hle := h.card_le
  have hsize : ((insert a T).erase m).card = n := by
    rw [Finset.card_erase_of_mem hm]
    omega
  refine ⟨(Finset.erase_subset _ _).trans (Finset.insert_subset_insert a h.sub), hsize.le, ?_, .inl hsize⟩
  intro x hx y hy hlt
  obtain ⟨hne, hx⟩ := Finset.mem_erase.mp hx
  have hmx := lt_of_le_of_ne (hmin x hx) hne.symm
  refine Finset.mem_erase.mpr ⟨(hmx.trans hlt).ne', ?_⟩
  obtain rfl | hyR := Finset.mem_insert.mp hy
  · exact Finset.mem_insert_self ..
  · refine Finset.mem_insert_of_mem ?_
    -- the least element is of `T` unless it is the new one, and then `x` is
    obtain rfl | hxT := Finset.mem_insert.mp hx
    · have hmT := (Finset.mem_insert.mp hm).resolve_left hmx.ne
      exact h.upward m hmT y hyR (hmx.trans hlt)
    · exact h.upward x hxT y hyR hlt

end CitrateChain.Retention
