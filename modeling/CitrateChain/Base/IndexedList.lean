import Mathlib.Data.List.Nodup

/-! # Lists with an index

A list together with the position, plus one, of each of its members, and zero for everything else.
Members are added at the end and removed by moving the last one into the hole. -/
namespace CitrateChain
variable {α : Type*} {index : α → ℕ} {l : List α} {a b : α}

def Indexes (index : α → ℕ) (l : List α) : Prop := ∀ a i, index a = i + 1 ↔ l[i]? = some a

namespace Indexes

theorem nil : Indexes (fun _ => 0) ([] : List α) := by
  intro a i
  simp

theorem mem_iff (h : Indexes index l) : a ∈ l ↔ index a ≠ 0 := by
  rw [List.mem_iff_getElem?]
  constructor
  · rintro ⟨i, hi⟩
    rw [(h a i).mpr hi]
    exact Nat.succ_ne_zero i
  · intro hne
    obtain ⟨i, hi⟩ := Nat.exists_eq_succ_of_ne_zero hne
    exact ⟨i, (h a i).mp hi⟩

theorem inj (h : Indexes index l) {i j : ℕ} (hi : l[i]? = some a) (hj : l[j]? = some a) : i = j := by
  have hi' := (h a i).mpr hi
  have hj' := (h a j).mpr hj
  omega

theorem nodup (h : Indexes index l) : l.Nodup := by
  rw [List.nodup_iff_getElem?_ne_getElem?]
  intro i j hij hj heq
  have hsome := List.getElem?_eq_getElem hj
  have := h.inj (heq.trans hsome) hsome
  omega

variable [DecidableEq α]

theorem push (h : Indexes index l) (ha : index a = 0) :
    Indexes (Function.update index a (l.length + 1)) (l ++ [a]) := by
  have hnot : ∀ i : ℕ, l[i]? ≠ some a := by
    intro i hi
    have := (h a i).mpr hi
    omega
  have hget : ∀ i, (l ++ [a])[i]? = if i = l.length then some a else l[i]? := by
    intro i
    split
    · next hi => rw [hi, List.getElem?_concat_length]
    · next hi =>
      rcases Nat.lt_or_gt_of_ne hi with hlt | hgt
      · exact List.getElem?_append_left hlt
      · rw [List.getElem?_eq_none (Nat.le_of_lt hgt), List.getElem?_eq_none (by simp; omega)]
  intro b i
  rw [hget, Function.update_apply]
  split_ifs with hb hi hi
  · exact iff_of_true (congrArg (· + 1) hi.symm) (congrArg some hb.symm)
  · rw [hb]
    exact iff_of_false (by omega) (hnot i)
  · rw [h b i, hi, List.getElem?_eq_none (Nat.le_refl _)]
    exact iff_of_false (by simp) fun heq => hb (Option.some.inj heq).symm
  · exact h b i

theorem swapRemove (h : Indexes index l) {i last : ℕ} (ha : index a = i + 1) (hlen : l.length = last + 1)
    (hb : l[last]? = some b) :
    Indexes (Function.update (Function.update index b (i + 1)) a 0) ((l.set i b).dropLast) := by
  have hi : l[i]? = some a := (h a i).mp ha
  have hile : i < last + 1 := hlen ▸ (List.getElem?_eq_some_iff.mp hi).1
  -- the list by its entries
  have hget : ∀ j, ((l.set i b).dropLast)[j]? =
      if j < last then if j = i then some b else l[j]? else none := by
    intro j
    rw [List.getElem?_dropLast, List.length_set, hlen, Nat.add_sub_cancel]
    split
    · rw [List.getElem?_set]
      split
      · next hij => rw [if_pos hij.symm, if_pos (by omega)]
      · next hij => rw [if_neg (Ne.symm hij)]
    · rfl
  intro c j
  rw [hget]
  by_cases hca : c = a
  · subst hca
    rw [Function.update_self]
    refine iff_of_false (by omega) fun hj => ?_
    split at hj
    · next hlt =>
      split at hj
      · next hji =>
        -- the moved member is not the removed one: it stood behind the hole
        have := h.inj hi (hb.trans hj)
        omega
      · next hji => exact hji (h.inj hj hi)
    · cases hj
  · rw [Function.update_of_ne hca]
    by_cases hcb : c = b
    · subst hcb
      rw [Function.update_self]
      have hne : i ≠ last := by
        rintro rfl
        exact hca (Option.some.inj (hb.symm.trans hi))
      constructor
      · intro hj
        obtain rfl : i = j := by omega
        rw [if_pos (by omega), if_pos rfl]
      intro hj
      split at hj
      · next hlt =>
        split at hj
        · next hji => rw [hji]
        · have := h.inj hj hb
          omega
      · cases hj
    · rw [Function.update_of_ne hcb, h c j]
      constructor
      · intro hj
        have hji : j ≠ i := by
          rintro rfl
          exact hca (Option.some.inj (hj.symm.trans hi))
        have hjl : j ≠ last := by
          rintro rfl
          exact hcb (Option.some.inj (hj.symm.trans hb))
        have hlt : j < last + 1 := hlen ▸ (List.getElem?_eq_some_iff.mp hj).1
        rw [if_pos (by omega), if_neg hji]
        exact hj
      · intro hj
        split at hj
        · split at hj
          · exact absurd (Option.some.inj hj).symm hcb
          · exact hj
        · cases hj

end Indexes

end CitrateChain
