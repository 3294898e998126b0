import Mathlib.Algebra.BigOperators.Fin

/-! # Dated amounts

A list of dates and amounts, and the sum of the amounts at the dates of a kind. -/
namespace CitrateChain.Dated
variable {p q : ℕ → Bool} {l : List (ℕ × ℕ)} {e a : ℕ}

def sumWhen (p : ℕ → Bool) (l : List (ℕ × ℕ)) : ℕ := (l.map fun x => if p x.1 then x.2 else 0).sum

def total (l : List (ℕ × ℕ)) : ℕ := sumWhen (fun _ => true) l

theorem sumWhen_cons (p : ℕ → Bool) (x : ℕ × ℕ) (l : List (ℕ × ℕ)) :
    sumWhen p (x :: l) = (if p x.1 then x.2 else 0) + sumWhen p l := by
  rw [sumWhen, List.map_cons, List.sum_cons, sumWhen]

theorem sumWhen_concat (p : ℕ → Bool) (l : List (ℕ × ℕ)) (e a : ℕ) :
    sumWhen p (l ++ [(e, a)]) = sumWhen p l + if p e then a else 0 := by
  rw [sumWhen, List.map_append, List.sum_append, List.map_singleton, List.sum_singleton, sumWhen]

theorem total_concat (l : List (ℕ × ℕ)) (e a : ℕ) : total (l ++ [(e, a)]) = total l + a :=
  sumWhen_concat _ _ _ _

theorem sumWhen_mono (h : ∀ e, p e = true → q e = true) (l : List (ℕ × ℕ)) :
    sumWhen p l ≤ sumWhen q l := by
  induction l with
  | nil => exact le_rfl
  | cons x l ih =>
    rw [sumWhen_cons, sumWhen_cons]
    refine Nat.add_le_add ?_ ih
    by_cases hp : p x.1
    · rw [if_pos hp, if_pos (h _ hp)]
    · rw [if_neg hp]
      exact Nat.zero_le _

theorem total_eq_add (p : ℕ → Bool) (l : List (ℕ × ℕ)) :
    total l = sumWhen p l + sumWhen (fun e => !p e) l := by
  induction l with
  | nil => rfl
  | cons x l ih =>
    have hhead : x.2 = (if p x.1 then x.2 else 0) + if !p x.1 then x.2 else 0 := by
      cases p x.1 <;> simp
    rw [total, sumWhen_cons, if_pos rfl, sumWhen_cons, sumWhen_cons]
    rw [total] at ih
    omega

theorem sumWhen_eq_zero (h : total l ≤ sumWhen p l) (hpq : ∀ e, p e = true → q e = false) :
    sumWhen q l = 0 := by
  have hle : sumWhen q l ≤ sumWhen (fun e => !p e) l := by
    refine sumWhen_mono (fun e he => ?_) l
    by_contra hp
    have hpe : p e = true := by simpa using hp
    cases (hpq e hpe).symm.trans he
  have hsplit := total_eq_add p l
  omega

theorem sumWhen_eq_sum {n : ℕ} (slot : ℕ → Fin n) (p : ℕ → Bool) (l : List (ℕ × ℕ)) :
    sumWhen p l = ∑ j, sumWhen (fun e => p e && slot e == j) l := by
  induction l with
  | nil => simp [sumWhen]
  | cons x l ih =>
    have hhead : (if p x.1 then x.2 else 0) = ∑ j, if p x.1 && slot x.1 == j then x.2 else 0 := by
      cases p x.1 <;> simp
    rw [sumWhen_cons, ih, hhead, ← Finset.sum_add_distrib]
    exact Finset.sum_congr rfl fun j _ => (sumWhen_cons (fun e => p e && slot e == j) x l).symm

end CitrateChain.Dated
