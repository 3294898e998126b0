import Mathlib.Logic.Relation
import Mathlib.Data.Nat.Basic

/-! # Descending chains

A step relation in which every element has at most one successor, of a lower rank. The elements
reachable from a start form a chain with at most one element of each rank. -/
namespace CitrateChain.Descent
open Relation (ReflTransGen)
variable {α : Type*} {step : α → α → Prop} {rank : α → ℕ} {a b c : α}

structure Descends (step : α → α → Prop) (rank : α → ℕ) : Prop where
  unique : Relator.RightUnique step
  lt : ∀ {a b}, step a b → rank b < rank a

section

variable (h : Descends step rank) (hab : ReflTransGen step a b)
include h hab

theorem Descends.rank_le : rank b ≤ rank a := by
  induction hab with
  | refl => exact le_rfl
  | tail _ hs ih =>
    have := h.lt hs
    omega

theorem Descends.eq_of_rank_eq (hr : rank a = rank b) : a = b := by
  rcases ReflTransGen.cases_head hab with rfl | ⟨c, hs, hcb⟩
  · rfl
  · have := h.lt hs
    have := h.rank_le hcb
    omega

theorem Descends.reaches_of_rank_le (hac : ReflTransGen step a c) (hr : rank c ≤ rank b) :
    ReflTransGen step b c := by
  rcases ReflTransGen.total_of_right_unique h.unique hab hac with hbc | hcb
  · exact hbc
  · have hle := h.rank_le hcb
    rw [h.eq_of_rank_eq hcb (by omega)]

theorem Descends.eq_of_reaches (hac : ReflTransGen step a c) (hr : rank b = rank c) : b = c :=
  h.eq_of_rank_eq (h.reaches_of_rank_le hab hac (Nat.le_of_eq hr.symm)) hr

end

structure Ranked (step : α → α → Prop) (rank : α → ℕ) : Prop where
  unique : Relator.RightUnique step
  drop : ∀ {a b}, step a b → rank a = rank b + 1

theorem Ranked.descends (h : Ranked step rank) : Descends step rank where
  unique := h.unique
  lt := by
    intro a b hs
    have := h.drop hs
    omega

theorem Ranked.exists_rank (h : Ranked step rank) {n : ℕ} (hab : ReflTransGen step a b)
    (hb : rank b ≤ n) (hn : n ≤ rank a) : ∃ c, ReflTransGen step a c ∧ rank c = n := by
  induction hab using ReflTransGen.head_induction_on with
  | refl => exact ⟨b, .refl, by omega⟩
  | head hs hcb ih =>
    rename_i d e
    rcases Nat.lt_or_ge (rank e) n with hlt | hle
    · exact ⟨d, .refl, by have := h.drop hs; omega⟩
    · obtain ⟨c, hc, hr⟩ := ih hle
      exact ⟨c, .head hs hc, hr⟩

end CitrateChain.Descent
