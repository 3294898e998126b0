import Mathlib.Logic.Function.Basic

/-! # Stores that lag behind

Changes are decided in one order and reach the store in another. While the changes under way touch
different keys, the store together with them is the state that the decided order has reached. -/
namespace CitrateChain
variable {K V ι : Type*}

/-- What a change makes of the value of each key it writes. -/
abbrev Patch (K V : Type*) := K → Option (V → V)

def Patch.apply (p : Patch K V) (s : K → V) : K → V := fun k =>
  match p k with
  | some f => f (s k)
  | none => s k

/-- `store` with the changes in `pending` is `current`, and no two of them write one key. -/
structure Overlaid (pending : ι → Option (Patch K V)) (store current : K → V) : Prop where
  settled : ∀ k, (∀ i p, pending i = some p → p k = none) → store k = current k
  behind : ∀ i p k f, pending i = some p → p k = some f → current k = f (store k)
  alone : ∀ i j p q k, pending i = some p → pending j = some q → p k ≠ none → q k ≠ none → i = j

namespace Overlaid
variable {pending : ι → Option (Patch K V)} {store current : K → V} {i : ι} {p : Patch K V}

theorem init (store : K → V) : Overlaid (fun _ : ι => none) store store :=
  ⟨fun _ _ => rfl, nofun, nofun⟩

variable (h : Overlaid pending store current)
include h

theorem eq_of_settled (hnone : ∀ i, pending i = none) : store = current := by
  funext k
  refine h.settled k fun i p hp => ?_
  rw [hnone i] at hp
  cases hp

theorem commit [DecidableEq ι] (hi : pending i = none)
    (hfree : ∀ j q k, pending j = some q → p k ≠ none → q k = none) :
    Overlaid (Function.update pending i (some p)) store (p.apply current) := by
  have hold : ∀ {j q}, j ≠ i → Function.update pending i (some p) j = some q → pending j = some q := by
    intro j q hj hq
    rwa [Function.update_of_ne hj] at hq
  have hnew : ∀ {q}, Function.update pending i (some p) i = some q → q = p := by
    intro q hq
    rw [Function.update_self] at hq
    exact (Option.some.inj hq).symm
  refine ⟨fun k hk => ?_, fun j q k f hq hf => ?_, fun j l q r k hq hr hqk hrk => ?_⟩
  · have hp : p k = none := hk i p (Function.update_self ..)
    rw [Patch.apply, hp]
    refine h.settled k fun j q hq => ?_
    have hj : j ≠ i := fun he => nomatch (he ▸ hi).symm.trans hq
    exact hk j q (by rwa [Function.update_of_ne hj])
  · by_cases hj : j = i
    · subst hj
      obtain rfl := hnew hq
      have hs : store k = current k := h.settled k fun l r hr => hfree l r k hr (by simp [hf])
      rw [Patch.apply, hf, hs]
    · have hq := hold hj hq
      have hp : p k = none := by
        by_contra hp
        cases (hfree j q k hq hp).symm.trans hf
      rw [Patch.apply, hp]
      exact h.behind j q k f hq hf
  · by_cases hj : j = i
    · subst hj
      by_cases hl : l = j
      · exact hl.symm
      · obtain rfl := hnew hq
        exact absurd (hfree l r k (hold hl hr) hqk) hrk
    · by_cases hl : l = i
      · subst hl
        obtain rfl := hnew hr
        exact absurd (hfree j q k (hold hj hq) hrk) hqk
      · exact h.alone j l q r k (hold hj hq) (hold hl hr) hqk hrk

theorem drain [DecidableEq ι] (hi : pending i = some p) :
    Overlaid (Function.update pending i none) (p.apply store) current := by
  have hold : ∀ {j q}, Function.update pending i none j = some q → j ≠ i ∧ pending j = some q := by
    intro j q hq
    by_cases hj : j = i
    · subst hj
      rw [Function.update_self] at hq
      cases hq
    · exact ⟨hj, by rwa [Function.update_of_ne hj] at hq⟩
  refine ⟨fun k hk => ?_, fun j q k f hq hf => ?_, fun j l q r k hq hr hqk hrk => ?_⟩
  · cases hp : p k with
    | some f =>
      rw [Patch.apply, hp]
      exact (h.behind i p k f hi hp).symm
    | none =>
      rw [Patch.apply, hp]
      refine h.settled k fun j q hq => ?_
      by_cases hj : j = i
      · subst hj
        rwa [← Option.some.inj (hi.symm.trans hq)]
      · exact hk j q (by rwa [Function.update_of_ne hj])
  · obtain ⟨hj, hq⟩ := hold hq
    have hp : p k = none := by
      by_contra hp
      exact hj (h.alone j i q p k hq hi (by simp [hf]) hp)
    rw [Patch.apply, hp]
    exact h.behind j q k f hq hf
  · exact h.alone j l q r k (hold hq).2 (hold hr).2 hqk hrk

end Overlaid

end CitrateChain
