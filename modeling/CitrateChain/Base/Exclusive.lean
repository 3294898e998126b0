import Mathlib.Data.Fintype.Basic
import CitrateChain.Base.Runs

/-! # Calls that exclude each other

Calls share a state and each has a phase of its own. While a call is active nobody else may become
active. What is then known of the shared state is known either between the calls or by the one call
that is active. -/
namespace CitrateChain

/-- What calls numbered by `ι` share, and where each of them stands. -/
structure Shared (ι σ π : Type*) where
  shared : σ
  phase : ι → π

namespace Shared
variable {ι σ π : Type*} [DecidableEq ι] (step : ι → σ → π → Option (σ × π)) (Active : π → Prop)

def advance (s : Shared ι σ π) (i : ι) : Option (Shared ι σ π) :=
  (step i s.shared (s.phase i)).map fun r => ⟨r.1, Function.update s.phase i r.2⟩

def Exclusive (s : Shared ι σ π) (i : ι) : Prop :=
  ∀ p ph, step i s.shared (s.phase i) = some (p, ph) → ¬ Active (s.phase i) → Active ph →
    ∀ k, ¬ Active (s.phase k)

instance decidableExclusive [Fintype ι] [DecidablePred Active] (s : Shared ι σ π) (i : ι) :
    Decidable (Exclusive step Active s i) :=
  decidable_of_iff (∀ r ∈ step i s.shared (s.phase i), ¬ Active (s.phase i) → Active r.2 →
    ∀ k, ¬ Active (s.phase k)) <| by simp only [Exclusive, Prod.forall, Option.mem_def]

/-- What the steps of a call keep: `Idle` between the calls, `Busy` within one. -/
structure Keeps (Idle : σ → Prop) (Busy : ι → π → σ → Prop) : Prop where
  quiet : ∀ {i p ph p' ph'}, step i p ph = some (p', ph') → ¬ Active ph → ¬ Active ph' → p' = p
  enter : ∀ {i p ph p' ph'}, step i p ph = some (p', ph') → ¬ Active ph → Active ph' → Idle p →
    Busy i ph' p'
  stay : ∀ {i p ph p' ph'}, step i p ph = some (p', ph') → Active ph → Active ph' → Busy i ph p →
    Busy i ph' p'
  leave : ∀ {i p ph p' ph'}, step i p ph = some (p', ph') → Active ph → ¬ Active ph' → Busy i ph p →
    Idle p'

variable {step Active} {Idle : σ → Prop} {Busy : ι → π → σ → Prop} {s s' : Shared ι σ π} {i : ι}

def Settled (Active : π → Prop) (Idle : σ → Prop) (Busy : ι → π → σ → Prop) (s : Shared ι σ π) : Prop :=
  (∀ k, ¬ Active (s.phase k)) ∧ Idle s.shared ∨
    ∃ i, Active (s.phase i) ∧ Busy i (s.phase i) s.shared ∧ ∀ k, k ≠ i → ¬ Active (s.phase k)

theorem advance_eq_some (h : advance step s i = some s') :
    step i s.shared (s.phase i) = some (s'.shared, s'.phase i) ∧ ∀ k, k ≠ i → s'.phase k = s.phase k := by
  obtain ⟨⟨p, ph⟩, hstep, rfl⟩ := Option.map_eq_some_iff.mp h
  constructor
  · rw [hstep]
    exact congrArg (fun ph' => some (p, ph')) (Function.update_self i ph s.phase).symm
  · intro k hk
    exact Function.update_of_ne hk _ _

theorem Keeps.settled (hk : Keeps step Active Idle Busy) (h : Settled Active Idle Busy s)
    (hex : Exclusive step Active s i) (hs : advance step s i = some s') :
    Settled Active Idle Busy s' := by
  obtain ⟨hstep, hother⟩ := advance_eq_some hs
  by_cases hi : Active (s.phase i)
  · -- the call that moves is the active one
    rcases h with ⟨hnone, -⟩ | ⟨j, hj, hbusy, halone⟩
    · exact absurd hi (hnone i)
    obtain rfl : i = j := by
      by_contra hne
      exact halone i hne hi
    by_cases hph : Active (s'.phase i)
    · refine .inr ⟨i, hph, hk.stay hstep hi hph hbusy, fun k hk => ?_⟩
      rw [hother k hk]
      exact halone k hk
    · refine .inl ⟨fun k => ?_, hk.leave hstep hi hph hbusy⟩
      by_cases hki : k = i
      · rwa [hki]
      · rw [hother k hki]
        exact halone k hki
  · by_cases hph : Active (s'.phase i)
    · have hnone := hex s'.shared (s'.phase i) hstep hi hph
      rcases h with ⟨-, hidle⟩ | ⟨j, hj, -⟩
      · refine .inr ⟨i, hph, hk.enter hstep hi hph hidle, fun k hk => ?_⟩
        rw [hother k hk]
        exact hnone k
      · exact absurd hj (hnone j)
    · have hshared := hk.quiet hstep hi hph
      rcases h with ⟨hnone, hidle⟩ | ⟨j, hj, hbusy, halone⟩
      · refine .inl ⟨fun k => ?_, hshared ▸ hidle⟩
        by_cases hki : k = i
        · rwa [hki]
        · rw [hother k hki]
          exact hnone k
      have hji : j ≠ i := by
        rintro rfl
        exact hi hj
      refine .inr ⟨j, by rwa [hother j hji], ?_, fun k hk => ?_⟩
      · rw [hother j hji, hshared]
        exact hbusy
      · by_cases hki : k = i
        · rwa [hki]
        · rw [hother k hki]
          exact halone k hk

theorem Keeps.runs (hk : Keeps step Active Idle Busy) {schedule : List ι}
    (hr : Transition.Runs (fun s i s' => Exclusive step Active s i ∧ advance step s i = some s') s schedule
      s') (h : Settled Active Idle Busy s) : Settled Active Idle Busy s' :=
  hr.invariant h fun _ _ _ h hs => hk.settled h hs.1 hs.2

end Shared

end CitrateChain
