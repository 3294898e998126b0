import CitrateChain.Base.Exclusive

/-! # Keys that calls claim

A call looks whether a key is known, makes it known and later spends it, and these are steps of their
own. A key is spent once if nobody finds it unknown while another call is about to make it known. -/
namespace CitrateChain.Shared
variable {ι σ π κ : Type*} [DecidableEq ι]

/-- How keys are read off the shared state and off the phases of the calls. -/
structure Claims (σ π κ : Type*) where
  Known : σ → κ → Prop
  spent : σ → List κ
  holds : π → Option κ
  Marking : π → Prop

namespace Claims
variable (c : Claims σ π κ)

inductive Moves (p : σ) (ph : π) (p' : σ) (ph' : π) : Prop
  | take (x : κ) (unknown : ¬ c.Known p x) (free : c.holds ph = none) (same : p' = p)
      (held : c.holds ph' = some x) (marking : c.Marking ph')
  | keep (grows : ∀ y, c.Known p y → c.Known p' y) (spent : c.spent p' = c.spent p)
      (held : ∀ x, c.holds ph' = some x →
        c.holds ph = some x ∧ (¬ c.Marking ph' → c.Known p' x ∨ ¬ c.Marking ph))
  | spend (x : κ) (grows : ∀ y, c.Known p y → c.Known p' y) (held : c.holds ph = some x)
      (marked : ¬ c.Marking ph) (spent : c.spent p' = c.spent p ++ [x]) (free : c.holds ph' = none)

variable (step : ι → σ → π → Option (σ × π))

/-- If the step finds a key unknown then no call is about to make it known. -/
def Apart (s : Shared ι σ π) (i : ι) : Prop :=
  ∀ p' ph', step i s.shared (s.phase i) = some (p', ph') → c.holds (s.phase i) = none →
    ∀ x, c.holds ph' = some x → ∀ k, c.holds (s.phase k) = some x → ¬ c.Marking (s.phase k)

/-- A key that is spent or held past its marking is known, and one that is held is held by one call
and not spent. -/
structure Settled (s : Shared ι σ π) : Prop where
  nodup : (c.spent s.shared).Nodup
  known_of_spent : ∀ x ∈ c.spent s.shared, c.Known s.shared x
  known_of_holds : ∀ i x, c.holds (s.phase i) = some x → ¬ c.Marking (s.phase i) → c.Known s.shared x
  not_spent : ∀ i x, c.holds (s.phase i) = some x → x ∉ c.spent s.shared
  unique : ∀ i j x, c.holds (s.phase i) = some x → c.holds (s.phase j) = some x → i = j

variable {c step} {s s' : Shared ι σ π} {i : ι}

private theorem Settled.take {x : κ} (h : c.Settled s) (hshared : s'.shared = s.shared)
    (hother : ∀ k, k ≠ i → s'.phase k = s.phase k) (hx : ¬ c.Known s.shared x)
    (hheld : c.holds (s'.phase i) = some x) (hm : c.Marking (s'.phase i))
    (halone : ∀ k, c.holds (s.phase k) = some x → ¬ c.Marking (s.phase k)) : c.Settled s' := by
  -- nobody else holds the key: past its marking it would be known
  have hnone : ∀ k, c.holds (s.phase k) ≠ some x := by
    intro k hk
    exact hx (h.known_of_holds k x hk (halone k hk))
  have hcase : ∀ j y, c.holds (s'.phase j) = some y →
      j = i ∧ x = y ∨ j ≠ i ∧ c.holds (s.phase j) = some y := by
    intro j y hj
    by_cases hji : j = i
    · rw [hji, hheld] at hj
      exact .inl ⟨hji, Option.some.inj hj⟩
    · rw [hother j hji] at hj
      exact .inr ⟨hji, hj⟩
  refine ⟨by rw [hshared]; exact h.nodup, by rw [hshared]; exact h.known_of_spent, ?_, ?_, ?_⟩
  · intro j y hy hmark
    rw [hshared]
    rcases hcase j y hy with ⟨rfl, -⟩ | ⟨hj, hy⟩
    · exact absurd hm hmark
    · rw [hother j hj] at hmark
      exact h.known_of_holds j y hy hmark
  · intro j y hy hspent
    rw [hshared] at hspent
    rcases hcase j y hy with ⟨-, rfl⟩ | ⟨-, hy⟩
    · exact hx (h.known_of_spent _ hspent)
    · exact h.not_spent j y hy hspent
  · intro j k y hj hk
    rcases hcase j y hj with ⟨rfl, rfl⟩ | ⟨-, hj⟩ <;> rcases hcase k _ hk with ⟨rfl, hxy⟩ | ⟨-, hk⟩
    · rfl
    · exact absurd hk (hnone k)
    · exact absurd (hxy ▸ hj) (hnone j)
    · exact h.unique j k y hj hk

private theorem Settled.drop (h : c.Settled s) (hother : ∀ k, k ≠ i → s'.phase k = s.phase k)
    (hgrows : ∀ y, c.Known s.shared y → c.Known s'.shared y)
    (hheld : ∀ x, c.holds (s'.phase i) = some x →
      c.holds (s.phase i) = some x ∧ (¬ c.Marking (s'.phase i) → c.Known s'.shared x))
    (hnodup : (c.spent s'.shared).Nodup) (hknown : ∀ x ∈ c.spent s'.shared, c.Known s'.shared x)
    (hspent : ∀ x ∈ c.spent s'.shared, x ∈ c.spent s.shared ∨
      c.holds (s.phase i) = some x ∧ c.holds (s'.phase i) = none) : c.Settled s' := by
  have hback : ∀ j y, c.holds (s'.phase j) = some y → c.holds (s.phase j) = some y := by
    intro j y hy
    by_cases hj : j = i
    · subst hj
      exact (hheld y hy).1
    · rwa [hother j hj] at hy
  refine ⟨hnodup, hknown, fun j y hy hmark => ?_, fun j y hy hmem => ?_, fun j k y hj hk => ?_⟩
  · by_cases hj : j = i
    · subst hj
      exact (hheld y hy).2 hmark
    · rw [hother j hj] at hy hmark
      exact hgrows y (h.known_of_holds j y hy hmark)
  · rcases hspent y hmem with hold | ⟨hi, hnone⟩
    · exact h.not_spent j y (hback j y hy) hold
    · -- the key was the moving call's, which has just given it up
      obtain rfl : j = i := h.unique j i y (hback j y hy) hi
      cases hnone.symm.trans hy
  · exact h.unique j k y (hback j y hj) (hback k y hk)

section

variable (hm : ∀ {i p ph p' ph'}, step i p ph = some (p', ph') → c.Moves p ph p' ph')
include hm

theorem Settled.advance (h : c.Settled s) (ha : c.Apart step s i)
    (hs : Shared.advance step s i = some s') : c.Settled s' := by
  obtain ⟨hstep, hother⟩ := advance_eq_some hs
  rcases hm hstep with ⟨x, hx, hfree, hsame, hheld, hmark⟩ | ⟨hgrows, hspent, hheld⟩ |
    ⟨x, hgrows, hx, hmark, hspent, hfree⟩
  · exact h.take hsame hother hx hheld hmark (ha _ _ hstep hfree x hheld)
  · refine h.drop hother hgrows (fun x hx => ?_) (hspent ▸ h.nodup) ?_ ?_
    · obtain ⟨hold, hknown⟩ := hheld x hx
      refine ⟨hold, fun hph => ?_⟩
      rcases hknown hph with hknown | hph
      · exact hknown
      · exact hgrows x (h.known_of_holds i x hold hph)
    · intro x hx
      rw [hspent] at hx
      exact hgrows x (h.known_of_spent x hx)
    · intro x hx
      rw [hspent] at hx
      exact .inl hx
  · have hnew := h.not_spent i x hx
    have hknown := h.known_of_holds i x hx hmark
    refine h.drop hother hgrows (fun y hy => by rw [hfree] at hy; cases hy) ?_ ?_ ?_
    · rw [hspent]
      refine List.nodup_append.mpr ⟨h.nodup, by simp, ?_⟩
      intro y hy z hz hyz
      rw [List.mem_singleton] at hz
      exact hnew (hz ▸ hyz ▸ hy)
    · intro y hy
      rw [hspent, List.mem_append, List.mem_singleton] at hy
      rcases hy with hy | rfl
      · exact hgrows y (h.known_of_spent y hy)
      · exact hgrows y hknown
    · intro y hy
      rw [hspent, List.mem_append, List.mem_singleton] at hy
      rcases hy with hy | rfl
      · exact .inl hy
      · exact .inr ⟨hx, hfree⟩

theorem Settled.runs {schedule : List ι}
    (hr : Transition.Runs (fun s i s' => c.Apart step s i ∧ Shared.advance step s i = some s') s schedule s')
    (h : c.Settled s) : c.Settled s' :=
  hr.invariant h fun _ _ _ h hs => h.advance hm hs.1 hs.2

end

end Claims

end CitrateChain.Shared
