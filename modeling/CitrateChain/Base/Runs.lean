import Mathlib.Data.List.Forall2
import Mathlib.Data.List.Induction

/-! # Runs of a labelled transition relation

A run is the list of the labels it took, oldest first. Invariants are proved on one step and
carried to every run by `Runs.invariant`; facts about what a run did so far use `Runs.history`.
-/
namespace CitrateChain.Transition
variable {σ α : Type*} {step : σ → α → σ → Prop} {s t u : σ} {as bs : List α}

/-- `Runs step s as t`: the steps labelled `as`, in this order, lead from `s` to `t`. -/
inductive Runs (step : σ → α → σ → Prop) (s : σ) : List α → σ → Prop
  | refl : Runs step s [] s
  | step {as : List α} {t : σ} {a : α} {u : σ} :
      Runs step s as t → step t a u → Runs step s (as ++ [a]) u

theorem Runs.trans (hr : Runs step s as t) (hr' : Runs step t bs u) : Runs step s (as ++ bs) u := by
  induction hr' with
  | refl => simpa using hr
  | step _ ha ih => simpa [List.append_assoc] using ih.step ha

theorem Runs.head {a : α} (ha : step s a t) (hr : Runs step t as u) : Runs step s (a :: as) u :=
  (Runs.refl.step ha).trans hr

theorem forall_mem_concat {p : α → Prop} {a : α} :
    (∀ x ∈ as ++ [a], p x) ↔ (∀ x ∈ as, p x) ∧ p a := by
  rw [List.forall_mem_append, List.forall_mem_singleton]

theorem Runs.history {P : List α → σ → Prop} (hr : Runs step s as t) (h0 : P [] s)
    (hs : ∀ as t a u, P as t → step t a u → P (as ++ [a]) u) : P as t := by
  induction hr with
  | refl => exact h0
  | step _ ha ih => exact hs _ _ _ _ ih ha

theorem Runs.invariant {P : σ → Prop} (hr : Runs step s as t) (h0 : P s)
    (hs : ∀ t a u, P t → step t a u → P u) : P t :=
  hr.history (P := fun _ t => P t) h0 fun _ t a u => hs t a u

theorem Runs.imp {step' : σ → α → σ → Prop} (hr : Runs step s as t)
    (h : ∀ t a u, a ∈ as → step t a u → step' t a u) : Runs step' s as t := by
  induction hr with
  | refl => exact .refl
  | step _ ha ih =>
    refine (ih fun t a u hmem => h t a u (List.mem_append_left _ hmem)).step (h _ _ _ ?_ ha)
    exact List.mem_append_right _ (List.mem_singleton_self _)

theorem Runs.exists_foldlM (f : σ → α → Option σ) (s : σ) (as : List α) {p : σ → Prop} [DecidablePred p]
    (h : (as.foldlM f s).any (fun t => p t) = true) :
    ∃ t, Runs (fun s a t => f s a = some t) s as t ∧ p t := by
  induction as generalizing s with
  | nil => exact ⟨s, .refl, of_decide_eq_true h⟩
  | cons a as ih =>
    rw [List.foldlM_cons, Option.any_eq_true] at h
    obtain ⟨t, ht, hp⟩ := h
    obtain ⟨u, hu, ht⟩ := Option.bind_eq_some_iff.mp ht
    obtain ⟨t, hr, hp⟩ := ih u ((Option.any_eq_true _ _).mpr ⟨t, ht, hp⟩)
    exact ⟨t, .head hu hr, hp⟩

theorem Runs.of_nil (hr : Runs step s [] t) : t = s := by
  generalize hnil : ([] : List α) = as at hr
  cases hr with
  | refl => rfl
  | step => simp at hnil

theorem Runs.snoc_inv {a : α} (hr : Runs step s (as ++ [a]) u) : ∃ t, Runs step s as t ∧ step t a u := by
  generalize hsnoc : as ++ [a] = bs at hr
  cases hr with
  | refl => simp at hsnoc
  | step hr hs =>
    obtain ⟨rfl, hlast⟩ := List.append_inj' hsnoc rfl
    obtain rfl := List.singleton_inj.mp hlast
    exact ⟨_, hr, hs⟩

theorem Runs.append_inv (hr : Runs step s (as ++ bs) u) : ∃ t, Runs step s as t ∧ Runs step t bs u := by
  induction bs using List.reverseRecOn generalizing u with
  | nil =>
    rw [List.append_nil] at hr
    exact ⟨u, hr, .refl⟩
  | append_singleton bs a ih =>
    rw [← List.append_assoc] at hr
    obtain ⟨v, hr, ha⟩ := hr.snoc_inv
    obtain ⟨t, has, hbs⟩ := ih hr
    exact ⟨t, has, hbs.step ha⟩

theorem Runs.cons_inv {a : α} (hr : Runs step s (a :: as) u) : ∃ t, step s a t ∧ Runs step t as u := by
  have hr : Runs step s ([a] ++ as) u := hr
  obtain ⟨t, hone, hrest⟩ := hr.append_inv
  have hone : Runs step s ([] ++ [a]) t := hone
  obtain ⟨s', hnil, ha⟩ := hone.snoc_inv
  obtain rfl := hnil.of_nil
  exact ⟨t, ha, hrest⟩

theorem Runs.paired {τ β : Type*} {step' : τ → β → τ → Prop} {R : σ → τ → Prop} {L : α → β → Prop}
    (hs : ∀ s t a b s' t', R s t → L a b → step s a s' → step' t b t' → R s' t') {x x' : τ}
    {bs : List β} (hl : List.Forall₂ L as bs) (hr : Runs step s as t) (hr' : Runs step' x bs x')
    (h0 : R s x) : R t x' := by
  induction hr' generalizing as t with
  | refl =>
    obtain rfl := List.forall₂_nil_right_iff.mp hl
    obtain rfl := hr.of_nil
    exact h0
  | @step bs x b x' _ hb ih =>
    have hbefore := List.forall₂_take_append as bs [b] hl
    obtain ⟨a, rest, hab, hnil, hdrop⟩ :=
      List.forall₂_cons_right_iff.mp (List.forall₂_drop_append as bs [b] hl)
    obtain rfl := List.forall₂_nil_right_iff.mp hnil
    rw [← List.take_append_drop bs.length as, hdrop] at hr
    obtain ⟨u, hu, ha⟩ := hr.snoc_inv
    exact hs _ _ _ _ _ _ (ih hbefore hu) hab ha hb

section Beside
variable {ι : Type*} [DecidableEq ι] {steps : ι → σ → α → σ → Prop}

def Beside (steps : ι → σ → α → σ → Prop) (n : ι → σ) (l : ι × α) (n' : ι → σ) : Prop :=
  ∃ t, steps l.1 (n l.1) l.2 t ∧ n' = Function.update n l.1 t

def labelsOf (j : ι) (ls : List (ι × α)) : List α :=
  ls.filterMap fun l => if l.1 = j then some l.2 else none

variable {ls : List (ι × α)}

theorem mem_labelsOf {j : ι} {a : α} : a ∈ labelsOf j ls ↔ (j, a) ∈ ls := by
  simp only [labelsOf, List.mem_filterMap, Option.ite_none_right_eq_some, Option.some.injEq,
    Prod.exists]
  constructor
  · rintro ⟨_, _, hm, rfl, rfl⟩
    exact hm
  · intro hm
    exact ⟨j, a, hm, rfl, rfl⟩

theorem Runs.component {n n' : ι → σ} (hr : Runs (Beside steps) n ls n') (j : ι) :
    Runs (steps j) (n j) (labelsOf j ls) (n' j) := by
  induction hr with
  | refl => exact .refl
  | @step ls m l n'' _ hs ih =>
    obtain ⟨t, ht, rfl⟩ := hs
    obtain ⟨k, a⟩ := l
    by_cases hk : k = j
    · subst hk
      rw [Function.update_self]
      have := ih.step ht
      simpa [labelsOf] using this
    · rw [Function.update_of_ne (Ne.symm hk)]
      simpa [labelsOf, hk] using ih

theorem Runs.beside {n : ι → σ} {j : ι} {t : σ} (hr : Runs (steps j) (n j) as t) :
    Runs (Beside steps) n (as.map (Prod.mk j)) (Function.update n j t) := by
  induction hr with
  | refl => simpa using Runs.refl
  | @step as t a u _ hs ih =>
    have hb : Beside steps (Function.update n j t) (j, a) (Function.update n j u) :=
      ⟨u, by simpa using hs, by simp⟩
    simpa using ih.step hb

end Beside

end CitrateChain.Transition
