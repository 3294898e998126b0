import Mathlib.Data.List.Forall2
import Mathlib.Logic.Relation

/-! # Actions that can fail

An action changes a state and returns a value or an error. A failure does not undo what the action did
before it, so that whoever calls it has to: `reverting` runs an action and undoes it if it fails. What
holds between the states before and after an action, however it ends, is said by `Within`. -/
namespace CitrateChain

abbrev Action (ε σ α : Type) := ExceptT ε (StateM σ) α

namespace Action
variable {ε σ α β : Type}

def on (m : Action ε σ α) (s : σ) : Except ε α × σ := StateT.run (ExceptT.run m) s

def reverting (undo : σ → σ) (m : Action ε σ α) : Action ε σ α := fun s =>
  match m.on s with
  | (.ok a, s') => (.ok a, s')
  | (.error e, s') => (.error e, undo s')

def ofExcept (x : Except ε α) : Action ε σ α := fun s => (x, s)

def mapError {ε' : Type} (f : ε → ε') (m : Action ε σ α) : Action ε' σ α := fun s =>
  ((m.on s).1.mapError f, (m.on s).2)

def orThrow (o : Option α) (e : ε) : Action ε σ α :=
  match o with
  | some a => pure a
  | none => throw e

def ensure (p : Prop) [Decidable p] (e : ε) : Action ε σ Unit := if p then pure () else throw e

def whenever (p : Prop) [Decidable p] (m : Action ε σ Unit) : Action ε σ Unit := if p then m else pure ()

def forSome (o : Option α) (f : α → Action ε σ Unit) : Action ε σ Unit :=
  match o with
  | some a => f a
  | none => pure ()

def forEach (f : α → Action ε σ Unit) : List α → Action ε σ Unit
  | [] => pure ()
  | a :: as => do
    f a
    forEach f as

def mapEach (f : α → Action ε σ β) : List α → Action ε σ (List β)
  | [] => pure []
  | a :: as => do
    let b ← f a
    let bs ← mapEach f as
    return b :: bs

/-- However the action ends, its states before and after are related. -/
def Within (r : σ → σ → Prop) (m : Action ε σ α) : Prop := ∀ s, r s (m.on s).2

@[simp] theorem on_get (s : σ) : (get : Action ε σ σ).on s = (.ok s, s) := rfl

@[simp] theorem on_modify (f : σ → σ) (s : σ) : (modify f : Action ε σ PUnit).on s = (.ok ⟨⟩, f s) := rfl

@[simp] theorem on_mapError {ε' : Type} (f : ε → ε') (m : Action ε σ α) (s : σ) :
    (m.mapError f).on s = ((m.on s).1.mapError f, (m.on s).2) := rfl

theorem on_bind (m : Action ε σ α) (f : α → Action ε σ β) (s : σ) :
    (m >>= f).on s = match m.on s with
      | (.ok a, s') => (f a).on s'
      | (.error e, s') => (.error e, s') := by
  change (ExceptT.bindCont f (m s).1) (m s).2 = _
  unfold on StateT.run ExceptT.run
  cases m s with
  | mk result s' => cases result <;> rfl

variable {m : Action ε σ α} {s s' : σ} {f : α → Action ε σ β}

theorem on_bind_ok {a : α} (h : m.on s = (.ok a, s')) : (m >>= f).on s = (f a).on s' := by
  rw [on_bind, h]

theorem on_bind_eq_ok {b : β} (h : (m >>= f).on s = (.ok b, s')) :
    ∃ a t, m.on s = (.ok a, t) ∧ (f a).on t = (.ok b, s') := by
  rw [on_bind] at h
  cases hm : m.on s with
  | mk result t =>
    rw [hm] at h
    cases result with
    | error e => exact nomatch (Prod.mk.inj h).1
    | ok a => exact ⟨a, t, rfl, h⟩

theorem on_get_bind {g : σ → Action ε σ β} {x : Except ε β × σ} (h : (get >>= g).on s = x) :
    (g s).on s = x := h

theorem on_ensure_eq_ok {p : Prop} [Decidable p] {e : ε}
    (h : (ensure p e : Action ε σ Unit).on s = (.ok (), s')) : p ∧ s' = s := by
  unfold ensure at h
  split at h
  · exact ⟨‹p›, (Prod.mk.inj h).2.symm⟩
  · exact nomatch (Prod.mk.inj h).1

theorem on_bind_eq_error {e : ε} (h : (m >>= f).on s = (.error e, s')) :
    m.on s = (.error e, s') ∨ ∃ a t, m.on s = (.ok a, t) ∧ (f a).on t = (.error e, s') := by
  rw [on_bind] at h
  cases hm : m.on s with
  | mk result t =>
    rw [hm] at h
    cases result with
    | error e' =>
      obtain ⟨he, rfl⟩ := Prod.mk.inj h
      cases he
      exact .inl rfl
    | ok a => exact .inr ⟨a, t, rfl, h⟩

theorem on_reverting (undo : σ → σ) (m : Action ε σ α) (s : σ) :
    (reverting undo m).on s = match m.on s with
      | (.ok a, s') => (.ok a, s')
      | (.error e, s') => (.error e, undo s') := rfl

theorem on_reverting_error {undo : σ → σ} {e : ε} (h : (reverting undo m).on s = (.error e, s')) :
    ∃ t, m.on s = (.error e, t) ∧ s' = undo t := by
  rw [on_reverting] at h
  cases hm : m.on s with
  | mk result t =>
    rw [hm] at h
    cases result with
    | ok a => exact nomatch (Prod.mk.inj h).1
    | error e' =>
      obtain ⟨he, rfl⟩ := Prod.mk.inj h
      exact ⟨t, by rw [he], rfl⟩

theorem on_reverting_of_error {undo : σ → σ} {e : ε} (h : m.on s = (.error e, s')) :
    (reverting undo m).on s = (.error e, undo s') := by
  rw [on_reverting, h]

theorem on_reverting_ok {undo : σ → σ} {a : α} :
    (reverting undo m).on s = (.ok a, s') ↔ m.on s = (.ok a, s') := by
  rw [on_reverting]
  cases m.on s with
  | mk result t =>
    cases result with
    | ok b => rfl
    | error e => simp

namespace Within
variable {r : σ → σ → Prop} {m : Action ε σ α} {f : α → Action ε σ β}

theorem pure [Std.Refl r] (a : α) : Within r (pure a : Action ε σ α) := fun s => refl s

theorem throw [Std.Refl r] (e : ε) : Within r (throw e : Action ε σ α) := fun s => refl s

theorem get [Std.Refl r] : Within r (get : Action ε σ σ) := fun s => refl s

theorem modify {g : σ → σ} (h : ∀ s, r s (g s)) : Within r (modify g : Action ε σ PUnit) := h

theorem ofExcept [Std.Refl r] (x : Except ε α) : Within r (ofExcept x : Action ε σ α) :=
  fun s => refl s

theorem bind [IsTrans σ r] (hm : Within r m) (hf : ∀ a, Within r (f a)) : Within r (m >>= f) := by
  intro s
  have hs := hm s
  rw [on_bind]
  cases hrun : m.on s with
  | mk result s' =>
    rw [hrun] at hs
    cases result with
    | error e => exact hs
    | ok a => exact trans_of r hs (hf a s')

theorem ite {p : Prop} [Decidable p] {n : Action ε σ α} (hm : Within r m) (hn : Within r n) :
    Within r (if p then m else n) := by
  split
  · exact hm
  · exact hn

theorem orThrow [Std.Refl r] (o : Option α) (e : ε) : Within r (orThrow o e : Action ε σ α) := by
  cases o with
  | none => exact .throw e
  | some a => exact .pure a

theorem ensure [Std.Refl r] (p : Prop) [Decidable p] (e : ε) :
    Within r (ensure p e : Action ε σ Unit) := .ite (.pure ()) (.throw e)

theorem whenever [Std.Refl r] {p : Prop} [Decidable p] {m : Action ε σ Unit} (hm : Within r m) :
    Within r (whenever p m) := .ite hm (.pure ())

variable {f : α → Action ε σ Unit}

theorem forSome [Std.Refl r] (hf : ∀ a, Within r (f a)) (o : Option α) :
    Within r (forSome o f) := by
  cases o with
  | none => exact .pure ()
  | some a => exact hf a

theorem forEach [Std.Refl r] [IsTrans σ r] (hf : ∀ a, Within r (f a)) (as : List α) :
    Within r (forEach f as) := by
  induction as with
  | nil => exact .pure ()
  | cons a as ih => exact .bind (hf a) fun _ => ih

theorem mapEach [Std.Refl r] [IsTrans σ r] {f : α → Action ε σ β} (hf : ∀ a, Within r (f a))
    (as : List α) : Within r (mapEach f as) := by
  induction as with
  | nil => exact .pure []
  | cons a as ih => exact .bind (hf a) fun b => .bind ih fun bs => .pure (b :: bs)

end Within

end Action

end CitrateChain
