import Mathlib.Logic.Function.Basic

/-! # A lock and the call that holds it

Calls are numbered and each stands somewhere; at some of these places a call holds the lock. The
lock names its holder, so there is at most one. -/
namespace CitrateChain
variable {ι C : Type*} [DecidableEq ι] {Holds : C → Prop} {calls : ι → C} {lock : Option ι}
variable {i j : ι} {c : C}

def HeldBy (Holds : C → Prop) (calls : ι → C) (lock : Option ι) : Prop :=
  ∀ i, Holds (calls i) ↔ lock = some i

omit [DecidableEq ι] in
theorem HeldBy.alone (h : HeldBy Holds calls lock) (hi : Holds (calls i)) (hj : Holds (calls j)) :
    j = i :=
  Option.some.inj (((h j).mp hj).symm.trans ((h i).mp hi))

omit [DecidableEq ι] in
theorem HeldBy.free (h : HeldBy Holds calls none) (j : ι) : ¬ Holds (calls j) :=
  fun hj => nomatch (h j).mp hj

theorem HeldBy.keep (h : HeldBy Holds calls lock) (hc : Holds (calls i) ↔ Holds c) :
    HeldBy Holds (Function.update calls i c) lock :=
  (Function.forall_update_iff calls fun j c => Holds c ↔ lock = some j).mpr
    ⟨hc.symm.trans (h i), fun j _ => h j⟩

theorem HeldBy.take (h : HeldBy Holds calls none) (hc : Holds c) :
    HeldBy Holds (Function.update calls i c) (some i) := by
  refine (Function.forall_update_iff calls fun j c => Holds c ↔ some i = some j).mpr
    ⟨iff_of_true hc rfl, fun j hne => iff_of_false (h.free j) fun he => ?_⟩
  exact hne (Option.some.inj he).symm

theorem HeldBy.release (h : HeldBy Holds calls lock) (hi : Holds (calls i)) (hc : ¬ Holds c) :
    HeldBy Holds (Function.update calls i c) none := by
  refine (Function.forall_update_iff calls fun j c => Holds c ↔ none = some j).mpr
    ⟨iff_of_false hc nofun, fun j hne => iff_of_false (fun hj => ?_) nofun⟩
  exact hne (h.alone hi hj)

end CitrateChain
