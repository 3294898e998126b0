import Mathlib.Tactic.Ring
import CitrateChain.Base.Result
import CitrateChain.Base.Runs

/-! # Contracts that hold funds

A call of a contract reads its message and its block, changes the storage or reverts, and may end with
a payment to the caller. Whoever is paid may call the contract again before the payment returns, and
when the payment fails everything since the call is undone. -/
namespace CitrateChain.Contract

inductive Revert (E : Type*)
  | panic
  | custom (e : E)
  deriving DecidableEq

def Revert.map {E E' : Type*} (f : E → E') : Revert E → Revert E'
  | .panic => .panic
  | .custom e => .custom (f e)

inductive Refusal (E : Type*)
  | notPayable
  | reentrant
  | overfull
  | transfer
  | reverted (e : Revert E)
  deriving DecidableEq

structure Env where
  sender : BitVec 160
  value : ℕ := 0
  number : UInt64
  timestamp : ℕ := 0

section Arithmetic
variable {E : Type*} {a b c : ℕ}

def wordSize : ℕ := 2 ^ 256

def require (p : Prop) [Decidable p] (e : E) : Except (Revert E) Unit :=
  if p then .ok () else .error (.custom e)

def checked (n : ℕ) : Except (Revert E) ℕ := if n < wordSize then .ok n else .error .panic

def add (a b : ℕ) : Except (Revert E) ℕ := checked (a + b)

def mul (a b : ℕ) : Except (Revert E) ℕ := checked (a * b)

def sub (a b : ℕ) : Except (Revert E) ℕ := if b ≤ a then .ok (a - b) else .error .panic

theorem require_eq_ok {p : Prop} [Decidable p] {e : E} {u : Unit} : require p e = .ok u ↔ p := by
  unfold require
  split <;> simp_all

theorem checked_eq_ok {n : ℕ} : (checked n : Except (Revert E) ℕ) = .ok c ↔ n = c ∧ n < wordSize := by
  unfold checked
  split
  · next h => simp [h]
  · next h => simp [h]

theorem add_eq_ok : (add a b : Except (Revert E) ℕ) = .ok c ↔ a + b = c ∧ a + b < wordSize :=
  checked_eq_ok

theorem mul_eq_ok : (mul a b : Except (Revert E) ℕ) = .ok c ↔ a * b = c ∧ a * b < wordSize :=
  checked_eq_ok

theorem sub_eq_ok : (sub a b : Except (Revert E) ℕ) = .ok c ↔ a - b = c ∧ b ≤ a := by
  unfold sub
  split <;> simp_all

end Arithmetic

structure Effect (S : Type*) where
  storage : S
  payment : Option ℕ := none

def silent {S E : Type*} (x : Except (Revert E) S) : Except (Revert E) (Effect S) := do
  let storage ← x
  return { storage }

theorem silent_ok {S E : Type*} {x : Except (Revert E) S} {s : S} {amount : Option ℕ}
    (h : silent x = .ok ⟨s, amount⟩) : x = .ok s ∧ amount = none := by
  obtain ⟨t, ht, h⟩ := Result.bind_eq_ok.mp h
  cases h
  exact ⟨ht, rfl⟩

theorem silent_elim {S E : Type*} {x : Except (Revert E) S} {s : S} {amount : Option ℕ}
    {P : Option ℕ → Prop} (h : silent x = .ok ⟨s, amount⟩) (hp : x = .ok s → P none) : P amount := by
  obtain ⟨hx, rfl⟩ := silent_ok h
  exact hp hx

/-- The functions of a contract. A guarded function cannot be entered while another one is. -/
structure Interface (S E C : Type*) where
  payable : C → Bool
  guarded : C → Bool
  body : Env → C → S → Except (Revert E) (Effect S)

structure Account (S : Type*) where
  balance : ℕ := 0
  entered : Bool := false
  storage : S

variable {S E C : Type*}

/-- What a call leaves: an account, and whether a payment is under way. -/
def Interface.exec (i : Interface S E C) (a : Account S) (env : Env) (call : C) :
    Except (Refusal E) (Account S × Bool) :=
  if !i.payable call && env.value != 0 then .error .notPayable
  else if wordSize ≤ a.balance + env.value then .error .overfull
  else if i.guarded call && a.entered then .error .reentrant
  else
    match i.body env call a.storage with
    | .error e => .error (.reverted e)
    | .ok ⟨storage, none⟩ => .ok ({ a with balance := a.balance + env.value, storage }, false)
    | .ok ⟨storage, some amount⟩ =>
      if a.balance + env.value < amount then .error .transfer
      else
        .ok (⟨a.balance + env.value - amount, i.guarded call || a.entered, storage⟩, true)

structure Pending (S : Type*) where
  before : Account S
  guarded : Bool

/-- The account, and the calls that wait for their payments, innermost first. -/
structure Session (S : Type*) where
  current : Account S
  pending : List (Pending S) := []

inductive Event (C : Type*)
  | call (env : Env) (c : C)
  | returned
  | failed

/-- A payment that returns lifts the guard, one that fails undoes its call. -/
def Interface.step (i : Interface S E C) (s : Session S) : Event C → Option (Session S)
  | .call env c =>
    match i.exec s.current env c with
    | .error _ => none
    | .ok (a, false) => some { s with current := a }
    | .ok (a, true) => some ⟨a, ⟨s.current, i.guarded c⟩ :: s.pending⟩
  | .returned =>
    match s.pending with
    | [] => none
    | p :: rest => some ⟨{ s.current with entered := s.current.entered && !p.guarded }, rest⟩
  | .failed =>
    match s.pending with
    | [] => none
    | p :: rest => some ⟨p.before, rest⟩

def Interface.Reaches (i : Interface S E C) (s : S) (t : Session S) : Prop :=
  ∃ events, Transition.Runs (fun s e t => i.step s e = some t) ⟨{ storage := s }, []⟩ events t

variable {i : Interface S E C} {a a' : Account S} {env : Env} {call : C} {pays : Bool}

theorem payable_or_zero (h : ¬ (!i.payable call && env.value != 0) = true) :
    i.payable call = true ∨ env.value = 0 := by
  by_cases hv : env.value = 0
  · exact .inr hv
  · refine .inl ?_
    by_contra hnot
    exact h (by simp [hnot, hv])

theorem exec_eq_ok (h : i.exec a env call = .ok (a', pays)) :
    ∃ amount, i.body env call a.storage = .ok ⟨a'.storage, amount⟩ ∧
      (i.payable call = true ∨ env.value = 0) ∧ a'.balance + amount.getD 0 = a.balance + env.value ∧
      a.balance + env.value < wordSize := by
  unfold Interface.exec at h
  split_ifs at h with hpay hfull
  split at h
  · cases h
  · rename_i storage hbody
    cases h
    exact ⟨none, hbody, payable_or_zero hpay, rfl, not_le.mp hfull⟩
  · rename_i storage amount hbody
    split_ifs at h
    cases h
    refine ⟨some amount, hbody, payable_or_zero hpay, ?_, not_le.mp hfull⟩
    dsimp only [Option.getD_some]
    omega

theorem exec_balance_lt (h : i.exec a env call = .ok (a', pays)) : a'.balance < wordSize := by
  obtain ⟨amount, -, -, hbalance, hfull⟩ := exec_eq_ok h
  omega

theorem step_eq_some {s t : Session S} {e : Event C} (h : i.step s e = some t) :
    (∃ env call pays, e = .call env call ∧ i.exec s.current env call = .ok (t.current, pays) ∧
      ∀ p ∈ t.pending, p ∈ s.pending ∨ p.before = s.current) ∨
    (e = .returned ∧ (∃ entered, t.current = { s.current with entered }) ∧
      ∀ p ∈ t.pending, p ∈ s.pending) ∨
    (e = .failed ∧ (∃ p ∈ s.pending, t.current = p.before) ∧ ∀ p ∈ t.pending, p ∈ s.pending) := by
  cases e with
  | call env c =>
    refine .inl ⟨env, c, ?_⟩
    unfold Interface.step at h
    dsimp only at h
    split at h
    · cases h
    · next a hex =>
      cases h
      exact ⟨false, rfl, hex, fun p hp => .inl hp⟩
    · next a hex =>
      cases h
      refine ⟨true, rfl, hex, fun p hp => ?_⟩
      rcases List.mem_cons.mp hp with rfl | hp
      · exact .inr rfl
      · exact .inl hp
  | returned =>
    unfold Interface.step at h
    dsimp only at h
    split at h
    · cases h
    rename_i p rest hp
    cases h
    exact .inr (.inl ⟨rfl, ⟨_, rfl⟩, fun q hq => hp ▸ List.mem_cons_of_mem p hq⟩)
  | failed =>
    unfold Interface.step at h
    dsimp only at h
    split at h
    · cases h
    rename_i p rest hp
    cases h
    exact .inr (.inr ⟨rfl, ⟨p, hp ▸ List.mem_cons_self, rfl⟩, fun q hq => hp ▸ List.mem_cons_of_mem p hq⟩)

variable {t : Session S} {s : S}

theorem Interface.Reaches.invariant {P : Account S → Prop}
    (hexec : ∀ {a env call a' pays}, i.exec a env call = .ok (a', pays) → P a → P a')
    (hreturn : ∀ {a} entered, P a → P { a with entered }) (h₀ : P { storage := s })
    (ht : i.Reaches s t) : P t.current ∧ ∀ p ∈ t.pending, P p.before := by
  obtain ⟨events, hr⟩ := ht
  refine hr.invariant (P := fun t => P t.current ∧ ∀ p ∈ t.pending, P p.before) ⟨h₀, nofun⟩ ?_
  rintro t e u ⟨hcur, hpend⟩ hstep
  rcases step_eq_some hstep with ⟨env, call, pays, -, hex, hsub⟩ | ⟨-, ⟨entered, heq⟩, hsub⟩ |
    ⟨-, ⟨p, hp, heq⟩, hsub⟩
  · refine ⟨hexec hex hcur, fun p hp => ?_⟩
    rcases hsub p hp with hp | hp
    · exact hpend p hp
    · rwa [hp]
  · exact ⟨heq ▸ hreturn entered hcur, fun p hp => hpend p (hsub p hp)⟩
  · exact ⟨heq ▸ hpend p hp, fun q hq => hpend q (hsub q hq)⟩

theorem Interface.Reaches.storage {P : S → Prop}
    (hbody : ∀ {env call s s' amount}, i.body env call s = .ok ⟨s', amount⟩ → P s → P s')
    (h₀ : P s) (ht : i.Reaches s t) : P t.current.storage := by
  refine (ht.invariant (P := fun a => P a.storage) (fun hex ha => ?_) (fun _ ha => ha) h₀).1
  obtain ⟨amount, hb, -⟩ := exec_eq_ok hex
  exact hbody hb ha

/-- No function comes to owe more than the call brought in, what it pays included. -/
def Interface.Conserves (i : Interface S E C) (owed : S → ℕ) : Prop :=
  ∀ {env call s s' amount}, i.body env call s = .ok ⟨s', amount⟩ →
    (i.payable call = true ∨ env.value = 0) → owed s' + amount.getD 0 ≤ owed s + env.value

theorem Interface.Reaches.solvent {owed : S → ℕ} (hi : i.Conserves owed) (h₀ : owed s = 0)
    (ht : i.Reaches s t) : owed t.current.storage ≤ t.current.balance := by
  refine (ht.invariant (P := fun a => owed a.storage ≤ a.balance) (fun hex ha => ?_) (fun _ ha => ha)
    h₀.le).1
  obtain ⟨amount, hbody, hvalue, hbalance, -⟩ := exec_eq_ok hex
  have hstep := hi hbody hvalue
  omega

theorem exec_ne_transfer {owed : S → ℕ} (hi : i.Conserves owed) (ha : owed a.storage ≤ a.balance)
    (env : Env) (call : C) : i.exec a env call ≠ .error .transfer := by
  intro h
  unfold Interface.exec at h
  split_ifs at h with hpay
  · cases h
  · cases h
  · cases h
  split at h
  · cases h
  · cases h
  · rename_i storage amount hbody
    split_ifs at h
    have hstep := hi hbody (payable_or_zero hpay)
    rw [Option.getD_some] at hstep
    omega

def Interface.TimedStep (i : Interface S E C) (s : Session S × UInt64) (e : Event C)
    (t : Session S × UInt64) : Prop :=
  i.step s.1 e = some t.1 ∧
    match e with
    | .call env _ => s.2 ≤ env.number ∧ t.2 = env.number
    | .returned | .failed => t.2 = s.2

def Interface.timedStep (i : Interface S E C) (s : Session S × UInt64) (e : Event C) :
    Option (Session S × UInt64) :=
  match e with
  | .call env _ => if s.2 ≤ env.number then (i.step s.1 e).map fun t => (t, env.number) else none
  | .returned | .failed => (i.step s.1 e).map fun t => (t, s.2)

theorem Interface.TimedStep.of_timedStep {s t : Session S × UInt64} {e : Event C}
    (h : i.timedStep s e = some t) : i.TimedStep s e t := by
  cases e with
  | call env c =>
    obtain ⟨hle, h⟩ := Option.ite_none_right_eq_some.mp h
    obtain ⟨u, hu, rfl⟩ := Option.map_eq_some_iff.mp h
    exact ⟨hu, hle, rfl⟩
  | returned | failed =>
    obtain ⟨u, hu, rfl⟩ := Option.map_eq_some_iff.mp h
    exact ⟨hu, rfl⟩

def Interface.ReachesBy (i : Interface S E C) (s : S) (t : Session S) (now : UInt64) : Prop :=
  ∃ events, Transition.Runs i.TimedStep (⟨{ storage := s }, []⟩, 0) events (t, now)

theorem Interface.ReachesBy.storage {P : S → UInt64 → Prop}
    (hmono : ∀ {s now later}, P s now → now ≤ later → P s later)
    (hbody : ∀ {env call s s' amount}, i.body env call s = .ok ⟨s', amount⟩ → P s env.number → P s' env.number)
    (h₀ : P s 0) {now : UInt64} (ht : i.ReachesBy s t now) : P t.current.storage now := by
  obtain ⟨events, hr⟩ := ht
  have hinv : P t.current.storage now ∧ ∀ p ∈ t.pending, P p.before.storage now :=
    hr.invariant (P := fun t => P t.1.current.storage t.2 ∧ ∀ p ∈ t.1.pending, P p.before.storage t.2)
      ⟨h₀, nofun⟩ <| by
    rintro ⟨t, now⟩ e ⟨u, later⟩ ⟨hcur, hpend⟩ ⟨hstep, htime⟩
    rcases step_eq_some hstep with ⟨env, call, pays, rfl, hex, hsub⟩ | ⟨rfl, ⟨entered, heq⟩, hsub⟩ |
      ⟨rfl, ⟨p, hp, heq⟩, hsub⟩
    · obtain ⟨hle, rfl⟩ := htime
      obtain ⟨amount, hb, -⟩ := exec_eq_ok hex
      refine ⟨hbody hb (hmono hcur hle), fun p hp => ?_⟩
      rcases hsub p hp with hp | hp
      · exact hmono (hpend p hp) hle
      · rw [hp]
        exact hmono hcur hle
    · obtain rfl : later = now := htime
      exact ⟨by rw [heq]; exact hcur, fun p hp => hpend p (hsub p hp)⟩
    · obtain rfl : later = now := htime
      exact ⟨by rw [heq]; exact hpend p hp, fun q hq => hpend q (hsub q hq)⟩
  exact hinv.1

end CitrateChain.Contract
