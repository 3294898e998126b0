import Mathlib.Algebra.BigOperators.Fin
import CitrateChain.Contracts.ValidatorRegistry

/-! # What the functions of the registry do

For each part of a function, the fields it leaves alone and what it does to the others. -/
namespace CitrateChain.Contracts
open Contract Result

namespace Registry

variable {s s' : Registry} {env : Env} {key : Bytes32} {v : Validator}

theorem fillHole_frame {idx last : ℕ} (h : s.fillHole idx last = .ok s') :
    ∃ set index, s' = { s with activeSet := set, activeIndexPlusOne := index } := by
  unfold fillHole at h
  split at h
  · cases h
    exact ⟨_, _, rfl⟩
  split at h
  · cases h
  split_ifs at h
  cases h
  exact ⟨_, _, rfl⟩

theorem removeFromActive_frame (h : s.removeFromActive key = .ok s') :
    ∃ set index, s' = { s with activeSet := set, activeIndexPlusOne := index } := by
  unfold removeFromActive at h
  dsimp only at h
  split at h
  · cases h
    exact ⟨_, _, rfl⟩
  obtain ⟨last, -, h⟩ := bind_eq_ok.mp h
  obtain ⟨t, ht, h⟩ := bind_eq_ok.mp h
  obtain ⟨set, index, rfl⟩ := fillHole_frame ht
  cases h
  exact ⟨_, _, rfl⟩

theorem unbind_frame (s : Registry) (staker : Address) (key : Bytes32) :
    ∃ binding, s.unbind staker key = { s with pubkeyOfStaker := binding } := by
  unfold unbind
  split
  · exact ⟨_, rfl⟩
  · exact ⟨_, rfl⟩

def exited (env : Env) (v : Validator) : Validator :=
  { v with
    escrow := v.escrow + v.bondedStake
    bondedStake := 0
    escrowUnlockEpoch := unlockEpoch env
    status := .exiting
    exitEpoch := currentEpoch env % 2 ^ 64 }

theorem beginExit_frame (h : s.beginExit env key = .ok s') : ∃ set index binding, s' = { s with
        validators := s.validators.set key (exited env (s.validators.get key))
        books := s.books.set key
          ((s.books.get key).escrow (currentEpoch env) (s.validators.get key).bondedStake)
        activeSet := set
        activeIndexPlusOne := index
        pubkeyOfStaker := binding } := by
  simp only [beginExit, bind_eq_ok, add_eq_ok] at h
  obtain ⟨_, ⟨rfl, -⟩, t, ht, h⟩ := h
  obtain ⟨set, index, rfl⟩ := removeFromActive_frame ht
  cases h
  obtain ⟨binding, heq⟩ := unbind_frame _ (s.validators.get key).staker key
  exact ⟨set, index, binding, heq⟩

theorem sum_update_add (f : Fin 4 → ℕ) (i : Fin 4) (a : ℕ) :
    ∑ j, Function.update f i a j + f i = ∑ j, f j + a := by
  have hsum := Finset.sum_update_of_mem (Finset.mem_univ i) f a
  have hsplit := Finset.add_sum_erase Finset.univ f (Finset.mem_univ i)
  rw [Finset.sdiff_singleton_eq_erase] at hsum
  omega

/-- From one ring and record to another by sweeping: matured slots are emptied, and what ripens comes
out of them. -/
structure Sweeps (epoch : ℕ) (acc acc' : RewardRing × Validator) : Prop where
  epoch_eq : acc'.1.epoch = acc.1.epoch
  slot : ∀ j, acc'.1.amount j = acc.1.amount j ∨
    acc'.1.amount j = 0 ∧ acc.1.epoch j + rewardRing ≤ epoch
  moved : ∃ dec, dec ≤ acc.2.vestedRewards ∧
    acc'.2 =
      { acc.2 with
        vestedRewards := acc.2.vestedRewards - dec
        ripeRewards := acc.2.ripeRewards + dec } ∧
    dec + ∑ j, acc'.1.amount j ≤ ∑ j, acc.1.amount j

section Sweeps
variable {epoch : ℕ} {acc acc' acc'' : RewardRing × Validator} {i : Fin 4}

theorem Sweeps.refl (epoch : ℕ) (acc : RewardRing × Validator) : Sweeps epoch acc acc where
  epoch_eq := rfl
  slot _ := .inl rfl
  moved := ⟨0, Nat.zero_le _, rfl, (Nat.zero_add _).le⟩

theorem Sweeps.trans (h : Sweeps epoch acc acc') (h' : Sweeps epoch acc' acc'') :
    Sweeps epoch acc acc'' := by
  obtain ⟨dec, hle, heq, hsum⟩ := h.moved
  obtain ⟨dec', hle', heq', hsum'⟩ := h'.moved
  refine ⟨h'.epoch_eq.trans h.epoch_eq, fun j => ?_, dec + dec', ?_, ?_, ?_⟩
  · rcases h'.slot j with hj | ⟨hj, hold⟩
    · rw [hj]
      exact h.slot j
    · rw [h.epoch_eq] at hold
      exact .inr ⟨hj, hold⟩
  · rw [heq] at hle'
    dsimp only at hle'
    omega
  · rw [heq', heq]
    simp only [Validator.mk.injEq, true_and, and_true]
    constructor <;> omega
  · omega

theorem sweepSlot_ok (h : sweepSlot epoch acc i = .ok acc') : Sweeps epoch acc acc' := by
  obtain ⟨ring, v⟩ := acc
  unfold sweepSlot at h
  dsimp only at h
  split at h
  · cases h
    exact .refl _ _
  next hold =>
  push Not at hold
  obtain ⟨ripe, hripe, h⟩ := bind_eq_ok.mp h
  obtain ⟨rfl, -⟩ := add_eq_ok.mp hripe
  cases h
  have hdec : (if v.vestedRewards < ring.amount i then v.vestedRewards else ring.amount i) =
      min v.vestedRewards (ring.amount i) := by
    split <;> omega
  refine ⟨rfl, fun j => ?_, _, ?_, rfl, ?_⟩
  · by_cases hj : j = i
    · subst hj
      exact .inr ⟨Function.update_self .., hold.2⟩
    · exact .inl (Function.update_of_ne hj ..)
  · rw [hdec]
    exact min_le_left _ _
  · rw [hdec]
    have hsum := sum_update_add ring.amount i 0
    have hmin := min_le_right v.vestedRewards (ring.amount i)
    dsimp only
    omega

theorem sweepSlots_ok {slots : List (Fin 4)} (h : slots.foldlM (sweepSlot epoch) acc = .ok acc') :
    Sweeps epoch acc acc' := by
  induction slots generalizing acc with
  | nil =>
    cases h
    exact .refl _ _
  | cons i slots ih =>
    rw [List.foldlM_cons] at h
    obtain ⟨mid, hmid, h⟩ := bind_eq_ok.mp h
    exact (sweepSlot_ok hmid).trans (ih h)

theorem sweepMatured_ok (h : s.sweepMatured env key = .ok s') : ∃ ring v, s' =
      { s with rewardRings := s.rewardRings.set key ring, validators := s.validators.set key v } ∧
    Sweeps (currentEpoch env) (s.rewardRings.get key, s.validators.get key) (ring, v) := by
  obtain ⟨⟨ring, v⟩, hfold, h⟩ := bind_eq_ok.mp h
  cases h
  exact ⟨ring, v, rfl, sweepSlots_ok hfold⟩

theorem sweepMatured_status (h : s.sweepMatured env key = .ok s') :
    (s'.validators.get key).status = (s.validators.get key).status := by
  obtain ⟨ring, v, rfl, hsweeps⟩ := sweepMatured_ok h
  obtain ⟨dec, -, hv, -⟩ := hsweeps.moved
  change ((s.validators.set key v).get key).status = _
  rw [Mapping.get_set_self, show v = _ from hv]

end Sweeps

theorem makeRoom_ok (h : s.makeRoom env = .ok s') : s.activeSet.length < maxActiveSet ∧ s' = s ∨
    maxActiveSet ≤ s.activeSet.length ∧ s.minActive.2 * evictionMarginBps < wordSize ∧
      ∃ evictions, { s with evictionsInEpoch := evictions }.beginExit env s.minActive.1 = .ok s' := by
  unfold makeRoom at h
  split at h
  · next hlt =>
    cases h
    exact .inl ⟨hlt, rfl⟩
  · next hge =>
    simp only [bind_eq_ok, mul_eq_ok] at h
    obtain ⟨_, ⟨-, hscaled⟩, _, -, -, -, -, -, _, -, h⟩ := h
    exact .inr ⟨not_lt.mp hge, hscaled, _, h⟩

variable {r : RegistryRules}

theorem registerValidator_ok {sig : Bytes} (h : s.registerValidator r env key sig = .ok s') :
    s.param .minStake ≤ env.value ∧ (s.validators.get key).status = .none ∧
      s.pubkeyEverRegistered.get key = false ∧ s.pubkeyOfStaker.get env.sender = 0 ∧
      (∃ message, ed25519Verify r key sig message = true) ∧
      ∃ nonces t, { s with registrationNonce := nonces }.makeRoom env = .ok t ∧ s' = t.enroll env key := by
  simp only [registerValidator, bind_eq_ok, require_eq_ok] at h
  obtain ⟨-, hstake, -, -, -, ⟨hstatus, hnever⟩, -, hstaker, -, hsig, _, -, t, ht, h⟩ := h
  cases h
  exact ⟨hstake, hstatus, by simpa using hnever, hstaker, ⟨_, hsig⟩, _, t, ht, rfl⟩

theorem increaseStake_ok (h : s.increaseStake env key = .ok s') :
    (s.validators.get key).status = .active ∧ s' = s.setValidator key
        { s.validators.get key with bondedStake := (s.validators.get key).bondedStake + env.value } := by
  simp only [increaseStake, bind_eq_ok, require_eq_ok, add_eq_ok] at h
  obtain ⟨-, -, -, hactive, _, ⟨rfl, -⟩, h⟩ := h
  cases h
  exact ⟨hactive, rfl⟩

def unbonding (env : Env) (v : Validator) (amount : ℕ) : Validator :=
  { v with escrow := v.escrow + amount, escrowUnlockEpoch := unlockEpoch env }

theorem initiateUnbond_ok {amount : ℕ} (h : s.initiateUnbond env key amount = .ok s') :
    let v := s.validators.get key
    let t := s.setBook key ((s.books.get key).escrow (currentEpoch env) amount)
    v.staker = env.sender ∧ v.status = .active ∧ amount ≤ v.bondedStake ∧ (v.bondedStake = amount ∧
        (∃ u, (t.setValidator key { unbonding env v amount with
              bondedStake := 0
              status := .exiting
              exitEpoch := currentEpoch env % 2 ^ 64 }).removeFromActive key = .ok u ∧
          s' = { u with pubkeyOfStaker := u.pubkeyOfStaker.set env.sender 0 }) ∨
      v.admissionMinStake ≤ v.bondedStake - amount ∧ s' = t.setValidator key
          { unbonding env v amount with bondedStake := v.bondedStake - amount }) := by
  simp only [initiateUnbond, bind_eq_ok, require_eq_ok, add_eq_ok] at h
  obtain ⟨-, hstaker, -, hactive, -, ⟨-, hle⟩, -, hrest, _, ⟨rfl, -⟩, h⟩ := h
  refine ⟨hstaker, hactive, hle, ?_⟩
  unfold finishUnbond at h
  split at h
  · next hzero =>
    obtain ⟨u, hu, h⟩ := bind_eq_ok.mp h
    cases h
    exact .inl ⟨by omega, u, hu, rfl⟩
  · next hpos =>
    cases h
    exact .inr ⟨hrest.resolve_left hpos, rfl⟩

theorem creditReward_ok {amount : ℕ} (h : s.creditReward env key amount = .ok s') :
    env.value = amount ∧ (s.validators.get key).status = .active ∧ ∃ emitted t,
      { s with emittedInEpoch := emitted }.sweepMatured env key = .ok t ∧
      s' = ({ t with
          rewardRings := t.rewardRings.set key
            { amount := Function.update (t.rewardRings.get key).amount (ringSlot (currentEpoch env))
                ((t.rewardRings.get key).amount (ringSlot (currentEpoch env)) + amount)
              epoch := Function.update (t.rewardRings.get key).epoch (ringSlot (currentEpoch env))
                (currentEpoch env % 2 ^ 64) } }.setValidator key
        { t.validators.get key with
          vestedRewards := (t.validators.get key).vestedRewards + amount }).setBook key
          ((t.books.get key).credit (currentEpoch env) amount) := by
  simp only [creditReward, bind_eq_ok, require_eq_ok, add_eq_ok] at h
  obtain ⟨-, -, -, hvalue, -, hactive, _, -, -, -, t, ht, _, ⟨rfl, -⟩, _, ⟨rfl, -⟩, h⟩ := h
  cases h
  exact ⟨hvalue, hactive, _, t, ht, rfl⟩

variable {e : Effect Registry}

theorem claimRewards_ok (h : s.claimRewards env key = .ok e) : ∃ t, s.sweepMatured env key = .ok t ∧
      e = { storage := (t.setValidator key { t.validators.get key with ripeRewards := 0 }).setBook key
              ((t.books.get key).payRewards (t.validators.get key).ripeRewards)
            payment := some (t.validators.get key).ripeRewards } := by
  simp only [claimRewards, bind_eq_ok] at h
  obtain ⟨-, -, t, ht, -, -, h⟩ := h
  cases h
  exact ⟨t, ht, rfl⟩

theorem releaseEscrow_ok {v w : Validator} {principal : ℕ}
    (h : s.releaseEscrow env key v = .ok (principal, s', w)) :
    principal = v.escrow ∧ w = { v with escrow := 0 } ∧ (v.escrow = 0 ∧ s' = s ∨
        v.escrowUnlockEpoch ≤ currentEpoch env ∧ s' = s.setBook key ((s.books.get key).payPrincipal v.escrow)) := by
  unfold releaseEscrow at h
  split at h
  · obtain ⟨⟨⟩, hopen, h⟩ := bind_eq_ok.mp h
    cases h
    exact ⟨rfl, rfl, .inr ⟨require_eq_ok.mp hopen, rfl⟩⟩
  · next hpos =>
    have hzero : v.escrow = 0 := by omega
    cases h
    refine ⟨hzero.symm, ?_, .inl ⟨hzero, rfl⟩⟩
    rw [← hzero]

theorem releaseRewards_ok {v w : Validator} {rewards : ℕ}
    (h : s.releaseRewards env key v = .ok (rewards, s', w)) :
    rewards = 0 ∧ s' = s ∧ w = v ∨
    v.status = .exiting ∧ v.exitEpoch + exitLockEpochs ≤ currentEpoch env ∧
      rewards = v.vestedRewards + v.ripeRewards ∧
      w = { v with vestedRewards := 0, ripeRewards := 0, withdrawn := true } ∧
      s' = { s with rewardRings := s.rewardRings.set key {} }.setBook key
        ((s.books.get key).payRewards rewards) := by
  unfold releaseRewards at h
  split at h
  · next hexit =>
    simp only [bind_eq_ok, require_eq_ok, add_eq_ok] at h
    obtain ⟨-, hopen, _, ⟨rfl, -⟩, h⟩ := h
    cases h
    exact .inr ⟨hexit.1, hopen, rfl, rfl, rfl⟩
  · cases h
    exact .inl ⟨rfl, rfl, rfl⟩

theorem withdraw_ok (h : s.withdraw env key = .ok e) :
    ∃ principal rewards t u v w, s.releaseEscrow env key (s.validators.get key) = .ok (principal, t, v) ∧
      t.releaseRewards env key v = .ok (rewards, u, w) ∧
      e = { storage := u.setValidator key w, payment := some (principal + rewards) } := by
  simp only [Registry.withdraw, bind_eq_ok, add_eq_ok] at h
  obtain ⟨-, -, -, -, ⟨principal, t, v⟩, hescrow, ⟨rewards, u, w⟩, hrewards, _, ⟨rfl, -⟩, -, -, h⟩ := h
  cases h
  exact ⟨principal, rewards, t, u, v, w, hescrow, hrewards, rfl⟩

theorem claimBounty_ok (h : s.claimBounty env = .ok e) :
    e = { storage := { s with claimable := s.claimable.set env.sender 0 }
          payment := some (s.claimable.get env.sender) } := by
  obtain ⟨⟨⟩, -, h⟩ := bind_eq_ok.mp h
  cases h
  rfl

theorem accrueBounty_ok {reporter : Address} {penalty : ℕ}
    (h : s.accrueBounty reporter penalty = .ok s') :
    ∃ bounty ≤ penalty, s' = s ∨
      s' = { s with claimable := s.claimable.set reporter (s.claimable.get reporter + bounty) } := by
  unfold accrueBounty at h
  split at h
  · obtain ⟨scaled, hscaled, h⟩ := bind_eq_ok.mp h
    obtain ⟨rfl, -⟩ := mul_eq_ok.mp hscaled
    have hle : penalty * bountyBps / 10000 ≤ penalty := by
      unfold bountyBps
      omega
    dsimp only at h
    split at h
    · obtain ⟨total, htotal, h⟩ := bind_eq_ok.mp h
      obtain ⟨rfl, -⟩ := add_eq_ok.mp htotal
      cases h
      exact ⟨_, hle, .inr rfl⟩
    · cases h
      exact ⟨_, hle, .inl rfl⟩
  · cases h
    exact ⟨0, Nat.zero_le _, .inl rfl⟩

theorem settleSlash_ok {tier : SlashTier} (h : s.settleSlash env key tier = .ok s') :
    (∃ pubkeys stakers t,
      ({ s.setValidator key { s.validators.get key with status := .slashed } with
          slashedPubkey := pubkeys, slashedStaker := stakers }).removeFromActive key = .ok t ∧
        s' = t.unbind (s.validators.get key).staker key) ∨
    s.beginExit env key = .ok s' ∨
    s' = s ∧ ((s.validators.get key).status = .active →
      (s.validators.get key).admissionMinStake ≤ (s.validators.get key).bondedStake) := by
  unfold settleSlash at h
  dsimp only at h
  split at h
  · obtain ⟨t, ht, h⟩ := bind_eq_ok.mp h
    cases h
    exact .inl ⟨_, _, t, ht, rfl⟩
  split at h
  · exact .inr (.inl h)
  · next hkeep =>
    cases h
    refine .inr (.inr ⟨rfl, fun hactive => ?_⟩)
    by_contra hlt
    exact hkeep ⟨hactive, not_le.mp hlt⟩

theorem slashInternal_ok {tier : SlashTier} {reporter : Address}
    (h : s.slashInternal env key tier reporter = .ok s') :
    (s.validators.get key).status ≠ .slashed ∧ (s.validators.get key).status ≠ .none ∧
    ∃ t u penalty, s.sweepMatured env key = .ok t ∧
      penalty ≤ (t.validators.get key).bondedStake + (t.validators.get key).escrow +
        (t.validators.get key).vestedRewards ∧
      (t.setValidator key (drawPenalty (t.validators.get key) penalty)).accrueBounty reporter penalty =
        .ok u ∧
      u.settleSlash env key tier = .ok s' := by
  simp only [slashInternal, bind_eq_ok, require_eq_ok, add_eq_ok, mul_eq_ok] at h
  obtain ⟨-, hslashed, -, hnone, t, ht, _, ⟨rfl, -⟩, _, ⟨rfl, -⟩, _, ⟨rfl, -⟩, u, hu, h⟩ := h
  refine ⟨hslashed, hnone, t, u, _, ht, ?_, hu, h⟩
  have hbps : tier.penaltyBps ≤ 10000 := by cases tier <;> decide
  calc _ ≤ _ * 10000 / 10000 := Nat.div_le_div_right (Nat.mul_le_mul_left _ hbps)
    _ = _ := Nat.mul_div_cancel _ (by decide)

theorem submitEquivocation_ok {height : UInt64} {a b : Bytes32} {sigA sigB : Bytes}
    (h : s.submitEquivocation r env key height a sigA b sigB = .ok s') :
    ∃ used, { s with usedEquivocation := used }.slashInternal env key .byzantine env.sender = .ok s' := by
  simp only [submitEquivocation, bind_eq_ok] at h
  obtain ⟨-, -, -, -, -, -, -, -, -, -, -, -, h⟩ := h
  exact ⟨_, h⟩

theorem new_ok {governance slasher rewardMinter : Address} {param : Param → ℕ}
    (h : new governance slasher rewardMinter param = .ok s) :
    ∃ governable, s = { param, slasher, rewardMinter, governable } := by
  simp only [new, bind_eq_ok] at h
  obtain ⟨governable, -, -, -, -, -, h⟩ := h
  cases h
  exact ⟨governable, rfl⟩

def Governed (s s' : Registry) : Prop :=
  ∃ param pendingParam slasher pendingSlasher governable, s' =
    { s with param, pendingParam, slasher, pendingSlasher, governable }

/-- What a call does. Evidence of equivocation comes down to a slash, like the slasher's own calls. -/
inductive Performs (r : RegistryRules) (env : Env) (s s' : Registry) : Option ℕ → Prop
  | register {key : Bytes32} {sig : Bytes} (h : s.registerValidator r env key sig = .ok s') :
      Performs r env s s' none
  | increase {key : Bytes32} (h : s.increaseStake env key = .ok s') : Performs r env s s' none
  | unbond {key : Bytes32} {amount : ℕ} (h : s.initiateUnbond env key amount = .ok s') :
      Performs r env s s' none
  | withdraw {key : Bytes32} {payment : Option ℕ} (h : s.withdraw env key = .ok ⟨s', payment⟩) :
      Performs r env s s' payment
  | bounty {payment : Option ℕ} (h : s.claimBounty env = .ok ⟨s', payment⟩) : Performs r env s s' payment
  | slash {used : Mapping Bytes32 Bool} {key : Bytes32} {tier : SlashTier} {reporter : Address}
      (h : { s with usedEquivocation := used }.slashInternal env key tier reporter = .ok s') :
      Performs r env s s' none
  | credit {key : Bytes32} {amount : ℕ} (h : s.creditReward env key amount = .ok s') :
      Performs r env s s' none
  | claim {key : Bytes32} {payment : Option ℕ} (h : s.claimRewards env key = .ok ⟨s', payment⟩) :
      Performs r env s s' payment
  | govern (h : Governed s s') : Performs r env s s' none
  | receive (h : s' = s) : Performs r env s s' none

theorem body_performs {call : RegistryCall} {payment : Option ℕ}
    (h : (validatorRegistry r).body env call s = .ok ⟨s', payment⟩) :
    Performs r env s s' payment := by
  cases call with
  | registerValidator key sig => exact silent_elim h .register
  | increaseStake key => exact silent_elim h .increase
  | initiateUnbond key amount => exact silent_elim h .unbond
  | withdraw key => exact .withdraw h
  | claimBounty => exact .bounty h
  | submitEquivocation key height a sigA b sigB =>
    obtain ⟨hrun, rfl⟩ := silent_ok h
    obtain ⟨used, hslash⟩ := submitEquivocation_ok hrun
    exact .slash hslash
  | slash key tier =>
    obtain ⟨hrun, rfl⟩ := silent_ok h
    obtain ⟨⟨⟩, -, hslash⟩ := bind_eq_ok.mp hrun
    exact .slash hslash
  | creditReward key amount => exact silent_elim h .credit
  | claimRewards key => exact .claim h
  | queueParam p value =>
    obtain ⟨hrun, rfl⟩ := silent_ok h
    simp only [queueParam, bind_eq_ok] at hrun
    obtain ⟨-, -, -, -, -, -, _, -, hrun⟩ := hrun
    cases hrun
    exact .govern ⟨_, _, _, _, _, rfl⟩
  | queueSlasher a =>
    obtain ⟨hrun, rfl⟩ := silent_ok h
    simp only [queueSlasher, bind_eq_ok] at hrun
    obtain ⟨-, -, -, -, _, -, hrun⟩ := hrun
    cases hrun
    exact .govern ⟨_, _, _, _, _, rfl⟩
  | executeParam p | executeSlasher =>
    obtain ⟨hrun, rfl⟩ := silent_ok h
    obtain ⟨⟨⟩, -, hrun⟩ := bind_eq_ok.mp hrun
    obtain ⟨value, -, hrun⟩ := bind_eq_ok.mp hrun
    cases hrun
    exact .govern ⟨_, _, _, _, _, rfl⟩
  | govern call =>
    obtain ⟨hrun, rfl⟩ := silent_ok h
    obtain ⟨governable, -, hrun⟩ := bind_eq_ok.mp hrun
    cases hrun
    exact .govern ⟨_, _, _, _, _, rfl⟩
  | receive =>
    cases h
    exact .receive rfl

end Registry

end CitrateChain.Contracts
