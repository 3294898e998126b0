import CitrateChain.Contracts.RegistryFrames

/-! # The registry can pay what it owes

What the registry owes is the four buckets of every validator and the bounties. A slash turns a part
of what it takes into a bounty, and every other function moves funds between buckets, takes in what
it books or pays out what it strikes off. -/
namespace CitrateChain.Contracts
open Contract Validator Registry

def Validator.held (v : Validator) : ℕ := v.bondedStake + v.escrow + v.vestedRewards + v.ripeRewards

theorem Validator.held_default : (default : Validator).held = 0 := rfl

namespace Registry

def owed (s : Registry) : ℕ := s.validators.sum held + s.claimable.sum id

variable {s s' : Registry} {env : Env} {key : Bytes32} {v : Validator}

theorem owed_congr (hv : s'.validators = s.validators) (hc : s'.claimable = s.claimable) :
    s'.owed = s.owed := by
  unfold owed
  rw [hv, hc]

section

variable (hv : s'.validators = s.validators.set key v) (hc : s'.claimable = s.claimable)
include hv hc

theorem owed_of_validator : s'.owed + (s.validators.get key).held = s.owed + v.held := by
  have hsum := Mapping.sum_set held_default s.validators key v
  unfold owed
  rw [hv, hc]
  omega

theorem owed_of_held (hheld : v.held = (s.validators.get key).held) : s'.owed = s.owed := by
  have hset := owed_of_validator hv hc
  omega

end

theorem owed_of_claimable {a : Address} {n : ℕ} (hv : s'.validators = s.validators)
    (hc : s'.claimable = s.claimable.set a n) : s'.owed + s.claimable.get a = s.owed + n := by
  have hsum : (s.claimable.set a n).sum id + id (s.claimable.get a) = s.claimable.sum id + id n :=
    Mapping.sum_set rfl s.claimable a n
  unfold owed
  rw [hv, hc]
  dsimp only [id] at hsum
  omega

theorem held_exited (env : Env) (v : Validator) : (exited env v).held = v.held := by
  unfold held exited
  dsimp only
  omega

theorem owed_beginExit (h : s.beginExit env key = .ok s') : s'.owed = s.owed := by
  obtain ⟨set, index, binding, rfl⟩ := beginExit_frame h
  exact owed_of_held rfl rfl (held_exited ..)

theorem Sweeps.held {epoch : ℕ} {acc acc' : RewardRing × Validator} (h : Sweeps epoch acc acc') :
    acc'.2.held = acc.2.held := by
  obtain ⟨dec, hle, heq, -⟩ := h.moved
  rw [heq]
  unfold Validator.held
  dsimp only
  omega

theorem owed_sweepMatured (h : s.sweepMatured env key = .ok s') : s'.owed = s.owed := by
  obtain ⟨ring, v, rfl, hsweeps⟩ := sweepMatured_ok h
  exact owed_of_held rfl rfl hsweeps.held

theorem held_drawPenalty {penalty : ℕ} (h : penalty ≤ v.bondedStake + v.escrow + v.vestedRewards) :
    (drawPenalty v penalty).held + penalty = v.held := by
  unfold held drawPenalty
  dsimp only
  omega

theorem owed_makeRoom (h : s.makeRoom env = .ok s') : s'.owed = s.owed := by
  rcases makeRoom_ok h with ⟨-, rfl⟩ | ⟨-, -, evictions, hexit⟩
  · rfl
  · rw [owed_beginExit hexit]
    exact owed_congr rfl rfl

theorem owed_register {r : RegistryRules} {sig : Bytes} (h : s.registerValidator r env key sig = .ok s') :
    s'.owed ≤ s.owed + env.value := by
  obtain ⟨-, -, -, -, -, nonces, t, ht, heq⟩ := registerValidator_ok h
  have hroom := owed_makeRoom ht
  have hnonces : owed { s with registrationNonce := nonces } = s.owed := owed_congr rfl rfl
  let v : Validator :=
    { staker := env.sender
      bondedStake := env.value
      admissionMinStake := t.param .minStake
      activationEpoch := firstEpochAfterSnapshot env.number.toNat
      status := .active }
  have hv : s'.validators = t.validators.set key v := by rw [heq]; rfl
  have hset := owed_of_validator hv (by rw [heq]; rfl)
  have hheld : v.held = env.value := rfl
  omega

theorem owed_increase (h : s.increaseStake env key = .ok s') : s'.owed = s.owed + env.value := by
  obtain ⟨-, heq⟩ := increaseStake_ok h
  have hv : s'.validators = s.validators.set key _ := congrArg validators heq
  have hset := owed_of_validator hv (by rw [heq]; rfl)
  unfold held at hset
  dsimp only at hset
  omega

theorem owed_unbond {amount : ℕ} (h : s.initiateUnbond env key amount = .ok s') : s'.owed = s.owed := by
  obtain ⟨-, -, hle, hcase⟩ := initiateUnbond_ok h
  rcases hcase with ⟨hall, u, hu, rfl⟩ | ⟨-, rfl⟩
  on_goal 1 => obtain ⟨set, index, rfl⟩ := removeFromActive_frame hu
  all_goals
    refine owed_of_held rfl rfl ?_
    unfold held unbonding
    dsimp only
    omega

variable {payment : Option ℕ}

theorem owed_withdraw (h : s.withdraw env key = .ok ⟨s', payment⟩) :
    s'.owed + payment.getD 0 = s.owed := by
  obtain ⟨principal, rewards, t, u, v, w, hescrow, hrewards, heq⟩ := withdraw_ok h
  obtain ⟨hs', rfl⟩ := Effect.mk.inj heq
  obtain ⟨rfl, rfl, ht⟩ := releaseEscrow_ok hescrow
  have htv : t.validators = s.validators ∧ t.claimable = s.claimable := by
    rcases ht with ⟨-, rfl⟩ | ⟨-, rfl⟩ <;> exact ⟨rfl, rfl⟩
  have hu : u.validators = s.validators ∧ u.claimable = s.claimable ∧
      w.held + rewards + (s.validators.get key).escrow = (s.validators.get key).held := by
    rcases releaseRewards_ok hrewards with ⟨rfl, rfl, rfl⟩ | ⟨-, -, rfl, rfl, rfl⟩
    all_goals
      refine ⟨htv.1, htv.2, ?_⟩
      unfold held
      dsimp only
      omega
  have hv : s'.validators = s.validators.set key w := by
    rw [hs', setValidator, hu.1]
  have hset := owed_of_validator hv (by rw [hs', setValidator, hu.2.1])
  rw [Option.getD_some]
  omega

theorem owed_bounty (h : s.claimBounty env = .ok ⟨s', payment⟩) :
    s'.owed + payment.getD 0 = s.owed := by
  obtain ⟨hs', rfl⟩ := Effect.mk.inj (claimBounty_ok h)
  have hc : s'.claimable = s.claimable.set env.sender 0 := by rw [hs']
  have hset := owed_of_claimable (by rw [hs']) hc
  rwa [Nat.add_zero] at hset

theorem owed_accrueBounty {reporter : Address} {penalty : ℕ}
    (h : s.accrueBounty reporter penalty = .ok s') : s'.owed ≤ s.owed + penalty := by
  obtain ⟨bounty, hle, rfl | heq⟩ := accrueBounty_ok h
  · exact Nat.le_add_right _ _
  · have hc : s'.claimable = s.claimable.set reporter (s.claimable.get reporter + bounty) := by rw [heq]
    have hset := owed_of_claimable (by rw [heq]) hc
    omega

theorem owed_settleSlash {tier : SlashTier} (h : s.settleSlash env key tier = .ok s') :
    s'.owed = s.owed := by
  rcases settleSlash_ok h with ⟨pubkeys, stakers, t, ht, rfl⟩ | hexit | ⟨rfl, -⟩
  · obtain ⟨set, index, rfl⟩ := removeFromActive_frame ht
    obtain ⟨binding, hbind⟩ := unbind_frame _ (s.validators.get key).staker key
    rw [hbind]
    exact owed_of_held rfl rfl rfl
  · exact owed_beginExit hexit
  · rfl

theorem owed_slash {tier : SlashTier} {reporter : Address}
    (h : s.slashInternal env key tier reporter = .ok s') : s'.owed ≤ s.owed := by
  obtain ⟨-, -, t, u, penalty, ht, hle, hu, hs'⟩ := slashInternal_ok h
  have hsweep := owed_sweepMatured ht
  have hset : (t.setValidator key (drawPenalty (t.validators.get key) penalty)).owed +
      (t.validators.get key).held = t.owed + (drawPenalty (t.validators.get key) penalty).held :=
    owed_of_validator rfl rfl
  have hheld := held_drawPenalty hle
  have hbounty := owed_accrueBounty hu
  have hsettle := owed_settleSlash hs'
  omega

theorem owed_credit {amount : ℕ} (h : s.creditReward env key amount = .ok s') :
    s'.owed = s.owed + env.value := by
  obtain ⟨rfl, -, emitted, t, ht, heq⟩ := creditReward_ok h
  have hsweep := owed_sweepMatured ht
  have hemitted : owed { s with emittedInEpoch := emitted } = s.owed := owed_congr rfl rfl
  have hv : s'.validators = t.validators.set key _ := congrArg validators heq
  have hset := owed_of_validator hv (by rw [heq]; rfl)
  unfold held at hset
  dsimp only at hset
  omega

theorem owed_claim (h : s.claimRewards env key = .ok ⟨s', payment⟩) :
    s'.owed + payment.getD 0 = s.owed := by
  obtain ⟨t, ht, heq⟩ := claimRewards_ok h
  obtain ⟨hs', rfl⟩ := Effect.mk.inj heq
  have hsweep := owed_sweepMatured ht
  have hv : s'.validators = t.validators.set key _ := congrArg validators hs'
  have hset := owed_of_validator hv (by rw [hs']; rfl)
  unfold held at hset
  dsimp only at hset
  rw [Option.getD_some]
  omega

end Registry

theorem validatorRegistry_conserves (r : RegistryRules) : (validatorRegistry r).Conserves owed := by
  intro env call s s' amount hbody _
  cases body_performs hbody with
  | register h => exact owed_register h
  | increase h => exact (owed_increase h).le
  | unbond h =>
    rw [Option.getD_none, owed_unbond h]
    exact Nat.le_add_right _ _
  | withdraw h =>
    rw [owed_withdraw h]
    exact Nat.le_add_right _ _
  | bounty h =>
    rw [owed_bounty h]
    exact Nat.le_add_right _ _
  | slash h => exact (owed_slash h).trans (Nat.le_add_right _ _)
  | credit h => exact (owed_credit h).le
  | claim h =>
    rw [owed_claim h]
    exact Nat.le_add_right _ _
  | govern h =>
    obtain ⟨_, _, _, _, _, rfl⟩ := h
    exact Nat.le_add_right _ _
  | receive h =>
    rw [h]
    exact Nat.le_add_right _ _

namespace Registry
variable {governance slasher rewardMinter : Address} {param : Param → ℕ} {s₀ : Registry}

theorem owed_new (h : new governance slasher rewardMinter param = .ok s₀) : s₀.owed = 0 := by
  obtain ⟨governable, rfl⟩ := new_ok h
  unfold owed
  rw [Mapping.sum_empty, Mapping.sum_empty]

/-- In every state that calls lead to, nested ones included, the balance covers the four buckets of
every validator and the bounties, and no payment fails for want of funds. -/
theorem balance_covers_owed {r : RegistryRules} (h : new governance slasher rewardMinter param = .ok s₀)
    {t : Session Registry} (ht : (validatorRegistry r).Reaches s₀ t) :
    t.current.storage.validators.sum
        (fun v => v.bondedStake + v.escrow + v.vestedRewards + v.ripeRewards) +
      t.current.storage.claimable.sum id ≤ t.current.balance ∧
    ∀ env call, (validatorRegistry r).exec t.current env call ≠ .error .transfer := by
  have hsolvent := ht.solvent (validatorRegistry_conserves r) (owed_new h)
  exact ⟨hsolvent, exec_ne_transfer (validatorRegistry_conserves r) hsolvent⟩

def reported : List (Event RegistryCall) :=
  [.call { sender := 3, value := 1000 * ether, number := 0 } (.registerValidator 1 someSig),
    .call { sender := 9, value := 1000, number := 0 } (.creditReward 1 1000),
    .call { sender := 5, number := 10 } (.submitEquivocation 1 5 1 someSig 2 someSig),
    .call { sender := 5, number := 11 } .claimBounty,
    .returned]

theorem balance_covers_owed_reported : ∃ t : Session Registry,
    t.current.balance = 900 * ether + 900 ∧
    t.current.storage.validators.sum
        (fun v => v.bondedStake + v.escrow + v.vestedRewards + v.ripeRewards) +
      t.current.storage.claimable.sum id ≤ t.current.balance ∧
    ∀ env call, (validatorRegistry anyKey).exec t.current env call ≠ .error .transfer := by
  obtain ⟨t, ht, hbalance⟩ := Transition.Runs.exists_foldlM (validatorRegistry anyKey).step
    ⟨{ storage := launched }, []⟩ reported (p := fun t => t.current.balance = 900 * ether + 900)
    (by decide)
  have hnew : new 7 8 9 launchParam = .ok launched := rfl
  exact ⟨t, hbalance, balance_covers_owed hnew ⟨reported, ht⟩⟩

end Registry

end CitrateChain.Contracts
