import Mathlib.Algebra.Order.BigOperators.Group.Finset
import CitrateChain.Base.Dated
import CitrateChain.Contracts.RegistryFrames

/-! # The evidence window of the registry

Principal is paid out only once it has been in escrow for the time of the exit lock, and rewards only
once their epoch has left the ring. -/
namespace CitrateChain.Contracts
open Contract Dated Mapping
open Function (update_eq_self update_idem)

/-- What the staker of a key has been paid, by its books. -/
def KeyBook.paid (b : KeyBook) : ℕ := b.principalPaid + b.rewardsPaid

namespace Registry

theorem unlockEpoch_eq (env : Env) : unlockEpoch env = currentEpoch env + exitLockEpochs := by
  have hlt := env.number.toNat_lt
  unfold unlockEpoch currentEpoch epochOf epochLength exitLockEpochs unbondPeriodEpochs evidenceWindowEpochs
  omega

theorem currentEpoch_mod (env : Env) : currentEpoch env % 2 ^ 64 = currentEpoch env := by
  have hlt := env.number.toNat_lt
  unfold currentEpoch epochOf epochLength
  omega

structure KeyWindow (b : KeyBook) (v : Validator) (ring : RewardRing) (registered : Bool) (epoch : ℕ) :
    Prop where
  escrow_le : b.principalPaid + v.escrow ≤ total b.escrowed
  unlock : total b.escrowed ≤ sumWhen (fun e => e + exitLockEpochs ≤ v.escrowUnlockEpoch) b.escrowed
  escrow_past : total b.escrowed ≤ sumWhen (fun e => e ≤ epoch) b.escrowed
  principal_before : b.principalPaid ≤ sumWhen (fun e => e + exitLockEpochs ≤ epoch) b.escrowed
  rewards_le : b.rewardsPaid + v.vestedRewards + v.ripeRewards ≤ total b.credited
  ring_le : b.rewardsPaid + v.ripeRewards + ∑ j, ring.amount j ≤ total b.credited
  young : ∀ j, sumWhen (fun e => epoch < e + rewardRing && ringSlot e == j) b.credited ≤ ring.amount j
  latest : ∀ j, ring.amount j ≠ 0 →
    sumWhen (fun e => ring.epoch j < e && ringSlot e == j) b.credited = 0
  credit_past : total b.credited ≤ sumWhen (fun e => e ≤ epoch) b.credited
  exit : v.status = .exiting → total b.credited ≤ sumWhen (fun e => e ≤ v.exitEpoch) b.credited
  fresh : registered = false → v.bondedStake = 0 ∧ v.status ≠ .active ∧ total b.escrowed = 0 ∧
    total b.credited = 0

namespace KeyWindow
variable {b : KeyBook} {v v' : Validator} {ring ring' : RewardRing} {registered : Bool}
  {epoch epoch' : ℕ} {env : Env}

theorem new : KeyWindow {} {} {} false 0 where
  escrow_le := le_rfl
  unlock := le_rfl
  escrow_past := le_rfl
  principal_before := le_rfl
  rewards_le := le_rfl
  ring_le := by simp [total]
  young _ := le_rfl
  latest j hj := absurd rfl hj
  credit_past := le_rfl
  exit _ := le_rfl
  fresh _ := ⟨rfl, Status.noConfusion, rfl, rfl⟩

section

variable (h : KeyWindow b v ring registered epoch)
include h

theorem mono (hle : epoch ≤ epoch') : KeyWindow b v ring registered epoch' where
  __ := h
  escrow_past := h.escrow_past.trans (sumWhen_mono (fun e he => by simp at he ⊢; omega) _)
  principal_before := h.principal_before.trans (sumWhen_mono (fun e he => by simp at he ⊢; omega) _)
  young j := (sumWhen_mono (fun e he => by simp at he ⊢; omega) _).trans (h.young j)
  credit_past := h.credit_past.trans (sumWhen_mono (fun e he => by simp at he ⊢; omega) _)

theorem rewards_before :
    b.rewardsPaid + v.ripeRewards ≤ sumWhen (fun e => e + rewardRing ≤ epoch) b.credited := by
  have hsplit := total_eq_add (fun e => decide (e + rewardRing ≤ epoch)) b.credited
  have hnot : sumWhen (fun e => !decide (e + rewardRing ≤ epoch)) b.credited =
      ∑ j, sumWhen (fun e => epoch < e + rewardRing && ringSlot e == j) b.credited := by
    rw [sumWhen_eq_sum ringSlot]
    refine Finset.sum_congr rfl fun j _ => ?_
    congr 1
    funext e
    simp only [← decide_not, not_le]
  have hyoung : ∑ j, sumWhen (fun e => epoch < e + rewardRing && ringSlot e == j) b.credited ≤
      ∑ j, ring.amount j := Finset.sum_le_sum fun j _ => h.young j
  have hring := h.ring_le
  omega

theorem change (hescrow : v'.escrow ≤ v.escrow)
    (hunlock : v'.escrowUnlockEpoch = v.escrowUnlockEpoch)
    (hripe : v'.ripeRewards ≤ v.ripeRewards) (hvested : v'.vestedRewards ≤ v.vestedRewards)
    (hexit : v'.status = .exiting → v.status = .exiting ∧ v'.exitEpoch = v.exitEpoch)
    (hfresh : registered = false → v'.bondedStake = 0 ∧ v'.status ≠ .active) :
    KeyWindow b v' ring registered epoch where
  __ := h
  escrow_le := by
    have := h.escrow_le
    omega
  unlock := by
    rw [hunlock]
    exact h.unlock
  rewards_le := by
    have := h.rewards_le
    omega
  ring_le := by
    have := h.ring_le
    omega
  exit hstatus := by
    obtain ⟨hold, heq⟩ := hexit hstatus
    rw [heq]
    exact h.exit hold
  fresh hreg := ⟨(hfresh hreg).1, (hfresh hreg).2, (h.fresh hreg).2.2⟩

omit h in
theorem escrow (h : KeyWindow b v ring registered (currentEpoch env)) {amount : ℕ}
    (hescrow : v'.escrow ≤ v.escrow + amount) (hunlock : v'.escrowUnlockEpoch = unlockEpoch env)
    (hripe : v'.ripeRewards = v.ripeRewards) (hvested : v'.vestedRewards = v.vestedRewards)
    (hexit : v'.status = .exiting → v'.exitEpoch = currentEpoch env)
    (hfresh : registered = false → v'.bondedStake = 0 ∧ v'.status ≠ .active ∧ amount = 0) :
    KeyWindow (b.escrow (currentEpoch env) amount) v' ring registered (currentEpoch env) where
  __ := h
  escrow_le := by
    have := h.escrow_le
    simp only [KeyBook.escrow, total_concat]
    omega
  unlock := by
    have hpast : sumWhen (fun e => e ≤ currentEpoch env) b.escrowed ≤
        sumWhen (fun e => e + exitLockEpochs ≤ v'.escrowUnlockEpoch) b.escrowed := by
      refine sumWhen_mono (fun e he => ?_) _
      rw [hunlock, unlockEpoch_eq]
      simpa using he
    have := h.escrow_past
    simp only [KeyBook.escrow, total_concat, sumWhen_concat]
    rw [if_pos (by rw [hunlock, unlockEpoch_eq]; simp)]
    omega
  escrow_past := by
    have := h.escrow_past
    simp only [KeyBook.escrow, total_concat, sumWhen_concat, le_rfl, decide_true, if_true]
    omega
  principal_before := by
    simp only [KeyBook.escrow, sumWhen_concat]
    exact h.principal_before.trans (Nat.le_add_right _ _)
  rewards_le := by
    rw [hripe, hvested]
    exact h.rewards_le
  ring_le := by
    rw [hripe]
    exact h.ring_le
  exit hstatus := by
    rw [hexit hstatus]
    exact h.credit_past
  fresh hreg := by
    obtain ⟨hbond, hactive, hzero⟩ := hfresh hreg
    refine ⟨hbond, hactive, ?_, (h.fresh hreg).2.2.2⟩
    simp only [KeyBook.escrow, total_concat, hzero]
    exact (h.fresh hreg).2.2.1

theorem sweep (hs : Sweeps epoch (ring, v) (ring', v')) :
    KeyWindow b v' ring' registered epoch := by
  obtain ⟨dec, hle, heq, hsum⟩ := hs.moved
  obtain rfl : v' = _ := heq
  dsimp only at hle hsum
  refine { h with rewards_le := ?_, ring_le := ?_, young := fun j => ?_, latest := fun j hj => ?_ }
  · have := h.rewards_le
    dsimp only
    omega
  · have := h.ring_le
    dsimp only
    omega
  · rcases hs.slot j with hsame | ⟨hzero, hold⟩
    · exact (h.young j).trans_eq hsame.symm
    by_cases hamount : ring.amount j = 0
    · have := h.young j
      omega
    have hnone := h.latest j hamount
    have hmatured : ring.epoch j + rewardRing ≤ epoch := hold
    have hyoung : sumWhen (fun e => epoch < e + rewardRing && ringSlot e == j) b.credited ≤
        sumWhen (fun e => ring.epoch j < e && ringSlot e == j) b.credited := by
      refine sumWhen_mono (fun e he => ?_) _
      simp only [Bool.and_eq_true, decide_eq_true_eq] at he ⊢
      exact ⟨by omega, he.2⟩
    omega
  · have hepoch : ring'.epoch = ring.epoch := hs.epoch_eq
    rw [hepoch]
    rcases hs.slot j with hsame | ⟨hzero, -⟩
    · refine h.latest j ?_
      rw [← hsame]
      exact hj
    · exact absurd hzero hj

omit h in
theorem credit (h : KeyWindow b v ring registered (currentEpoch env)) (hreg : registered = true)
    (hactive : v.status = .active) {amount : ℕ}
    (hamount : ring'.amount = Function.update ring.amount (ringSlot (currentEpoch env))
      (ring.amount (ringSlot (currentEpoch env)) + amount))
    (hepoch : ring'.epoch = Function.update ring.epoch (ringSlot (currentEpoch env))
      (currentEpoch env % 2 ^ 64)) :
    KeyWindow (b.credit (currentEpoch env) amount)
      { v with vestedRewards := v.vestedRewards + amount } ring' registered (currentEpoch env) where
  __ := h
  rewards_le := by
    have := h.rewards_le
    simp only [KeyBook.credit, total_concat]
    omega
  ring_le := by
    have hsum := sum_update_add ring.amount (ringSlot (currentEpoch env))
      (ring.amount (ringSlot (currentEpoch env)) + amount)
    have := h.ring_le
    simp only [KeyBook.credit, total_concat, hamount]
    omega
  young j := by
    have := h.young j
    simp only [KeyBook.credit, sumWhen_concat, hamount]
    by_cases hj : j = ringSlot (currentEpoch env)
    · subst hj
      rw [Function.update_self]
      split <;> omega
    · rw [Function.update_of_ne hj, if_neg (by simp [Ne.symm hj])]
      exact this
  latest j hj := by
    simp only [KeyBook.credit, sumWhen_concat]
    by_cases hslot : j = ringSlot (currentEpoch env)
    · subst hslot
      have hnow : ring'.epoch (ringSlot (currentEpoch env)) = currentEpoch env := by
        rw [hepoch, Function.update_self, currentEpoch_mod]
      simp only [hnow]
      rw [if_neg (by simp), Nat.add_zero]
      -- Nothing is dated after the epoch of the credit.
      refine sumWhen_eq_zero h.credit_past fun e he => ?_
      have hle : e ≤ currentEpoch env := by simpa using he
      simp [not_lt.mpr hle]
    · have hsame : ring'.epoch j = ring.epoch j := by rw [hepoch, Function.update_of_ne hslot]
      rw [hamount, Function.update_of_ne hslot] at hj
      simp only [hsame]
      rw [if_neg (by simp [Ne.symm hslot])]
      exact h.latest j hj
  credit_past := by
    have := h.credit_past
    simp only [KeyBook.credit, total_concat, sumWhen_concat, le_rfl, decide_true, if_true]
    omega
  exit hstatus := nomatch hactive.symm.trans hstatus
  fresh hnot := nomatch hreg.symm.trans hnot

theorem claim :
    KeyWindow (b.payRewards v.ripeRewards) { v with ripeRewards := 0 } ring registered epoch where
  __ := h
  rewards_le := by
    have := h.rewards_le
    dsimp only [KeyBook.payRewards]
    omega

theorem principal (hopen : v.escrowUnlockEpoch ≤ epoch) :
    KeyWindow (b.payPrincipal v.escrow) { v with escrow := 0 } ring registered epoch where
  __ := h
  principal_before := by
    have hmono : sumWhen (fun e => e + exitLockEpochs ≤ v.escrowUnlockEpoch) b.escrowed ≤
        sumWhen (fun e => e + exitLockEpochs ≤ epoch) b.escrowed :=
      sumWhen_mono (fun e he => by simp at he ⊢; omega) _
    exact h.escrow_le.trans (h.unlock.trans hmono)

theorem release (hstatus : v.status = .exiting) (hopen : v.exitEpoch + exitLockEpochs ≤ epoch) :
    KeyWindow (b.payRewards (v.vestedRewards + v.ripeRewards))
      { v with vestedRewards := 0, ripeRewards := 0, withdrawn := true } {} registered epoch where
  __ := h
  rewards_le := by
    have := h.rewards_le
    dsimp only [KeyBook.payRewards]
    omega
  ring_le := by
    have := h.rewards_le
    simp only [KeyBook.payRewards, Finset.sum_const_zero]
    omega
  young j := by
    refine (sumWhen_eq_zero (h.exit hstatus) fun e he => ?_).le
    have hle : e ≤ v.exitEpoch := by simpa using he
    have hring : rewardRing ≤ exitLockEpochs := by decide
    have hold : ¬ epoch < e + rewardRing := by omega
    simp [hold]
  latest j hj := absurd rfl hj

end

theorem register (h : KeyWindow b v ring false epoch) (hescrow : v'.escrow = 0)
    (hvested : v'.vestedRewards = 0) (hripe : v'.ripeRewards = 0) (hactive : v'.status = .active) :
    KeyWindow b v' ring true epoch where
  __ := h
  escrow_le := by
    have := h.escrow_le
    omega
  unlock := by
    rw [(h.fresh rfl).2.2.1]
    exact Nat.zero_le _
  rewards_le := by
    have := h.rewards_le
    omega
  ring_le := by
    have := h.ring_le
    omega
  exit hstatus := nomatch hactive.symm.trans hstatus
  fresh hnot := nomatch hnot

end KeyWindow

def Windows (s : Registry) (epoch : ℕ) : Prop :=
  ∀ key, KeyWindow (s.books.get key) (s.validators.get key) (s.rewardRings.get key)
    (s.pubkeyEverRegistered.get key) epoch

namespace Windows
variable {s s' t : Registry} {epoch : ℕ} {key : Bytes32} {env : Env}

section

variable (h : Windows s epoch)
include h

theorem update {b : KeyBook} {v : Validator} {ring : RewardRing} {ever : Bool}
    (hbooks : s'.books.get = Function.update s.books.get key b)
    (hvalidators : s'.validators.get = Function.update s.validators.get key v)
    (hrings : s'.rewardRings.get = Function.update s.rewardRings.get key ring)
    (hever : s'.pubkeyEverRegistered.get = Function.update s.pubkeyEverRegistered.get key ever)
    (hkey : KeyWindow b v ring ever epoch) : Windows s' epoch := by
  intro k
  rw [hbooks, hvalidators, hrings, hever]
  simp only [Function.update_apply]
  split
  · exact hkey
  · exact h k

theorem setValidator {v : Validator} (hkey : KeyWindow (s.books.get key) v (s.rewardRings.get key)
    (s.pubkeyEverRegistered.get key) epoch) : Windows (s.setValidator key v) epoch :=
  h.update (update_eq_self _ _).symm (get_set_eq_update ..) (update_eq_self _ _).symm (update_eq_self _ _).symm hkey

theorem setBook {v : Validator} {b : KeyBook}
    (hkey : KeyWindow b v (s.rewardRings.get key) (s.pubkeyEverRegistered.get key) epoch) :
    Windows ((s.setValidator key v).setBook key b) epoch :=
  h.update (get_set_eq_update ..) (get_set_eq_update ..) (update_eq_self _ _).symm (update_eq_self _ _).symm hkey

theorem ever_of_active (hactive : (s.validators.get key).status = .active) :
    s.pubkeyEverRegistered.get key = true := by
  by_contra hnot
  exact ((h key).fresh (by simpa using hnot)).2.1 hactive

theorem increase (hrun : s.increaseStake env key = .ok s') : Windows s' epoch := by
  obtain ⟨hactive, rfl⟩ := increaseStake_ok hrun
  exact h.setValidator ((h key).change le_rfl rfl le_rfl le_rfl (fun hexit => ⟨hexit, rfl⟩)
    fun hnew => nomatch (h.ever_of_active hactive).symm.trans hnew)

end

theorem releaseRewards {v w : Validator} (h : Windows (s.setValidator key v) (currentEpoch env))
    {rewards : ℕ} (hrun : s.releaseRewards env key v = .ok (rewards, t, w)) :
    Windows (t.setValidator key w) (currentEpoch env) := by
  rcases releaseRewards_ok hrun with ⟨-, rfl, rfl⟩ | ⟨hexit, hopen, rfl, rfl, rfl⟩
  · exact h
  have hkey : KeyWindow (s.books.get key) v (s.rewardRings.get key) (s.pubkeyEverRegistered.get key)
      (currentEpoch env) := by
    have hset := h key
    change KeyWindow _ ((s.validators.set key v).get key) _ _ _ at hset
    rwa [get_set_self] at hset
  have hagain (w : Validator) : (s.validators.set key w).get =
      Function.update (s.validators.set key v).get key w := by
    rw [get_set_eq_update, get_set_eq_update, update_idem]
  exact h.update (get_set_eq_update ..) (hagain _) (get_set_eq_update ..) (update_eq_self _ _).symm
    (hkey.release hexit hopen)

variable (h : Windows s (currentEpoch env))
include h

theorem beginExit (hrun : s.beginExit env key = .ok s') : Windows s' (currentEpoch env) := by
  obtain ⟨set, index, binding, rfl⟩ := beginExit_frame hrun
  refine h.setBook ((h key).escrow le_rfl rfl rfl rfl (fun _ => currentEpoch_mod env) fun hnew => ?_)
  exact ⟨rfl, Status.noConfusion, ((h key).fresh hnew).1⟩

theorem sweep (hrun : s.sweepMatured env key = .ok s') : Windows s' (currentEpoch env) := by
  obtain ⟨ring, v, rfl, hsweeps⟩ := sweepMatured_ok hrun
  exact h.update (update_eq_self _ _).symm (get_set_eq_update ..) (get_set_eq_update ..)
    (update_eq_self _ _).symm ((h key).sweep hsweeps)

theorem makeRoom (hrun : s.makeRoom env = .ok s') :
    Windows s' (currentEpoch env) ∧ s'.pubkeyEverRegistered = s.pubkeyEverRegistered := by
  rcases makeRoom_ok hrun with ⟨-, rfl⟩ | ⟨-, -, evictions, hexit⟩
  · exact ⟨h, rfl⟩
  · have hcounted : Windows { s with evictionsInEpoch := evictions } (currentEpoch env) := h
    obtain ⟨set, index, binding, heq⟩ := beginExit_frame hexit
    exact ⟨hcounted.beginExit hexit, by rw [heq]⟩

theorem register {r : RegistryRules} {sig : Bytes}
    (hrun : s.registerValidator r env key sig = .ok s') : Windows s' (currentEpoch env) := by
  obtain ⟨-, -, hnever, -, -, nonces, t, ht, rfl⟩ := registerValidator_ok hrun
  have hcounted : Windows { s with registrationNonce := nonces } (currentEpoch env) := h
  obtain ⟨hroom, hever⟩ := hcounted.makeRoom ht
  have hkey := hroom key
  rw [hever, hnever] at hkey
  exact hroom.update (update_eq_self _ _).symm (get_set_eq_update ..) (update_eq_self _ _).symm
    (get_set_eq_update ..) (hkey.register rfl rfl rfl rfl)

theorem unbond {amount : ℕ}
    (hrun : s.initiateUnbond env key amount = .ok s') : Windows s' (currentEpoch env) := by
  obtain ⟨-, hactive, -, hrest⟩ := initiateUnbond_ok hrun
  have hmoved : ∀ {v' : Validator}, v'.escrow = (s.validators.get key).escrow + amount →
      v'.escrowUnlockEpoch = unlockEpoch env →
      v'.ripeRewards = (s.validators.get key).ripeRewards →
      v'.vestedRewards = (s.validators.get key).vestedRewards →
      (v'.status = .exiting → v'.exitEpoch = currentEpoch env) →
      Windows ((s.setBook key ((s.books.get key).escrow (currentEpoch env) amount)).setValidator key v')
        (currentEpoch env) := by
    intro v' hescrow hunlock hripe hvested hexit
    exact h.setBook ((h key).escrow hescrow.le hunlock hripe hvested hexit
      fun hnew => nomatch (h.ever_of_active hactive).symm.trans hnew)
  rcases hrest with ⟨-, u, hu, rfl⟩ | ⟨-, rfl⟩
  · obtain ⟨set, index, rfl⟩ := removeFromActive_frame hu
    exact hmoved rfl rfl rfl rfl fun _ => currentEpoch_mod env
  · exact hmoved rfl rfl rfl rfl fun hexit => nomatch hactive.symm.trans hexit

theorem credit {amount : ℕ}
    (hrun : s.creditReward env key amount = .ok s') : Windows s' (currentEpoch env) := by
  obtain ⟨-, hactive, emitted, t, ht, rfl⟩ := creditReward_ok hrun
  have hcounted : Windows { s with emittedInEpoch := emitted } (currentEpoch env) := h
  have hswept := hcounted.sweep ht
  have hstatus : (t.validators.get key).status = .active := by
    rw [sweepMatured_status ht]
    exact hactive
  exact hswept.update (get_set_eq_update ..) (get_set_eq_update ..) (get_set_eq_update ..)
    (update_eq_self _ _).symm ((hswept key).credit (hswept.ever_of_active hstatus) hstatus rfl rfl)

variable {payment : Option ℕ}

theorem claim (hrun : s.claimRewards env key = .ok ⟨s', payment⟩) :
    Windows s' (currentEpoch env) := by
  obtain ⟨t, ht, heq⟩ := claimRewards_ok hrun
  cases heq
  have hswept := h.sweep ht
  exact hswept.setBook (hswept key).claim

theorem releaseEscrow {v : Validator} {principal : ℕ}
    (hrun : s.releaseEscrow env key (s.validators.get key) = .ok (principal, t, v)) :
    Windows (t.setValidator key v) (currentEpoch env) := by
  obtain ⟨-, rfl, ⟨-, rfl⟩ | ⟨hopen, rfl⟩⟩ := releaseEscrow_ok hrun
  · exact h.setValidator ((h key).change (Nat.zero_le _) rfl le_rfl le_rfl (fun hexit => ⟨hexit, rfl⟩)
      fun hnew => ⟨((h key).fresh hnew).1, ((h key).fresh hnew).2.1⟩)
  · exact h.setBook ((h key).principal hopen)

theorem withdraw (hrun : s.withdraw env key = .ok ⟨s', payment⟩) :
    Windows s' (currentEpoch env) := by
  obtain ⟨principal, rewards, t, u, v, w, hescrow, hrewards, heq⟩ := withdraw_ok hrun
  cases heq
  exact (h.releaseEscrow hescrow).releaseRewards hrewards

theorem settleSlash {tier : SlashTier}
    (hrun : s.settleSlash env key tier = .ok s') : Windows s' (currentEpoch env) := by
  rcases settleSlash_ok hrun with ⟨pubkeys, stakers, t, ht, rfl⟩ | hexit | ⟨rfl, -⟩
  · have hbanned : Windows (s.setValidator key { s.validators.get key with status := .slashed })
        (currentEpoch env) :=
      h.setValidator ((h key).change le_rfl rfl le_rfl le_rfl (fun hstatus => nomatch hstatus) fun hnew =>
        ⟨((h key).fresh hnew).1, Status.noConfusion⟩)
    obtain ⟨set, index, rfl⟩ := removeFromActive_frame ht
    obtain ⟨binding, heq⟩ := unbind_frame _ (s.validators.get key).staker key
    rw [heq]
    exact hbanned
  · exact h.beginExit hexit
  · exact h

theorem slash {tier : SlashTier} {reporter : Address}
    (hrun : s.slashInternal env key tier reporter = .ok s') : Windows s' (currentEpoch env) := by
  obtain ⟨-, -, t, u, penalty, ht, -, hu, hsettle⟩ := slashInternal_ok hrun
  have hswept := h.sweep ht
  have hdrawn : Windows (t.setValidator key (drawPenalty (t.validators.get key) penalty))
      (currentEpoch env) := by
    refine hswept.setValidator ((hswept key).change (Nat.sub_le _ _) rfl le_rfl (Nat.sub_le _ _)
      (fun hexit => ⟨hexit, rfl⟩) fun hnew => ?_)
    obtain ⟨hbond, hactive, -⟩ := (hswept key).fresh hnew
    refine ⟨?_, hactive⟩
    change (t.validators.get key).bondedStake - penalty = 0
    rw [hbond, Nat.zero_sub]
  have hpaid : Windows u (currentEpoch env) := by
    obtain ⟨bounty, -, rfl | rfl⟩ := accrueBounty_ok hu
    · exact hdrawn
    · exact hdrawn
  exact hpaid.settleSlash hsettle

end Windows

theorem body_windows {r : RegistryRules} {env : Env} {call : RegistryCall} {s s' : Registry}
    {payment : Option ℕ} (hbody : (validatorRegistry r).body env call s = .ok ⟨s', payment⟩)
    (h : Windows s (currentEpoch env)) : Windows s' (currentEpoch env) := by
  cases body_performs hbody with
  | register hrun => exact h.register hrun
  | increase hrun => exact h.increase hrun
  | unbond hrun => exact h.unbond hrun
  | withdraw hrun => exact h.withdraw hrun
  | bounty hrun =>
    cases claimBounty_ok hrun
    exact h
  | @slash used _ _ _ hrun =>
    have hused : Windows { s with usedEquivocation := used } (currentEpoch env) := h
    exact hused.slash hrun
  | credit hrun => exact h.credit hrun
  | claim hrun => exact h.claim hrun
  | govern hrun =>
    obtain ⟨_, _, _, _, _, rfl⟩ := hrun
    exact h
  | receive hrun =>
    rw [hrun]
    exact h

section Paid
variable {env : Env} {key : Bytes32} {s s' : Registry} {payment : Option ℕ}

theorem claimRewards_paid (h : s.claimRewards env key = .ok ⟨s', payment⟩) :
    ∃ amount, payment = some amount ∧ (s'.books.get key).paid = (s.books.get key).paid + amount := by
  obtain ⟨t, ht, heq⟩ := claimRewards_ok h
  obtain ⟨ring, v, rfl, -⟩ := sweepMatured_ok ht
  cases heq
  refine ⟨_, rfl, (congrArg KeyBook.paid (get_set_self ..)).trans ?_⟩
  exact (Nat.add_assoc ..).symm

theorem withdraw_paid (h : s.withdraw env key = .ok ⟨s', payment⟩) :
    ∃ amount, payment = some amount ∧ (s'.books.get key).paid = (s.books.get key).paid + amount := by
  obtain ⟨principal, rewards, t, u, v, w, hescrow, hrewards, heq⟩ := withdraw_ok h
  cases heq
  have hprincipal : (t.books.get key).paid = (s.books.get key).paid + principal := by
    obtain ⟨rfl, -, ⟨hzero, rfl⟩ | ⟨-, rfl⟩⟩ := releaseEscrow_ok hescrow
    · rw [hzero, Nat.add_zero]
    · exact (congrArg KeyBook.paid (get_set_self ..)).trans (Nat.add_right_comm ..)
  have hrewards : (u.books.get key).paid = (t.books.get key).paid + rewards := by
    obtain ⟨rfl, rfl, -⟩ | ⟨-, -, -, -, rfl⟩ := releaseRewards_ok hrewards
    · rfl
    · exact (congrArg KeyBook.paid (get_set_self ..)).trans (Nat.add_assoc ..).symm
  refine ⟨_, rfl, hrewards.trans ?_⟩
  rw [hprincipal, Nat.add_assoc]

end Paid

variable {governance slasher rewardMinter : Address} {param : Param → ℕ} {s₀ : Registry}

theorem windows_new (h : new governance slasher rewardMinter param = .ok s₀) : Windows s₀ 0 := by
  obtain ⟨governable, rfl⟩ := new_ok h
  intro key
  exact .new

/-- In every run of blocks whose numbers do not decrease, the principal paid was in escrow for the exit
lock and the rewards paid have left the ring. So the evidence window has passed for all that is paid. -/
theorem paid_after_window {r : RegistryRules} (h : new governance slasher rewardMinter param = .ok s₀)
    {t : Session Registry} {now : UInt64} (ht : (validatorRegistry r).ReachesBy s₀ t now) (key : Bytes32)
    {epoch : ℕ} (hepoch : epochOf now.toNat ≤ epoch) :
    let b := t.current.storage.books.get key
    b.principalPaid ≤ sumWhen (fun e => e + exitLockEpochs ≤ epoch) b.escrowed ∧
      b.rewardsPaid ≤ sumWhen (fun e => e + rewardRing ≤ epoch) b.credited ∧
      b.principalPaid ≤ sumWhen (fun e => e + evidenceWindowEpochs < epoch) b.escrowed ∧
      b.rewardsPaid ≤ sumWhen (fun e => e + evidenceWindowEpochs < epoch) b.credited := by
  intro b
  have hnow : Windows t.current.storage (epochOf now.toNat) := by
    refine ht.storage (P := fun s now => Windows s (epochOf now.toNat)) ?_ ?_ (windows_new h)
    · intro s now later hs hle key
      exact (hs key).mono (Nat.div_le_div_right (UInt64.le_iff_toNat_le.mp hle))
    · intro env call s s' payment hbody hs
      exact body_windows hbody hs
  have hkey := (hnow key).mono hepoch
  have hprincipal : b.principalPaid ≤ sumWhen (fun e => e + exitLockEpochs ≤ epoch) b.escrowed :=
    hkey.principal_before
  have hrewards : b.rewardsPaid ≤ sumWhen (fun e => e + rewardRing ≤ epoch) b.credited :=
    (Nat.le_add_right _ _).trans hkey.rewards_before
  have hlock : evidenceWindowEpochs < exitLockEpochs := by decide
  have hring : evidenceWindowEpochs < rewardRing := by decide
  refine ⟨hprincipal, hrewards, hprincipal.trans (sumWhen_mono (fun e he => ?_) _),
    hrewards.trans (sumWhen_mono (fun e he => ?_) _)⟩
  · have hle : e + exitLockEpochs ≤ epoch := by simpa using he
    have hlt : e + evidenceWindowEpochs < epoch := by omega
    simpa using hlt
  · have hle : e + rewardRing ≤ epoch := by simpa using he
    have hlt : e + evidenceWindowEpochs < epoch := by omega
    simpa using hlt

def servedOut : List (Event RegistryCall) :=
  [.call { sender := 3, value := 1000 * ether, number := 0 } (.registerValidator 1 someSig),
    .call { sender := 9, value := 1000, number := 500 } (.creditReward 1 1000),
    .call { sender := 3, number := 1000 } (.initiateUnbond 1 (1000 * ether)),
    .call { sender := 3, number := 7000 } (.withdraw 1),
    .returned]

theorem paid_after_window_served_out : ∃ t : Session Registry,
    let b := t.current.storage.books.get 1
    (b.principalPaid = 1000 * ether ∧ b.rewardsPaid = 1000) ∧
      b.principalPaid ≤ sumWhen (fun e => e + exitLockEpochs ≤ 7) b.escrowed ∧
      b.rewardsPaid ≤ sumWhen (fun e => e + rewardRing ≤ 7) b.credited ∧
      b.principalPaid ≤ sumWhen (fun e => e + evidenceWindowEpochs < 7) b.escrowed ∧
      b.rewardsPaid ≤ sumWhen (fun e => e + evidenceWindowEpochs < 7) b.credited := by
  obtain ⟨⟨t, now⟩, ht, rfl, hpaid⟩ := Transition.Runs.exists_foldlM
    (validatorRegistry anyKey).timedStep (⟨{ storage := launched }, []⟩, 0) servedOut
    (p := fun t => t.2 = 7000 ∧ (t.1.current.storage.books.get 1).principalPaid = 1000 * ether ∧
      (t.1.current.storage.books.get 1).rewardsPaid = 1000) (by decide)
  have hnew : new 7 8 9 launchParam = .ok launched := rfl
  have hreach : (validatorRegistry anyKey).ReachesBy launched t 7000 :=
    ⟨servedOut, ht.imp fun _ _ _ _ => .of_timedStep⟩
  exact ⟨t, hpaid, paid_after_window hnew hreach 1 (by decide)⟩

end Registry

end CitrateChain.Contracts
