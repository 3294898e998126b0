import CitrateChain.Base.IndexedList
import CitrateChain.Contracts.RegistryFrames

/-! # The active set of the registry

The list of the active keys, its index, the statuses and the bindings of the stakers are kept in
step by every function. -/
namespace CitrateChain.Contracts
open Contract Mapping Status

namespace Registry
variable {s s' t : Registry} {env : Env} {key : Bytes32} {v : Validator}

theorem fillHole_ok {i last : ℕ} {b : Bytes32} (hkey : s.activeSet[i]? = some key)
    (hb : s.activeSet[last]? = some b) (h : s.fillHole i last = .ok t) :
    t.activeSet = s.activeSet.set i b ∧ Function.update t.activeIndexPlusOne.get key 0 =
        Function.update (Function.update s.activeIndexPlusOne.get b (i + 1)) key 0 := by
  unfold fillHole at h
  split at h
  · next hil =>
    cases h
    rw [← hil, hkey] at hb
    cases hb
    obtain ⟨hlt, hget⟩ := List.getElem?_eq_some_iff.mp hkey
    refine ⟨?_, (Function.update_idem ..).symm⟩
    rw [← hget, List.set_getElem_self]
  · rw [hb] at h
    dsimp only at h
    split at h
    · cases h
      exact ⟨rfl, by rw [get_set_eq_update]⟩
    · cases h

theorem removeFromActive_ok (h : s.removeFromActive key = .ok t)
    (hi : Indexes s.activeIndexPlusOne.get s.activeSet) :
    ∃ set index, t = { s with activeSet := set, activeIndexPlusOne := index } ∧ Indexes index.get set ∧
      (∀ k, index.get k ≠ 0 ↔ k ≠ key ∧ s.activeIndexPlusOne.get k ≠ 0) ∧
      (s.activeIndexPlusOne.get key ≠ 0 → set.length + 1 = s.activeSet.length) ∧
      set.length ≤ s.activeSet.length := by
  unfold removeFromActive at h
  dsimp only at h
  split at h
  · next hzero =>
    cases h
    refine ⟨_, _, rfl, hi, fun k => ⟨fun hk => ⟨?_, hk⟩, And.right⟩, fun hne => absurd hzero hne, le_rfl⟩
    rintro rfl
    exact hk hzero
  next hne =>
  obtain ⟨last, hlast, h⟩ := Result.bind_eq_ok.mp h
  obtain ⟨rfl, hlen⟩ := sub_eq_ok.mp hlast
  obtain ⟨u, hu, h⟩ := Result.bind_eq_ok.mp h
  obtain ⟨i, hidx⟩ := Nat.exists_eq_succ_of_ne_zero hne
  rw [hidx, Nat.succ_eq_add_one, Nat.add_sub_cancel] at hu
  have hlast : s.activeSet.length = s.activeSet.length - 1 + 1 := by omega
  obtain ⟨b, hb⟩ : ∃ b, s.activeSet[s.activeSet.length - 1]? = some b :=
    ⟨_, List.getElem?_eq_getElem (by omega)⟩
  have hkey : s.activeSet[i]? = some key := (hi key i).mp hidx
  have hbne : s.activeIndexPlusOne.get b ≠ 0 := hi.mem_iff.mp (List.mem_of_getElem? hb)
  have hswap := hi.swapRemove hidx hlast hb
  obtain ⟨hset, hindex⟩ := fillHole_ok hkey hb hu
  obtain ⟨set, index, rfl⟩ := fillHole_frame hu
  cases h
  refine ⟨_, _, rfl, ?_, fun k => ?_, fun _ => ?_, ?_⟩
  · rw [get_set_eq_update, hindex, hset]
    exact hswap
  · rw [get_set_eq_update, hindex, Function.update_apply, Function.update_apply]
    split_ifs with hk hkb
    · exact iff_of_false (fun hne => hne rfl) fun hne => hne.1 hk
    · exact iff_of_true (Nat.succ_ne_zero i) ⟨hk, hkb ▸ hbne⟩
    · exact (and_iff_right hk).symm
  · rw [hset, List.length_dropLast, List.length_set]
    exact hlast.symm
  · rw [hset, List.length_dropLast, List.length_set]
    exact Nat.sub_le _ _

structure Membership (s : Registry) : Prop where
  indexes : Indexes s.activeIndexPlusOne.get s.activeSet
  active : ∀ k, s.activeIndexPlusOne.get k ≠ 0 ↔ (s.validators.get k).status = .active
  binding : ∀ a k, k ≠ 0 → (s.pubkeyOfStaker.get a = k ↔
    (s.validators.get k).status = .active ∧ (s.validators.get k).staker = a)
  zero : (s.validators.get 0).status ≠ .active

theorem Membership.congr (h : Membership s) (hset : s'.activeSet = s.activeSet)
    (hindex : s'.activeIndexPlusOne = s.activeIndexPlusOne)
    (hbinding : s'.pubkeyOfStaker = s.pubkeyOfStaker)
    (hv : ∀ k, (s'.validators.get k).status = (s.validators.get k).status ∧
      (s'.validators.get k).staker = (s.validators.get k).staker) : Membership s' where
  indexes := by
    rw [hset, hindex]
    exact h.indexes
  active k := by
    rw [hindex, (hv k).1]
    exact h.active k
  binding a k hk := by
    rw [hbinding, (hv k).1, (hv k).2]
    exact h.binding a k hk
  zero := by
    rw [(hv 0).1]
    exact h.zero

theorem get_setValidator_same (hstatus : v.status = (s.validators.get key).status)
    (hstaker : v.staker = (s.validators.get key).staker) (k : Bytes32) :
    ((s.validators.set key v).get k).status = (s.validators.get k).status ∧
      ((s.validators.set key v).get k).staker = (s.validators.get k).staker := by
  rw [get_set]
  split
  · next hk =>
    subst hk
    exact ⟨hstatus, hstaker⟩
  · exact ⟨rfl, rfl⟩

theorem Membership.leave (h : Membership s) (hv : v.status ≠ .active)
    (hval : t.validators = s.validators.set key v) (hi : Indexes t.activeIndexPlusOne.get t.activeSet)
    (hindex : ∀ k, t.activeIndexPlusOne.get k ≠ 0 ↔ k ≠ key ∧ s.activeIndexPlusOne.get k ≠ 0)
    (hbind : ∀ a, t.pubkeyOfStaker.get a =
      if a = (s.validators.get key).staker ∧ s.pubkeyOfStaker.get a = key then 0
      else s.pubkeyOfStaker.get a) : Membership t := by
  have hget : ∀ k, t.validators.get k = if k = key then v else s.validators.get k := by
    intro k
    rw [hval, get_set]
  refine ⟨hi, fun k => ?_, fun a k hk => ?_, ?_⟩
  · rw [hindex, hget]
    split
    · next hkk => exact iff_of_false (fun hne => hne.1 hkk) hv
    · next hkk =>
      rw [← h.active k]
      exact and_iff_right hkk
  · rw [hbind, hget]
    split_ifs with hcond hkk hkk
    · exact iff_of_false (Ne.symm hk) fun hne => hv hne.1
    · rw [← h.binding a k hk, hcond.2]
      exact iff_of_false (Ne.symm hk) (Ne.symm hkk)
    · refine iff_of_false (fun heq => hcond ⟨?_, heq.trans hkk⟩) fun hne => hv hne.1
      rw [← hkk]
      exact ((h.binding a k hk).mp heq).2.symm
    · exact h.binding a k hk
  · rw [hget]
    split
    · exact hv
    · exact h.zero

theorem get_unbind (s : Registry) (staker a : Address) (key : Bytes32) :
    (s.unbind staker key).pubkeyOfStaker.get a =
      if a = staker ∧ s.pubkeyOfStaker.get a = key then 0 else s.pubkeyOfStaker.get a := by
  unfold unbind
  split
  · next hkey =>
    rw [get_set]
    split
    · next ha =>
      subst ha
      rw [if_pos ⟨rfl, hkey⟩]
    · next ha => rw [if_neg fun hcond => ha hcond.1]
  · next hkey =>
    rw [if_neg]
    rintro ⟨rfl, heq⟩
    exact hkey heq

theorem Membership.retire {u : Registry} (h : Membership s) (hrem : t.removeFromActive key = .ok u)
    (heq : s' = u.unbind (s.validators.get key).staker key)
    (hval : t.validators = s.validators.set key v) (hv : v.status ≠ .active)
    (hset : t.activeSet = s.activeSet) (hindex : t.activeIndexPlusOne = s.activeIndexPlusOne)
    (hbinding : t.pubkeyOfStaker = s.pubkeyOfStaker) :
    Membership s' ∧ s'.activeSet.length ≤ s.activeSet.length ∧
      ((s.validators.get key).status = .active → s'.activeSet.length + 1 = s.activeSet.length) := by
  have hi : Indexes t.activeIndexPlusOne.get t.activeSet := by
    rw [hset, hindex]
    exact h.indexes
  obtain ⟨set, index, hu, hi', hmem, hlen, hle⟩ := removeFromActive_ok hrem hi
  obtain ⟨binding, hbind⟩ := unbind_frame u (s.validators.get key).staker key
  have hsame : s'.activeSet = set ∧ s'.activeIndexPlusOne = index ∧ s'.validators = t.validators := by
    rw [heq, hbind, hu]
    exact ⟨rfl, rfl, rfl⟩
  rw [hset, hindex] at *
  refine ⟨h.leave hv (hsame.2.2.trans hval) ?_ (fun k => ?_) fun a => ?_, ?_, fun hactive => ?_⟩
  · rw [hsame.1, hsame.2.1]
    exact hi'
  · rw [hsame.2.1]
    exact hmem k
  · have hpos : u.pubkeyOfStaker = s.pubkeyOfStaker := by
      rw [hu]
      exact hbinding
    rw [heq, get_unbind, hpos]
  · rw [hsame.1]
    exact hle
  · rw [hsame.1]
    exact hlen ((h.active key).mpr hactive)

theorem Membership.beginExit (h : Membership s) (hexit : s.beginExit env key = .ok s') :
    Membership s' ∧ s'.activeSet.length ≤ s.activeSet.length ∧
      ((s.validators.get key).status = .active → s'.activeSet.length + 1 = s.activeSet.length) := by
  obtain ⟨escrow, hescrow, hexit⟩ := Result.bind_eq_ok.mp hexit
  obtain ⟨u, hu, hexit⟩ := Result.bind_eq_ok.mp hexit
  cases hexit
  exact h.retire hu rfl rfl noConfusion rfl rfl rfl

theorem get_beginExit (hexit : s.beginExit env key = .ok s') (k : Bytes32) (hk : k ≠ key) :
    s'.validators.get k = s.validators.get k := by
  obtain ⟨_, _, _, rfl⟩ := beginExit_frame hexit
  exact get_set_of_ne hk

theorem unbound_beginExit (hexit : s.beginExit env key = .ok s') {a : Address}
    (ha : s.pubkeyOfStaker.get a = 0) : s'.pubkeyOfStaker.get a = 0 := by
  obtain ⟨escrow, -, hexit⟩ := Result.bind_eq_ok.mp hexit
  obtain ⟨u, hu, hexit⟩ := Result.bind_eq_ok.mp hexit
  cases hexit
  obtain ⟨_, _, rfl⟩ := removeFromActive_frame hu
  rw [get_unbind]
  split
  · rfl
  · exact ha

theorem minActive_mem (s : Registry) :
    s.minActive = (0, wordSize - 1) ∨ s.minActive.1 ∈ s.activeSet := by
  refine List.foldlRecOn (motive := fun least => least = (0, wordSize - 1) ∨ least.1 ∈ s.activeSet)
    s.activeSet _ (.inl rfl) fun least hleast key hkey => ?_
  dsimp only
  split
  · exact .inr hkey
  · exact hleast

theorem minActive_active (h : Membership s) (hscale : s.minActive.2 * evictionMarginBps < wordSize) :
    (s.validators.get s.minActive.1).status = .active := by
  rcases minActive_mem s with heq | hmem
  · -- the stake of an empty search does not survive the multiplication
    rw [heq] at hscale
    exact absurd hscale (by decide)
  · rw [← h.active]
    exact h.indexes.mem_iff.mp hmem

theorem Membership.enroll (h : Membership s) (hkey : key ≠ 0) (hnew : (s.validators.get key).status ≠ .active)
    (hstaker : s.pubkeyOfStaker.get env.sender = 0) : Membership (s.enroll env key) := by
  have hindex : s.activeIndexPlusOne.get key = 0 := by
    by_contra hne
    exact hnew ((h.active key).mp hne)
  unfold Registry.enroll
  refine ⟨?_, fun k => ?_, fun a k hk => ?_, ?_⟩
  · rw [get_set_eq_update]
    exact h.indexes.push hindex
  · rw [get_set, get_set]
    split
    · exact iff_of_true (Nat.succ_ne_zero _) rfl
    · exact h.active k
  · rw [get_set, get_set]
    split_ifs with ha hkk hkk
    · exact iff_of_true hkk.symm ⟨rfl, ha.symm⟩
    · rw [← h.binding a k hk, ha, hstaker]
      exact iff_of_false (Ne.symm hkk) (Ne.symm hk)
    · refine iff_of_false (fun heq => ?_) fun hne => ha hne.2.symm
      rw [← hkk] at hnew
      exact hnew ((h.binding a k hk).mp heq).1
    · exact h.binding a k hk
  · rw [get_set_of_ne (Ne.symm hkey)]
    exact h.zero

structure ActiveSound (s : Registry) : Prop where
  membership : Membership s
  size : s.activeSet.length ≤ maxActiveSet
  bonded : ∀ k, (s.validators.get k).status = .active →
    (s.validators.get k).admissionMinStake ≤ (s.validators.get k).bondedStake

section

variable (h : ActiveSound s)
include h

theorem ActiveSound.change (hval : s'.validators = s.validators.set key v)
    (hstatus : v.status = (s.validators.get key).status)
    (hstaker : v.staker = (s.validators.get key).staker)
    (hbonded : v.status = .active → v.admissionMinStake ≤ v.bondedStake)
    (hset : s'.activeSet = s.activeSet) (hindex : s'.activeIndexPlusOne = s.activeIndexPlusOne)
    (hbinding : s'.pubkeyOfStaker = s.pubkeyOfStaker) : ActiveSound s' where
  membership := h.membership.congr hset hindex hbinding fun k => by
    rw [hval]
    exact get_setValidator_same hstatus hstaker k
  size := by
    rw [hset]
    exact h.size
  bonded k := by
    rw [hval, get_set]
    split
    · exact hbonded
    · exact h.bonded k

omit h in
theorem bonded_of_inactive (hval : s'.validators = s.validators.set key v) (hv : v.status ≠ .active)
    (h : ∀ k, k ≠ key → (s.validators.get k).status = .active →
      (s.validators.get k).admissionMinStake ≤ (s.validators.get k).bondedStake) (k : Bytes32) :
    (s'.validators.get k).status = .active →
      (s'.validators.get k).admissionMinStake ≤ (s'.validators.get k).bondedStake := by
  rw [hval, get_set]
  split
  · exact fun hk => absurd hk hv
  · next hkk => exact h k hkk

omit h in
theorem Membership.exit (h : Membership s) (hsize : s.activeSet.length ≤ maxActiveSet)
    (hbonded : ∀ k, k ≠ key → (s.validators.get k).status = .active →
      (s.validators.get k).admissionMinStake ≤ (s.validators.get k).bondedStake)
    (hexit : s.beginExit env key = .ok s') : ActiveSound s' := by
  obtain ⟨hm, hle, -⟩ := h.beginExit hexit
  obtain ⟨_, _, _, heq⟩ := beginExit_frame hexit
  have hval : s'.validators = s.validators.set key (exited env (s.validators.get key)) := by rw [heq]
  exact ⟨hm, hle.trans hsize, bonded_of_inactive hval noConfusion hbonded⟩

theorem ActiveSound.makeRoom (hroom : s.makeRoom env = .ok s') :
    ActiveSound s' ∧ s'.activeSet.length < maxActiveSet ∧ s'.param = s.param ∧
      (∀ k, (s.validators.get k).status ≠ .active → s'.validators.get k = s.validators.get k) ∧
      ∀ a, s.pubkeyOfStaker.get a = 0 → s'.pubkeyOfStaker.get a = 0 := by
  rcases makeRoom_ok hroom with ⟨hlt, rfl⟩ | ⟨-, hscale, evictions, hexit⟩
  · exact ⟨h, hlt, rfl, fun k _ => rfl, fun a ha => ha⟩
  have h' : ActiveSound { s with evictionsInEpoch := evictions } := ⟨{ h.membership with }, h.size, h.bonded⟩
  have hactive := minActive_active h.membership hscale
  have hshort : s'.activeSet.length + 1 = s.activeSet.length :=
    (h'.membership.beginExit hexit).2.2 hactive
  have hsize := h.size
  refine ⟨h'.membership.exit h'.size (fun k _ => h'.bonded k) hexit, by omega, ?_, fun k hk => ?_, ?_⟩
  · obtain ⟨_, _, _, rfl⟩ := beginExit_frame hexit
    rfl
  · refine get_beginExit hexit k ?_
    rintro rfl
    exact hk hactive
  · exact fun a ha => unbound_beginExit hexit ha

omit h in
theorem ActiveSound.register {r : RegistryRules} {sig : Bytes}
    (hzero : ∀ sig message, r.ed25519 0 sig message = false) (h : ActiveSound s)
    (hreg : s.registerValidator r env key sig = .ok s') : ActiveSound s' := by
  obtain ⟨hstake, hnone, -, hstaker, ⟨message, hsig⟩, nonces, t, ht, rfl⟩ := registerValidator_ok hreg
  have hkey : key ≠ 0 := by
    rintro rfl
    unfold ed25519Verify at hsig
    split_ifs at hsig
    exact nomatch (hzero ..).symm.trans hsig
  have hnew : (s.validators.get key).status ≠ .active := fun hactive => nomatch hnone.symm.trans hactive
  have h' : ActiveSound { s with registrationNonce := nonces } := ⟨{ h.membership with }, h.size, h.bonded⟩
  obtain ⟨hsound, hlt, hparam, hkeep, hunbound⟩ := h'.makeRoom ht
  have htkey : (t.validators.get key).status ≠ .active := by
    rw [hkeep key hnew]
    exact hnew
  refine ⟨hsound.membership.enroll hkey htkey (hunbound _ hstaker), ?_, fun k hk => ?_⟩
  · unfold Registry.enroll
    rw [List.length_append, List.length_singleton]
    exact hlt
  by_cases hkk : k = key
  · subst hkk
    unfold Registry.enroll
    rw [get_set_self]
    rw [hparam]
    exact hstake
  · have hget : (t.enroll env key).validators.get k = t.validators.get k := get_set_of_ne hkk
    rw [hget] at hk ⊢
    exact hsound.bonded k hk

theorem ActiveSound.increase (hinc : s.increaseStake env key = .ok s') : ActiveSound s' := by
  obtain ⟨hactive, rfl⟩ := increaseStake_ok hinc
  exact h.change rfl rfl rfl (fun _ => (h.bonded key hactive).trans (Nat.le_add_right _ _)) rfl rfl rfl

theorem ActiveSound.unbond {amount : ℕ} (hunbond : s.initiateUnbond env key amount = .ok s') :
    ActiveSound s' := by
  obtain ⟨hstaker, hactive, -, hcase⟩ := initiateUnbond_ok hunbond
  rcases hcase with ⟨-, u, hu, rfl⟩ | ⟨hrest, rfl⟩
  · have hkey : key ≠ 0 := by
      rintro rfl
      exact h.membership.zero hactive
    have hown : s.pubkeyOfStaker.get env.sender = key :=
      (h.membership.binding _ key hkey).mpr ⟨hactive, hstaker⟩
    obtain ⟨set, index, rfl, hi, hmem, -, hle⟩ := removeFromActive_ok hu h.membership.indexes
    refine ⟨h.membership.leave noConfusion rfl hi hmem fun a => ?_, hle.trans h.size,
      bonded_of_inactive rfl noConfusion fun k _ => h.bonded k⟩
    -- the binding that is cleared is the validator's own
    change (s.pubkeyOfStaker.set env.sender 0).get a = _
    rw [get_set, hstaker]
    by_cases ha : a = env.sender
    · rw [if_pos ha, if_pos ⟨ha, ha ▸ hown⟩]
    · rw [if_neg ha, if_neg fun hcond => ha hcond.1]
  · exact h.change rfl rfl rfl (fun _ => hrest) rfl rfl rfl

theorem ActiveSound.sweep (hsweep : s.sweepMatured env key = .ok s') : ActiveSound s' := by
  obtain ⟨ring, v, rfl, hsweeps⟩ := sweepMatured_ok hsweep
  obtain ⟨dec, -, rfl, -⟩ := hsweeps.moved
  exact h.change rfl rfl rfl (fun hactive => h.bonded key hactive) rfl rfl rfl

theorem ActiveSound.credit {amount : ℕ} (hcredit : s.creditReward env key amount = .ok s') :
    ActiveSound s' := by
  obtain ⟨-, -, emitted, t, ht, rfl⟩ := creditReward_ok hcredit
  have h' : ActiveSound { s with emittedInEpoch := emitted } := ⟨{ h.membership with }, h.size, h.bonded⟩
  have hsweep := h'.sweep ht
  exact hsweep.change rfl rfl rfl (fun hactive => hsweep.bonded key hactive) rfl rfl rfl

variable {payment : Option ℕ}

theorem ActiveSound.claim (hclaim : s.claimRewards env key = .ok ⟨s', payment⟩) :
    ActiveSound s' := by
  obtain ⟨t, ht, heq⟩ := claimRewards_ok hclaim
  obtain ⟨rfl, -⟩ := Effect.mk.inj heq
  have hsweep := h.sweep ht
  exact hsweep.change rfl rfl rfl (fun hactive => hsweep.bonded key hactive) rfl rfl rfl

theorem ActiveSound.withdraw (hwithdraw : s.withdraw env key = .ok ⟨s', payment⟩) :
    ActiveSound s' := by
  obtain ⟨principal, rewards, t, u, v, w, hescrow, hrewards, heq⟩ := withdraw_ok hwithdraw
  obtain ⟨rfl, -⟩ := Effect.mk.inj heq
  obtain ⟨-, rfl, ht⟩ := releaseEscrow_ok hescrow
  have hsound : ActiveSound t ∧ t.validators = s.validators := by
    rcases ht with ⟨-, rfl⟩ | ⟨-, rfl⟩
    · exact ⟨h, rfl⟩
    · exact ⟨⟨{ h.membership with }, h.size, h.bonded⟩, rfl⟩
  have hbonded := h.bonded key
  rw [← hsound.2] at hbonded hrewards
  rcases releaseRewards_ok hrewards with ⟨-, rfl, rfl⟩ | ⟨-, -, -, rfl, rfl⟩ <;>
    exact hsound.1.change rfl rfl rfl hbonded rfl rfl rfl

theorem ActiveSound.slash {tier : SlashTier} {reporter : Address}
    (hslash : s.slashInternal env key tier reporter = .ok s') : ActiveSound s' := by
  obtain ⟨-, -, t, u, penalty, ht, -, hu, hs'⟩ := slashInternal_ok hslash
  have hsweep := h.sweep ht
  -- after the penalty only the slashed validator may lack stake
  have hm : Membership u := by
    obtain ⟨bounty, -, rfl | rfl⟩ := accrueBounty_ok hu <;>
      exact hsweep.membership.congr rfl rfl rfl (get_setValidator_same rfl rfl)
  have hval : u.validators = t.validators.set key (drawPenalty (t.validators.get key) penalty) := by
    obtain ⟨bounty, -, rfl | rfl⟩ := accrueBounty_ok hu <;> rfl
  have hsize : u.activeSet.length ≤ maxActiveSet := by
    obtain ⟨bounty, -, rfl | rfl⟩ := accrueBounty_ok hu <;> exact hsweep.size
  have hbonded : ∀ k, k ≠ key → (u.validators.get k).status = .active →
      (u.validators.get k).admissionMinStake ≤ (u.validators.get k).bondedStake := by
    intro k hk hactive
    rw [hval, get_set_of_ne hk] at hactive ⊢
    exact hsweep.bonded k hactive
  rcases settleSlash_ok hs' with ⟨pubkeys, stakers, w, hw, heq⟩ | hexit | ⟨rfl, hkept⟩
  · obtain ⟨hm', hle, -⟩ := hm.retire hw heq rfl noConfusion rfl rfl rfl
    refine ⟨hm', hle.trans hsize, ?_⟩
    obtain ⟨set, index, rfl⟩ := removeFromActive_frame hw
    obtain ⟨binding, hbind⟩ := unbind_frame _ (u.validators.get key).staker key
    rw [hbind] at heq
    have hval' : s'.validators = u.validators.set key _ := congrArg validators heq
    exact bonded_of_inactive hval' noConfusion hbonded
  · exact hm.exit hsize hbonded hexit
  · refine ⟨hm, hsize, fun k hactive => ?_⟩
    by_cases hk : k = key
    · subst hk
      exact hkept hactive
    · exact hbonded k hk hactive

end

theorem body_activeSound {r : RegistryRules} (hzero : ∀ sig message, r.ed25519 0 sig message = false)
    {call : RegistryCall} {payment : Option ℕ}
    (hbody : (validatorRegistry r).body env call s = .ok ⟨s', payment⟩) (h : ActiveSound s) :
    ActiveSound s' := by
  cases body_performs hbody with
  | register hrun => exact h.register hzero hrun
  | increase hrun => exact h.increase hrun
  | unbond hrun => exact h.unbond hrun
  | withdraw hrun => exact h.withdraw hrun
  | bounty hrun =>
    obtain ⟨rfl, -⟩ := Effect.mk.inj (claimBounty_ok hrun)
    exact ⟨{ h.membership with }, h.size, h.bonded⟩
  | slash hrun =>
    refine ActiveSound.slash ?_ hrun
    exact ⟨{ h.membership with }, h.size, h.bonded⟩
  | credit hrun => exact h.credit hrun
  | claim hrun => exact h.claim hrun
  | govern hrun =>
    obtain ⟨_, _, _, _, _, rfl⟩ := hrun
    exact ⟨{ h.membership with }, h.size, h.bonded⟩
  | receive hrun =>
    rw [hrun]
    exact h

variable {governance slasher rewardMinter : Address} {param : Param → ℕ} {s₀ : Registry}

theorem activeSound_new (h : new governance slasher rewardMinter param = .ok s₀) : ActiveSound s₀ := by
  obtain ⟨governable, rfl⟩ := new_ok h
  have hinactive : ∀ k, ((∅ : Mapping Bytes32 Validator).get k).status ≠ .active := by
    intro k
    exact noConfusion
  refine ⟨⟨?_, fun k => ?_, fun a k hk => ?_, hinactive 0⟩, Nat.zero_le _, fun k hk => ?_⟩
  · exact .nil
  · refine iff_of_false (fun hne => hne ?_) (hinactive k)
    exact get_empty k
  · refine iff_of_false (fun heq => hk ?_) fun hne => hinactive k hne.1
    rw [← heq, get_empty]
    rfl
  · exact absurd hk (hinactive k)

/-- In every state that calls lead to, nested ones included: the active set lists the active keys once
each and is no longer than it may be, the index is its inverse, every active validator has the stake
it was admitted with, and the bindings lead from stakers to their active keys and back. -/
theorem active_set_in_step {r : RegistryRules} (hzero : ∀ sig message, r.ed25519 0 sig message = false)
    (h : new governance slasher rewardMinter param = .ok s₀) {t : Session Registry}
    (ht : (validatorRegistry r).Reaches s₀ t) :
    let s := t.current.storage
    s.activeSet.Nodup ∧ s.activeSet.length ≤ maxActiveSet ∧
      (∀ key i, s.activeIndexPlusOne.get key = i + 1 ↔ s.activeSet[i]? = some key) ∧
      (∀ key, key ∈ s.activeSet ↔ (s.validators.get key).status = .active) ∧
      (∀ key, (s.validators.get key).status = .active →
        (s.validators.get key).admissionMinStake ≤ (s.validators.get key).bondedStake) ∧
      (∀ key, (s.validators.get key).status = .active →
        key ≠ 0 ∧ s.pubkeyOfStaker.get (s.validators.get key).staker = key) ∧
      ∀ a, s.pubkeyOfStaker.get a = 0 ∨
        (s.validators.get (s.pubkeyOfStaker.get a)).status = .active ∧
          (s.validators.get (s.pubkeyOfStaker.get a)).staker = a := by
  have hsound := ht.storage (fun hbody hs => body_activeSound hzero hbody hs) (activeSound_new h)
  have hm := hsound.membership
  refine ⟨hm.indexes.nodup, hsound.size, hm.indexes, fun key => ?_, hsound.bonded, fun key hactive => ?_,
    fun a => ?_⟩
  · rw [hm.indexes.mem_iff]
    exact hm.active key
  · have hkey : key ≠ 0 := by
      rintro rfl
      exact hm.zero hactive
    exact ⟨hkey, (hm.binding _ key hkey).mpr ⟨hactive, rfl⟩⟩
  · by_cases ha : t.current.storage.pubkeyOfStaker.get a = 0
    · exact .inl ha
    · exact .inr ((hm.binding a _ ha).mp rfl)

def firstLeaves : List (Event RegistryCall) :=
  [.call { sender := 3, value := 1000 * ether, number := 0 } (.registerValidator 1 someSig),
    .call { sender := 4, value := 2000 * ether, number := 0 } (.registerValidator 2 someSig),
    .call { sender := 3, number := 1 } (.initiateUnbond 1 (1000 * ether))]

theorem active_set_in_step_first_leaves : ∃ t : Session Registry,
    t.current.storage.activeSet = [2] ∧ t.current.storage.activeSet.Nodup ∧
      ∀ a, t.current.storage.pubkeyOfStaker.get a = 0 ∨
        (t.current.storage.validators.get (t.current.storage.pubkeyOfStaker.get a)).status = .active ∧
          (t.current.storage.validators.get (t.current.storage.pubkeyOfStaker.get a)).staker = a := by
  obtain ⟨t, ht, hset⟩ := Transition.Runs.exists_foldlM (validatorRegistry anyKey).step
    ⟨{ storage := launched }, []⟩ firstLeaves (p := fun t => t.current.storage.activeSet = [2])
    (by decide)
  have hnew : new 7 8 9 launchParam = .ok launched := rfl
  have hstep := active_set_in_step (r := anyKey) (fun _ _ => rfl) hnew ⟨firstLeaves, ht⟩
  exact ⟨t, hset, hstep.1, hstep.2.2.2.2.2.2⟩

end Registry

end CitrateChain.Contracts
