import CitrateChain.Contracts.LiquidStakingPool

/-! # The pool can pay what it owes

The funds of the pool as a ledger of their own, the moves that the functions make on it, and what every
run of moves keeps. -/
namespace CitrateChain.Contracts
open Contract Result Mapping WithdrawalRequest

structure Ledger where
  totalPooled : ℕ
  totalShares : ℕ
  shares : Mapping Address ℕ
  withdrawals : Mapping ℕ WithdrawalRequest
  providerCollateral : Mapping Address ℕ
  totalDonated : ℕ

def Pool.ledger (s : Pool) : Ledger where
  totalPooled := s.totalPooled
  totalShares := s.totalShares
  shares := s.shares
  withdrawals := s.withdrawals
  providerCollateral := s.providerCollateral
  totalDonated := s.totalDonated

def WithdrawalRequest.unclaimed (req : WithdrawalRequest) : ℕ := if req.claimed then 0 else req.saltAmount

namespace Ledger

def owed (l : Ledger) : ℕ :=
  l.totalPooled + l.totalDonated + l.providerCollateral.sum id + l.withdrawals.sum unclaimed

inductive Move (env : Env) (l : Ledger) : Ledger → Option ℕ → Prop
  | deposit (out : ℕ) (hvalue : 0 < env.value) :
      Move env l
        { l with
          shares := l.shares.set env.sender (l.shares.get env.sender + out)
          totalShares := l.totalShares + out
          totalPooled := l.totalPooled + env.value } none
  | request {amount : ℕ} (id : ℕ) (hheld : amount ≤ l.shares.get env.sender)
      (hsome : 0 < l.totalShares)
      (hpooled : amount * l.totalPooled / l.totalShares ≤ l.totalPooled) :
      Move env l
        { l with
          shares := l.shares.set env.sender (l.shares.get env.sender - amount)
          totalShares := l.totalShares - amount
          totalPooled := l.totalPooled - amount * l.totalPooled / l.totalShares
          withdrawals := l.withdrawals.set id
            { staker := env.sender
              shareAmount := amount
              saltAmount := amount * l.totalPooled / l.totalShares
              requestBlock := env.number.toNat } } none
  | claim {id : ℕ} (hopen : (l.withdrawals.get id).claimed = false) :
      Move env l
        { l with withdrawals := l.withdrawals.set id { l.withdrawals.get id with claimed := true } }
        (some (l.withdrawals.get id).saltAmount)
  | report {loss rewards : ℕ} (hloss : 0 < l.totalPooled → loss < l.totalPooled)
      (hrewards : rewards ≤ l.totalDonated) :
      Move env l
        { l with
          totalPooled := l.totalPooled - loss + rewards
          totalDonated := l.totalDonated - rewards } none
  | depositCollateral :
      Move env l
        { l with
          providerCollateral :=
            l.providerCollateral.set env.sender (l.providerCollateral.get env.sender + env.value) } none
  | withdrawCollateral {amount : ℕ} (hheld : amount ≤ l.providerCollateral.get env.sender) :
      Move env l
        { l with
          providerCollateral :=
            l.providerCollateral.set env.sender (l.providerCollateral.get env.sender - amount) }
        (some amount)
  | slashProvider {provider : Address} {amount : ℕ} (hheld : amount ≤ l.providerCollateral.get provider) :
      Move env l
        { l with
          providerCollateral :=
            l.providerCollateral.set provider (l.providerCollateral.get provider - amount)
          totalPooled := l.totalPooled + amount } none
  | donate : Move env l { l with totalDonated := l.totalDonated + env.value } none
  | stay : Move env l l none

structure Sound (l : Ledger) : Prop where
  shares_sum : l.shares.sum id = l.totalShares
  backed : 0 < l.totalShares → 0 < l.totalPooled
  requested : ∀ id, (l.withdrawals.get id).requestBlock < 2 ^ 64

variable {env : Env} {l l' : Ledger} {payment : Option ℕ}

theorem Move.owed_le (h : Move env l l' payment) : l'.owed + payment.getD 0 ≤ l.owed + env.value := by
  have hcollateral (provider : Address) (held : ℕ) : (l.providerCollateral.set provider held).sum id +
      l.providerCollateral.get provider = l.providerCollateral.sum id + held := sum_set rfl ..
  have hrequests (id : ℕ) (req : WithdrawalRequest) : (l.withdrawals.set id req).sum unclaimed +
      (l.withdrawals.get id).unclaimed = l.withdrawals.sum unclaimed + req.unclaimed := sum_set rfl ..
  unfold owed
  cases h with
  | deposit out hvalue | report hloss hrewards | donate =>
    dsimp only [Option.getD_none]
    omega
  | @request amount id hheld hsome hpooled =>
    have hsum := hrequests id ⟨env.sender, amount, amount * l.totalPooled / l.totalShares, env.number.toNat, false⟩
    dsimp only [Option.getD_none]
    simp only [unclaimed, Bool.false_eq_true, if_false] at hsum ⊢
    omega
  | @claim id hopen =>
    have hsum := hrequests id { l.withdrawals.get id with claimed := true }
    simp only [unclaimed, hopen, Bool.false_eq_true, if_false, if_true] at hsum ⊢
    dsimp only [Option.getD_some]
    omega
  | depositCollateral =>
    have hsum := hcollateral env.sender (l.providerCollateral.get env.sender + env.value)
    dsimp only [Option.getD_none]
    omega
  | @withdrawCollateral amount hheld =>
    have hsum := hcollateral env.sender (l.providerCollateral.get env.sender - amount)
    dsimp only [Option.getD_some]
    omega
  | @slashProvider provider amount hheld =>
    have hsum := hcollateral provider (l.providerCollateral.get provider - amount)
    dsimp only [Option.getD_none]
    omega
  | stay => exact Nat.le_add_right _ _

namespace Sound

theorem shares_set (h : l.Sound) (staker : Address) (held : ℕ) :
    (l.shares.set staker held).sum id + l.shares.get staker = l.totalShares + held := by
  rw [← h.shares_sum]
  exact sum_set rfl l.shares staker held

theorem requested_set (h : l.Sound) {id : ℕ} {req : WithdrawalRequest} (hreq : req.requestBlock < 2 ^ 64)
    (id' : ℕ) : ((l.withdrawals.set id req).get id').requestBlock < 2 ^ 64 := by
  rw [get_set]
  split
  · exact hreq
  · exact h.requested id'

theorem move (h : l.Sound) (hmove : Move env l l' payment) : l'.Sound := by
  cases hmove with
  | deposit out hvalue =>
    have hsum := h.shares_set env.sender (l.shares.get env.sender + out)
    refine ⟨?_, fun _ => Nat.add_pos_right _ hvalue, h.requested⟩
    dsimp only
    omega
  | @request amount id hheld hsome _ =>
    have hsum := h.shares_set env.sender (l.shares.get env.sender - amount)
    refine ⟨?_, fun hleft => Nat.sub_pos_of_lt ?_, h.requested_set env.number.toNat_lt⟩
    · dsimp only
      omega
    · have hlt : amount < l.totalShares := Nat.lt_of_sub_pos hleft
      exact Nat.div_lt_of_lt_mul (Nat.mul_lt_mul_of_pos_right hlt (h.backed hsome))
  | claim hopen => exact ⟨h.shares_sum, h.backed, h.requested_set (h.requested _)⟩
  | report hloss hrewards =>
    refine ⟨h.shares_sum, fun hsome => ?_, h.requested⟩
    have hleft := hloss (h.backed hsome)
    dsimp only
    omega
  | depositCollateral | withdrawCollateral hheld | donate =>
    exact ⟨h.shares_sum, h.backed, h.requested⟩
  | slashProvider hheld =>
    exact ⟨h.shares_sum, fun hsome => Nat.add_pos_left (h.backed hsome) _, h.requested⟩
  | stay => exact h

end Sound

end Ledger

namespace Pool
variable {keccak : Bytes → BitVec 256} {s s' : Pool} {env : Env}

theorem deposit_ok {out : ℕ} (h : s.deposit env = .ok (out, s')) :
    0 < env.value ∧ s.sharesForDeposit env.value = .ok out ∧ 0 < out ∧ s' = { s with
      shares := s.shares.set env.sender (s.shares.get env.sender + out)
      totalShares := s.totalShares + out
      totalPooled := s.totalPooled + env.value } := by
  simp only [deposit, bind_eq_ok, require_eq_ok, add_eq_ok] at h
  obtain ⟨-, hvalue, _, hout, -, hpos, _, ⟨rfl, -⟩, _, ⟨rfl, -⟩, _, ⟨rfl, -⟩, h⟩ := h
  cases h
  exact ⟨hvalue, hout, hpos, rfl⟩

theorem deposit_move {out : ℕ} (h : s.deposit env = .ok (out, s')) : s.ledger.Move env s'.ledger none := by
  obtain ⟨hvalue, -, -, rfl⟩ := deposit_ok h
  exact .deposit _ hvalue

theorem saltForShares_ok {amount out : ℕ} (h : s.saltForShares amount = .ok out) :
    out = amount * s.totalPooled / s.totalShares := by
  unfold saltForShares at h
  split_ifs at h with hnone
  · rw [hnone, Nat.div_zero]
    exact (Except.ok.inj h).symm
  · obtain ⟨scaled, hscaled, h⟩ := bind_eq_ok.mp h
    obtain ⟨rfl, -⟩ := mul_eq_ok.mp hscaled
    exact (Except.ok.inj h).symm

theorem requestWithdrawal_ok {amount requestId : ℕ}
    (h : s.requestWithdrawal env amount = .ok (requestId, s')) :
    let saltOut := amount * s.totalPooled / s.totalShares
    amount ≤ s.shares.get env.sender ∧ 0 < saltOut ∧ saltOut ≤ s.totalPooled ∧ s' = { s with
      shares := s.shares.set env.sender (s.shares.get env.sender - amount)
      totalShares := s.totalShares - amount
      totalPooled := s.totalPooled - saltOut
      nextWithdrawalId := requestId + 1
      withdrawals := s.withdrawals.set requestId ⟨env.sender, amount, saltOut, env.number.toNat, false⟩ } := by
  simp only [requestWithdrawal, bind_eq_ok, require_eq_ok, sub_eq_ok, add_eq_ok] at h
  obtain ⟨-, -, -, hheld, _, hsalt, -, hpos, -, hpooled, _, ⟨rfl, -⟩, _, ⟨rfl, -⟩, _, ⟨rfl, -⟩,
    _, ⟨rfl, -⟩, h⟩ := h
  obtain rfl := saltForShares_ok hsalt
  cases h
  exact ⟨hheld, hpos, hpooled, rfl⟩

theorem requestWithdrawal_move {amount requestId : ℕ}
    (h : s.requestWithdrawal env amount = .ok (requestId, s')) : s.ledger.Move env s'.ledger none := by
  obtain ⟨hheld, hpos, hpooled, rfl⟩ := requestWithdrawal_ok h
  exact .request _ hheld (Nat.div_pos_iff.mp hpos).1 hpooled

variable {payment : Option ℕ}

theorem claimWithdrawal_move {requestId : ℕ}
    (h : s.claimWithdrawal env requestId = .ok ⟨s', payment⟩) :
    s.ledger.Move env s'.ledger payment := by
  simp only [claimWithdrawal, bind_eq_ok, require_eq_ok] at h
  obtain ⟨-, -, -, hopen, _, -, -, -, h⟩ := h
  cases h
  exact .claim (Bool.eq_false_iff.mpr hopen)

variable {rewards slashed : ℕ}

theorem checkCaps_ok {u : Unit} (h : s.checkCaps rewards slashed = .ok u)
    (hpos : 0 < s.totalPooled) : slashed < s.totalPooled := by
  simp only [checkCaps, if_pos hpos, bind_eq_ok, require_eq_ok, mul_eq_ok] at h
  obtain ⟨_, -, -, -, _, ⟨rfl, -⟩, hcap⟩ := h
  unfold maxSlashRateBps at hcap
  omega

theorem castVote_ok {rewards slashed votes : ℕ}
    (h : s.castVote keccak env rewards slashed = .ok (votes, s')) : s'.ledger = s.ledger := by
  simp only [castVote, bind_eq_ok] at h
  obtain ⟨-, -, _, -, _, -, h⟩ := h
  cases h
  rfl

theorem takeSlash_ledger (s : Pool) (slashed : ℕ) : ∃ loss ≤ slashed, (s.takeSlash slashed).ledger =
      { s.ledger with totalPooled := s.totalPooled - loss } := by
  unfold takeSlash
  split
  · exact ⟨slashed, le_rfl, rfl⟩
  · exact ⟨0, Nat.zero_le _, rfl⟩

theorem takeRewards_ok {rewards : ℕ} (h : s.takeRewards rewards = .ok s') :
    rewards ≤ s.totalDonated ∧ s'.ledger = { s.ledger with
        totalPooled := s.totalPooled + rewards
        totalDonated := s.totalDonated - rewards } := by
  unfold takeRewards at h
  split at h
  · simp only [bind_eq_ok, require_eq_ok, sub_eq_ok, add_eq_ok] at h
    obtain ⟨-, hbacked, _, ⟨rfl, -⟩, _, ⟨rfl, -⟩, h⟩ := h
    cases h
    exact ⟨hbacked, rfl⟩
  · next hzero =>
    obtain rfl : rewards = 0 := by omega
    cases h
    exact ⟨Nat.zero_le _, rfl⟩

theorem applyRewardReport_move (h : s.applyRewardReport rewards slashed = .ok s')
    (hcap : 0 < s.totalPooled → slashed < s.totalPooled) : s.ledger.Move env s'.ledger none := by
  obtain ⟨t, ht, h⟩ := bind_eq_ok.mp h
  obtain ⟨price, -, h⟩ := bind_eq_ok.mp h
  cases h
  obtain ⟨loss, hloss, hslash⟩ := takeSlash_ledger s slashed
  obtain ⟨hrewards, hledger⟩ := takeRewards_ok ht
  have hpooled : (s.takeSlash slashed).totalPooled = s.totalPooled - loss :=
    congrArg Ledger.totalPooled hslash
  have hdonated : (s.takeSlash slashed).totalDonated = s.totalDonated :=
    congrArg Ledger.totalDonated hslash
  rw [hdonated] at hrewards
  rw [hledger, hslash, hpooled, hdonated]
  exact .report (fun hpos => lt_of_le_of_lt hloss (hcap hpos)) hrewards

theorem reportRewards_move (h : s.reportRewards keccak env rewards slashed = .ok s') :
    s.ledger.Move env s'.ledger none := by
  simp only [reportRewards, bind_eq_ok] at h
  obtain ⟨-, -, -, -, _, hcaps, ⟨votes, t⟩, hvote, _, -, h⟩ := h
  have hledger := castVote_ok hvote
  have hpooled : t.totalPooled = s.totalPooled := congrArg Ledger.totalPooled hledger
  rw [← hledger]
  split at h
  · obtain ⟨u, hu, h⟩ := bind_eq_ok.mp h
    obtain ⟨nonce, -, h⟩ := bind_eq_ok.mp h
    cases h
    have hmove : t.ledger.Move env u.ledger none := by
      refine applyRewardReport_move hu fun hpos => ?_
      rw [hpooled] at hpos ⊢
      exact checkCaps_ok hcaps hpos
    exact hmove
  · cases h
    exact .stay

theorem depositCollateral_move (h : s.depositCollateral env = .ok s') :
    s.ledger.Move env s'.ledger none := by
  simp only [depositCollateral, bind_eq_ok, add_eq_ok] at h
  obtain ⟨-, -, _, ⟨rfl, -⟩, h⟩ := h
  cases h
  exact .depositCollateral

theorem withdrawCollateral_move {amount : ℕ}
    (h : s.withdrawCollateral env amount = .ok ⟨s', payment⟩) :
    s.ledger.Move env s'.ledger payment := by
  simp only [withdrawCollateral, bind_eq_ok, require_eq_ok, sub_eq_ok] at h
  obtain ⟨-, -, -, hheld, _, ⟨rfl, -⟩, h⟩ := h
  cases h
  exact .withdrawCollateral hheld

theorem slashProvider_move {provider : Address} {amount : ℕ}
    (h : s.slashProvider env provider amount = .ok s') : s.ledger.Move env s'.ledger none := by
  simp only [slashProvider, bind_eq_ok, sub_eq_ok, add_eq_ok] at h
  obtain ⟨-, -, -, -, _, ⟨rfl, hheld⟩, _, ⟨rfl, -⟩, h⟩ := h
  cases h
  exact .slashProvider hheld

theorem donate_move (h : s.donate env = .ok s') : s.ledger.Move env s'.ledger none := by
  simp only [donate, bind_eq_ok, add_eq_ok] at h
  obtain ⟨-, -, _, ⟨rfl, -⟩, h⟩ := h
  cases h
  exact .donate

/-! Oracles and governance move no funds. -/

theorem bumpRound_ledger (h : s.bumpRound = .ok s') : s'.ledger = s.ledger := by
  obtain ⟨round, -, h⟩ := bind_eq_ok.mp h
  cases h
  rfl

theorem addOracle_ledger {oracle : Address} (h : s.addOracle env oracle = .ok s') :
    s'.ledger = s.ledger := by
  simp only [addOracle, bind_eq_ok] at h
  obtain ⟨-, -, -, -, -, -, _, -, h⟩ := h
  cases h
  rfl

theorem removeOracle_ledger {oracle : Address} (h : s.removeOracle env oracle = .ok s') :
    s'.ledger = s.ledger := by
  simp only [removeOracle, bind_eq_ok] at h
  obtain ⟨-, -, -, -, _, -, h⟩ := h
  have hround := bumpRound_ledger h
  exact hround

theorem resetReport_ledger (h : s.resetReport env = .ok s') : s'.ledger = s.ledger := by
  obtain ⟨⟨⟩, -, h⟩ := bind_eq_ok.mp h
  exact bumpRound_ledger h

theorem govern_ledger {call : GovernanceCall} (h : s.govern env call = .ok s') :
    s'.ledger = s.ledger := by
  obtain ⟨governable, -, h⟩ := bind_eq_ok.mp h
  cases h
  rfl

theorem body_move {call : PoolCall}
    (h : (liquidStakingPool keccak).body env call s = .ok ⟨s', payment⟩) :
    s.ledger.Move env s'.ledger payment := by
  have hstay : s'.ledger = s.ledger → s.ledger.Move env s'.ledger none := by
    intro heq
    rw [heq]
    exact .stay
  cases call with
  | deposit =>
    obtain ⟨hrun, rfl⟩ := silent_ok h
    obtain ⟨⟨out, t⟩, hdeposit, rfl⟩ := map_eq_ok.mp hrun
    exact deposit_move hdeposit
  | requestWithdrawal amount =>
    obtain ⟨hrun, rfl⟩ := silent_ok h
    obtain ⟨⟨requestId, t⟩, hrequest, rfl⟩ := map_eq_ok.mp hrun
    exact requestWithdrawal_move hrequest
  | claimWithdrawal requestId => exact claimWithdrawal_move h
  | reportRewards rewards slashed => exact silent_elim h reportRewards_move
  | depositCollateral => exact silent_elim h depositCollateral_move
  | withdrawCollateral amount => exact withdrawCollateral_move h
  | slashProvider provider amount => exact silent_elim h slashProvider_move
  | addOracle oracle => exact silent_elim h fun hrun => hstay (addOracle_ledger hrun)
  | removeOracle oracle => exact silent_elim h fun hrun => hstay (removeOracle_ledger hrun)
  | resetReport => exact silent_elim h fun hrun => hstay (resetReport_ledger hrun)
  | govern call => exact silent_elim h fun hrun => hstay (govern_ledger hrun)
  | donate => exact silent_elim h donate_move
  | receive => cases h

theorem conserves (keccak : Bytes → BitVec 256) :
    (liquidStakingPool keccak).Conserves fun s => s.ledger.owed :=
  fun h _ => (body_move h).owed_le

variable {governance : Address}

theorem new_ok (h : new governance = .ok s) : ∃ governable, s = { governable } := by
  obtain ⟨governable, -, h⟩ := bind_eq_ok.mp h
  cases h
  exact ⟨governable, rfl⟩

theorem owed_new (h : new governance = .ok s) : s.ledger.owed = 0 := by
  obtain ⟨governable, rfl⟩ := new_ok h
  change 0 + 0 + (∅ : Mapping Address ℕ).sum id + (∅ : Mapping ℕ WithdrawalRequest).sum _ = 0
  rw [sum_empty, sum_empty]

theorem sound_new (h : new governance = .ok s) : s.ledger.Sound := by
  obtain ⟨governable, rfl⟩ := new_ok h
  refine ⟨sum_empty _, fun hsome => absurd hsome (lt_irrefl 0), fun id => ?_⟩
  exact Nat.two_pow_pos 64

theorem exec_claim {a : Account Pool} {requestId : ℕ} {req : WithdrawalRequest}
    (hreq : a.storage.withdrawals.get requestId = req) (hfit : a.balance < wordSize)
    (hfree : a.entered = false) (hvalue : env.value = 0) (hopen : req.claimed = false)
    (hstaker : env.sender = req.staker) (hblock : req.requestBlock < 2 ^ 64)
    (hmature : req.requestBlock + withdrawalDelay ≤ env.number.toNat)
    (hfunds : req.saltAmount ≤ a.balance) :
    ∃ a', (liquidStakingPool keccak).exec a env (.claimWithdrawal requestId) = .ok (a', true) ∧
      a'.balance + req.saltAmount = a.balance := by
  subst hreq
  set req := a.storage.withdrawals.get requestId
  have hsum : (add req.requestBlock withdrawalDelay : PoolM ℕ) =
      .ok (req.requestBlock + withdrawalDelay) := by
    refine add_eq_ok.mpr ⟨rfl, ?_⟩
    unfold withdrawalDelay wordSize
    omega
  obtain ⟨s', hbody⟩ : ∃ s', (liquidStakingPool keccak).body env (.claimWithdrawal requestId) a.storage =
      .ok ⟨s', some req.saltAmount⟩ := by
    refine ⟨{ a.storage with
      withdrawals := a.storage.withdrawals.set requestId { req with claimed := true } }, ?_⟩
    refine bind_eq_ok.mpr ⟨(), require_eq_ok.mpr hstaker.symm, ?_⟩
    refine bind_eq_ok.mpr ⟨(), require_eq_ok.mpr (Bool.eq_false_iff.mp hopen), ?_⟩
    refine bind_eq_ok.mpr ⟨_, hsum, ?_⟩
    exact bind_eq_ok.mpr ⟨(), require_eq_ok.mpr hmature, rfl⟩
  refine ⟨⟨a.balance - req.saltAmount, true, s'⟩, ?_, Nat.sub_add_cancel hfunds⟩
  unfold Interface.exec
  rw [hbody, hvalue, hfree, Nat.add_zero, if_neg (by simp), if_neg (not_le.mpr hfit), if_neg (by simp)]
  dsimp only
  rw [if_neg (not_lt.mpr hfunds)]
  rfl

/-- In every state that calls lead to, nested ones included, the balance covers the pool, the
donations, the collateral and the open requests. The shares add up, and there are no shares of nothing.
So no payment fails for want of funds, and a request is paid when it matures. -/
theorem balance_covers_ledger {governance : Address} {s₀ : Pool} (h : new governance = .ok s₀)
    {t : Session Pool} (ht : (liquidStakingPool keccak).Reaches s₀ t) :
    let s := t.current.storage
    s.totalPooled + s.totalDonated + s.providerCollateral.sum id +
        s.withdrawals.sum (fun req => if req.claimed then 0 else req.saltAmount) ≤ t.current.balance ∧
      s.totalShares = s.shares.sum id ∧ (0 < s.totalShares → 0 < s.totalPooled) ∧
      (∀ env call, (liquidStakingPool keccak).exec t.current env call ≠ .error .transfer) ∧
      ∀ requestId env, t.current.entered = false → (s.withdrawals.get requestId).claimed = false →
        env.sender = (s.withdrawals.get requestId).staker → env.value = 0 →
        (s.withdrawals.get requestId).requestBlock + withdrawalDelay ≤ env.number.toNat →
        ∃ a, (liquidStakingPool keccak).exec t.current env (.claimWithdrawal requestId) = .ok (a, true) ∧
          a.balance + (s.withdrawals.get requestId).saltAmount = t.current.balance := by
  intro s
  have hsolvent := ht.solvent (conserves keccak) (owed_new h)
  have hsound : s.ledger.Sound :=
    ht.storage (P := fun s => s.ledger.Sound) (fun hbody hs => hs.move (body_move hbody)) (sound_new h)
  have hfit : t.current.balance < wordSize :=
    (ht.invariant (P := fun a => a.balance < wordSize) (fun hexec _ => exec_balance_lt hexec)
      (fun _ ha => ha) (Nat.two_pow_pos 256)).1
  refine ⟨hsolvent, hsound.shares_sum.symm, hsound.backed, exec_ne_transfer (conserves keccak) hsolvent,
    fun requestId env hfree hopen hstaker hvalue hmature => ?_⟩
  have hpart := le_sum (f := unclaimed) rfl s.withdrawals requestId
  rw [unclaimed, hopen, if_neg Bool.false_ne_true] at hpart
  have hfunds : (s.withdrawals.get requestId).saltAmount ≤ t.current.balance :=
    (hpart.trans (Nat.le_add_left _ _)).trans hsolvent
  exact exec_claim rfl hfit hfree hvalue hopen hstaker (hsound.requested requestId) hmature hfunds

def earned : List (Event PoolCall) :=
  [.call { sender := 7, number := 1 } (.addOracle 5),
    .call { sender := 3, value := 1000, number := 2 } .deposit,
    .call { sender := 4, value := 300, number := 2 } .donate,
    .call { sender := 6, value := 50, number := 3 } .depositCollateral,
    .call { sender := 5, number := 4 } (.reportRewards 200 100),
    .call { sender := 3, number := 5 } (.requestWithdrawal 400),
    .call { sender := 6, number := 6 } (.withdrawCollateral 20),
    .call { sender := 7, number := 6 } (.slashProvider 6 10),
    .returned]

theorem balance_covers_ledger_earned : ∃ t : Session Pool,
    (t.current.balance = 1330 ∧ t.current.storage.totalPooled = 670) ∧
      (∀ env call, (liquidStakingPool fun _ => 0).exec t.current env call ≠ .error .transfer) ∧
      ∃ a, (liquidStakingPool fun _ => 0).exec t.current { sender := 3, number := 50405 }
          (.claimWithdrawal 0) = .ok (a, true) ∧ a.balance = 890 := by
  obtain ⟨t, ht, hfunds, hfree, hopen, hstaker, hblock, hsalt⟩ := Transition.Runs.exists_foldlM
    (liquidStakingPool fun _ => 0).step ⟨{ storage := { governable := { governance := 7 } } }, []⟩ earned
    (p := fun t => (t.current.balance = 1330 ∧ t.current.storage.totalPooled = 670) ∧
      t.current.entered = false ∧ (t.current.storage.withdrawals.get 0).claimed = false ∧
      (t.current.storage.withdrawals.get 0).staker = 3 ∧
      (t.current.storage.withdrawals.get 0).requestBlock = 5 ∧
      (t.current.storage.withdrawals.get 0).saltAmount = 440) (by decide)
  have hnew : new 7 = .ok { governable := { governance := 7 } } := rfl
  obtain ⟨-, -, -, htransfer, hclaim⟩ := balance_covers_ledger hnew ⟨earned, ht⟩
  obtain ⟨a, ha, hbalance⟩ := hclaim 0 { sender := 3, number := 50405 } hfree hopen hstaker.symm rfl
    (by rw [hblock]; decide)
  refine ⟨t, hfunds, htransfer, a, ha, ?_⟩
  omega

end Pool

end CitrateChain.Contracts
