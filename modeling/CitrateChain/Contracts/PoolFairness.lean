import CitrateChain.Contracts.PoolSolvency

/-! # Shares of the pool are fair

Both conversions round in favour of the pool, so that no deposit and no withdrawal costs another staker
anything. Who deposits into a pool without shares also gets what was left in it. -/
namespace CitrateChain.Contracts.Pool
open Contract Result Mapping

def balanceOf (s : Pool) (staker : Address) : PoolM ℕ := s.saltForShares (s.shares.get staker)

def depositAndRequest (s : Pool) (env env' : Env) : PoolM ℕ := do
  let (sharesOut, s) ← s.deposit env
  let (requestId, s) ← s.requestWithdrawal env' sharesOut
  return (s.withdrawals.get requestId).saltAmount

variable {keccak : Bytes → BitVec 256} {s s' : Pool} {env : Env} {out amount id : ℕ}

theorem sharesForDeposit_le (h : s.sharesForDeposit amount = .ok out) (hs : s.totalShares ≠ 0) :
    s.totalPooled * out ≤ amount * s.totalShares := by
  unfold sharesForDeposit at h
  split_ifs at h with hnone
  · rw [hnone.resolve_left hs, Nat.zero_mul]
    exact Nat.zero_le _
  · obtain ⟨_, hscaled, h⟩ := bind_eq_ok.mp h
    obtain ⟨rfl, -⟩ := mul_eq_ok.mp hscaled
    cases h
    exact Nat.mul_div_le _ _

theorem worth_le {held pooled shares pooled' shares' : ℕ} (hpos : 0 < shares')
    (h : 0 < shares → pooled * shares' ≤ pooled' * shares) :
    held * pooled / shares ≤ held * pooled' / shares' := by
  rcases Nat.eq_zero_or_pos shares with rfl | hs
  · rw [Nat.div_zero]
    exact Nat.zero_le _
  rw [Nat.le_div_iff_mul_le hpos]
  refine Nat.le_of_mul_le_mul_right ?_ hs
  calc held * pooled / shares * shares' * shares
      = held * pooled / shares * shares * shares' := Nat.mul_right_comm ..
    _ ≤ held * pooled * shares' := Nat.mul_le_mul_right _ (Nat.div_mul_le_self _ _)
    _ ≤ held * pooled' * shares := by
      rw [Nat.mul_assoc, Nat.mul_assoc]
      exact Nat.mul_le_mul_left _ (h hs)

section Fair
variable {other : Address} {before after : ℕ} (hother : other ≠ env.sender)
  (hb : s.balanceOf other = .ok before) (ha : s'.balanceOf other = .ok after)
include hother hb ha

theorem deposit_fair (h : s.deposit env = .ok (out, s')) : before ≤ after := by
  obtain ⟨-, hout, hpos, rfl⟩ := deposit_ok h
  rw [saltForShares_ok hb, saltForShares_ok ha]
  dsimp only
  rw [get_set_of_ne hother]
  refine worth_le (Nat.add_pos_right _ hpos) fun hs => ?_
  rw [Nat.mul_add, Nat.add_mul]
  exact Nat.add_le_add_left (sharesForDeposit_le hout hs.ne') _

theorem requestWithdrawal_fair (hsound : s.ledger.Sound)
    (h : s.requestWithdrawal env amount = .ok (id, s')) : before ≤ after := by
  obtain ⟨hheld, -, -, rfl⟩ := requestWithdrawal_ok h
  -- Who takes the last shares leaves no others.
  have hothers : s.shares.get other ≤ s.totalShares - amount := by
    have hle := le_sum (f := fun held => held) rfl (s.shares.set env.sender 0) other
    have hsum : (s.shares.set env.sender 0).sum (fun held => held) + s.shares.get env.sender = s.totalShares :=
      hsound.shares_set env.sender 0
    rw [get_set_of_ne hother] at hle
    omega
  rw [saltForShares_ok hb, saltForShares_ok ha]
  dsimp only
  rw [get_set_of_ne hother]
  rcases Nat.eq_zero_or_pos (s.totalShares - amount) with hnone | hsome
  · rw [hnone, Nat.le_zero] at hothers
    rw [hothers, Nat.zero_mul, Nat.zero_div]
    exact Nat.zero_le _
  refine worth_le hsome fun _ => ?_
  rw [Nat.mul_sub, Nat.sub_mul, Nat.mul_comm s.totalPooled amount]
  exact Nat.sub_le_sub_left (Nat.div_mul_le_self _ _) _

end Fair

/-- In every state that calls lead to, deposits and withdrawals of others lower no balance, and who
deposits and withdraws at once gets no more than the deposit just if the pool had shares or was empty. -/
theorem share_fairness {governance : Address} {s₀ : Pool} (h : new governance = .ok s₀)
    {t : Session Pool} (ht : (liquidStakingPool keccak).Reaches s₀ t) :
    let s := t.current.storage
    (∀ env other before after s', other ≠ env.sender →
      ((∃ out, s.deposit env = .ok (out, s')) ∨ ∃ amount id, s.requestWithdrawal env amount = .ok (id, s')) →
      s.balanceOf other = .ok before → s'.balanceOf other = .ok after → before ≤ after) ∧
    ∀ env env' queued, env'.sender = env.sender → s.depositAndRequest env env' = .ok queued →
      (queued ≤ env.value ↔ s.totalShares ≠ 0 ∨ s.totalPooled = 0) := by
  intro s
  have hsound : s.ledger.Sound :=
    ht.storage (P := fun s => s.ledger.Sound) (fun hbody hs => hs.move (body_move hbody)) (sound_new h)
  refine ⟨fun env other before after s' hother hcall hb ha => ?_, fun env env' queued _ hqueued => ?_⟩
  · rcases hcall with ⟨out, hd⟩ | ⟨amount, id, hw⟩
    · exact deposit_fair hother hb ha hd
    · exact requestWithdrawal_fair hother hb ha hsound hw
  obtain ⟨⟨out, s'⟩, hd, hqueued⟩ := bind_eq_ok.mp hqueued
  obtain ⟨⟨id, s''⟩, hw, hqueued⟩ := bind_eq_ok.mp hqueued
  obtain ⟨-, hout, hpos, rfl⟩ := deposit_ok hd
  obtain ⟨-, -, -, rfl⟩ := requestWithdrawal_ok hw
  cases hqueued
  dsimp only
  rw [get_set_self]
  dsimp only
  by_cases hs : s.totalShares = 0
  · rw [hs, Nat.zero_add, Nat.mul_div_cancel_left _ hpos]
    omega
  · have hprice := sharesForDeposit_le hout hs
    refine iff_of_true (Nat.div_le_of_le_mul ?_) (.inl hs)
    rw [Nat.mul_add, Nat.add_mul, Nat.mul_comm out, Nat.mul_comm out, Nat.mul_comm s.totalShares]
    exact Nat.add_le_add_right hprice _

theorem share_fairness_second : ∃ (t : Session Pool) (s' : Pool),
    t.current.storage.deposit { sender := 4, value := 5, number := 2 } = .ok (5, s') ∧
      (∀ after, s'.balanceOf 3 = .ok after → 10 ≤ after) ∧ t.current.storage.totalShares ≠ 0 := by
  obtain ⟨t, ht, hshares, hbalance, hqueued⟩ := Transition.Runs.exists_foldlM
    (liquidStakingPool fun _ => 0).step ⟨{ storage := { governable := { governance := 7 } } }, []⟩
    [.call { sender := 3, value := 10, number := 1 } .deposit]
    (p := fun t => Prod.fst <$> t.current.storage.deposit ⟨4, 5, 2, 0⟩ = .ok 5 ∧
      t.current.storage.balanceOf 3 = .ok 10 ∧ t.current.storage.totalPooled ≠ 0 ∧
      t.current.storage.depositAndRequest ⟨4, 5, 2, 0⟩ ⟨4, 0, 2, 0⟩ = .ok 5) (by decide)
  obtain ⟨hothers, hown⟩ := @share_fairness (fun _ => 0) 7 _ rfl t ⟨_, ht⟩
  obtain ⟨⟨out, s'⟩, hdeposit, rfl⟩ := map_eq_ok.mp hshares
  exact ⟨t, s', hdeposit, fun after => hothers _ 3 10 after s' (by decide) (.inl ⟨5, hdeposit⟩) hbalance,
    (((hown _ _ _ rfl hqueued.2).mp le_rfl).resolve_right hqueued.1)⟩

theorem empty_pool_overpays : ∃ t : Session Pool,
    (liquidStakingPool fun _ => 0).Reaches { governable := { governance := 7 } } t ∧
      t.current.storage.depositAndRequest ⟨3, 10, 3, 0⟩ ⟨3, 0, 3, 0⟩ = .ok 60 := by
  obtain ⟨t, ht, hqueued⟩ := Transition.Runs.exists_foldlM
    (liquidStakingPool fun _ => 0).step ⟨{ storage := { governable := { governance := 7 } } }, []⟩
    [.call { sender := 6, value := 50, number := 1 } .depositCollateral,
      .call { sender := 7, number := 2 } (.slashProvider 6 50)]
    (p := fun t => t.current.storage.depositAndRequest ⟨3, 10, 3, 0⟩ ⟨3, 0, 3, 0⟩ = .ok 60)
    (by decide)
  exact ⟨t, ⟨_, ht⟩, hqueued⟩

def worthOf (s : Pool) (held : ℕ) : ℕ := (s.saltForShares held).toOption.getD 0

theorem worthOf_le (s : Pool) (held : ℕ) : s.worthOf held ≤ held * s.totalPooled / s.totalShares := by
  unfold worthOf
  cases h : s.saltForShares held with
  | error e => exact Nat.zero_le _
  | ok out => exact (saltForShares_ok h).le

theorem sum_worthOf_le (s : Pool) (l : List ℕ) :
    (l.map s.worthOf).sum ≤ l.sum * s.totalPooled / s.totalShares := by
  induction l with
  | nil => exact Nat.zero_le _
  | cons held l ih =>
    rw [List.map_cons, List.sum_cons, List.sum_cons, Nat.add_mul]
    exact (Nat.add_le_add (s.worthOf_le held) ih).trans Nat.div_add_div_le_add_div

/-- In every state that calls lead to, all stakers together could withdraw no more than the pool holds. -/
theorem balances_within_pool {governance : Address} {s₀ : Pool} (h : new governance = .ok s₀)
    {t : Session Pool} (ht : (liquidStakingPool keccak).Reaches s₀ t) :
    t.current.storage.shares.sum t.current.storage.worthOf ≤ t.current.storage.totalPooled := by
  have hsound : t.current.storage.ledger.Sound :=
    ht.storage (P := fun s => s.ledger.Sound) (fun hbody hs => hs.move (body_move hbody)) (sound_new h)
  generalize t.current.storage = s at hsound
  have hsum : s.shares.sum id = s.totalShares := hsound.shares_sum
  unfold Mapping.sum TreeMap.sumBy at hsum ⊢
  have hall := s.sum_worthOf_le (s.shares.entries.toList.map Prod.snd)
  rw [List.map_map] at hall
  refine hall.trans (Nat.div_le_of_le_mul ?_)
  exact (congrArg (· * s.totalPooled) hsum).le

theorem balances_within_pool_two : ∃ t : Session Pool, t.current.storage.totalShares = 15 ∧
      t.current.storage.worthOf 10 = 10 ∧
      t.current.storage.shares.sum t.current.storage.worthOf ≤ t.current.storage.totalPooled := by
  obtain ⟨t, ht, hshares, hworth⟩ := Transition.Runs.exists_foldlM
    (liquidStakingPool fun _ => 0).step ⟨{ storage := { governable := { governance := 7 } } }, []⟩
    [.call { sender := 3, value := 10, number := 1 } .deposit,
      .call { sender := 4, value := 5, number := 2 } .deposit]
    (p := fun t => t.current.storage.totalShares = 15 ∧ t.current.storage.worthOf 10 = 10) (by decide)
  exact ⟨t, hshares, hworth, @balances_within_pool (fun _ => 0) 7 _ rfl t ⟨_, ht⟩⟩

end CitrateChain.Contracts.Pool
