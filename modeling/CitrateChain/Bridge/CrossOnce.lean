import CitrateChain.Base.Claim
import CitrateChain.Base.Result
import CitrateChain.Bridge.Relay

/-! # An event crosses the bridge once

`process_event` looks whether the event is known under one lock and tracks it under another. As long
as nobody looks while another call stands between the two for the same event, no event is minted or
withdrawn twice. -/
namespace CitrateChain.Bridge
open RelayState Crossing CallPhase
open Std (ExtTreeMap)

variable {φ ι : Type} {r : BridgeRules φ} {c : BridgeConfig}

namespace RelayState
variable {s : RelayState φ} {id x : EventId}

theorem mem_events_trackEvent (t : TrackedEvent φ) :
    x ∈ (s.trackEvent t).1.events ↔ x ∈ s.events ∨ x = t.event.eventId := by
  unfold trackEvent
  split
  · next h => exact (or_iff_left_of_imp fun hx => hx ▸ ExtTreeMap.contains_iff_mem.mp h).symm
  · rw [ExtTreeMap.mem_insert, Std.compare_eq_iff_eq, or_comm, eq_comm]

theorem mem_events_insert {t : TrackedEvent φ} (hid : id ∈ s.events) :
    x ∈ s.events.insert id t ↔ x ∈ s.events := by
  rw [ExtTreeMap.mem_insert, Std.compare_eq_iff_eq]
  exact or_iff_right_of_imp fun h => h ▸ hid

@[simp] theorem mem_events_updateEventStatus (status : EventStatus) (error : Option String) :
    x ∈ (s.updateEventStatus id status error).events ↔ x ∈ s.events := by
  unfold updateEventStatus
  split
  · exact Iff.rfl
  · rename_i t h
    exact mem_events_insert (TreeMap.mem_of_getElem? h)

@[simp] theorem mem_events_countRetry : x ∈ (s.countRetry id).events ↔ x ∈ s.events := by
  unfold countRetry
  split
  · exact Iff.rfl
  · rename_i t h
    exact mem_events_insert (TreeMap.mem_of_getElem? h)

end RelayState

def Stage.crosses : Stage → Bool
  | .track | .attest | .gate | .mint | .release => true
  | .known | .close _ _ | .minted _ | .failed _ => false

namespace CallPhase

def checking : CallPhase φ → Option EventId
  | .processing e .known _ => some e.eventId
  | _ => none

def tracking : CallPhase φ → Option EventId
  | .processing e .track _ => some e.eventId
  | _ => none

def crossing : CallPhase φ → Option EventId
  | .processing e stage _ => if stage.crosses then some e.eventId else none
  | _ => none

def passed : CallPhase φ → Option EventId
  | .processing _ .known _ => none
  | .processing e _ _ => some e.eventId
  | _ => none

theorem crossing_of_passed {ph : CallPhase φ} (h : ph.passed = none) : ph.crossing = none := by
  cases ph with
  | processing e stage caller =>
    cases stage with
    | known => rfl
    | _ => cases h
  | _ => rfl

end CallPhase

def eventClaims : Shared.Claims (Relay φ ι) (CallPhase φ) EventId where
  Known s x := x ∈ s.state.events
  spent s := s.ledger.map eventId
  holds := CallPhase.crossing
  Marking ph := ph.tracking ≠ none

section Moves
variable {s s' : Relay φ ι} {i : ι} {e : BridgeEvent φ} {stage stage' : Stage} {ph ph' : CallPhase φ}

theorem passed_nextEvent (safeBlock : UInt64) (results : List ProcessingResult)
    (events : List (BridgeEvent φ)) : (nextEvent safeBlock results events).passed = none := by
  cases events <;> rfl

theorem passed_resume (result : ProcessingResult) (caller : Caller φ) :
    (caller.resume result).passed = none := by
  cases caller with
  | poll safeBlock rest results => exact passed_nextEvent _ _ _
  | retry => rfl

theorem passed_pollStart (st : RelayState φ) (paused : Bool) (source : EventSource φ) :
    (pollStart c st paused source).passed = none := by
  fun_cases pollStart c st paused source with
  | case5 => exact passed_nextEvent _ _ _
  | _ => rfl

theorem passed_retryStart (st : RelayState φ) (id : EventId) :
    (retryStart c st id).passed = none := by
  fun_cases retryStart c st id <;> rfl

theorem passed_retryProceed (source : EventSource φ) (t : TrackedEvent φ) :
    (retryProceed source t).passed = none := by
  fun_cases retryProceed source t <;> rfl

theorem moves_of_free (hgrows : ∀ x, x ∈ s.state.events → x ∈ s'.state.events)
    (hledger : s'.ledger = s.ledger) (hfree : ph'.crossing = none) :
    eventClaims.Moves s ph s' ph' := by
  refine .keep hgrows (congrArg (List.map eventId) hledger) fun x hx => ?_
  exact nomatch hfree.symm.trans hx

theorem processStep_inl (h : processStep r c i s e stage = some (s', .inl stage')) :
    (stage = .known ∧ stage' = .track ∧ s' = s ∧ e.eventId ∉ s.state.events) ∨
    (stage = .track ∧ stage' = .attest ∧ s' = { s with state := (s.state.trackEvent { event := e }).1 }) ∨
    ((stage = .attest ∨ stage = .gate) ∧ s' = s) ∨
    (stage = .mint ∧ stage'.crosses = false ∧ s'.state = s.state ∧
      (s'.ledger = s.ledger ∨ s'.ledger = s.ledger ++ [.minted e.eventId])) := by
  revert h
  fun_cases processStep r c i s e stage with
  | case2 _ hknown =>
    rintro ⟨⟩
    exact .inl ⟨rfl, rfl, rfl, fun hmem => hknown (ExtTreeMap.contains_iff_mem.mpr hmem)⟩
  | case3 =>
    rintro ⟨⟩
    exact .inr (.inl ⟨rfl, rfl, rfl⟩)
  | case4 =>
    rintro ⟨⟩
    exact .inr (.inr (.inl ⟨.inl rfl, rfl⟩))
  | case6 =>
    rintro ⟨⟩
    exact .inr (.inr (.inl ⟨.inr rfl, rfl⟩))
  | case7 =>
    rintro ⟨⟩
    exact .inr (.inr (.inr ⟨rfl, rfl, rfl, .inr rfl⟩))
  | case8 =>
    rintro ⟨⟩
    exact .inr (.inr (.inr ⟨rfl, rfl, rfl, .inl rfl⟩))
  | _ => nofun

theorem processStep_inr {result : ProcessingResult}
    (h : processStep r c i s e stage = some (s', .inr result)) :
    (∀ x, x ∈ s.state.events → x ∈ s'.state.events) ∧
      (s'.ledger = s.ledger ∨ stage = .release ∧ s'.ledger = s.ledger ++ [.withdrawn e.eventId]) := by
  revert h
  fun_cases processStep r c i s e stage with
  | case1 =>
    rintro ⟨⟩
    exact ⟨fun x hx => hx, .inl rfl⟩
  | case5 | case10 | case11 =>
    rintro ⟨⟩
    exact ⟨fun x hx => (mem_events_updateEventStatus _ _).mpr hx, .inl rfl⟩
  | case12 =>
    rintro ⟨⟩
    exact ⟨fun x hx => (mem_events_updateEventStatus _ _).mpr hx, .inr ⟨rfl, rfl⟩⟩
  | _ => nofun

variable {calls : ι → RelayCall φ}

theorem processing_moves {caller : Caller φ}
    (h : callStep r c calls i s (.processing e stage caller) = some (s', ph')) :
    eventClaims.Moves s (.processing e stage caller) s' ph' := by
  obtain ⟨⟨t, stage' | result⟩, hstep, heq⟩ := Option.map_eq_some_iff.mp h
  · obtain ⟨rfl, rfl⟩ := Prod.mk.inj heq
    rcases processStep_inl hstep with ⟨rfl, rfl, rfl, hnew⟩ | ⟨rfl, rfl, rfl⟩ | ⟨hstage, rfl⟩ |
      ⟨rfl, hcross, hstate, hledger⟩
    · exact .take e.eventId hnew rfl rfl rfl (Option.some_ne_none _)
    · refine .keep (fun x hx => (mem_events_trackEvent _).mpr (.inl hx)) rfl fun x hx => ?_
      refine ⟨hx, fun _ => .inl ((mem_events_trackEvent _).mpr (.inr ?_))⟩
      exact (Option.some.inj hx).symm
    · refine .keep (fun x hx => hx) rfl fun x hx => ?_
      have hheld : CallPhase.crossing (.processing e stage caller) = some e.eventId := by
        rcases hstage with rfl | rfl <;> rfl
      obtain ⟨-, rfl⟩ : stage'.crosses = true ∧ e.eventId = x := by simpa [eventClaims, CallPhase.crossing] using hx
      refine ⟨hheld, fun _ => .inr ?_⟩
      rcases hstage with rfl | rfl <;> exact fun hmark => hmark rfl
    · have hfree : CallPhase.crossing (.processing e stage' caller) = none := if_neg (by simp [hcross])
      have hgrows : ∀ x, x ∈ s.state.events → x ∈ t.state.events := fun x hx => hstate ▸ hx
      rcases hledger with hledger | hledger
      · exact moves_of_free hgrows hledger hfree
      · refine .spend e.eventId hgrows rfl (fun hmark => hmark rfl) ?_ hfree
        change t.ledger.map eventId = s.ledger.map eventId ++ [e.eventId]
        rw [hledger, List.map_append]
        rfl
  · obtain ⟨rfl, rfl⟩ := Prod.mk.inj heq
    obtain ⟨hgrows, hledger | ⟨rfl, hledger⟩⟩ := processStep_inr hstep
    · exact moves_of_free hgrows hledger (crossing_of_passed (passed_resume _ _))
    · refine .spend e.eventId hgrows rfl (fun hmark => hmark rfl) ?_
        (crossing_of_passed (passed_resume _ _))
      change t.ledger.map eventId = s.ledger.map eventId ++ [e.eventId]
      rw [hledger, List.map_append]
      rfl

section

variable (h : callStep r c calls i s ph = some (s', ph'))
include h

theorem callStep_outside (hout : ∀ e stage caller, ph ≠ .processing e stage caller) :
    (∀ x, x ∈ s.state.events → x ∈ s'.state.events) ∧ s'.ledger = s.ledger ∧ ph'.passed = none := by
  revert h
  fun_cases callStep r c calls i s ph with
  | case1 =>
    rintro ⟨⟩
    exact ⟨fun x hx => hx, rfl, passed_pollStart _ _ _⟩
  | case2 =>
    rintro ⟨⟩
    exact ⟨fun x hx => hx, rfl, passed_retryStart _ _⟩
  | case4 =>
    rintro ⟨⟩
    exact ⟨fun x hx => mem_events_countRetry.mpr hx, rfl, passed_retryProceed _ _⟩
  | case6 e stage caller => exact absurd rfl (hout e stage caller)
  | case3 | case7 =>
    rintro ⟨⟩
    exact ⟨fun x hx => hx, rfl, rfl⟩
  | _ => nofun

theorem callStep_moves : eventClaims.Moves s ph s' ph' := by
  by_cases hin : ∃ e stage caller, ph = .processing e stage caller
  · obtain ⟨e, stage, caller, rfl⟩ := hin
    exact processing_moves h
  · push Not at hin
    obtain ⟨hgrows, hledger, hfree⟩ := callStep_outside h hin
    exact moves_of_free hgrows hledger (crossing_of_passed hfree)

theorem checking_of_crossing {x : EventId} (hfree : ph.crossing = none)
    (hx : ph'.crossing = some x) : ph.checking = some x ∧ x ∉ s.state.events := by
  by_cases hin : ∃ e stage caller, ph = .processing e stage caller
  · obtain ⟨e, stage, caller, rfl⟩ := hin
    obtain ⟨⟨t, stage' | result⟩, hstep, heq⟩ := Option.map_eq_some_iff.mp h
    · cases heq
      rcases processStep_inl hstep with ⟨rfl, rfl, -, hnew⟩ | ⟨rfl, -⟩ | ⟨rfl | rfl, -⟩ | ⟨rfl, -⟩
      · obtain rfl : e.eventId = x := Option.some.inj hx
        exact ⟨rfl, hnew⟩
      all_goals cases hfree
    · cases heq
      cases (crossing_of_passed (passed_resume ..)).symm.trans hx
  · push Not at hin
    cases (crossing_of_passed (callStep_outside h hin).2.2).symm.trans hx

end

theorem tracking_of_crossing {x : EventId} (hx : ph.crossing = some x) (ht : ph.tracking ≠ none) :
    ph.tracking = some x := by
  cases ph with
  | processing e stage caller =>
    cases stage with
    | track => exact hx
    | _ => exact absurd rfl ht
  | _ => cases hx

end Moves

abbrev Bridging (φ ι : Type) := Shared ι (Relay φ ι) (CallPhase φ)

/-- If the call is about to find its event unknown, no call has found the same event unknown without
having tracked it. -/
def ChecksAlone (s : Bridging φ ι) (i : ι) : Prop :=
  ∀ x, (s.phase i).checking = some x → x ∉ s.shared.state.events → ∀ k, (s.phase k).tracking ≠ some x

variable {calls : ι → RelayCall φ}

theorem ChecksAlone.apart {s : Bridging φ ι} {i : ι} (h : ChecksAlone s i) :
    eventClaims.Apart (callStep r c calls) s i := by
  intro p' ph' hstep hfree x hx k hk hmark
  obtain ⟨hcheck, hnew⟩ := checking_of_crossing hstep hfree hx
  exact h x hcheck hnew k (tracking_of_crossing hk hmark)

theorem settled_start {s₀ : Relay φ ι} (h₀ : s₀.ledger = []) :
    eventClaims.Settled (⟨s₀, fun _ => .start⟩ : Bridging φ ι) := by
  have hspent : eventClaims.spent s₀ = [] := congrArg (List.map eventId) h₀
  constructor
  · exact hspent ▸ List.nodup_nil
  · intro x hx
    rw [hspent] at hx
    cases hx
  all_goals
    intros
    contradiction

theorem ledger_of_new {s₀ : Relay φ ι} (h : Relay.new r c = .ok s₀) : s₀.ledger = [] := by
  unfold Relay.new at h
  split_ifs at h
  cases h
  rfl

instance [Fintype ι] (s : Bridging φ ι) (i : ι) : Decidable (ChecksAlone s i) :=
  match h : (s.phase i).checking with
  | none => .isTrue fun x hx => by rw [h] at hx; cases hx
  | some x =>
    decidable_of_iff (x ∉ s.shared.state.events → ∀ k, (s.phase k).tracking ≠ some x) <| by
      constructor
      · intro hall y hy
        obtain rfl : x = y := Option.some.inj (h.symm.trans hy)
        exact hall
      · intro hall
        exact hall x h

/-- In every run in which the calls check alone: each event is minted at most once and withdrawn at
most once. -/
theorem events_cross_once [DecidableEq ι] {s₀ : Relay φ ι} (h₀ : Relay.new r c = .ok s₀) {schedule : List ι}
    {s : Bridging φ ι}
    (hr : Transition.Runs (fun s i s' => ChecksAlone s i ∧ s.advance (callStep r c calls) i = some s')
      ⟨s₀, fun _ => .start⟩ schedule s) (x : EventId) :
    s.shared.ledger.count (.minted x) ≤ 1 ∧ s.shared.ledger.count (.withdrawn x) ≤ 1 := by
  have hruns : Transition.Runs (fun s i s' => eventClaims.Apart (callStep r c calls) s i ∧
      s.advance (callStep r c calls) i = some s') ⟨s₀, fun _ => .start⟩ schedule s :=
    hr.imp fun s i s' _ hs => ⟨hs.1.apart, hs.2⟩
  have hsettled := Shared.Claims.Settled.runs callStep_moves hruns (settled_start (ledger_of_new h₀))
  have hnodup : s.shared.ledger.Nodup := hsettled.nodup.of_map _
  exact ⟨List.nodup_iff_count_le_one.mp hnodup _, List.nodup_iff_count_le_one.mp hnodup _⟩

/-! Two polls whose source has a deposit and a withdrawal, both attested by the one oracle. -/

def plainRules : BridgeRules Unit where
  sha3 _ := 0
  verify _ _ _ := true
  zero := ()
  add _ _ := ()
  isFinite _ := true
  isNegative _ := false
  ofWei _ := ()
  within _ _ := true
  display _ := ""
  calculateSaltAmount _ _ := 10000

def oneOracle : BridgeConfig := { oracleThreshold := 1, attestationDomain := (40204, 0) }

def attestedBy (oracle : OracleId) (id : EventId) : OracleAttestation :=
  { oracleId := oracle, eventId := id, eventHash := 0, signature := [], timestamp := 0 }

def oneEther (id : EventId) : BridgeEvent Unit :=
  .deposit
    { eventId := id, ethTxHash := 0, logIndex := 0, ethBlockNumber := 50, depositor := 3, recipient := 4,
      amountWei := 1000000000000000000, amountEth := (), timestamp := 0 }

def burnTen (id : EventId) : BridgeEvent Unit :=
  .withdrawal
    { eventId := id, citrateTxHash := 0, citrateBlockHeight := 50, sender := 3, ethRecipient := 4,
      saltAmount := 10, ethAmountWei := 1000, timestamp := 0 }

def bothWays : EventSource Unit where
  currentBlock := .ok 100
  fetchEvents _ _ := .ok [oneEther 1, burnTen 2]

def twoPolls : Fin 5 → RelayCall Unit
  | 0 => .oracle (.register 9)
  | 1 => .oracle (.submit 0 (attestedBy 9 1))
  | 2 => .oracle (.submit 0 (attestedBy 9 2))
  | 3 => .pollCycle false bothWays
  | 4 => .pollCycle false bothWays

def freshRelay : Relay Unit (Fin 5) where
  state := {}
  registry := { threshold := 1, chainId := 40204, bridgeInstance := 0 }
  minter := SnapMinter.new plainRules

def bridgeStep (s : Bridging Unit (Fin 5)) (i : Fin 5) : Option (Bridging Unit (Fin 5)) :=
  s.advance (callStep plainRules oneOracle twoPolls) i

def inTurn : List (Fin 5) := [0, 1, 2] ++ List.replicate 13 3 ++ [4]

def sideBySide : List (Fin 5) :=
  [0, 1, 2] ++ (List.replicate 5 [3, 4]).flatten ++ [3, 3, 4, 4] ++ (List.replicate 6 [3, 4]).flatten

theorem events_cross_once_in_turn : ∃ s : Bridging Unit (Fin 5),
    s.shared.ledger = [.minted 1, .withdrawn 2] ∧
      s.shared.ledger.count (.minted 1) ≤ 1 ∧ s.shared.ledger.count (.withdrawn 1) ≤ 1 := by
  obtain ⟨s, hs, hledger⟩ := Transition.Runs.exists_foldlM
    (fun s i => if ChecksAlone s i then bridgeStep s i else none) ⟨freshRelay, fun _ => .start⟩ inTurn
    (p := fun s => s.shared.ledger = [.minted 1, .withdrawn 2]) (by decide)
  have hr : Transition.Runs (fun s i s' => ChecksAlone s i ∧ bridgeStep s i = some s') _ _ s :=
    hs.imp fun s i s' _ hstep => Option.ite_none_right_eq_some.mp hstep
  exact ⟨s, hledger, events_cross_once rfl hr 1⟩

theorem both_polls_cross : ∃ s : Bridging Unit (Fin 5),
    Relay.new plainRules oneOracle = .ok freshRelay ∧
    Transition.Runs (fun s i s' => bridgeStep s i = some s') ⟨freshRelay, fun _ => .start⟩
      sideBySide s ∧
    s.shared.ledger.count (.minted 1) = 2 ∧ s.shared.ledger.count (.withdrawn 2) = 2 := by
  exact exists_and_left.mpr ⟨rfl, Transition.Runs.exists_foldlM bridgeStep _ sideBySide (by decide)⟩

def weiDeposited (s : Relay φ ι) : ℕ := (s.deposited.map (·.amountWei.toNat)).sum

/-- The accumulator of the minter is what it has taken in, within the hard cap, for the events that the
ledger has minted. -/
structure Accounted (s : Relay φ ι) : Prop where
  total : s.minter.totalDepositedWei.toNat = weiDeposited s
  cap : weiDeposited s ≤ hardCapWei.toNat
  minted : s.ledger.filterMap mintedId = s.deposited.map (·.eventId)

theorem processDeposit_adds {m m' : SnapMinter φ} {d : DepositEvent φ} {receipt : MintReceipt}
    (h : m.processDeposit r d = .ok (receipt, m')) :
    m'.totalDepositedWei.toNat = m.totalDepositedWei.toNat + d.amountWei.toNat ∧
      m'.totalDepositedWei.toNat ≤ hardCapWei.toNat := by
  obtain ⟨⟨⟩, -, h⟩ := Result.bind_eq_ok.mp h
  obtain ⟨total, htotal, h⟩ := Result.bind_eq_ok.mp h
  unfold SnapMinter.newTotalWei at htotal
  dsimp only at h
  split_ifs at h htotal with _ hroom hcap
  cases h
  cases htotal
  refine ⟨?_, BitVec.le_def.mp (BitVec.not_lt.mp hcap)⟩
  rw [BitVec.toNat_add, Nat.mod_eq_of_lt (not_le.mp hroom)]

theorem Accounted.callStep {s s' : Relay φ ι} {i : ι} {ph ph' : CallPhase φ} (hs : Accounted s)
    (h : callStep r c calls i s ph = some (s', ph')) : Accounted s' := by
  revert h
  fun_cases Bridge.callStep r c calls i s ph with
  | case6 e stage caller =>
    fun_cases processStep r c i s e stage with
    | case7 d _ receipt minter hok =>
      rintro ⟨⟩
      obtain ⟨hadds, hcap⟩ := processDeposit_adds hok
      have hwei : weiDeposited { s with deposited := s.deposited ++ [d] } =
          minter.totalDepositedWei.toNat := by
        rw [hadds, hs.total]
        simp [weiDeposited]
      refine ⟨hwei.symm, hwei.trans_le hcap, ?_⟩
      simp [List.filterMap_append, hs.minted, mintedId]
    | case12 w =>
      rintro ⟨⟩
      refine ⟨hs.total, hs.cap, ?_⟩
      simp [List.filterMap_append, hs.minted, mintedId]
    | _ => rintro ⟨⟩ <;> exact ⟨hs.total, hs.cap, hs.minted⟩
  | _ => rintro ⟨⟩ <;> exact ⟨hs.total, hs.cap, hs.minted⟩

/-- However the calls interleave, also where an event is minted twice, the wei of the deposits that were
minted sum to the accumulator and to no more than the hard cap. -/
theorem deposits_within_cap [DecidableEq ι] {s₀ : Relay φ ι} (h₀ : Relay.new r c = .ok s₀)
    {schedule : List ι} {s : Bridging φ ι}
    (hr : Transition.Runs (fun s i s' => s.advance (callStep r c calls) i = some s')
      ⟨s₀, fun _ => .start⟩ schedule s) : Accounted s.shared := by
  refine hr.invariant (P := fun s => Accounted s.shared) ?_
    fun _ _ _ hs hstep => hs.callStep (Shared.advance_eq_some hstep).1
  unfold Relay.new at h₀
  split_ifs at h₀
  cases h₀
  exact ⟨rfl, Nat.zero_le _, rfl⟩

theorem deposits_within_cap_twice : ∃ s : Bridging Unit (Fin 5), s.shared.ledger.count (.minted 1) = 2 ∧
    weiDeposited s.shared = 2 * 10 ^ 18 ∧ Accounted s.shared := by
  obtain ⟨s, hr, htwice, htotal⟩ := Transition.Runs.exists_foldlM bridgeStep ⟨freshRelay, fun _ => .start⟩
    sideBySide (p := fun s => s.shared.ledger.count (.minted 1) = 2 ∧
      s.shared.minter.totalDepositedWei.toNat = 2 * 10 ^ 18) (by decide)
  have hs := deposits_within_cap rfl hr
  exact ⟨s, htwice, hs.total.symm.trans htotal, hs⟩

end CitrateChain.Bridge
