import CitrateChain.Base.Exclusive
import CitrateChain.Bridge.Events

/-! # The relay

Calls of `poll_cycle` and `retry_event` and changes of the oracle registry, side by side. A step is
what a call does under one lock. The lock of the minter is kept over the write of the outcome, since
the guard lives as long as the match on the result. -/
namespace CitrateChain.Bridge
open Std (ExtTreeMap)
open Consensus (Hash)

variable {φ ι : Type}

inductive EventStatus
  | pending | awaitingAttestations | attested | processed | rejected | failed
  deriving DecidableEq

def EventStatus.debug : EventStatus → String
  | .pending => "Pending"
  | .awaitingAttestations => "AwaitingAttestations"
  | .attested => "Attested"
  | .processed => "Processed"
  | .rejected => "Rejected"
  | .failed => "Failed"

structure TrackedEvent (φ : Type) where
  event : BridgeEvent φ
  status : EventStatus := .pending
  retryCount : UInt32 := 0
  error : Option String := none

structure RelayState (φ : Type) where
  lastEthBlock : UInt64 := 0
  events : ExtTreeMap EventId (TrackedEvent φ) := ∅
  totalDeposits : UInt64 := 0
  totalWithdrawals : UInt64 := 0
  totalSaltCredited : UInt64 := 0
  totalSaltBurned : UInt64 := 0

namespace RelayState
variable (s : RelayState φ)

def isKnownEvent (id : EventId) : Bool := s.events.contains id

def trackEvent (t : TrackedEvent φ) : RelayState φ × Bool :=
  if s.events.contains t.event.eventId then (s, false)
  else ({ s with events := s.events.insert t.event.eventId t }, true)

def updateEventStatus (id : EventId) (status : EventStatus) (error : Option String) : RelayState φ :=
  match s.events[id]? with
  | none => s
  | some t =>
    let t' : TrackedEvent φ := { t with status, error := error <|> t.error }
    { s with events := s.events.insert id t' }

def recordDeposit (salt : UInt64) : RelayState φ :=
  { s with
    totalDeposits := Word.saturatingAdd s.totalDeposits 1
    totalSaltCredited := Word.saturatingAdd s.totalSaltCredited salt }

def recordWithdrawal (salt : UInt64) : RelayState φ :=
  { s with
    totalWithdrawals := Word.saturatingAdd s.totalWithdrawals 1
    totalSaltBurned := Word.saturatingAdd s.totalSaltBurned salt }

def countRetry (id : EventId) : RelayState φ :=
  match s.events[id]? with
  | none => s
  | some t =>
    -- `u32::saturating_add`
    let retryCount := if t.retryCount = 4294967295 then t.retryCount else t.retryCount + 1
    { s with events := s.events.insert id { t with retryCount, status := .pending } }

end RelayState

structure BridgeConfig where
  confirmationDepth : UInt64 := 12
  oracleThreshold : ℕ := 2
  maxRetries : UInt32 := 5
  attestationDomain : UInt64 × Hash

structure ProcessingResult where
  eventId : EventId
  status : EventStatus
  saltAmount : Option UInt64 := none
  error : Option String := none

inductive Crossing
  | minted (id : EventId)
  | withdrawn (id : EventId)
  deriving DecidableEq

def Crossing.eventId : Crossing → EventId
  | .minted id => id
  | .withdrawn id => id

def Crossing.mintedId : Crossing → Option EventId
  | .minted id => some id
  | .withdrawn _ => none

structure Relay (φ ι : Type) where
  state : RelayState φ
  registry : OracleRegistry
  minter : SnapMinter φ
  minterLock : Option ι := none
  ledger : List Crossing := []
  deposited : List (DepositEvent φ) := []

def Relay.new (r : BridgeRules φ) (c : BridgeConfig) : Except BridgeError (Relay φ ι) :=
  if c.oracleThreshold = 0 then .error (.invalidThreshold 0 0)
  else
    .ok
      { state := {}
        registry :=
          { threshold := c.oracleThreshold
            chainId := c.attestationDomain.1
            bridgeInstance := c.attestationDomain.2 }
        minter := SnapMinter.new r }

/-- Where `process_event` stands, by what it does under the next lock. -/
inductive Stage
  | known
  | track
  | attest
  | close (status : EventStatus) (error : Option String)
  | gate
  | mint
  | minted (salt : UInt64)
  | failed (error : BridgeError)
  | release

/-- The stage of `process_deposit` or `process_withdrawal` behind the gate, or of an oracle update. -/
def BridgeEvent.afterGate : BridgeEvent φ → Stage
  | .deposit _ => .mint
  | .withdrawal _ => .release
  | .oracleUpdate _ => .close .processed none

variable (r : BridgeRules φ) (c : BridgeConfig)

/-- The first stage of `process_deposit` and `process_withdrawal`, which skip the gate when the
threshold is zero. -/
def BridgeEvent.afterAttest (e : BridgeEvent φ) : Stage :=
  match e.expectedHash r with
  | some _ => if 0 < c.oracleThreshold then .gate else e.afterGate
  | none => e.afterGate

def attestStage (reg : OracleRegistry) (e : BridgeEvent φ) : Stage :=
  let wait : Stage :=
    if c.oracleThreshold = 0 then e.afterAttest r c else .close .awaitingAttestations none
  match e.expectedHash r with
  | some h =>
    if reg.isThresholdMetFor e.eventId h then e.afterAttest r c
    else if 0 < c.oracleThreshold ∧ reg.isThresholdMet e.eventId then
      .close .rejected (some (toString (BridgeError.attestationFieldMismatch e.eventId)))
    else wait
  | none => if reg.isThresholdMet e.eventId then e.afterAttest r c else wait

def gateStage (reg : OracleRegistry) (e : BridgeEvent φ) : Stage :=
  match e.expectedHash r with
  | some h =>
    if reg.isThresholdMetFor e.eventId h then e.afterGate
    else .close .rejected (some (toString (BridgeError.attestationFieldMismatch e.eventId)))
  | none => e.afterGate

def processStep (i : ι) (s : Relay φ ι) (e : BridgeEvent φ) : Stage → Option (Relay φ ι × (Stage ⊕ ProcessingResult))
  | .known =>
    if s.state.isKnownEvent e.eventId then
      some (s, .inr { eventId := e.eventId, status := .rejected, error := some "Duplicate event" })
    else some (s, .inl .track)
  | .track =>
    -- the answer of `track_event` is not looked at
    some ({ s with state := (s.state.trackEvent { event := e }).1 }, .inl .attest)
  | .attest => some (s, .inl (attestStage r c s.registry e))
  | .close status error =>
    some ({ s with state := s.state.updateEventStatus e.eventId status error },
      .inr { eventId := e.eventId, status, error })
  | .gate => some (s, .inl (gateStage r s.registry e))
  | .mint =>
    match e, s.minterLock with
    | .deposit d, none =>
      match s.minter.processDeposit r d with
      | .ok (receipt, minter) =>
        some ({ s with
            minter, minterLock := some i
            ledger := s.ledger ++ [.minted d.eventId], deposited := s.deposited ++ [d] },
          .inl (.minted receipt.saltCredited))
      | .error err => some ({ s with minterLock := some i }, .inl (.failed err))
    | _, _ => none
  | .minted salt =>
    some ({ s with
        state := (s.state.updateEventStatus e.eventId .processed none).recordDeposit salt
        minterLock := none },
      .inr { eventId := e.eventId, status := .processed, saltAmount := some salt })
  | .failed err =>
    some ({ s with
        state := s.state.updateEventStatus e.eventId .failed (some (toString err))
        minterLock := none },
      .inr { eventId := e.eventId, status := .failed, error := some (toString err) })
  | .release =>
    match e with
    | .withdrawal w =>
      some ({ s with
          state := (s.state.updateEventStatus w.eventId .processed none).recordWithdrawal w.saltAmount
          ledger := s.ledger ++ [.withdrawn w.eventId] },
        .inr { eventId := w.eventId, status := .processed, saltAmount := some w.saltAmount })
    | _ => none

structure EventSource (φ : Type) where
  currentBlock : Except BridgeError UInt64
  fetchEvents : UInt64 → UInt64 → Except BridgeError (List (BridgeEvent φ))

inductive RegistryOp
  | register (id : OracleId)
  | remove (id : OracleId)
  | deactivate (id : OracleId)
  | setThreshold (threshold : ℕ)
  | submit (now : UInt64) (a : OracleAttestation)

def RegistryOp.apply (reg : OracleRegistry) : RegistryOp → OracleRegistry
  | .register id => (reg.registerOracle id).toOption.getD reg
  | .remove id => (reg.removeOracle id).toOption.getD reg
  | .deactivate id => (reg.deactivateOracle id).toOption.getD reg
  | .setThreshold n => (reg.setThreshold n).toOption.getD reg
  | .submit now a => (reg.submitAttestation r now a).1

inductive RelayCall (φ : Type)
  | pollCycle (paused : Bool) (source : EventSource φ)
  | retryEvent (eventId : EventId) (source : EventSource φ)
  | oracle (op : RegistryOp)

inductive Caller (φ : Type)
  | poll (safeBlock : UInt64) (rest : List (BridgeEvent φ)) (results : List ProcessingResult)
  | retry

inductive CallPhase (φ : Type)
  | start
  | retrying (tracked : TrackedEvent φ)
  | processing (e : BridgeEvent φ) (stage : Stage) (caller : Caller φ)
  | finish (safeBlock : UInt64) (results : List ProcessingResult)
  | ended (result : Except BridgeError (List ProcessingResult))

def nextEvent (safeBlock : UInt64) (results : List ProcessingResult) : List (BridgeEvent φ) → CallPhase φ
  | [] => .finish safeBlock results
  | e :: rest => .processing e .known (.poll safeBlock rest results)

def Caller.resume (result : ProcessingResult) : Caller φ → CallPhase φ
  | .poll safeBlock rest results => nextEvent safeBlock (results ++ [result]) rest
  | .retry => .ended (.ok [result])

/-- The read of the last processed block and what the poll then does before its next lock. -/
def pollStart (s : RelayState φ) (paused : Bool) (source : EventSource φ) : CallPhase φ :=
  if paused then .ended (.error (.bridgePaused "Relay is paused"))
  else
    match source.currentBlock with
    | .error e => .ended (.error e)
    | .ok sourceHead =>
      let safeBlock := Word.saturatingSub sourceHead c.confirmationDepth
      if safeBlock ≤ s.lastEthBlock then .ended (.ok [])
      else
        match source.fetchEvents (Word.saturatingAdd s.lastEthBlock 1) safeBlock with
        | .error e => .ended (.error e)
        | .ok events => nextEvent safeBlock [] events

def retryStart (s : RelayState φ) (id : EventId) : CallPhase φ :=
  match s.events[id]? with
  | none => .ended (.error (.eventNotFound id))
  | some t =>
    if t.status ≠ .failed then
      .ended (.error (.invalidEventData s!"Cannot retry event in {t.status.debug} status"))
    else if c.maxRetries ≤ t.retryCount then
      .ended (.error (.retryExhausted t.retryCount (t.error.getD "")))
    else .retrying t

def retryProceed (source : EventSource φ) (t : TrackedEvent φ) : CallPhase φ :=
  match source.currentBlock with
  | .error e => .ended (.error e)
  | .ok _ => .processing t.event .known .retry

variable (calls : ι → RelayCall φ)

def callStep (i : ι) (s : Relay φ ι) : CallPhase φ → Option (Relay φ ι × CallPhase φ)
  | .start =>
    match calls i with
    | .pollCycle paused source => some (s, pollStart c s.state paused source)
    | .retryEvent id _ => some (s, retryStart c s.state id)
    | .oracle op => some ({ s with registry := op.apply r s.registry }, .ended (.ok []))
  | .retrying t =>
    match calls i with
    | .retryEvent id source =>
      some ({ s with state := s.state.countRetry id }, retryProceed source t)
    | _ => none
  | .processing e stage caller =>
    (processStep r c i s e stage).map fun
      | (s', .inl stage') => (s', .processing e stage' caller)
      | (s', .inr result) => (s', caller.resume result)
  | .finish safeBlock results =>
    some ({ s with state := { s.state with lastEthBlock := safeBlock } }, .ended (.ok results))
  | .ended _ => none

end CitrateChain.Bridge
