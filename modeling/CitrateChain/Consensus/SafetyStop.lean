import CitrateChain.Base.Lock
import CitrateChain.Consensus.CheckpointManager
import CitrateChain.Consensus.SignedVotes

/-! # The safety stop

The stop is a flag behind a gate. A signing attempt holds the gate from its check of the flag until
its vote is queued, and the flag is only written by a call that holds the gate. So the flag cannot be
raised under an attempt that goes on, and no attempt goes on once it is raised. -/
namespace CitrateChain.Consensus.SafetyStop
open CheckpointManager SignedVotes

structure Request where
  height : UInt64
  blockHash : Hash

inductive Call
  | idle
  | signing (r : Request)
  | checking (r : Request)
  | permitted (r : Request)
  | authorizing (r : Request)
  | authorized (r : Request)
  | signed (vote : CheckpointVote)
  | submitting (vote : CheckpointVote)
  | refused (why : SignRefusal)
  | notAccepted (e : CheckpointError)
  | queued (vote : CheckpointVote)
  | storing (engaged : Bool)
  | gated (engaged : Bool)
  | stored (engaged : Bool)
  | returned (engaged : Bool)

def Call.HoldsGate : Call → Prop
  | checking _ | permitted _ | authorizing _ | authorized _ | signed _ | submitting _ => True
  | gated _ | stored _ => True
  | _ => False

/-- The flag as a call that holds the gate knows it: down under a permit, and as it has stored it. -/
def Call.Knows (engaged : Bool) : Call → Prop
  | permitted _ | authorizing _ | authorized _ | signed _ | submitting _ => engaged = false
  | stored value => engaged = value
  | _ => True

structure Signer where
  manager : Manager
  config : GadgetConfig
  voter : PublicKey
  sign : Bytes → Signature

def Signer.vote (g : Signer) (r : Request) : CheckpointVote :=
  ⟨r.height, r.blockHash, g.voter,
    g.sign (canonicalVoteMessage g.manager.config.chainId r.height r.blockHash)⟩

structure State where
  gate : Option CallId
  engaged : Bool
  signState : SignState
  pending : Checkpoints
  voted : Voted
  calls : CallId → Call

def State.goto (s : State) (i : CallId) (c : Call) : State :=
  { s with calls := Function.update s.calls i c }

def State.leave (s : State) (i : CallId) (c : Call) : State := { s.goto i c with gate := none }

inductive Event
  | silent
  | authorize (r : Request)
  | sign (vote : CheckpointVote)
  | queue (vote : CheckpointVote)
  | clear
  | engageReturned

def Event.OwnVote : Event → Prop
  | authorize _ | sign _ | queue _ => True
  | _ => False

inductive Step (g : Signer) : State → CallId × Event → State → Prop
  | attempt {s i} (r : Request) (hc : s.calls i = .idle) :
      Step g s (i, .silent) (s.goto i (.signing r))
  | lock {s i r} (hc : s.calls i = .signing r) (hl : s.gate = none) :
      Step g s (i, .silent) { s.goto i (.checking r) with gate := some i }
  | permit {s i r} (hc : s.calls i = .checking r) :
      Step g s (i, .silent)
        (if s.engaged then s.leave i (.refused .halted) else s.goto i (.permitted r))
  | recheck {s i r} (hc : s.calls i = .permitted r) :
      Step g s (i, .silent)
        (if s.engaged then s.leave i (.refused .halted) else s.goto i (.authorizing r))
  | refuse {s i r e st} (f : Faults) (hc : s.calls i = .authorizing r)
      (hr : authorizeSign g.config f s.signState r.height r.blockHash = (.error e, st)) :
      Step g s (i, .silent) { s.leave i (.refused e) with signState := st }
  | authorize {s i r st} (f : Faults) (hc : s.calls i = .authorizing r)
      (hr : authorizeSign g.config f s.signState r.height r.blockHash = (.ok (), st)) :
      Step g s (i, .authorize r) { s.goto i (.authorized r) with signState := st }
  | sign {s i r} (hc : s.calls i = .authorized r) :
      Step g s (i, .sign (g.vote r)) (s.goto i (.signed (g.vote r)))
  | recheckSigned {s i vote} (hc : s.calls i = .signed vote) :
      Step g s (i, .silent)
        (if s.engaged then s.leave i (.refused .halted) else s.goto i (.submitting vote))
  | submit {s i vote quorum pending voted} (hc : s.calls i = .submitting vote)
      (hr : submitVote g.manager vote s.pending s.voted = (.ok quorum, pending, voted)) :
      Step g s (i, .queue vote) { s.leave i (.queued vote) with pending, voted }
  | submitErr {s i vote e pending voted} (hc : s.calls i = .submitting vote)
      (hr : submitVote g.manager vote s.pending s.voted = (.error e, pending, voted)) :
      Step g s (i, .silent) { s.leave i (.notAccepted e) with pending, voted }
  | store {s i} (engaged : Bool) (hc : s.calls i = .idle) :
      Step g s (i, .silent) (s.goto i (.storing engaged))
  | storeLock {s i engaged} (hc : s.calls i = .storing engaged) (hl : s.gate = none) :
      Step g s (i, .silent) { s.goto i (.gated engaged) with gate := some i }
  | write {s i engaged} (hc : s.calls i = .gated engaged) :
      Step g s (i, if engaged then .silent else .clear) { s.goto i (.stored engaged) with engaged }
  | writeReturn {s i engaged} (hc : s.calls i = .stored engaged) :
      Step g s (i, if engaged then .engageReturned else .silent) (s.leave i (.returned engaged))
  | other {s i} (signState : SignState) (pending : Checkpoints) (voted : Voted) :
      Step g s (i, .silent) { s with signState, pending, voted }

structure Guarded (s : State) : Prop where
  gate : HeldBy Call.HoldsGate s.calls s.gate
  knows : ∀ i, (s.calls i).Knows s.engaged

section Invariant
variable {g : Signer} {s s' : State} {i : CallId} {c : Call} {e : CallId × Event}

theorem Call.knows_of_not_holdsGate (h : ¬ c.HoldsGate) (engaged : Bool) : c.Knows engaged := by
  cases c with
  | permitted | authorizing | authorized | signed | submitting | stored => exact absurd trivial h
  | _ => trivial

theorem holdsGate_of_eq (hc : s.calls i = c) (h : c.HoldsGate) : (s.calls i).HoldsGate := hc ▸ h

variable (h : Guarded s)
include h

theorem Guarded.knows_of_eq (hc : s.calls i = c) : c.Knows s.engaged := hc ▸ h.knows i

omit h in
theorem goto_knows {engaged : Bool} (hi : c.Knows engaged)
    (hother : ∀ j, j ≠ i → (s.calls j).Knows engaged) (j : CallId) :
    ((s.goto i c).calls j).Knows engaged :=
  (Function.forall_update_iff s.calls fun _ c => c.Knows engaged).mpr ⟨hi, hother⟩ j

theorem Guarded.goto (hgate : (s.calls i).HoldsGate ↔ c.HoldsGate) (hknows : c.Knows s.engaged) :
    Guarded (s.goto i c) :=
  ⟨h.gate.keep hgate, goto_knows hknows fun j _ => h.knows j⟩

theorem Guarded.enter (hfree : s.gate = none) (hgate : c.HoldsGate) (hknows : c.Knows s.engaged) :
    Guarded { s.goto i c with gate := some i } :=
  ⟨(hfree ▸ h.gate).take hgate, goto_knows hknows fun j _ => h.knows j⟩

theorem Guarded.leave (hheld : (s.calls i).HoldsGate) (hgate : ¬ c.HoldsGate) :
    Guarded (s.leave i c) :=
  ⟨h.gate.release hheld hgate, goto_knows (c.knows_of_not_holdsGate hgate _) fun j _ => h.knows j⟩

theorem Guarded.write {engaged : Bool} (hc : s.calls i = .gated engaged) :
    Guarded { s.goto i (.stored engaged) with engaged } := by
  have hheld := holdsGate_of_eq hc trivial
  refine ⟨h.gate.keep (iff_of_true hheld trivial), goto_knows rfl fun j hne => ?_⟩
  exact Call.knows_of_not_holdsGate (fun hj => hne (h.gate.alone hheld hj)) engaged

theorem Guarded.check (hheld : (s.calls i).HoldsGate) (hgate : c.HoldsGate)
    (hknows : s.engaged = false → c.Knows s.engaged) :
    Guarded (if s.engaged then s.leave i (.refused .halted) else s.goto i c) := by
  split
  · exact h.leave hheld id
  · rename_i hclear
    exact h.goto (iff_of_true hheld hgate) (hknows (Bool.eq_false_of_not_eq_true hclear))

section

variable (hs : Step g s e s')
include hs

theorem Guarded.step : Guarded s' := by
  cases hs with
  | attempt r hc | store engaged hc => exact h.goto (by rw [hc]; exact iff_of_false id id) trivial
  | lock hc hl | storeLock hc hl => exact h.enter hl trivial trivial
  | permit hc | recheck hc | recheckSigned hc =>
    exact h.check (holdsGate_of_eq hc trivial) trivial id
  | @refuse _ _ why _ f hc hr =>
    have h' := h.leave (c := .refused why) (holdsGate_of_eq hc trivial) id
    exact ⟨h'.gate, h'.knows⟩
  | @authorize _ r _ f hc hr =>
    have hdown : s.engaged = false := h.knows_of_eq hc
    have h' := h.goto (c := .authorized r) (iff_of_true (holdsGate_of_eq hc trivial) trivial) hdown
    exact ⟨h'.gate, h'.knows⟩
  | sign hc =>
    have hdown : s.engaged = false := h.knows_of_eq hc
    exact h.goto (iff_of_true (holdsGate_of_eq hc trivial) trivial) hdown
  | @submit _ vote _ _ _ hc hr =>
    have h' := h.leave (c := .queued vote) (holdsGate_of_eq hc trivial) id
    exact ⟨h'.gate, h'.knows⟩
  | @submitErr _ _ why _ _ hc hr =>
    have h' := h.leave (c := .notAccepted why) (holdsGate_of_eq hc trivial) id
    exact ⟨h'.gate, h'.knows⟩
  | write hc => exact h.write hc
  | writeReturn hc => exact h.leave (holdsGate_of_eq hc trivial) id
  | other signState pending voted => exact ⟨h.gate, h.knows⟩

theorem Guarded.ownVote (he : e.2.OwnVote) : s.engaged = false := by
  cases hs with
  | authorize f hc hr | sign hc | submit hc hr => exact h.knows_of_eq hc
  | @write _ engaged hc | @writeReturn _ engaged hc =>
    cases engaged with
    | false => exact he.elim
    | true => exact he.elim
  | _ => exact he.elim

omit h in
theorem engaged_of_step (hup : s.engaged = true) (hclear : e.2 ≠ .clear) : s'.engaged = true := by
  cases hs with
  | permit hc | recheck hc | recheckSigned hc =>
    rw [if_pos hup]
    exact hup
  | @write _ engaged hc =>
    cases engaged with
    | true => rfl
    | false => exact absurd rfl hclear
  | _ => exact hup

theorem Guarded.engageReturned (he : e.2 = .engageReturned) : s'.engaged = true := by
  cases hs with
  | @writeReturn _ engaged hc =>
    cases engaged with
    | true => exact h.knows_of_eq hc
    | false => cases he
  | @write _ engaged hc =>
    cases engaged with
    | true => cases he
    | false => cases he
  | _ => cases he

end

theorem no_own_vote_of_engaged {es : List (CallId × Event)} (hup : s.engaged = true)
    (hrun : Transition.Runs (Step g) s es s') (hclear : ∀ e ∈ es, e.2 ≠ .clear) :
    ∀ e ∈ es, ¬ e.2.OwnVote := by
  induction es generalizing s with
  | nil => exact List.forall_mem_nil _
  | cons e es ih =>
    obtain ⟨t, hs, hrest⟩ := hrun.cons_inv
    have hup' := engaged_of_step hs hup (hclear e List.mem_cons_self)
    have hes := ih (h.step hs) hup' hrest fun e he => hclear e (List.mem_cons_of_mem _ he)
    refine List.forall_mem_cons.mpr ⟨fun hown => ?_, hes⟩
    exact nomatch hup.symm.trans (h.ownVote hs hown)

end Invariant

def State.Fresh (s : State) : Prop := s.gate = none ∧ ∀ i, s.calls i = .idle

theorem Guarded.of_fresh {s : State} (h : s.Fresh) : Guarded s := by
  refine ⟨fun i => ?_, fun i => ?_⟩
  · rw [h.1, h.2 i]
    exact iff_of_false id nofun
  · rw [h.2 i]
    trivial

private def zeroSigner : Signer where
  manager := ⟨⟨10, 1⟩, fun _ _ _ => true, false, false⟩
  config := ⟨1, 10, true, true⟩
  voter := 0
  sign _ := 0

private def idleGadget : State := ⟨none, false, ⟨none, fun _ => none⟩, ∅, ∅, fun _ => .idle⟩

end CitrateChain.Consensus.SafetyStop
