import CitrateChain.Consensus.GuardedFinalization

/-! # Settled heights

`ensure_proposed` compares its height with the latest finalized one under one lock and inserts
under another, so a finalization in between closes the height before the insertion. -/
namespace CitrateChain.Consensus.CheckpointManager
open Transition

variable {m : Manager} {s s' : State} {i : CallId} {e : Event} {p : Proposal}

def Call.compared : Call → Option Proposal
  | .proposeMemory p | .proposeStore p | .proposeBlock p | .proposeInsert p => some p
  | _ => none

def State.OnlyAbove (s : State) (height : UInt64) : Prop :=
  ∀ j p, (s.calls j).compared = some p → height < p.height

/-- A finalization raises the latest height only while no proposal it closes is past its
comparison. -/
def InTurn (m : Manager) (s : State) (l : CallId × Event) (s' : State) : Prop :=
  Step m s l s' ∧ ∀ f, s.calls l.1 = .finalizeLatest f → s.OnlyAbove f.height

theorem Step.compared (hs : Step m s (i, e) s') (hp : (s'.calls i).compared = some p) :
    (s.calls i).compared = some p ∨ s.latestFinalizedHeight < p.height := by
  cases hs with
  | dagStore => exact .inl hp
  | propose | proposeLatest | proposeMemory | proposeStore | proposeBlock | finalizeLock =>
    simp only [State.goto, Function.update_self] at hp
    split at hp <;> simp_all [Call.compared]
  | _ => simp [State.goto, State.finish, Call.compared] at hp

theorem Step.latest (hs : Step m s (i, e) s') : s'.latestFinalizedHeight = s.latestFinalizedHeight ∨
      ∃ f, s.calls i = .finalizeLatest f ∧
        s'.latestFinalizedHeight = max s.latestFinalizedHeight f.height := by
  cases hs with
  | finalizeLatest hc => exact .inr ⟨_, hc, rfl⟩
  | _ => exact .inl rfl

theorem InTurn.onlyAbove (hs : InTurn m s (i, e) s') (h : s.OnlyAbove s.latestFinalizedHeight) :
    s'.OnlyAbove s'.latestFinalizedHeight := by
  intro j p hp
  have hbefore : s.latestFinalizedHeight < p.height := by
    by_cases hj : j = i
    · subst hj
      exact (hs.1.compared hp).elim (h j p) id
    · rw [hs.1.calls_of_ne hj] at hp
      exact h j p hp
  rcases hs.1.latest with hl | ⟨f, hf, hl⟩
  · rwa [hl]
  · -- the call that raises the height compares nothing, so `p` was past its comparison before
    have hne : j ≠ i := by
      rintro rfl
      cases hs.1 <;> simp_all [State.goto, Call.compared]
    rw [hs.1.calls_of_ne hne] at hp
    rw [hl]
    exact max_lt hbefore (hs.2 f hf j p hp)

/-- Settled heights stay closed in every run whose finalizations come in turn: a call that is about
to insert its proposal has a height above the latest finalized one. -/
theorem inserts_above_latest {s₀ : State} (hf : Fresh s₀) {es : List (CallId × Event)}
    (hr : Runs (InTurn m) s₀ es s) (hc : s.calls i = .proposeInsert p) :
    s.latestFinalizedHeight < p.height := by
  have h : s.OnlyAbove s.latestFinalizedHeight := by
    refine hr.invariant (P := fun s => s.OnlyAbove s.latestFinalizedHeight) ?_
      fun _ _ _ h hs => hs.onlyAbove h
    intro j p hp
    rw [hf.calls j] at hp
    cases hp
  exact h i p (by rw [hc]; rfl)

def openManager : Manager := ⟨⟨10, 40204⟩, fun _ _ _ => true, false, false⟩

def eight : Proposal := ⟨20, 8#256, [1, 2, 3, 4]⟩

theorem inserts_above_latest_eight : ∃ es s, Runs (InTurn openManager) (initial {7#256, 8#256}) es s ∧
    s.calls 5 = .proposeInsert eight ∧ s.latestFinalizedHeight = 10 ∧
    s.latestFinalizedHeight < eight.height := by
  have hr : ∃ es s, Runs (InTurn openManager) (initial {7#256, 8#256}) es s ∧
      s.calls 5 = .proposeInsert eight ∧ s.latestFinalizedHeight = 10 := by
    refine ⟨_, _,
      .head ⟨.propose (i := 0) seven rfl, nofun⟩ <| .head ⟨.proposeLatest (i := 0) rfl, nofun⟩ <|
      .head ⟨.proposeMemory (i := 0) rfl, nofun⟩ <| .head ⟨.proposeStore (i := 0) rfl, nofun⟩ <|
      .head ⟨.proposeBlock (i := 0) rfl, nofun⟩ <|
      .head ⟨.proposeInsert (i := 0) rfl rfl rfl, nofun⟩ <|
      .head ⟨.vote (i := 1) ⟨10, 7#256, 1, 0⟩ rfl rfl rfl, nofun⟩ <|
      .head ⟨.vote (i := 2) ⟨10, 7#256, 2, 0⟩ rfl rfl rfl, nofun⟩ <|
      .head ⟨.vote (i := 3) ⟨10, 7#256, 3, 0⟩ rfl rfl rfl, nofun⟩ <|
      .head ⟨.propose (i := 5) eight rfl, nofun⟩ <| .head ⟨.proposeLatest (i := 5) rfl, nofun⟩ <|
      .head ⟨.proposeMemory (i := 5) rfl, nofun⟩ <| .head ⟨.proposeStore (i := 5) rfl, nofun⟩ <|
      .head ⟨.finalize (i := 4) 10 rfl, nofun⟩ <| .head ⟨.finalizeLock (i := 4) rfl rfl, nofun⟩ <|
      .head ⟨.settleOk (i := 4) none rfl rfl rfl, nofun⟩ <|
      .head ⟨.finalizeDag (i := 4) rfl, nofun⟩ <| .head ⟨.finalizeLatest (i := 4) rfl, ?_⟩ <|
      .head ⟨.finalizeRecord (i := 4) rfl, nofun⟩ <| .head ⟨.finalizeMarkers (i := 4) rfl, nofun⟩ <|
      .head ⟨.finalizeUnlock (i := 4) rfl, nofun⟩ <|
      .head ⟨.proposeBlock (i := 5) rfl, nofun⟩ .refl, rfl, rfl⟩
    intro f hf j p hp
    cases hf
    rcases j with _ | _ | _ | _ | _ | _ | j
    case succ.succ.succ.succ.succ.zero =>
      cases hp
      decide
    all_goals cases hp
  obtain ⟨es, s, hr, hc, hl⟩ := hr
  exact ⟨es, s, hr, hc, hl, inserts_above_latest (fresh_initial _) hr hc⟩

theorem settled_height_reopened : ∃ es s s', Runs (Step openManager) (initial {7#256}) es s ∧
    s.calls 0 = .proposeInsert seven ∧ Step openManager s (0, .silent) s' ∧
    s'.calls 0 = .proposed (.ok .proposed) ∧ seven.height ≤ s.latestFinalizedHeight :=
  ⟨_, _, _, .head (.propose (i := 0) seven rfl) <| .head (.proposeLatest (i := 0) rfl) <|
    .head (.proposeMemory (i := 0) rfl) <| .head (.proposeStore (i := 0) rfl) <|
    .head (.proposeBlock (i := 0) rfl) <| .head (.propose (i := 1) seven rfl) <|
    .head (.proposeLatest (i := 1) rfl) <| .head (.proposeMemory (i := 1) rfl) <|
    .head (.proposeStore (i := 1) rfl) <| .head (.proposeBlock (i := 1) rfl) <|
    .head (.proposeInsert (i := 1) rfl rfl rfl) <|
    .head (.vote (i := 2) ⟨10, 7#256, 1, 0⟩ rfl rfl rfl) <|
    .head (.vote (i := 3) ⟨10, 7#256, 2, 0⟩ rfl rfl rfl) <|
    .head (.vote (i := 4) ⟨10, 7#256, 3, 0⟩ rfl rfl rfl) <| .head (.finalize (i := 5) 10 rfl) <|
    .head (.finalizeLock (i := 5) rfl rfl) <| .head (.settleOk (i := 5) none rfl rfl rfl) <|
    .head (.finalizeDag (i := 5) rfl) <| .head (.finalizeLatest (i := 5) rfl) <|
    .head (.finalizeRecord (i := 5) rfl) <| .head (.finalizeMarkers (i := 5) rfl) <|
    .head (.finalizeUnlock (i := 5) rfl) .refl, rfl, .proposeInsert rfl rfl rfl, rfl, by decide⟩

end CitrateChain.Consensus.CheckpointManager
