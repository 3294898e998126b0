import CitrateChain.Consensus.CheckpointInvariant

/-! # Guarded finalization

With a finalization guard and a persistent store, whatever runs while the guard does: nothing
becomes visible before its certificate is stored, a call whose guard has run returns that
certificate or an extension of it, and a call that fails has changed nothing. -/
namespace CitrateChain.Consensus.CheckpointManager
open Checkpoint Transition State

variable {m : Manager} {Allowed : UInt64 → List PublicKey → Prop}
variable {s s' : State} {i j : CallId} {e : Event} {seen : Checkpoint}

def GuardRan (seen : Checkpoint) : Call → Prop
  | .finalizeSettle _ guarded => guarded = some seen
  | .finalizeDag f | .finalizeLatest f | .finalizeRecord f | .finalizeMarkers f |
    .finalizeUnlock f | .finalizeAfter f => f.guarded = some seen
  | .finalized r => ∃ cp, r = .ok cp ∧ cp.extendsCertificate seen = true
  | _ => False

def OtherCall : Call → Prop
  | .proposeLatest _ | .proposeMemory _ | .proposeStore _ | .proposeBlock _ | .proposeInsert _ |
    .proposed _ | .voted _ | .pruneVoted _ | .pruned => True
  | _ => False

theorem Step.calls_of_ne (hs : Step m s (i, e) s') (hj : j ≠ i) : s'.calls j = s.calls j := by
  cases hs <;> first
    | rfl
    | exact Function.update_of_ne hj _ _

theorem Step.otherCall (hs : Step m s (i, e) s') (ho : OtherCall (s.calls j)) :
    OtherCall (s'.calls j) := by
  by_cases hj : j = i
  · subst hj
    cases hs with
    | dagStore => exact ho
    | proposeLatest hc | proposeMemory hc | proposeStore hc | proposeBlock hc =>
      simp only [goto, Function.update_self]
      split <;> trivial
    | proposeInsert hc | pruneVoted hc =>
      simp only [goto, Function.update_self]
      trivial
    | _ => simp_all [OtherCall]
  · rw [hs.calls_of_ne hj]
    exact ho

def Unguarded : Call → Prop
  | .finalizeSettle _ guarded => guarded = none
  | .finalizeDag f | .finalizeLatest f | .finalizeRecord f | .finalizeMarkers f |
    .finalizeUnlock f | .finalizeAfter f => f.guarded = none
  | _ => False

theorem Step.not_unguarded (hm : m.guarded = true) (hs : Step m s (i, e) s')
    (hu : ¬ Unguarded (s.calls j)) : ¬ Unguarded (s'.calls j) := by
  by_cases hj : j = i
  · subst hj
    cases hs with
    | dagStore => exact hu
    | propose | proposeLatest | proposeMemory | proposeStore | proposeBlock =>
      simp only [goto, Function.update_self]
      split <;> exact id
    | _ => simp_all [Unguarded, goto, finish]
  · rw [hs.calls_of_ne hj]
    exact hu

theorem Step.guardRan (hi : Inv m Allowed s) (hs : Step m s (i, e) s')
    (hg : GuardRan seen (s.calls j)) : GuardRan seen (s'.calls j) := by
  by_cases hj : j = i
  · subst hj
    have hcall := hi.calls j
    cases hs with
    | dagStore => exact hg
    | settleErr fault hc hl hr =>
      rw [hc] at hg hcall
      have hnone := (settle_ok hi.pending (guardOk_of_call hcall) hr).2.2 _ rfl
      rw [GuardRan, hnone] at hg
      cases hg
    | finalizeAfter hc =>
      rw [hc] at hg hcall
      simp only [finish, goto, Function.update_self]
      exact ⟨_, rfl, hcall.extends_guarded seen hg⟩
    | _ => simp_all [GuardRan, goto]
  · rw [hs.calls_of_ne hj]
    exact hg

theorem Step.guardRan_of_beforeFinalize (hs : Step m s (i, .beforeFinalize seen) s') :
    GuardRan seen (s'.calls i) := by
  cases hs with
  | beforeFinalize hc =>
    simp only [goto, Function.update_self]
    rfl

def Call.remaining : Call → ℕ
  | .finalizeSettle .. => 7
  | .finalizeDag _ => 6
  | .finalizeLatest _ => 5
  | .finalizeRecord _ => 4
  | .finalizeMarkers _ => 3
  | .finalizeUnlock _ => 2
  | .finalizeAfter _ => 1
  | _ => 0

theorem Inv.pendingLock_free (hi : Inv m Allowed s) (hs : (s.calls i).holdsSerial = true)
    (hp : (s.calls i).holdsPending = false) : s.pendingLock = none := by
  cases hl : s.pendingLock with
  | none => rfl
  | some k =>
    have hk := hi.lock k hl
    rw [hi.holdsSerial_unique hs (Call.holdsSerial_of_holdsPending hk), hp] at hk
    cases hk

theorem Inv.guardRan_progress (hi : Inv m Allowed s) (hg : GuardRan seen (s.calls i)) :
    (∃ cp, s.calls i = .finalized (.ok cp) ∧ cp.extendsCertificate seen = true) ∨
      ∃ s' e, Step m s (i, e) s' ∧ (∀ p, e ≠ .propose p) ∧
        (s'.calls i).remaining < (s.calls i).remaining := by
  have hcall := hi.calls i
  cases hc : s.calls i with
  | finalizeSettle height guarded =>
    rw [hc] at hg hcall
    have hlock := hi.pendingLock_free (i := i) (by rw [hc]; rfl) (by rw [hc]; rfl)
    obtain ⟨r, pending, certs, hr⟩ : ∃ r pending certs,
        settle m none height guarded s.pending s.certificates = (r, pending, certs) := ⟨_, _, _, rfl⟩
    cases r with
    | error e =>
      rw [GuardRan, (settle_ok hi.pending (guardOk_of_call hcall) hr).2.2 e rfl] at hg
      cases hg
    | ok cp =>
      refine .inr ⟨_, _, .settleOk none hc hlock hr, by simp, ?_⟩
      simp [goto, Call.remaining]
  | finalizeDag f =>
    exact .inr ⟨_, _, .finalizeDag hc, by simp, by simp [goto, Call.remaining]⟩
  | finalizeLatest f =>
    exact .inr ⟨_, _, .finalizeLatest hc, by simp, by simp [goto, Call.remaining]⟩
  | finalizeRecord f =>
    exact .inr ⟨_, _, .finalizeRecord hc, by simp, by simp [goto, Call.remaining]⟩
  | finalizeMarkers f =>
    exact .inr ⟨_, _, .finalizeMarkers hc, by simp, by simp [goto, Call.remaining]⟩
  | finalizeUnlock f =>
    exact .inr ⟨_, _, .finalizeUnlock hc, by simp, by simp [State.goto, Call.remaining]⟩
  | finalizeAfter f =>
    exact .inr ⟨_, _, .finalizeAfter hc, by simp, by simp [State.finish, State.goto, Call.remaining]⟩
  | finalized r =>
    rw [hc] at hg
    obtain ⟨cp, rfl, he⟩ := hg
    exact .inl ⟨cp, rfl, he⟩
  | _ =>
    rw [hc] at hg
    exact hg.elim

theorem Inv.guardRan_returns (hi : Inv m Allowed s) (hg : GuardRan seen (s.calls i)) :
    ∃ es s' cp, Runs (Step m) s es s' ∧ (∀ l ∈ es, l.1 = i) ∧
      s'.calls i = .finalized (.ok cp) ∧ cp.extendsCertificate seen = true := by
  -- Induction on the steps left; each step keeps the invariant and `GuardRan`.
  induction hn : (s.calls i).remaining using Nat.strong_induction_on generalizing s with
  | _ n ih =>
    rcases hi.guardRan_progress hg with ⟨cp, hc, he⟩ | ⟨t, e, hs, hp, hlt⟩
    · exact ⟨[], s, cp, .refl, by simp, hc, he⟩
    · obtain ⟨es, s', cp, hr, hes, hc, he⟩ := ih _ (hn ▸ hlt)
        (hi.step hs fun p he => absurd he (hp p)) (hs.guardRan hi hg) rfl
      exact ⟨(i, e) :: es, s', cp, hr.head hs, by simpa using hes, hc, he⟩

def SameVisible (s s' : State) : Prop :=
  s'.latestFinalizedHeight = s.latestFinalizedHeight ∧ s'.dagFinalized = s.dagFinalized ∧
    s'.finalized = s.finalized

structure Publishes (s s' : State) (height : UInt64) (cp : Checkpoint) : Prop where
  latest : s'.latestFinalizedHeight ∈ [s.latestFinalizedHeight, max s.latestFinalizedHeight height]
  dag : s'.dagFinalized ⊆ insert cp.blockHash s.dagFinalized
  finalized : ∀ (k : UInt64) (c : Checkpoint), s'.finalized[k]? = some c →
    s.finalized[k]? = some c ∨ (k = height ∧ c = cp)

theorem trimFinalized_sub (finalized : Checkpoints) :
    TreeMap.Sub (trimFinalized finalized) finalized := by
  unfold trimFinalized
  split
  · exact .refl _
  · exact TreeMap.foldl_erase_sub _ _

theorem Inv.publishes (hm : m.persistent = true) (hi : Inv m Allowed s) (hs : Step m s (i, e) s') :
    SameVisible s s' ∨ ∃ height cp c, Publishes s s' height cp ∧ Certified m Allowed height cp ∧
      s.certificates height = some (some c) ∧ c.blockHash = cp.blockHash ∧
      Certified m Allowed height c := by
  suffices h : SameVisible s s' ∨
      ∃ f, Settled m Allowed s.certificates f ∧ Publishes s s' f.height f.checkpoint by
    refine h.imp id fun ⟨f, hf, hpub⟩ => ?_
    obtain ⟨c, hstored, hb, hcert⟩ := hf.durable hm
    exact ⟨_, _, c, hpub, hf.certified, hstored, hb, hcert⟩
  have hcall := hi.calls i
  cases hs with
  | finalizeDag hc =>
    rw [hc] at hcall
    refine .inr ⟨_, hcall, by simp [goto], ?_, fun k c h => .inl h⟩
    dsimp only
    split
    · exact subset_rfl
    · exact Finset.subset_insert _ _
  | finalizeLatest hc =>
    rw [hc] at hcall
    exact .inr ⟨_, hcall, by simp, Finset.subset_insert _ _, fun k c h => .inl h⟩
  | finalizeRecord hc =>
    rw [hc] at hcall
    refine .inr ⟨_, hcall, by simp [goto], Finset.subset_insert _ _, fun k c h => ?_⟩
    rcases TreeMap.getElem?_insert_eq_some.mp (trimFinalized_sub _ k c h) with ⟨hk, hc⟩ | ⟨-, hk⟩
    · exact .inr ⟨hk.symm, hc.symm⟩
    · exact .inl hk
  | _ => exact .inl ⟨rfl, rfl, rfl⟩

theorem Step.touches (hs : Step m s (i, e) s') :
    (s'.pending = s.pending ∧ s'.latestFinalizedHeight = s.latestFinalizedHeight ∧
      s'.finalized = s.finalized) ∨
    OtherCall (s'.calls i) ∨ Unguarded (s.calls i) ∨ ∃ seen, GuardRan seen (s.calls i) := by
  have hsettle : ∀ {g : Option Checkpoint}, g = none ∨ ∃ seen, g = some seen := by
    intro g
    cases g <;> simp
  cases hs with
  | proposeInsert | vote | prune =>
    refine .inr (.inl ?_)
    simp [goto, OtherCall]
  | settleErr _ hc | settleOk _ hc | finalizeLatest hc | finalizeRecord hc =>
    rw [hc]
    exact .inr (.inr hsettle)
  | _ => exact .inl ⟨rfl, rfl, rfl⟩

variable {es : List (CallId × Event)}

theorem otherCall_runs (hr : Runs (Step m) s es s') (ho : OtherCall (s.calls j)) :
    OtherCall (s'.calls j) :=
  hr.invariant (P := fun s => OtherCall (s.calls j)) ho fun _ _ _ ho hs => hs.otherCall ho

abbrev AnyCommittee : UInt64 → List PublicKey → Prop := fun _ _ => True

theorem Inv.guardRan_runs (hi : Inv m AnyCommittee s) (hr : Runs (Step m) s es s')
    (hg : GuardRan seen (s.calls j)) : GuardRan seen (s'.calls j) :=
  (hr.invariant (P := fun s => Inv m AnyCommittee s ∧ GuardRan seen (s.calls j)) ⟨hi, hg⟩
    fun _ _ _ h hs => ⟨h.1.step hs fun _ _ => trivial, hs.guardRan h.1 h.2⟩).2

theorem Fresh.not_unguarded (hg : m.guarded = true) {s₀ : State} (hf : Fresh s₀)
    (hr : Runs (Step m) s₀ es s) (j : CallId) : ¬ Unguarded (s.calls j) :=
  hr.invariant (P := fun s => ¬ Unguarded (s.calls j)) (by rw [hf.calls j]; exact id)
    fun _ _ _ hu hs => hs.not_unguarded hg hu

theorem Fresh.guardRan {s₀ : State} (hf : Fresh s₀) (hr : Runs (Step m) s₀ es s)
    (hm : (i, Event.beforeFinalize seen) ∈ es) : GuardRan seen (s.calls i) := by
  induction hr with
  | refl => cases hm
  | @step as t a u hr hs ih =>
    obtain ⟨k, e⟩ := a
    rcases List.mem_append.mp hm with hm | hm
    · exact hs.guardRan (hf.runs AnyCommittee hr fun _ _ _ => trivial).1 (ih hm)
    · cases List.mem_singleton.mp hm
      exact hs.guardRan_of_beforeFinalize

/-- Guarded finalization. In every state a run reaches: what enters the finalized map verifies,
and nothing becomes visible before the store has a verified certificate for the same block; a call
whose guard has run returns `Ok` with the guarded certificate or an extension of it, and its own
steps take it there; and no step of a call that returned an error changed the pending entries,
the latest finalized height or the finalized map. -/
theorem guarded_finalization (hg : m.guarded = true) (hp : m.persistent = true) {s₀ : State}
    (hf : Fresh s₀) {es : List (CallId × Event)} (hr : Runs (Step m) s₀ es s) :
    (∀ i e s', Step m s (i, e) s' →
      (∀ (height : UInt64) (cp : Checkpoint), s'.finalized[height]? = some cp →
        s.finalized[height]? = some cp ∨ cp.verifyCertificate m.verify m.config.chainId = .ok ()) ∧
      (SameVisible s s' ∨ ∃ height cp c, Publishes s s' height cp ∧
        s.certificates height = some (some c) ∧ c.height = height ∧ c.blockHash = cp.blockHash ∧
        c.verifyCertificate m.verify m.config.chainId = .ok ())) ∧
    (∀ i seen, (i, Event.beforeFinalize seen) ∈ es →
      (∀ r, s.calls i = .finalized r → ∃ cp, r = .ok cp ∧ cp.extendsCertificate seen = true) ∧
      ∃ es' s' cp, Runs (Step m) s es' s' ∧ (∀ l ∈ es', l.1 = i) ∧
        s'.calls i = .finalized (.ok cp) ∧ cp.extendsCertificate seen = true) ∧
    (∀ i err, s.calls i = .finalized (.error err) → ∀ as bs t u e, es = as ++ (i, e) :: bs →
      Runs (Step m) s₀ as t → Step m t (i, e) u → Runs (Step m) u bs s →
      u.pending = t.pending ∧ u.latestFinalizedHeight = t.latestFinalizedHeight ∧
        u.finalized = t.finalized) := by
  have hi := (hf.runs AnyCommittee hr fun _ _ _ => trivial).1
  refine ⟨fun i e s' hs => ?_, fun i seen hseen => ?_, fun i err herr as bs t u e _ ht hs hu => ?_⟩
  · rcases hi.publishes hp hs with hsame | ⟨height, cp, c, hpub, hcert, hc, hb, hcc⟩
    · exact ⟨fun height cp h => .inl (hsame.2.2 ▸ h), .inl hsame⟩
    · refine ⟨fun k c' h => ?_, .inr ⟨height, cp, c, hpub, hc, hcc.height_eq, hb, hcc.verified⟩⟩
      rcases hpub.finalized k c' h with h | ⟨-, rfl⟩
      · exact .inl h
      · exact .inr hcert.verified
  · have hran := hf.guardRan hr hseen
    refine ⟨fun r hc => ?_, hi.guardRan_returns hran⟩
    rw [hc] at hran
    exact hran
  · rcases hs.touches with h | ho | hn | ⟨seen, hran⟩
    · exact h
    · have := otherCall_runs hu ho
      rw [herr] at this
      exact this.elim
    · exact absurd hn (hf.not_unguarded hg ht i)
    · have hti := (hf.runs AnyCommittee ht fun _ _ _ => trivial).1
      have := hti.guardRan_runs (hu.head hs) hran
      rw [herr] at this
      obtain ⟨cp, hcp, -⟩ := this
      cases hcp

def guardedManager : Manager := ⟨⟨10, 40204⟩, fun _ _ _ => true, true, true⟩

theorem guarded_finalization_three_of_four :
    ∃ (m : Manager) (s₀ s : State) (es : List (CallId × Event)) (i : CallId) (seen : Checkpoint),
      m.guarded = true ∧ m.persistent = true ∧ Fresh s₀ ∧ Runs (Step m) s₀ es s ∧
      (i, .beforeFinalize seen) ∈ es ∧ seen.blockHash = 7#256 ∧
      ∃ es' s' cp, Runs (Step m) s es' s' ∧ s'.calls i = .finalized (.ok cp) ∧
        cp.extendsCertificate seen = true := by
  obtain ⟨s, es, seen, hr, hi, hb⟩ : ∃ s es seen, Runs (Step guardedManager) (initial {7#256}) es s ∧
      (4, .beforeFinalize seen) ∈ es ∧ seen.blockHash = 7#256 :=
    ⟨_, _, _, .head (.propose (i := 0) seven rfl) <| .head (.proposeLatest (i := 0) rfl) <|
      .head (.proposeMemory (i := 0) rfl) <| .head (.proposeStore (i := 0) rfl) <|
      .head (.proposeBlock (i := 0) rfl) <| .head (.proposeInsert (i := 0) rfl rfl rfl) <|
      .head (.vote (i := 1) ⟨10, 7#256, 1, 0⟩ rfl rfl rfl) <|
      .head (.vote (i := 2) ⟨10, 7#256, 2, 0⟩ rfl rfl rfl) <|
      .head (.vote (i := 3) ⟨10, 7#256, 3, 0⟩ rfl rfl rfl) <| .head (.finalize (i := 4) 10 rfl) <|
      .head (.finalizeLock (i := 4) rfl rfl) <| .head (.candidateOk (i := 4) rfl rfl rfl) <|
      .head (.persistOk (i := 4) none rfl rfl) <| .head (.beforeFinalize (i := 4) rfl) .refl,
      List.mem_of_getElem? (i := 13) rfl, rfl⟩
  obtain ⟨-, hc, -⟩ := guarded_finalization rfl rfl (fresh_initial _) hr
  obtain ⟨-, es', s', cp, hr', -, hs', he⟩ := hc 4 seen hi
  exact ⟨_, _, s, es, 4, seen, rfl, rfl, fresh_initial _, hr, hi, hb, es', s', cp, hr', hs', he⟩

end CitrateChain.Consensus.CheckpointManager
