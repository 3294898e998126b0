import CitrateChain.Consensus.CheckpointManager

/-! # What every run of the checkpoint manager keeps

Pending votes are valid, a call past its certificate write has that certificate in the store, and
the two locks exclude what they should. `Allowed` restricts the committees that proposals bring;
it is carried to every certificate. -/
namespace CitrateChain.Consensus.CheckpointManager
open Std (ExtTreeMap)
open Checkpoint Transition Call

variable {m : Manager} {Allowed : UInt64 → List PublicKey → Prop}
variable {s s' : State} {i : CallId} {e : Event} {height : UInt64} {cp : Checkpoint}

structure PendingEntry (m : Manager) (Allowed : UInt64 → List PublicKey → Prop) (height : UInt64)
    (cp : Checkpoint) : Prop where
  height_eq : cp.height = height
  wellVoted : WellVoted m.verify m.config.chainId cp
  allowed : Allowed height cp.committee

structure Certified (m : Manager) (Allowed : UInt64 → List PublicKey → Prop) (height : UInt64)
    (cp : Checkpoint) : Prop where
  height_eq : cp.height = height
  verified : cp.verifyCertificate m.verify m.config.chainId = .ok ()
  allowed : Allowed height cp.committee

def PendingOk (m : Manager) (Allowed : UInt64 → List PublicKey → Prop) (pending : Checkpoints) :
    Prop :=
  ∀ (height : UInt64) (cp : Checkpoint), pending[height]? = some cp → PendingEntry m Allowed height cp

def Durable (m : Manager) (Allowed : UInt64 → List PublicKey → Prop) (certs : CertificateStore)
    (height : UInt64) (cp : Checkpoint) : Prop :=
  m.persistent = true → ∃ c, certs height = some (some c) ∧ c.blockHash = cp.blockHash ∧
    Certified m Allowed height c

structure Settled (m : Manager) (Allowed : UInt64 → List PublicKey → Prop)
    (certs : CertificateStore) (f : Finalization) : Prop where
  certified : Certified m Allowed f.height f.checkpoint
  durable : Durable m Allowed certs f.height f.checkpoint
  extends_guarded : ∀ seen, f.guarded = some seen → f.checkpoint.extendsCertificate seen = true

def CallOk (m : Manager) (Allowed : UInt64 → List PublicKey → Prop) (certs : CertificateStore) :
    Call → Prop
  | .proposeLatest p | .proposeMemory p | .proposeStore p | .proposeBlock p | .proposeInsert p =>
    Allowed p.height p.committee
  | .finalizePersist height cp => Certified m Allowed height cp
  | .finalizeGuard height cp | .finalizeSettle height (some cp) =>
    Certified m Allowed height cp ∧ Durable m Allowed certs height cp
  | .finalizeDag f | .finalizeLatest f | .finalizeRecord f | .finalizeMarkers f |
    .finalizeUnlock f | .finalizeAfter f => Settled m Allowed certs f
  | _ => True

def Call.holdsSerial : Call → Bool
  | .finalizeCandidate _ | .finalizePersist .. | .finalizeGuard .. | .finalizeSettle .. |
    .finalizeDag _ | .finalizeLatest _ | .finalizeRecord _ | .finalizeMarkers _ |
    .finalizeUnlock _ | .finalizeAfter _ => true
  | _ => false

def Call.holdsPending : Call → Bool
  | .finalizeDag _ | .finalizeLatest _ | .finalizeRecord _ | .finalizeMarkers _ |
    .finalizeUnlock _ => true
  | _ => false

structure Inv (m : Manager) (Allowed : UInt64 → List PublicKey → Prop) (s : State) : Prop where
  pending : PendingOk m Allowed s.pending
  calls : ∀ j, CallOk m Allowed s.certificates (s.calls j)
  serial : ∀ j, (s.calls j).holdsSerial = true → s.finalizeSerial = some j
  lock : ∀ j, s.pendingLock = some j → (s.calls j).holdsPending = true

variable {pending pending' : Checkpoints} {certs certs' : CertificateStore}
variable {guarded : Option Checkpoint} {c : Call}

theorem Call.holdsSerial_of_holdsPending (h : c.holdsPending = true) : c.holdsSerial = true := by
  cases c <;> simp_all [holdsPending, holdsSerial]

theorem CallOk.of_not_holdsSerial
    (h : c.holdsSerial = false) (hc : CallOk m Allowed certs c) : CallOk m Allowed certs' c := by
  cases c <;> simp_all [holdsSerial, CallOk]

theorem PendingEntry.insertVote {v : CheckpointVote} (hp : PendingEntry m Allowed height cp)
    (hm : v.voter ∈ cp.committee) (hb : v.blockHash = cp.blockHash) (hh : v.height = height)
    (hv : verifyVoteSignature m.verify v m.config.chainId = .ok ()) :
    PendingEntry m Allowed height { cp with votes := cp.votes.insert v.voter v.signature } := by
  refine ⟨hp.height_eq, fun voter sig hs => ?_, hp.allowed⟩
  rcases TreeMap.getElem?_insert_eq_some.mp hs with ⟨rfl, rfl⟩ | ⟨-, hs⟩
  · refine ⟨hm, ?_⟩
    have hv : m.verify v.voter (canonicalVoteMessage m.config.chainId v.height v.blockHash)
        v.signature = true := by
      by_contra hn
      simp [verifyVoteSignature, hn] at hv
    rwa [hb, hh, ← hp.height_eq] at hv
  · exact hp.wellVoted voter sig hs

theorem evict_sub (fuel : ℕ) (pending : Checkpoints) (voted : Voted) :
    TreeMap.Sub (evict fuel (pending, voted)).1 pending := by
  induction fuel generalizing pending voted with
  | zero => exact .refl _
  | succ fuel ih =>
    rw [evict]
    split
    · split
      · exact .refl _
      · exact (ih _ _).trans (TreeMap.erase_sub _ _)
    · exact .refl _

theorem PendingOk.sub (hp : PendingOk m Allowed pending)
    (hs : TreeMap.Sub pending' pending) : PendingOk m Allowed pending' :=
  fun height cp h => hp height cp (hs height cp h)

variable {pending : Checkpoints}

theorem PendingOk.insert (hp : PendingOk m Allowed pending)
    (hc : PendingEntry m Allowed height cp) : PendingOk m Allowed (pending.insert height cp) := by
  intro h c hh
  rcases TreeMap.getElem?_insert_eq_some.mp hh with ⟨rfl, rfl⟩ | ⟨-, hh⟩
  · exact hc
  · exact hp h c hh

variable {voted voted' : Voted}

theorem PendingOk.insertPending {p : Proposal} {o : ProposeOutcome}
    (hp : PendingOk m Allowed pending) (ha : Allowed p.height p.committee)
    (ho : CheckpointManager.insertPending p pending voted = (o, pending', voted')) :
    PendingOk m Allowed pending' := by
  unfold CheckpointManager.insertPending at ho
  split at ho
  · cases ho
    exact hp
  · cases ho
    refine (hp.sub (evict_sub _ _ _)).insert ⟨rfl, fun voter sig hs => ?_, ha⟩
    simp at hs

theorem PendingOk.submitVote {v : CheckpointVote} {r : Except CheckpointError Bool}
    (hp : PendingOk m Allowed pending)
    (hr : CheckpointManager.submitVote m v pending voted = (r, pending', voted')) :
    PendingOk m Allowed pending' := by
  rcases submitVote_cases hr with ⟨-, rfl, -⟩ | ⟨cp, hcp, hm, -, hb, hv, -, rfl, -⟩
  · exact hp
  · exact hp.insert ((hp _ _ hcp).insertVote hm hb rfl hv)

theorem PendingEntry.certified (hp : PendingEntry m Allowed height cp)
    (hq : cp.hasDerivedQuorum = true) :
    Certified m Allowed height { cp with status := .finalized } :=
  ⟨hp.height_eq, verifyCertificate_eq_ok.mpr ⟨rfl, hq, hp.wellVoted⟩, hp.allowed⟩

theorem Certified.quorum (hc : Certified m Allowed height cp) : cp.hasDerivedQuorum = true :=
  (verifyCertificate_eq_ok.mp hc.verified).2.1

theorem candidate_certified (hp : PendingOk m Allowed pending)
    (hr : candidate pending height = .ok cp) : Certified m Allowed height cp := by
  unfold candidate at hr
  split at hr
  · cases hr
  split at hr
  · cases hr
  split at hr
  · rename_i c hc _ _ _ hq
    cases hr
    exact (hp _ _ hc).certified hq
  · cases hr

variable {fault : Option PersistFault}

theorem persistCertificate_durable (hc : Certified m Allowed height cp)
    (hr : persistCertificate m fault certs cp = .ok certs') :
    Durable m Allowed certs' height cp := by
  intro hm
  cases fault with
  | none =>
    have hw : certs.write (.put cp.height (some cp)) = certs' := by
      simpa [persistCertificate, hm] using hr
    refine ⟨cp, ?_, rfl, hc⟩
    rw [← hw, ← hc.height_eq]
    exact Function.update_self _ _ _
  | some f => cases f <;> simp [persistCertificate, hm] at hr

variable {certs : CertificateStore}

def GuardOk (m : Manager) (Allowed : UInt64 → List PublicKey → Prop) (certs : CertificateStore)
    (height : UInt64) (guarded : Option Checkpoint) : Prop :=
  ∀ seen, guarded = some seen → Certified m Allowed height seen ∧ Durable m Allowed certs height seen

section

variable (hp : PendingOk m Allowed pending) (hg : GuardOk m Allowed certs height guarded)
include hp hg

theorem chooseCheckpoint_ok (hr : chooseCheckpoint pending[height]? guarded = .ok cp) :
    PendingEntry m Allowed height cp ∧ ∀ seen, guarded = some seen →
      cp.hasDerivedQuorum = true ∧ cp.extendsCertificate seen = true := by
  cases guarded with
  | none =>
    cases hc : pending[height]? with
    | none => simp [chooseCheckpoint, hc] at hr
    | some c =>
      obtain rfl : c = cp := by simpa [chooseCheckpoint, hc] using hr
      exact ⟨hp _ _ hc, by simp⟩
  | some seen =>
    obtain ⟨hs, -⟩ := hg seen rfl
    have hseen : PendingEntry m Allowed height { seen with status := .pending } :=
      ⟨hs.height_eq, (verifyCertificate_eq_ok.mp hs.verified).2.2, hs.allowed⟩
    have hfall : cp = { seen with status := .pending } → PendingEntry m Allowed height cp ∧
        ∀ seen', some seen = some seen' →
          cp.hasDerivedQuorum = true ∧ cp.extendsCertificate seen' = true := by
      rintro rfl
      refine ⟨hseen, fun seen' he => ?_⟩
      cases he
      exact ⟨hs.quorum, extendsCertificate_refl⟩
    cases hc : pending[height]? with
    | none => exact hfall (by simpa [chooseCheckpoint, hc] using hr.symm)
    | some c =>
      by_cases he : c.extendsCertificate seen = true
      · obtain rfl : c = cp := by simpa [chooseCheckpoint, hc, he] using hr
        refine ⟨hp _ _ hc, fun seen' hs' => ?_⟩
        cases hs'
        exact ⟨hasDerivedQuorum_of_extends he hs.quorum, he⟩
      · exact hfall (by simpa [chooseCheckpoint, hc, he] using hr.symm)

theorem settle_ok {r : Except CheckpointError Checkpoint}
    (hr : settle m fault height guarded pending certs = (r, pending', certs')) :
    PendingOk m Allowed pending' ∧
      (∀ cp, r = .ok cp → Settled m Allowed certs' ⟨height, guarded, cp⟩) ∧
      (∀ e, r = .error e → guarded = none) := by
  have hrest : PendingOk m Allowed (pending.erase height) := hp.sub (TreeMap.erase_sub _ _)
  unfold settle at hr
  dsimp only at hr
  split at hr
  · rename_i hc
    cases hr
    refine ⟨hrest, nofun, fun _ _ => Option.eq_none_iff_forall_ne_some.mpr fun seen hseen => ?_⟩
    subst hseen
    unfold chooseCheckpoint at hc
    split at hc
    · split_ifs at hc
    all_goals contradiction
  rename_i cp hc
  obtain ⟨hentry, hseen⟩ := chooseCheckpoint_ok hp hg hc
  have hnone (hq : cp.hasDerivedQuorum ≠ true) : guarded = none :=
    Option.eq_none_iff_forall_ne_some.mpr fun seen he => hq (hseen seen he).1
  split at hr
  · rename_i heq
    cases hr
    refine ⟨hrest.insert hentry, nofun, fun _ _ => hnone fun hq => ?_⟩
    cases (hasDerivedQuorum_effectiveQuorum hq).symm.trans heq
  split_ifs at hr with hq
  · cases hr
    exact ⟨hrest.insert hentry, nofun, fun _ _ => hnone (by simpa using hq)⟩
  have hcert := hentry.certified (by simpa using hq)
  have hper : ∀ {c}, persistCertificate m fault certs { cp with status := .finalized } = .ok c →
      Settled m Allowed c ⟨height, guarded, { cp with status := .finalized }⟩ := fun h =>
    ⟨hcert, persistCertificate_durable hcert h, fun seen he => (hseen seen he).2⟩
  split at hr
  · split at hr
    · cases hr
      exact ⟨hrest.insert { hentry with }, nofun, fun _ _ => rfl⟩
    · rename_i h
      cases hr
      exact ⟨hrest, fun _ he => Except.ok.inj he ▸ hper h, nofun⟩
  · rename_i seen
    obtain ⟨hs, hd⟩ := hg seen rfl
    have hext := (hseen seen rfl).2
    split_ifs at hr
    · split at hr
      · cases hr
        refine ⟨hrest, fun _ he => Except.ok.inj he ▸ ⟨hs, hd, fun _ he => ?_⟩, nofun⟩
        cases he
        exact extendsCertificate_refl
      · rename_i h
        cases hr
        exact ⟨hrest, fun _ he => Except.ok.inj he ▸ hper h, nofun⟩
    · cases hr
      refine ⟨hrest, fun _ he => Except.ok.inj he ▸ ⟨hcert, fun hm => ?_, fun seen he => (hseen seen he).2⟩, nofun⟩
      obtain ⟨c, hc, hcb, hcc⟩ := hd hm
      exact ⟨c, hc, hcb.trans (extendsCertificate_iff.mp hext).2.1.symm, hcc⟩

end

section

variable (hi : Inv m Allowed s)
include hi

theorem Inv.holdsSerial_unique {j : CallId} (h : (s.calls i).holdsSerial = true)
    (hj : (s.calls j).holdsSerial = true) : j = i :=
  Option.some.inj ((hi.serial j hj).symm.trans (hi.serial i h))

section

variable {old : Call} (hold : s.calls i = old) (hcalls : s'.calls = Function.update s.calls i c)
include hold hcalls

theorem Inv.move (hp : PendingOk m Allowed s'.pending)
    (hw : s'.certificates = s.certificates ∨ old.holdsSerial = true)
    (hc : CallOk m Allowed s'.certificates c)
    (hs : ∀ j, (s'.calls j).holdsSerial = true → s'.finalizeSerial = some j)
    (hl : ∀ j, s'.pendingLock = some j → (s'.calls j).holdsPending = true) : Inv m Allowed s' := by
  subst hold
  refine ⟨hp, fun j => ?_, hs, hl⟩
  by_cases hj : j = i
  · subst hj
    rw [hcalls, Function.update_self]
    exact hc
  · rw [hcalls, Function.update_of_ne hj]
    rcases hw with hw | hw
    · exact hw ▸ hi.calls j
    · refine (hi.calls j).of_not_holdsSerial ?_
      by_contra hn
      exact hj (hi.holdsSerial_unique hw (by simpa using hn))

theorem Inv.serial_move (hcs : c.holdsSerial ≤ old.holdsSerial) (j : CallId)
    (hj : (s'.calls j).holdsSerial = true) : s.finalizeSerial = some j := by
  subst hold
  by_cases he : j = i
  · subst he
    rw [hcalls, Function.update_self] at hj
    exact hi.serial j (hcs hj)
  · rw [hcalls, Function.update_of_ne he] at hj
    exact hi.serial j hj

theorem Inv.stay (hp : PendingOk m Allowed s'.pending)
    (hw : s'.certificates = s.certificates ∨ old.holdsSerial = true)
    (hc : CallOk m Allowed s'.certificates c) (hs : s'.finalizeSerial = s.finalizeSerial)
    (hl : s'.pendingLock = s.pendingLock)
    (hcs : c.holdsSerial ≤ old.holdsSerial) (hcl : old.holdsPending ≤ c.holdsPending) :
    Inv m Allowed s' := by
  refine hi.move hold hcalls hp hw hc (hs ▸ hi.serial_move hold hcalls hcs) fun j hj => ?_
  subst hold
  rw [hl] at hj
  by_cases he : j = i
  · subst he
    rw [hcalls, Function.update_self]
    exact hcl (hi.lock j hj)
  · rw [hcalls, Function.update_of_ne he]
    exact hi.lock j hj

end

theorem Inv.finish {old : Call} {r : Except CheckpointError Checkpoint} (hold : s.calls i = old)
    (hcalls : s'.calls = Function.update s.calls i (.finalized r))
    (hp : PendingOk m Allowed s'.pending) (hh : old.holdsSerial = true)
    (hn : old.holdsPending = false) (hl : s'.pendingLock = s.pendingLock) :
    Inv m Allowed s' := by
  subst hold
  have hother : ∀ j, (s'.calls j).holdsSerial = true → False := by
    intro j hj
    by_cases he : j = i
    · subst he
      rw [hcalls, Function.update_self] at hj
      simp [holdsSerial] at hj
    · rw [hcalls, Function.update_of_ne he] at hj
      exact he (hi.holdsSerial_unique hh hj)
  refine hi.move rfl hcalls hp (.inr hh) trivial (fun j hj => (hother j hj).elim) fun j hj => ?_
  rw [hl] at hj
  have hj' := hi.lock j hj
  have he := hi.holdsSerial_unique hh (holdsSerial_of_holdsPending hj')
  rw [he, hn] at hj'
  cases hj'

theorem Inv.finalizeLock (hnone : s.finalizeSerial = none)
    (hcalls : s'.calls = Function.update s.calls i c) (hp : s'.pending = s.pending)
    (hw : s'.certificates = s.certificates) (hc : CallOk m Allowed s'.certificates c)
    (hs : s'.finalizeSerial = some i) (hl : s'.pendingLock = s.pendingLock) : Inv m Allowed s' := by
  have hfree : ∀ j, (s.calls j).holdsSerial ≠ true := by
    intro j hj
    have := hi.serial j hj
    cases hnone.symm.trans this
  refine hi.move rfl hcalls (hp ▸ hi.pending) (.inl hw) hc (fun j hj => ?_) fun j hj => ?_
  · by_cases he : j = i
    · exact he ▸ hs
    · rw [hcalls, Function.update_of_ne he] at hj
      exact absurd hj (hfree j)
  · exact absurd (holdsSerial_of_holdsPending (hi.lock j (hl ▸ hj))) (hfree j)

omit hi in
theorem guardOk_of_call {certs : CertificateStore}
    (hc : CallOk m Allowed certs (.finalizeSettle height guarded)) :
    GuardOk m Allowed certs height guarded := by
  rintro seen rfl
  exact hc

theorem Inv.takePending {old : Call} {f : Finalization} (hold : s.calls i = old)
    (hcalls : s'.calls = Function.update s.calls i (.finalizeDag f))
    (hp : PendingOk m Allowed s'.pending) (hh : old.holdsSerial = true)
    (hc : Settled m Allowed s'.certificates f) (hs : s'.finalizeSerial = s.finalizeSerial)
    (hl : s'.pendingLock = some i) : Inv m Allowed s' := by
  refine hi.move hold hcalls hp (.inr hh) hc (hs ▸ hi.serial_move hold hcalls fun _ => hh) fun j hj => ?_
  cases hl.symm.trans hj
  rw [hcalls, Function.update_self]
  rfl

theorem Inv.proposal {old c c' : Call} {q : Prop} [Decidable q] (hold : s.calls i = old)
    (hc : CallOk m Allowed s.certificates c) (hc' : CallOk m Allowed s.certificates c')
    (hi' : old.holdsPending = false) (hs : c.holdsSerial = false) (hs' : c'.holdsSerial = false) :
    Inv m Allowed (s.goto i (if q then c else c')) := by
  by_cases hq : q
  · rw [if_pos hq]
    exact hi.stay hold rfl hi.pending (.inl rfl) hc rfl rfl (hs ▸ bot_le) (hi' ▸ bot_le)
  · rw [if_neg hq]
    exact hi.stay hold rfl hi.pending (.inl rfl) hc' rfl rfl (hs' ▸ bot_le) (hi' ▸ bot_le)

theorem Inv.step (hs : Step m s (i, e) s')
    (ha : ∀ p, e = .propose p → Allowed p.height p.committee) : Inv m Allowed s' := by
  have hcall := hi.calls i
  cases hs with
  | propose p hc => exact hi.proposal hc (ha p rfl) trivial rfl rfl rfl
  | proposeLatest hc | proposeMemory hc | proposeStore hc =>
    rw [hc] at hcall
    exact hi.proposal hc trivial hcall rfl rfl rfl
  | proposeBlock hc =>
    rw [hc] at hcall
    exact hi.proposal hc hcall trivial rfl rfl rfl
  | proposeInsert hc _ ho =>
    rw [hc] at hcall
    exact hi.stay hc rfl (hi.pending.insertPending hcall ho) (.inl rfl) trivial rfl rfl
      bot_le bot_le
  | vote v hc _ hr =>
    exact hi.stay hc rfl (hi.pending.submitVote hr) (.inl rfl) trivial rfl rfl bot_le bot_le
  | prune floor hc _ =>
    exact hi.stay hc rfl (hi.pending.sub (TreeMap.filter_sub _ _)) (.inl rfl) trivial rfl rfl
      bot_le bot_le
  | pruneVoted hc | finalize height hc =>
    exact hi.stay hc rfl hi.pending (.inl rfl) trivial rfl rfl bot_le bot_le
  | finalizeLock hc hl =>
    refine hi.finalizeLock hl rfl rfl rfl ?_ rfl rfl
    split <;> trivial
  | candidateErr hc _ hr | persistErr fault hc hr | finalizeAfter hc =>
    exact hi.finish hc rfl hi.pending rfl rfl rfl
  | candidateOk hc _ hr =>
    exact hi.stay hc rfl hi.pending (.inl rfl) (candidate_certified hi.pending hr) rfl rfl
      le_rfl bot_le
  | persistOk fault hc hr =>
    rw [hc] at hcall
    exact hi.stay hc rfl hi.pending (.inr rfl)
      ⟨hcall, persistCertificate_durable hcall hr⟩ rfl rfl
      le_rfl bot_le
  | beforeFinalize hc =>
    rw [hc] at hcall
    exact hi.stay hc rfl hi.pending (.inl rfl) hcall rfl rfl le_rfl bot_le
  | settleErr fault hc _ hr =>
    rw [hc] at hcall
    exact hi.finish hc rfl (settle_ok hi.pending (guardOk_of_call hcall) hr).1 rfl rfl rfl
  | settleOk fault hc hl hr =>
    rw [hc] at hcall
    obtain ⟨hp, hok, -⟩ := settle_ok hi.pending (guardOk_of_call hcall) hr
    exact hi.takePending hc rfl hp rfl (hok _ rfl) rfl rfl
  | finalizeDag hc | finalizeLatest hc | finalizeRecord hc | finalizeMarkers hc =>
    rw [hc] at hcall
    exact hi.stay hc rfl hi.pending (.inl rfl) hcall rfl rfl le_rfl le_rfl
  | finalizeUnlock hc =>
    rw [hc] at hcall
    exact hi.move hc rfl hi.pending (.inl rfl) hcall (hi.serial_move hc rfl le_rfl) (by simp)
  | dagStore dagBlocks => exact { hi with }

end

structure Fresh (s : State) : Prop where
  pending : s.pending = ∅
  calls : ∀ j, s.calls j = .idle
  lock : s.pendingLock = none

def initial (dagBlocks : Finset Hash) : State :=
  ⟨∅, ∅, 0, ∅, fun _ => none, dagBlocks, ∅, none, none, fun _ => .idle⟩

theorem fresh_initial (dagBlocks : Finset Hash) : Fresh (initial dagBlocks) :=
  ⟨rfl, fun _ => rfl, rfl⟩

def seven : Proposal := ⟨10, 7#256, [1, 2, 3, 4]⟩

theorem Fresh.inv (hf : Fresh s) : Inv m Allowed s where
  pending := by
    intro height cp h
    simp [hf.pending] at h
  calls j := by
    rw [hf.calls j]
    trivial
  serial j hj := by
    rw [hf.calls j] at hj
    cases hj
  lock j hj := by
    cases hf.lock.symm.trans hj

theorem Inv.finalize_certified (hi : Inv m Allowed s) (hs : Step m s (i, .finalize height cp) s') :
    Certified m Allowed height cp := by
  have hcall := hi.calls i
  cases hs with
  | finalizeRecord hc =>
    rw [hc] at hcall
    exact hcall.certified

variable (Allowed) in
theorem Fresh.runs {s₀ : State} (hf : Fresh s₀) {es : List (CallId × Event)}
    (hr : Runs (Step m) s₀ es s)
    (ha : ∀ i p, (i, Event.propose p) ∈ es → Allowed p.height p.committee) :
    Inv m Allowed s ∧
      ∀ i height cp, (i, Event.finalize height cp) ∈ es → Certified m Allowed height cp := by
  induction hr with
  | refl => exact ⟨hf.inv, by simp⟩
  | @step as t a u _ hs ih =>
    obtain ⟨i, e⟩ := a
    obtain ⟨hi, hc⟩ := ih fun j p hp => ha j p (List.mem_append_left _ hp)
    refine ⟨hi.step hs fun p he => ha i p (by simp [he]), fun j height cp hm => ?_⟩
    rcases List.mem_append.mp hm with hm | hm
    · exact hc j height cp hm
    · cases List.mem_singleton.mp hm
      exact hi.finalize_certified hs

end CitrateChain.Consensus.CheckpointManager
