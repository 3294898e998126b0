import CitrateChain.Base.Quorum
import CitrateChain.Consensus.CheckpointInvariant
import CitrateChain.Consensus.Committee

/-! # Agreement between checkpoint managers

Any number of managers run side by side and receive any votes. Two certificates of a height with
one committee have an honest voter in common, so they are for the same block. -/
namespace CitrateChain.Consensus.CheckpointAgreement
open Std (ExtTreeMap)
open Checkpoint CheckpointManager Committee Transition

section Network
variable {ι : Type*} {managers : ι → Manager} {sha256 : Bytes → Bytes}
variable {n₀ n : ι → State} {ls : List (ι × CallId × Event)} {committeeSize : ℕ}
variable {verify : Verifier} {chainId height : UInt64} {V : EpochSet} {cp cp' : Checkpoint}

/-- Who may sign what: the faulty keys of an epoch set, the messages each key has signed, and what
honest keys never do. A vote that reaches some manager with a valid signature of an honest key was
signed by it. -/
structure FaultModel (verify : Verifier) (chainId : UInt64) (V : EpochSet) (height : UInt64)
    (ls : List (ι × CallId × Event)) where
  byzantine : Finset PublicKey
  signed : PublicKey → Bytes → Prop
  card_le : byzantine.card ≤ (V.size - 1) / 3
  unforgeable : ∀ j i v, (j, i, Event.vote v) ∈ ls → v.voter ∈ V.keys → v.voter ∉ byzantine →
    verify v.voter (canonicalVoteMessage chainId v.height v.blockHash) v.signature = true →
    signed v.voter (canonicalVoteMessage chainId v.height v.blockHash)
  signs_one : ∀ pk ∈ V.keys, pk ∉ byzantine → ∀ b b',
    signed pk (canonicalVoteMessage chainId height b) →
    signed pk (canonicalVoteMessage chainId height b') → b = b'

def Delivered (chainId : UInt64) (ls : List (ι × CallId × Event)) (pk : PublicKey) (msg : Bytes)
    (sig : Signature) : Prop :=
  ∃ j i v, (j, i, Event.vote v) ∈ ls ∧ v.voter = pk ∧
    canonicalVoteMessage chainId v.height v.blockHash = msg ∧ v.signature = sig

open Classical in
/-- The verifier, for what was delivered only. Managers ask it about nothing else. -/
noncomputable def deliveredVerifier (verify : Verifier) (chainId : UInt64)
    (ls : List (ι × CallId × Event)) : Verifier :=
  fun pk msg sig => verify pk msg sig && decide (Delivered chainId ls pk msg sig)

theorem deliveredVerifier_eq_true {pk : PublicKey} {msg : Bytes} {sig : Signature} :
    deliveredVerifier verify chainId ls pk msg sig = true ↔
      verify pk msg sig = true ∧ Delivered chainId ls pk msg sig := by
  simp only [deliveredVerifier, Bool.and_eq_true, decide_eq_true_eq]

def voters (cp : Checkpoint) : Finset PublicKey := cp.votes.keys.toFinset

theorem card_voters (cp : Checkpoint) : (voters cp).card = cp.votes.size :=
  (List.toFinset_card_of_nodup ExtTreeMap.nodup_keys).trans ExtTreeMap.length_keys

theorem mem_voters {pk : PublicKey} : pk ∈ voters cp ↔ ∃ sig, cp.votes[pk]? = some sig := by
  rw [voters, List.mem_toFinset, ExtTreeMap.mem_keys, TreeMap.mem_iff_exists]

theorem voters_of_certificate (hv : cp.verifyCertificate verify chainId = .ok ())
    (hc : cp.committee.Perm V.keys) :
    voters cp ⊆ V.keys.toFinset ∧ V.size * 2 / 3 + 1 ≤ (voters cp).card ∧ ∀ pk ∈ voters cp, ∃ sig,
        verify pk (canonicalVoteMessage chainId cp.height cp.blockHash) sig = true := by
  obtain ⟨-, hq, hw⟩ := verifyCertificate_eq_ok.mp hv
  refine ⟨fun pk hpk => ?_, ?_, fun pk hpk => ?_⟩
  · obtain ⟨sig, hs⟩ := mem_voters.mp hpk
    exact List.mem_toFinset.mpr (hc.mem_iff.mp (hw pk sig hs).1)
  · have hn : cp.committee.length = V.size := hc.length_eq.trans V.keys_length
    rw [card_voters, ← V.derivedQuorum_size, ← hn]
    exact (hasDerivedQuorum_iff.mp hq).2
  · obtain ⟨sig, hs⟩ := mem_voters.mp hpk
    exact ⟨sig, (hw pk sig hs).2⟩

theorem FaultModel.signed_of_delivered (F : FaultModel verify chainId V height ls) {pk : PublicKey}
    {msg : Bytes} {sig : Signature} (hpk : pk ∈ V.keys) (hhonest : pk ∉ F.byzantine)
    (h : deliveredVerifier verify chainId ls pk msg sig = true) : F.signed pk msg := by
  obtain ⟨hv, j, i, v, hmem, rfl, rfl, rfl⟩ := deliveredVerifier_eq_true.mp h
  exact F.unforgeable j i v hmem hpk hhonest hv

theorem certificates_agree (F : FaultModel verify chainId V height ls) (hn : 1 ≤ V.size)
    (hv : cp.verifyCertificate (deliveredVerifier verify chainId ls) chainId = .ok ())
    (hv' : cp'.verifyCertificate (deliveredVerifier verify chainId ls) chainId = .ok ())
    (hc : cp.committee.Perm V.keys) (hc' : cp'.committee.Perm V.keys)
    (hh : cp.height = height) (hh' : cp'.height = height) : cp.blockHash = cp'.blockHash := by
  obtain ⟨hsub, hcard, hsig⟩ := voters_of_certificate hv hc
  obtain ⟨hsub', hcard', hsig'⟩ := voters_of_certificate hv' hc'
  have hlarge : V.keys.toFinset.card + F.byzantine.card < (voters cp).card + (voters cp').card := by
    have := F.card_le
    rw [V.card_keys]
    omega
  obtain ⟨pk, hpk, hpk', hhonest⟩ := Quorum.exists_mem_inter_notMem hsub hsub' hlarge
  have hmem : pk ∈ V.keys := List.mem_toFinset.mp (hsub hpk)
  obtain ⟨sig, hs⟩ := hsig pk hpk
  obtain ⟨sig', hs'⟩ := hsig' pk hpk'
  rw [hh] at hs
  rw [hh'] at hs'
  exact F.signs_one pk hmem hhonest _ _ (F.signed_of_delivered hmem hhonest hs)
    (F.signed_of_delivered hmem hhonest hs')

theorem Step.reverify {m : Manager} {s s' : State} {i : CallId} {e : Event} (verify' : Verifier)
    (hs : Step m s (i, e) s') (h : ∀ v, e = .vote v →
      verify' v.voter (canonicalVoteMessage m.config.chainId v.height v.blockHash) v.signature =
        m.verify v.voter (canonicalVoteMessage m.config.chainId v.height v.blockHash) v.signature) :
    Step { m with verify := verify' } s (i, e) s' := by
  cases hs with
  | vote v hc hl hr =>
    have hsig : verifyVoteSignature verify' v m.config.chainId =
        verifyVoteSignature m.verify v m.config.chainId := by
      unfold verifyVoteSignature
      rw [h v rfl]
    refine .vote v hc hl (Eq.trans ?_ hr)
    unfold submitVote
    dsimp only
    rw [hsig]
  | propose p hc => exact .propose p hc
  | proposeLatest hc => exact .proposeLatest hc
  | proposeMemory hc => exact .proposeMemory hc
  | proposeStore hc => exact .proposeStore hc
  | proposeBlock hc => exact .proposeBlock hc
  | proposeInsert hc hl ho => exact .proposeInsert hc hl ho
  | prune floor hc hl => exact .prune floor hc hl
  | pruneVoted hc => exact .pruneVoted hc
  | finalize height hc => exact .finalize height hc
  | finalizeLock hc hl => exact .finalizeLock hc hl
  | candidateErr hc hl hr => exact .candidateErr hc hl hr
  | candidateOk hc hl hr => exact .candidateOk hc hl hr
  | persistErr fault hc hr => exact .persistErr fault hc hr
  | persistOk fault hc hr => exact .persistOk fault hc hr
  | beforeFinalize hc => exact .beforeFinalize hc
  | settleErr fault hc hl hr => exact .settleErr fault hc hl hr
  | settleOk fault hc hl hr => exact .settleOk fault hc hl hr
  | finalizeDag hc => exact .finalizeDag hc
  | finalizeLatest hc => exact .finalizeLatest hc
  | finalizeRecord hc => exact .finalizeRecord hc
  | finalizeMarkers hc => exact .finalizeMarkers hc
  | finalizeUnlock hc => exact .finalizeUnlock hc
  | finalizeAfter hc => exact .finalizeAfter hc
  | dagStore dagBlocks => exact .dagStore dagBlocks

variable [DecidableEq ι]

theorem runs_delivered (hchain : ∀ j, (managers j).config.chainId = chainId)
    (hverify : ∀ j, (managers j).verify = verify)
    (hr : Runs (Beside fun j => Step (managers j)) n₀ ls n) :
    Runs (Beside fun j => Step { managers j with verify := deliveredVerifier verify chainId ls })
      n₀ ls n := by
  refine hr.imp fun t a u hmem hs => ?_
  obtain ⟨s, hs, rfl⟩ := hs
  refine ⟨s, Step.reverify _ hs fun v hv => ?_, rfl⟩
  have hd : Delivered chainId ls v.voter (canonicalVoteMessage chainId v.height v.blockHash) v.signature :=
    ⟨a.1, a.2.1, v, hv ▸ hmem, rfl, rfl, rfl⟩
  rw [hchain, hverify, Bool.eq_iff_iff, deliveredVerifier_eq_true]
  exact and_iff_left hd

/-- Every proposal for `height`, on every node, brings the committee selected from `V` with the
seed of its candidate block. -/
def SelectedCommittees (sha256 : Bytes → Bytes) (V : EpochSet) (height : UInt64)
    (committeeSize : ℕ) (ls : List (ι × CallId × Event)) : Prop :=
  ∀ j i p, (j, i, Event.propose p) ∈ ls → p.height = height →
    ∃ seed, p.committee = select sha256 V.validators height seed committeeSize

theorem finalized_certificate (hfresh : ∀ j, Fresh (n₀ j))
    (hr : Runs (Beside fun j => Step (managers j)) n₀ ls n)
    (hsel : SelectedCommittees sha256 V height committeeSize ls) (hsize : V.size ≤ committeeSize)
    {j : ι} {i : CallId} (hf : (j, i, Event.finalize height cp) ∈ ls) :
    cp.height = height ∧ cp.committee.Perm V.keys ∧
      cp.verifyCertificate (managers j).verify (managers j).config.chainId = .ok () := by
  have hall : ∀ i p, (i, Event.propose p) ∈ labelsOf j ls → p.height = height →
      p.committee.Perm V.keys := by
    intro i p hp he
    obtain ⟨seed, hs⟩ := hsel j i p (mem_labelsOf.mp hp) he
    exact hs ▸ select_perm hsize
  obtain ⟨-, hcert⟩ := (hfresh j).runs (fun h c => h = height → c.Perm V.keys) (hr.component j) hall
  have hc := hcert i height cp (mem_labelsOf.mpr hf)
  exact ⟨hc.height_eq, hc.allowed rfl, hc.verified⟩

/-- Checkpoint agreement: managers of one chain that all start fresh, whose proposals at `height`
use the committee of one epoch set of at least four keys, never finalize two blocks there. -/
theorem finalize_agreement (hchain : ∀ j, (managers j).config.chainId = chainId)
    (hverify : ∀ j, (managers j).verify = verify) (hn : 4 ≤ V.size) (hsize : V.size ≤ committeeSize)
    (F : FaultModel verify chainId V height ls) (hfresh : ∀ j, Fresh (n₀ j))
    (hr : Runs (Beside fun j => Step (managers j)) n₀ ls n)
    (hsel : SelectedCommittees sha256 V height committeeSize ls) {j j' : ι} {i i' : CallId}
    (hf : (j, i, Event.finalize height cp) ∈ ls)
    (hf' : (j', i', Event.finalize height cp') ∈ ls) : cp.blockHash = cp'.blockHash := by
  have hr' := runs_delivered hchain hverify hr
  obtain ⟨hh, hc, hv⟩ := finalized_certificate hfresh hr' hsel hsize hf
  obtain ⟨hh', hc', hv'⟩ := finalized_certificate hfresh hr' hsel hsize hf'
  rw [hchain] at hv hv'
  exact certificates_agree F (by omega) hv hv' hc hc' hh hh'

end Network

def sevenManager : Manager :=
  ⟨⟨10, 40204⟩, fun _ b _ => b = canonicalVoteMessage 40204 10 7#256, false, false⟩

theorem sevenManager_finalizes : ∃ s es cp, Runs (Step sevenManager) (initial {7#256}) es s ∧
    (∀ k q, (k, .propose q) ∈ es → q = seven) ∧ (4, .finalize 10 cp) ∈ es ∧
    cp.blockHash = 7#256 := by
  obtain ⟨s, es, hr, hp, hc, hl, hs⟩ : ∃ s es, Runs (Step sevenManager) (initial {7#256}) es s ∧
      (∀ k q, (k, Event.propose q) ∈ es → q = seven) ∧ s.calls 4 = .finalizeSettle 10 none ∧
      s.pendingLock = none ∧ (match (settle sevenManager none 10 none s.pending s.certificates).1 with
        | .ok cp => cp.blockHash == 7#256 | .error _ => false) = true :=
    ⟨_, _, .head (.propose (i := 0) seven rfl) <| .head (.proposeLatest (i := 0) rfl) <|
      .head (.proposeMemory (i := 0) rfl) <| .head (.proposeStore (i := 0) rfl) <|
      .head (.proposeBlock (i := 0) rfl) <| .head (.proposeInsert (i := 0) rfl rfl rfl) <|
      .head (.vote (i := 1) ⟨10, 7#256, 1, 0⟩ rfl rfl rfl) <|
      .head (.vote (i := 2) ⟨10, 7#256, 2, 0⟩ rfl rfl rfl) <|
      .head (.vote (i := 3) ⟨10, 7#256, 3, 0⟩ rfl rfl rfl) <| .head (.finalize (i := 4) 10 rfl) <|
      .head (.finalizeLock (i := 4) rfl rfl) .refl, by simp, rfl, rfl, by decide⟩
  rcases he : settle sevenManager none 10 none s.pending s.certificates with ⟨e | cp, _, _⟩
  · simp [he] at hs
  · have hr := hr.trans <| .head (.settleOk none hc hl he) <| .head (.finalizeDag (i := 4) rfl) <|
      .head (.finalizeLatest (i := 4) rfl) <| .head (.finalizeRecord (i := 4) rfl) .refl
    refine ⟨_, _, cp, hr, fun k q hq => hp k q ?_, by simp, by simpa [he] using hs⟩
    simpa using hq

theorem finalize_agreement_four_validators :
    ∃ (m : Manager) (s₀ : State) (n : Unit → State) (ls : List (Unit × CallId × Event))
      (i : CallId) (cp : Checkpoint), Fresh s₀ ∧
      Runs (Beside fun _ => Step m) (fun _ => s₀) ls n ∧ ((), i, .finalize 10 cp) ∈ ls ∧
      cp.blockHash = 7#256 ∧ ∀ i' cp', ((), i', .finalize 10 cp') ∈ ls → cp'.blockHash = 7#256 := by
  let V : EpochSet := ⟨[(1, 1), (2, 1), (3, 1), (4, 1)], by decide, by decide⟩
  obtain ⟨s, es, cp, hr, hp, hfin, hb⟩ := sevenManager_finalizes
  have F : FaultModel sevenManager.verify 40204 V 10 (es.map (Prod.mk ())) :=
    { byzantine := ∅
      signed := fun _ b => b = canonicalVoteMessage 40204 10 7#256
      card_le := by decide
      unforgeable := fun _ _ _ _ _ _ hv => of_decide_eq_true hv
      signs_one := fun _ _ _ b b' h h' => canonicalVoteMessage_inj (h.trans h'.symm) }
  have hf := fresh_initial {7#256}
  have hrun : Runs (Beside fun _ : Unit => Step sevenManager) (fun _ => initial {7#256}) _ _ :=
    hr.beside (j := ())
  have hsel : SelectedCommittees (fun _ => []) V 10 100 (es.map (Prod.mk ())) := by
    rintro ⟨⟩ k q hq -
    have hq : (k, Event.propose q) ∈ es := by simpa using hq
    exact ⟨7#256, by rw [hp k q hq]; decide⟩
  have hmap : ((), 4, Event.finalize 10 cp) ∈ es.map (Prod.mk ()) := List.mem_map_of_mem hfin
  refine ⟨_, _, _, _, 4, cp, hf, hrun, hmap, hb, fun i' cp' h' => ?_⟩
  exact (finalize_agreement (fun _ => rfl) (fun _ => rfl) (by decide) (by decide) F (fun _ => hf)
    hrun hsel h' hmap).trans hb

/-- However the calls interleave, no two finalizations overlap, pending votes are signed by members of
their committee, and what is finalized has a quorum of such votes. -/
theorem finalizations_exclusive_certified {m : Manager} {s s₀ : State} {es : List (CallId × Event)}
    (hf : Fresh s₀) (hr : Runs (Step m) s₀ es s) :
    (∀ i j, (s.calls i).holdsSerial = true → (s.calls j).holdsSerial = true → j = i) ∧
    (∀ (height : UInt64) (cp : Checkpoint), s.pending[height]? = some cp →
      cp.height = height ∧ WellVoted m.verify m.config.chainId cp) ∧
    ∀ i height cp, (i, .finalize height cp) ∈ es →
      cp.height = height ∧ cp.hasDerivedQuorum = true ∧ WellVoted m.verify m.config.chainId cp := by
  obtain ⟨hi, hc⟩ := hf.runs (fun _ _ => True) hr fun _ _ _ => trivial
  refine ⟨fun i j => hi.holdsSerial_unique, fun height cp hcp => ?_, fun i height cp hmem => ?_⟩
  · exact ⟨(hi.pending height cp hcp).height_eq, (hi.pending height cp hcp).wellVoted⟩
  · exact ⟨(hc i height cp hmem).height_eq, (verifyCertificate_eq_ok.mp (hc i height cp hmem).verified).2⟩

theorem finalizations_exclusive_certified_seven : ∃ cp : Checkpoint, cp.blockHash = 7#256 ∧
    cp.hasDerivedQuorum = true := by
  obtain ⟨s, es, cp, hr, -, hfin, hb⟩ := sevenManager_finalizes
  exact ⟨cp, hb, ((finalizations_exclusive_certified (fresh_initial _) hr).2.2 4 10 cp hfin).2.1⟩

end CitrateChain.Consensus.CheckpointAgreement
