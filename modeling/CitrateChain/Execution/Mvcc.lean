import Mathlib.Data.Fintype.Basic
import CitrateChain.Base.Runs
import CitrateChain.Execution.TransferJournal

/-! # Concurrent execution of transfers

Any number of calls of `execute_transaction` run side by side. Each pins a version, executes into its
journal, asks the commit coordinator to accept what it read, and drains its journal afterwards. After
eight refusals a call takes the execution lock and commits without being asked. -/
namespace CitrateChain.Execution
open Std (ExtTreeMap)
open Consensus (Hash)

structure CommitCoordinator where
  stateVersion : ReadVersion := 0
  versions : ExtTreeMap Address ReadVersion := ∅

namespace CommitCoordinator

def versionOf (c : CommitCoordinator) (a : Address) : ReadVersion := c.versions[a]?.getD 0

-- `fetch_add` wraps the counter, the version handed out saturates
def advanceUnconditional (c : CommitCoordinator) : ReadVersion × CommitCoordinator :=
  (Word.saturatingAdd c.stateVersion 1, { c with stateVersion := c.stateVersion + 1 })

def commitWritesSerialized (c : CommitCoordinator) (writes : WriteSet) :
    ReadVersion × CommitCoordinator :=
  let (newVersion, c) := c.advanceUnconditional
  (newVersion, { c with versions := writes.foldl (fun v a => v.insert a newVersion) c.versions })

def tryCommit (c : CommitCoordinator) (j : ScratchJournal) : Option (ReadVersion × CommitCoordinator) :=
  if j.requiresSerialCommit then none
  else if j.readSet.isValidAt c.versionOf then some (c.commitWritesSerialized j.writeSet)
  else none

theorem versionOf_commit (c : CommitCoordinator) (writes : WriteSet) (a : Address) :
    (c.commitWritesSerialized writes).2.versionOf a =
      if a ∈ writes then Word.saturatingAdd c.stateVersion 1 else c.versionOf a := by
  have hget : ∀ (m : ExtTreeMap Address ReadVersion), (writes.foldl (fun v a => v.insert a
      (Word.saturatingAdd c.stateVersion 1)) m)[a]?.getD 0 =
        if a ∈ writes then Word.saturatingAdd c.stateVersion 1 else m[a]?.getD 0 := by
    induction writes with
    | nil => exact fun _ => rfl
    | cons b bs ih =>
      intro m
      rw [List.foldl_cons, ih]
      by_cases hb : a ∈ bs
      · simp [hb]
      · by_cases hab : a = b <;> simp [hb, hab, TreeMap.getElem?_insert_ite]
  exact hget c.versions

theorem isValidAt_of_commit {c : CommitCoordinator} {rs : ReadSet} {writes : WriteSet}
    {pin : ReadVersion} (hpin : rs.pinnedVersion = some pin) (hle : pin ≤ c.stateVersion)
    (hroom : c.stateVersion.toNat + 1 < UInt64.size)
    (h : rs.isValidAt (c.commitWritesSerialized writes).2.versionOf) :
    rs.isValidAt c.versionOf ∧ ∀ a ∈ rs.accounts, a ∉ writes := by
  simp only [ReadSet.isValidAt, hpin, List.all_eq_true, decide_eq_true_eq, versionOf_commit] at h ⊢
  have hnot : ∀ a ∈ rs.accounts, a ∉ writes := by
    intro a ha hw
    have hnew := h a ha
    rw [if_pos hw, UInt64.le_iff_toNat_le, Word.saturatingAdd_toNat_of_lt hroom] at hnew
    exact Nat.not_succ_le_self _ (hnew.trans (UInt64.le_iff_toNat_le.mp hle))
  refine ⟨fun a ha => ?_, hnot⟩
  have := h a ha
  rwa [if_neg (hnot a ha)] at this

end CommitCoordinator

def maxRetries : ℕ := 8

inductive Mode
  | fast (attempt : ℕ)
  | serial

inductive Phase
  | start (mode : Mode)
  | waiting
  | pinned (mode : Mode) (journal : ScratchJournal)
  | executed (mode : Mode) (journal : ScratchJournal) (receipt : TransferReceipt) (writes : WriteSet)
  | committed (mode : Mode) (journal : ScratchJournal) (receipt : TransferReceipt)
  | done (receipt : TransferReceipt)
  | failed (e : ExecutionError)

def Phase.toDrain (p : Phase) (a : Address) : Bool :=
  match p with
  | .committed _ j _ => j.pending.contains a
  | _ => false

def Phase.drained : Phase → Bool
  | .committed .. => false
  | _ => true

def Phase.isDone : Phase → Bool
  | .done _ => true
  | _ => false

structure Concurrent (ι : Type) where
  world : World
  coordinator : CommitCoordinator := {}
  execLock : Bool := false
  phase : ι → Phase := fun _ => .start (.fast 0)
  log : List ι := []

namespace Concurrent
variable {ι : Type} [DecidableEq ι] (keccak : Bytes → Hash) (transferGas : UInt64) (tx : ι → Transfer)

def setPhase (s : Concurrent ι) (i : ι) (p : Phase) : Concurrent ι :=
  { s with phase := Function.update s.phase i p }

def release (s : Concurrent ι) : Mode → Bool
  | .fast _ => s.execLock
  | .serial => false

def commit (s : Concurrent ι) (i : ι) (mode : Mode) (j : ScratchJournal) (receipt : TransferReceipt)
    (c : CommitCoordinator) : Concurrent ι :=
  { s.setPhase i (.committed mode j receipt) with coordinator := c, log := s.log ++ [i] }

def advance (s : Concurrent ι) (i : ι) : Option (Concurrent ι) :=
  match s.phase i with
  | .start mode =>
    some (s.setPhase i (.pinned mode (({} : ScratchJournal).pinAt s.coordinator.stateVersion)))
  | .waiting =>
    if s.execLock then none else some { s.setPhase i (.start .serial) with execLock := true }
  | .pinned mode j =>
    match (tx i).executeTxIntoJournal transferGas s.world j with
    | .error e => some { s.setPhase i (.failed e) with execLock := s.release mode }
    | .ok (j, receipt, writes) => some (s.setPhase i (.executed mode j receipt writes))
  | .executed (.fast attempt) j receipt _ =>
    match s.coordinator.tryCommit j with
    | some (_, c) => some (s.commit i (.fast attempt) j receipt c)
    | none =>
      some (s.setPhase i (if attempt + 1 < maxRetries then .start (.fast (attempt + 1)) else .waiting))
  | .executed .serial j receipt writes =>
    some (s.commit i .serial j receipt (s.coordinator.commitWritesSerialized writes).2)
  | .committed mode j receipt =>
    some { s.setPhase i (.done receipt) with
      world := drainJournal keccak s.world j
      execLock := s.release mode }
  | .done _ => none
  | .failed _ => none

def runAlone (w : World) (tx : Transfer) : World :=
  match tx.executeTxIntoJournal transferGas w (({} : ScratchJournal).pinAt 0) with
  | .ok (j, _) => drainJournal keccak w j
  | .error _ => w

/-- The committed transfers one at a time, in the order of their versions. -/
def serial (w : World) (log : List ι) : World :=
  log.foldl (fun w i => runAlone keccak transferGas w (tx i)) w

def Phase.undrained : Phase → Option (Patch Address AccountState)
  | .committed _ j _ => some (j.patch keccak)
  | _ => none

def undrained (s : Concurrent ι) (i : ι) : Option (Patch Address AccountState) :=
  Phase.undrained keccak (s.phase i)

inductive Step (s : Concurrent ι) (i : ι) : Concurrent ι → Prop
  | pin {mode} (h : s.phase i = .start mode) : Step s i
      (s.setPhase i (.pinned mode (({} : ScratchJournal).pinAt s.coordinator.stateVersion)))
  | quiet {p : Phase} {lock : Bool} (h : Phase.undrained keccak (s.phase i) = none)
      (hp : (∃ mode, p = .start mode) ∨ p = .waiting ∨ ∃ e, p = .failed e) :
      Step s i { s.setPhase i p with execLock := lock }
  | execute {mode j j' receipt writes} (h : s.phase i = .pinned mode j)
      (hex : (tx i).executeTxIntoJournal transferGas s.world j = .ok (j', receipt, writes)) :
      Step s i (s.setPhase i (.executed mode j' receipt writes))
  | commit {mode j receipt writes bumped} (h : s.phase i = .executed mode j receipt writes)
      (hbump : j.readSet.isValidAt s.coordinator.versionOf ∧ bumped = j.writeSet ∨
        mode = .serial ∧ bumped = writes) :
      Step s i (s.commit i mode j receipt (s.coordinator.commitWritesSerialized bumped).2)
  | drain {mode j receipt} {lock : Bool} (h : s.phase i = .committed mode j receipt) :
      Step s i { s.setPhase i (.done receipt) with
        world := drainJournal keccak s.world j, execLock := lock }

theorem advance_step {s s' : Concurrent ι} {i : ι}
    (h : advance keccak transferGas tx s i = some s') : Step keccak transferGas tx s i s' := by
  unfold advance at h
  cases hphase : s.phase i with
  | start mode =>
    rw [hphase] at h
    cases h
    exact .pin hphase
  | waiting =>
    simp only [hphase, Option.ite_none_left_eq_some, Option.some.injEq] at h
    obtain rfl := h.2
    exact .quiet (by rw [hphase]; rfl) (.inl ⟨_, rfl⟩)
  | pinned mode j =>
    simp only [hphase] at h
    split at h
    · cases h
      exact .quiet (by rw [hphase]; rfl) (.inr (.inr ⟨_, rfl⟩))
    · next hex =>
      cases h
      exact .execute hphase hex
  | executed mode j receipt writes =>
    cases mode with
    | fast attempt =>
      simp only [hphase] at h
      split at h
      · next hcommit =>
        cases h
        simp only [CommitCoordinator.tryCommit] at hcommit
        split at hcommit
        · cases hcommit
        split at hcommit
        · next hvalid =>
          obtain rfl := congrArg Prod.snd (Option.some.inj hcommit)
          exact .commit hphase (.inl ⟨hvalid, rfl⟩)
        · cases hcommit
      · cases h
        refine .quiet (by rw [hphase]; rfl) ?_
        split
        · exact .inl ⟨_, rfl⟩
        · exact .inr (.inl rfl)
    | serial =>
      rw [hphase] at h
      cases h
      exact .commit hphase (.inr ⟨rfl, rfl⟩)
  | committed mode j receipt =>
    rw [hphase] at h
    cases h
    exact .drain hphase
  | done receipt | failed e =>
    rw [hphase] at h
    cases h

theorem undrained_setPhase (s : Concurrent ι) (i : ι) (p : Phase) : undrained keccak (s.setPhase i p) =
    Function.update (undrained keccak s) i (Phase.undrained keccak p) := by
  funext k
  by_cases hk : k = i
  · subst hk
    simp [undrained, setPhase]
  · simp [undrained, setPhase, hk]

theorem undrained_setPhase_quiet {s : Concurrent ι} {i : ι} {p : Phase}
    (h : Phase.undrained keccak (s.phase i) = none) (hp : Phase.undrained keccak p = none) :
    undrained keccak (s.setPhase i p) = undrained keccak s := by
  rw [undrained_setPhase, hp, ← h]
  exact Function.update_eq_self i _

/-- What a call executed is what it would do after the transfers committed so far, and nothing still
to be drained touches what it read. -/
structure Fresh (w₀ : World) (s : Concurrent ι) (i : ι) (pin : ReadVersion) (j : ScratchJournal)
    (receipt : TransferReceipt) (writes : WriteSet) : Prop where
  serial_ok : (tx i).executeTxIntoJournal transferGas (serial keccak transferGas tx w₀ s.log)
    (({} : ScratchJournal).pinAt pin) = .ok (j, receipt, writes)
  untouched : ∀ k p, undrained keccak s k = some p → ∀ a ∈ j.readSet.accounts, p a = none

/-- The state lags behind the serial execution of the commit log by what is still to be drained, and
a call whose reads are still valid has read what the serial execution would. -/
structure Serialized (w₀ : World) (s : Concurrent ι) : Prop where
  overlaid : Overlaid (undrained keccak s) s.world.getAccount
    (serial keccak transferGas tx w₀ s.log).getAccount
  pinned : ∀ i mode j, s.phase i = .pinned mode j →
    ∃ pin ≤ s.coordinator.stateVersion, j = ({} : ScratchJournal).pinAt pin
  executed : ∀ i mode j receipt writes, s.phase i = .executed mode j receipt writes →
    ∃ pin ≤ s.coordinator.stateVersion, (tx i).Journaled pin j writes ∧
      (j.readSet.isValidAt s.coordinator.versionOf →
        Fresh keccak transferGas tx w₀ s i pin j receipt writes)

section Serializability
variable {keccak transferGas tx} {w₀ : World} {s s' : Concurrent ι} {i : ι}

theorem setPhase_phase {k : ι} {p q : Phase} (h : (s.setPhase i p).phase k = q) :
    k = i ∧ q = p ∨ k ≠ i ∧ s.phase k = q := by
  by_cases hk : k = i
  · subst hk
    exact .inl ⟨rfl, by simpa [setPhase] using h.symm⟩
  · exact .inr ⟨hk, by simpa [setPhase, hk] using h⟩

variable {receipt : TransferReceipt} {j : ScratchJournal} {writes : WriteSet}

omit [DecidableEq ι] in
theorem Fresh.congr {pin : ReadVersion}
    (h : Fresh keccak transferGas tx w₀ s i pin j receipt writes)
    (hlog : s'.log = s.log)
    (hund : ∀ k p, undrained keccak s' k = some p → undrained keccak s k = some p) :
    Fresh keccak transferGas tx w₀ s' i pin j receipt writes :=
  ⟨hlog ▸ h.serial_ok, fun k p hk => h.untouched k p (hund k p hk)⟩

section

variable (h : Serialized keccak transferGas tx w₀ s)
include h

theorem Serialized.setPhase {p : Phase} (lock : Bool)
    (hi : Phase.undrained keccak (s.phase i) = none) (hp : Phase.undrained keccak p = none)
    (hpinned : ∀ mode j, p = .pinned mode j →
      ∃ pin ≤ s.coordinator.stateVersion, j = ({} : ScratchJournal).pinAt pin)
    (hexecuted : ∀ mode j receipt writes, p = .executed mode j receipt writes →
      ∃ pin ≤ s.coordinator.stateVersion, (tx i).Journaled pin j writes ∧
        Fresh keccak transferGas tx w₀ s i pin j receipt writes) :
    Serialized keccak transferGas tx w₀ { s.setPhase i p with execLock := lock } := by
  have hund : undrained keccak { s.setPhase i p with execLock := lock } = undrained keccak s :=
    undrained_setPhase_quiet keccak hi hp
  refine ⟨?_, fun k mode j hk => ?_, fun k mode j receipt writes hk => ?_⟩
  · rw [hund]
    exact h.overlaid
  · rcases setPhase_phase hk with ⟨rfl, rfl⟩ | ⟨-, hk⟩
    · exact hpinned mode j rfl
    · exact h.pinned k mode j hk
  · rcases setPhase_phase hk with ⟨rfl, rfl⟩ | ⟨-, hk⟩
    · obtain ⟨pin, hle, hj, hfresh⟩ := hexecuted mode j receipt writes rfl
      exact ⟨pin, hle, hj, fun _ => hfresh.congr rfl fun k p hk => hund ▸ hk⟩
    · obtain ⟨pin, hle, hj, hfresh⟩ := h.executed k mode j receipt writes hk
      exact ⟨pin, hle, hj, fun hvalid => (hfresh hvalid).congr rfl fun k p hk => hund ▸ hk⟩

variable {mode : Mode}

theorem Serialized.execute {j j' : ScratchJournal} (hphase : s.phase i = .pinned mode j)
    (hex : (tx i).executeTxIntoJournal transferGas s.world j = .ok (j', receipt, writes))
    (hquiet : ∀ k p, undrained keccak s k = some p → ∀ a ∈ (tx i).parties, p a = none) :
    Serialized keccak transferGas tx w₀ (s.setPhase i (.executed mode j' receipt writes)) := by
  refine h.setPhase s.execLock (by rw [hphase]; rfl) rfl nofun fun _ _ _ _ heq => ?_
  cases heq
  obtain ⟨pin, hle, rfl⟩ := h.pinned i mode j hphase
  have hj := Transfer.executeTxIntoJournal_journaled hex
  refine ⟨pin, hle, hj, ?_, fun k p hk a ha => hquiet k p hk a (hj.touched a ha)⟩
  refine Transfer.executeTxIntoJournal_congr hex fun a ha => ?_
  exact (h.overlaid.settled a fun k p hk => hquiet k p hk a (hj.touched a ha)).symm

omit h in
omit [DecidableEq ι] in
theorem Fresh.runAlone_eq {pin : ReadVersion}
    (h : Fresh keccak transferGas tx w₀ s i pin j receipt writes) :
    (serial keccak transferGas tx w₀ (s.log ++ [i])).getAccount =
      (j.patch keccak).apply (serial keccak transferGas tx w₀ s.log).getAccount := by
  have hzero : (tx i).executeTxIntoJournal transferGas (serial keccak transferGas tx w₀ s.log)
      ((({} : ScratchJournal).pinAt pin).repin 0) = _ := Transfer.executeTxIntoJournal_repin ..
  rw [h.serial_ok, ScratchJournal.pinAt_repin] at hzero
  rw [serial, List.foldl_append, List.foldl_cons, List.foldl_nil, ← serial, runAlone, hzero]
  exact getAccount_drainJournal _ _

theorem Serialized.commit {writes bumped : WriteSet}
    (hroom : s.coordinator.stateVersion.toNat + 1 < UInt64.size)
    (hphase : s.phase i = .executed mode j receipt writes)
    (hvalid : j.readSet.isValidAt s.coordinator.versionOf)
    (hbumped : bumped = j.writeSet ∨ bumped = writes) : Serialized keccak transferGas tx w₀
      (s.commit i mode j receipt (s.coordinator.commitWritesSerialized bumped).2) := by
  obtain ⟨pin, hle, hj, hfresh⟩ := h.executed i mode j receipt writes hphase
  have hfresh := hfresh hvalid
  have hkeys : ∀ a, j.patch keccak a ≠ none → a ∈ j.readSet.accounts ∧ a ∈ bumped := by
    intro a ha
    have hmem : a ∈ j.pending := by
      by_contra hmem
      exact ha (by simp [ScratchJournal.patch, ExtTreeMap.getElem?_eq_none hmem])
    obtain ⟨hread, hwrite⟩ := hj.covered a hmem
    rcases hbumped with rfl | rfl
    · exact ⟨hread, hwrite⟩
    · exact ⟨hread, hj.writes ▸ hj.touched a hread⟩
  have hnone : undrained keccak s i = none := by rw [undrained, hphase]; rfl
  have hund : undrained keccak (s.commit i mode j receipt
      (s.coordinator.commitWritesSerialized bumped).2) =
        Function.update (undrained keccak s) i (some (j.patch keccak)) :=
    undrained_setPhase keccak s i (.committed mode j receipt)
  have hnext : s.coordinator.stateVersion ≤ s.coordinator.stateVersion + 1 := by
    rw [UInt64.le_iff_toNat_le, UInt64.toNat_add, UInt64.toNat_one, Nat.mod_eq_of_lt hroom]
    exact Nat.le_succ _
  refine ⟨?_, fun k mode' j' hk => ?_, fun k mode' j' receipt' writes' hk => ?_⟩
  · rw [hund]
    have hlog := hfresh.runAlone_eq
    have hover := h.overlaid.commit (p := j.patch keccak) hnone fun k q a hk ha =>
      hfresh.untouched k q hk a (hkeys a ha).1
    rwa [← hlog] at hover
  · rcases setPhase_phase hk with ⟨-, hk⟩ | ⟨-, hk⟩
    · cases hk
    · obtain ⟨pin', hle', hj'⟩ := h.pinned k mode' j' hk
      exact ⟨pin', UInt64.le_trans hle' hnext, hj'⟩
  rcases setPhase_phase hk with ⟨-, hk⟩ | ⟨-, hk⟩
  · cases hk
  obtain ⟨pin', hle', hj', hfresh'⟩ := h.executed k mode' j' receipt' writes' hk
  refine ⟨pin', UInt64.le_trans hle' hnext, hj', fun hvalid' => ?_⟩
  -- what the other call read is not among the accounts this commit gives the new version
  obtain ⟨hvalid', hapart⟩ := CommitCoordinator.isValidAt_of_commit hj'.pinned hle' hroom hvalid'
  have hapart : ∀ a ∈ j'.readSet.accounts, j.patch keccak a = none := by
    intro a ha
    by_contra hne
    exact hapart a ha (hkeys a hne).2
  have hfresh' := hfresh' hvalid'
  refine ⟨Transfer.executeTxIntoJournal_congr hfresh'.serial_ok fun a ha => ?_, fun l p hl a ha => ?_⟩
  · have hsame := congrFun hfresh.runAlone_eq a
    rw [Patch.apply, hapart a ha] at hsame
    exact hsame
  rw [hund] at hl
  by_cases hli : l = i
  · subst hli
    rw [Function.update_self] at hl
    cases hl
    exact hapart a ha
  · rw [Function.update_of_ne hli] at hl
    exact hfresh'.untouched l p hl a ha

theorem Serialized.drain (hphase : s.phase i = .committed mode j receipt) (lock : Bool) :
    Serialized keccak transferGas tx w₀ { s.setPhase i (.done receipt) with
      world := drainJournal keccak s.world j, execLock := lock } := by
  have hund : undrained keccak { s.setPhase i (.done receipt) with
      world := drainJournal keccak s.world j, execLock := lock } =
        Function.update (undrained keccak s) i none :=
    undrained_setPhase keccak s i (.done receipt)
  refine ⟨?_, fun k mode' j' hk => ?_, fun k mode' j' receipt' writes' hk => ?_⟩
  · rw [hund, getAccount_drainJournal]
    exact h.overlaid.drain (by rw [undrained, hphase]; rfl)
  · rcases setPhase_phase hk with ⟨-, hk⟩ | ⟨-, hk⟩
    · cases hk
    · exact h.pinned k mode' j' hk
  rcases setPhase_phase hk with ⟨-, hk⟩ | ⟨-, hk⟩
  · cases hk
  obtain ⟨pin, hle, hj, hfresh⟩ := h.executed k mode' j' receipt' writes' hk
  refine ⟨pin, hle, hj, fun hvalid => (hfresh hvalid).congr rfl fun l p hl => ?_⟩
  rw [hund] at hl
  by_cases hli : l = i
  · subst hli
    rw [Function.update_self] at hl
    cases hl
  · rwa [Function.update_of_ne hli] at hl

end

/-- The next step of a call at the phase reads nothing still to be drained and, on the serial path,
commits only what is still valid. -/
def CautiousAt (tx : ι → Transfer) (s : Concurrent ι) (i : ι) : Phase → Prop
  | .pinned _ _ => ∀ k, (tx i).parties.any (s.phase k).toDrain = false
  | .executed .serial j _ _ => j.readSet.isValidAt s.coordinator.versionOf
  | _ => True

def Cautious (tx : ι → Transfer) (s : Concurrent ι) (i : ι) : Prop := CautiousAt tx s i (s.phase i)

instance [Fintype ι] (s : Concurrent ι) (i : ι) : (p : Phase) → Decidable (CautiousAt tx s i p)
  | .pinned _ _ =>
    inferInstanceAs (Decidable (∀ k, (tx i).parties.any (s.phase k).toDrain = false))
  | .executed .serial j _ _ =>
    inferInstanceAs (Decidable (j.readSet.isValidAt s.coordinator.versionOf = true))
  | .executed (.fast _) .. | .start _ | .waiting | .committed .. | .done _ | .failed _ =>
    inferInstanceAs (Decidable True)

instance [Fintype ι] (s : Concurrent ι) (i : ι) : Decidable (Cautious tx s i) :=
  inferInstanceAs (Decidable (CautiousAt tx s i (s.phase i)))

theorem Serialized.step (h : Serialized keccak transferGas tx w₀ s) (hc : Cautious tx s i)
    (hroom : s'.log.length = s.log.length + 1 → s.coordinator.stateVersion.toNat + 1 < UInt64.size)
    (hs : Step keccak transferGas tx s i s') : Serialized keccak transferGas tx w₀ s' := by
  cases hs with
  | pin hphase =>
    refine h.setPhase s.execLock (by rw [hphase]; rfl) rfl (fun _ _ heq => ?_) nofun
    cases heq
    exact ⟨_, UInt64.le_refl _, rfl⟩
  | quiet hi hp =>
    rcases hp with ⟨mode, rfl⟩ | rfl | ⟨e, rfl⟩
    all_goals exact h.setPhase _ hi rfl nofun nofun
  | execute hphase hex =>
    refine h.execute hphase hex fun k p hk a ha => ?_
    unfold undrained Phase.undrained at hk
    split at hk
    · next hcommitted =>
      cases hk
      rw [Cautious, hphase] at hc
      have ha : (s.phase k).toDrain a = false := by simpa using List.any_eq_false.mp (hc k) a ha
      rw [hcommitted, Phase.toDrain, ← Bool.not_eq_true, ExtTreeMap.contains_iff_mem] at ha
      simp [ScratchJournal.patch, ExtTreeMap.getElem?_eq_none ha]
    · cases hk
  | commit hphase hbump =>
    replace hroom := hroom List.length_append
    rcases hbump with ⟨hvalid, hbumped⟩ | ⟨rfl, hbumped⟩
    · exact h.commit hroom hphase hvalid (.inl hbumped)
    · rw [Cautious, hphase] at hc
      exact h.commit hroom hphase hc (.inr hbumped)
  | drain hphase => exact h.drain hphase _

def init (w : World) (c : CommitCoordinator) : Concurrent ι := { world := w, coordinator := c }

def Counted (v : ReadVersion) (s : Concurrent ι) : Prop :=
  s.coordinator.stateVersion.toNat = (v.toNat + s.log.length) % UInt64.size

theorem Counted.step {v : ReadVersion} (h : Counted v s) (hs : Step keccak transferGas tx s i s') :
    Counted v s' ∧ (s'.log = s.log ∨ s'.log.length = s.log.length + 1) := by
  cases hs with
  | pin | quiet | execute | drain => exact ⟨h, .inl rfl⟩
  | commit =>
    refine ⟨?_, .inr List.length_append⟩
    have hnext : (s.coordinator.stateVersion + 1).toNat =
        (s.coordinator.stateVersion.toNat + 1) % UInt64.size := UInt64.toNat_add ..
    rw [Counted] at h ⊢
    refine hnext.trans ?_
    rw [h, Nat.mod_add_mod, Concurrent.commit, List.length_append, List.length_singleton, Nat.add_assoc]

/-- In every run of cautious steps whose commits the version counter has room for, once every
committed journal is drained, balances and nonces are those of the committed transfers executed one
at a time, in the order of their versions. -/
theorem cautious_runs_are_serial {c : CommitCoordinator} {schedule : List ι}
    (hr : Transition.Runs (fun s i s' => Cautious tx s i ∧ advance keccak transferGas tx s i = some s')
      (Concurrent.init w₀ c) schedule s)
    (hroom : c.stateVersion.toNat + s.log.length < 2 ^ 64)
    (hdrained : ∀ i, (s.phase i).drained) (a : Address) :
    (s.world.getAccount a).balance =
        ((serial keccak transferGas tx w₀ s.log).getAccount a).balance ∧
      (s.world.getAccount a).nonce = ((serial keccak transferGas tx w₀ s.log).getAccount a).nonce := by
  have h : Serialized keccak transferGas tx w₀ s := by
    -- the log only grows, so room at the end is room before each commit
    refine (hr.invariant (P := fun s => Counted c.stateVersion s ∧
      (c.stateVersion.toNat + s.log.length < UInt64.size → Serialized keccak transferGas tx w₀ s))
      ?_ ?_).2 hroom
    · exact ⟨(Nat.mod_eq_of_lt c.stateVersion.toNat_lt_size).symm,
        fun _ => ⟨Overlaid.init _, nofun, nofun⟩⟩
    · rintro s i s' ⟨hcount, h⟩ ⟨hcautious, hadv⟩
      have hs := advance_step _ _ _ hadv
      obtain ⟨hcount', hlog⟩ := hcount.step hs
      refine ⟨hcount', fun hroom => ?_⟩
      have hle : s.log.length ≤ s'.log.length := by
        rcases hlog with hlog | hlog
        · rw [hlog]
        · omega
      refine (h (by omega)).step hcautious (fun hlen => ?_) hs
      rw [hcount, Nat.mod_eq_of_lt (by omega)]
      omega
  have hnone : ∀ i, undrained keccak s i = none := by
    intro i
    unfold undrained Phase.undrained
    split
    · next hcommitted =>
      have := hdrained i
      rw [hcommitted] at this
      cases this
    · rfl
  rw [h.overlaid.eq_of_settled hnone]
  exact ⟨rfl, rfl⟩

end Serializability

/-! Two senders with one recipient. -/

def twoSenders : World where
  accounts := ExtTreeMap.ofList [((1 : Address), ({ balance := 100 } : AccountState)), (2, { balance := 100 })]

def sendTen (sender : Bool) : Transfer where
  sender := if sender then 2 else 1
  recipient := some 3
  value := 10
  nonce := 0
  gasLimit := 21000
  gasPrice := 0

theorem cautious_runs_are_serial_in_turn : ∃ s : Concurrent Bool, s.log = [false, true] ∧
    (s.world.getAccount 3).balance = 20 ∧
    ((s.world.getAccount 3).balance =
        ((serial (fun _ => 0) 21000 sendTen twoSenders s.log).getAccount 3).balance ∧
      (s.world.getAccount 3).nonce =
        ((serial (fun _ => 0) 21000 sendTen twoSenders s.log).getAccount 3).nonce) := by
  obtain ⟨s, hs, hdone, hlog, hbalance⟩ := Transition.Runs.exists_foldlM
    (fun s i => if Cautious sendTen s i then advance (fun _ => 0) 21000 sendTen s i else none)
    (Concurrent.init twoSenders {}) [false, false, false, false, true, true, true, true]
    (p := fun s => (∀ i, (s.phase i).drained) ∧ s.log = [false, true] ∧
      (s.world.getAccount 3).balance = 20) (by decide)
  have hr := hs.imp fun s i s' _ hstep =>
    (Option.ite_none_right_eq_some.mp hstep : Cautious sendTen s i ∧ _)
  exact ⟨s, hlog, hbalance, cautious_runs_are_serial hr (hlog ▸ by decide) hdone 3⟩

theorem lost_update : ∃ s : Concurrent Bool,
    Transition.Runs (fun s i s' => advance (fun _ => 0) 21000 sendTen s i = some s')
      (Concurrent.init twoSenders {}) [false, false, false, true, true, true, false, true] s ∧
    (∀ i, (s.phase i).isDone) ∧ s.log = [false, true] ∧
    (s.world.getAccount 3).balance = 10 ∧
    ((serial (fun _ => 0) 21000 sendTen twoSenders s.log).getAccount 3).balance = 20 :=
  Transition.Runs.exists_foldlM (advance (fun _ => 0) 21000 sendTen) _ _ (by decide)

end Concurrent

end CitrateChain.Execution
