import CitrateChain.Node.AppliedChain

/-! # The canonical applicator: floor, drain and production

The node's applied state with its finality floor. Certificates wait in a pending set until their
block is the applied block at its height; the floor is then raised to it. -/
namespace CitrateChain.Node
open Std (ExtTreeMap)
open Consensus (Hash Block)
open Execution Storage AppliedWalk

def registryEpoch : UInt64 := 1000

def snapshotLag : UInt64 := 200

def snapshotEpochAt (height : UInt64) : Option UInt64 := do
  let n ← Word.checkedAdd height snapshotLag
  if n % registryEpoch = 0 ∧ 1 ≤ n / registryEpoch then some (n / registryEpoch) else none

def greatestSnapshotAt (height : UInt64) : Option UInt64 := do
  let n ← Word.checkedAdd height snapshotLag
  let e := n / registryEpoch
  if e = 0 then none
  else
    let m ← Word.checkedMul e registryEpoch
    if snapshotLag ≤ m then some (m - snapshotLag) else none

/-- What the registry hooks do to the reward policy: the full sync after a committed block, and the
two policy-only hooks of a reorg. -/
structure RegistryHooks (P : Type) where
  sync : Option (UInt64 → Executor P → P) := none
  policyResync : Option (UInt64 → Executor P → Except String P) := none
  policySeed : Option (UInt64 → Executor P → Except String P) := none

def maybeSyncRegistry {P : Type} (hooks : RegistryHooks P) (ex : Executor P) (height : UInt64) :
    Executor P :=
  match hooks.sync with
  | some hook =>
    if (snapshotEpochAt height).isSome then { ex with rewardPolicy := hook height ex } else ex
  | none => ex

structure CanonicalApplicator (P : Type) where
  storage : StorageManager
  executor : Executor P
  state : AppliedState
  finalizedHeight : UInt64 := 0
  certifiedPending : PairSet UInt64 Hash := ∅
  raised : List AppliedTip := []

namespace CanonicalApplicator
variable {P : Type}

abbrev blocks (app : CanonicalApplicator P) : KvStore Hash Block := app.storage.blocks.blocks

def registerCertified (app : CanonicalApplicator P) (height : UInt64) (hash : Hash) :
    CanonicalApplicator P :=
  if height ≤ app.finalizedHeight then app
  else { app with certifiedPending := app.certifiedPending.insert (height, hash) () }

def raiseFloor (app : CanonicalApplicator P) (height : UInt64) (hash : Hash) (covered : UInt64) :
    CanonicalApplicator P :=
  { app with
    finalizedHeight := max app.finalizedHeight height
    certifiedPending := app.certifiedPending.filter fun c _ => covered < c.1
    raised := ⟨hash, height⟩ :: app.raised }

def floorCandidates (app : CanonicalApplicator P) : List (UInt64 × Hash) :=
  app.certifiedPending.keys.reverse.filter fun c =>
    app.finalizedHeight < c.1 && c.1 ≤ app.state.tip.height

/-- The applied block at a candidate's height: from the ring, or from the walk below it. -/
def canonicalHere (s : BlockStore) (st : AppliedState) (walk : Option AppliedWalk)
    (height : UInt64) : Option Hash × Option AppliedWalk :=
  match st.ringHash height, walk with
  | some h, walk => (some h, walk)
  | none, none => (none, none)
  | none, some w =>
    match w.hashAt s height with
    | (.ok h, w) => (h, some w)
    | (.error _, w) => (none, some w)

def firstCanonical (s : BlockStore) (st : AppliedState) :
    Option AppliedWalk → List (UInt64 × Hash) → Option (UInt64 × Hash)
  | _, [] => none
  | walk, (height, hash) :: rest =>
    let (here, walk) := canonicalHere s st walk height
    if here = some hash then some (height, hash) else firstCanonical s st walk rest

def effectiveFloor (app : CanonicalApplicator P) (walkBelowRing : Bool) :
    UInt64 × CanonicalApplicator P :=
  let walk := if walkBelowRing then some (new app.state.tip) else none
  match firstCanonical app.storage.blocks app.state walk app.floorCandidates with
  | none => (app.finalizedHeight, app)
  | some (height, hash) =>
    let raised := max app.finalizedHeight height
    (raised, app.raiseFloor height hash raised)

inductive FloorCheck
  | matches
  | mismatch (canonical : Option Hash)
  | notYetApplied (appliedHeight : UInt64)
  | unverifiable (e : String)

def floorVerifyAttempts : ℕ := 3

def floorRecheckMaxSteps : UInt64 := 256

/-- Where a `verify_certified_floor` call stands. Only the reads of the tip and the confirmation hold
the advance lock; the walk between them does not. -/
inductive VerifyPc
  | start (attempts : ℕ)
  | walking (attempts : ℕ) (walked : AppliedTip)
  | confirming (attempts : ℕ) (walked : AppliedTip) (found : Option Hash)
  | returned (check : FloorCheck)

structure VerifyCall where
  height : UInt64
  hash : Hash
  raise : Bool
  pc : VerifyPc := .start floorVerifyAttempts

/-- The applied tip is the walked one, or a short forward extension of it. -/
def walkStands (s : BlockStore) (now walked : AppliedTip) : Bool :=
  now = walked ||
    (walked.height < now.height && Word.saturatingSub now.height walked.height ≤ floorRecheckMaxSteps &&
      match appliedHashAtHeight s now walked.height with
      | .ok (some h) => h = walked.hash
      | _ => false)

def verifyStep (app : CanonicalApplicator P) (call : VerifyCall) :
    VerifyCall × CanonicalApplicator P :=
  match call.pc with
  | .start 0 =>
    ({ call with pc := .returned (.unverifiable
      s!"the applied chain kept moving during {floorVerifyAttempts} attempts") }, app)
  | .start (n + 1) =>
    let walked := app.state.tip
    if walked.height < call.height then
      ({ call with pc := .returned (.notYetApplied walked.height) }, app)
    else ({ call with pc := .walking n walked }, app)
  | .walking n walked =>
    match appliedHashAtHeight app.storage.blocks walked call.height with
    | .error e => ({ call with pc := .returned (.unverifiable e) }, app)
    | .ok found => ({ call with pc := .confirming n walked found }, app)
  | .confirming n walked found =>
    if walkStands app.storage.blocks app.state.tip walked = false then
      ({ call with pc := .start n }, app)
    else if found ≠ some call.hash then ({ call with pc := .returned (.mismatch found) }, app)
    else ({ call with pc := .returned .matches },
      if call.raise then app.raiseFloor call.height call.hash call.height else app)
  | .returned _ => (call, app)

structure DrainOutcome where
  applied : List Hash
  rejected : Option (Hash × String)

/-- `persist_applied` and the tail of an applied block: the ring, the tip pointer, the registry. -/
def recordApplied (hooks : RegistryHooks P) (app : CanonicalApplicator P) (b : Block) :
    CanonicalApplicator P :=
  { app with
    state := app.state.record b.hash b.height app.executor.db
    storage := { app.storage with blocks := app.storage.blocks.putAppliedTip ⟨b.hash, b.height⟩ }
    executor := maybeSyncRegistry hooks app.executor b.height }

def extensions (s : BlockStore) (tip : AppliedTip) : List Block :=
  ((s.getChildren tip.hash).filterMap s.getBlock).filter fun b =>
    b.selectedParent = tip.hash ∧ some b.height = Word.checkedAdd tip.height 1

def nextPersistedExtension (s : BlockStore) (tip : AppliedTip) : Except Unit (Option Block) :=
  match extensions s tip with
  | [] => .ok none
  | [b] => .ok (some b)
  | _ => .error ()

def drainLoop (rt : Runtime P) (hooks : RegistryHooks P) (fault : Hash → Option String) :
    ℕ → List Hash → CanonicalApplicator P → DrainOutcome × CanonicalApplicator P
  | 0, applied, app => (⟨applied, none⟩, app)
  | n + 1, applied, app =>
    match nextPersistedExtension app.storage.blocks app.state.tip with
    | .ok (some b) =>
      match Executor.applyBlock rt app.executor app.storage b (fault b.hash) with
      | (.ok _, ex, st) =>
        drainLoop rt hooks fault n (applied ++ [b.hash])
          (recordApplied hooks { app with executor := ex, storage := st } b)
      | (.error (.stateRootMismatch expected got), ex, st) =>
        (⟨applied, some (b.hash, s!"state root mismatch: claimed {expected}, computed {got}")⟩,
          { app with executor := ex, storage := st })
      | (.error e, ex, st) =>
        (⟨applied, some (b.hash, s!"execution error: {e}")⟩,
          { app with executor := ex, storage := st })
    | _ => (⟨applied, none⟩, app)

def drainForward (rt : Runtime P) (hooks : RegistryHooks P) (fault : Hash → Option String)
    (app : CanonicalApplicator P) : DrainOutcome × CanonicalApplicator P :=
  drainLoop rt hooks fault UInt64.size [] app

/-- A sealed block: refused off the applied tip, executed and rooted, stored, committed with the
tip, then recorded. An error drops the round and its in-memory effects. -/
def produceBlock (rt : Runtime P) (hooks : RegistryHooks P) (fault : Option String)
    (app : CanonicalApplicator P) (b : Block) : CanonicalApplicator P :=
  if b.selectedParent ≠ app.state.tip.hash ∨ some b.height ≠ Word.checkedAdd app.state.tip.height 1
  then app
  else match rt.execute app.executor.rewardPolicy app.executor.db.toWorld b with
    | .error _ => app
    | .ok (effects, _) =>
      let rooted := Executor.executeAndRoot rt app.executor.db b effects true
      if rooted.1 ≠ b.stateRoot then app
      else
        let st := { app.storage with blocks := app.storage.blocks.putBlock b }
        match Executor.persistStateChangesWithUndo rt rooted.2 st ⟨b.hash, b.height⟩ {}
          (some (modelJobPreImages app.executor.db.toWorld rooted.2.toWorld)) fault with
        | (.error _, st) => { app with storage := st }
        | (.ok db, st) =>
          recordApplied hooks { app with executor := { app.executor with db }, storage := st } b

def storeBlock (app : CanonicalApplicator P) (b : Block) : CanonicalApplicator P :=
  { app with storage := { app.storage with blocks := app.storage.blocks.putBlock b } }

section Floor
variable {g : Hash} {app app' : CanonicalApplicator P} {s : BlockStore} {st : AppliedState}

def RingOnChain (blocks : KvStore Hash Block) (st : AppliedState) : Prop :=
  ∀ h hash, st.ringHash h = some hash → OnChain blocks st.tip ⟨hash, h⟩

section

variable (hwf : WellFormed g s.blocks) (hr : Rooted g s.blocks st.tip)
  (hring : RingOnChain s.blocks st)
include hwf hr hring

theorem canonicalHere_sound {walk walk' : Option AppliedWalk} {height : UInt64} {here : Option Hash}
    (hw : ∀ w ∈ walk, w.tip = st.tip ∧ w.Sound s.blocks)
    (h : canonicalHere s st walk height = (here, walk')) :
    (∀ w ∈ walk', w.tip = st.tip ∧ w.Sound s.blocks) ∧
      ∀ hash, here = some hash → OnChain s.blocks st.tip ⟨hash, height⟩ := by
  revert h
  fun_cases canonicalHere s st walk height with
  | case1 _ found hfound =>
    rintro ⟨⟩
    refine ⟨hw, ?_⟩
    rintro _ ⟨⟩
    exact hring _ _ hfound
  | case2 =>
    rintro ⟨⟩
    exact ⟨nofun, nofun⟩
  | case3 w _ found w' hat =>
    rintro ⟨⟩
    obtain ⟨htip, hsound⟩ := hw w rfl
    rw [← htip] at hr ⊢
    obtain ⟨htip', hsound', hon⟩ := hsound.hashAt hwf hr hat
    refine ⟨?_, fun hash heq => hon hash (heq ▸ rfl)⟩
    rintro _ ⟨⟩
    exact ⟨htip', hsound'⟩
  | case4 w _ _ w' hat =>
    rintro ⟨⟩
    obtain ⟨htip, hsound⟩ := hw w rfl
    rw [← htip] at hr ⊢
    obtain ⟨htip', hsound', -⟩ := hsound.hashAt hwf hr hat
    refine ⟨?_, nofun⟩
    rintro _ ⟨⟩
    exact ⟨htip', hsound'⟩

theorem firstCanonical_sound {walk : Option AppliedWalk} {cs : List (UInt64 × Hash)}
    {height : UInt64} {hash : Hash} (hw : ∀ w ∈ walk, w.tip = st.tip ∧ w.Sound s.blocks)
    (h : firstCanonical s st walk cs = some (height, hash)) :
    OnChain s.blocks st.tip ⟨hash, height⟩ := by
  induction cs generalizing walk with
  | nil => cases h
  | cons c cs ih =>
    rcases hhere : canonicalHere s st walk c.1 with ⟨here, walk'⟩
    obtain ⟨hw', hon⟩ := canonicalHere_sound hwf hr hring hw hhere
    simp only [firstCanonical, hhere] at h
    split at h
    · rename_i heq
      cases h
      exact hon _ heq
    · exact ih hw' h

end

theorem registerCertified_frame (app : CanonicalApplicator P) (height : UInt64) (hash : Hash) :
    (app.registerCertified height hash).storage = app.storage ∧
      (app.registerCertified height hash).executor = app.executor ∧
      (app.registerCertified height hash).state = app.state := by
  fun_cases registerCertified app height hash <;> exact ⟨rfl, rfl, rfl⟩

theorem verifyStep_frame (app : CanonicalApplicator P) (call : VerifyCall) :
    (app.verifyStep call).2.storage = app.storage ∧
      (app.verifyStep call).2.executor = app.executor ∧
      (app.verifyStep call).2.state = app.state := by
  fun_cases verifyStep app call with
  | case8 => cases call.raise <;> exact ⟨rfl, rfl, rfl⟩
  | _ => exact ⟨rfl, rfl, rfl⟩

variable {walkBelowRing : Bool}

theorem effectiveFloor_frame {floor : UInt64}
    (h : app.effectiveFloor walkBelowRing = (floor, app')) :
    app'.storage = app.storage ∧ app'.executor = app.executor ∧ app'.state = app.state ∧
      floor = app'.finalizedHeight := by
  revert h
  fun_cases app.effectiveFloor walkBelowRing
  all_goals
    intro h
    obtain ⟨rfl, rfl⟩ := Prod.mk.inj h
    exact ⟨rfl, rfl, rfl, rfl⟩

theorem effectiveFloor_cases {floor : UInt64} (hwf : WellFormed g app.blocks)
    (hr : Rooted g app.blocks app.state.tip) (hring : RingOnChain app.blocks app.state)
    (h : app.effectiveFloor walkBelowRing = (floor, app')) : app' = app ∨ ∃ height hash covered,
      OnChain app.blocks app.state.tip ⟨hash, height⟩ ∧ app' = app.raiseFloor height hash covered := by
  have hw : ∀ w ∈ if walkBelowRing then some (new app.state.tip) else none,
      w.tip = app.state.tip ∧ w.Sound app.blocks := by
    intro w hw
    cases walkBelowRing with
    | false => cases hw
    | true =>
      cases hw
      exact ⟨rfl, sound_new _ _⟩
  revert h
  fun_cases app.effectiveFloor walkBelowRing with
  | case1 => exact fun h => .inl (Prod.mk.inj h).2.symm
  | case2 _ height hash hfirst =>
    exact fun h => .inr ⟨height, hash, _, firstCanonical_sound hwf hr hring hw hfirst,
      (Prod.mk.inj h).2.symm⟩

end Floor

end CanonicalApplicator

end CitrateChain.Node
