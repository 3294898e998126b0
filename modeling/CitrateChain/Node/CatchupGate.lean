import CitrateChain.Base.Runs
import CitrateChain.Storage.BlockStore

/-! # The producer's catch-up gate

A producer compares its applied tip with a watermark of the blocks it has heard of. Held evidence is a
block whose selected-parent chain it holds down to the selected head; deferred evidence it cannot
verify. Only held evidence can latch production off, and deferred evidence alone stops it for less than
a minute. -/
namespace CitrateChain.Node
open Consensus (Hash Block)
open Storage (BlockStore)
open Std (ExtTreeMap)
open Transition Word

/-- The selected head and the floor that a walk compares the blocks of the store with. -/
structure HeadWalk where
  storage : BlockStore
  target : Hash
  targetHeight : UInt64
  floor : UInt64

namespace HeadWalk
variable (d : HeadWalk)

def descendsLoop (memo : ExtTreeMap Hash Bool) (fuel : ℕ) (cursor : Hash) (path : List Hash) :
    Bool × List Hash :=
  match memo[cursor]? with
  | some verdict => (verdict, path)
  | none =>
    if cursor = d.target then (true, path)
    else if cursor = 0 then (false, path)
    else
      match fuel with
      | 0 => (false, path)
      | fuel + 1 =>
        match d.storage.getBlock cursor with
        | none => (false, path)
        | some b =>
          if b.height ≤ d.targetHeight ∨ b.height ≤ d.floor then (false, path)
          else descendsLoop memo fuel b.selectedParent (path ++ [cursor])

def descendsFromMemo (start : Hash) (memo : ExtTreeMap Hash Bool) : Bool × ExtTreeMap Hash Bool :=
  match memo[start]? with
  | some verdict => (verdict, memo)
  | none =>
    let walk := d.descendsLoop memo 100000 start []
    (walk.1, walk.2.foldl (fun memo node => memo.insert node walk.1) memo)

def consider (acc : UInt64 × ExtTreeMap Hash Bool) (c : Hash × UInt64) :
    UInt64 × ExtTreeMap Hash Bool :=
  if c.2 ≤ acc.1 then acc
  else
    let found := d.descendsFromMemo c.1 acc.2
    (if found.1 then c.2 else acc.1, found.2)

end HeadWalk

structure Watermarks where
  attestedAhead : UInt64
  deferredAhead : UInt64
  observed : List (Hash × UInt64)

def deferredEvidenceMaxLead : UInt64 := 32 * 16

/-- `observed` is the candidate record in its iteration order, `quorum` the deferred height that enough
fresh proposers vouch for. -/
def recomputeAttestedAhead (storage : BlockStore) (selected : Option (Hash × UInt64))
    (floor quorum : UInt64) (observed : List (Hash × UInt64)) : Watermarks :=
  match selected with
  | none => ⟨0, 0, observed⟩
  | some (selHash, selHeight) =>
    let bounded := min quorum (saturatingAdd selHeight deferredEvidenceMaxLead)
    let kept := observed.filter fun c => floor < c.2
    ⟨(kept.foldl (HeadWalk.consider ⟨storage, selHash, selHeight, floor⟩) (selHeight, ∅)).1,
      if selHeight < bounded then bounded else 0, kept⟩

namespace HeadWalk
variable (d : HeadWalk)

def Above (b : Block) : Prop := d.targetHeight < b.height ∧ d.floor < b.height

/-- The chain of a block reaches the target through held blocks that are above. The zero hash names no
block. -/
inductive Descends : Hash → Prop
  | here : Descends d.target
  | up {x : Hash} {b : Block} (hx : x ≠ 0) (hb : d.storage.getBlock x = some b) (habove : d.Above b)
      (h : Descends b.selectedParent) : Descends x

/-- A walk from the block visits `n` blocks before it comes to the target. -/
def Visits : ℕ → Hash → Prop
  | 0, _ => True
  | n + 1, x => x ≠ d.target ∧ x ≠ 0 ∧
      ∃ b, d.storage.getBlock x = some b ∧ d.Above b ∧ Visits n b.selectedParent

def MemoOk (memo : ExtTreeMap Hash Bool) : Prop :=
  ∀ x verdict, memo[x]? = some verdict → (verdict = true ↔ d.Descends x)

variable {d} {memo : ExtTreeMap Hash Bool}

theorem descends_iff {x : Hash} (hx : x ≠ d.target) : d.Descends x ↔
    x ≠ 0 ∧ ∃ b, d.storage.getBlock x = some b ∧ d.Above b ∧ d.Descends b.selectedParent := by
  constructor
  · intro h
    cases h with
    | here => exact absurd rfl hx
    | up h0 hb habove h => exact ⟨h0, _, hb, habove, h⟩
  · rintro ⟨h0, b, hb, habove, h⟩
    exact .up h0 hb habove h

theorem descendsLoop_spec (hm : d.MemoOk memo) {fuel : ℕ} {cursor : Hash} (path : List Hash)
    (hshort : ¬d.Visits fuel cursor) :
    let walk := d.descendsLoop memo fuel cursor path
    (walk.1 = true ↔ d.Descends cursor) ∧
      ∀ y ∈ walk.2, y ∈ path ∨ (d.Descends y ↔ d.Descends cursor) := by
  induction fuel generalizing cursor path with
  | zero => exact absurd trivial hshort
  | succ fuel ih =>
    unfold descendsLoop
    cases hmemo : memo[cursor]? with
    | some verdict => exact ⟨hm _ _ hmemo, fun _ => .inl⟩
    | none =>
      split_ifs with htarget hzero
      · exact ⟨iff_of_true rfl (htarget ▸ .here), fun _ => .inl⟩
      · refine ⟨iff_of_false nofun fun h => ?_, fun _ => .inl⟩
        exact ((descends_iff htarget).mp h).1 hzero
      have hdown := @descends_iff d cursor htarget
      cases hb : d.storage.getBlock cursor with
      | none => exact ⟨iff_of_false nofun fun h => by simp [hdown, hb] at h, fun _ => .inl⟩
      | some b =>
        simp only [hb, Option.some.injEq, exists_eq_left'] at hdown
        dsimp only
        split_ifs with hlow
        · refine ⟨iff_of_false nofun fun h => ?_, fun _ => .inl⟩
          have habove := (hdown.mp h).2.1
          exact hlow.elim (not_le.mpr habove.1) (not_le.mpr habove.2)
        have habove : d.Above b := by simpa [Above] using hlow
        have hparent := hdown.trans ⟨fun h => h.2.2, fun h => ⟨hzero, habove, h⟩⟩
        obtain ⟨hverdict, hpath⟩ := ih (path ++ [cursor]) fun hv =>
          hshort ⟨htarget, hzero, b, hb, habove, hv⟩
        refine ⟨hverdict.trans hparent.symm, fun y hy => ?_⟩
        rcases hpath y hy with hmem | hiff
        · rcases List.mem_append.mp hmem with hmem | hmem
          · exact .inl hmem
          · exact .inr (List.mem_singleton.mp hmem ▸ Iff.rfl)
        · exact .inr (hiff.trans hparent.symm)

theorem descendsFromMemo_spec (hm : d.MemoOk memo) {start : Hash} (hshort : ¬d.Visits 100000 start) :
    let found := d.descendsFromMemo start memo
    (found.1 = true ↔ d.Descends start) ∧ d.MemoOk found.2 := by
  rw [descendsFromMemo]
  cases hmemo : memo[start]? with
  | some verdict => exact ⟨hm _ _ hmemo, hm⟩
  | none =>
    obtain ⟨hverdict, hpath⟩ := descendsLoop_spec hm [] hshort
    refine ⟨hverdict, ?_⟩
    generalize d.descendsLoop memo 100000 start [] = walk at hverdict hpath
    have hall : ∀ y ∈ walk.2, (walk.1 = true ↔ d.Descends y) := fun y hy =>
      hverdict.trans ((hpath y hy).resolve_left List.not_mem_nil).symm
    refine List.foldlRecOn walk.2 _ hm fun memo hm y hy x verdict hx => ?_
    rcases TreeMap.getElem?_insert_eq_some.mp hx with ⟨rfl, rfl⟩ | ⟨-, hx⟩
    · exact hall y hy
    · exact hm x verdict hx

theorem consider_spec (hm : d.MemoOk memo) (best : UInt64) {c : Hash × UInt64}
    (hshort : ¬d.Visits 100000 c.1) :
    let acc := d.consider (best, memo) c
    best ≤ acc.1 ∧ (acc.1 = best ∨ acc.1 = c.2 ∧ d.Descends c.1) ∧
      (d.Descends c.1 → c.2 ≤ acc.1) ∧ d.MemoOk acc.2 := by
  obtain ⟨hverdict, hm'⟩ := descendsFromMemo_spec hm hshort
  unfold consider
  dsimp only
  split_ifs with hle hfound
  · exact ⟨le_rfl, .inl rfl, fun _ => hle, hm⟩
  · exact ⟨(not_le.mp hle).le, .inr ⟨rfl, hverdict.mp hfound⟩, fun _ => le_rfl, hm'⟩
  · exact ⟨le_rfl, .inl rfl, fun hd => absurd (hverdict.mpr hd) hfound, hm'⟩

theorem foldl_consider (hshort : ∀ x, ¬d.Visits 100000 x) (kept : List (Hash × UInt64))
    (hm : d.MemoOk memo) (best : UInt64) :
    IsGreatest {n | n = best ∨ ∃ x, (x, n) ∈ kept ∧ d.Descends x}
      (kept.foldl d.consider (best, memo)).1 := by
  induction kept generalizing best memo with
  | nil => exact ⟨.inl rfl, by rintro n (rfl | ⟨x, hx, -⟩) <;> simp_all⟩
  | cons c kept ih =>
    obtain ⟨hle, hbest, hc, hm'⟩ := consider_spec hm best (hshort c.1)
    obtain ⟨hmem, hub⟩ := ih hm' _
    constructor
    · rcases hmem with hmem | ⟨x, hx, hd⟩
      · rcases hbest with hbest | ⟨hbest, hd⟩
        · exact .inl (hmem.trans hbest)
        · exact .inr ⟨c.1, List.mem_cons.mpr (.inl (Prod.ext rfl (hmem.trans hbest))), hd⟩
      · exact .inr ⟨x, List.mem_cons_of_mem _ hx, hd⟩
    · rintro n (rfl | ⟨x, hx, hd⟩)
      · exact hle.trans (hub (.inl rfl))
      · rcases List.mem_cons.mp hx with rfl | hx
        · exact (hc hd).trans (hub (.inl rfl))
        · exact hub (.inr ⟨x, hx, hd⟩)

end HeadWalk

/-- Where no walk visits a hundred thousand blocks, the watermark is the greatest of the heights of the
selected head and of the candidates above the floor that descend from it, and no memo that walks of
other candidates have filled changes the verdict on a candidate. -/
theorem watermark_exact (d : HeadWalk) (hshort : ∀ x, ¬d.Visits 100000 x) (quorum : UInt64)
    (observed : List (Hash × UInt64)) :
    IsGreatest {n | n = d.targetHeight ∨ ∃ x, ((x, n) ∈ observed ∧ d.floor < n) ∧ d.Descends x}
      (recomputeAttestedAhead d.storage (some (d.target, d.targetHeight)) d.floor quorum
        observed).attestedAhead ∧
    ∀ (others : List Hash) x, (d.descendsFromMemo x
        (others.foldl (fun memo y => (d.descendsFromMemo y memo).2) ∅)).1 =
      (d.descendsFromMemo x ∅).1 := by
  have hempty : d.MemoOk ∅ := fun _ _ h => by simp at h
  refine ⟨?_, fun others x => ?_⟩
  · have hfold := HeadWalk.foldl_consider hshort (observed.filter fun c => d.floor < c.2) hempty d.targetHeight
    simpa [recomputeAttestedAhead] using hfold
  · have hmemo : d.MemoOk (others.foldl (fun memo y => (d.descendsFromMemo y memo).2) ∅) :=
      List.foldlRecOn others _ hempty fun memo hm y _ => (HeadWalk.descendsFromMemo_spec hm (hshort y)).2
    rw [Bool.eq_iff_iff, (HeadWalk.descendsFromMemo_spec hmemo (hshort x)).1,
      (HeadWalk.descendsFromMemo_spec hempty (hshort x)).1]

/-- The head 1 at height 3 with the chain 2, 3, 7 above it, beside the branch 4, 5, 6, 9 on its
sibling 8. -/
def forkedLinks : List Block :=
  [(1, 0, 3), (8, 0, 3), (2, 1, 4), (3, 2, 5), (7, 3, 6), (4, 8, 4), (5, 4, 5), (6, 5, 6),
    (9, 6, 7)].map fun (x, parent, height) =>
      { header := { blockHash := x, selectedParentHash := parent, height := height } }

theorem watermark_exact_forked :
    let d : HeadWalk :=
      ⟨{ BlockStore.empty with blocks x := forkedLinks.find? (·.hash = x) }, 1, 3, 0⟩
    let observed : List (Hash × UInt64) := [(6, 6), (9, 7), (3, 5), (7, 6)]
    (∀ x, ¬d.Visits 100000 x) ∧
      IsGreatest {n | n = 3 ∨ ∃ x, ((x, n) ∈ observed ∧ 0 < n) ∧ d.Descends x} 6 := by
  intro d observed
  have hheld : ∀ {x b}, d.storage.getBlock x = some b → b ∈ forkedLinks ∧ b.hash = x := by
    intro x b h
    replace h : forkedLinks.find? (·.hash = x) = some b := h
    exact ⟨List.mem_of_find?_eq_some h, by simpa using List.find?_some h⟩
  have hlower : ∀ b ∈ forkedLinks, ∀ b' ∈ forkedLinks, b'.hash = b.selectedParent →
      b'.height.toNat < b.height.toNat := by decide
  have hvisits : ∀ (n : ℕ) x b, d.storage.getBlock x = some b → d.Visits n x → n ≤ b.height.toNat := by
    intro n
    induction n with
    | zero => exact fun _ _ _ _ => Nat.zero_le _
    | succ n ih =>
      rintro x b hb ⟨-, -, b', hb', habove, hup⟩
      obtain rfl := Option.some.inj (hb.symm.trans hb')
      rcases n with _ | n
      · exact (UInt64.lt_iff_toNat_lt.mp habove.2 :)
      · obtain ⟨-, -, parent, hparent, -⟩ := id hup
        have hlt := hlower b (hheld hb).1 parent (hheld hparent).1 (hheld hparent).2
        exact (ih _ parent hparent hup).trans_lt hlt
  have hshort : ∀ x, ¬d.Visits 100000 x := by
    intro x hx
    obtain ⟨-, -, b, hb, -⟩ := id hx
    have hle := hvisits 100000 x b hb hx
    have hlow : ∀ b ∈ forkedLinks, b.height.toNat ≤ 7 := by decide
    exact absurd (hle.trans (hlow b (hheld hb).1)) (by decide)
  have hmark : (recomputeAttestedAhead d.storage (some (1, 3)) 0 0 observed).attestedAhead = 6 := by
    decide
  exact ⟨hshort, hmark ▸ (watermark_exact d hshort 0 observed).1⟩

def catchupRefuseGap : UInt64 := 3

def catchupResumeGap : UInt64 := 1

def deferredOnlyRefuseMax : ℕ := 60 * 10 ^ 9

def deferredOnlyWarnEvery : ℕ := 60 * 10 ^ 9

structure CatchupBehindState where
  refusing : Bool := false
  lastAppliedTip : UInt64 := 0
  lastProgress : ℕ
  stalledLatch : Bool := false
  deferredOnlySince : Option ℕ := none
  deferredOnlyWarned : Option ℕ := none

/-- `wired`: the watermark of attested heads is set up. -/
structure CatchupGate extends CatchupBehindState where
  wired : Bool
  overrideResume : Bool := false
  stallAlert : Bool := false
  stallAlertAfter : ℕ

/-- What one round reads: the applied tip, the two watermarks, the clock of the candidate record, and
the wall clock at the three places where the round may look at it. -/
structure Round where
  localTip : UInt64
  held : UInt64
  deferred : UInt64
  now : ℕ
  progressAt : ℕ
  enteredAt : ℕ
  elapsedAt : ℕ

inductive CatchupRefusal
  | latched (gap : UInt64) (stallAlertAfter : ℕ)
  | stalled (gap : UInt64) (stallAlertAfter : ℕ)
  | behind (gap attested localTip : UInt64)
  deriving DecidableEq

namespace CatchupGate

def deferredForRound (g : CatchupGate) (r : Round) : CatchupGate × UInt64 :=
  if catchupResumeGap < saturatingSub r.deferred r.localTip ∧
      saturatingSub r.held r.localTip ≤ catchupResumeGap then
    let since := g.deferredOnlySince.getD r.now
    let g := { g with deferredOnlySince := some since }
    if r.now - since < deferredOnlyRefuseMax then (g, r.deferred)
    else if g.deferredOnlyWarned.all fun t => deferredOnlyWarnEvery ≤ r.now - t then
      ({ g with deferredOnlyWarned := some r.now }, 0)
    else (g, 0)
  else ({ g with deferredOnlySince := none }, r.deferred)

def noteProgress (g : CatchupGate) (r : Round) : CatchupGate :=
  if g.lastAppliedTip < r.localTip then
    { g with lastAppliedTip := r.localTip, lastProgress := r.progressAt }
  else g

def enterRefuseBand (g : CatchupGate) (r : Round) (gap : UInt64) : CatchupGate :=
  if g.refusing = false ∧ catchupRefuseGap < gap then
    { g with refusing := true, lastAppliedTip := r.localTip, lastProgress := r.enteredAt }
  else g

def evaluateNetworkHeight (g : CatchupGate) (r : Round) : CatchupGate × Except CatchupRefusal Unit :=
  if g.wired = false then (g, .ok ())
  else
    let (g, deferred) := g.deferredForRound r
    let attested := max r.held deferred
    let gap := saturatingSub attested r.localTip
    if g.overrideResume then
      ({ g with
        overrideResume := false, refusing := false, stalledLatch := false
        lastAppliedTip := r.localTip, lastProgress := r.progressAt, stallAlert := false }, .ok ())
    else
      let g := g.noteProgress r
      if g.stalledLatch then (g, .error (.latched gap g.stallAlertAfter))
      else if g.refusing ∧ gap ≤ catchupResumeGap then
        ({ g with refusing := false, stallAlert := false }, .ok ())
      else
        let g := g.enterRefuseBand r gap
        if g.refusing = false then (g, .ok ())
        else if catchupResumeGap < saturatingSub r.held r.localTip ∧
            g.stallAlertAfter ≤ r.elapsedAt - g.lastProgress then
          ({ g with stalledLatch := true, stallAlert := true },
            .error (.stalled gap g.stallAlertAfter))
        else (g, .error (.behind gap attested r.localTip))

/-- A round with its outcome, or an operator who sets the override. -/
inductive Event
  | round (r : Round) (outcome : Except CatchupRefusal Unit)
  | override

def step (g : CatchupGate) : Event → CatchupGate → Prop
  | .round r outcome, g' => g.evaluateNetworkHeight r = (g', outcome)
  | .override, g' => g' = { g with overrideResume := true }

def Event.Before : Event → Event → Prop
  | .round r _, .round r' _ => r.now ≤ r'.now
  | _, _ => True

abbrev Calm (r : Round) : Prop := saturatingSub r.held r.localTip ≤ 1

variable {g g' : CatchupGate} {r : Round} {outcome : Except CatchupRefusal Unit}

theorem deferredForRound_spec (g : CatchupGate) (r : Round) :
    ∃ since warned, (g.deferredForRound r).1 =
        { g with deferredOnlySince := since, deferredOnlyWarned := warned } ∧
      (∀ t ∈ since, t = g.deferredOnlySince.getD r.now) ∧
      (Calm r → catchupResumeGap < saturatingSub (max r.held (g.deferredForRound r).2) r.localTip →
        ∃ t ∈ since, r.now < t + deferredOnlyRefuseMax) := by
  have hcalm : Calm r → ∀ deferred, catchupResumeGap < saturatingSub (max r.held deferred) r.localTip →
      catchupResumeGap < saturatingSub deferred r.localTip := by
    intro h deferred hgap
    rcases max_choice r.held deferred with hmax | hmax
    · exact absurd (hmax ▸ hgap) (not_lt.mpr h)
    · exact hmax ▸ hgap
  have hzero : ¬catchupResumeGap < saturatingSub 0 r.localTip := by
    rw [UInt64.lt_iff_toNat_lt, saturatingSub_toNat]
    simp
  unfold deferredForRound
  dsimp only
  split_ifs with honly hshort hdue
  · exact ⟨_, _, rfl, fun t ht => (Option.some.inj ht).symm, fun _ _ => ⟨_, rfl, by omega⟩⟩
  · exact ⟨_, _, rfl, fun t ht => (Option.some.inj ht).symm, fun h hgap => absurd (hcalm h _ hgap) hzero⟩
  · exact ⟨_, _, rfl, fun t ht => (Option.some.inj ht).symm, fun h hgap => absurd (hcalm h _ hgap) hzero⟩
  · exact ⟨_, _, rfl, nofun, fun h hgap => absurd ⟨hcalm h _ hgap, h⟩ honly⟩

theorem noteProgress_eq (g : CatchupGate) (r : Round) :
    ∃ tip time, g.noteProgress r = { g with lastAppliedTip := tip, lastProgress := time } := by
  unfold noteProgress
  split_ifs
  · exact ⟨_, _, rfl⟩
  · exact ⟨_, _, rfl⟩

theorem enterRefuseBand_eq (g : CatchupGate) (r : Round) (gap : UInt64) : ∃ refusing tip time,
    g.enterRefuseBand r gap =
      { g with refusing := refusing, lastAppliedTip := tip, lastProgress := time } ∧
    (refusing = true → g.refusing = true ∨ catchupRefuseGap < gap) := by
  unfold enterRefuseBand
  split_ifs with h
  · exact ⟨_, _, _, rfl, fun _ => .inr h.2⟩
  · exact ⟨_, _, _, rfl, .inl⟩

theorem evaluate_spec (h : g.evaluateNetworkHeight r = (g', outcome)) :
    g'.wired = g.wired ∧ (∀ t ∈ g'.deferredOnlySince, t = g.deferredOnlySince.getD r.now) ∧
    (g'.stalledLatch = true → g.stalledLatch = true ∨ g.wired = true ∧ ¬Calm r) ∧
    (g.stalledLatch = false → Calm r → outcome ≠ .ok () →
      ∃ t ∈ g'.deferredOnlySince, r.now < t + deferredOnlyRefuseMax) ∧
    (g.stalledLatch = true → g.wired = true → g.overrideResume = false →
      outcome ≠ .ok () ∧ g'.stalledLatch = true ∧ g'.overrideResume = false) := by
  obtain ⟨since, warned, hgate, hsince, hcalm⟩ := g.deferredForRound_spec r
  have hgate : g.deferredForRound r = (_, (g.deferredForRound r).2) := Prod.ext hgate rfl
  generalize (g.deferredForRound r).2 = deferred at hgate hcalm
  unfold evaluateNetworkHeight at h
  rw [hgate] at h
  dsimp only at h
  generalize saturatingSub (max r.held deferred) r.localTip = gap at h hcalm
  obtain ⟨_, _, hprogress⟩ := noteProgress_eq
    { g with deferredOnlySince := since, deferredOnlyWarned := warned } r
  rw [hprogress] at h
  obtain ⟨refusing, _, _, henter, hrefusing⟩ := enterRefuseBand_eq
    { g with deferredOnlySince := since, deferredOnlyWarned := warned, lastAppliedTip := _, lastProgress := _} r gap
  rw [henter] at h
  split_ifs at h with hwired hoverride hstalled hresume hidle halert
  all_goals obtain ⟨rfl, rfl⟩ := Prod.mk.inj h
  · refine ⟨rfl, fun t ht => by rw [Option.mem_def.mp ht]; rfl, .inl, fun _ _ h => absurd rfl h, ?_⟩
    exact fun _ hw => absurd hw (by simp [hwired])
  · exact ⟨rfl, hsince, nofun, fun _ _ h => absurd rfl h,
      fun _ _ h => absurd hoverride (by simp [h])⟩
  · exact ⟨rfl, hsince, .inl, fun h => absurd hstalled (by simp [h]),
      fun _ _ h => ⟨nofun, hstalled, h⟩⟩
  · exact ⟨rfl, hsince, .inl, fun _ _ h => absurd rfl h, fun h => absurd h hstalled⟩
  · exact ⟨rfl, hsince, .inl, fun _ _ h => absurd rfl h, fun h => absurd h hstalled⟩
  all_goals
    have hgap : catchupResumeGap < gap := by
      rcases hrefusing (by simpa using hidle) with hold | hnew
      · exact not_le.mp fun hle => hresume ⟨hold, hle⟩
      · exact lt_trans (by decide) hnew
    refine ⟨rfl, hsince, ?_, fun _ h _ => hcalm h hgap, fun h => absurd h hstalled⟩
  · exact fun _ => .inr ⟨by simpa using hwired, not_le.mpr halert.1⟩
  · exact .inl

/-- The two facts about a gate that was set up without a latch: only a wired one latches, and a
deferred-only episode started in one of its rounds. -/
structure Kept (before : List Event) (g : CatchupGate) : Prop where
  wired (h : g.stalledLatch = true) : g.wired = true
  began : ∀ t ∈ g.deferredOnlySince, ∃ r outcome, .round r outcome ∈ before ∧ r.now = t

theorem Kept.step {before : List Event} {e : Event} (h : Kept before g) (hs : g.step e g') :
    Kept (before ++ [e]) g' := by
  have hold : ∀ t ∈ g.deferredOnlySince, ∃ r outcome, .round r outcome ∈ before ++ [e] ∧ r.now = t := by
    intro t ht
    obtain ⟨r, outcome, hr, hnow⟩ := h.began t ht
    exact ⟨r, outcome, List.mem_append_left _ hr, hnow⟩
  cases e with
  | override =>
    cases hs
    exact ⟨h.wired, hold⟩
  | round r outcome =>
    obtain ⟨hwired, hsince, hlatch, -⟩ := evaluate_spec hs
    refine ⟨fun hset => hwired ▸ (hlatch hset).elim h.wired And.left, fun t ht => ?_⟩
    cases hg : g.deferredOnlySince with
    | none => exact ⟨r, outcome, by simp, by simpa [hg] using (hsince t ht).symm⟩
    | some t' =>
      obtain rfl : t = t' := by simpa [hg] using hsince t ht
      exact hold t hg

theorem step_calm {e : Event} (hcalm : ∀ r outcome, e = .round r outcome → Calm r)
    (hoff : g.stalledLatch = false) (hs : g.step e g') : g'.stalledLatch = false ∧
    (∀ r refusal, e = .round r (.error refusal) →
      ∃ t, g'.deferredOnlySince = some t ∧ r.now < t + deferredOnlyRefuseMax) ∧
    ((∀ r, e ≠ .round r (.ok ())) → ∀ t, g.deferredOnlySince = some t → g'.deferredOnlySince = some t) := by
  cases e with
  | override =>
    cases hs
    exact ⟨hoff, nofun, fun _ _ => id⟩
  | round r outcome =>
    have hcalm := hcalm r outcome rfl
    obtain ⟨-, hsince, hlatch, hrefused, -⟩ := evaluate_spec hs
    have hrefused := hrefused hoff hcalm
    refine ⟨?_, ?_, ?_⟩
    · by_contra hset
      rcases hlatch (by simpa using hset) with h | h
      · simp [hoff] at h
      · exact h.2 hcalm
    · rintro r refusal ⟨⟩
      exact hrefused nofun
    · intro hnot t ht
      obtain ⟨t', ht', -⟩ := hrefused fun hok => hnot r (hok ▸ rfl)
      rw [ht', hsince t' ht', ht, Option.getD_some]

theorem runs_calm {during : List Event} (hr : Runs step g during g')
    (hcalm : ∀ r outcome, .round r outcome ∈ during → Calm r) (hoff : g.stalledLatch = false) :
    g'.stalledLatch = false ∧ ((∀ r, .round r (.ok ()) ∉ during) →
      ∀ t, g.deferredOnlySince = some t → g'.deferredOnlySince = some t) := by
  have hr : Runs (fun g e g' => g.step e g' ∧ e ∈ during) g during g' :=
    hr.imp fun _ _ _ hmem hs => ⟨hs, hmem⟩
  refine hr.invariant (P := fun u => u.stalledLatch = false ∧ ((∀ r, .round r (.ok ()) ∉ during) →
    ∀ t, g.deferredOnlySince = some t → u.deferredOnlySince = some t)) ⟨hoff, fun _ _ => id⟩ ?_
  intro u e v h hs
  obtain ⟨hoff', -, hkeep⟩ := step_calm (fun r outcome he => hcalm r outcome (he ▸ hs.2)) h.1 hs.1
  exact ⟨hoff', fun hnot t ht => hkeep (fun r he => hnot r (he ▸ hs.2)) t (h.2 hnot t ht)⟩

end CatchupGate

open CatchupGate in
/-- While what a node holds is at most one block ahead of its applied tip, no evidence that it cannot
verify latches its production off, and a row of refusals lasts less than a minute. A latched gate
refuses every round until one finds the override. -/
theorem unverified_evidence_never_stops {g₀ g g' : CatchupGate} {before during : List Event}
    (hlatch : g₀.stalledLatch = false) (hsince : g₀.deferredOnlySince = none)
    (hbefore : Runs step g₀ before g) (hduring : Runs step g during g')
    (hclock : (before ++ during).Pairwise Event.Before) :
    (g.stalledLatch = false → (∀ r outcome, .round r outcome ∈ during → Calm r) →
      g'.stalledLatch = false ∧
      ∀ pre r refusal mid r' refusal' post,
        during = pre ++ .round r (.error refusal) :: (mid ++ .round r' (.error refusal') :: post) →
        (∀ q, .round q (.ok ()) ∉ mid) → r'.now < r.now + deferredOnlyRefuseMax) ∧
    (g.stalledLatch = true → g.overrideResume = false → .override ∉ during →
      ∀ r, .round r (.ok ()) ∉ during) := by
  have hkept : Kept before g := hbefore.history (P := Kept)
    ⟨fun h => by simp [hlatch] at h, fun t ht => by simp [hsince] at ht⟩ fun _ _ _ _ => Kept.step
  refine ⟨fun hoff hcalm => ⟨(runs_calm hduring hcalm hoff).1, ?_⟩, fun hset hnone hover => ?_⟩
  · rintro pre r refusal mid r' refusal' post rfl hmid
    obtain ⟨u, hpre, hrest⟩ := hduring.append_inv
    obtain ⟨v, hfirst, hrest⟩ := hrest.cons_inv
    obtain ⟨w, hmiddle, hrest⟩ := hrest.append_inv
    obtain ⟨z, hlast, -⟩ := hrest.cons_inv
    have hoffu := (runs_calm hpre (fun r o h => hcalm r o (by simp [h])) hoff).1
    obtain ⟨hoffv, hstart, -⟩ := step_calm (fun q o h => hcalm q o (by rw [← h]; simp)) hoffu hfirst
    obtain ⟨t, ht, -⟩ := hstart r refusal rfl
    have hw := runs_calm hmiddle (fun r o h => hcalm r o (by simp [h])) hoffv
    obtain ⟨-, hend, hkeep⟩ := step_calm (fun q o h => hcalm q o (by rw [← h]; simp)) hw.1 hlast
    obtain ⟨t', ht', hbound⟩ := hend r' refusal' rfl
    obtain rfl : t = t' := by
      simpa [ht'] using (hkeep nofun t (hw.2 hmid t ht)).symm
    -- the episode began in a round up to the first refusal
    have hle : t ≤ r.now := by
      have hkv : Kept ((before ++ pre) ++ [.round r (.error refusal)]) v :=
        ((hpre.history (P := fun pre => Kept (before ++ pre)) (by simpa using hkept)
          fun _ _ _ _ h hs => by simpa using h.step hs)).step hfirst
      obtain ⟨q, outcome, hq, rfl⟩ := hkv.began t ht
      rw [← List.append_assoc] at hclock
      rcases List.mem_append.mp hq with hq | hq
      · exact (List.pairwise_append.mp hclock).2.2 _ hq _ List.mem_cons_self
      · cases List.mem_singleton.mp hq
        exact le_rfl
    omega
  · refine (hduring.history (P := fun during u => .override ∉ during → u.stalledLatch = true ∧
      u.wired = true ∧ u.overrideResume = false ∧ ∀ r, .round r (.ok ()) ∉ during)
      (fun _ => ⟨hset, hkept.wired hset, hnone, by simp⟩) ?_ hover).2.2.2
    intro during u e v h hs hover
    obtain ⟨hdone, hnew⟩ := not_or.mp (mt List.mem_append.mpr hover)
    obtain ⟨hset, hwired, hnone, hall⟩ := h hdone
    cases e with
    | override => simp at hnew
    | round q outcome =>
      obtain ⟨hw, -, -, -, hrefuse⟩ := evaluate_spec hs
      obtain ⟨hout, hset', hnone'⟩ := hrefuse hset hwired hnone
      refine ⟨hset', hw.trans hwired, hnone', fun r hr => ?_⟩
      rcases List.mem_append.mp hr with hr | hr
      · exact hall r hr
      · cases List.mem_singleton.mp hr
        exact hout rfl

theorem unverified_evidence_two_rounds :
    let g₀ : CatchupGate := { lastProgress := 0, wired := true, stallAlertAfter := 0 }
    let round := fun now => (⟨0, 0, 9, now, now, now, now⟩ : Round)
    ∃ g', Runs CatchupGate.step g₀
        [.round (round 0) (.error (.behind 9 9 0)), .round (round deferredOnlyRefuseMax) (.ok ())] g' ∧
      g'.stalledLatch = false := by
  intro g₀ round
  have hstep (g : CatchupGate) (r : Round) : g.step (.round r (g.evaluateNetworkHeight r).2)
    (g.evaluateNetworkHeight r).1 := rfl
  have hfirst : (g₀.evaluateNetworkHeight (round 0)).2 = .error (.behind 9 9 0) := by decide
  have hsecond : ((g₀.evaluateNetworkHeight (round 0)).1.evaluateNetworkHeight
    (round deferredOnlyRefuseMax)).2 = .ok () := by decide
  have hrun := Runs.head (hfirst ▸ hstep g₀ (round 0)) (.head (hsecond ▸ hstep _ (round _)) .refl)
  refine ⟨_, hrun, ((unverified_evidence_never_stops rfl rfl .refl hrun ?_).1 rfl ?_).1⟩
  · simp [round, CatchupGate.Event.Before]
  · intro r outcome hr
    simp only [List.mem_cons, CatchupGate.Event.round.injEq, List.not_mem_nil, or_false] at hr
    obtain ⟨rfl, -⟩ | ⟨rfl, -⟩ := hr
    all_goals decide

end CitrateChain.Node
