import CitrateChain.Node.FloorSafety

/-! # The certified floor below the ring

A spine rebuild raises the floor to the highest registered certificate whose block is applied. The
candidates below the ring share one walk, which refuses to be asked for a height twice: of several
certificates of one height only the one with the greatest hash is looked up. -/
namespace CitrateChain.Node.CanonicalApplicator
open Consensus (Hash Block)
open Storage
variable {P : Type} {app : CanonicalApplicator P} {s : BlockStore} {st : AppliedState}

def Before (c d : UInt64 × Hash) : Prop := d.1 < c.1 ∨ d.1 = c.1 ∧ d.2 < c.2

variable {c d : UInt64 × Hash}

theorem Before.height_le (h : Before c d) : d.1 ≤ c.1 := by
  rcases h with hlt | ⟨heq, -⟩
  · exact hlt.le
  · exact heq.le

theorem before_of_compare (h : compare d c = .lt) : Before c d := by
  have h : (compare d.1 c.1).then (compare d.2 c.2) = .lt := h
  rw [Ordering.then_eq_lt, Std.compare_eq_lt, Std.LawfulEqCmp.compare_eq_iff_eq] at h
  rcases h with hlt | ⟨heq, hlt⟩
  · exact .inl hlt
  · exact .inr ⟨heq, compareOfLessAndEq_eq_lt.mp hlt⟩

theorem floorCandidates_sorted (app : CanonicalApplicator P) : app.floorCandidates.Pairwise Before := by
  refine List.Pairwise.filter _ (List.pairwise_reverse.mpr ?_)
  exact Std.ExtTreeMap.ordered_keys.imp before_of_compare

theorem mem_floorCandidates {c : UInt64 × Hash} : c ∈ app.floorCandidates ↔
    c ∈ app.certifiedPending ∧ app.finalizedHeight < c.1 ∧ c.1 ≤ app.state.tip.height := by
  simp [floorCandidates, Std.ExtTreeMap.mem_keys]

def RingOnLineage (s : BlockStore) (st : AppliedState) : Prop :=
  ∀ h hash, st.ringHash h = some hash → Lineage s st.tip ⟨hash, h⟩

abbrev IsCanonical (s : BlockStore) (st : AppliedState) (c : UInt64 × Hash) : Prop :=
  Lineage s st.tip ⟨c.2, c.1⟩

/-- A canonical candidate the loop notices: the ring holds its height, or the walk was not yet asked
for its height when its turn comes. -/
structure Noticed (s : BlockStore) (st : AppliedState) (last : Option UInt64)
    (cs : List (UInt64 × Hash)) (c : UInt64 × Hash) : Prop where
  mem : c ∈ cs
  canonical : IsCanonical s st c
  asked : st.ringHash c.1 = none → (∀ t ∈ last, c.1 < t) ∧ ∀ d ∈ cs, d.1 = c.1 → d.2 ≤ c.2

theorem ring_iff (hring : RingOnLineage s st) {c : UInt64 × Hash} {h : Hash}
    (hh : st.ringHash c.1 = some h) : some h = some c.2 ↔ IsCanonical s st c := by
  constructor
  · intro heq
    rw [heq] at hh
    exact hring _ _ hh
  · intro hc
    have heq := (hring _ _ hh).unique hc rfl
    exact congrArg some (congrArg AppliedTip.hash heq)

theorem canonicalHere_walk {w : AppliedWalk} {height : UInt64} (hstored : StoredChain s st.tip)
    (hw : w.Ready s st.tip) (hfailed : w.failed = none) (hring : st.ringHash height = none) :
    ((∃ t ∈ w.lastTarget, t ≤ height) ∧ canonicalHere s st (some w) height = (none, some w)) ∨
      ∃ here w', canonicalHere s st (some w) height = (here, some w') ∧
        (∀ t ∈ w.lastTarget, height < t) ∧ w'.Ready s st.tip ∧ w'.failed = none ∧
        w'.lastTarget = some height ∧
        ∀ hash, here = some hash ↔ IsCanonical s st (height, hash) := by
  rcases hat : w.hashAt s height with ⟨r, w'⟩
  rcases hw.cases hfailed hat with ⟨hlast, ⟨e, rfl⟩, rfl⟩ | ⟨-, -, -, hnot⟩ |
    ⟨found, rfl, hbelow, hfail, hlast, hready, hiff⟩
  · refine .inl ⟨hlast, ?_⟩
    simp [canonicalHere, hring, hat]
  · exact absurd hstored hnot
  · refine .inr ⟨found, w', ?_, hbelow, hready, hfail, hlast, hiff⟩
    simp [canonicalHere, hring, hat]

def Highest (s : BlockStore) (st : AppliedState) (last : Option UInt64) (cs : List (UInt64 × Hash)) :
    Option (UInt64 × Hash) → Prop
  | none => ∀ c, ¬Noticed s st last cs c
  | some c => Noticed s st last cs c ∧ ∀ d, Noticed s st last cs d → d.1 ≤ c.1

variable {last last' : Option UInt64}

theorem Highest.congr {cs cs' : List (UInt64 × Hash)} {r : Option (UInt64 × Hash)}
    (h : Highest s st last cs r) (hiff : ∀ c, Noticed s st last' cs' c ↔ Noticed s st last cs c) :
    Highest s st last' cs' r := by
  cases r with
  | none => exact fun c hc => h c ((hiff c).mp hc)
  | some c => exact ⟨(hiff c).mpr h.1, fun d hd => h.2 d ((hiff d).mp hd)⟩

variable {cs : List (UInt64 × Hash)}

theorem Highest.head {last : Option UInt64} {a : UInt64 × Hash}
    (hsorted : (a :: cs).Pairwise Before) (ha : IsCanonical s st a)
    (hlast : st.ringHash a.1 = none → ∀ t ∈ last, a.1 < t) :
    Highest s st last (a :: cs) (some a) := by
  obtain ⟨hbefore, -⟩ := List.pairwise_cons.mp hsorted
  refine ⟨⟨List.mem_cons_self, ha, fun hnone => ⟨hlast hnone, ?_⟩⟩, ?_⟩
  · intro d hd heq
    rcases List.mem_cons.mp hd with rfl | hd
    · exact BitVec.le_refl _
    · rcases hbefore d hd with hlt | ⟨-, hlt⟩
      · exact absurd heq hlt.ne
      · exact BitVec.le_of_lt hlt
  · intro d hd
    rcases List.mem_cons.mp hd.mem with rfl | hd
    · exact le_rfl
    · exact (hbefore d hd).height_le

theorem noticed_cons_iff {a : UInt64 × Hash} (hnot : ¬Noticed s st last (a :: cs) a)
    (hasked : ∀ c ∈ cs, st.ringHash c.1 = none →
      ((∀ t ∈ last', c.1 < t) ↔ (∀ t ∈ last, c.1 < t) ∧ (a.1 = c.1 → a.2 ≤ c.2)))
    (c : UInt64 × Hash) : Noticed s st last (a :: cs) c ↔ Noticed s st last' cs c := by
  constructor
  · intro hc
    rcases List.mem_cons.mp hc.mem with rfl | hmem
    · exact absurd hc hnot
    · refine ⟨hmem, hc.canonical, fun hnone => ?_⟩
      obtain ⟨hlast, hall⟩ := hc.asked hnone
      have ha := hall a List.mem_cons_self
      exact ⟨(hasked c hmem hnone).mpr ⟨hlast, ha⟩, fun d hd => hall d (List.mem_cons_of_mem _ hd)⟩
  · intro hc
    refine ⟨List.mem_cons_of_mem _ hc.mem, hc.canonical, fun hnone => ?_⟩
    obtain ⟨hlast, hall⟩ := hc.asked hnone
    obtain ⟨hlast, ha⟩ := (hasked c hc.mem hnone).mp hlast
    refine ⟨hlast, fun d hd => ?_⟩
    rcases List.mem_cons.mp hd with rfl | hd
    · exact ha
    · exact hall d hd

theorem firstCanonical_highest {w : AppliedWalk} (hstored : StoredChain s st.tip)
    (hring : RingOnLineage s st) (hw : w.Ready s st.tip) (hfailed : w.failed = none)
    (hsorted : cs.Pairwise Before) :
    Highest s st w.lastTarget cs (firstCanonical s st (some w) cs) := by
  induction cs generalizing w with
  | nil => exact fun c hc => absurd hc.mem List.not_mem_nil
  | cons a cs ih =>
    obtain ⟨hbefore, hrest⟩ := List.pairwise_cons.mp hsorted
    rw [firstCanonical]
    cases hheld : st.ringHash a.1 with
    | some h =>
      simp only [canonicalHere, hheld]
      split
      · rename_i heq
        refine Highest.head hsorted ((ring_iff hring hheld).mp heq) fun hnone => ?_
        cases hheld.symm.trans hnone
      · rename_i hne
        refine (ih hw hfailed hrest).congr (noticed_cons_iff ?_ ?_)
        · exact fun ha => hne ((ring_iff hring hheld).mpr ha.canonical)
        · intro c hc hnone
          refine ⟨fun hlast => ⟨hlast, fun heq => ?_⟩, fun h => h.1⟩
          rw [← heq, hheld] at hnone
          cases hnone
    | none =>
      rcases canonicalHere_walk hstored hw hfailed hheld with ⟨⟨t, ht, hle⟩, hhere⟩ |
        ⟨here, w', hhere, hlast, hw', hfailed', hlast', hiff⟩
      · -- the walk was asked for this height by a candidate before
        rw [hhere]
        simp only [reduceCtorEq, if_false]
        refine (ih hw hfailed hrest).congr (noticed_cons_iff ?_ ?_)
        · intro ha
          have hlt := (ha.asked hheld).1 t ht
          exact absurd hle (not_le.mpr hlt)
        · intro c hc hnone
          refine ⟨fun hlast => ⟨hlast, fun heq => ?_⟩, fun h => h.1⟩
          rw [heq] at hle
          exact absurd hle (not_le.mpr (hlast t ht))
      · rw [hhere]
        simp only
        split
        · rename_i heq
          exact Highest.head hsorted ((hiff a.2).mp heq) fun _ => hlast
        rename_i hne
        refine (ih hw' hfailed' hrest).congr (noticed_cons_iff ?_ ?_)
        · exact fun ha => hne ((hiff a.2).mpr ha.canonical)
        intro c hc hnone
        rw [hlast']
        constructor
        · intro h
          have hlt := h a.1 rfl
          refine ⟨fun t ht => lt_trans hlt (hlast t ht), fun heq => ?_⟩
          exact absurd heq hlt.ne'
        · rintro ⟨-, hle⟩ t ht
          cases ht
          rcases hbefore c hc with hlt | ⟨heq, hlt⟩
          · exact hlt
          · exact absurd hlt (BitVec.not_lt.mpr (hle heq.symm))

/-- The heights the floor may be raised to: those of the registered certificates whose block is the
applied block at its height. -/
def certifiedHeights (app : CanonicalApplicator P) : Set UInt64 :=
  {h | ∃ hash, (h, hash) ∈ app.certifiedPending ∧
    Lineage app.storage.blocks app.state.tip ⟨hash, h⟩}

def FloorIsGreatest (app : CanonicalApplicator P) (floor : UInt64) : Prop :=
  IsGreatest (insert app.finalizedHeight app.certifiedHeights) floor

/-- Of the certificates of the highest certified height, none that is not applied comes before the
applied one, unless the ring holds that height. -/
def HighestUnshadowed (app : CanonicalApplicator P) : Prop :=
  ∀ h hash, IsGreatest app.certifiedHeights h → app.finalizedHeight < h →
    (h, hash) ∈ app.certifiedPending → Lineage app.storage.blocks app.state.tip ⟨hash, h⟩ →
    app.state.ringHash h = none → ∀ other, (h, other) ∈ app.certifiedPending → other ≤ hash

theorem effectiveFloor_true (app : CanonicalApplicator P) : (app.effectiveFloor true).1 =
      match firstCanonical app.storage.blocks app.state (some (.new app.state.tip))
        app.floorCandidates with
      | none => app.finalizedHeight
      | some c => max app.finalizedHeight c.1 := by
  unfold effectiveFloor
  simp only [if_true]
  cases firstCanonical app.storage.blocks app.state (some (.new app.state.tip))
      app.floorCandidates with
  | none => rfl
  | some c => rfl

section Outcome
variable (hstored : StoredChain app.storage.blocks app.state.tip)
  (hring : RingOnLineage app.storage.blocks app.state)
include hstored hring

theorem effectiveFloor_cases_true : ((app.effectiveFloor true).1 = app.finalizedHeight ∧
      ∀ c, ¬Noticed app.storage.blocks app.state none app.floorCandidates c) ∨
    ∃ c, (app.effectiveFloor true).1 = c.1 ∧ app.finalizedHeight < c.1 ∧
      c ∈ app.certifiedPending ∧ Noticed app.storage.blocks app.state none app.floorCandidates c ∧
      ∀ d, Noticed app.storage.blocks app.state none app.floorCandidates d → d.1 ≤ c.1 := by
  have hhighest := firstCanonical_highest hstored hring (AppliedWalk.ready_new _ _) rfl
    app.floorCandidates_sorted
  rw [effectiveFloor_true]
  cases hfirst : firstCanonical app.storage.blocks app.state (some (.new app.state.tip))
      app.floorCandidates with
  | none =>
    rw [hfirst] at hhighest
    exact .inl ⟨rfl, hhighest⟩
  | some c =>
    rw [hfirst] at hhighest
    obtain ⟨hc, hmax⟩ := hhighest
    obtain ⟨hmem, hlt, -⟩ := mem_floorCandidates.mp hc.mem
    exact .inr ⟨c, max_eq_right hlt.le, hlt, hmem, hc, hmax⟩

/-- With the walk below the ring the floor is the greatest of the stored floor and the heights whose
applied block is certified, exactly when the applied block of the highest such height is not
shadowed by another certificate of that height. -/
theorem effectiveFloor_greatest_iff :
    app.FloorIsGreatest (app.effectiveFloor true).1 ↔ app.HighestUnshadowed := by
  constructor
  · rintro ⟨hin, hupper⟩ h hash hgreatest hlt hmem hon hnone other hother
    have hle : h ≤ (app.effectiveFloor true).1 := hupper (.inr hgreatest.1)
    rcases effectiveFloor_cases_true hstored hring with ⟨hfloor, -⟩ | ⟨c, hfloor, -, hc, hnoticed, -⟩
    · rw [hfloor] at hle
      exact absurd hlt (not_lt.mpr hle)
    have hcanonical := hnoticed.canonical
    have hch : c.1 = h := by
      rw [hfloor] at hle
      exact le_antisymm (hgreatest.2 ⟨c.2, hc, hcanonical⟩) hle
    have heq := hcanonical.unique hon hch
    have hhash : c.2 = hash := congrArg AppliedTip.hash heq
    rw [← hch] at hnone hother
    have hcandidate : (c.1, other) ∈ app.floorCandidates := by
      rw [mem_floorCandidates]
      exact ⟨hother, hch ▸ hlt, hcanonical.height_le⟩
    rw [← hhash]
    exact (hnoticed.asked hnone).2 _ hcandidate rfl
  · intro hun
    -- the certified heights above the floor have a greatest one, if there is any
    by_cases hany : ∃ h ∈ app.certifiedHeights, app.finalizedHeight < h
    · obtain ⟨k, hk, hlow⟩ := hany
      obtain ⟨h, hgreatest⟩ := Word.exists_isGreatest ⟨k, hk⟩
      have hlt : app.finalizedHeight < h := lt_of_lt_of_le hlow (hgreatest.2 hk)
      obtain ⟨hash, hmem, hon⟩ := hgreatest.1
      have hnoticed : Noticed app.storage.blocks app.state none app.floorCandidates (h, hash) := by
        refine ⟨mem_floorCandidates.mpr ⟨hmem, hlt, hon.height_le⟩, hon, fun hnone => ⟨nofun, ?_⟩⟩
        rintro ⟨k, other⟩ hd hk
        obtain rfl : k = h := hk
        exact hun _ hash hgreatest hlt hmem hon hnone other (mem_floorCandidates.mp hd).1
      rcases effectiveFloor_cases_true hstored hring with ⟨-, hno⟩ | ⟨c, hfloor, -, hc, hcn, hmax⟩
      · exact absurd hnoticed (hno _)
      · have hch : c.1 = h := le_antisymm (hgreatest.2 ⟨c.2, hc, hcn.canonical⟩) (hmax _ hnoticed)
        rw [hfloor, hch]
        refine ⟨.inr hgreatest.1, ?_⟩
        rintro k (rfl | hk)
        · exact hlt.le
        · exact hgreatest.2 hk
    · rcases effectiveFloor_cases_true hstored hring with ⟨hfloor, -⟩ | ⟨c, -, hlt, hc, hcn, -⟩
      · rw [hfloor]
        refine ⟨.inl rfl, ?_⟩
        rintro k (rfl | hk)
        · exact le_rfl
        · exact not_lt.mp fun hlt => hany ⟨k, hk, hlt⟩
      · exact absurd ⟨c.1, ⟨c.2, hc, hcn.canonical⟩, hlt⟩ hany

end Outcome

def certifiedNode (other : Hash) : CanonicalApplicator Unit where
  storage :=
    { emptyStorage with
      blocks :=
        ((BlockStore.empty.putBlock { header := { blockHash := 10 } }).putBlock
          { header := { blockHash := 11, height := 1, selectedParentHash := 10 } }).putBlock
          { header := { blockHash := 12, height := 2, selectedParentHash := 11 } } }
  executor := ⟨{}, ()⟩
  state := ⟨⟨12, 2⟩, ∅⟩
  certifiedPending := ((∅ : PairSet UInt64 Hash).insert (1, 11) ()).insert (1, other) ()

section CertifiedNode
variable (other : Hash)

theorem certifiedNode_storedChain :
    StoredChain (certifiedNode other).storage.blocks (certifiedNode other).state.tip := by
  have h10 : Stands (certifiedNode other).storage.blocks ⟨10, 0⟩ := ⟨_, rfl, rfl⟩
  have h11 : Stands (certifiedNode other).storage.blocks ⟨11, 1⟩ := ⟨_, rfl, rfl⟩
  have h12 : Stands (certifiedNode other).storage.blocks ⟨12, 2⟩ := ⟨_, rfl, rfl⟩
  have hbottom := StoredChain.bottom h10 rfl
  have hmiddle := hbottom.step h11 ⟨_, rfl, rfl, rfl, by decide, h10⟩
  have hlt : (1 : UInt64) < 2 := by decide
  exact hmiddle.step h12 ⟨_, rfl, rfl, rfl, hlt, h11⟩

theorem certifiedNode_ring :
    RingOnLineage (certifiedNode other).storage.blocks (certifiedNode other).state := by
  intro h hash hheld
  simp [AppliedState.ringHash, certifiedNode] at hheld

theorem certifiedNode_applied :
    Lineage (certifiedNode other).storage.blocks (certifiedNode other).state.tip ⟨11, 1⟩ :=
  ⟨⟨12, 2⟩, rfl, le_rfl, ⟨_, rfl, rfl⟩, .single ⟨_, rfl, rfl, rfl, by decide, _, rfl, rfl⟩⟩

theorem mem_certifiedNode {c : UInt64 × Hash} :
    c ∈ (certifiedNode other).certifiedPending ↔ c = (1, other) ∨ c = (1, 11) := by
  simp only [certifiedNode, Std.ExtTreeMap.mem_insert, Std.LawfulEqCmp.compare_eq_iff_eq,
    Std.ExtTreeMap.not_mem_empty, or_false]
  rw [eq_comm, eq_comm (a := (1, 11))]

end CertifiedNode

theorem effectiveFloor_greatest_smaller_hash : ((certifiedNode 5).effectiveFloor true).1 = 1 ∧
      (certifiedNode 5).FloorIsGreatest ((certifiedNode 5).effectiveFloor true).1 := by
  have hiff := effectiveFloor_greatest_iff (certifiedNode_storedChain 5) (certifiedNode_ring 5)
  refine ⟨by decide, hiff.mpr ?_⟩
  intro h hash _ _ hmem hon _ other hother
  have hh : h = 1 := by
    rcases (mem_certifiedNode 5).mp hmem with heq | heq
    · exact congrArg Prod.fst heq
    · exact congrArg Prod.fst heq
  have hhash : hash = 11 := congrArg AppliedTip.hash (hon.unique (certifiedNode_applied 5) hh)
  rw [hhash]
  rcases (mem_certifiedNode 5).mp hother with heq | heq
  · rw [show other = 5 from congrArg Prod.snd heq]
    decide
  · rw [show other = 11 from congrArg Prod.snd heq]
    decide

theorem same_height_certificate_lost :
    StoredChain (certifiedNode 99).storage.blocks (certifiedNode 99).state.tip ∧
      RingOnLineage (certifiedNode 99).storage.blocks (certifiedNode 99).state ∧
      ((certifiedNode 99).effectiveFloor true).1 = 0 ∧
      ¬(certifiedNode 99).FloorIsGreatest ((certifiedNode 99).effectiveFloor true).1 := by
  have hfloor : ((certifiedNode 99).effectiveFloor true).1 = 0 := by decide
  refine ⟨certifiedNode_storedChain 99, certifiedNode_ring 99, hfloor, fun hgreatest => ?_⟩
  have hmem : (1, 11) ∈ (certifiedNode 99).certifiedPending := (mem_certifiedNode 99).mpr (.inr rfl)
  have hle : 1 ≤ ((certifiedNode 99).effectiveFloor true).1 :=
    hgreatest.2 (.inr ⟨11, hmem, certifiedNode_applied 99⟩)
  rw [hfloor] at hle
  exact absurd hle (by decide)

end CitrateChain.Node.CanonicalApplicator
