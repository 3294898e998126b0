import CitrateChain.Consensus.Rehydration

/-! # Scores that do not depend on claims

No derivation reads a claimed score, so changing the claim of one block leaves every score of fork choice
as it is. The exception is a block that is registered while its score can neither be derived nor found
as an anchor: it is ranked by what its header claims. -/
namespace CitrateChain.Consensus
open Transition Word GhostDag

def Block.withClaim (b : Block) (score : UInt64) (work : BitVec 128) : Block :=
  { b with header := { b.header with blueScore := score, blueWork := work } }

namespace GhostDag
variable {g g' h h' : GhostDag} {b b' : Block} {x y : Hash}

def Twin (x : Hash) (b b' : Block) : Prop := b' = b ∨ b.hash = x ∧ ∃ score work, b' = b.withClaim score work

def TwinStores (x : Hash) (blocks blocks' : KvStore Hash Block) : Prop :=
  ∀ y, Option.Rel (Twin x) (blocks y) (blocks' y)

/-- A call on the engine, or a change of the DAG store below it: blocks come and go, and with them
anchors. -/
inductive ScoreCall
  | addBlock (b : Block)
  | registerExistingBlock (b : Block)
  | changeStore (blocks : KvStore Hash Block) (kept : Hash → Bool)

def call (g : GhostDag) : ScoreCall → Except GhostDagError GhostDag
  | .addBlock b => g.addBlock b
  | .registerExistingBlock b => g.registerExistingBlock b
  | .changeStore blocks kept =>
    .ok { g with dagStore := { g.dagStore with
      blocks := blocks
      derivedScores := fun x => if kept x then g.dagStore.derivedScores x else none } }

inductive TwinCall (x : Hash) : ScoreCall → ScoreCall → Prop
  | addBlock {b b' : Block} (h : Twin x b b') : TwinCall x (.addBlock b) (.addBlock b')
  | registerExistingBlock {b b' : Block} (h : Twin x b b') :
      TwinCall x (.registerExistingBlock b) (.registerExistingBlock b')
  | changeStore {blocks blocks' : KvStore Hash Block} (h : TwinStores x blocks blocks')
      (kept : Hash → Bool) : TwinCall x (.changeStore blocks kept) (.changeStore blocks' kept)

def Backed (g : GhostDag) (b : Block) : Prop :=
  (∃ s, g.deriveScoreAndWork b = .ok s) ∨ ∃ a, g.dagStore.derivedScores b.hash = some a

def Calls (g : GhostDag) (c : ScoreCall) (g' : GhostDag) : Prop := g.call c = .ok g'

def BackedCalls (x : Hash) (g : GhostDag) (c : ScoreCall) (g' : GhostDag) : Prop :=
  g.call c = .ok g' ∧ ∀ b, c = .registerExistingBlock b → b.hash = x → g.Backed b

theorem Twin.claim (ht : Twin x b b') : ∃ score work, b' = b.withClaim score work := by
  rcases ht with rfl | ⟨-, ht⟩
  · exact ⟨b'.header.blueScore, b'.header.blueWork, rfl⟩
  · exact ht

/-- The engines agree but for the claim of the block `x` in their stores. -/
structure Matches (x : Hash) (g h : GhostDag) : Prop where
  k : g.params.k = h.params.k
  entries : ∀ y, g.entry y = h.entry y
  tips : g.tips = h.tips
  anchors : g.dagStore.derivedScores = h.dagStore.derivedScores
  blocks : TwinStores x g.dagStore.blocks h.dagStore.blocks

theorem relations_none_iff : g.relations y = none ↔ g.entry y = none := by
  unfold entry
  rw [Option.map_eq_none_iff]

section

variable (hm : Matches x g h)
include hm

theorem Matches.linksOf (y : Hash) : g.linksOf y = h.linksOf y := by
  cases he : g.entry y with
  | some e => rw [linksOf_of_entry he, linksOf_of_entry ((hm.entries y).symm.trans he)]
  | none =>
    have hg := relations_none_iff.mpr he
    have hh := relations_none_iff.mpr ((hm.entries y).symm.trans he)
    have hrel := hm.blocks y
    unfold GhostDag.linksOf
    rw [hg, hh]
    dsimp only
    generalize g.dagStore.blocks y = o at hrel
    generalize h.dagStore.blocks y = o' at hrel
    cases hrel with
    | none => rfl
    | some ht =>
      obtain ⟨score, work, rfl⟩ := ht.claim
      rfl

theorem Matches.agree : Agree g h fun _ => True :=
  ⟨hm.k, fun y _ => hm.linksOf y, fun _ _ _ _ _ => trivial, fun _ _ _ _ _ _ => trivial⟩

theorem Matches.contribution (ht : Twin x b b') :
    g.scoreContribution b = h.scoreContribution b' := by
  obtain ⟨score, work, rfl⟩ := ht.claim
  exact hm.agree.scoreContribution trivial fun _ _ => trivial

theorem Matches.knownScore (y : Hash) : g.knownScore y = h.knownScore y := by
  have hscore : g.derivedScore y = h.derivedScore y := by
    rw [derivedScore_eq, derivedScore_eq, hm.entries]
  unfold GhostDag.knownScore
  unfold derivedScore at hscore
  rw [hm.anchors]
  generalize g.relations y = r at hscore
  generalize h.relations y = r' at hscore
  cases r with
  | none =>
    cases r' with
    | none => rfl
    | some r' => cases hscore
  | some r =>
    cases r' with
    | none => cases hscore
    | some r' => exact hscore

theorem Matches.coldScore (hops : ℕ) (sum : UInt64) (y : Hash) :
    g.coldScore hops sum y = h.coldScore hops sum y := by
  induction hops generalizing sum y
  all_goals
    have hrel := hm.blocks y
    rw [GhostDag.coldScore, GhostDag.coldScore, hm.knownScore]
    generalize g.dagStore.blocks y = o at hrel
    generalize h.dagStore.blocks y = o' at hrel
    obtain ht | _ := hrel
    swap
    · rfl
    have hcontribution := hm.contribution ht
    obtain ⟨score, work, rfl⟩ := ht.claim
  case zero => rfl
  case succ hops ih _ =>
    dsimp only
    rw [hcontribution]
    simp only [ih]
    rfl

theorem Matches.scoreOf (y : Hash) : g.scoreOf y = h.scoreOf y := by
  have hrel := hm.blocks y
  unfold GhostDag.scoreOf
  rw [hm.knownScore]
  generalize g.dagStore.blocks y = o at hrel
  generalize h.dagStore.blocks y = o' at hrel
  cases hrel with
  | none => rfl
  | some ht =>
    obtain ⟨score, work, rfl⟩ := ht.claim
    simp only [hm.coldScore]
    rfl

theorem Matches.derive (ht : Twin x b b') : g.deriveScoreAndWork b = h.deriveScoreAndWork b' := by
  unfold deriveScoreAndWork
  rw [hm.contribution ht, hm.scoreOf]
  obtain ⟨score, work, rfl⟩ := ht.claim
  rfl

theorem Matches.record (ht : Twin x b b') (s : BlueSet) :
    Matches x (g.record b s) (h.record b' s) := by
  obtain ⟨score, work, rfl⟩ := ht.claim
  refine ⟨hm.k, fun y => ?_, ?_, ?_, hm.blocks⟩
  · rw [entry_record, entry_record, hm.entries]
    rfl
  · unfold record
    dsimp only
    rw [hm.tips]
    rfl
  · unfold record
    dsimp only
    rw [hm.anchors]
    rfl

omit hm in
theorem registerExistingBlock_eq_ok : g.registerExistingBlock b = .ok g' ↔
    ¬(b.isGenesis = false ∧ b.selectedParent = 0) ∧ g' = g.record b (g.registeredScore b) := by
  unfold registerExistingBlock
  split
  · rename_i hroot
    simp [hroot]
  · rename_i hroot
    constructor
    · intro h
      exact ⟨hroot, (Except.ok.inj h).symm⟩
    · rintro ⟨-, rfl⟩
      rfl

theorem Matches.registeredScore (ht : Twin x b b') (hb : b' = b ∨ g.Backed b) :
    g.registeredScore b = h.registeredScore b' := by
  have hhash : b'.hash = b.hash := by
    obtain ⟨score, work, rfl⟩ := ht.claim
    rfl
  unfold GhostDag.registeredScore
  rw [← hm.derive ht, ← hm.anchors, hhash]
  split
  · rfl
  · rename_i e he
    rcases hb with rfl | ⟨s, hs⟩ | ⟨a, ha⟩
    · rfl
    · cases he.symm.trans hs
    · rw [ha]
      rfl

theorem Matches.call {c c' : ScoreCall} (hc : TwinCall x c c') (hg : BackedCalls x g c g')
    (hh : Calls h c' h') : Matches x g' h' := by
  obtain ⟨hg, hbacked⟩ := hg
  cases hc with
  | @addBlock b b' ht =>
    obtain ⟨-, -, s, hs, rfl⟩ := addBlock_eq_ok.mp hg
    obtain ⟨-, -, s', hs', rfl⟩ := addBlock_eq_ok.mp hh
    obtain rfl : s = s' := Except.ok.inj (hs.symm.trans ((hm.derive ht).trans hs'))
    exact hm.record ht s
  | @registerExistingBlock b b' ht =>
    obtain ⟨-, rfl⟩ := registerExistingBlock_eq_ok.mp hg
    obtain ⟨-, rfl⟩ := registerExistingBlock_eq_ok.mp hh
    have hsame : b' = b ∨ g.Backed b := ht.imp id fun hx => hbacked b rfl hx.1
    rw [← hm.registeredScore ht hsame]
    exact hm.record ht _
  | changeStore hblocks kept =>
    cases hg
    cases hh
    refine ⟨hm.k, hm.entries, hm.tips, ?_, hblocks⟩
    dsimp only
    rw [hm.anchors]

end

theorem Twin.refl (x : Hash) (b : Block) : Twin x b b := Or.inl rfl

theorem TwinStores.refl (x : Hash) (blocks : KvStore Hash Block) : TwinStores x blocks blocks := by
  intro y
  cases blocks y with
  | none => exact .none
  | some b => exact .some (.refl x b)

theorem Matches.refl (x : Hash) (g : GhostDag) : Matches x g g :=
  ⟨rfl, fun _ => rfl, rfl, rfl, .refl x _⟩

/-- Two runs of calls that differ only in what the header of the block `x` claims, over stores that may
lose blocks and anchors at any time, rank every block by the same score and choose the same tip, as long
as the first registers `x` only under a derived score or an anchor. Where there is neither, a block is
ranked by its claim. -/
theorem claims_rank_nothing_backed {calls calls' : List ScoreCall}
    (hc : List.Forall₂ (TwinCall x) calls calls') (hr : Runs (BackedCalls x) g calls g')
    (hr' : Runs Calls g calls' h') :
    (∀ y, g'.derivedScore y = h'.derivedScore y) ∧ g'.selectTip = h'.selectTip ∧
      ∀ b u, ¬ g'.Backed b → g'.registerExistingBlock b = .ok u →
        u.derivedScore b.hash = some b.header.blueScore := by
  have hm : Matches x g' h' :=
    hr.paired (fun _ _ _ _ _ _ hm hc hg hh => hm.call hc hg hh) hc hr' (.refl x g)
  have hscore : ∀ y, g'.derivedScore y = h'.derivedScore y := by
    intro y
    rw [derivedScore_eq, derivedScore_eq, hm.entries]
  refine ⟨hscore, selectTip_congr (fun y => by rw [hm.tips]) fun y _ => hscore y, ?_⟩
  intro b u hno hu
  obtain ⟨-, rfl⟩ := registerExistingBlock_eq_ok.mp hu
  rw [derivedScore_eq, entry_record, if_pos rfl]
  unfold registeredScore
  cases hd : g'.deriveScoreAndWork b with
  | ok s => exact absurd (Or.inl ⟨s, hd⟩) hno
  | error e =>
    cases ha : g'.dagStore.derivedScores b.hash with
    | some a => exact absurd (Or.inr ⟨a, ha⟩) hno
    | none => rfl

theorem BackedCalls.of_derive (score : UInt64)
    (hc : ¬(b.isGenesis = false ∧ b.selectedParent = 0) ∧ g.deriveScoreAndWork b = .ok (lightweight score)) :
    BackedCalls x g (.registerExistingBlock b) (g.record b (lightweight score)) := by
  refine ⟨registerExistingBlock_eq_ok.mpr ⟨hc.1, ?_⟩, ?_⟩
  · unfold registeredScore
    rw [hc.2]
  · rintro c hcall -
    obtain rfl := ScoreCall.registerExistingBlock.inj hcall
    exact Or.inl ⟨_, hc.2⟩

def siblingStore : KvStore Hash Block :=
  tableBlock [dagBlock 1 0 [] 0 0, dagBlock 2 1 [] 1 1, dagBlock 3 1 [] 1 1]

def siblingCalls (merge : Block) : List ScoreCall :=
  [.changeStore siblingStore fun _ => true, .registerExistingBlock (dagBlock 1 0 [] 0 0),
    .registerExistingBlock (dagBlock 2 1 [] 1 1), .registerExistingBlock (dagBlock 3 1 [] 1 1),
    .registerExistingBlock merge]

theorem claims_rank_nothing_backed_siblings : ∃ g' h',
    Runs Calls genesisEngine (siblingCalls (dagBlock 4 2 [3] 2 2)) g' ∧
    Runs Calls genesisEngine (siblingCalls (dagBlock 4 2 [3] 2 3)) h' ∧
    g'.derivedScore 4 = some 4 ∧ h'.derivedScore 4 = some 4 ∧ g'.selectTip = h'.selectTip := by
  have hr : ∀ claim : UInt64, claim = 2 ∨ claim = 3 → ∃ t, Runs (BackedCalls 4) genesisEngine
      (siblingCalls (dagBlock 4 2 [3] 2 claim)) t ∧ t.derivedScore 4 = some 4 := by
    rintro claim (rfl | rfl) <;>
    exact ⟨_, .head ⟨rfl, nofun⟩ <| .head (.of_derive 1 (by decide)) <|
      .head (.of_derive 2 (by decide)) <| .head (.of_derive 2 (by decide)) <|
      .head (.of_derive 4 (by decide)) .refl, by decide⟩
  obtain ⟨g', hg', hscore⟩ := hr 2 (Or.inl rfl)
  obtain ⟨h', hh', -⟩ := hr 3 (Or.inr rfl)
  have htwin : Twin 4 (dagBlock 4 2 [3] 2 2) (dagBlock 4 2 [3] 2 3) := Or.inr ⟨rfl, 3, _, rfl⟩
  have hcalls : List.Forall₂ (TwinCall 4) (siblingCalls (dagBlock 4 2 [3] 2 2))
      (siblingCalls (dagBlock 4 2 [3] 2 3)) :=
    .cons (.changeStore (.refl 4 _) _) <| .cons (.registerExistingBlock (.refl 4 _)) <|
      .cons (.registerExistingBlock (.refl 4 _)) <| .cons (.registerExistingBlock (.refl 4 _)) <|
      .cons (.registerExistingBlock htwin) .nil
  have hrun : Runs Calls genesisEngine _ g' := hg'.imp fun _ _ _ _ hs => hs.1
  have hrun' : Runs Calls genesisEngine _ h' := hh'.imp fun _ _ _ _ hs => hs.1
  obtain ⟨hsame, htip, -⟩ := claims_rank_nothing_backed hcalls hg' hrun'
  exact ⟨g', h', hrun, hrun', hscore, (hsame 4).symm.trans hscore, htip⟩

theorem unbacked_block_ranked_by_claim : ∃ calls calls' g' h',
    checkScoreAndWork (dagBlock 2 1 [9] 1 1) (dagBlock 1 0 [] 0 0) = .ok () ∧
    checkScoreAndWork (dagBlock 2 1 [9] 1 2) (dagBlock 1 0 [] 0 0) = .ok () ∧
    List.Forall₂ (TwinCall 2) calls calls' ∧ Runs Calls genesisEngine calls g' ∧
    Runs Calls genesisEngine calls' h' ∧ g'.derivedScore 2 = some 1 ∧ h'.derivedScore 2 = some 2 := by
  have hr : ∀ claim : UInt64, claim = 1 ∨ claim = 2 → ∃ t, Runs Calls genesisEngine
      [.changeStore (tableBlock [dagBlock 1 0 [] 0 0]) fun _ => true,
        .registerExistingBlock (dagBlock 1 0 [] 0 0),
        .registerExistingBlock (dagBlock 2 1 [9] 1 claim)] t ∧ t.derivedScore 2 = some claim := by
    rintro claim (rfl | rfl) <;>
    exact ⟨_, .head rfl <| .head (registerExistingBlock_eq_ok.mpr ⟨by decide, rfl⟩) <|
      .head (registerExistingBlock_eq_ok.mpr ⟨by decide, rfl⟩) .refl, by decide⟩
  obtain ⟨g', hg', hscore⟩ := hr 1 (Or.inl rfl)
  obtain ⟨h', hh', hscore'⟩ := hr 2 (Or.inr rfl)
  have htwin : Twin 2 (dagBlock 2 1 [9] 1 1) (dagBlock 2 1 [9] 1 2) := Or.inr ⟨rfl, 2, _, rfl⟩
  refine ⟨_, _, g', h', by decide, by decide, ?_, hg', hh', hscore, hscore'⟩
  exact .cons (.changeStore (.refl 2 _) _) <| .cons (.registerExistingBlock (.refl 2 _)) <|
    .cons (.registerExistingBlock htwin) .nil

end GhostDag

end CitrateChain.Consensus
