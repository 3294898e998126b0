import CitrateChain.Consensus.DagHeights
import CitrateChain.Consensus.Finality
import CitrateChain.Consensus.ForkChoice

/-! # The chain selector

`on_new_block` compares the derived score of a new block with that of the current chain, extends the
chain or reorganises to it, and tells the finality tracker. The selector shares the DAG store and the
GhostDAG engine with the rest of the node, which admits blocks between the calls. -/
namespace CitrateChain.Consensus
open Std (ExtTreeMap)
open Transition (Runs)
open Word

inductive ChainSelectionError
  | blockNotFound (hash : Hash)
  | invalidChainState
  | reorgDepthExceeded
  | reorgPastFinalized (tip : Hash)
  | dagError (e : GhostDagError)
  | finalityError (e : FinalityError)
  deriving DecidableEq, Repr

structure ChainState where
  tip : Hash := 0
  height : UInt64 := 0
  blueScore : UInt64 := 0
  blueWork : BitVec 128 := 0
  selectedChain : List Hash := []
  deriving DecidableEq, Repr

structure SelectorParams where
  maxReorgDepth : UInt64
  finality : Option FinalityConfig := none

structure ChainSelector where
  ghostdag : GhostDag
  dag : DagStore
  tracker : FinalityTracker := {}
  chain : ChainState := {}

def GhostDag.getBlueScore (g : GhostDag) (hash : Hash) : Except GhostDagError UInt64 :=
  match g.derivedScore hash with
  | some score => .ok score
  | none => .error (.blockNotFound hash)

namespace ChainSelector

/-- How one side's half of a round of `find_common_ancestor` ends. -/
inductive Climb
  | hit (hash : Hash)
  | fail (e : ChainSelectionError)
  | next (own : List Hash) (cur : Option Hash)

/-- One side's half of a round: stop at a block of the other side, else note the block and go on at
its selected parent. -/
def climb (blocks : ExtTreeMap Hash Block) (other own : List Hash) : Option Hash → Climb
  | none => .next own none
  | some x =>
    if x ∈ other then .hit x
    else
      match blocks[x]? with
      | none => .fail (.blockNotFound x)
      | some b => .next (x :: own) (if b.isGenesis then none else some b.selectedParent)

/-- The loop of `find_common_ancestor`; `none` is a loop that has not ended after `fuel` rounds. -/
def commonAncestorLoop (blocks : ExtTreeMap Hash Block) :
    ℕ → List Hash → List Hash → Option Hash → Option Hash → UInt64 →
      Option (Except ChainSelectionError (Hash × UInt64))
  | 0, _, _, _, _, _ => none
  | fuel + 1, ancestors1, ancestors2, current1, current2, depth =>
    if current1 = none ∧ current2 = none then some (.error .invalidChainState)
    else
      match climb blocks ancestors2 ancestors1 current1 with
      | .hit x => some (.ok (x, depth))
      | .fail e => some (.error e)
      | .next ancestors1 current1 =>
        match climb blocks ancestors1 ancestors2 current2 with
        | .hit x => some (.ok (x, depth))
        | .fail e => some (.error e)
        | .next ancestors2 current2 =>
          commonAncestorLoop blocks fuel ancestors1 ancestors2 current1 current2
            (saturatingAdd depth 1)

def findCommonAncestor (blocks : ExtTreeMap Hash Block) (fuel : ℕ) (tip1 tip2 : Hash) :
    Option (Except ChainSelectionError (Hash × UInt64)) :=
  if tip1 = 0 ∨ tip2 = 0 then some (.ok (0, 0))
  else commonAncestorLoop blocks fuel [] [] (some tip1) (some tip2) 0

def buildChain (blocks : ExtTreeMap Hash Block) (ancestor : Hash) :
    ℕ → Hash → List Hash → Option (Except ChainSelectionError (List Hash))
  | 0, _, _ => none
  | fuel + 1, current, chain =>
    if current = ancestor then some (.ok chain)
    else
      match blocks[current]? with
      | none => some (.error (.blockNotFound current))
      | some b =>
        if b.isGenesis then some (.ok (current :: chain))
        else buildChain blocks ancestor fuel b.selectedParent (current :: chain)

def updateTracker (p : SelectorParams) (fuel : ℕ) (s : ChainSelector) (b : Block) :
    Option ChainSelector :=
  match p.finality with
  | none => some s
  | some c =>
    match FinalityTracker.updateFinality c fuel s.tracker s.dag b.hash b.height with
    | none => none
    | some (.error _) => some s
    | some (.ok (_, tracker, dag)) => some { s with tracker, dag }

def moveTo (s : ChainSelector) (b : Block) (score : UInt64) (selectedChain : List Hash) :
    ChainSelector :=
  { s with chain := ⟨b.hash, b.height, score, blueWorkForScore score, selectedChain⟩ }

/-- An empty chain is extended by any block, another one by a block with the tip as any parent. -/
def extendsCurrentChain (s : ChainSelector) (b : Block) : Bool :=
  s.chain.tip == 0 || b.selectedParent == s.chain.tip || b.parents.contains s.chain.tip

theorem extendsCurrentChain_iff {s : ChainSelector} {b : Block} : s.extendsCurrentChain b = true ↔
    s.chain.tip = 0 ∨ b.selectedParent = s.chain.tip ∨ s.chain.tip ∈ b.parents := by
  simp only [extendsCurrentChain, Bool.or_eq_true, beq_iff_eq, List.contains_eq_mem,
    decide_eq_true_eq, or_assoc]

def extendChain (p : SelectorParams) (fuel : ℕ) (s : ChainSelector) (b : Block) :
    Option (Except ChainSelectionError ChainSelector) :=
  match s.ghostdag.getBlueScore b.hash with
  | .error e => some (.error (.dagError e))
  | .ok score =>
    ((s.moveTo b score (s.chain.selectedChain ++ [b.hash])).updateTracker p fuel b).map .ok

def checkFinality (p : SelectorParams) (s : ChainSelector) (commonAncestor : Hash) :
    Except ChainSelectionError Unit :=
  match p.finality with
  | none => .ok ()
  | some _ =>
    match s.tracker.checkReorgAllowed s.dag commonAncestor with
    | .ok () => .ok ()
    | .error (.reorgPastFinalized tip) => .error (.reorgPastFinalized tip)
    | .error e => .error (.finalityError e)

/-- The new chain state holds the part of the chain above the common ancestor. -/
def performReorg (s : ChainSelector) (newTip : Hash) (newChain : List Hash) :
    Except ChainSelectionError ChainSelector :=
  match s.dag.blocks[newTip]? with
  | none => .error (.blockNotFound newTip)
  | some b =>
    match s.ghostdag.getBlueScore newTip with
    | .error e => .error (.dagError e)
    | .ok score => .ok { s with
        chain := ⟨newTip, b.height, score, blueWorkForScore score, newChain⟩ }

def attemptReorganization (p : SelectorParams) (fuel : ℕ) (s : ChainSelector) (b : Block) :
    Option (Except ChainSelectionError ChainSelector) :=
  match findCommonAncestor s.dag.blocks fuel s.chain.tip b.hash with
  | none => none
  | some (.error e) => some (.error e)
  | some (.ok (commonAncestor, depth)) =>
    if p.maxReorgDepth < depth then some (.error .reorgDepthExceeded)
    else
      match s.checkFinality p commonAncestor with
      | .error e => some (.error e)
      | .ok () =>
        match buildChain s.dag.blocks commonAncestor fuel b.hash [] with
        | none => none
        | some (.error e) => some (.error e)
        | some (.ok newChain) =>
          match s.performReorg b.hash newChain with
          | .error e => some (.error e)
          | .ok s => (s.updateTracker p fuel b).map .ok

def onNewBlock (p : SelectorParams) (fuel : ℕ) (s : ChainSelector) (b : Block) :
    Option (Except ChainSelectionError (Bool × ChainSelector)) :=
  match s.ghostdag.getBlueScore b.hash with
  | .error e => some (.error (.dagError e))
  | .ok score =>
    if s.chain.blueScore < score then
      (s.attemptReorganization p fuel b).map fun r => r.map (true, ·)
    else if s.extendsCurrentChain b then (s.extendChain p fuel b).map fun r => r.map (false, ·)
    else some (.ok (false, s))

def validateFrom (blocks : ExtTreeMap Hash Block) (prevHash : Hash) (prevHeight : UInt64) :
    List Hash → Except ChainSelectionError Bool
  | [] => .ok true
  | x :: rest =>
    match blocks[x]? with
    | none => .error (.blockNotFound x)
    | some b =>
      if b.height ≤ prevHeight ∧ 0 < prevHeight then .ok false
      else if prevHash ≠ 0 ∧ prevHash ∉ b.parents then .ok false
      else validateFrom blocks x b.height rest

def validateChain (s : ChainSelector) : Except ChainSelectionError Bool :=
  validateFrom s.dag.blocks 0 0 s.chain.selectedChain

section Call
variable {p : SelectorParams} {fuel : ℕ} {s s' : ChainSelector} {b : Block} {r : Bool}

inductive Moves (p : SelectorParams) (fuel : ℕ) (s : ChainSelector) (b : Block) (score : UInt64)
    (s' : ChainSelector) : Prop
  | reorg (commonAncestor : Hash) (depth : UInt64) (newChain : List Hash)
      (hscore : s.chain.blueScore < score)
      (hca : findCommonAncestor s.dag.blocks fuel s.chain.tip b.hash = some (.ok (commonAncestor, depth)))
      (hfinal : s.checkFinality p commonAncestor = .ok ())
      (hchain : buildChain s.dag.blocks commonAncestor fuel b.hash [] = some (.ok newChain))
      (htracker : (s.moveTo b score newChain).updateTracker p fuel b = some s')
  | extend (hscore : score ≤ s.chain.blueScore) (hextends : s.extendsCurrentChain b = true)
      (htracker : (s.moveTo b score (s.chain.selectedChain ++ [b.hash])).updateTracker p fuel b =
        some s')
  | stay (hscore : score ≤ s.chain.blueScore) (hextends : s.extendsCurrentChain b = false)
      (hs : s' = s)

theorem getBlueScore_ok {g : GhostDag} {x : Hash} {score : UInt64} :
    g.getBlueScore x = .ok score ↔ g.derivedScore x = some score := by
  unfold GhostDag.getBlueScore
  cases g.derivedScore x with
  | none => simp
  | some v => simp

theorem attemptReorganization_ok {score : UInt64} (hb : s.dag.blocks[b.hash]? = some b)
    (hg : s.ghostdag.getBlueScore b.hash = .ok score) (hscore : s.chain.blueScore < score)
    (h : s.attemptReorganization p fuel b = some (.ok s')) : Moves p fuel s b score s' := by
  unfold attemptReorganization at h
  split at h
  · cases h
  · cases h
  rename_i ca depth hca
  split_ifs at h
  · cases h
  split at h
  · cases h
  rename_i hfinal
  split at h
  · cases h
  · cases h
  · rename_i newChain hchain
    simp only [performReorg, hb, hg, Option.map_eq_some_iff, Except.ok.injEq, exists_eq_right] at h
    exact .reorg ca depth newChain hscore hca hfinal hchain h

theorem onNewBlock_ok (hb : s.dag.blocks[b.hash]? = some b)
    (h : s.onNewBlock p fuel b = some (.ok (r, s'))) :
    ∃ score, s.ghostdag.derivedScore b.hash = some score ∧ Moves p fuel s b score s' := by
  unfold onNewBlock at h
  split at h
  · cases h
  rename_i score hg
  refine ⟨score, getBlueScore_ok.mp hg, ?_⟩
  split_ifs at h with hscore hextends
  · obtain ⟨res, hres, hmap⟩ := Option.map_eq_some_iff.mp h
    cases res with
    | error e => cases hmap
    | ok t =>
      obtain ⟨-, rfl⟩ := Prod.mk.inj (Except.ok.inj hmap)
      exact attemptReorganization_ok hb hg hscore hres
  · obtain ⟨res, hres, hmap⟩ := Option.map_eq_some_iff.mp h
    cases res with
    | error e => cases hmap
    | ok t =>
      obtain ⟨-, rfl⟩ := Prod.mk.inj (Except.ok.inj hmap)
      simp only [extendChain, hg, Option.map_eq_some_iff, Except.ok.injEq, exists_eq_right] at hres
      exact .extend (UInt64.not_lt.mp hscore) hextends hres
  · refine .stay (UInt64.not_lt.mp hscore) (by simpa using hextends) ?_
    obtain ⟨-, rfl⟩ := Prod.mk.inj (Except.ok.inj (Option.some.inj h))
    rfl

end Call

section Walks
variable {blocks : ExtTreeMap Hash Block} {other own own' ancestors1 ancestors2 : List Hash}
  {cur cur' current1 current2 : Option Hash} {x tip1 tip2 : Hash} {fuel : ℕ} {depth depth' : UInt64}

structure OnChain (blocks : ExtTreeMap Hash Block) (tip : Hash) (own : List Hash) (cur : Option Hash) :
    Prop where
  own : ∀ y ∈ own, Ancestor blocks tip y
  cur : ∀ y, cur = some y → Ancestor blocks tip y

theorem OnChain.start (tip : Hash) : OnChain blocks tip [] (some tip) where
  own := nofun
  cur := fun _ hy => Option.some.inj hy ▸ .refl

theorem climb_hit (h : climb blocks other own cur = .hit x) : cur = some x ∧ x ∈ other := by
  unfold climb at h
  split at h
  · cases h
  · split_ifs at h with hmem
    · obtain rfl := Climb.hit.inj h
      exact ⟨rfl, hmem⟩
    · split at h
      · cases h
      · cases h

theorem OnChain.climb {tip : Hash} (hc : OnChain blocks tip own cur)
    (h : climb blocks other own cur = .next own' cur') : OnChain blocks tip own' cur' := by
  unfold ChainSelector.climb at h
  split at h
  · obtain ⟨rfl, rfl⟩ := Climb.next.inj h
    exact ⟨hc.own, nofun⟩
  rename_i y
  split_ifs at h
  split at h
  · cases h
  rename_i b hb
  obtain ⟨rfl, rfl⟩ := Climb.next.inj h
  have hy := hc.cur y rfl
  refine ⟨List.forall_mem_cons.mpr ⟨hy, hc.own⟩, ?_⟩
  intro z hz
  split_ifs at hz with hgen
  rw [← Option.some.inj hz]
  exact hy.tail ⟨b, hb, by simpa using hgen, rfl⟩

theorem commonAncestorLoop_ok (h1 : OnChain blocks tip1 ancestors1 current1)
    (h2 : OnChain blocks tip2 ancestors2 current2)
    (h : commonAncestorLoop blocks fuel ancestors1 ancestors2 current1 current2 depth =
      some (.ok (x, depth'))) : Ancestor blocks tip1 x ∧ Ancestor blocks tip2 x := by
  induction fuel generalizing ancestors1 ancestors2 current1 current2 depth with
  | zero => cases h
  | succ fuel ih =>
    rw [commonAncestorLoop] at h
    split_ifs at h
    · cases h
    split at h
    · rename_i y hclimb
      obtain ⟨hcur, hmem⟩ := climb_hit hclimb
      obtain ⟨rfl, -⟩ := Prod.mk.inj (Except.ok.inj (Option.some.inj h))
      exact ⟨h1.cur y hcur, h2.own y hmem⟩
    · cases h
    rename_i own1 cur1 hclimb
    have h1' := h1.climb hclimb
    split at h
    · rename_i y hclimb'
      obtain ⟨hcur, hmem⟩ := climb_hit hclimb'
      obtain ⟨rfl, -⟩ := Prod.mk.inj (Except.ok.inj (Option.some.inj h))
      exact ⟨h1'.own y hmem, h2.cur y hcur⟩
    · cases h
    · rename_i own2 cur2 hclimb'
      exact ih h1' (h2.climb hclimb') h

theorem findCommonAncestor_ok (h1 : tip1 ≠ 0) (h2 : tip2 ≠ 0)
    (h : findCommonAncestor blocks fuel tip1 tip2 = some (.ok (x, depth))) :
    Ancestor blocks tip1 x ∧ Ancestor blocks tip2 x := by
  rw [findCommonAncestor, if_neg (not_or.mpr ⟨h1, h2⟩)] at h
  exact commonAncestorLoop_ok (.start tip1) (.start tip2) h

end Walks

inductive SelectorCall
  | returned (b : Block)
  | refused (b : Block)
  | grow

inductive SelectorStep (p : SelectorParams) (env : GhostDag × DagStore → GhostDag × DagStore → Prop) :
    ChainSelector → SelectorCall → ChainSelector → Prop
  | returned {s s' : ChainSelector} {b : Block} (fuel : ℕ) (r : Bool)
      (hb : s.dag.blocks[b.hash]? = some b) (h : s.onNewBlock p fuel b = some (.ok (r, s'))) :
      SelectorStep p env s (.returned b) s'
  | refused {s : ChainSelector} {b : Block} (fuel : ℕ) (e : ChainSelectionError)
      (h : s.onNewBlock p fuel b = some (.error e)) : SelectorStep p env s (.refused b) s
  | grow {s : ChainSelector} {ghostdag : GhostDag} {dag : DagStore}
      (h : env (s.ghostdag, s.dag) (ghostdag, dag)) :
      SelectorStep p env s .grow { s with ghostdag, dag }

def TreeGrows (e e' : GhostDag × DagStore) : Prop :=
  IsTree e'.2.blocks ∧ Grows e.2.blocks e'.2.blocks ∧ e'.2.finalized = e.2.finalized

/-- The admission of a new block: the engine accepts it and the store takes it. No block has the zero
hash. -/
def Admission (r : DagRules) (e e' : GhostDag × DagStore) : Prop :=
  ∃ b fault, b.hash ≠ 0 ∧ GhostDag.Builds e.1 b e'.1 ∧ e.2.storeBlock r b fault = .ok e'.2

theorem updateTracker_advances {p : SelectorParams} {fuel : ℕ} {s s' : ChainSelector} {b : Block}
    (ht : IsTree s.dag.blocks) (h : s.updateTracker p fuel b = some s') :
    s'.chain = s.chain ∧ s'.ghostdag = s.ghostdag ∧
      FinalityTracker.Advances b.hash s.tracker s.dag s'.tracker s'.dag := by
  unfold updateTracker at h
  split at h
  · cases h
    exact ⟨rfl, rfl, .refl _ _ _⟩
  · split at h
    · cases h
    · cases h
      exact ⟨rfl, rfl, .refl _ _ _⟩
    · rename_i hu
      cases h
      exact ⟨rfl, rfl, FinalityTracker.updateFinality_advances ht hu⟩

end ChainSelector

end CitrateChain.Consensus
