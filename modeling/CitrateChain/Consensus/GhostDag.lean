import CitrateChain.Base.Walk
import CitrateChain.Consensus.Block

/-! # The GhostDAG engine

Admission of blocks (`validate_block_consistency`, `add_block`), the locally derived blue score
and the choice of a tip. The engine keeps a relation for every admitted block and reads its DAG
store for anything else. -/
namespace CitrateChain.Consensus
open Word

/-- The message of an `InvalidLinkage` error, with the values it prints. -/
inductive LinkageFault
  | tooManyParents (merges maxParents : ℕ)
  | duplicatesSelectedParent
  | listsItself
  | duplicateMergeParent (hash : Hash)
  | heightOverflow
  | timestampPrecedesParent (timestamp parent : UInt64)
  | timestampTooFarAhead (timestamp advance parent : UInt64)
  | mergeParentHeavier (hash : Hash) (blueScore selected : UInt64)
  | mergeParentTooDeep (hash : Hash) (depth parentHeight height bound : UInt64)
  | selectedScoreOverflow
  | scoreBandOverflow
  | blueScoreOverflow
  deriving DecidableEq, Repr

inductive GhostDagError
  | blockNotFound (hash : Hash)
  | invalidParents
  | cycleDetected
  | missingParent (hash : Hash)
  | heightMismatch (claimed expected : UInt64)
  | blueScoreOutOfRange (claimed min max : UInt64)
  | blueWorkMismatch (claimed expected : BitVec 128)
  | invalidLinkage (fault : LinkageFault)
  deriving DecidableEq, Repr

structure GhostDagParams where
  k : UInt32 := 18
  maxParents : ℕ := 10

structure PbaHardening where
  activation : Option UInt64 := none

def PbaHardening.activeAt (p : PbaHardening) (height : UInt64) : Bool :=
  match p.activation with
  | some a => decide (0 < height ∧ a ≤ height)
  | none => false

def maxBlockTimestampAdvanceSecs : UInt64 := 3600

def mergeParentMaxDepth : UInt64 := 100

def mergeScoreWindow : UInt64 := 2 * mergeParentMaxDepth

/-- Blue work is a function of the blue score; 64 bits times a million never saturate 128. -/
def blueWorkForScore (blueScore : UInt64) : BitVec 128 := BitVec.ofNat 128 (blueScore.toNat * 1000000)

structure BlueSet where
  score : UInt64
  work : BitVec 128
  deriving DecidableEq, Repr

structure DagRelation where
  block : Hash
  selectedParent : Hash
  mergeParents : List Hash
  children : List Hash
  blueSet : BlueSet
  height : UInt64
  deriving DecidableEq, Repr

/-- What the engine reads of its DAG store: blocks, durable score anchors, the configured genesis. -/
structure DagReads where
  blocks : KvStore Hash Block
  derivedScores : KvStore Hash UInt64
  configuredGenesis : Option Hash

/-- The order in which a process iterates a hash set. -/
structure HashOrder where
  iter : List Hash → List Hash
  perm : ∀ l, (iter l).Perm l

structure GhostDag where
  params : GhostDagParams
  dagStore : DagReads
  relations : KvStore Hash DagRelation
  tips : List Hash
  mergeDepthActivationHeight : Option UInt64
  pbaHardening : PbaHardening
  verifyHash : Block → Bool
  order : HashOrder

/-- The genesis shape at height zero and, once the genesis hash is configured, that very hash. -/
def Block.isConfiguredGenesis (b : Block) (verifyHash : Block → Bool) (configured : Option Hash) : Bool :=
  if b.height ≠ 0 ∨ b.isGenesis = false then false
  else
    match configured with
    | some h => b.hash == h && verifyHash b
    | none => true

namespace GhostDag

def checkMergeShape (selected self : Hash) : List Hash → List Hash → Except GhostDagError Unit
  | _, [] => .ok ()
  | seen, mp :: rest =>
    if mp = selected then .error (.invalidLinkage .duplicatesSelectedParent)
    else if mp = self then .error (.invalidLinkage .listsItself)
    else if mp ∈ seen then .error (.invalidLinkage (.duplicateMergeParent mp))
    else checkMergeShape selected self (mp :: seen) rest

def mergeDepthEnforcedAt (g : GhostDag) (height : UInt64) : Bool :=
  match g.mergeDepthActivationHeight with
  | some a => decide (a ≤ height)
  | none => false

def checkTimestamp (g : GhostDag) (b sp : Block) : Except GhostDagError Unit :=
  if b.header.timestamp < sp.header.timestamp then
    .error (.invalidLinkage (.timestampPrecedesParent b.header.timestamp sp.header.timestamp))
  else if g.pbaHardening.activeAt b.height ∧
      saturatingAdd sp.header.timestamp maxBlockTimestampAdvanceSecs < b.header.timestamp then
    .error (.invalidLinkage (.timestampTooFarAhead b.header.timestamp maxBlockTimestampAdvanceSecs
      sp.header.timestamp))
  else .ok ()

def checkMergeParents (g : GhostDag) (b sp : Block) : List Hash → Except GhostDagError Unit
  | [] => .ok ()
  | mp :: rest =>
    match g.dagStore.blocks mp with
    | none => .error (.missingParent mp)
    | some m =>
      if sp.header.blueScore < m.header.blueScore then
        .error (.invalidLinkage (.mergeParentHeavier mp m.header.blueScore sp.header.blueScore))
      else if g.mergeDepthEnforcedAt b.height ∧
          mergeParentMaxDepth < saturatingSub b.height m.height then
        .error (.invalidLinkage (.mergeParentTooDeep mp (saturatingSub b.height m.height) m.height
          b.height mergeParentMaxDepth))
      else checkMergeParents g b sp rest

def checkScoreAndWork (b sp : Block) : Except GhostDagError Unit :=
  match checkedAdd sp.header.blueScore 1 with
  | none => .error (.invalidLinkage .selectedScoreOverflow)
  | some min =>
    match checkedAdd min (UInt64.ofNat b.header.mergeParentHashes.length) with
    | none => .error (.invalidLinkage .scoreBandOverflow)
    | some max =>
      if b.header.blueScore < min ∨ max < b.header.blueScore then
        .error (.blueScoreOutOfRange b.header.blueScore min max)
      else if b.header.blueWork ≠ blueWorkForScore b.header.blueScore then
        .error (.blueWorkMismatch b.header.blueWork (blueWorkForScore b.header.blueScore))
      else .ok ()

def checkAgainstParent (g : GhostDag) (b sp : Block) : Except GhostDagError Unit :=
  match checkedAdd sp.height 1 with
  | none => .error (.invalidLinkage .heightOverflow)
  | some expected =>
    if b.height ≠ expected then .error (.heightMismatch b.height expected)
    else do
      g.checkTimestamp b sp
      g.checkMergeParents b sp b.header.mergeParentHashes
      checkScoreAndWork b sp

def validateBlockConsistency (g : GhostDag) (b : Block) : Except GhostDagError Unit :=
  if b.isConfiguredGenesis g.verifyHash g.dagStore.configuredGenesis then .ok ()
  else if b.selectedParent = 0 then .error .invalidParents
  else if g.params.maxParents ≤ b.header.mergeParentHashes.length then
    .error (.invalidLinkage (.tooManyParents b.header.mergeParentHashes.length g.params.maxParents))
  else do
    checkMergeShape b.selectedParent b.hash [] b.header.mergeParentHashes
    match g.dagStore.blocks b.selectedParent with
    | none => .error (.missingParent b.selectedParent)
    | some sp => g.checkAgainstParent b sp

def scoreAdd (a b : UInt64) : Except GhostDagError UInt64 :=
  match checkedAdd a b with
  | some s => .ok s
  | none => .error (.invalidLinkage .blueScoreOverflow)

theorem scoreAdd_toNat {m n s : UInt64} (h : scoreAdd m n = .ok s) : s.toNat = m.toNat + n.toNat := by
  unfold scoreAdd at h
  split at h
  · rename_i t ht
    cases h
    exact checkedAdd_toNat ht
  · cases h

structure Links where
  selectedParent : Hash
  mergeParents : List Hash
  height : UInt64
  deriving DecidableEq, Repr

def linksOf (g : GhostDag) (hash : Hash) : Except GhostDagError Links :=
  match g.relations hash with
  | some r => .ok ⟨r.selectedParent, r.mergeParents, r.height⟩
  | none =>
    match g.dagStore.blocks hash with
    | none => .error (.blockNotFound hash)
    | some b => .ok ⟨if b.isGenesis then 0 else b.selectedParent, b.header.mergeParentHashes, b.height⟩

def pastStep (g : GhostDag) (floor : UInt64) (hash : Hash) :
    Except GhostDagError (Option (List Hash)) :=
  match g.linksOf hash with
  | .error e => .error e
  | .ok l =>
    if l.height < floor then .ok none
    else .ok (some ((if l.selectedParent ≠ 0 ∧ floor < l.height then [l.selectedParent] else []) ++
      l.mergeParents))

def maxVisited : ℕ := 1000000

def pastWithin (g : GhostDag) (hash : Hash) (floor : UInt64) : Except GhostDagError (List Hash) :=
  Walk.visit (g.pastStep floor) .cycleDetected maxVisited [] [hash]

/-- The blocks of the selected parent's past outside `mpPast`, counted up to the first above `k`. -/
def selectedAnticone (k : ℕ) (mpPast : List Hash) : List Hash → ℕ → ℕ
  | [], n => n
  | y :: ys, n =>
    if y ∈ mpPast then selectedAnticone k mpPast ys n
    else if k < n + 1 then n + 1
    else selectedAnticone k mpPast ys (n + 1)

/-- The merge parents judged blue that are unordered with `mp`, counted on from `n`. -/
def bluesAnticone (k : ℕ) (mp : Hash) (mpPast : List Hash) : List (Hash × List Hash) → ℕ → ℕ
  | [], n => n
  | (b, bPast) :: blues, n =>
    if k < n then n
    else if b ∉ mpPast ∧ mp ∉ bPast then bluesAnticone k mp mpPast blues (n + 1)
    else bluesAnticone k mp mpPast blues n

def judgeMergeParent (g : GhostDag) (floor : UInt64) (spPast : List Hash)
    (blues : List (Hash × List Hash)) (mp : Hash) : Except GhostDagError (List (Hash × List Hash)) :=
  if mp ∈ spPast then .ok blues
  else
    match g.pastWithin mp floor with
    | .error e => .error e
    | .ok mpPast =>
      let k := g.params.k.toNat
      let anticone := selectedAnticone k mpPast (g.order.iter spPast) 0
      if bluesAnticone k mp mpPast blues anticone ≤ k then .ok (blues ++ [(mp, mpPast)])
      else .ok blues

def boundedBlueMergeCount (g : GhostDag) (b : Block) : Except GhostDagError UInt64 :=
  let floor := saturatingSub b.height mergeScoreWindow
  match g.pastWithin b.selectedParent floor with
  | .error e => .error e
  | .ok spPast =>
    match b.header.mergeParentHashes.foldlM (g.judgeMergeParent floor spPast) [] with
    | .error e => .error e
    | .ok blues => .ok (UInt64.ofNat blues.length)

def scoreContribution (g : GhostDag) (b : Block) : Except GhostDagError UInt64 :=
  if b.header.mergeParentHashes.isEmpty then .ok 1
  else
    match g.boundedBlueMergeCount b with
    | .error e => .error e
    | .ok blues => scoreAdd 1 blues

theorem scoreContribution_pos {g : GhostDag} {b : Block} {n : UInt64}
    (h : g.scoreContribution b = .ok n) : 0 < n.toNat := by
  unfold scoreContribution at h
  split_ifs at h
  · rw [← Except.ok.inj h]
    decide
  · split at h
    · cases h
    · have := scoreAdd_toNat h
      have hone : (1 : UInt64).toNat = 1 := rfl
      omega

def knownScore (g : GhostDag) (hash : Hash) : Option UInt64 :=
  match g.relations hash with
  | some r => some r.blueSet.score
  | none => g.dagStore.derivedScores hash

/-- The cold walk of `score_of` down the selected parents, with the hops it may still take. -/
def coldScore (g : GhostDag) : ℕ → UInt64 → Hash → Except GhostDagError UInt64
  | hops, sum, cursor =>
    match g.knownScore cursor with
    | some score => scoreAdd score sum
    | none =>
      match g.dagStore.blocks cursor with
      | none => .error (.blockNotFound cursor)
      | some ancestor =>
        if ancestor.isGenesis then scoreAdd 1 sum
        else
          match hops with
          | 0 => .error .cycleDetected
          | hops + 1 => do
            let added ← g.scoreContribution ancestor
            let sum ← scoreAdd sum added
            coldScore g hops sum ancestor.selectedParent

/-- The score of an admitted block; the walk may take as many hops as the height of its first block
plus two. -/
def scoreOf (g : GhostDag) (hash : Hash) : Except GhostDagError UInt64 :=
  match g.knownScore hash with
  | some score => .ok score
  | none =>
    match g.dagStore.blocks hash with
    | none => .error (.blockNotFound hash)
    | some b => g.coldScore ((saturatingAdd b.height 1).toNat + 1) 0 hash

def deriveScoreAndWork (g : GhostDag) (b : Block) : Except GhostDagError BlueSet :=
  if b.isGenesis then .ok ⟨1, blueWorkForScore 1⟩
  else do
    let spScore ← g.scoreOf b.selectedParent
    let added ← g.scoreContribution b
    let score ← scoreAdd spScore added
    .ok ⟨score, blueWorkForScore score⟩

def pushChild (block : Hash) (relations : KvStore Hash DagRelation) (parent : Hash) :
    KvStore Hash DagRelation :=
  match relations parent with
  | some r => relations.write (.put parent { r with children := r.children ++ [block] })
  | none => relations

def record (g : GhostDag) (b : Block) (blueSet : BlueSet) : GhostDag :=
  let relation : DagRelation :=
    ⟨b.hash, b.selectedParent, b.header.mergeParentHashes, [], blueSet, b.height⟩
  { g with
    dagStore := { g.dagStore with
      derivedScores := g.dagStore.derivedScores.write (.put b.hash blueSet.score) }
    relations := b.parents.foldl (pushChild b.hash) (g.relations.write (.put b.hash relation))
    tips := b.hash :: (g.tips.filter (· ∉ b.parents)).filter (· ≠ b.hash) }

def addBlock (g : GhostDag) (b : Block) : Except GhostDagError GhostDag :=
  if b.isGenesis = false ∧ b.selectedParent = 0 then .error .invalidParents
  else do
    g.validateBlockConsistency b
    let blueSet ← g.deriveScoreAndWork b
    .ok (g.record b blueSet)

theorem addBlock_eq_ok {g g' : GhostDag} {b : Block} : g.addBlock b = .ok g' ↔
    ¬(b.isGenesis = false ∧ b.selectedParent = 0) ∧ g.validateBlockConsistency b = .ok () ∧
      ∃ s, g.deriveScoreAndWork b = .ok s ∧ g' = g.record b s := by
  unfold addBlock
  split
  · rename_i hsp
    simp [hsp]
  rename_i hsp
  cases hv : g.validateBlockConsistency b with
  | error e => simp [bind, Except.bind]
  | ok u =>
    cases hd : g.deriveScoreAndWork b with
    | error e => simp [bind, Except.bind]
    | ok s =>
      constructor
      · intro heq
        exact ⟨hsp, rfl, s, rfl, (Except.ok.inj heq).symm⟩
      · rintro ⟨-, -, t, ht, rfl⟩
        cases ht
        rfl

def betterTip (g : GhostDag) (best : Option (Hash × UInt64)) (tip : Hash) : Option (Hash × UInt64) :=
  match g.relations tip with
  | none => best
  | some r =>
    match best with
    | none => some (tip, r.blueSet.score)
    | some (cur, score) =>
      if score < r.blueSet.score ∨ (r.blueSet.score = score ∧ tip < cur) then
        some (tip, r.blueSet.score)
      else best

def selectTip (g : GhostDag) : Except GhostDagError Hash :=
  match (g.order.iter g.tips).foldl g.betterTip none with
  | some (tip, _) => .ok tip
  | none => .error (.blockNotFound 0)

end GhostDag

end CitrateChain.Consensus
