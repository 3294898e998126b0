import CitrateChain.Consensus.DagHeights
import CitrateChain.Consensus.DagRestart
import CitrateChain.Consensus.ForkChoice
import CitrateChain.Node.Admission

/-! # Repeated admission of a block

What a later call sees of an earlier one is the presence of the block in the two stores. A block that
is in the DAG store is not registered again, so that a failed `add_block` is never made up for. -/
namespace CitrateChain.Node
open Consensus Storage DagStore GhostDag

namespace BlockAdmission
variable {r : AdmissionRules} {n n' : BlockAdmission} {b c : ReceivedBlock} {f : AdmitFaults}

def related (n : BlockAdmission) (x : Hash) : Bool := (n.ghostdag.relations x).isSome

structure Everywhere (n : BlockAdmission) (x : Hash) : Prop where
  dag : n.dag.hasBlock x = true
  chain : n.chain.hasBlock x = true
  related : n.related x = true

structure Passes (r : AdmissionRules) (n : BlockAdmission) (b : ReceivedBlock) : Prop where
  notWithdrawn : n.NotWithdrawn b
  checkpoint : (n.resolveCheckpoints r).checkpointReason b = none
  unpruned : ¬ b.height < n.dagPrunedBelow
  gates : ∃ c, n.checkGates r b = .ok c

/-- The call puts a block that is not registered into the DAG store, and its `add_block` fails. -/
def Skips (r : AdmissionRules) (n : BlockAdmission) (b : ReceivedBlock) (f : AdmitFaults) : Prop :=
  n.dag.hasBlock b.hash = false ∧ n.related b.hash = false ∧
    ∃ dag, n.dag.storeBlock r.dag b.toBlock f.storeBlock = .ok dag ∧
    (f.addBlock ≠ none ∨
      ∃ e, ({ n with dag } : BlockAdmission).engine.addBlock b.toBlock = .error e)

structure NoStepFails (r : AdmissionRules) (n : BlockAdmission) (b : ReceivedBlock) (f : AdmitFaults) :
    Prop where
  putBlock : f.putBlock = none
  dagSide : n.dag.hasBlock b.hash = false →
    ∃ dag, n.dag.storeBlock r.dag b.toBlock f.storeBlock = .ok dag ∧ f.addBlock = none ∧
      ∃ g, ({ n with dag } : BlockAdmission).engine.addBlock b.toBlock = .ok g

def Stored (n : BlockAdmission) (x : Hash) : Prop :=
  n.chain.hasBlock x = true ∧ n.dag.hasBlock x = true

theorem hasBlock_storeBlock {dag dag' : DagStore} {blk : Block} {fault : Option String}
    (h : dag.storeBlock r.dag blk fault = .ok dag') : dag'.hasBlock blk.hash = true := by
  obtain ⟨-, rfl⟩ := storeBlock_ok h
  unfold hasBlock storeInMemory
  dsimp only
  rw [Std.ExtTreeMap.getElem?_insert_self]
  rfl

theorem related_addBlock {g g' : GhostDag} {blk : Block} (h : g.addBlock blk = .ok g') :
    (g'.relations blk.hash).isSome = true := by
  obtain ⟨-, -, s, -, rfl⟩ := addBlock_eq_ok.mp h
  have hentry := entry_record g blk s blk.hash
  rw [if_pos rfl] at hentry
  unfold entry at hentry
  obtain ⟨rel, hrel, -⟩ := Option.map_eq_some_iff.mp hentry
  rw [hrel]
  rfl

theorem hasBlock_putBlock (chain : BlockStore) (blk : Block) :
    (chain.putBlock blk).hasBlock blk.hash = true := by
  unfold BlockStore.hasBlock BlockStore.putBlock
  dsimp only
  rw [KvStore.write_put, if_pos rfl]
  rfl

theorem admitBlock_of_stored (hs : n.Stored b.hash) :
    ∃ outcome w cps, n.admitBlock r b f = (outcome, { n with withdrawn := w, checkpoints := cps }) := by
  unfold admitBlock
  rcases n.withdrawnReason_cases b with hnot | ⟨why, w, -, heq⟩
  · rw [withdrawnReason_of_not hnot]
    dsimp only
    split
    · exact ⟨_, n.withdrawn, _, rfl⟩
    · unfold admitChecked
      have hboth : ((n.resolveCheckpoints r).chain.hasBlock b.hash &&
          (n.resolveCheckpoints r).dag.hasBlock b.hash) = true := by
        rw [Bool.and_eq_true]
        exact hs
      rw [if_pos hboth]
      exact ⟨_, n.withdrawn, _, rfl⟩
  · rw [heq]
    exact ⟨_, w, n.checkpoints, rfl⟩

theorem admitBlock_of_passes (hp : Passes r n b) (hs : ¬ n.Stored b.hash) :
    ∃ c, n.checkGates r b = .ok c ∧ c.toBlock = b.toBlock ∧
      n.admitBlock r b f = (n.resolveCheckpoints r).writeBlock r c f := by
  obtain ⟨c, hc⟩ := hp.gates
  refine ⟨c, hc, (checkGates_ok hc).2.1, ?_⟩
  unfold admitBlock
  rw [withdrawnReason_of_not hp.notWithdrawn]
  dsimp only
  rw [hp.checkpoint]
  dsimp only
  unfold admitChecked
  have hboth : ¬ ((n.resolveCheckpoints r).chain.hasBlock b.hash &&
      (n.resolveCheckpoints r).dag.hasBlock b.hash) = true := by
    rw [Bool.and_eq_true]
    exact hs
  have hpruned : ¬ ((n.resolveCheckpoints r).chain.hasBlock b.hash &&
      decide (b.height < (n.resolveCheckpoints r).dagPrunedBelow)) = true := by
    rw [Bool.and_eq_true, decide_eq_true_eq]
    exact fun h => hp.unpruned h.2
  have hgates : (n.resolveCheckpoints r).checkGates r b = .ok c := hc
  rw [if_neg hboth, if_neg hpruned, hgates]

theorem Passes.resolve (hp : Passes r n b) : Passes r (n.resolveCheckpoints r) b where
  __ := hp
  checkpoint := by
    have hagain : (n.resolveCheckpoints r).resolved r = n.resolved r := by
      unfold resolveCheckpoints
      cases hres : n.resolved r with
      | some list => rfl
      | none =>
        unfold resolved at hres ⊢
        cases hcps : n.checkpoints with
        | some list =>
          rw [hcps] at hres
          cases hres
        | none =>
          rw [hcps] at hres
          exact hres
    have hsame : (n.resolveCheckpoints r).resolveCheckpoints r = n.resolveCheckpoints r := by
      rw [resolveCheckpoints, hagain]
      rfl
    rw [hsame]
    exact hp.checkpoint

/-- The rules of the gates are those of before, and the DAG store has gained the block at most. -/
structure Grown (n n' : BlockAdmission) (b : ReceivedBlock) : Prop where
  chain : n'.chain = n.chain
  withdrawn : n'.withdrawn = n.withdrawn
  checkpoints : n'.checkpoints = n.checkpoints
  pruningPoint : n'.dag.pruningPoint = n.dag.pruningPoint
  hardening : n'.ghostdag.pbaHardening = n.ghostdag.pbaHardening
  blocks : ∀ x, x ≠ b.hash → n'.dag.blocks[x]? = n.dag.blocks[x]?
  own : n'.dag.blocks[b.hash]? = some b.toBlock
  grows : GhostDag.Extends n.engine n'.engine

theorem Passes.grown (hp : Passes r n b) (hg : Grown n n' b) : Passes r n' b where
  notWithdrawn := by
    unfold NotWithdrawn
    rw [hg.withdrawn]
    exact hp.notWithdrawn
  checkpoint := by
    have hsame : (n'.resolveCheckpoints r).checkpoints = (n.resolveCheckpoints r).checkpoints := by
      unfold resolveCheckpoints resolved
      rw [hg.checkpoints, hg.chain]
    have hkeep := hp.checkpoint
    unfold checkpointReason at hkeep ⊢
    rw [hsame]
    exact hkeep
  unpruned := by
    have hkeep := hp.unpruned
    unfold dagPrunedBelow at hkeep ⊢
    rw [hg.pruningPoint]
    split
    · rename_i hzero
      rw [if_pos hzero] at hkeep
      exact hkeep
    rename_i hzero
    rw [if_neg hzero] at hkeep
    unfold getBlock at hkeep ⊢
    -- The block itself may be the pruning point, and is then not below it.
    by_cases hown : n.dag.pruningPoint = b.hash
    · rw [hown, hg.own]
      exact lt_irrefl b.height
    · rw [hg.blocks _ hown]
      exact hkeep
  gates := by
    obtain ⟨c, hc⟩ := hp.gates
    have hvalid := hg.grows.validate (checkGates_ok hc).1
    refine ⟨c, ?_⟩
    unfold checkGates at hc ⊢
    rw [(checkGates_ok hc).1] at hc
    rw [hvalid, hg.hardening]
    exact hc

variable {dag : DagStore}

theorem grown_storeBlock (h : n.dag.storeBlock r.dag b.toBlock f.storeBlock = .ok dag) :
    Grown n { n with dag } b := by
  obtain ⟨hnew, rfl⟩ := storeBlock_ok h
  have hget : ∀ x, ((n.dag.persist (storeOps r.dag n.dag b.toBlock)).storeInMemory
      b.toBlock).blocks[x]? = if x = b.hash then some b.toBlock else n.dag.blocks[x]? := by
    intro x
    unfold storeInMemory persist
    dsimp only
    rw [Std.ExtTreeMap.getElem?_insert]
    by_cases hx : x = b.hash
    · rw [if_pos hx, hx]
      simp [Block.hash]
    · have hne : ¬ compare b.toBlock.hash x = .eq := by
        intro hcmp
        exact hx (Std.LawfulEqCmp.eq_of_compare hcmp).symm
      rw [if_neg hx, if_neg hne]
  refine
    { chain := rfl
      withdrawn := rfl
      checkpoints := rfl
      pruningPoint := rfl
      hardening := rfl
      blocks := fun x hx => by rw [hget, if_neg hx]
      own := by rw [hget, if_pos rfl]
      grows := ⟨rfl, rfl, rfl, rfl, rfl, fun x c hc => ?_⟩ }
  have hne : x ≠ b.hash := by
    rintro rfl
    have hnone : n.dag.blocks[b.hash]? = none := hnew
    have hsome : n.dag.blocks[b.hash]? = some c := hc
    cases hnone.symm.trans hsome
  have hx := hget x
  rw [if_neg hne] at hx
  exact hx.trans hc

def Ready (r : AdmissionRules) (n : BlockAdmission) (b : ReceivedBlock) : Prop :=
  n.Stored b.hash ∨ Passes r n b

def Lost (n : BlockAdmission) (x : Hash) : Prop := n.dag.hasBlock x = true ∧ n.related x = false

/-- The call leaves the DAG store and the engine alone, or the block enters the store, and is then
registered or skipped. -/
inductive DagSide (r : AdmissionRules) (n : BlockAdmission) (b : ReceivedBlock) (f : AdmitFaults)
    (n' : BlockAdmission) : Prop
  | same (dag : n'.dag = n.dag) (engine : n'.ghostdag = n.ghostdag)
      (refused : n.dag.hasBlock b.hash = false →
        ∀ dag, n.dag.storeBlock r.dag b.toBlock f.storeBlock ≠ .ok dag)
  | registered (absent : n.dag.hasBlock b.hash = false) (dag : n'.dag.hasBlock b.hash = true)
      (related : n'.related b.hash = true) (added : f.addBlock = none ∧ ∃ dag g,
        n.dag.storeBlock r.dag b.toBlock f.storeBlock = .ok dag ∧
          ({ n with dag } : BlockAdmission).engine.addBlock b.toBlock = .ok g)
  | passedOver (absent : n.dag.hasBlock b.hash = false) (dag : n'.dag.hasBlock b.hash = true)
      (engine : n'.ghostdag = n.ghostdag) (failed : ∃ dag,
        n.dag.storeBlock r.dag b.toBlock f.storeBlock = .ok dag ∧ (f.addBlock ≠ none ∨
          ∃ e, ({ n with dag } : BlockAdmission).engine.addBlock b.toBlock = .error e))

theorem writeBlock_congr (hc : c.toBlock = b.toBlock) : n.writeBlock r c f = n.writeBlock r b f := by
  unfold writeBlock writeDag writeChain registerBlock
  rw [hc]

theorem dagSide_registerBlock (habsent : n.dag.hasBlock b.hash = false)
    (hstore : n.dag.storeBlock r.dag b.toBlock f.storeBlock = .ok dag) :
    DagSide r n b f (({ n with dag } : BlockAdmission).registerBlock b f) := by
  have hhas : dag.hasBlock b.hash = true := hasBlock_storeBlock hstore
  rcases registerBlock_cases { n with dag } b f with ⟨g, hf, hadd, heq⟩ | ⟨hfail, heq⟩
  · rw [heq]
    exact .registered habsent hhas (related_addBlock hadd) ⟨hf, dag, g, hstore, hadd⟩
  · rw [heq]
    exact .passedOver habsent hhas rfl ⟨dag, hstore, hfail⟩

theorem grown_registerBlock (hstore : n.dag.storeBlock r.dag b.toBlock f.storeBlock = .ok dag) :
    Grown n (({ n with dag } : BlockAdmission).registerBlock b f) b := by
  have hg := grown_storeBlock hstore
  rcases registerBlock_cases { n with dag } b f with ⟨g, -, hadd, heq⟩ | ⟨-, heq⟩
  · rw [heq]
    obtain ⟨-, -, s, -, rfl⟩ := addBlock_eq_ok.mp hadd
    exact ⟨rfl, rfl, rfl, hg.pruningPoint, rfl, hg.blocks, hg.own,
      ⟨rfl, rfl, rfl, rfl, rfl, hg.grows.blocks⟩⟩
  · rw [heq]
    exact hg

theorem writeChain_step {m : BlockAdmission} (hdag : m.dag.hasBlock b.hash = true) :
    (∃ m', m.writeChain b f = .ok m' ∧ m'.Stored b.hash ∧ m'.dag = m.dag ∧ m'.ghostdag = m.ghostdag) ∨
      f.putBlock ≠ none ∧ ∃ why, m.writeChain b f = .error why := by
  rcases writeChain_cases m b f with ⟨hhas, heq⟩ | ⟨-, -, heq⟩ | ⟨text, -, hf, heq⟩
  · exact Or.inl ⟨m, heq, ⟨hhas, hdag⟩, rfl, rfl⟩
  · exact Or.inl ⟨_, heq, ⟨hasBlock_putBlock m.chain b.toBlock, hdag⟩, rfl, rfl⟩
  · exact Or.inr ⟨by simp [hf], _, heq⟩

theorem DagSide.of_eq {m m' : BlockAdmission} (h : DagSide r n b f m) (hdag : m'.dag = m.dag)
    (hengine : m'.ghostdag = m.ghostdag) : DagSide r n b f m' := by
  cases h with
  | same hd he href => exact .same (hdag.trans hd) (hengine.trans he) href
  | registered habsent hd hrel hadd =>
    refine .registered habsent ?_ ?_ hadd
    · rw [hdag]
      exact hd
    · unfold related at hrel ⊢
      rw [hengine]
      exact hrel
  | passedOver habsent hd he hfail =>
    refine .passedOver habsent ?_ (hengine.trans he) hfail
    rw [hdag]
    exact hd

theorem DagSide.of_resolve (h : DagSide r (n.resolveCheckpoints r) b f n') : DagSide r n b f n' := by
  cases h with
  | same hd he href => exact .same hd he href
  | registered habsent hd hrel hadd => exact .registered habsent hd hrel hadd
  | passedOver habsent hd he hfail => exact .passedOver habsent hd he hfail

theorem writeBlock_step (hp : Passes r n b) :
    Ready r (n.writeBlock r b f).2 b ∧ DagSide r n b f (n.writeBlock r b f).2 ∧
      (NoStepFails r n b f → (n.writeBlock r b f).2.Stored b.hash) := by
  -- What the DAG side leaves, and that the chain side then runs on a node that passes.
  have hchain : ∀ m, n.writeDag r b f = .ok m → Passes r m b → m.dag.hasBlock b.hash = true →
      DagSide r n b f m → Ready r (n.writeBlock r b f).2 b ∧ DagSide r n b f (n.writeBlock r b f).2 ∧
        (NoStepFails r n b f → (n.writeBlock r b f).2.Stored b.hash) := by
    intro m hwrite hpm hdag hside
    unfold writeBlock
    rw [hwrite]
    dsimp only
    rcases writeChain_step (m := m) (f := f) hdag with ⟨m', heq, hstored, hd, he⟩ | ⟨hput, why, heq⟩
    · rw [heq]
      exact ⟨Or.inl hstored, hside.of_eq hd he, fun _ => hstored⟩
    · rw [heq]
      exact ⟨Or.inr hpm, hside, fun hno => absurd hno.putBlock hput⟩
  rcases writeDag_cases r n b f with ⟨hhas, heq⟩ | ⟨dag, hnone, hstore, heq⟩ | ⟨e, hnone, hstore, heq⟩
  · exact hchain n heq hp hhas (.same rfl rfl fun hnone => by simp [hhas] at hnone)
  · have hg := grown_registerBlock hstore
    refine hchain _ heq (hp.grown hg) ?_ (dagSide_registerBlock hnone hstore)
    unfold hasBlock
    rw [hg.own]
    rfl
  unfold writeBlock
  rw [heq]
  have hrefused : ∀ dag, n.dag.storeBlock r.dag b.toBlock f.storeBlock ≠ .ok dag := by
    intro dag hok
    cases hstore.symm.trans hok
  refine ⟨Or.inr hp, .same rfl rfl fun _ => hrefused, fun hno => ?_⟩
  obtain ⟨dag, hok, -⟩ := hno.dagSide hnone
  exact absurd hok (hrefused dag)

theorem admitBlock_step (hr : Ready r n b) :
    Ready r (n.admitBlock r b f).2 b ∧ DagSide r n b f (n.admitBlock r b f).2 ∧
      (NoStepFails r n b f → (n.admitBlock r b f).2.Stored b.hash) := by
  by_cases hs : n.Stored b.hash
  · obtain ⟨outcome, w, cps, heq⟩ := admitBlock_of_stored (r := r) (f := f) hs
    rw [heq]
    exact ⟨Or.inl hs, .same rfl rfl fun hnone => by simp [hs.2] at hnone, fun _ => hs⟩
  · have hp : Passes r n b := hr.resolve_left hs
    obtain ⟨c, -, hc, heq⟩ := admitBlock_of_passes (f := f) hp hs
    rw [heq, writeBlock_congr hc]
    obtain ⟨hready, hside, hstored⟩ := writeBlock_step (f := f) hp.resolve
    exact ⟨hready, hside.of_resolve, fun hno => hstored ⟨hno.putBlock, hno.dagSide⟩⟩

def admitAll (r : AdmissionRules) (b : ReceivedBlock) (n : BlockAdmission) (fs : List AdmitFaults) :
    BlockAdmission :=
  fs.foldl (fun n f => (n.admitBlock r b f).2) n

def NeverSkips (r : AdmissionRules) (b : ReceivedBlock) : BlockAdmission → List AdmitFaults → Prop
  | _, [] => True
  | n, f :: fs => ¬ Skips r n b f ∧ NeverSkips r b (n.admitBlock r b f).2 fs

theorem lost_of_skips (hr : Ready r n b) (hs : Skips r n b f) : (n.admitBlock r b f).2.Lost b.hash := by
  obtain ⟨habsent, hunrelated, dag, hstore, hfail⟩ := hs
  have hside : DagSide r n b f (n.admitBlock r b f).2 := (admitBlock_step hr).2.1
  cases hside with
  | same hd he href => exact absurd hstore (href habsent dag)
  | registered _ hd hrel hadd =>
    obtain ⟨hf, dag', g, hstore', hadd⟩ := hadd
    cases hstore.symm.trans hstore'
    rcases hfail with hfail | ⟨e, he⟩
    · exact absurd hf hfail
    · cases hadd.symm.trans he
  | passedOver _ hd he _ =>
    refine ⟨hd, ?_⟩
    unfold related at hunrelated ⊢
    rw [he]
    exact hunrelated

theorem Lost.admitBlock (hl : n.Lost b.hash) (hr : Ready r n b) : (n.admitBlock r b f).2.Lost b.hash := by
  have hside : DagSide r n b f (n.admitBlock r b f).2 := (admitBlock_step hr).2.1
  cases hside with
  | same hd he _ =>
    unfold Lost related
    rw [hd, he]
    exact hl
  | registered habsent | passedOver habsent => simp [hl.1] at habsent

theorem not_lost_admitBlock (hl : ¬ n.Lost b.hash) (hr : Ready r n b) (hs : ¬ Skips r n b f) :
    ¬ (n.admitBlock r b f).2.Lost b.hash := by
  have hside : DagSide r n b f (n.admitBlock r b f).2 := (admitBlock_step hr).2.1
  cases hside with
  | same hd he _ =>
    unfold Lost related
    rw [hd, he]
    exact hl
  | registered _ _ hrel _ =>
    intro hlost
    cases hlost.2.symm.trans hrel
  | passedOver habsent _ he hfail =>
    intro hlost
    refine hs ⟨habsent, ?_, hfail⟩
    unfold related
    rw [← he]
    exact hlost.2

theorem Lost.admitAll (fs : List AdmitFaults) (hl : n.Lost b.hash) (hr : Ready r n b) :
    (n.admitAll r b fs).Lost b.hash := by
  induction fs generalizing n with
  | nil => exact hl
  | cons f fs ih => exact ih (hl.admitBlock hr) (admitBlock_step hr).1

theorem Ready.admitAll (fs : List AdmitFaults) (hr : Ready r n b) : Ready r (n.admitAll r b fs) b := by
  induction fs generalizing n with
  | nil => exact hr
  | cons f fs ih => exact ih (admitBlock_step hr).1

theorem admitAll_lost_iff (fs : List AdmitFaults) (hl : ¬ n.Lost b.hash) (hr : Ready r n b) :
    ¬ (n.admitAll r b fs).Lost b.hash ↔ NeverSkips r b n fs := by
  induction fs generalizing n with
  | nil => exact ⟨fun _ => trivial, fun _ => hl⟩
  | cons f fs ih =>
    have hr' : Ready r (n.admitBlock r b f).2 b := (admitBlock_step hr).1
    by_cases hs : Skips r n b f
    · have hlost := (lost_of_skips hr hs).admitAll fs hr'
      exact ⟨fun hnot => absurd hlost hnot, fun hnever => absurd hs hnever.1⟩
    · have hiff := ih (not_lost_admitBlock hl hr hs) hr'
      exact hiff.trans ⟨fun h => ⟨hs, h⟩, fun h => h.2⟩

theorem everywhere_iff_not_lost (hr : Ready r n b) (hno : NoStepFails r n b f) :
    Everywhere (n.admitBlock r b f).2 b.hash ↔ ¬ n.Lost b.hash := by
  obtain ⟨-, hside, hstored⟩ := admitBlock_step (f := f) hr
  have hs := hstored hno
  constructor
  · intro he hl
    have hrel := he.related
    cases ((hl.admitBlock hr).2).symm.trans hrel
  intro hl
  refine ⟨hs.2, hs.1, ?_⟩
  cases hside with
  | same hd he _ =>
    have hdag := hs.2
    rw [hd] at hdag
    unfold related
    rw [he]
    by_contra hrel
    exact hl ⟨hdag, eq_false_of_ne_true hrel⟩
  | registered _ _ hrel _ => exact hrel
  | passedOver habsent _ _ hfail =>
    -- Excluded: nothing fails in this call.
    exfalso
    obtain ⟨dag, hstore, hf, g, hadd⟩ := hno.dagSide habsent
    obtain ⟨dag', hstore', hfail⟩ := hfail
    cases hstore.symm.trans hstore'
    rcases hfail with hfail | ⟨e, he⟩
    · exact hfail hf
    · cases hadd.symm.trans he

/-- For a block that no check refuses, and that is registered if the DAG store has it, a call without a
failure brings the block everywhere exactly if no call before it went on after a failed `add_block`. -/
theorem admission_converges_iff (hp : Passes r n b)
    (hreg : n.dag.hasBlock b.hash = true → n.related b.hash = true) (fs : List AdmitFaults)
    (hno : NoStepFails r (n.admitAll r b fs) b f) :
    Everywhere ((n.admitAll r b fs).admitBlock r b f).2 b.hash ↔ NeverSkips r b n fs := by
  have hr : Ready r n b := Or.inr hp
  have hl : ¬ n.Lost b.hash := by
    intro hl
    have hrel := hreg hl.1
    cases hl.2.symm.trans hrel
  exact (everywhere_iff_not_lost (hr.admitAll fs) hno).trans (admitAll_lost_iff fs hl hr)

noncomputable def openRules : AdmissionRules where
  dag := permissive
  sha3 _ := 2
  crypto := ⟨fun _ => 0, fun _ _ _ => none, fun _ => false, fun _ => false, fun _ _ _ => false,
    fun _ _ _ => false⟩
  canonicalCheckpoints := []

def receivedBlock (blk : Block) (h : blk.transactions = []) : ReceivedBlock :=
  { blk with body := [], carried := h }

noncomputable def rootedNode : BlockAdmission :=
  (({ chain := ⟨fun _ => none, fun _ => none, fun _ => none, none, none, fun _ => none⟩
      dag := {}
      ghostdag := genesisEngine } : BlockAdmission).admitBlock openRules
    (receivedBlock (dagBlock 1 0 [] 0 0) rfl) {}).2

def firstBlock : ReceivedBlock := receivedBlock (dagBlock 2 1 [] 1 1) rfl

theorem rootedNode_passes : Passes openRules rootedNode firstBlock where
  notWithdrawn := by
    have hnone : rootedNode.withdrawn = ∅ := by decide
    unfold NotWithdrawn
    rw [hnone]
    exact ⟨Finset.notMem_empty _, fun p _ => Finset.notMem_empty p⟩
  checkpoint := by decide
  unpruned := by decide
  gates := by
    have hok : (rootedNode.checkGates openRules firstBlock).toOption.isSome = true := by decide
    cases hc : rootedNode.checkGates openRules firstBlock with
    | ok c => exact ⟨c, rfl⟩
    | error e =>
      rw [hc] at hok
      cases hok

theorem admission_converges_iff_full_disk :
    Everywhere ((rootedNode.admitAll openRules firstBlock [{ putBlock := some "disk full" }]).admitBlock
      openRules firstBlock {}).2 2 := by
  have hnever : NeverSkips openRules firstBlock rootedNode [{ putBlock := some "disk full" }] := by
    refine ⟨?_, trivial⟩
    rintro ⟨-, -, dag, hstore, hfail⟩
    have hnew : rootedNode.dag.hasBlock firstBlock.toBlock.hash = false := by decide
    have hdag := storeBlock_permissive hnew
    cases hdag.symm.trans hstore
    rcases hfail with hfail | ⟨e, he⟩
    · exact hfail rfl
    · have hok : (Except.toOption _).isSome = false := congrArg (·.toOption.isSome) he
      exact absurd hok (by decide)
  refine (admission_converges_iff rootedNode_passes (by decide) _ ⟨rfl, ?_⟩).mpr hnever
  intro habsent
  exact absurd habsent (by decide)

theorem failed_add_block_lost : Passes openRules rootedNode firstBlock ∧
    rootedNode.dag.hasBlock 2 = false ∧
    ((rootedNode.admitAll openRules firstBlock [{ addBlock := some .cycleDetected }]).admitBlock
      openRules firstBlock {}).1 = .alreadyAdmitted ∧
    ∀ fs, ¬ Everywhere
      (rootedNode.admitAll openRules firstBlock ({ addBlock := some .cycleDetected } :: fs)) 2 := by
  refine ⟨rootedNode_passes, by decide, by decide, fun fs he => ?_⟩
  have hready : Ready openRules rootedNode firstBlock := Or.inr rootedNode_passes
  have hlost : (rootedNode.admitBlock openRules firstBlock { addBlock := some .cycleDetected }).2.Lost 2 :=
    ⟨by decide, by decide⟩
  have hall := Lost.admitAll (b := firstBlock) fs hlost (admitBlock_step hready).1
  exact Bool.false_ne_true (hall.2.symm.trans he.related)

end BlockAdmission

end CitrateChain.Node
