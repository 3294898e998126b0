import CitrateChain.Consensus.DagRestart
import CitrateChain.Storage.BlockPurge

/-! # Completing interrupted admissions

`reconcile` goes through the heights above the applied tip. A height without a row in the chain store
is filled with the blocks that the DAG store has there, and the block that a row names is stored in the
DAG. The siblings of that block are not looked at. -/
namespace CitrateChain.Node
open Consensus Storage BlockRows
open DagStore (Indexed opened permissive opened_indexed)

structure ReconcileReport where
  chainWritesCompleted : List UInt64 := []
  dagWritesCompleted : List UInt64 := []
  gaps : List UInt64 := []

def getBlocksAtHeight (dag : DagStore) (height : UInt64) : List Block :=
  (dag.blocksByHeight.getD height []).filterMap (dag.blocks[·]?)

def scope (applied latest : UInt64) : List UInt64 :=
  (List.range (latest.toNat - applied.toNat)).map fun i => UInt64.ofNat (applied.toNat + 1 + i)

def completeChain (dag : DagStore) (s : BlockRows × ReconcileReport) (height : UInt64) :
    BlockRows × ReconcileReport :=
  if (s.1.byHeight height).isSome then s
  else
    match getBlocksAtHeight dag height with
    | [] => (s.1, { s.2 with gaps := s.2.gaps ++ [height] })
    | candidates => (candidates.foldl putBlock s.1,
        { s.2 with chainWritesCompleted := s.2.chainWritesCompleted ++ [height] })

/-- The registration of the block in the engine writes to neither store. -/
def completeDag (r : DagRules) (chain : BlockRows) (s : DagStore × ReconcileReport)
    (height : UInt64) : DagStore × ReconcileReport :=
  match chain.byHeight height with
  | none => s
  | some hash =>
    if s.1.hasBlock hash then s
    else
      match chain.getBlock hash with
      | none => s
      | some b =>
        let done := { s.2 with dagWritesCompleted := s.2.dagWritesCompleted ++ [height] }
        match s.1.storeBlock r b none with
        | .ok dag => (dag, done)
        | .error (.blockExists _) => (s.1, done)
        | .error _ => s

def appliedHeight (chain : BlockRows) : UInt64 := (chain.appliedTip.map AppliedTip.height).getD 0

def reconcile (r : DagRules) (chain : BlockRows) (dag : DagStore) :
    BlockRows × DagStore × ReconcileReport :=
  let heights := scope (appliedHeight chain) chain.latestHeight
  let first := heights.foldl (completeChain dag) (chain, {})
  (first.1, heights.foldl (completeDag r first.1) (dag, first.2))

theorem mem_scope {n applied latest : UInt64} : n ∈ scope applied latest ↔ applied < n ∧ n ≤ latest := by
  simp only [scope, List.mem_map, List.mem_range, UInt64.lt_iff_toNat_lt, UInt64.le_iff_toNat_le]
  have hl := latest.toNat_lt
  constructor
  · rintro ⟨i, hi, rfl⟩
    rw [UInt64.toNat_ofNat_of_lt' (show _ < 2 ^ 64 by omega)]
    omega
  · intro h
    exact ⟨n.toNat - (applied.toNat + 1), by omega, by
      rw [Nat.add_sub_cancel' (by omega), UInt64.ofNat_toNat]⟩

def InScope (chain : BlockRows) (m : UInt64) : Prop := appliedHeight chain < m ∧ m ≤ chain.latestHeight

/-- What the two stores may hold: `all` says which block a hash stands for, a row of the chain store
in the scope names a block of its height, and the DAG's index of heights lists its blocks. -/
structure Contents (all : KvStore Hash Block) (chain : BlockRows) (dag : DagStore) : Prop where
  named : ∀ x b, all x = some b → b.hash = x
  inChain : ∀ x b, chain.blocks x = some b → all x = some b
  inDag : ∀ (x : Hash) b, dag.blocks[x]? = some b → all x = some b
  names : ∀ m y, InScope chain m → chain.byHeight m = some y →
    ∃ b, chain.blocks y = some b ∧ b.height = m
  index : Indexed dag

variable {all : KvStore Hash Block} {chain : BlockRows} {dag : DagStore} {r : DagRules}
  {hs : List UInt64} {n : UInt64}

theorem putBlock_blocks {s : BlockRows} {c : Block} (hs : ∀ x b, s.blocks x = some b → all x = some b)
    (hc : all c.hash = some c) (x : Hash) (b : Block) :
    (s.putBlock c).blocks x = some b ↔ s.blocks x = some b ∨ b = c ∧ b.hash = x := by
  change s.blocks.write (.put c.hash c) x = some b ↔ _
  rw [KvStore.write_put]
  have := hs x b
  grind

theorem foldl_putBlock {s : BlockRows} (hs : ∀ x b, s.blocks x = some b → all x = some b)
    {cs : List Block} (hcs : ∀ c ∈ cs, all c.hash = some c ∧ c.height = n) :
    (∀ x b, (cs.foldl putBlock s).blocks x = some b ↔ s.blocks x = some b ∨ b ∈ cs ∧ b.hash = x) ∧
      ∀ m, (cs.foldl putBlock s).byHeight m = s.byHeight m ∨
        ∃ c ∈ cs, m = n ∧ (cs.foldl putBlock s).byHeight m = some c.hash := by
  induction cs generalizing s with
  | nil => simp
  | cons c cs ih =>
    obtain ⟨⟨hc, hheight⟩, hcs⟩ := List.forall_mem_cons.mp hcs
    have hput := putBlock_blocks hs hc
    obtain ⟨hblocks, hrows⟩ := @ih (s.putBlock c) (by grind) hcs
    refine ⟨fun x b => ?_, fun m => ?_⟩
    · rw [List.foldl_cons, hblocks, hput, List.mem_cons]
      tauto
    · have hrow : (s.putBlock c).byHeight m = if m = c.height then some c.hash else s.byHeight m :=
        KvStore.write_put ..
      rw [List.foldl_cons]
      have := hrows m
      grind

structure Filled (chain : BlockRows) (dag : DagStore) (hs : List UInt64) (chain' : BlockRows) : Prop where
  blocks : ∀ x b, chain'.blocks x = some b ↔ chain.blocks x = some b ∨
    dag.blocks[x]? = some b ∧ b.height ∈ hs ∧ chain.byHeight b.height = none
  kept : ∀ m y, chain.byHeight m = some y → chain'.byHeight m = some y
  rows : ∀ m y, chain'.byHeight m = some y → chain.byHeight m = some y ∨ m ∈ hs ∧ dag.hasBlock y

def Mirrored (chain : BlockRows) (dag : DagStore) (hs : List UInt64) (dag' : DagStore) : Prop :=
  ∀ (x : Hash) b, dag'.blocks[x]? = some b ↔ dag.blocks[x]? = some b ∨
    chain.blocks x = some b ∧ b.height ∈ hs ∧ chain.byHeight b.height = some x

section
variable (h : Contents all chain dag)
include h

theorem Contents.mem_getBlocksAtHeight {b : Block} :
    b ∈ getBlocksAtHeight dag n ↔ dag.blocks[b.hash]? = some b ∧ b.height = n := by
  rw [getBlocksAtHeight, List.mem_filterMap]
  constructor
  · rintro ⟨x, hx, hb⟩
    obtain ⟨c, hc, hn⟩ := (h.index.mem n x).mp hx
    obtain rfl := Option.some.inj (hb.symm.trans hc)
    obtain rfl := h.named x b (h.inDag x b hb)
    exact ⟨hb, hn⟩
  · rintro ⟨hb, hn⟩
    exact ⟨b.hash, (h.index.mem n b.hash).mpr ⟨b, hb, hn⟩, hb⟩

theorem Filled.step {s : BlockRows × ReconcileReport} (hf : Filled chain dag hs s.1) :
    Filled chain dag (hs ++ [n]) (completeChain dag s n).1 := by
  rw [completeChain]
  split_ifs with hrow
  · refine ⟨fun x b => ?_, hf.kept, fun m y hy => (hf.rows m y hy).imp_right (by simp +contextual)⟩
    -- a row at `n` that is new was written for a height before
    obtain ⟨y, hy⟩ := Option.isSome_iff_exists.mp hrow
    have := hf.rows n y hy
    rw [hf.blocks]
    grind
  have hput : Filled chain dag (hs ++ [n]) ((getBlocksAtHeight dag n).foldl putBlock s.1) := by
    obtain ⟨hblocks, hrows⟩ := foldl_putBlock (n := n)
      (fun x b hb => ((hf.blocks x b).mp hb).elim (h.inChain x b) fun hd => h.inDag x b hd.1)
      fun c hc => (h.mem_getBlocksAtHeight.mp hc).imp_left (h.inDag _ c)
    have hold : chain.byHeight n = none :=
      Option.eq_none_iff_forall_ne_some.mpr fun y hy => by simp [hf.kept n y hy] at hrow
    refine ⟨fun x b => ?_, fun m y hy => ?_, fun m y hy => ?_⟩
    · rw [hblocks, hf.blocks, h.mem_getBlocksAtHeight]
      have := h.named x b
      have := h.inDag x b
      grind
    · rcases hrows m with heq | ⟨-, -, rfl, -⟩
      · exact heq.trans (hf.kept m y hy)
      · exact absurd (hold.symm.trans hy) (by simp)
    · rcases hrows m with heq | ⟨c, hc, rfl, heq⟩
      · exact (hf.rows m y (heq ▸ hy)).imp_right (by simp +contextual)
      · obtain rfl := Option.some.inj (heq.symm.trans hy)
        exact .inr ⟨List.mem_concat_self, by simp [DagStore.hasBlock, (h.mem_getBlocksAtHeight.mp hc).1]⟩
  split
  · rename_i heq
    rwa [heq] at hput
  · exact hput

theorem Filled.run : Filled chain dag hs (hs.foldl (completeChain dag) (chain, {})).1 := by
  induction hs using List.reverseRecOn with
  | nil => exact ⟨by simp, fun _ _ => id, fun _ _ => .inl⟩
  | append_singleton hs n ih => rw [List.foldl_concat]; exact .step h ih

variable (hr : ∀ dag b, r.strictVrf = true → r.admission dag b = none)
include hr

omit h in
theorem storeBlock_admitted {b : Block} (hnew : ¬dag.hasBlock b.hash) :
    dag.storeBlock r b none = .ok ((dag.persist (DagStore.storeOps r dag b)).storeInMemory b) := by
  unfold DagStore.storeBlock
  rw [if_neg hnew]
  cases hp : dag.persistent <;> cases hv : r.strictVrf <;> simp [hr, hv]

theorem Mirrored.step {chain' : BlockRows} {s : DagStore × ReconcileReport} {hs' : List UInt64}
    (hf : Filled chain dag hs' chain') (hn : InScope chain n) (hm : Mirrored chain dag hs s.1) :
    Mirrored chain dag (hs ++ [n]) (completeDag r chain' s n).1 := by
  have hall (x : Hash) (b : Block) (hb : s.1.blocks[x]? = some b) : all x = some b :=
    ((hm x b).mp hb).elim (h.inDag x b) fun hc => h.inChain x b hc.1
  -- nothing changes if the DAG already has the block that the old row names
  have hsame (hrow : ∀ y, chain.byHeight n = some y → s.1.hasBlock y) :
      Mirrored chain dag (hs ++ [n]) s.1 := fun x b => by
    rw [hm, List.mem_append, List.mem_singleton]
    refine ⟨Or.imp_right fun ⟨hx, hb, hy⟩ => ⟨hx, .inl hb, hy⟩, ?_⟩
    rintro (hd | ⟨hx, hb | rfl, hy⟩)
    · exact .inl hd
    · exact .inr ⟨hx, hb, hy⟩
    · obtain ⟨c, hc⟩ := Option.isSome_iff_exists.mp (hrow x hy)
      obtain rfl := Option.some.inj ((hall x c hc).symm.trans (h.inChain x b hx))
      exact (hm x c).mp hc
  unfold completeDag
  split
  · rename_i hnone
    exact hsame fun y hy => by simp [hf.kept n y hy] at hnone
  rename_i y hy
  have hkept (z : Hash) (hz : chain.byHeight n = some z) : z = y :=
    Option.some.inj ((hf.kept n z hz).symm.trans hy)
  split_ifs with hhas
  · exact hsame fun z hz => hkept z hz ▸ hhas
  have hdag : ¬dag.hasBlock y := fun hd => hhas <| by
    obtain ⟨c, hc⟩ := Option.isSome_iff_exists.mp hd
    exact Option.isSome_iff_exists.mpr ⟨c, (hm y c).mpr (.inl hc)⟩
  have hold := (hf.rows n y hy).resolve_right fun hd => hdag hd.2
  obtain ⟨c, hc, hheight⟩ := h.names n y hn hold
  obtain rfl := h.named y c (h.inChain y c hc)
  have hget : chain'.getBlock c.hash = some c := (hf.blocks _ c).mpr (.inl hc)
  simp only [hget, storeBlock_admitted hr hhas]
  intro x b
  change (s.1.blocks.insert c.hash c)[x]? = some b ↔ _
  rw [TreeMap.getElem?_insert_eq_some, hm, List.mem_append, List.mem_singleton]
  have := h.inDag x b
  have := h.inChain x b
  have := h.inChain _ c hc
  grind

theorem Mirrored.run {chain' : BlockRows} {hs' : List UInt64} {report : ReconcileReport}
    (hf : Filled chain dag hs' chain') (hscope : ∀ n ∈ hs, InScope chain n) :
    Mirrored chain dag hs (hs.foldl (completeDag r chain') (dag, report)).1 := by
  induction hs using List.reverseRecOn with
  | nil => simp [Mirrored]
  | append_singleton hs n ih =>
    rw [List.foldl_concat]
    exact .step h hr hf (hscope n List.mem_concat_self) (ih fun m hm => hscope m (List.mem_append_left _ hm))

def Both (chain : BlockRows) (dag : DagStore) (x : Hash) (b : Block) : Prop :=
  chain.blocks x = some b ↔ dag.blocks[x]? = some b

/-- A reconciliation leaves every block of its scope in both stores or in neither exactly if that was
so before for the siblings of the blocks that rows of the chain store name. -/
theorem reconcile_completes_iff
    (hcovers : ∀ x b, InScope chain b.height → chain.blocks x = some b →
      ∃ y, chain.byHeight b.height = some y) :
    (∀ x b, InScope chain b.height → Both (reconcile r chain dag).1 (reconcile r chain dag).2.1 x b) ↔
      ∀ x y b, InScope chain b.height → chain.byHeight b.height = some y → x ≠ y → Both chain dag x b := by
  have hf : Filled chain dag _ (reconcile r chain dag).1 := Filled.run h
  have hm : Mirrored chain dag _ (reconcile r chain dag).2.1 := Mirrored.run h hr hf fun n => mem_scope.mp
  generalize (reconcile r chain dag).1 = chain', (reconcile r chain dag).2.1 = dag' at *
  constructor
  · intro hboth x y b hscope hy hxy
    specialize hboth x b hscope
    constructor <;> intro hb
    · have hd := hboth.mp ((hf.blocks x b).mpr (.inl hb))
      exact ((hm x b).mp hd).resolve_right fun hx => hxy (Option.some.inj (hx.2.2.symm.trans hy))
    · have hc := hboth.mpr ((hm x b).mpr (.inl hb))
      exact ((hf.blocks x b).mp hc).resolve_right (by simp [hy])
  · intro hsib x b hscope
    constructor <;> intro hb
    · rcases (hf.blocks x b).mp hb with hc | ⟨hd, -⟩
      · obtain ⟨y, hy⟩ := hcovers x b hscope hc
        by_cases hxy : x = y
        · subst hxy
          exact (hm x b).mpr (.inr ⟨hc, mem_scope.mpr hscope, hy⟩)
        · exact (hm x b).mpr (.inl ((hsib x y b hscope hy hxy).mp hc))
      · exact (hm x b).mpr (.inl hd)
    · rcases (hm x b).mp hb with hd | ⟨hc, -⟩
      · refine (hf.blocks x b).mpr ?_
        cases hy : chain.byHeight b.height with
        | none => exact .inr ⟨hd, mem_scope.mpr hscope, rfl⟩
        | some y =>
          refine .inl ?_
          by_cases hxy : x = y
          · subst hxy
            obtain ⟨c, hc, -⟩ := h.names _ x hscope hy
            rw [hc, ← h.inChain x c hc, h.inDag x b hd]
          · exact (hsib x y b hscope hy hxy).mpr hd
      · exact (hf.blocks x b).mpr (.inl hc)

end

theorem reconcile_completes_held_sibling :
    let dag := opened.storeInMemory (siblingOf 2 1)
    InScope (siblings 1) 1 ∧ dag.hasBlock 3 = false ∧ ∀ x b, InScope (siblings 1) b.height →
      Both (reconcile permissive (siblings 1) dag).1 (reconcile permissive (siblings 1) dag).2.1 x b := by
  have hsound : Sound (siblings 1) := Runs.sound (siblings_run 1)
  have hdag (x : Hash) (b : Block) : (opened.storeInMemory (siblingOf 2 1)).blocks[x]? = some b ↔
      2 = x ∧ siblingOf 2 1 = b := by
    simp [DagStore.storeInMemory, TreeMap.getElem?_insert_eq_some, opened, siblingOf, Block.hash]
  have hindex := opened_indexed.store (b := siblingOf 2 1) (by simp [opened])
  refine ⟨⟨by decide, by decide⟩, by decide, (reconcile_completes_iff ⟨fun x b hb => ?_,
    fun _ _ => id, fun x b hb => ?_, fun m y _ => hsound.heights.names m y, hindex⟩
    (fun _ _ _ => rfl) fun x b _ hb => hsound.heights.covers x b hb trivial).mpr
    fun x y b hscope hy hxy => ?_⟩
  · rw [siblings_blocks] at hb
    split_ifs at hb
    all_goals
      cases hb
      exact Eq.symm ‹x = _›
  · obtain ⟨rfl, rfl⟩ := (hdag x b).mp hb
    exact siblings_blocks 1 2
  · have hone : b.height = 1 :=
      UInt64.toNat_inj.mp (le_antisymm (UInt64.le_iff_toNat_le.mp hscope.2) (UInt64.lt_iff_toNat_lt.mp hscope.1))
    rw [hone] at hy
    obtain rfl : 3 = y := Option.some.inj hy
    rw [Both, hdag, siblings_blocks, if_neg hxy]
    split_ifs with h2 h1
    · simp [h2]
    · refine ⟨fun hb => ?_, fun hb => absurd hb.1.symm h2⟩
      cases hb
      exact absurd hone (by decide)
    · exact ⟨False.elim, fun hb => absurd hb.1.symm h2⟩

theorem reconcile_leaves_sibling : InScope (siblings 1) (siblingOf 2 1).height ∧
    (reconcile permissive (siblings 1) opened).1.getBlock 2 = some (siblingOf 2 1) ∧
      (reconcile permissive (siblings 1) opened).2.1.hasBlock 2 = false :=
  ⟨⟨by decide, by decide⟩, by decide, by decide⟩

end CitrateChain.Node
