import CitrateChain.Consensus.DagRestart

/-! # Tips and children of the DAG store

Storing a block updates both. They describe the stored headers exactly when every block was stored
before the blocks that name it: a block that comes later starts as a tip without children. -/
namespace CitrateChain.Consensus.DagStore
open Transition
open Std (ExtTreeMap)
variable {r : DagRules} {dag dag' : DagStore} {b : Block} {bs : List Block} {x y : Hash}

def Names (dag : DagStore) (y x : Hash) : Prop := ∃ c, dag.blocks[y]? = some c ∧ x ∈ linkedParents c

structure Exact (dag : DagStore) : Prop where
  tips : ∀ x, x ∈ dag.getTips ↔ dag.hasBlock x ∧ ∀ y, ¬dag.Names y x
  children : ∀ x y, y ∈ dag.getChildren x ↔ dag.Names y x

def Stores (r : DagRules) (dag : DagStore) (b : Block) (dag' : DagStore) : Prop :=
  ∃ fault, dag.storeBlock r b fault = .ok dag'

def BeforeNamed (bs : List Block) : Prop :=
  bs.Pairwise (fun a b => b.hash ∉ linkedParents a) ∧ ∀ b ∈ bs, b.hash ∉ linkedParents b

theorem mem_foldl_pushChild {block : Hash} (ps : List Hash) (m : ExtTreeMap Hash (List Hash)) :
    y ∈ (ps.foldl (pushChild block) m).getD x [] ↔ y ∈ m.getD x [] ∨ y = block ∧ x ∈ ps := by
  induction ps generalizing m with
  | nil => simp
  | cons p ps ih =>
    rw [List.foldl_cons, ih, pushChild, TreeMap.getD_insert_append]
    by_cases hx : x = p
    · subst hx
      simp only [List.mem_append, List.mem_cons, if_true]
      tauto
    · simp [hx, Ne.symm hx]

section

variable (hs : Stores r dag b dag')
include hs

theorem Stores.fresh : ¬dag.Names b.hash x := by
  obtain ⟨_, hok⟩ := hs
  rintro ⟨c, hc, -⟩
  rw [(storeBlock_ok hok).1] at hc
  cases hc

theorem Stores.hasBlock_iff : dag'.hasBlock x ↔ x = b.hash ∨ dag.hasBlock x := by
  obtain ⟨_, hok⟩ := hs
  obtain ⟨-, rfl⟩ := storeBlock_ok hok
  simp only [hasBlock, storeInMemory, persist, TreeMap.getElem?_insert_ite]
  by_cases hx : x = b.hash <;> simp [hx]

theorem Stores.names_iff : dag'.Names y x ↔ dag.Names y x ∨ y = b.hash ∧ x ∈ linkedParents b := by
  have hfresh := hs.fresh (x := x)
  obtain ⟨_, hok⟩ := hs
  obtain ⟨-, rfl⟩ := storeBlock_ok hok
  simp only [Names, storeInMemory, persist, TreeMap.getElem?_insert_ite] at hfresh ⊢
  by_cases hy : y = b.hash
  · subst hy
    simpa using fun c hc hmem => absurd ⟨c, hc, hmem⟩ hfresh
  · simp [hy]

theorem Stores.mem_getChildren : y ∈ dag'.getChildren x ↔
    x ≠ b.hash ∧ (y ∈ dag.getChildren x ∨ y = b.hash ∧ x ∈ linkedParents b) := by
  obtain ⟨_, hok⟩ := hs
  obtain ⟨-, rfl⟩ := storeBlock_ok hok
  rw [getChildren, getChildren, ← mem_foldl_pushChild]
  by_cases hx : x = b.hash <;>
    simp [storeInMemory, persist, ExtTreeMap.getD_eq_getD_getElem?, TreeMap.getElem?_insert_ite, hx]

theorem Stores.mem_getTips :
    x ∈ dag'.getTips ↔ x = b.hash ∨ x ∈ dag.getTips ∧ x ∉ linkedParents b := by
  have hstored := hs.hasBlock_iff (x := x)
  obtain ⟨_, hok⟩ := hs
  obtain ⟨-, rfl⟩ := storeBlock_ok hok
  simp only [hasBlock] at hstored
  simp only [getTips, Finset.mem_filter, hstored]
  simp only [storeInMemory, persist, Finset.mem_insert, Finset.mem_sdiff, List.mem_toFinset]
  tauto

omit hs in
theorem Exact.store (h : Exact dag) (hs : Stores r dag b dag') (hnone : ∀ y, ¬dag'.Names y b.hash) :
    Exact dag' where
  tips x := by
    simp only [hs.mem_getTips, hs.hasBlock_iff, h.tips, hs.names_iff] at hnone ⊢
    constructor
    · rintro (rfl | ⟨⟨hstored, hfree⟩, hparent⟩)
      · exact ⟨.inl rfl, hnone⟩
      · exact ⟨.inr hstored, fun y hy => hy.elim (hfree y) fun hy => hparent hy.2⟩
    · rintro ⟨rfl | hstored, hfree⟩
      · exact .inl rfl
      · exact .inr ⟨⟨hstored, fun y hy => hfree y (.inl hy)⟩, fun hx => hfree _ (.inr ⟨rfl, hx⟩)⟩
  children x y := by
    rw [hs.mem_getChildren, h.children, ← hs.names_iff]
    exact ⟨And.right, fun hy => ⟨fun hx => hnone y (hx ▸ hy), hy⟩⟩

theorem Stores.complete_inv (h : ∀ x y, dag'.Names y x → y ∈ dag'.getChildren x) :
    (∀ x y, dag.Names y x → y ∈ dag.getChildren x) ∧ ∀ y, ¬dag'.Names y b.hash := by
  refine ⟨fun x y hy => ?_, fun y hy => (hs.mem_getChildren.mp (h _ y hy)).1 rfl⟩
  obtain ⟨-, hmem | ⟨rfl, -⟩⟩ := hs.mem_getChildren.mp (h x y (hs.names_iff.mpr (.inl hy)))
  · exact hmem
  · exact absurd hy hs.fresh

end

theorem Runs.unnamed_iff {p : Option PersistentStore}
    (hr : Runs (Stores r) { persistent := p } bs dag) :
    (∀ y, ¬dag.Names y x) ↔ ∀ c ∈ bs, x ∉ linkedParents c := by
  refine hr.history (P := fun bs dag => (∀ y, ¬dag.Names y x) ↔ ∀ c ∈ bs, x ∉ linkedParents c)
    (by simp [Names]) fun bs dag b dag' ih hs => ?_
  simp only [hs.names_iff, not_or, forall_and, ih, List.forall_mem_append, List.forall_mem_singleton]
  simp

theorem beforeNamed_append : BeforeNamed (bs ++ [b]) ↔
    BeforeNamed bs ∧ ∀ c ∈ bs ++ [b], b.hash ∉ linkedParents c := by
  simp only [BeforeNamed, List.pairwise_append, List.pairwise_singleton, List.forall_mem_append,
    List.forall_mem_singleton]
  tauto

/-- After any sequence of successful calls, the tips are the stored blocks that no stored block
names, and the children of every hash are the stored blocks that name it, exactly when each block was
stored before the blocks that name it. -/
theorem tips_and_children_exact {p : Option PersistentStore}
    (hr : Runs (Stores r) { persistent := p } bs dag) : Exact dag ↔ BeforeNamed bs := by
  suffices h : ((∀ x y, dag.Names y x → y ∈ dag.getChildren x) → BeforeNamed bs) ∧
      (BeforeNamed bs → Exact dag) from
    ⟨fun hexact => h.1 fun x y => (hexact.children x y).mpr, h.2⟩
  induction hr with
  | refl =>
    refine ⟨fun _ => ⟨.nil, by simp⟩, fun _ => ⟨fun x => ?_, fun x y => ?_⟩⟩
    · simp [getTips, hasBlock]
    · simp [getChildren, Names]
  | @step bs dag b dag' hr hs ih =>
    rw [beforeNamed_append, ← Runs.unnamed_iff (hr.step hs)]
    refine ⟨fun hcomplete => ?_, fun hbefore => (ih.2 hbefore.1).store hs hbefore.2⟩
    exact (hs.complete_inv hcomplete).imp_left ih.1

def firstBlock : Block := ⟨{ blockHash := 1 }, 0, []⟩
def lateBlock : Block := ⟨{ blockHash := 3, selectedParentHash := 1, height := 1 }, 0, []⟩
def mergingBlock : Block :=
  ⟨{ blockHash := 2, selectedParentHash := 1, mergeParentHashes := [3], height := 2 }, 0, []⟩

theorem tips_and_children_exact_merge : ∃ dag,
    Runs (Stores permissive) {} [firstBlock, lateBlock, mergingBlock] dag ∧ Exact dag := by
  have hrun : ∃ dag, Runs (Stores permissive) {} [firstBlock, lateBlock, mergingBlock] dag := by
    refine ⟨_, .head ⟨none, storeBlock_permissive ?_⟩ <| .head ⟨none, storeBlock_permissive ?_⟩ <|
      .head ⟨none, storeBlock_permissive ?_⟩ .refl⟩
    all_goals decide
  obtain ⟨dag, hr⟩ := hrun
  exact ⟨dag, hr, (tips_and_children_exact hr).mpr ⟨by decide, by decide⟩⟩

theorem late_parent_loses_child : ∃ dag,
    Runs (Stores permissive) {} [firstBlock, mergingBlock, lateBlock] dag ∧
    dag.Names 2 3 ∧ (3 : Hash) ∈ dag.getTips ∧ dag.getChildren 3 = [] := by
  refine ⟨_, .head ⟨none, storeBlock_permissive ?_⟩ <| .head ⟨none, storeBlock_permissive ?_⟩ <|
    .head ⟨none, storeBlock_permissive ?_⟩ .refl, ⟨mergingBlock, ?_, ?_⟩, ?_, ?_⟩
  all_goals decide

end CitrateChain.Consensus.DagStore
