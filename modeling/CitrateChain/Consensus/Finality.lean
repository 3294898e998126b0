import CitrateChain.Base.Runs
import CitrateChain.Consensus.BlockTree
import CitrateChain.Consensus.DagStore

/-! # Depth-based finality

The tracker that marks the blocks `confirmation_depth` below a tip as finalized, walking the
selected-parent chain down in batches. While every call continues the chain of the finalized tip and
fits into one batch, the finalized blocks are the ancestors of the finalized tip. -/
namespace CitrateChain.Consensus
open Std (ExtTreeMap)
open Transition (Runs)

inductive FinalityError
  | blockNotFound (hash : Hash)
  | reorgPastFinalized (tip : Hash)
  | checkFailed (text : String)
  | invalidState
  deriving DecidableEq, Repr

structure FinalityConfig where
  confirmationDepth : UInt64 := 100
  maxFinalizeBatch : ℕ := 1000

structure FinalityTracker where
  finalizedTip : Option Hash := none
  finalizedHeight : UInt64 := 0
  finalizedCount : UInt64 := 0
  deriving DecidableEq

namespace FinalityTracker

inductive Round
  | stop (found : List (Hash × UInt64))
  | fail (e : FinalityError)
  | next (x : Hash) (found : List (Hash × UInt64))

def Round.parentOf (b : Block) (found : List (Hash × UInt64)) : Round :=
  if b.isGenesis then .stop found else .next b.selectedParent found

def findRound (c : FinalityConfig) (dag : DagStore) (target current : UInt64) (x : Hash)
    (found : List (Hash × UInt64)) : Round :=
  if c.maxFinalizeBatch ≤ found.length then .stop found
  else
    match dag.blocks[x]? with
    | none => .fail (.blockNotFound x)
    | some b =>
      if target < b.height then .parentOf b found
      -- a finalized height of zero means that nothing is finalized yet
      else if 0 < current ∧ b.height ≤ current then .stop found
      else .parentOf b (if dag.isFinalized x then found else (x, b.height) :: found)

/-- The walk of `find_blocks_to_finalize`; `none` is one that has not ended after `fuel` rounds. -/
def findBlocksToFinalize (c : FinalityConfig) (dag : DagStore) (target current : UInt64) :
    ℕ → Hash → List (Hash × UInt64) → Option (Except FinalityError (List (Hash × UInt64)))
  | 0, _, _ => none
  | fuel + 1, x, found =>
    match findRound c dag target current x found with
    | .stop found => some (.ok found)
    | .fail e => some (.error e)
    | .next x found => findBlocksToFinalize c dag target current fuel x found

def finalizeEntry (s : List Hash × FinalityTracker × DagStore) (e : Hash × UInt64) :
    List Hash × FinalityTracker × DagStore :=
  match s.2.2.finalizeBlock e.1 with
  | .error _ => s
  | .ok dag => (s.1 ++ [e.1], { s.2.1 with
      finalizedHeight := max s.2.1.finalizedHeight e.2
      finalizedCount := s.2.1.finalizedCount + 1 }, dag)

def finalizeAll (t : FinalityTracker) (dag : DagStore) (found : List (Hash × UInt64)) :
    List Hash × FinalityTracker × DagStore :=
  match found.getLast? with
  | none => ([], t, dag)
  | some newest =>
    let s := found.foldl finalizeEntry ([], t, dag)
    (s.1, { s.2.1 with finalizedTip := some newest.1 }, s.2.2)

def updateFinality (c : FinalityConfig) (fuel : ℕ) (t : FinalityTracker) (dag : DagStore)
    (currentTip : Hash) (currentHeight : UInt64) :
    Option (Except FinalityError (List Hash × FinalityTracker × DagStore)) :=
  if currentHeight < c.confirmationDepth then some (.ok ([], t, dag))
  else
    let target := currentHeight - c.confirmationDepth
    if target ≤ t.finalizedHeight then some (.ok ([], t, dag))
    else (findBlocksToFinalize c dag target t.finalizedHeight fuel currentTip []).map
      fun r => r.map (finalizeAll t dag)

def checkReorgAllowed (t : FinalityTracker) (dag : DagStore) (commonAncestor : Hash) :
    Except FinalityError Unit :=
  match t.finalizedTip with
  | none => .ok ()
  | some tip =>
    match dag.blocks[commonAncestor]? with
    | none => .error (.blockNotFound commonAncestor)
    | some b => if b.height < t.finalizedHeight then .error (.reorgPastFinalized tip) else .ok ()

/-- A list of unfinalized ancestors of `top` with their heights, oldest first. -/
structure Found (dag : DagStore) (target : UInt64) (top : Hash) (l : List (Hash × UInt64)) : Prop where
  ancestor : ∀ e ∈ l, Ancestor dag.blocks top e.1
  stored : ∀ e ∈ l, ∃ b, dag.blocks[e.1]? = some b ∧ b.height = e.2
  le_target : ∀ e ∈ l, e.2 ≤ target
  fresh : ∀ e ∈ l, e.1 ∉ dag.finalized
  sorted : l.Pairwise fun e e' => e.2 < e'.2

section Walk
variable {c : FinalityConfig} {dag : DagStore} {target current : UInt64} {fuel : ℕ} {x top : Hash}
  {b : Block} {found l : List (Hash × UInt64)}

theorem Found.nil : Found dag target top [] := ⟨nofun, nofun, nofun, nofun, .nil⟩

theorem Found.cons (hf : Found dag target top found) (ha : Ancestor dag.blocks top x)
    (hb : dag.blocks[x]? = some b) (hle : b.height ≤ target) (hfresh : x ∉ dag.finalized)
    (hbelow : ∀ e ∈ found, b.height < e.2) : Found dag target top ((x, b.height) :: found) where
  ancestor := List.forall_mem_cons.mpr ⟨ha, hf.ancestor⟩
  stored := List.forall_mem_cons.mpr ⟨⟨b, hb, rfl⟩, hf.stored⟩
  le_target := List.forall_mem_cons.mpr ⟨hle, hf.le_target⟩
  fresh := List.forall_mem_cons.mpr ⟨hfresh, hf.fresh⟩
  sorted := List.pairwise_cons.mpr ⟨hbelow, hf.sorted⟩

inductive Adds (dag : DagStore) (target : UInt64) (x : Hash) (b : Block)
    (found : List (Hash × UInt64)) : List (Hash × UInt64) → Prop
  | skip (h : target < b.height ∨ x ∈ dag.finalized) : Adds dag target x b found found
  | push (hle : b.height ≤ target) (hfresh : x ∉ dag.finalized) :
      Adds dag target x b found ((x, b.height) :: found)

theorem findRound_cases (c : FinalityConfig) (dag : DagStore) (target current : UInt64) (x : Hash)
    (found : List (Hash × UInt64)) :
    (c.maxFinalizeBatch ≤ found.length ∧ findRound c dag target current x found = .stop found) ∨
    (dag.blocks[x]? = none ∧ findRound c dag target current x found = .fail (.blockNotFound x)) ∨
    ∃ b, dag.blocks[x]? = some b ∧
      ((0 < current ∧ b.height ≤ current ∧ findRound c dag target current x found = .stop found) ∨
        ∃ found', Adds dag target x b found found' ∧ found.length < c.maxFinalizeBatch ∧
          findRound c dag target current x found = .parentOf b found') := by
  unfold findRound
  by_cases hbatch : c.maxFinalizeBatch ≤ found.length
  · exact Or.inl ⟨hbatch, if_pos hbatch⟩
  rw [if_neg hbatch]
  refine Or.inr ?_
  cases hb : dag.blocks[x]? with
  | none => exact Or.inl ⟨rfl, rfl⟩
  | some b =>
    refine Or.inr ⟨b, rfl, ?_⟩
    by_cases htarget : target < b.height
    · exact Or.inr ⟨found, .skip (Or.inl htarget), by omega, by simp [htarget]⟩
    by_cases hcur : 0 < current ∧ b.height ≤ current
    · exact Or.inl ⟨hcur.1, hcur.2, by simp [htarget, hcur]⟩
    · refine Or.inr ⟨if dag.isFinalized x then found else (x, b.height) :: found, ?_, by omega,
        by simp only [if_neg htarget, if_neg hcur]⟩
      by_cases hfin : x ∈ dag.finalized
      · rw [DagStore.isFinalized, if_pos (decide_eq_true hfin)]
        exact .skip (Or.inr hfin)
      · rw [DagStore.isFinalized, if_neg (by simpa using hfin)]
        exact .push (UInt64.not_lt.mp htarget) hfin

theorem findBlocksToFinalize_rule {P : Hash → List (Hash × UInt64) → Prop}
    {Q : List (Hash × UInt64) → Prop}
    (hfull : ∀ x found, P x found → c.maxFinalizeBatch ≤ found.length → Q found)
    (hlow : ∀ x found b, P x found → dag.blocks[x]? = some b → 0 < current → b.height ≤ current →
      Q found)
    (hroot : ∀ x found b found', P x found → dag.blocks[x]? = some b → b.isGenesis = true →
      Adds dag target x b found found' → Q found')
    (hnext : ∀ x found b found', P x found → dag.blocks[x]? = some b → b.isGenesis = false →
      found.length < c.maxFinalizeBatch → Adds dag target x b found found' →
      P b.selectedParent found')
    (hw : findBlocksToFinalize c dag target current fuel x found = some (.ok l)) (h0 : P x found) :
    Q l := by
  induction fuel generalizing x found with
  | zero => cases hw
  | succ fuel ih =>
    rw [findBlocksToFinalize] at hw
    rcases findRound_cases c dag target current x found with ⟨hbatch, hr⟩ | ⟨-, hr⟩ |
      ⟨b, hb, ⟨hpos, hle, hr⟩ | ⟨found', hadds, hlt, hr⟩⟩
    · simp only [hr, Option.some.injEq, Except.ok.injEq] at hw
      exact hw ▸ hfull x found h0 hbatch
    · simp [hr] at hw
    · simp only [hr, Option.some.injEq, Except.ok.injEq] at hw
      exact hw ▸ hlow x found b h0 hb hpos hle
    · rw [Round.parentOf] at hr
      cases hgen : b.isGenesis with
      | true =>
        simp only [hr, hgen, if_true, Option.some.injEq, Except.ok.injEq] at hw
        exact hw ▸ hroot x found b found' h0 hb hgen hadds
      | false =>
        simp only [hr, hgen, Bool.false_eq_true, if_false] at hw
        exact ih hw (hnext x found b found' h0 hb hgen hlt hadds)

variable {found' : List (Hash × UInt64)}

theorem Found.adds (hf : Found dag target top found) (ha : Ancestor dag.blocks top x)
    (hb : dag.blocks[x]? = some b) (hbelow : ∀ e ∈ found, b.height < e.2)
    (hadds : Adds dag target x b found found') :
    Found dag target top found' ∧ ∀ e ∈ found', b.height ≤ e.2 := by
  cases hadds with
  | skip => exact ⟨hf, fun e he => UInt64.le_of_lt (hbelow e he)⟩
  | push hle hfresh =>
    refine ⟨hf.cons ha hb hle hfresh hbelow, List.forall_mem_cons.mpr ⟨UInt64.le_refl _, ?_⟩⟩
    exact fun e he => UInt64.le_of_lt (hbelow e he)

theorem findBlocksToFinalize_found (ht : IsTree dag.blocks)
    (hw : findBlocksToFinalize c dag target current fuel top [] = some (.ok l)) :
    Found dag target top l := by
  refine findBlocksToFinalize_rule (P := fun x found => Found dag target top found ∧
    Ancestor dag.blocks top x ∧ ∀ b, dag.blocks[x]? = some b → ∀ e ∈ found, b.height < e.2)
    ?_ ?_ ?_ ?_ hw ⟨.nil, .refl, fun _ _ _ he => nomatch he⟩
  · intro x found hP _
    exact hP.1
  · intro x found b hP _ _ _
    exact hP.1
  · intro x found b found' ⟨hf, ha, hbelow⟩ hb _ hadds
    exact (hf.adds ha hb (hbelow b hb) hadds).1
  · intro x found b found' ⟨hf, ha, hbelow⟩ hb hgen _ hadds
    obtain ⟨hf', hle⟩ := hf.adds ha hb (hbelow b hb) hadds
    refine ⟨hf', ha.tail ⟨b, hb, hgen, rfl⟩, ?_⟩
    intro p hp e he
    obtain ⟨p', hp', hheight⟩ := ht.parent hb hgen
    have hpp := Option.some.inj (hp.symm.trans hp')
    have := UInt64.le_iff_toNat_le.mp (hle e he)
    rw [UInt64.lt_iff_toNat_lt, hpp]
    omega

theorem Adds.seen {y : Hash} (hb : dag.blocks[x]? = some b)
    (hadds : Adds dag target x b found found') (hle : heightOf dag.blocks y ≤ target.toNat)
    (hseen : y ∈ dag.finalized ∨ y ∈ found.map Prod.fst ∨ Ancestor dag.blocks x y) :
    y ∈ dag.finalized ∨ y ∈ found'.map Prod.fst ∨
      b.isGenesis = false ∧ Ancestor dag.blocks b.selectedParent y := by
  have hmono : y ∈ found.map Prod.fst → y ∈ found'.map Prod.fst := by
    cases hadds with
    | skip => exact id
    | push => exact List.mem_cons_of_mem _
  rcases hseen with h | h | hxy
  · exact Or.inl h
  · exact Or.inr (Or.inl (hmono h))
  rcases (ancestor_iff hb).mp hxy with rfl | hup
  · cases hadds with
    | skip h =>
      rcases h with htarget | hfin
      · rw [heightOf_eq hb] at hle
        exact absurd (UInt64.lt_iff_toNat_lt.mp htarget) (by omega)
      · exact Or.inl hfin
    | push => exact Or.inr (Or.inl List.mem_cons_self)
  · exact Or.inr (Or.inr hup)

theorem findBlocksToFinalize_complete {low : ℕ} (ht : IsTree dag.blocks)
    (hdone : ∀ y, Ancestor dag.blocks top y → heightOf dag.blocks y < low → y ∈ dag.finalized)
    (hcur : 0 < current → current.toNat < low) (hfits : target.toNat + 1 ≤ c.maxFinalizeBatch + low)
    (hw : findBlocksToFinalize c dag target current fuel top [] = some (.ok l)) :
    ∀ y, Ancestor dag.blocks top y → heightOf dag.blocks y ≤ target.toNat →
      y ∈ dag.finalized ∨ y ∈ l.map Prod.fst := by
  -- `x` is where the walk stands: what lies above it and is not finalized has been found
  refine findBlocksToFinalize_rule (P := fun x found => Ancestor dag.blocks top x ∧
    found.length + (min (heightOf dag.blocks x) target.toNat + 1 - low) ≤ c.maxFinalizeBatch ∧
    ∀ y, Ancestor dag.blocks top y → heightOf dag.blocks y ≤ target.toNat →
      y ∈ dag.finalized ∨ y ∈ found.map Prod.fst ∨ Ancestor dag.blocks x y)
    (Q := fun l => ∀ y, Ancestor dag.blocks top y → heightOf dag.blocks y ≤ target.toNat →
      y ∈ dag.finalized ∨ y ∈ l.map Prod.fst)
    ?_ ?_ ?_ ?_ hw ⟨.refl, by simp only [List.length_nil]; omega, fun y ha _ => Or.inr (Or.inr ha)⟩
  · intro x found ⟨ha, hroom, hseen⟩ hbatch y hy hle
    rcases hseen y hy hle with h | h | hxy
    · exact Or.inl h
    · exact Or.inr h
    · have := ht.height_le hxy
      exact Or.inl (hdone y hy (by omega))
  · intro x found b ⟨ha, hroom, hseen⟩ hb hpos hlow y hy hle
    rcases hseen y hy hle with h | h | hxy
    · exact Or.inl h
    · exact Or.inr h
    · have := ht.height_le hxy
      have := UInt64.le_iff_toNat_le.mp hlow
      have := hcur hpos
      rw [heightOf_eq hb] at *
      exact Or.inl (hdone y hy (by omega))
  · intro x found b found' ⟨ha, hroom, hseen⟩ hb hgen hadds y hy hle
    rcases hadds.seen hb hle (hseen y hy hle) with h | h | ⟨hgen', -⟩
    · exact Or.inl h
    · exact Or.inr h
    · simp [hgen] at hgen'
  · intro x found b found' ⟨ha, hroom, hseen⟩ hb hgen hlt hadds
    obtain ⟨p, hp, hheight⟩ := ht.parent hb hgen
    refine ⟨ha.tail ⟨b, hb, hgen, rfl⟩, ?_, ?_⟩
    · rw [heightOf_eq hb] at hroom
      rw [heightOf_eq hp]
      cases hadds with
      | skip => omega
      | push hle hfresh =>
        have := UInt64.le_iff_toNat_le.mp hle
        simp only [List.length_cons]
        omega
    · intro y hy hle
      rcases hadds.seen hb hle (hseen y hy hle) with h | h | ⟨-, h⟩
      · exact Or.inl h
      · exact Or.inr (Or.inl h)
      · exact Or.inr (Or.inr h)

end Walk

structure Marked (found : List (Hash × UInt64)) (s s' : List Hash × FinalityTracker × DagStore) :
    Prop where
  blocks : s'.2.2.blocks = s.2.2.blocks
  finalized : ∀ y, y ∈ s'.2.2.finalized ↔ y ∈ s.2.2.finalized ∨ y ∈ found.map Prod.fst
  height_le : ∀ e ∈ found, e.2 ≤ s'.2.1.finalizedHeight
  height_eq : s'.2.1.finalizedHeight = s.2.1.finalizedHeight ∨
    ∃ e ∈ found, s'.2.1.finalizedHeight = e.2
  height_mono : s.2.1.finalizedHeight ≤ s'.2.1.finalizedHeight

theorem Marked.nil (s : List Hash × FinalityTracker × DagStore) : Marked [] s s where
  blocks := rfl
  finalized := by simp
  height_le := nofun
  height_eq := Or.inl rfl
  height_mono := UInt64.le_refl _

variable {s : List Hash × FinalityTracker × DagStore}

theorem finalizeEntry_marked {e : Hash × UInt64} {b : Block} (hb : s.2.2.blocks[e.1]? = some b) :
    Marked [e] s (finalizeEntry s e) := by
  have hhas : s.2.2.hasBlock e.1 = true := by simp [DagStore.hasBlock, hb]
  rw [finalizeEntry, DagStore.finalizeBlock, if_pos hhas]
  constructor
  · rfl
  · intro y
    simp [DagStore.persist, or_comm]
  · intro e' he'
    rw [List.mem_singleton.mp he']
    exact Std.right_le_max
  · rcases Std.MaxEqOr.max_eq_or s.2.1.finalizedHeight e.2 with h | h
    · exact Or.inl h
    · exact Or.inr ⟨e, List.mem_singleton_self e, h⟩
  · exact Std.left_le_max

theorem Marked.trans {l l' : List (Hash × UInt64)} {s s' s'' : List Hash × FinalityTracker × DagStore}
    (h : Marked l s s') (h' : Marked l' s' s'') : Marked (l ++ l') s s'' where
  blocks := h'.blocks.trans h.blocks
  finalized := by
    intro y
    rw [h'.finalized, h.finalized, List.map_append, List.mem_append, or_assoc]
  height_le := List.forall_mem_append.mpr
    ⟨fun e he => UInt64.le_trans (h.height_le e he) h'.height_mono, h'.height_le⟩
  height_eq := by
    rcases h'.height_eq with h₁ | ⟨e, he, h₁⟩
    · rcases h.height_eq with h₂ | ⟨e, he, h₂⟩
      · exact Or.inl (h₁.trans h₂)
      · exact Or.inr ⟨e, List.mem_append_left _ he, h₁.trans h₂⟩
    · exact Or.inr ⟨e, List.mem_append_right _ he, h₁⟩
  height_mono := UInt64.le_trans h.height_mono h'.height_mono

theorem foldl_finalizeEntry_marked {found : List (Hash × UInt64)}
    (hstored : ∀ e ∈ found, ∃ b, s.2.2.blocks[e.1]? = some b) :
    Marked found s (found.foldl finalizeEntry s) := by
  induction found generalizing s with
  | nil => exact .nil s
  | cons e found ih =>
    obtain ⟨b, hb⟩ := hstored e List.mem_cons_self
    have hone := finalizeEntry_marked hb
    refine hone.trans (ih ?_)
    intro e' he'
    rw [hone.blocks]
    exact hstored e' (List.mem_cons_of_mem _ he')

section Call
variable {c : FinalityConfig} {fuel : ℕ} {t t' : FinalityTracker} {dag dag' : DagStore} {tip : Hash}
  {height : UInt64} {newly : List Hash}

def frontier (t : FinalityTracker) : ℕ :=
  match t.finalizedTip with
  | none => 0
  | some _ => t.finalizedHeight.toNat + 1

theorem frontier_some {f : Hash} (h : t.finalizedTip = some f) :
    t.frontier = t.finalizedHeight.toNat + 1 := by
  rw [frontier, h]

/-- The call continues the chain of the finalized tip, and the blocks between the finalized tip and
the new finality boundary fit into one batch. -/
structure Continues (c : FinalityConfig) (t : FinalityTracker) (dag : DagStore) (tip : Hash)
    (height : UInt64) : Prop where
  chain : ∀ f, t.finalizedTip = some f → Ancestor dag.blocks tip f
  batch : (height - c.confirmationDepth).toNat + 1 ≤ c.maxFinalizeBatch + t.frontier

/-- A call that passes both height checks of `update_finality` and starts the walk. -/
def Searches (c : FinalityConfig) (t : FinalityTracker) (height : UInt64) : Prop :=
  c.confirmationDepth ≤ height ∧ t.finalizedHeight < height - c.confirmationDepth

inductive Settled (t : FinalityTracker) (dag : DagStore) : Prop
  | nothing (htip : t.finalizedTip = none) (hheight : t.finalizedHeight = 0)
      (hfinalized : dag.finalized = ∅)
  | upTo (f : Hash) (b : Block) (htip : t.finalizedTip = some f) (hb : dag.blocks[f]? = some b)
      (hheight : b.height = t.finalizedHeight)
      (hfinalized : ∀ y, y ∈ dag.finalized ↔ Ancestor dag.blocks f y)

theorem updateFinality_ok (h : updateFinality c fuel t dag tip height = some (.ok (newly, t', dag'))) :
    (t' = t ∧ dag' = dag) ∨ (Searches c t height ∧ ∃ found,
      findBlocksToFinalize c dag (height - c.confirmationDepth) t.finalizedHeight fuel tip [] =
        some (.ok found) ∧ (newly, t', dag') = finalizeAll t dag found) := by
  unfold updateFinality at h
  by_cases hdepth : height < c.confirmationDepth
  · simp only [hdepth, if_true, Option.some.injEq, Except.ok.injEq, Prod.mk.injEq] at h
    exact Or.inl ⟨h.2.1.symm, h.2.2.symm⟩
  by_cases htarget : height - c.confirmationDepth ≤ t.finalizedHeight
  · simp only [hdepth, htarget, if_true, if_false, Option.some.injEq, Except.ok.injEq,
      Prod.mk.injEq] at h
    exact Or.inl ⟨h.2.1.symm, h.2.2.symm⟩
  · simp only [hdepth, htarget, if_false, Option.map_eq_some_iff] at h
    obtain ⟨r, hr, hmap⟩ := h
    cases r with
    | error e => cases hmap
    | ok found =>
      exact Or.inr ⟨⟨UInt64.not_lt.mp hdepth, UInt64.not_le.mp htarget⟩, found, hr,
        (Except.ok.inj hmap).symm⟩

section Chain
variable {x y : Hash} (ht : IsTree dag.blocks) (hs : Settled t dag)
  (hchain : ∀ f, t.finalizedTip = some f → Ancestor dag.blocks tip f)
include ht hs hchain

theorem Settled.below_frontier (hy : Ancestor dag.blocks tip y)
    (hlow : heightOf dag.blocks y < t.frontier) : y ∈ dag.finalized := by
  cases hs with
  | nothing htip => simp [frontier, htip] at hlow
  | upTo f b htip hb hheight hfinalized =>
    rw [frontier_some htip] at hlow
    refine (hfinalized y).mpr (ht.ancestor_of_le (hchain f htip) hy ?_)
    rw [heightOf_eq hb, hheight]
    exact Nat.lt_succ_iff.mp hlow

theorem Settled.above (hx : Ancestor dag.blocks tip x) (hfresh : x ∉ dag.finalized)
    (hy : y ∈ dag.finalized) : Ancestor dag.blocks x y := by
  have hge : t.frontier ≤ heightOf dag.blocks x :=
    Nat.le_of_not_lt fun hlow => hfresh (hs.below_frontier ht hchain hx hlow)
  cases hs with
  | nothing _ _ hfinalized => simp [hfinalized] at hy
  | upTo f b htip hb hheight hfinalized =>
    rw [frontier_some htip] at hge
    have hxf : Ancestor dag.blocks x f := by
      refine ht.ancestor_of_le hx (hchain f htip) ?_
      rw [heightOf_eq hb, hheight]
      omega
    exact hxf.trans ((hfinalized y).mp hy)

theorem Settled.finalizedHeight_le {b : Block} (hx : Ancestor dag.blocks tip x)
    (hfresh : x ∉ dag.finalized) (hb : dag.blocks[x]? = some b) : t.finalizedHeight ≤ b.height := by
  have hge : t.frontier ≤ heightOf dag.blocks x :=
    Nat.le_of_not_lt fun hlow => hfresh (hs.below_frontier ht hchain hx hlow)
  rw [heightOf_eq hb] at hge
  cases hs with
  | nothing _ hheight => simp [hheight]
  | upTo f _ htip =>
    rw [frontier_some htip] at hge
    exact Nat.le_of_succ_le hge

end Chain

variable {found : List (Hash × UInt64)}

theorem Found.le_newest {target : UInt64} {e e' : Hash × UInt64} (hf : Found dag target tip found)
    (hlast : found.getLast? = some e) (he : e' ∈ found) : e'.2 ≤ e.2 := by
  obtain ⟨l, rfl⟩ := List.getLast?_eq_some_iff.mp hlast
  rcases List.mem_append.mp he with hl | hl
  · exact UInt64.le_of_lt ((List.pairwise_append.mp hf.sorted).2.2 e' hl e (List.mem_singleton_self e))
  · rw [List.mem_singleton.mp hl]

/-- What every call does: it marks ancestors of its tip, none of them above the finalized height. -/
structure Advances (tip : Hash) (t : FinalityTracker) (dag : DagStore) (t' : FinalityTracker)
    (dag' : DagStore) : Prop where
  blocks : dag'.blocks = dag.blocks
  keeps : dag.finalized ⊆ dag'.finalized
  marks : ∀ y ∈ dag'.finalized, y ∈ dag.finalized ∨
    (Ancestor dag.blocks tip y ∧ heightOf dag.blocks y ≤ t'.finalizedHeight.toNat ∧
      t'.finalizedTip.isSome)
  height : t.finalizedHeight ≤ t'.finalizedHeight
  tip : t.finalizedTip.isSome → t'.finalizedTip.isSome

theorem Advances.refl (tip : Hash) (t : FinalityTracker) (dag : DagStore) :
    Advances tip t dag t dag where
  blocks := rfl
  keeps := fun _ h => h
  marks := fun _ h => Or.inl h
  height := UInt64.le_refl _
  tip := id

theorem Found.marked {target : UInt64} (hf : Found dag target tip found) :
    Marked found ([], t, dag) (found.foldl finalizeEntry ([], t, dag)) := by
  refine foldl_finalizeEntry_marked fun e he => ?_
  obtain ⟨b, hb, -⟩ := hf.stored e he
  exact ⟨b, hb⟩

theorem updateFinality_advances (ht : IsTree dag.blocks)
    (h : updateFinality c fuel t dag tip height = some (.ok (newly, t', dag'))) :
    Advances tip t dag t' dag' := by
  rcases updateFinality_ok h with ⟨rfl, rfl⟩ | ⟨-, found, hw, hall⟩
  · exact .refl tip t' dag'
  have hf := findBlocksToFinalize_found ht hw
  have hm := hf.marked (t := t)
  rw [finalizeAll] at hall
  split at hall
  · cases hall
    exact .refl tip t dag
  obtain ⟨-, rfl, rfl⟩ := Prod.mk.inj hall |>.imp id Prod.mk.inj
  refine ⟨hm.blocks, fun y hy => (hm.finalized y).mpr (Or.inl hy), ?_, hm.height_mono, fun _ => rfl⟩
  intro y hy
  refine ((hm.finalized y).mp hy).imp id fun hy => ?_
  obtain ⟨e, he, rfl⟩ := List.mem_map.mp hy
  obtain ⟨b, hb, hbe⟩ := hf.stored e he
  refine ⟨hf.ancestor e he, ?_, rfl⟩
  rw [heightOf_eq hb, hbe]
  exact UInt64.le_iff_toNat_le.mp (hm.height_le e he)

theorem Settled.finalizeAll (ht : IsTree dag.blocks) (hs : Settled t dag)
    (hc : Continues c t dag tip height)
    (hw : findBlocksToFinalize c dag (height - c.confirmationDepth) t.finalizedHeight fuel tip [] = some (.ok found))
    (h : (newly, t', dag') = finalizeAll t dag found) :
    dag'.blocks = dag.blocks ∧ Settled t' dag' := by
  have hf := findBlocksToFinalize_found ht hw
  cases hlast : found.getLast? with
  | none =>
    rw [FinalityTracker.finalizeAll, hlast] at h
    cases h
    exact ⟨rfl, hs⟩
  | some e =>
    have hmem : e ∈ found := List.mem_of_getLast? hlast
    obtain ⟨b, hb, hbe⟩ := hf.stored e hmem
    have hm := hf.marked (t := t)
    rw [FinalityTracker.finalizeAll, hlast] at h
    obtain ⟨-, rfl, rfl⟩ := Prod.mk.inj h |>.imp id Prod.mk.inj
    refine ⟨hm.blocks, .upTo e.1 b rfl (by rw [hm.blocks]; exact hb) ?_ ?_⟩
    · have hge := hm.height_le e hmem
      have hfh : t.finalizedHeight ≤ e.2 :=
        hbe ▸ hs.finalizedHeight_le ht hc.chain (hf.ancestor e hmem) (hf.fresh e hmem) hb
      rw [hbe]
      refine UInt64.le_antisymm hge ?_
      rcases hm.height_eq with h | ⟨e', he', h⟩
      · rw [h]
        exact hfh
      · rw [h]
        exact hf.le_newest hlast he'
    · intro y
      rw [hm.blocks, hm.finalized]
      constructor
      · rintro (hy | hy)
        · exact hs.above ht hc.chain (hf.ancestor e hmem) (hf.fresh e hmem) hy
        · obtain ⟨e', he', rfl⟩ := List.mem_map.mp hy
          obtain ⟨b', hb', hbe'⟩ := hf.stored e' he'
          refine ht.ancestor_of_le (hf.ancestor e hmem) (hf.ancestor e' he') ?_
          rw [heightOf_eq hb, heightOf_eq hb', hbe, hbe']
          exact UInt64.le_iff_toNat_le.mp (hf.le_newest hlast he')
      · intro hy
        have hle := ht.height_le hy
        rw [heightOf_eq hb, hbe] at hle
        refine findBlocksToFinalize_complete ht (fun y => hs.below_frontier ht hc.chain) ?_ hc.batch hw
          y ((hf.ancestor e hmem).trans hy) (hle.trans (UInt64.le_iff_toNat_le.mp (hf.le_target e hmem)))
        intro hpos
        cases hs with
        | nothing _ hheight => simp [hheight] at hpos
        | upTo f _ htip =>
          rw [frontier_some htip]
          exact Nat.lt_succ_self _

end Call

inductive FinalityCall
  | update (tip : Hash) (height : UInt64)
  | grow

inductive FinalityStep (c : FinalityConfig) :
    FinalityTracker × DagStore → FinalityCall → FinalityTracker × DagStore → Prop
  | update {t t' dag dag' tip height} (fuel : ℕ) (newly : List Hash)
      (h : updateFinality c fuel t dag tip height = some (.ok (newly, t', dag'))) :
      FinalityStep c (t, dag) (.update tip height) (t', dag')
  | failed {t dag tip height} (fuel : ℕ) (e : FinalityError)
      (h : updateFinality c fuel t dag tip height = some (.error e)) :
      FinalityStep c (t, dag) (.update tip height) (t, dag)
  | grow {t} {dag dag' : DagStore} (htree : IsTree dag'.blocks)
      (hgrows : Grows dag.blocks dag'.blocks) (hfinalized : dag'.finalized = dag.finalized) :
      FinalityStep c (t, dag) .grow (t, dag')

/-- The calls that start the walk continue the finalized chain and fit into the batch. -/
def Follows (c : FinalityConfig) (s : FinalityTracker × DagStore) : FinalityCall → Prop
  | .update tip height => Searches c s.1 height → Continues c s.1 s.2 tip height
  | .grow => True

def AncestorClosed (dag : DagStore) : Prop :=
  ∀ x ∈ dag.finalized, ∀ y, Ancestor dag.blocks x y → y ∈ dag.finalized

variable {t : FinalityTracker}

theorem Settled.ancestorClosed {dag : DagStore} (hs : Settled t dag) : AncestorClosed dag := by
  intro x hx y hxy
  cases hs with
  | nothing _ _ hfinalized => simp [hfinalized] at hx
  | upTo f b _ _ _ hfinalized => exact (hfinalized y).mpr (((hfinalized x).mp hx).trans hxy)

theorem Settled.grows {dag dag' : DagStore} (ht : IsTree dag.blocks) (hs : Settled t dag)
    (hgrows : Grows dag.blocks dag'.blocks) (hfin : dag'.finalized = dag.finalized) :
    Settled t dag' := by
  cases hs with
  | nothing htip hheight hfinalized => exact .nothing htip hheight (hfin.trans hfinalized)
  | upTo f b htip hb hheight hfinalized =>
    refine .upTo f b htip (hgrows f b hb) hheight fun y => ?_
    rw [hfin, hfinalized, hgrows.ancestor_iff ht hb]

theorem Settled.step {c : FinalityConfig} {s s' : FinalityTracker × DagStore} {a : FinalityCall}
    (ht : IsTree s.2.blocks) (hs : Settled s.1 s.2) (hf : Follows c s a)
    (hstep : FinalityStep c s a s') : IsTree s'.2.blocks ∧ Settled s'.1 s'.2 := by
  cases hstep with
  | update fuel newly h =>
    rcases updateFinality_ok h with ⟨rfl, rfl⟩ | ⟨hsearch, found, hw, hall⟩
    · exact ⟨ht, hs⟩
    · obtain ⟨hblocks, hs'⟩ := hs.finalizeAll ht (hf hsearch) hw hall
      exact ⟨hblocks ▸ ht, hs'⟩
  | failed => exact ⟨ht, hs⟩
  | grow htree hgrows hfinalized => exact ⟨htree, hs.grows ht hgrows hfinalized⟩

/-- In a run whose calls continue the finalized chain within their batches, the finalized blocks are
closed under selected-parent ancestors. -/
theorem finality_ancestor_closed {c : FinalityConfig} {dag : DagStore}
    {s : FinalityTracker × DagStore} {calls : List FinalityCall} (ht : IsTree dag.blocks)
    (hnone : dag.finalized = ∅)
    (hr : Runs (fun s a s' => Follows c s a ∧ FinalityStep c s a s') ({}, dag) calls s) :
    AncestorClosed s.2 := by
  have hinv : IsTree s.2.blocks ∧ Settled s.1 s.2 := by
    refine hr.invariant (P := fun s => IsTree s.2.blocks ∧ Settled s.1 s.2)
      ⟨ht, .nothing rfl rfl hnone⟩ ?_
    intro s a s' ⟨ht, hs⟩ ⟨hf, hstep⟩
    exact hs.step ht hf hstep
  exact hinv.2.ancestorClosed

def chainBlock (hash parent : Hash) (height : UInt64) : Block :=
  { header := { blockHash := hash, selectedParentHash := parent, height := height } }

def chainOfThree : DagStore :=
  { blocks := ((ExtTreeMap.empty.insert (1 : Hash) (chainBlock 1 0 0)).insert 2 (chainBlock 2 1 1)).insert
      3 (chainBlock 3 2 2) }

theorem chainOfThree_isTree : IsTree chainOfThree.blocks := by
  have h1 : IsTree (ExtTreeMap.empty.insert (1 : Hash) (chainBlock 1 0 0)) :=
    IsTree.empty.insert (b := chainBlock 1 0 0) (by decide) (by decide) (Or.inl (by decide))
  have h2 := h1.insert (b := chainBlock 2 1 1) (by decide) (by decide)
    (Or.inr ⟨by decide, chainBlock 1 0 0, by decide, by decide⟩)
  exact h2.insert (b := chainBlock 3 2 2) (by decide) (by decide)
    (Or.inr ⟨by decide, chainBlock 2 1 1, by decide, by decide⟩)

theorem chainOfThree_ancestor : Ancestor chainOfThree.blocks 3 2 :=
  .single ⟨chainBlock 3 2 2, by decide, by decide, rfl⟩

theorem chainOfThree_run {batch : ℕ} {newly : List Hash} {dag : DagStore}
    (h : updateFinality { confirmationDepth := 0, maxFinalizeBatch := batch } 4 {} chainOfThree 3 2 =
      some (.ok (newly, t, dag))) :
    FinalityStep { confirmationDepth := 0, maxFinalizeBatch := batch } ({}, chainOfThree) (.update 3 2)
      (t, dag) := .update 4 newly h

theorem full_batch_skips_ancestor : ∃ (c : FinalityConfig) (s : FinalityTracker × DagStore),
    IsTree chainOfThree.blocks ∧ chainOfThree.finalized = ∅ ∧
    Runs (FinalityStep c) ({}, chainOfThree) [.update 3 2] s ∧ ¬ AncestorClosed s.2 := by
  refine ⟨{ confirmationDepth := 0, maxFinalizeBatch := 1 }, _, chainOfThree_isTree, rfl,
    Runs.refl.step (chainOfThree_run rfl), ?_⟩
  intro hclosed
  exact absurd (hclosed 3 (by decide) 2 chainOfThree_ancestor) (by decide)

theorem finality_ancestor_closed_chain : ∃ s : FinalityTracker × DagStore,
    s.2.finalized = {1, 2, 3} ∧ AncestorClosed s.2 := by
  refine ⟨_, ?_, finality_ancestor_closed (c := { confirmationDepth := 0, maxFinalizeBatch := 3 })
    chainOfThree_isTree rfl (Runs.refl.step ⟨?_, chainOfThree_run rfl⟩)⟩
  · decide
  · exact fun _ => ⟨nofun, by decide⟩

end FinalityTracker

end CitrateChain.Consensus
