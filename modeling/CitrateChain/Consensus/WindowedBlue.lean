import Mathlib.Data.Set.Card
import CitrateChain.Consensus.DagAcceptance

/-! # Blueness within the window

The count of blue merge parents works with pasts that are cut at a height. On a DAG in which no parent
edge climbs over that height a cut past is the past restricted to the window, and the count is the one
that reachability in the whole DAG gives. -/
namespace CitrateChain.Consensus.GhostDag
open Transition Word
open DagStore (linkedParents)
open Relation (ReflTransGen)
variable {g g' : GhostDag} {b c : Block} {blocks : KvStore Hash Block} {floor : UInt64} {x y : Hash}
  {maxParents : ℕ}

def ParentEdge (blocks : KvStore Hash Block) (x y : Hash) : Prop :=
  ∃ b, blocks x = some b ∧ y ∈ linkedParents b

abbrev PastOrSelf (blocks : KvStore Hash Block) (x y : Hash) : Prop := ReflTransGen (ParentEdge blocks) x y

def InWindow (blocks : KvStore Hash Block) (floor : UInt64) (x : Hash) : Prop :=
  ∃ b, blocks x = some b ∧ floor ≤ b.height

def Anticone (blocks : KvStore Hash Block) (x y : Hash) : Prop :=
  ¬ PastOrSelf blocks x y ∧ ¬ PastOrSelf blocks y x

/-- The blocks that speak against the merge parent `mp`: those of its anticone in the window that are
the selected parent, in its past, or a merge parent judged blue before. -/
def opposing (blocks : KvStore Hash Block) (floor : UInt64) (sp : Hash) (blues : List Hash) (mp : Hash) :
    Set Hash :=
  {y | InWindow blocks floor y ∧ Anticone blocks mp y ∧ (PastOrSelf blocks sp y ∨ y ∈ blues)}

open Classical in
/-- The blue merge parents by reachability in the whole DAG, judged in the order of the header. -/
noncomputable def exactBlues (blocks : KvStore Hash Block) (k : ℕ) (floor : UInt64) (sp : Hash) :
    List Hash → List Hash → List Hash
  | blues, [] => blues
  | blues, mp :: rest =>
    if ¬ PastOrSelf blocks sp mp ∧ (opposing blocks floor sp blues mp).ncard ≤ k then
      exactBlues blocks k floor sp (blues ++ [mp]) rest
    else exactBlues blocks k floor sp blues rest

def NoClimb (blocks : KvStore Hash Block) (floor : UInt64) : Prop :=
  ∀ x b p c, blocks x = some b → p ∈ linkedParents b → blocks p = some c → floor ≤ c.height →
    floor ≤ b.height

theorem NoClimb.above (hn : NoClimb blocks floor) (hxy : PastOrSelf blocks x y)
    (hy : InWindow blocks floor y) : InWindow blocks floor x := by
  induction hxy using ReflTransGen.head_induction_on with
  | refl => exact hy
  | @head u v hedge _ ih =>
    obtain ⟨b, hb, hp⟩ := hedge
    obtain ⟨c, hc, hle⟩ := ih
    exact ⟨b, hb, hn u b v c hb hp hc hle⟩

section

variable (hr : Retains blocks 0 g)
include hr

theorem Retains.kept_iff (hb : blocks x = some b) :
    Walk.Kept (g.pastStep floor) x ↔ floor ≤ b.height := by
  unfold Walk.Kept pastStep
  rw [hr.linksOf hb (Nat.zero_le _)]
  dsimp only [blockLinks]
  by_cases hlt : b.height < floor
  · rw [if_pos hlt]
    constructor
    · rintro ⟨succs, hs⟩
      cases hs
    · intro hle
      exact absurd hlt (not_lt.mpr hle)
  · rw [if_neg hlt]
    exact ⟨fun _ => not_lt.mp hlt, fun _ => ⟨_, rfl⟩⟩

variable (hn : AllNear blocks)
include hn

variable (hs : AllShaped maxParents blocks)
include hs

theorem Retains.parent_edge (hb : blocks x = some b) (hp : y ∈ linkedParents b)
    (hc : blocks y = some c) (hle : floor ≤ c.height) (hle' : floor ≤ b.height) :
    Walk.Edge (g.pastStep floor) x y := by
  have hgen : b.isGenesis = false := by
    by_contra hgen
    unfold linkedParents at hp
    rw [if_pos (Bool.not_eq_false _ ▸ hgen)] at hp
    cases hp
  rw [linkedParents_of_not_genesis hgen] at hp
  unfold Walk.Edge pastStep
  rw [hr.linksOf hb (Nat.zero_le _)]
  dsimp only [blockLinks]
  rw [if_neg (not_lt.mpr hle')]
  refine ⟨_, rfl, ?_⟩
  rcases List.mem_cons.mp hp with rfl | hmem
  · have hsp : b.selectedParent ≠ 0 := ((hs x b hb).resolve_left (by simp [hgen])).selected
    have hnear := (hn x b hb).resolve_left (by simp [hgen])
    obtain ⟨sp, hsel, hone⟩ := hnear.selected
    obtain rfl : sp = c := Option.some.inj (hsel.symm.trans hc)
    have hlt : floor < b.height := by
      rw [UInt64.lt_iff_toNat_lt]
      rw [UInt64.le_iff_toNat_le] at hle
      omega
    rw [if_pos ⟨hsp, hlt⟩]
    exact List.mem_append_left _ (List.mem_singleton.mpr rfl)
  · exact List.mem_append_right _ hmem

omit hs in
theorem Retains.walk_past (hx : blocks x = some b)
    (hwalk : ReflTransGen (Walk.Edge (g.pastStep floor)) x y) :
    PastOrSelf blocks x y ∧ ∃ c, blocks y = some c := by
  induction hwalk with
  | refl => exact ⟨.refl, b, hx⟩
  | @tail u v _ hedge ih =>
    obtain ⟨hpast, c, hc⟩ := ih
    have hparent := hr.edge_parent hc hedge
    exact ⟨hpast.tail ⟨c, hc, hparent⟩, hn.parent_stored hc hparent⟩

theorem Retains.past_walk (hclimb : NoClimb blocks floor) (hpast : PastOrSelf blocks x y)
    (hy : InWindow blocks floor y) : ReflTransGen (Walk.Edge (g.pastStep floor)) x y := by
  induction hpast using ReflTransGen.head_induction_on with
  | refl => exact .refl
  | @head u v hedge hrest ih =>
    obtain ⟨b, hb, hparent⟩ := hedge
    obtain ⟨c, hc, hle⟩ := hclimb.above hrest hy
    have hle' : floor ≤ b.height := hclimb u b v c hb hparent hc hle
    exact .head (hr.parent_edge hn hs hb hparent hc hle hle') ih

theorem mem_pastWithin_iff (hclimb : NoClimb blocks floor) {past : List Hash}
    (hp : g.pastWithin x floor = .ok past) (hx : blocks x = some b) :
    y ∈ past ↔ PastOrSelf blocks x y ∧ InWindow blocks floor y := by
  rw [Walk.mem_visit_iff hp]
  constructor
  · rintro ⟨hwalk, hkept⟩
    obtain ⟨hpast, c, hc⟩ := hr.walk_past hn hx hwalk
    exact ⟨hpast, c, hc, (hr.kept_iff hc).mp hkept⟩
  · rintro ⟨hpast, c, hc, hle⟩
    exact ⟨hr.past_walk hn hs hclimb hpast ⟨c, hc, hle⟩, (hr.kept_iff hc).mpr hle⟩

end

structure Judging (g : GhostDag) (blocks : KvStore Hash Block) (floor : UInt64) (sp : Hash)
    (spPast : List Hash) : Prop where
  retains : Retains blocks 0 g
  near : AllNear blocks
  shaped : AllShaped g.params.maxParents blocks
  noClimb : NoClimb blocks floor
  stored : ∃ c, blocks sp = some c
  past : g.pastWithin sp floor = .ok spPast

structure BluesMatch (g : GhostDag) (blocks : KvStore Hash Block) (floor : UInt64) (sp : Hash)
    (blues : List (Hash × List Hash)) (hashes : List Hash) : Prop where
  named : blues.map Prod.fst = hashes
  nodup : hashes.Nodup
  pasts : ∀ p ∈ blues, g.pastWithin p.1 floor = .ok p.2
  inWindow : ∀ x ∈ hashes, InWindow blocks floor x
  outside : ∀ x ∈ hashes, ¬ PastOrSelf blocks sp x

variable {sp mp : Hash} {spPast mpPast : List Hash} {blues : List (Hash × List Hash)} {hashes : List Hash}

section

variable (hj : Judging g blocks floor sp spPast)
include hj

theorem Judging.mem_past (hx : blocks x = some b) {past : List Hash}
    (hp : g.pastWithin x floor = .ok past) :
    y ∈ past ↔ PastOrSelf blocks x y ∧ InWindow blocks floor y :=
  mem_pastWithin_iff hj.retains hj.near hj.shaped hj.noClimb hp hx

theorem Judging.mem_spPast : y ∈ spPast ↔ PastOrSelf blocks sp y ∧ InWindow blocks floor y := by
  obtain ⟨c, hc⟩ := hj.stored
  exact hj.mem_past hc hj.past

variable (hm : BluesMatch g blocks floor sp blues hashes)
include hm

theorem Judging.opposing_eq (hmp : InWindow blocks floor mp) (hout : ¬ PastOrSelf blocks sp mp)
    (hpast : g.pastWithin mp floor = .ok mpPast) :
    opposing blocks floor sp hashes mp = {y | y ∈ spPast ∧ y ∉ mpPast} ∪
      {y | ∃ p ∈ blues, p.1 = y ∧ (y ∉ mpPast ∧ mp ∉ p.2)} := by
  obtain ⟨c, hc, hle⟩ := hmp
  ext y
  constructor
  · rintro ⟨hwindow, ⟨hnot, hnot'⟩, hsp | hblue⟩
    · refine Or.inl ⟨hj.mem_spPast.mpr ⟨hsp, hwindow⟩, fun hmem => ?_⟩
      exact hnot ((hj.mem_past hc hpast).mp hmem).1
    · rw [← hm.named] at hblue
      obtain ⟨p, hp, rfl⟩ := List.mem_map.mp hblue
      refine Or.inr ⟨p, hp, rfl, fun hmem => hnot ((hj.mem_past hc hpast).mp hmem).1, fun hmem => ?_⟩
      obtain ⟨d, hd, -⟩ := hwindow
      exact hnot' ((hj.mem_past hd (hm.pasts p hp)).mp hmem).1
  · rintro (⟨hsp, hnot⟩ | ⟨p, hp, rfl, hnot, hnot'⟩)
    · obtain ⟨hreach, hwindow⟩ := hj.mem_spPast.mp hsp
      refine ⟨hwindow, ⟨fun h => hnot ((hj.mem_past hc hpast).mpr ⟨h, hwindow⟩), fun h => ?_⟩, Or.inl hreach⟩
      exact hout (hreach.trans h)
    · have hmem : p.1 ∈ hashes := hm.named ▸ List.mem_map_of_mem hp
      have hwindow := hm.inWindow p.1 hmem
      obtain ⟨d, hd, -⟩ := id hwindow
      refine ⟨hwindow, ⟨fun h => hnot ((hj.mem_past hc hpast).mpr ⟨h, hwindow⟩), fun h => ?_⟩, Or.inr hmem⟩
      exact hnot' ((hj.mem_past hd (hm.pasts p hp)).mpr ⟨h, c, hc, hle⟩)

omit hm in
omit hj in
theorem ncard_filter {l : List Hash} (hl : l.Nodup) (P : Hash → Prop) [DecidablePred P] :
    {y | y ∈ l ∧ P y}.ncard = l.countP P := by
  have hset : {y | y ∈ l ∧ P y} = ↑(l.filter (fun y => P y)).toFinset := by
    ext y
    simp
  rw [hset, Set.ncard_coe_finset, List.toFinset_card_of_nodup (hl.filter _), List.countP_eq_length_filter]

omit hj in
theorem BluesMatch.ncard_eq (P : Hash × List Hash → Prop) [DecidablePred P] :
    {y | ∃ p ∈ blues, p.1 = y ∧ P p}.ncard = blues.countP P := by
  have hset : {y | ∃ p ∈ blues, p.1 = y ∧ P p} = ↑((blues.filter fun p => P p).map Prod.fst).toFinset := by
    ext y
    simp only [Set.mem_ofPred_eq, List.coe_toFinset, List.mem_map, List.mem_filter, decide_eq_true_eq]
    constructor
    · rintro ⟨p, hp, rfl, hP⟩
      exact ⟨p, ⟨hp, hP⟩, rfl⟩
    · rintro ⟨p, ⟨hp, hP⟩, rfl⟩
      exact ⟨p, hp, rfl, hP⟩
  have hnodup : ((blues.filter fun p => P p).map Prod.fst).Nodup := by
    have hall : (blues.map Prod.fst).Nodup := hm.named ▸ hm.nodup
    exact hall.sublist (List.filter_sublist.map _)
  rw [hset, Set.ncard_coe_finset, List.toFinset_card_of_nodup hnodup, List.length_map,
    List.countP_eq_length_filter]

theorem Judging.ncard_opposing (hmp : InWindow blocks floor mp) (hout : ¬ PastOrSelf blocks sp mp)
    (hpast : g.pastWithin mp floor = .ok mpPast) : (opposing blocks floor sp hashes mp).ncard =
      spPast.countP (· ∉ mpPast) + blues.countP (fun p => p.1 ∉ mpPast ∧ mp ∉ p.2) := by
  rw [hj.opposing_eq hm hmp hout hpast, Set.ncard_union_eq ?_ ?_ ?_, ncard_filter (Walk.nodup_visit hj.past)]
  · congr 1
    rw [← hm.ncard_eq]
    congr 1
    ext y
    constructor
    · rintro ⟨p, hp, rfl, h⟩
      exact ⟨p, hp, rfl, h⟩
    · rintro ⟨p, hp, rfl, h⟩
      exact ⟨p, hp, rfl, h⟩
  · rw [Set.disjoint_left]
    rintro y ⟨hsp, -⟩ ⟨p, hp, rfl, -⟩
    have hmem : p.1 ∈ hashes := hm.named ▸ List.mem_map_of_mem hp
    exact hm.outside p.1 hmem (hj.mem_spPast.mp hsp).1
  · exact (List.finite_toSet spPast).subset fun y hy => hy.1
  · refine (List.finite_toSet (blues.map Prod.fst)).subset ?_
    rintro y ⟨p, hp, rfl, -⟩
    exact List.mem_map_of_mem hp

omit hj in
theorem BluesMatch.snoc (hfresh : mp ∉ hashes) (hmp : InWindow blocks floor mp)
    (hout : ¬ PastOrSelf blocks sp mp) (hpast : g.pastWithin mp floor = .ok mpPast) :
    BluesMatch g blocks floor sp (blues ++ [(mp, mpPast)]) (hashes ++ [mp]) where
  named := by rw [List.map_append, hm.named]; rfl
  nodup := by
    rw [List.nodup_append]
    refine ⟨hm.nodup, List.nodup_singleton mp, ?_⟩
    rintro x hx y hy rfl
    exact hfresh (List.mem_singleton.mp hy ▸ hx)
  pasts := forall_mem_concat.mpr ⟨hm.pasts, hpast⟩
  inWindow := forall_mem_concat.mpr ⟨hm.inWindow, hmp⟩
  outside := forall_mem_concat.mpr ⟨hm.outside, hout⟩

variable {judged : List (Hash × List Hash)}

theorem Judging.judge (hmp : InWindow blocks floor mp)
    (h : g.judgeMergeParent floor spPast blues mp = .ok judged) :
    (¬ (¬ PastOrSelf blocks sp mp ∧ (opposing blocks floor sp hashes mp).ncard ≤ g.params.k.toNat) ∧
        judged = blues) ∨
      (¬ PastOrSelf blocks sp mp ∧ (opposing blocks floor sp hashes mp).ncard ≤ g.params.k.toNat) ∧
        ∃ mpPast, g.pastWithin mp floor = .ok mpPast ∧ judged = blues ++ [(mp, mpPast)] := by
  unfold judgeMergeParent at h
  split at h
  · rename_i hin
    refine Or.inl ⟨fun hboth => hboth.1 (hj.mem_spPast.mp hin).1, ?_⟩
    exact (Except.ok.inj h).symm
  rename_i hnot
  have hout : ¬ PastOrSelf blocks sp mp := fun hin => hnot (hj.mem_spPast.mpr ⟨hin, hmp⟩)
  split at h
  · cases h
  rename_i mpPast hpast
  have hcount := hj.ncard_opposing hm hmp hout hpast
  dsimp only at h
  split at h
  · rename_i hle
    refine Or.inr ⟨⟨hout, ?_⟩, mpPast, hpast, (Except.ok.inj h).symm⟩
    rw [hcount]
    exact (anticone_le_iff (g.order.perm spPast)).mp hle
  · rename_i hgt
    refine Or.inl ⟨fun hboth => hgt ?_, (Except.ok.inj h).symm⟩
    apply (anticone_le_iff (g.order.perm spPast)).mpr
    rw [← hcount]
    exact hboth.2

theorem Judging.judgeAll {mps : List Hash} (hmps : ∀ m ∈ mps, InWindow blocks floor m)
    (hnodup : mps.Nodup) (hfresh : ∀ m ∈ mps, m ∉ hashes)
    (h : mps.foldlM (g.judgeMergeParent floor spPast) blues = .ok judged) :
    judged.map Prod.fst = exactBlues blocks g.params.k.toNat floor sp hashes mps := by
  induction mps generalizing blues hashes with
  | nil =>
    cases h
    exact hm.named
  | cons mp mps ih =>
    obtain ⟨step, hstep, hfold⟩ := Result.bind_eq_ok.mp h
    obtain ⟨hnotin, hnodup⟩ := List.nodup_cons.mp hnodup
    have hmp := hmps mp List.mem_cons_self
    have hrest : ∀ m ∈ mps, InWindow blocks floor m := fun m hmem => hmps m (List.mem_cons_of_mem _ hmem)
    rw [exactBlues]
    rcases hj.judge hm hmp hstep with ⟨hred, rfl⟩ | ⟨hblue, mpPast, hpast, rfl⟩
    · rw [if_neg hred]
      exact ih hm hrest hnodup (fun m hmem => hfresh m (List.mem_cons_of_mem _ hmem)) hfold
    · rw [if_pos hblue]
      refine ih (hm.snoc (hfresh mp List.mem_cons_self) hmp hblue.1 hpast) hrest hnodup ?_ hfold
      intro m hmem hin
      rcases List.mem_append.mp hin with hin | hin
      · exact hfresh m (List.mem_cons_of_mem _ hmem) hin
      · rw [List.mem_singleton.mp hin] at hmem
        exact hnotin hmem

end

def windowFloor (b : Block) : UInt64 := saturatingSub b.height mergeScoreWindow

theorem ParentsNear.inWindow (hb : ParentsNear blocks b) :
    ∀ m ∈ b.header.mergeParentHashes, InWindow blocks (windowFloor b) m := by
  intro m hm
  obtain ⟨mb, hmb, hdepth⟩ := hb.merges m hm
  refine ⟨mb, hmb, ?_⟩
  have hwindow : mergeScoreWindow.toNat = 200 := rfl
  have hbound : mergeParentMaxDepth.toNat = 100 := rfl
  have hfloor : (windowFloor b).toNat = b.height.toNat - mergeScoreWindow.toNat := saturatingSub_toNat _ _
  rw [UInt64.le_iff_toNat_le]
  omega

/-- Block 9, at height 3, merges block 8, at height 4, since block 5 claims two points for its merges.
Block 214 reaches block 9 through 113 and 10. Block 215, at height 204, merges 213. -/
def climbingDag : List Block :=
  [dagBlock 1 0 [] 0 0, dagBlock 2 1 [] 1 1, dagBlock 3 1 [] 1 1, dagBlock 4 1 [] 1 1,
    dagBlock 5 2 [3, 4] 2 4, dagBlock 6 3 [] 2 2, dagBlock 7 6 [] 3 3, dagBlock 8 7 [] 4 4,
    dagBlock 9 5 [8] 3 5, dagBlock 10 9 [] 4 6] ++
  plainChain 11 2 2 102 ++ [dagBlock 113 112 [10] 104 105] ++ plainChain 114 112 104 99 ++
  [dagBlock 213 197 [] 188 188, dagBlock 214 212 [113] 203 203, dagBlock 215 214 [213] 204 204]

variable {bs : List Block}

theorem Runs.built (hr : Runs Builds g bs g') : ∀ b ∈ bs, g'.dagStore.blocks b.hash = some b := by
  induction hr with
  | refl => exact nofun
  | @step bs t b u _ hb ih =>
    refine forall_mem_concat.mpr ⟨fun c hc => hb.extends.blocks _ _ (ih c hc), ?_⟩
    rw [hb.adds.2.2.1, KvStore.write_put, if_pos rfl]

theorem Runs.params (hr : Runs Builds g bs g') : g'.params = g.params :=
  hr.invariant (P := fun t => t.params = g.params) rfl fun _ _ _ ht hb => hb.adds.1.trans ht

def lateBlocks : List Hash := [10, 113, 214] ++ (List.range 15).map fun i => BitVec.ofNat 256 (198 + i)

def onTrunk (n : ℕ) : Bool := (13 ≤ n && n ≤ 112) || (114 ≤ n && n ≤ 197)

def isBelow (n : ℕ) : Bool := n ≤ 2 || n == 11 || n == 12 || onTrunk n || n == 213

section Climbing
variable (hr : Runs Builds genesisEngine climbingDag g')
include hr

theorem climbing_mem (hb : b ∈ climbingDag) : g'.dagStore.blocks b.hash = some b := Runs.built hr b hb

theorem climbing_stored (hx : g'.dagStore.blocks x = some b) : b ∈ climbingDag ∧ b.hash = x := by
  obtain ⟨root, hl⟩ := Runs.linked genesisEngine_unbuilt hr
  exact ⟨Runs.stored genesisEngine_unbuilt hr x b hx, hl.named x b hx⟩

theorem climbing_path (x : Hash) (path : List Hash) (h : (((x :: path).zip path).all fun e =>
    climbingDag.any fun b => b.hash == e.1 && (linkedParents b).contains e.2) = true) :
    ∀ y ∈ path, PastOrSelf g'.dagStore.blocks x y := by
  induction path generalizing x with
  | nil => exact nofun
  | cons z path ih =>
    rw [List.zip_cons_cons, List.all_cons, Bool.and_eq_true, List.any_eq_true] at h
    obtain ⟨⟨b, hb, hedge⟩, hrest⟩ := h
    obtain ⟨rfl, hz⟩ : b.hash = x ∧ z ∈ linkedParents b := by simpa using hedge
    have hedge : ParentEdge g'.dagStore.blocks b.hash z := ⟨b, climbing_mem hr hb, hz⟩
    intro y hy
    rcases List.mem_cons.mp hy with rfl | hy
    · exact .single hedge
    · exact .head hedge (ih z hrest y hy)

theorem climbing_closed (S : Hash → Bool) (hS : (climbingDag.all fun b => !S b.hash ||
    (linkedParents b).all S) = true) (hx : S x = true) (h : PastOrSelf g'.dagStore.blocks x y) :
    S y = true := by
  induction h with
  | refl => exact hx
  | tail _ hedge ih =>
    obtain ⟨b, hb, hp⟩ := hedge
    obtain ⟨hmem, rfl⟩ := climbing_stored hr hb
    have hall := List.all_eq_true.mp hS b hmem
    rw [ih, Bool.not_true, Bool.false_or] at hall
    exact List.all_eq_true.mp hall _ hp

theorem past_214 : ∀ y ∈ 8 :: lateBlocks, PastOrSelf g'.dagStore.blocks 214 y := by
  have hall : ((8 :: lateBlocks).all fun y => y == 214 || [113, 10, 9, 8].contains y ||
      ((List.range 15).map fun i => BitVec.ofNat 256 (212 - i)).contains y) = true := by decide
  have hbranch := climbing_path hr 214 [113, 10, 9, 8] (by decide)
  have htrunk := climbing_path hr 214 ((List.range 15).map fun i => BitVec.ofNat 256 (212 - i))
    (by decide)
  intro y hy
  have hy := List.all_eq_true.mp hall y hy
  rw [Bool.or_eq_true, Bool.or_eq_true, beq_iff_eq, List.contains_iff_mem, List.contains_iff_mem] at hy
  rcases hy with (rfl | hy) | hy
  · exact .refl
  · exact hbranch y hy
  · exact htrunk y hy

theorem climbing_exact :
    exactBlues g'.dagStore.blocks 18 (windowFloor (dagBlock 215 214 [213] 204 204)) 214 [] [213] = [] := by
  have hfloor : windowFloor (dagBlock 215 214 [213] 204 204) = 4 := by decide
  have hsub : ((8 :: lateBlocks).toFinset : Set Hash) ⊆ opposing g'.dagStore.blocks 4 214 [] 213 := by
    have hall : ((8 :: lateBlocks).all fun y => (climbingDag.any fun b => b.hash == y && 4 ≤ b.height) &&
        !isBelow y.toNat && (y != 213 && y != 215)) = true := by decide +kernel
    intro y hy
    have hfacts := List.all_eq_true.mp hall y hy
    rw [Bool.and_eq_true, Bool.and_eq_true, List.any_eq_true] at hfacts
    obtain ⟨⟨⟨b, hb, hat⟩, hbelow⟩, hne⟩ := hfacts
    obtain ⟨rfl, hheight⟩ : b.hash = y ∧ 4 ≤ b.height := by simpa using hat
    refine ⟨⟨b, climbing_mem hr hb, hheight⟩, ⟨fun hpast => ?_, fun hpast => ?_⟩,
      Or.inl (past_214 hr _ hy)⟩
    · rw [climbing_closed hr (isBelow ·.toNat) (by decide) (by decide) hpast] at hbelow
      cases hbelow
    · cases climbing_closed hr (fun y => y != 213 && y != 215) (by decide) hne hpast
  have hfinite : (opposing g'.dagStore.blocks 4 214 [] 213).Finite := by
    refine (List.finite_toSet (climbingDag.map Block.hash)).subset ?_
    rintro y ⟨⟨b, hb, -⟩, -⟩
    obtain ⟨hmem, rfl⟩ := climbing_stored hr hb
    exact List.mem_map_of_mem hmem
  have hcard : 19 ≤ (opposing g'.dagStore.blocks 4 214 [] 213).ncard := by
    have hle := Set.ncard_le_ncard hsub hfinite
    rw [Set.ncard_coe_finset] at hle
    exact le_trans (by decide) hle
  rw [hfloor, exactBlues, if_neg (by omega), exactBlues]

theorem climbing_noClimb : NoClimb g'.dagStore.blocks 3 := by
  have hall : (climbingDag.all fun b => 3 ≤ b.height ||
      climbingDag.all fun c => c.height < 3 || !(linkedParents b).contains c.hash) = true := by
    decide
  intro x b p c hb hp hc hle
  obtain ⟨hb, -⟩ := climbing_stored hr hb
  obtain ⟨hmem, rfl⟩ := climbing_stored hr hc
  by_contra hlt
  have hbelow := List.all_eq_true.mp hall b hb
  rw [decide_eq_false hlt, Bool.false_or] at hbelow
  have hlow : c.height < 3 := by simpa [hp] using List.all_eq_true.mp hbelow c hmem
  exact absurd hle (not_le.mpr hlow)

end Climbing

theorem climbing_built : ∃ g', Runs Builds genesisEngine climbingDag g' ∧
    g'.boundedBlueMergeCount (dagBlock 215 214 [213] 204 204) = .ok 1 :=
  exists_built climbingDag _ (by decide +kernel)

/-- In a DAG of accepted blocks the count of a merge block is the number of its merge parents that are
blue by reachability in the whole DAG, if no parent edge climbs over the floor of its window. -/
theorem windowed_count_exact {bs : List Block} (hf : Fresh g) (hu : Unbuilt g) (hr : Runs Builds g bs g')
    (hx : g'.dagStore.blocks x = some b) (hm : b.header.mergeParentHashes ≠ [])
    (hclimb : NoClimb g'.dagStore.blocks (windowFloor b)) :
    g'.boundedBlueMergeCount b = .ok (UInt64.ofNat (exactBlues g'.dagStore.blocks g'.params.k.toNat
      (windowFloor b) b.selectedParent [] b.header.mergeParentHashes).length) := by
  have ha := Runs.accepted hf hu hr
  have hs := Runs.allShaped hu hr
  have hgen : b.isGenesis ≠ true := fun hgen => hm (Block.isGenesis_parts hgen).2.1
  have hnear : ParentsNear g'.dagStore.blocks b := (ha.near x b hx).resolve_left hgen
  obtain ⟨sp, hsp, -⟩ := hnear.selected
  obtain ⟨n, hn⟩ := ha.counted x b hx hm
  rw [hn]
  unfold boundedBlueMergeCount at hn
  dsimp only at hn
  split at hn
  · cases hn
  rename_i spPast hpast
  split at hn
  · cases hn
  rename_i judged hjudged
  cases hn
  have hj : Judging g' g'.dagStore.blocks (windowFloor b) b.selectedParent spPast :=
    ⟨ha.retains, ha.near, hs, hclimb, ⟨sp, hsp⟩, hpast⟩
  have hempty : BluesMatch g' g'.dagStore.blocks (windowFloor b) b.selectedParent [] [] :=
    ⟨rfl, List.nodup_nil, nofun, nofun, nofun⟩
  have hnodup : b.header.mergeParentHashes.Nodup := ((hs x b hx).resolve_left hgen).nodup
  have hblues := hj.judgeAll hempty hnear.inWindow hnodup (fun _ _ => List.not_mem_nil) hjudged
  rw [← hblues, List.length_map]

theorem windowed_count_exact_cut : ∃ g', Runs Builds genesisEngine climbingDag g' ∧
    g'.boundedBlueMergeCount (dagBlock 214 212 [113] 203 203) = .ok (UInt64.ofNat
      (exactBlues g'.dagStore.blocks g'.params.k.toNat 3 212 [] [113]).length) := by
  obtain ⟨g', hr, -⟩ := climbing_built
  have hstored := climbing_mem hr (b := dagBlock 214 212 [113] 203 203) (by decide)
  exact ⟨g', hr, windowed_count_exact ⟨rfl, rfl⟩ genesisEngine_unbuilt hr hstored
    (List.cons_ne_nil _ _) (climbing_noClimb hr)⟩

theorem cut_past_misses_climb : ∃ g' b, Runs Builds genesisEngine climbingDag g' ∧
    g'.dagStore.blocks 215 = some b ∧ b.header.mergeParentHashes ≠ [] ∧
    g'.boundedBlueMergeCount b = .ok 1 ∧
    exactBlues g'.dagStore.blocks g'.params.k.toNat (windowFloor b) b.selectedParent []
      b.header.mergeParentHashes = [] := by
  obtain ⟨g', hr, hcount⟩ := climbing_built
  have hk : g'.params.k.toNat = 18 := by rw [Runs.params hr]; rfl
  have hstored := climbing_mem hr (b := dagBlock 215 214 [213] 204 204) (by decide)
  refine ⟨g', dagBlock 215 214 [213] 204 204, hr, hstored, List.cons_ne_nil _ _, hcount, ?_⟩
  rw [hk]
  exact climbing_exact hr

end CitrateChain.Consensus.GhostDag
