import Mathlib.Order.Interval.Finset.Nat
import CitrateChain.Consensus.ChainSelector
import Mathlib.Data.Set.Card

/-! # The common ancestor of two tips

`find_common_ancestor` climbs from both tips in lockstep. It ends at their lowest common ancestor, in
the round in which the longer of the two branches is used up, so that the depth it reports is the
length of the longer branch and not that of the old one. -/
namespace CitrateChain.Consensus.ChainSelector
open Std (ExtTreeMap)
open Word

variable {blocks : ExtTreeMap Hash Block} {tip tip1 tip2 x : Hash} {b b1 b2 : Block} {fuel i : ℕ}
variable {own other ancestors1 ancestors2 : List Hash} {cur current1 current2 : Option Hash}
variable {depth : UInt64}

/-- One side after `i` rounds: it has noted the `i` highest blocks of its chain and stands below. -/
structure Climbed (blocks : ExtTreeMap Hash Block) (tip : Hash) (i : ℕ) (own : List Hash)
    (cur : Option Hash) : Prop where
  noted : ∀ y, y ∈ own ↔ Ancestor blocks tip y ∧ heightOf blocks tip < heightOf blocks y + i
  here : ∀ y, cur = some y → Ancestor blocks tip y ∧ heightOf blocks y + i = heightOf blocks tip
  ended : cur = none → heightOf blocks tip < i

def undone (blocks : ExtTreeMap Hash Block) (tip x : Hash) : Set Hash :=
  {y | Ancestor blocks tip y ∧ ¬ Ancestor blocks x y}

structure Lowest (blocks : ExtTreeMap Hash Block) (tip1 tip2 x : Hash) : Prop where
  left : Ancestor blocks tip1 x
  right : Ancestor blocks tip2 x
  below : ∀ y, Ancestor blocks tip1 y → Ancestor blocks tip2 y → Ancestor blocks x y

theorem climb_mem (h : x ∈ other) : climb blocks other own (some x) = .hit x := if_pos h

section Tree
variable (ht : IsTree blocks)
include ht

theorem Climbed.start (tip : Hash) : Climbed blocks tip 0 [] (some tip) where
  noted y := by
    simpa using fun ha : Ancestor blocks tip y => ht.height_le ha
  here y hy := by
    cases hy
    exact ⟨.refl, rfl⟩
  ended := nofun

theorem Climbed.climb (hc : Climbed blocks tip i own cur) (hb : blocks[tip]? = some b)
    (hmiss : ∀ y, cur = some y → y ∉ other) :
    ∃ own' cur', climb blocks other own cur = .next own' cur' ∧
      Climbed blocks tip (i + 1) own' cur' := by
  cases cur with
  | none =>
    have hover := hc.ended rfl
    refine ⟨own, none, rfl, fun y => ?_, nofun, fun _ => by omega⟩
    rw [hc.noted]
    exact and_congr_right fun ha => ⟨fun h => by omega, fun _ => by omega⟩
  | some y =>
    obtain ⟨hy, hheight⟩ := hc.here y rfl
    obtain ⟨c, hcy⟩ := ht.stored_of_ancestor hb hy
    refine ⟨y :: own, if c.isGenesis then none else some c.selectedParent, ?_, fun z => ?_, ?_, ?_⟩
    · simp [ChainSelector.climb, hmiss y rfl, hcy]
    · rw [List.mem_cons, hc.noted]
      constructor
      · rintro (rfl | ⟨hz, hlt⟩)
        · exact ⟨hy, by omega⟩
        · exact ⟨hz, by omega⟩
      · rintro ⟨hz, hlt⟩
        rcases Nat.lt_or_ge (heightOf blocks tip) (heightOf blocks z + i) with h | h
        · exact .inr ⟨hz, h⟩
        · exact .inl (ht.ranked.descends.eq_of_reaches hz hy (by omega))
    · intro z hz
      split_ifs at hz with hgen
      cases hz
      obtain ⟨q, hq, hq'⟩ := ht.parent hcy (by simpa using hgen)
      refine ⟨hy.tail ⟨c, hcy, by simpa using hgen, rfl⟩, ?_⟩
      rw [heightOf_eq hcy] at hheight
      rw [heightOf_eq hq]
      omega
    · intro hnone
      split_ifs at hnone with hgen
      rcases ht.linked y c hcy with ⟨-, hzero⟩ | ⟨hgen', -⟩
      · rw [heightOf_eq hcy, hzero] at hheight
        simp at hheight
        omega
      · simp [hgen] at hgen'

theorem Climbed.cur_eq (hc : Climbed blocks tip i own cur) (hx : Ancestor blocks tip x)
    (hi : heightOf blocks x + i = heightOf blocks tip) : cur = some x := by
  cases cur with
  | none => exact absurd (hc.ended rfl) (by omega)
  | some y =>
    obtain ⟨hy, hheight⟩ := hc.here y rfl
    rw [ht.ranked.descends.eq_of_reaches hy hx (by omega)]

theorem commonAncestorLoop_lowest {rounds : ℕ} (hx : Lowest blocks tip1 tip2 x)
    (hb1 : blocks[tip1]? = some b1) (hb2 : blocks[tip2]? = some b2)
    (h1 : Climbed blocks tip1 i ancestors1 current1) (h2 : Climbed blocks tip2 i ancestors2 current2)
    (hrounds : rounds + heightOf blocks x = max (heightOf blocks tip1) (heightOf blocks tip2))
    (hdepth : depth.toNat = i) (hi : i ≤ rounds) (hfuel : rounds < fuel + i) :
    ∃ d : UInt64, d.toNat = rounds ∧
      commonAncestorLoop blocks fuel ancestors1 ancestors2 current1 current2 depth =
        some (.ok (x, d)) := by
  have hx1 := ht.height_le hx.left
  have hx2 := ht.height_le hx.right
  have hword1 : heightOf blocks tip1 < UInt64.size := heightOf_eq hb1 ▸ b1.height.toNat_lt_size
  have hword2 : heightOf blocks tip2 < UInt64.size := heightOf_eq hb2 ▸ b2.height.toNat_lt_size
  induction fuel generalizing i ancestors1 ancestors2 current1 current2 depth with
  | zero => omega
  | succ fuel ih =>
    have hend : ¬ (current1 = none ∧ current2 = none) := fun h => by
      have := h1.ended h.1
      have := h2.ended h.2
      omega
    rw [commonAncestorLoop, if_neg hend]
    -- a block on both chains is on the chain of `x`, so the first one met is `x` itself
    have hmeet : ∀ y, Ancestor blocks tip1 y → Ancestor blocks tip2 y →
        rounds + heightOf blocks x ≤ heightOf blocks y + i → y = x ∧ i = rounds := by
      intro y hy1 hy2 hle
      have hxy := hx.below y hy1 hy2
      have := ht.height_le hxy
      exact ⟨(ht.ranked.descends.eq_of_rank_eq hxy (by omega)).symm, by omega⟩
    by_cases hhit1 : ∃ y, current1 = some y ∧ y ∈ ancestors2
    · obtain ⟨y, rfl, hmem⟩ := hhit1
      obtain ⟨hy1, hh1⟩ := h1.here y rfl
      obtain ⟨hy2, hh2⟩ := (h2.noted y).mp hmem
      obtain ⟨rfl, hlast⟩ := hmeet y hy1 hy2 (by omega)
      exact ⟨depth, hdepth.trans hlast, by simp only [climb_mem hmem]⟩
    obtain ⟨own1, cur1, hclimb1, h1'⟩ := h1.climb ht hb1 fun y hy hmem => hhit1 ⟨y, hy, hmem⟩
    by_cases hhit2 : ∃ y, current2 = some y ∧ y ∈ own1
    · obtain ⟨y, rfl, hmem⟩ := hhit2
      obtain ⟨hy2, hh2⟩ := h2.here y rfl
      obtain ⟨hy1, hh1⟩ := (h1'.noted y).mp hmem
      obtain ⟨rfl, hlast⟩ := hmeet y hy1 hy2 (by omega)
      exact ⟨depth, hdepth.trans hlast, by simp only [hclimb1, climb_mem hmem]⟩
    obtain ⟨own2, cur2, hclimb2, h2'⟩ := h2.climb ht hb2 fun y hy hmem => hhit2 ⟨y, hy, hmem⟩
    simp only [hclimb1, hclimb2]
    have hmore : i < rounds := by
      refine lt_of_le_of_ne hi fun hlast => ?_
      rcases Nat.lt_or_ge (heightOf blocks tip2) (heightOf blocks tip1) with hlt | hge
      · exact hhit1 ⟨x, h1.cur_eq ht hx.left (by omega), (h2.noted x).mpr ⟨hx.right, by omega⟩⟩
      · exact hhit2 ⟨x, h2.cur_eq ht hx.right (by omega), (h1'.noted x).mpr ⟨hx.left, by omega⟩⟩
    have hone : (1 : UInt64).toNat = 1 := rfl
    refine ih h1' h2' ?_ hmore (by omega)
    rw [saturatingAdd_toNat_of_lt (by omega), hdepth, hone]

theorem exists_lowest (hone : ∃ g, Ancestor blocks tip1 g ∧ Ancestor blocks tip2 g) :
    ∃ x, Lowest blocks tip1 tip2 x := by
  classical
  have hex : ∃ n g, Ancestor blocks tip1 g ∧ Ancestor blocks tip2 g ∧
      heightOf blocks tip1 - heightOf blocks g = n := by
    obtain ⟨g, h1, h2⟩ := hone
    exact ⟨_, g, h1, h2, rfl⟩
  obtain ⟨x, h1, h2, hx⟩ := Nat.find_spec hex
  refine ⟨x, h1, h2, fun y hy1 hy2 => ht.ancestor_of_le h1 hy1 ?_⟩
  have hmin := Nat.find_min' hex ⟨y, hy1, hy2, rfl⟩
  have := ht.height_le h1
  have := ht.height_le hy1
  omega

theorem ncard_undone (hx : Ancestor blocks tip x) :
    (undone blocks tip x).ncard = heightOf blocks tip - heightOf blocks x := by
  have hinj : Set.InjOn (heightOf blocks) (undone blocks tip x) := fun y hy z hz h =>
    ht.ranked.descends.eq_of_reaches hy.1 hz.1 h
  have himage : heightOf blocks '' undone blocks tip x =
      Finset.Ioc (heightOf blocks x) (heightOf blocks tip) := by
    ext n
    simp only [Set.mem_image, Finset.coe_Ioc, Set.mem_Ioc]
    constructor
    · rintro ⟨y, ⟨hy, hnot⟩, rfl⟩
      exact ⟨not_le.mp fun hle => hnot (ht.ancestor_of_le hx hy hle), ht.height_le hy⟩
    · rintro ⟨hlt, hle⟩
      obtain ⟨y, hy, rfl⟩ := ht.ranked.exists_rank hx hlt.le hle
      exact ⟨y, ⟨hy, fun hxy => absurd (ht.height_le hxy) (not_le.mpr hlt)⟩, rfl⟩
  rw [← hinj.ncard_image, himage, Set.ncard_coe_finset, Nat.card_Ioc]

/-- Two blocks of one tree: the search returns their lowest common ancestor, and the depth it reports
is the number of blocks of the old chain above it exactly when the new tip is no higher. -/
theorem common_ancestor_lowest (hb1 : blocks[tip1]? = some b1) (hb2 : blocks[tip2]? = some b2)
    (hone : ∃ g, Ancestor blocks tip1 g ∧ Ancestor blocks tip2 g) :
    ∃ fuel x depth, findCommonAncestor blocks fuel tip1 tip2 = some (.ok (x, depth)) ∧
      Lowest blocks tip1 tip2 x ∧
      (depth.toNat = (undone blocks tip1 x).ncard ↔ b2.height ≤ b1.height) := by
  obtain ⟨x, hx⟩ := exists_lowest ht hone
  have hx1 := ht.height_le hx.left
  have hx2 := ht.height_le hx.right
  obtain ⟨depth, hdepth, hloop⟩ := commonAncestorLoop_lowest ht hx hb1 hb2 (.start ht tip1)
    (.start ht tip2) (Nat.sub_add_cancel (hx1.trans (le_max_left ..))) (UInt64.toNat_zero)
    (Nat.zero_le _) (Nat.lt_succ_self _)
  have hzero : ¬ (tip1 = 0 ∨ tip2 = 0) := not_or.mpr ⟨ht.ne_zero hb1, ht.ne_zero hb2⟩
  refine ⟨_, x, depth, (if_neg hzero).trans hloop, hx, ?_⟩
  rw [ncard_undone ht hx.left, hdepth, UInt64.le_iff_toNat_le, ← heightOf_eq hb1, ← heightOf_eq hb2]
  omega

end Tree

open FinalityTracker in
theorem common_ancestor_lowest_chain : ∃ fuel x depth,
    findCommonAncestor chainOfThree.blocks fuel 3 1 = some (.ok (x, depth)) ∧
      depth.toNat = (undone chainOfThree.blocks 3 x).ncard := by
  have h1 : chainOfThree.blocks[(1 : Hash)]? = some (chainBlock 1 0 0) := by decide
  have h2 : chainOfThree.blocks[(2 : Hash)]? = some (chainBlock 2 1 1) := by decide
  have h3 : chainOfThree.blocks[(3 : Hash)]? = some (chainBlock 3 2 2) := by decide
  have hone : Ancestor chainOfThree.blocks 3 1 := .head ⟨_, h3, rfl, rfl⟩ (.single ⟨_, h2, rfl, rfl⟩)
  obtain ⟨fuel, x, depth, h, -, hdepth⟩ :=
    common_ancestor_lowest chainOfThree_isTree h3 h1 ⟨1, hone, .refl⟩
  exact ⟨fuel, x, depth, h, hdepth.mpr (by decide)⟩

theorem extension_reported_as_depth_two :
    findCommonAncestor FinalityTracker.chainOfThree.blocks 5 1 3 = some (.ok (1, 2)) ∧
      undone FinalityTracker.chainOfThree.blocks 1 1 = ∅ :=
  ⟨by decide, by simp [undone]⟩

end CitrateChain.Consensus.ChainSelector
