import CitrateChain.Base.Descent
import CitrateChain.Consensus.Block

/-! # Trees of stored blocks

The selected parents of a store in which every block but genesis sits one above its stored selected
parent. The ancestors of a block form a chain with one block of every height below it. -/
namespace CitrateChain.Consensus
open Std (ExtTreeMap)
open Relation (ReflTransGen)

def Selected (blocks : ExtTreeMap Hash Block) (x y : Hash) : Prop :=
  ∃ b : Block, blocks[x]? = some b ∧ b.isGenesis = false ∧ b.selectedParent = y

def Ancestor (blocks : ExtTreeMap Hash Block) (x y : Hash) : Prop := ReflTransGen (Selected blocks) x y

def heightOf (blocks : ExtTreeMap Hash Block) (x : Hash) : ℕ :=
  match blocks[x]? with
  | some b => b.height.toNat
  | none => 0

structure IsTree (blocks : ExtTreeMap Hash Block) : Prop where
  named : ∀ (x : Hash) b, blocks[x]? = some b → b.hash = x
  nonzero : blocks[(0 : Hash)]? = none
  linked : ∀ (x : Hash) b, blocks[x]? = some b → (b.isGenesis = true ∧ b.height = 0) ∨
    (b.isGenesis = false ∧ ∃ p, blocks[b.selectedParent]? = some p ∧
      b.height.toNat = p.height.toNat + 1)

variable {blocks : ExtTreeMap Hash Block} {x y z : Hash} {b c : Block}

theorem heightOf_eq (hb : blocks[x]? = some b) : heightOf blocks x = b.height.toNat := by
  simp only [heightOf, hb]

theorem ancestor_iff (hb : blocks[x]? = some b) : Ancestor blocks x y ↔
    y = x ∨ b.isGenesis = false ∧ Ancestor blocks b.selectedParent y := by
  constructor
  · intro ha
    rcases ReflTransGen.cases_head ha with rfl | ⟨z, ⟨c, hc, hgen, rfl⟩, hz⟩
    · exact Or.inl rfl
    · rw [← Option.some.inj (hb.symm.trans hc)] at hgen hz
      exact Or.inr ⟨hgen, hz⟩
  · rintro (rfl | ⟨hgen, ha⟩)
    · exact .refl
    · exact .head ⟨b, hb, hgen, rfl⟩ ha

namespace IsTree
variable (ht : IsTree blocks)
include ht

theorem ranked : Descent.Ranked (Selected blocks) (heightOf blocks) where
  unique := by
    rintro x y z ⟨b, hb, -, rfl⟩ ⟨c, hc, -, rfl⟩
    rw [Option.some.inj (hb.symm.trans hc)]
  drop := by
    rintro x y ⟨b, hb, hgen, rfl⟩
    rcases ht.linked x b hb with ⟨hgen', -⟩ | ⟨-, p, hp, hheight⟩
    · simp [hgen'] at hgen
    · rw [heightOf_eq hb, heightOf_eq hp, hheight]

theorem ne_zero (hb : blocks[x]? = some b) : x ≠ 0 := by
  intro hx
  rw [hx, ht.nonzero] at hb
  cases hb

theorem stored_of_selected (hs : Selected blocks x y) : ∃ c, blocks[y]? = some c := by
  obtain ⟨b, hb, hgen, rfl⟩ := hs
  rcases ht.linked x b hb with ⟨hgen', -⟩ | ⟨-, p, hp, -⟩
  · simp [hgen'] at hgen
  · exact ⟨p, hp⟩

theorem stored_of_ancestor (hb : blocks[x]? = some b) (ha : Ancestor blocks x y) :
    ∃ c, blocks[y]? = some c := by
  induction ha with
  | refl => exact ⟨b, hb⟩
  | tail _ hs _ => exact ht.stored_of_selected hs

theorem height_le (ha : Ancestor blocks x y) : heightOf blocks y ≤ heightOf blocks x :=
  ht.ranked.descends.rank_le ha

theorem ancestor_of_le (hy : Ancestor blocks x y) (hz : Ancestor blocks x z)
    (hle : heightOf blocks z ≤ heightOf blocks y) : Ancestor blocks y z :=
  ht.ranked.descends.reaches_of_rank_le hy hz hle

theorem parent (hb : blocks[x]? = some b) (hgen : b.isGenesis = false) :
    ∃ p, blocks[b.selectedParent]? = some p ∧ b.height.toNat = p.height.toNat + 1 := by
  rcases ht.linked x b hb with ⟨hgen', -⟩ | ⟨-, h⟩
  · simp [hgen'] at hgen
  · exact h

end IsTree

theorem IsTree.empty : IsTree ∅ where
  named := by simp
  nonzero := by simp
  linked := by simp

def Hangs (blocks : ExtTreeMap Hash Block) (b : Block) : Prop :=
  (b.isGenesis = true ∧ b.height = 0) ∨
    (b.isGenesis = false ∧ ∃ p, blocks[b.selectedParent]? = some p ∧
      b.height.toNat = p.height.toNat + 1)

def Grows (blocks blocks' : ExtTreeMap Hash Block) : Prop :=
  ∀ (x : Hash) b, blocks[x]? = some b → blocks'[x]? = some b

variable {blocks' : ExtTreeMap Hash Block}

theorem Hangs.mono (hg : Grows blocks blocks') (hh : Hangs blocks b) : Hangs blocks' b := by
  rcases hh with h | ⟨hgen, p, hp, hheight⟩
  · exact Or.inl h
  · exact Or.inr ⟨hgen, p, hg _ p hp, hheight⟩

theorem grows_insert (hnew : blocks[b.hash]? = none) : Grows blocks (blocks.insert b.hash b) := by
  intro x c hc
  rw [TreeMap.getElem?_insert_ite]
  split_ifs with hx
  · rw [hx, hnew] at hc
    cases hc
  · exact hc

theorem IsTree.insert (ht : IsTree blocks) (hnew : blocks[b.hash]? = none) (hzero : b.hash ≠ 0)
    (hh : Hangs blocks b) : IsTree (blocks.insert b.hash b) where
  named := by
    intro x c hc
    rw [TreeMap.getElem?_insert_ite] at hc
    split_ifs at hc with hx
    · exact (Option.some.inj hc) ▸ hx.symm
    · exact ht.named x c hc
  nonzero := by
    rw [TreeMap.getElem?_insert_ite, if_neg hzero.symm]
    exact ht.nonzero
  linked := by
    intro x c hc
    have hgrow := grows_insert hnew
    rw [TreeMap.getElem?_insert_ite] at hc
    split_ifs at hc with hx
    · exact (Option.some.inj hc) ▸ hh.mono hgrow
    · exact Hangs.mono hgrow (ht.linked x c hc)

theorem Grows.ancestor_iff (hg : Grows blocks blocks') (ht : IsTree blocks)
    (hb : blocks[x]? = some b) : Ancestor blocks' x y ↔ Ancestor blocks x y := by
  constructor
  · intro ha
    induction ha with
    | refl => exact .refl
    | tail _ hs ih =>
      obtain ⟨c, hc⟩ := ht.stored_of_ancestor hb ih
      obtain ⟨c', hc', hgen, rfl⟩ := hs
      rw [Option.some.inj ((hg _ c hc).symm.trans hc')] at hc
      exact ih.tail ⟨c', hc, hgen, rfl⟩
  · intro ha
    refine ReflTransGen.mono ?_ x y ha
    rintro u v ⟨c, hc, hgen, rfl⟩
    exact ⟨c, hg u c hc, hgen, rfl⟩

end CitrateChain.Consensus
