import Mathlib.Data.Finset.Card

/-! # Quorum intersection

Two sets of voters from one electorate that are together larger than the electorate and the
faulty set share a voter that is not faulty. -/
namespace CitrateChain.Quorum
variable {α : Type*} [DecidableEq α]

theorem card_add_card_le_of_subset {U A B : Finset α} (hA : A ⊆ U) (hB : B ⊆ U) :
    A.card + B.card ≤ U.card + (A ∩ B).card := by
  have hu := Finset.card_le_card (Finset.union_subset hA hB)
  have hi := Finset.card_union_add_card_inter A B
  omega

theorem exists_mem_inter_notMem {U A B F : Finset α} (hA : A ⊆ U) (hB : B ⊆ U)
    (hF : U.card + F.card < A.card + B.card) : ∃ x ∈ A, x ∈ B ∧ x ∉ F := by
  have hi : F.card < (A ∩ B).card := by
    have := card_add_card_le_of_subset hA hB
    omega
  obtain ⟨x, hx, hxF⟩ := Finset.exists_mem_notMem_of_card_lt_card hi
  obtain ⟨hxA, hxB⟩ := Finset.mem_inter.mp hx
  exact ⟨x, hxA, hxB, hxF⟩

end CitrateChain.Quorum
