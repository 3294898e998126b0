import CitrateChain.Base.Layout
import Mathlib.Data.Set.Function

/-! # The data commitment of a file

A file is packed into field elements of 31 bytes each. The last one does not say how many bytes it
holds, so a file and the same file with zero bytes behind it have one commitment as long as both need
the same number of elements. -/
namespace CitrateChain.Commd
open Bytes

def modulus : ℕ := 21888242871839275222246405745257275088548364400416034343698204186575808495617

instance : NeZero modulus := ⟨by decide⟩

abbrev Fr := Fin modulus

def bytesPerLeaf : ℕ := 31

def fromLeBytesModOrder (bytes : Bytes) : Fr := Fin.ofNat modulus (ofBe bytes.reverse)

/-- `bytes.chunks(31)`. Every chunk takes a byte, so `bytes.length` rounds are enough. -/
def chunks : ℕ → Bytes → List Bytes
  | 0, _ => []
  | fuel + 1, bytes =>
    if bytes = [] then []
    else bytes.take bytesPerLeaf :: chunks fuel (bytes.drop bytesPerLeaf)

def packBytes (bytes : Bytes) : List Fr :=
  if bytes = [] then [0] else (chunks bytes.length bytes).map fromLeBytesModOrder

def dataCommitDomain : Fr := fromLeBytesModOrder (ascii "CTZ/dataCommit/v1".toList)

def spongeInputs (leaves : List Fr) : List Fr :=
  dataCommitDomain :: Fin.ofNat modulus (leaves.length % 2 ^ 64) :: leaves

def poseidonSponge (poseidonHash : List Fr → Fr) (leaves : List Fr) : Fr :=
  poseidonHash (spongeInputs leaves)

def frToBeBytes (f : Fr) : Bytes := toBe 32 f.val

def computeDataCommit (poseidonHash : List Fr → Fr) (data : Bytes) : Bytes :=
  frToBeBytes (poseidonSponge poseidonHash (packBytes data))

/-- The bytes with zeros behind them, up to the end of the last leaf. -/
def padded (bytes : Bytes) : Bytes :=
  bytes ++ List.replicate (31 * max 1 ((bytes.length + 30) / 31) - bytes.length) 0

def unpack (leaves : List Fr) : Bytes := leaves.flatMap fun f => toLe 31 f.val

variable {bytes : Bytes}

theorem fromLeBytesModOrder_val (h : bytes.length ≤ 31) :
    (fromLeBytesModOrder bytes).val = ofBe bytes.reverse ∧ ofBe bytes.reverse < 256 ^ 31 := by
  have hlen : bytes.reverse.length ≤ 31 := by rwa [List.length_reverse]
  have hlt := (ofBe_lt bytes.reverse).trans_le (Nat.pow_le_pow_right (by decide : 0 < 256) hlen)
  exact ⟨Nat.mod_eq_of_lt (hlt.trans (by decide)), hlt⟩

theorem toLe_leaf (h : bytes.length ≤ 31) :
    toLe 31 (fromLeBytesModOrder bytes).val = bytes ++ List.replicate (31 - bytes.length) 0 := by
  rw [(fromLeBytesModOrder_val h).1, toLe, toBe_ofBe_of_le (by rwa [List.length_reverse])]
  simp

theorem unpack_chunks {fuel : ℕ} (h : bytes.length ≤ fuel) :
    unpack ((chunks fuel bytes).map fromLeBytesModOrder) =
      bytes ++ List.replicate (31 * ((bytes.length + 30) / 31) - bytes.length) 0 := by
  induction fuel generalizing bytes with
  | zero =>
    rw [List.length_eq_zero_iff.mp (Nat.le_zero.mp h)]
    rfl
  | succ fuel ih =>
    unfold chunks
    split_ifs with hnil
    · rw [hnil]
      rfl
    have hpos := List.length_pos_iff.mpr hnil
    have hrest := @ih (bytes.drop 31) (by rw [List.length_drop]; omega)
    have hleaf := @toLe_leaf (bytes.take 31) (List.length_take_le _ _)
    simp only [unpack, List.map_cons, List.flatMap_cons, bytesPerLeaf] at hrest ⊢
    rw [hleaf, hrest, List.length_take, List.length_drop]
    by_cases hle : bytes.length ≤ 31
    · rw [List.take_of_length_le hle, List.drop_of_length_le hle, Nat.min_eq_right hle,
        show (bytes.length + 30) / 31 = 1 by omega, Nat.sub_eq_zero_of_le hle]
      simp
    · have hzeros : 31 * ((bytes.length - 31 + 30) / 31) - (bytes.length - 31) =
          31 * ((bytes.length + 30) / 31) - bytes.length := by omega
      rw [Nat.min_eq_left (by omega), Nat.sub_self, List.replicate_zero, List.append_nil,
        ← List.append_assoc, List.take_append_drop, hzeros]

theorem unpack_packBytes (bytes : Bytes) : unpack (packBytes bytes) = padded bytes := by
  unfold packBytes
  split_ifs with hnil
  · rw [hnil]
    decide
  · have hpos := List.length_pos_iff.mpr hnil
    rw [unpack_chunks le_rfl, padded, max_eq_right (by omega)]

theorem mem_chunks {fuel : ℕ} {chunk : Bytes} (h : chunk ∈ chunks fuel bytes) :
    chunk.length ≤ 31 := by
  induction fuel generalizing bytes with
  | zero => cases h
  | succ fuel ih =>
    unfold chunks at h
    split_ifs at h
    · cases h
    rcases List.mem_cons.mp h with rfl | h
    · exact List.length_take_le _ _
    · exact ih h

theorem packBytes_lt (bytes : Bytes) : ∀ f ∈ packBytes bytes, f.val < 256 ^ 31 := by
  unfold packBytes
  split_ifs
  · simp
  · refine List.forall_mem_map.mpr fun chunk hchunk => ?_
    obtain ⟨hval, hlt⟩ := fromLeBytesModOrder_val (mem_chunks hchunk)
    exact hval ▸ hlt

theorem packBytes_eq_iff {a b : Bytes} : packBytes a = packBytes b ↔ padded a = padded b := by
  rw [← unpack_packBytes, ← unpack_packBytes]
  refine ⟨congrArg unpack, fun h => ?_⟩
  have hleaf : Unambiguous (fun f : Fr => f.val < 256 ^ 31) fun f => toLe 31 f.val :=
    (Unambiguous.toLe 31).comap fun _ _ => Fin.ext
  refine hleaf.flatMap_inj (fun f hf => ?_) (packBytes_lt a) (packBytes_lt b) h
  simpa [toLe] using congrArg List.length hf

/-- Two files have one commitment just if they are the same up to zero bytes at the end of the last
leaf. -/
theorem data_commit_binding (poseidonHash : List Fr → Fr) (a b : Bytes)
    (hinj : Set.InjOn poseidonHash {spongeInputs (packBytes a), spongeInputs (packBytes b)}) :
    (computeDataCommit poseidonHash a = computeDataCommit poseidonHash b ↔ padded a = padded b) ∧
      (a.length = b.length →
        computeDataCommit poseidonHash a = computeDataCommit poseidonHash b → a = b) := by
  have hiff : computeDataCommit poseidonHash a = computeDataCommit poseidonHash b ↔
      padded a = padded b := by
    rw [← packBytes_eq_iff]
    refine ⟨fun h => ?_, fun h => by rw [computeDataCommit, h, computeDataCommit]⟩
    have hfr : ∀ f : Fr, f.val < 256 ^ 32 := fun f => f.isLt.trans (by decide)
    have hhash := Fin.ext (toBe_inj (hfr _) (hfr _) h)
    exact (List.cons.inj (List.cons.inj (hinj (.inl rfl) (.inr rfl) hhash)).2).2
  exact ⟨hiff, fun hlen h => (List.append_inj (hiff.mp h) hlen).1⟩

theorem data_commit_binding_bytes :
    let hash : List Fr → Fr := fun l => l.getD 2 0
    computeDataCommit hash [1] = computeDataCommit hash [2] ↔ padded [1] = padded [2] :=
  (data_commit_binding _ [1] [2] (by
    rintro _ (rfl | rfl) _ (rfl | rfl) h
    all_goals first | rfl | exact absurd h (by decide))).1

theorem data_commit_zero_byte :
    ¬∀ (poseidonHash : List Fr → Fr) (a b : Bytes),
      Set.InjOn poseidonHash {spongeInputs (packBytes a), spongeInputs (packBytes b)} →
      computeDataCommit poseidonHash a = computeDataCommit poseidonHash b → a = b := by
  intro h
  have hpack : packBytes [1] = packBytes [1, 0] := by decide
  refine absurd (h (fun _ => 0) [1] [1, 0] ?_ ?_) (by decide)
  · rw [hpack]
    simp
  · rw [computeDataCommit, hpack, computeDataCommit]

end CitrateChain.Commd
