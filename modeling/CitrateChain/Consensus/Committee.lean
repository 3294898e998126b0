import Mathlib.Data.Finset.Card
import Mathlib.Data.List.Sort
import Mathlib.Data.Nat.Sqrt
import CitrateChain.Consensus.Checkpoint

/-! # Committee selection

`CommitteeSelector::select`: validators are scored from the seed, their key and the height,
weighted by the square root of their stake, and the lowest scores form the committee. SHA-256 is
the parameter `sha256`. -/
namespace CitrateChain.Consensus.Committee
open Bytes

def u128Max : ℕ := 2 ^ 128 - 1

def newtonNext (n x : ℕ) : ℕ := min (x + n / x) u128Max / 2

/-- The Newton loop. Each round but the last lowers `x`, so `fuel = x` rounds are enough. -/
def newtonLoop (n : ℕ) : ℕ → ℕ → ℕ
  | 0, x => x
  | fuel + 1, x => if x ≤ newtonNext n x then x else newtonLoop n fuel (newtonNext n x)

/-- `integer_sqrt_u128`, from the first estimate `2 ^ ceil(bits / 2)`. -/
def integerSqrtU128 (n : ℕ) : ℕ :=
  if n = 0 then 0
  else
    let bits := Nat.log2 n + 1
    let x := 2 ^ ((bits + 1) / 2)
    newtonLoop n x x

inductive Estimate (n : ℕ) : ℕ → Prop
  | first : Estimate n (2 ^ ((Nat.log2 n + 1 + 1) / 2))
  | next {x : ℕ} : Estimate n x → newtonNext n x < x → Estimate n (newtonNext n x)

section Newton
variable {n x fuel : ℕ}

section

variable (hx : 0 < x) (hr : n.sqrt ≤ x)
include hx hr

theorem add_div_le : x + n / x ≤ 2 * x + 2 := by
  have hlt : n < (x + 1) * (x + 1) := Nat.sqrt_lt.mp (Nat.lt_succ_of_le hr)
  have hdiv : n / x < x + 3 := by
    rw [Nat.div_lt_iff_lt_mul hx]
    refine hlt.trans_le ?_
    ring_nf
    omega
  omega

theorem sqrt_le_newtonNext (hlt : x ≤ 2 ^ 64) : n.sqrt ≤ newtonNext n x := by
  -- the tangent at `x` lies below the parabola
  have hdiv : 2 * n.sqrt - x ≤ n / x := by
    rw [Nat.le_div_iff_mul_le hx]
    refine le_trans ?_ (Nat.sqrt_le n)
    obtain ⟨d, rfl⟩ := Nat.exists_eq_add_of_le hr
    rw [show 2 * n.sqrt - (n.sqrt + d) = n.sqrt - d by omega, Nat.mul_comm]
    exact (Nat.mul_self_sub_mul_self_eq n.sqrt d).symm.le.trans (Nat.sub_le _ _)
  have := add_div_le hx hr
  unfold newtonNext u128Max
  omega

theorem eq_sqrt_of_converged (h : x ≤ newtonNext n x) : x = n.sqrt := by
  refine le_antisymm ?_ hr
  have hdiv : x ≤ n / x := by
    unfold newtonNext at h
    omega
  exact Nat.le_sqrt.mpr ((Nat.le_div_iff_mul_le hx).mp hdiv)

end

theorem Estimate.bounds (hn : n < 2 ^ 128) (h0 : n ≠ 0) (h : Estimate n x) :
    0 < x ∧ n.sqrt ≤ x ∧ x ≤ 2 ^ 64 := by
  induction h with
  | first =>
    have hlog : Nat.log2 n < 128 := (Nat.log2_lt h0).mpr hn
    refine ⟨Nat.two_pow_pos _, ?_, Nat.pow_le_pow_right (by omega) (by omega)⟩
    refine (Nat.sqrt_lt.mpr ?_).le
    rw [← pow_add]
    exact Nat.lt_log2_self.trans_le (Nat.pow_le_pow_right (by omega) (by omega))
  | next _ hlt ih =>
    obtain ⟨hx, hr, hle⟩ := ih
    have hnext := sqrt_le_newtonNext hx hr hle
    exact ⟨(Nat.sqrt_pos.mpr (Nat.pos_of_ne_zero h0)).trans_le hnext, hnext, by omega⟩

theorem newtonLoop_converges (h : Estimate n x) (hfuel : x ≤ fuel) (h0 : ∀ y, Estimate n y → 0 < y) :
    Estimate n (newtonLoop n fuel x) ∧ newtonLoop n fuel x ≤ newtonNext n (newtonLoop n fuel x) := by
  induction fuel generalizing x with
  | zero => exact absurd (h0 x h) (by omega)
  | succ fuel ih =>
    unfold newtonLoop
    split_ifs with hle
    · exact ⟨h, hle⟩
    · exact ih (.next h (by omega)) (by omega)

theorem integerSqrtU128_converged (hn : n < 2 ^ 128) (h0 : n ≠ 0) : Estimate n (integerSqrtU128 n) ∧
    integerSqrtU128 n ≤ newtonNext n (integerSqrtU128 n) := by
  rw [show integerSqrtU128 n = newtonLoop n _ _ from if_neg h0]
  exact newtonLoop_converges .first le_rfl fun y hy => (hy.bounds hn h0).1

theorem integerSqrtU128_eq_sqrt (hn : n < 2 ^ 128) : integerSqrtU128 n = n.sqrt := by
  by_cases h0 : n = 0
  · subst h0
    rfl
  obtain ⟨hest, hdone⟩ := integerSqrtU128_converged hn h0
  obtain ⟨hpos, hle, -⟩ := hest.bounds hn h0
  exact eq_sqrt_of_converged hpos hle hdone

/-- The loop ends, with the exact root, and no sum that it forms reaches `2 ^ 128`. -/
theorem integerSqrtU128_exact (n : ℕ) (hn : n < 2 ^ 128) :
    (integerSqrtU128 n ^ 2 ≤ n ∧ n < (integerSqrtU128 n + 1) ^ 2) ∧
      (n ≠ 0 → Estimate n (integerSqrtU128 n) ∧ integerSqrtU128 n ≤ newtonNext n (integerSqrtU128 n) ∧
        ∀ x, Estimate n x → 0 < x ∧ x + n / x < 2 ^ 128) := by
  refine ⟨Nat.eq_sqrt'.mp (integerSqrtU128_eq_sqrt hn), fun h0 => ?_⟩
  obtain ⟨hest, hdone⟩ := integerSqrtU128_converged hn h0
  refine ⟨hest, hdone, fun x hx => ?_⟩
  obtain ⟨hpos, hle, hmax⟩ := hx.bounds hn h0
  have := add_div_le hpos hle
  exact ⟨hpos, by omega⟩

theorem integerSqrtU128_exact_max :
    integerSqrtU128 (2 ^ 128 - 1) ^ 2 ≤ 2 ^ 128 - 1 ∧
      2 ^ 128 - 1 < (integerSqrtU128 (2 ^ 128 - 1) + 1) ^ 2 :=
  (integerSqrtU128_exact (2 ^ 128 - 1) (by decide)).1

end Newton

def hashVal (digest : Bytes) : UInt64 :=
  if 8 ≤ digest.length then UInt64.ofNat (ofBe (digest.take 8)) else 0

def preimage (checkpointHeight : UInt64) (vrfSeed : Hash) (pk : PublicKey) : Bytes :=
  vrfSeed.asBytes ++ pk.asBytes ++ toLe 8 checkpointHeight.toNat

def score (sha256 : Bytes → Bytes) (checkpointHeight : UInt64) (vrfSeed : Hash)
    (v : PublicKey × ℕ) : PublicKey × UInt64 :=
  let digest := sha256 (preimage checkpointHeight vrfSeed v.1)
  let weight := UInt64.ofNat (min (integerSqrtU128 v.2) (UInt64.size - 1))
  (v.1, hashVal digest * max weight 1)

def scoreLe (a b : PublicKey × UInt64) : Prop := a.2 < b.2 ∨ (a.2 = b.2 ∧ a.1 ≤ b.1)

instance (a b : PublicKey × UInt64) : Decidable (scoreLe a b) :=
  inferInstanceAs (Decidable (_ ∨ _))

def select (sha256 : Bytes → Bytes) (validators : List (PublicKey × ℕ)) (checkpointHeight : UInt64)
    (vrfSeed : Hash) (committeeSize : ℕ) : List PublicKey :=
  if validators.isEmpty then []
  else
    (((validators.map (score sha256 checkpointHeight vrfSeed)).insertionSort scoreLe).take
      (min committeeSize validators.length)).map Prod.fst

variable {sha256 : Bytes → Bytes} {validators : List (PublicKey × ℕ)} {height : UInt64}
variable {seed : Hash} {committeeSize : ℕ}

/-- The validators by score, then by key: the committee is a prefix of this list. -/
def scored (sha256 : Bytes → Bytes) (validators : List (PublicKey × ℕ)) (height : UInt64)
    (seed : Hash) : List (PublicKey × UInt64) :=
  (validators.map (score sha256 height seed)).insertionSort scoreLe

variable (sha256 validators height seed) in
theorem scored_perm : (scored sha256 validators height seed).Perm
    (validators.map (score sha256 height seed)) :=
  List.perm_insertionSort scoreLe _

variable (sha256 validators height seed) in
theorem scored_keys :
    ((scored sha256 validators height seed).map Prod.fst).Perm (validators.map Prod.fst) := by
  simpa [score, Function.comp_def] using (scored_perm sha256 validators height seed).map Prod.fst

theorem select_eq : select sha256 validators height seed committeeSize =
    ((scored sha256 validators height seed).take (min committeeSize validators.length)).map
      Prod.fst := by
  unfold select
  split
  · rename_i h
    simp [List.isEmpty_iff.mp h]
  · rfl

theorem select_perm (hsize : validators.length ≤ committeeSize) :
    (select sha256 validators height seed committeeSize).Perm (validators.map Prod.fst) := by
  rw [select_eq, min_eq_right hsize, List.take_of_length_le (by simp [scored])]
  exact scored_keys sha256 validators height seed

/-- The validator set that governs a height: distinct keys, and a `Vec` of 48-byte entries never
takes more than `isize::MAX` bytes. -/
structure EpochSet where
  validators : List (PublicKey × ℕ)
  nodup : (validators.map Prod.fst).Nodup
  fits : validators.length * 48 < 2 ^ 63

namespace EpochSet

def keys (V : EpochSet) : List PublicKey := V.validators.map Prod.fst

def size (V : EpochSet) : ℕ := V.validators.length

theorem keys_length (V : EpochSet) : V.keys.length = V.size := by
  simp [keys, size]

theorem card_keys (V : EpochSet) : V.keys.toFinset.card = V.size :=
  (List.toFinset_card_of_nodup V.nodup).trans V.keys_length

theorem derivedQuorum_size (V : EpochSet) : derivedQuorum V.size = V.size * 2 / 3 + 1 := by
  have hf : V.size * 48 < 2 ^ 63 := V.fits
  unfold derivedQuorum usizeMax
  omega

end EpochSet

theorem mem_take_iff_countP {α : Type*} {f : α → ℕ} {l : List α} {x : α}
    (hl : l.Pairwise fun a b => f a < f b) (hx : x ∈ l) (k : ℕ) :
    x ∈ l.take k ↔ l.countP (fun y => f y < f x) < k := by
  induction l generalizing k with
  | nil => cases hx
  | cons a l ih =>
    obtain ⟨ha, hl⟩ := List.pairwise_cons.mp hl
    cases k with
    | zero => simp
    | succ k =>
      rcases List.mem_cons.mp hx with rfl | hx
      · have hnone : l.countP (fun y => f y < f x) = 0 := by
          simpa using fun b hb => (ha b hb).le
        simp [hnone]
      · have hne : x ≠ a := fun h => (ha x hx).ne (congrArg f h.symm)
        simp [hne, ha x hx, ih hl hx]

def rank (a : PublicKey × UInt64) : ℕ := a.2.toNat * 2 ^ 256 + a.1.toNat

variable {a b : PublicKey × UInt64}

theorem scoreLe_iff : scoreLe a b ↔ rank a ≤ rank b := by
  have ha : a.1.toNat < 2 ^ 256 := a.1.isLt
  have hb : b.1.toNat < 2 ^ 256 := b.1.isLt
  simp only [scoreLe, rank, UInt64.lt_iff_toNat_lt, BitVec.le_def, ← UInt64.toNat_inj]
  omega

theorem rank_inj (h : rank a = rank b) : a = b := by
  have ha : a.1.toNat < 2 ^ 256 := a.1.isLt
  have hb : b.1.toNat < 2 ^ 256 := b.1.isLt
  unfold rank at h
  exact Prod.ext (BitVec.eq_of_toNat_eq (by omega)) (UInt64.toNat_inj.mp (by omega))

instance : Std.Total scoreLe := ⟨fun _ _ => by simpa only [scoreLe_iff] using le_total _ _⟩

instance : IsTrans _ scoreLe := ⟨fun _ _ _ => by simpa only [scoreLe_iff] using le_trans⟩

instance : Std.Antisymm scoreLe :=
  ⟨fun _ _ h h' => rank_inj (le_antisymm (scoreLe_iff.mp h) (scoreLe_iff.mp h'))⟩

theorem scored_sorted : (scored sha256 validators height seed).Pairwise scoreLe :=
  List.pairwise_insertionSort scoreLe _

def ahead (sha256 : Bytes → Bytes) (height : UInt64) (seed : Hash) (others : List (PublicKey × ℕ))
    (v : PublicKey × ℕ) : ℕ :=
  others.countP fun w => rank (score sha256 height seed w) < rank (score sha256 height seed v)

theorem mem_select_iff {l₁ l₂ : List (PublicKey × ℕ)} {pk : PublicKey} {stake : ℕ}
    (hn : ((l₁ ++ (pk, stake) :: l₂).map Prod.fst).Nodup) :
    pk ∈ select sha256 (l₁ ++ (pk, stake) :: l₂) height seed committeeSize ↔
      ahead sha256 height seed (l₁ ++ l₂) (pk, stake) < committeeSize := by
  have hkeys := (scored_keys sha256 _ height seed).nodup_iff.mpr hn
  have hsorted := scored_sorted.imp₂ (fun a b hle hne =>
    (scoreLe_iff.mp hle).lt_of_ne fun h => hne (congrArg Prod.fst (rank_inj h)))
    (List.pairwise_map.mp hkeys)
  have hmem : score sha256 height seed (pk, stake) ∈
      scored sha256 (l₁ ++ (pk, stake) :: l₂) height seed := by
    simp [(scored_perm ..).mem_iff]
  have hcount : (scored sha256 (l₁ ++ (pk, stake) :: l₂) height seed).countP
      (fun y => rank y < rank (score sha256 height seed (pk, stake))) =
      ahead sha256 height seed (l₁ ++ l₂) (pk, stake) := by
    simp [(scored_perm ..).countP_eq, ahead, List.countP_map, Function.comp_def]
  have hshort : ahead sha256 height seed (l₁ ++ l₂) (pk, stake) < (l₁ ++ (pk, stake) :: l₂).length :=
    (List.countP_le_length ..).trans_lt (by simp)
  have htake := mem_take_iff_countP hsorted hmem (min committeeSize (l₁ ++ (pk, stake) :: l₂).length)
  rw [hcount, lt_min_iff, and_iff_left hshort] at htake
  rw [← htake, select_eq, List.mem_map]
  constructor
  · rintro ⟨a, ha, rfl⟩
    rwa [List.inj_on_of_nodup_map hkeys hmem (List.mem_of_mem_take ha) rfl]
  · exact fun h => ⟨_, h, rfl⟩

/-- The first eight bytes of the digest times the root of the stake, in 64 bits. -/
def weighted (digest : Bytes) (stake : ℕ) : ℕ := (hashVal digest).toNat * max stake.sqrt 1 % 2 ^ 64

theorem score_toNat {v : PublicKey × ℕ} (hv : v.2 < 2 ^ 128) :
    (score sha256 height seed v).2.toNat = weighted (sha256 (preimage height seed v.1)) v.2 := by
  have hroot : v.2.sqrt < 2 ^ 64 := Nat.sqrt_lt.mpr (by rwa [← pow_add])
  have hweight : (UInt64.ofNat (min v.2.sqrt (UInt64.size - 1))).toNat = v.2.sqrt := by
    have hmin : min v.2.sqrt (UInt64.size - 1) = v.2.sqrt := min_eq_left (Nat.le_pred_of_lt hroot)
    rw [hmin, UInt64.toNat_ofNat', Nat.mod_eq_of_lt hroot]
  have hmax : ∀ w : UInt64, (max w 1).toNat = max w.toNat 1 := by
    intro w
    rcases le_total w 1 with h | h
    · rw [max_eq_right h]
      exact (max_eq_right (UInt64.le_iff_toNat_le.mp h)).symm
    · rw [max_eq_left h]
      exact (max_eq_left (UInt64.le_iff_toNat_le.mp h)).symm
  rw [score, weighted, integerSqrtU128_eq_sqrt hv, UInt64.toNat_mul, hmax, hweight]

def sampleSha256 (bytes : Bytes) : Bytes :=
  if bytes = preimage 10 0 1 then
    toBe 32 0x48cb03110f4a0ef628e8c5e5ea3610015c1a57da14dbd2b4052c952329bbe977
  else toBe 32 0x86b9af0245d6844c683f4ef8d2f9ba0f10acdf36673e3833ea05719d5f81261b

end CitrateChain.Consensus.Committee
