import Mathlib.Data.Countable.Basic
import Mathlib.Data.List.Induction
import Mathlib.Tactic.Ring
import Mathlib.Data.List.Basic
import Mathlib.Data.List.TakeWhile

/-! # Byte strings

Fixed-width big-endian encodings of numbers and ASCII texts as byte strings, with the facts that
let a reader of stored bytes recover what was written. -/
namespace CitrateChain
open UInt8

abbrev Bytes := List UInt8

namespace Bytes

def toBe : ℕ → ℕ → Bytes
  | 0, _ => []
  | w + 1, n => toBe w (n / 256) ++ [ofNat n]

def toLe (w n : ℕ) : Bytes := (toBe w n).reverse

def ofBe (bs : Bytes) : ℕ := bs.foldl (fun acc b => acc * 256 + b.toNat) 0

@[simp] theorem toBe_length (w n : ℕ) : (toBe w n).length = w := by
  induction w generalizing n with
  | zero => rfl
  | succ w ih => simp [toBe, ih]

theorem ofBe_concat (bs : Bytes) (b : UInt8) : ofBe (bs ++ [b]) = ofBe bs * 256 + b.toNat := by
  simp [ofBe, List.foldl_append]

theorem ofBe_toBe {w n : ℕ} (h : n < 256 ^ w) : ofBe (toBe w n) = n := by
  induction w generalizing n with
  | zero => simp at h; simp [toBe, ofBe, h]
  | succ w ih =>
    have hq : n / 256 < 256 ^ w := by
      rw [pow_succ] at h
      omega
    have hb : (ofNat n).toNat = n % 256 := by simp
    rw [toBe, ofBe_concat, ih hq, hb]
    omega

theorem toBe_inj {w m n : ℕ} (hm : m < 256 ^ w) (hn : n < 256 ^ w) (h : toBe w m = toBe w n) :
    m = n := by
  rw [← ofBe_toBe hm, ← ofBe_toBe hn, h]

theorem ofBe_lt (bs : Bytes) : ofBe bs < 256 ^ bs.length := by
  induction bs using List.reverseRecOn with
  | nil => exact Nat.one_pos
  | append_singleton bs b ih =>
    have hb := b.toNat_lt
    rw [ofBe_concat, List.length_append, List.length_singleton, pow_succ]
    omega

theorem toBe_ofBe (bs : Bytes) : toBe bs.length (ofBe bs) = bs := by
  induction bs using List.reverseRecOn with
  | nil => rfl
  | append_singleton bs b ih =>
    have hb := b.toNat_lt
    have hdiv : ofBe (bs ++ [b]) / 256 = ofBe bs := by
      rw [ofBe_concat]
      omega
    have hbyte : UInt8.ofNat (ofBe (bs ++ [b])) = b := by
      rw [ofBe_concat, ← UInt8.toNat_inj, UInt8.toNat_ofNat']
      omega
    rw [List.length_append, List.length_singleton, toBe, hdiv, ih, hbyte]

theorem ofBe_cons_zero (bs : Bytes) : ofBe (0 :: bs) = ofBe bs := rfl

def trim (bs : Bytes) : Bytes := bs.dropWhile (· == 0)

theorem ofBe_zeros_append (k : ℕ) (bs : Bytes) : ofBe (List.replicate k 0 ++ bs) = ofBe bs := by
  induction k with
  | zero => rfl
  | succ k ih => rw [List.replicate_succ, List.cons_append, ofBe_cons_zero, ih]

theorem trim_zeros_append (k : ℕ) (bs : Bytes) : trim (List.replicate k 0 ++ bs) = trim bs := by
  induction k with
  | zero => rfl
  | succ k ih =>
    rw [List.replicate_succ, List.cons_append, trim, List.dropWhile_cons_of_pos rfl]
    exact ih

theorem trim_of_head {bs : Bytes} (h : bs.head? ≠ some 0) : trim bs = bs := by
  cases bs with
  | nil => rfl
  | cons b t =>
    refine List.dropWhile_cons_of_neg ?_
    simpa using h

theorem toBe_ofBe_of_le {w : ℕ} {bs : Bytes} (h : bs.length ≤ w) :
    toBe w (ofBe bs) = List.replicate (w - bs.length) 0 ++ bs := by
  have hlen : (List.replicate (w - bs.length) 0 ++ bs).length = w := by
    rw [List.length_append, List.length_replicate]
    omega
  have h := toBe_ofBe (List.replicate (w - bs.length) 0 ++ bs)
  rwa [hlen, ofBe_zeros_append] at h

theorem ofBe_trim (bs : Bytes) : ofBe (trim bs) = ofBe bs := by
  induction bs with
  | nil => rfl
  | cons b bs ih =>
    by_cases hb : b = 0
    · subst hb
      rw [ofBe_cons_zero, ← ih]
      rfl
    · rw [trim, List.dropWhile_cons_of_neg (by simpa using hb)]

theorem trim_toBe_inj {w m n : ℕ} (hm : m < 256 ^ w) (hn : n < 256 ^ w)
    (h : trim (toBe w m) = trim (toBe w n)) : m = n := by
  rw [← ofBe_toBe hm, ← ofBe_toBe hn, ← ofBe_trim, h, ofBe_trim]

theorem trim_inj {bs cs : Bytes} (hlen : bs.length = cs.length) (h : trim bs = trim cs) : bs = cs := by
  have hzeros : ∀ ds : Bytes, ds.takeWhile (· == 0) =
      List.replicate (ds.length - (trim ds).length) 0 := by
    intro ds
    have hsplit := congrArg List.length (List.takeWhile_append_dropWhile (p := (· == 0)) (l := ds))
    rw [List.length_append] at hsplit
    refine List.eq_replicate_iff.mpr ⟨?_, fun b hb => by simpa using List.mem_takeWhile_imp hb⟩
    rw [trim]
    omega
  rw [← List.takeWhile_append_dropWhile (p := (· == 0)) (l := bs),
    ← List.takeWhile_append_dropWhile (p := (· == 0)) (l := cs), hzeros, hzeros, h, hlen]
  exact congrArg _ h

theorem length_trim_le (bs : Bytes) : (trim bs).length ≤ bs.length :=
  (List.dropWhile_sublist _).length_le

theorem two_pow_eq (w : ℕ) : 2 ^ (8 * w) = 256 ^ w := by
  rw [pow_mul]
  norm_num

theorem toNat_lt (w : Nat) (x : BitVec (8 * w)) : x.toNat < 256 ^ w :=
  x.isLt.trans_eq (two_pow_eq w)

def ascii (s : List Char) : Bytes := s.map fun c => ofNat c.toNat

theorem ascii_inj {s t : List Char} (hs : ∀ c ∈ s, c.toNat < 256) (ht : ∀ c ∈ t, c.toNat < 256)
    (h : ascii s = ascii t) : s = t := by
  induction s generalizing t with
  | nil =>
    cases t with
    | nil => rfl
    | cons d t => simp [ascii] at h
  | cons c s ih =>
    cases t with
    | nil => simp [ascii] at h
    | cons d t =>
      obtain ⟨hc, hs⟩ := List.forall_mem_cons.mp hs
      obtain ⟨hd, ht⟩ := List.forall_mem_cons.mp ht
      obtain ⟨hcd, hst⟩ : ofNat c.toNat = ofNat d.toNat ∧ ascii s = ascii t := by
        simpa only [ascii, List.map_cons, List.cons.injEq] using h
      have hn : c.toNat = d.toNat := by
        have := congrArg toNat hcd
        simp only [toNat_ofNat'] at this
        omega
      rw [Char.toNat_inj.mp hn, ih hs ht hst]

theorem decimal_toNat_lt {n : ℕ} {c : Char} (h : c ∈ Nat.toDigits 10 n) : c.toNat < 58 :=
  Nat.lt_succ_of_le
    (Char.isDigit_iff_toNat.mp (Nat.isDigit_of_mem_toDigits (by omega) (by omega) h)).2

theorem decimal_inj {m n : ℕ} (h : Nat.toDigits 10 m = Nat.toDigits 10 n) : m = n := by
  rw [← Nat.ofDigitChars_ten_toDigits (n := m), h, Nat.ofDigitChars_ten_toDigits]

def hexDigit (n : ℕ) : Char := "0123456789abcdef".toList.getD n '0'

def hexEncode (bs : Bytes) : String :=
  String.ofList (bs.flatMap fun b => [hexDigit (b.toNat / 16), hexDigit (b.toNat % 16)])

end Bytes

/-- An encoding that a reader undoes. -/
structure Codec (α : Type) where
  encode : α → Bytes
  decode : Bytes → Option α
  decode_encode : ∀ a, decode (encode a) = some a

instance countableUInt8 : Countable UInt8 := Function.Injective.countable fun _ _ h => UInt8.toNat.inj h

instance countableUInt32 : Countable UInt32 :=
  Function.Injective.countable fun _ _ h => UInt32.toNat.inj h

instance countableUInt64 : Countable UInt64 :=
  Function.Injective.countable fun _ _ h => UInt64.toNat.inj h

instance countableBitVec {w : ℕ} : Countable (BitVec w) :=
  Function.Injective.countable fun _ _ h => BitVec.eq_of_toNat_eq h

theorem Codec.exists_of_countable (α : Type) [Countable α] : Nonempty (Codec α) := by
  classical
  obtain ⟨f, hf⟩ := exists_injective_nat α
  let decode (bs : Bytes) : Option α := if h : ∃ a, f a = bs.length then some h.choose else none
  refine ⟨⟨fun a => List.replicate (f a) 0, decode, ?_⟩⟩
  intro a
  have hex : ∃ a', f a' = (List.replicate (f a) (0 : UInt8)).length := ⟨a, by simp⟩
  have hchoose : f hex.choose = f a := hex.choose_spec.trans List.length_replicate
  simp only [decode, dif_pos hex, hf hchoose]

end CitrateChain
