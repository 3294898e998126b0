import CitrateChain.Base.Layout

/-! # RLP

The recursive length prefix encoding of byte strings and of lists, as the `rlp` streams write it, and
that it can be read back: every encoding shorter than 2 ^ 64 bytes ends where its length header says. -/
namespace CitrateChain.Rlp
open Bytes UInt8

def lengthBytes (n : ℕ) : Bytes := toBe (Nat.log2 n / 8 + 1) n

/-- A length header: one byte below 56, else the number of length bytes and the length. -/
def header (base : ℕ) (n : ℕ) : Bytes :=
  if n < 56 then [ofNat (base + n)]
  else ofNat (base + 55 + (lengthBytes n).length) :: lengthBytes n

def encodeBytes : Bytes → Bytes
  | [b] => if b < 128 then [b] else header 128 1 ++ [b]
  | bs => header 128 bs.length ++ bs

def encodeList (items : List Bytes) : Bytes :=
  let payload := items.flatMap encodeBytes
  header 192 payload.length ++ payload

def encodePayload (payload : Bytes) : Bytes := header 192 payload.length ++ payload

variable {base m n : ℕ}

theorem lt_pow_lengthBytes (n : ℕ) : n < 256 ^ (lengthBytes n).length := by
  have hlog : n < 2 ^ (Nat.log2 n + 1) := Nat.lt_log2_self
  have hle : 2 ^ (Nat.log2 n + 1) ≤ 2 ^ (8 * (Nat.log2 n / 8 + 1)) :=
    Nat.pow_le_pow_right (by decide) (by omega)
  rw [lengthBytes, toBe_length]
  calc n < 2 ^ (8 * (Nat.log2 n / 8 + 1)) := hlog.trans_le hle
    _ = 256 ^ (Nat.log2 n / 8 + 1) := two_pow_eq _

theorem lengthBytes_length (hn : n < 2 ^ 64) : 1 ≤ (lengthBytes n).length ∧ (lengthBytes n).length ≤ 8 := by
  have hlog : Nat.log2 n < 64 := by
    by_cases h0 : n = 0
    · subst h0
      decide
    · exact (Nat.log2_lt h0).mpr hn
  rw [lengthBytes, toBe_length]
  omega

theorem lengthBytes_inj (hlen : (lengthBytes m).length = (lengthBytes n).length)
    (h : lengthBytes m = lengthBytes n) : m = n := by
  have hm := lt_pow_lengthBytes m
  have hn := lt_pow_lengthBytes n
  rw [← hlen] at hn
  have hw : Nat.log2 n / 8 + 1 = Nat.log2 m / 8 + 1 := by
    rw [lengthBytes, lengthBytes, toBe_length, toBe_length] at hlen
    exact hlen.symm
  unfold lengthBytes at h
  rw [hw] at h
  rw [lengthBytes, toBe_length] at hm hn
  exact toBe_inj hm hn h

theorem toNat_ofNat_of_lt {k : ℕ} (hk : k < 256) : (ofNat k).toNat = k := by
  rw [toNat_ofNat']
  exact Nat.mod_eq_of_lt hk

theorem header_head (hbase : base ≤ 192) (hn : n < 2 ^ 64) : ∃ x rest, header base n = x :: rest ∧
    base ≤ x.toNat ∧ x.toNat < base + 64 := by
  obtain ⟨hlow, hhigh⟩ := lengthBytes_length hn
  unfold header
  split_ifs with h
  all_goals
    refine ⟨_, _, rfl, ?_⟩
    rw [toNat_ofNat_of_lt (by omega)]
    omega

theorem header_unambiguous (hbase : base ≤ 192) : Unambiguous (· < 2 ^ 64) (header base) := by
  intro m n s t hm hn he
  obtain ⟨hm1, hm8⟩ := lengthBytes_length hm
  obtain ⟨hn1, hn8⟩ := lengthBytes_length hn
  unfold header at he
  split_ifs at he with h1 h2 h2
  all_goals
    obtain ⟨hx, hrest⟩ := List.cons.inj he
    have := congrArg toNat hx
    rw [toNat_ofNat_of_lt (by omega), toNat_ofNat_of_lt (by omega)] at this
  · exact ⟨by omega, hrest⟩
  · omega
  · omega
  · have hlen : (lengthBytes m).length = (lengthBytes n).length := by omega
    obtain ⟨hbytes, hst⟩ := List.append_inj hrest hlen
    exact ⟨lengthBytes_inj hlen hbytes, hst⟩

theorem header_ne_nil (base n : ℕ) : header base n ≠ [] := by
  unfold header
  split_ifs <;> exact List.cons_ne_nil _ _

theorem length_le_encodePayload (p : Bytes) : p.length ≤ (encodePayload p).length := by
  rw [encodePayload, List.length_append]
  omega

theorem framed_unambiguous (hbase : base ≤ 192) : Unambiguous (fun bs : Bytes => bs.length < 2 ^ 64)
    fun bs => header base bs.length ++ bs := by
  intro a b s t ha hb he
  rw [List.append_assoc, List.append_assoc] at he
  obtain ⟨hlen, he⟩ := header_unambiguous hbase ha hb he
  exact List.append_inj he hlen

theorem encodePayload_unambiguous :
    Unambiguous (fun p : Bytes => p.length < 2 ^ 64) encodePayload := framed_unambiguous le_rfl

theorem length_header_mono (h : m ≤ n) : (header base m).length ≤ (header base n).length := by
  have hlog : Nat.log2 m ≤ Nat.log2 n := by
    rcases Nat.eq_zero_or_pos m with rfl | hm
    · exact Nat.zero_le _
    · exact (Nat.le_log2 (by omega)).mpr ((Nat.log2_self_le (by omega)).trans h)
  unfold header
  split_ifs
  · exact le_rfl
  · exact Nat.succ_le_succ (Nat.zero_le _)
  · omega
  · simp only [lengthBytes, List.length_cons, toBe_length]
    omega

theorem encodePayload_inj {p q : Bytes} (h : encodePayload p = encodePayload q) : p = q := by
  have hsum := congrArg List.length h
  simp only [encodePayload, List.length_append] at hsum
  have hlen : p.length = q.length := by
    rcases le_total p.length q.length with hle | hle
    all_goals
      have := @length_header_mono 192 _ _ hle
      omega
  rw [encodePayload, encodePayload, hlen] at h
  exact List.append_cancel_left h

theorem encodeBytes_cases (bs : Bytes) : (∃ b, b < 128 ∧ bs = [b] ∧ encodeBytes bs = [b]) ∨
    encodeBytes bs = header 128 bs.length ++ bs := by
  unfold encodeBytes
  split
  · rename_i b
    split_ifs with hb
    · exact Or.inl ⟨b, hb, rfl, rfl⟩
    · exact Or.inr rfl
  · exact Or.inr rfl

theorem small_ne_header {b : UInt8} {s t : Bytes} (hb : b < 128) (hn : n < 2 ^ 64) :
    [b] ++ s ≠ header 128 n ++ t := by
  intro he
  obtain ⟨x, rest, hx, hlow, -⟩ := header_head (by decide : 128 ≤ 192) hn
  rw [hx] at he
  have hbx : b = x := (List.cons.inj he).1
  have := lt_iff_toNat_lt.mp hb
  rw [hbx] at this
  exact absurd this (by simpa using hlow)

theorem encodeBytes_unambiguous :
    Unambiguous (fun bs : Bytes => bs.length < 2 ^ 64) encodeBytes := by
  intro a b s t ha hb he
  rcases encodeBytes_cases a with ⟨x, hx, rfl, hax⟩ | hax <;>
    rcases encodeBytes_cases b with ⟨y, hy, rfl, hby⟩ | hby <;> rw [hax, hby] at he
  · exact List.append_inj he rfl
  · rw [List.append_assoc] at he
    exact absurd he (small_ne_header hx hb)
  · rw [List.append_assoc] at he
    exact absurd he.symm (small_ne_header hy ha)
  · exact framed_unambiguous (by omega) ha hb he

theorem encodeBytes_ne_nil (bs : Bytes) : encodeBytes bs ≠ [] := by
  rcases encodeBytes_cases bs with ⟨b, -, -, h⟩ | h
  · rw [h]
    exact List.cons_ne_nil _ _
  · rw [h]
    exact List.append_ne_nil_of_left_ne_nil (header_ne_nil _ _) _

theorem length_le_encodeBytes (bs : Bytes) : bs.length ≤ (encodeBytes bs).length := by
  rcases encodeBytes_cases bs with ⟨b, -, rfl, h⟩ | h
  · rw [h]
  · rw [h, List.length_append]
    omega

/-- A number of `w` bytes without leading zeros; zero is the empty string. -/
def encodeUint (w n : ℕ) : Bytes := encodeBytes (trim (toBe w n))

theorem encodeUint_unambiguous {w : ℕ} (hw : w < 2 ^ 64) : Unambiguous (· < 256 ^ w) (encodeUint w) := by
  intro m n s t hm hn he
  have hlen : ∀ k, (trim (toBe w k)).length < 2 ^ 64 := fun k =>
    ((length_trim_le _).trans_eq (toBe_length w k)).trans_lt hw
  obtain ⟨htrim, hst⟩ := encodeBytes_unambiguous (hlen m) (hlen n) he
  exact ⟨trim_toBe_inj hm hn htrim, hst⟩

theorem encodeUint_u64 : Unambiguous (fun _ : UInt64 => True) fun x => encodeUint 8 x.toNat := by
  intro x y s t _ _ he
  obtain ⟨hxy, hst⟩ := encodeUint_unambiguous (by decide) (x.toNat_lt) (y.toNat_lt) he
  exact ⟨UInt64.toNat_inj.mp hxy, hst⟩

variable {α : Type*} {ok : α → Prop} {encode : α → Bytes}

theorem length_le_flatMap {l : List α} {a : α} (ha : a ∈ l) :
    (encode a).length ≤ (l.flatMap encode).length := by
  obtain ⟨l₁, l₂, rfl⟩ := List.append_of_mem ha
  simp only [List.flatMap_append, List.flatMap_cons, List.length_append]
  omega

theorem items_unambiguous (h : Unambiguous ok encode) (hne : ∀ a, encode a ≠ []) :
    Unambiguous (fun l : List α => (∀ a ∈ l, ok a) ∧ (l.flatMap encode).length < 2 ^ 64)
      fun l => encodePayload (l.flatMap encode) := by
  intro l m s t ⟨hl, hlen⟩ ⟨hm, hlen'⟩ he
  obtain ⟨hpay, hst⟩ := encodePayload_unambiguous hlen hlen' he
  exact ⟨h.flatMap_inj hne hl hm hpay, hst⟩

theorem length_le_encodeList {items : List Bytes} {bs : Bytes} (h : bs ∈ items) :
    bs.length ≤ (encodeList items).length :=
  (length_le_encodeBytes bs).trans ((length_le_flatMap h).trans (length_le_encodePayload _))

theorem encodeList_inj {items items' : List Bytes} (hlen : (encodeList items).length < 2 ^ 64)
    (h : encodeList items = encodeList items') : items = items' := by
  have hlen' : (encodeList items').length < 2 ^ 64 := h ▸ hlen
  have hpay : ∀ {l : List Bytes}, (encodeList l).length < 2 ^ 64 →
      (∀ bs ∈ l, bs.length < 2 ^ 64) ∧ (l.flatMap encodeBytes).length < 2 ^ 64 := fun hl =>
    ⟨fun _ hbs => (length_le_encodeList hbs).trans_lt hl, (length_le_encodePayload _).trans_lt hl⟩
  exact (items_unambiguous encodeBytes_unambiguous encodeBytes_ne_nil (hpay hlen) (hpay hlen')
    (congrArg (· ++ []) h)).1

/-- What a decoder asks of an RLP library. Where the items of a list stand and how many there are is
up to the library; what it has to keep is that numbers and byte strings are only read from the encoding
that the writer gives them. -/
structure Reader where
  Error : Type
  debug : Error → String
  custom : String → Error
  isList : Bytes → Bool
  itemCount : Bytes → Except Error ℕ
  payloadInfo : Bytes → Except Error (ℕ × ℕ)
  itemAt : Bytes → ℕ → Except Error Bytes
  bytesAt : Bytes → ℕ → Except Error Bytes
  u64At : Bytes → ℕ → Except Error ℕ
  u256At : Bytes → ℕ → Except Error ℕ
  itemAt_of_bytesAt {bs : Bytes} {index : ℕ} {v : Bytes} :
    bytesAt bs index = .ok v → itemAt bs index = .ok (encodeBytes v)
  itemAt_of_u64At {bs : Bytes} {index n : ℕ} :
    u64At bs index = .ok n → itemAt bs index = .ok (encodeUint 8 n)
  itemAt_of_u256At {bs : Bytes} {index n : ℕ} :
    u256At bs index = .ok n → itemAt bs index = .ok (encodeUint 32 n)
  u64At_lt {bs : Bytes} {index n : ℕ} : u64At bs index = .ok n → n < 2 ^ 64

namespace Reader
variable (r : Reader)

def countOrZero (bs : Bytes) : ℕ := (r.itemCount bs).toOption.getD 0

def item (bs : Bytes) (index : ℕ) : Bytes := (r.itemAt bs index).toOption.getD []

variable {r} {bs item : Bytes} {index n : ℕ}

theorem item_of_itemAt (h : r.itemAt bs index = .ok item) : r.item bs index = item := by
  rw [Reader.item, h]
  rfl

end Reader

theorem encodeUint_of_lt {n w w' : ℕ} (hw : w ≤ w') (hn : n < 256 ^ w) :
    encodeUint w' n = encodeUint w n := by
  have hpad := toBe_ofBe_of_le ((toBe_length w n).trans_le hw)
  rw [ofBe_toBe hn] at hpad
  rw [encodeUint, hpad, trim_zeros_append, encodeUint]

end CitrateChain.Rlp
