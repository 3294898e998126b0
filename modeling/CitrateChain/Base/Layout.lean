import CitrateChain.Base.Bytes

/-! # Layouts that can be read back

An encoding is unambiguous when equal byte strings that start with encodings start with encodings of
the same value. Concatenations of such encodings are read back one after the other. -/
namespace CitrateChain
variable {α β : Type*}

/-- Byte strings that agree and start with the encodings of two values encode the same value first. -/
def Unambiguous (ok : α → Prop) (encode : α → Bytes) : Prop :=
  ∀ ⦃a b : α⦄ ⦃s t : Bytes⦄, ok a → ok b → encode a ++ s = encode b ++ t → a = b ∧ s = t

namespace Unambiguous
variable {ok : α → Prop} {encode : α → Bytes}

theorem fixed {w : ℕ} (hlen : ∀ a, (encode a).length = w)
    (hinj : ∀ a b, ok a → ok b → encode a = encode b → a = b) : Unambiguous ok encode := by
  intro a b s t ha hb h
  obtain ⟨he, hst⟩ := List.append_inj h ((hlen a).trans (hlen b).symm)
  exact ⟨hinj a b ha hb he, hst⟩

section

variable (h : Unambiguous ok encode)
include h

theorem mono {ok' : α → Prop} (hok : ∀ a, ok' a → ok a) : Unambiguous ok' encode := by
  intro a b s t ha hb he
  exact h (hok a ha) (hok b hb) he

theorem comap {f : β → α} (hf : Function.Injective f) :
    Unambiguous (fun b => ok (f b)) fun b => encode (f b) := by
  intro a b s t ha hb he
  obtain ⟨hab, hst⟩ := h ha hb he
  exact ⟨hf hab, hst⟩

omit h in
theorem toLe (w : ℕ) : Unambiguous (· < 256 ^ w) (Bytes.toLe w) := by
  refine fixed (w := w) (fun n => ?_) fun m n hm hn h => ?_
  · simp [Bytes.toLe]
  · exact Bytes.toBe_inj hm hn (List.reverse_injective h)

omit h in
theorem toBe (w : ℕ) : Unambiguous (· < 256 ^ w) (Bytes.toBe w) :=
  fixed (w := w) (Bytes.toBe_length w) fun _ _ hm hn h => Bytes.toBe_inj hm hn h

theorem flatMap {l m : List α} {s t : Bytes} (hl : ∀ a ∈ l, ok a) (hm : ∀ a ∈ m, ok a)
    (hlen : l.length = m.length) (he : l.flatMap encode ++ s = m.flatMap encode ++ t) :
    l = m ∧ s = t := by
  induction l generalizing m with
  | nil =>
    obtain rfl := List.length_eq_zero_iff.mp hlen.symm
    exact ⟨rfl, he⟩
  | cons a l ih =>
    cases m with
    | nil => cases hlen
    | cons b m =>
      obtain ⟨ha, hl'⟩ := List.forall_mem_cons.mp hl
      obtain ⟨hb, hm'⟩ := List.forall_mem_cons.mp hm
      rw [List.flatMap_cons, List.flatMap_cons, List.append_assoc, List.append_assoc] at he
      have hlen' : l.length = m.length := by simpa using hlen
      obtain ⟨rfl, he'⟩ := h ha hb he
      obtain ⟨rfl, hst⟩ := ih hl' hm' hlen' he'
      exact ⟨rfl, hst⟩

theorem flatMap_inj (hne : ∀ a, encode a ≠ []) {l m : List α} (hl : ∀ a ∈ l, ok a)
    (hm : ∀ a ∈ m, ok a) (he : l.flatMap encode = m.flatMap encode) : l = m := by
  induction l generalizing m with
  | nil =>
    cases m with
    | nil => rfl
    | cons b m => exact absurd (List.append_eq_nil_iff.mp he.symm).1 (hne b)
  | cons a l ih =>
    cases m with
    | nil => exact absurd (List.append_eq_nil_iff.mp he).1 (hne a)
    | cons b m =>
      obtain ⟨ha, hl'⟩ := List.forall_mem_cons.mp hl
      obtain ⟨hb, hm'⟩ := List.forall_mem_cons.mp hm
      obtain ⟨rfl, he'⟩ := h ha hb he
      rw [ih hl' hm' he']

theorem counted (w : ℕ) : Unambiguous (fun l : List α => l.length < 256 ^ w ∧ ∀ a ∈ l, ok a)
      fun l => Bytes.toLe w l.length ++ l.flatMap encode := by
  intro l m s t ⟨hl, hlok⟩ ⟨hm, hmok⟩ he
  rw [List.append_assoc, List.append_assoc] at he
  obtain ⟨hlen, he⟩ := toLe w hl hm he
  exact h.flatMap hlok hmok hlen he

omit h in
theorem prefixed (w : ℕ) : Unambiguous (fun bs : Bytes => bs.length < 256 ^ w)
    fun bs => Bytes.toLe w bs.length ++ bs := by
  intro l m s t hl hm he
  rw [List.append_assoc, List.append_assoc] at he
  obtain ⟨hlen, he⟩ := toLe w hl hm he
  exact List.append_inj he hlen

theorem option : Unambiguous (fun o : Option α => ∀ a, o = some a → ok a) fun o => match o with
        | some a => 1 :: encode a
        | none => [0] := by
  intro o o' s t ho ho' he
  cases o with
  | none =>
    cases o' with
    | none => exact ⟨rfl, (List.cons.inj he).2⟩
    | some b => exact absurd (List.cons.inj he).1 (by decide)
  | some a =>
    cases o' with
    | none => exact absurd (List.cons.inj he).1 (by decide)
    | some b =>
      obtain ⟨rfl, hst⟩ := h (ho a rfl) (ho' b rfl) (List.cons.inj he).2
      exact ⟨rfl, hst⟩

end

theorem bitVecLe {n : ℕ} (w : ℕ) (hw : 2 ^ n ≤ 256 ^ w) :
    Unambiguous (fun _ : BitVec n => True) fun x => Bytes.toLe w x.toNat := by
  intro a b s t _ _ he
  obtain ⟨hab, hst⟩ := toLe w (a.isLt.trans_le hw) (b.isLt.trans_le hw) he
  exact ⟨BitVec.eq_of_toNat_eq hab, hst⟩

theorem bitVecBe {n : ℕ} (w : ℕ) (hw : 2 ^ n ≤ 256 ^ w) :
    Unambiguous (fun _ : BitVec n => True) fun x => Bytes.toBe w x.toNat := by
  intro a b s t _ _ he
  obtain ⟨hab, hst⟩ := toBe w (a.isLt.trans_le hw) (b.isLt.trans_le hw) he
  exact ⟨BitVec.eq_of_toNat_eq hab, hst⟩

theorem u32 : Unambiguous (fun _ : UInt32 => True) fun x => Bytes.toLe 4 x.toNat :=
  (bitVecLe 4 (n := 32) (by decide)).comap (f := UInt32.toBitVec) fun _ _ => UInt32.toBitVec_inj.mp

theorem u64 : Unambiguous (fun _ : UInt64 => True) fun x => Bytes.toLe 8 x.toNat :=
  (bitVecLe 8 (n := 64) (by decide)).comap (f := UInt64.toBitVec) fun _ _ => UInt64.toBitVec_inj.mp

theorem u128 : Unambiguous (fun _ : BitVec 128 => True) fun x => Bytes.toLe 16 x.toNat :=
  bitVecLe 16 (by decide)

section

variable {a b : α} {s t : Bytes}

theorem iff (h : Unambiguous ok encode) (ha : ok a) (hb : ok b) :
    encode a ++ s = encode b ++ t ↔ a = b ∧ s = t := by
  refine ⟨h ha hb, ?_⟩
  rintro ⟨rfl, rfl⟩
  rfl

theorem read_iff (h : Unambiguous (fun _ => True) encode) :
    encode a ++ s = encode b ++ t ↔ a = b ∧ s = t :=
  h.iff trivial trivial

protected theorem read (h : Unambiguous (fun _ => True) encode) :
    encode a ++ s = encode b ++ t → a = b ∧ s = t :=
  h.read_iff.mp

end

end Unambiguous

end CitrateChain
