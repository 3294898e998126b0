import CitrateChain.Base.Descent
import CitrateChain.Execution.Executor

/-! # The applied chain and the walks over it

The applied tip with the ring of snapshots of the last applied blocks, and the header walks that
answer which block of the applied chain stands at a height. A position is a block hash with its
height; a chain is followed from a position to its selected parent, one height below. -/
namespace CitrateChain.Node
open Std (ExtTreeMap)
open Relation (ReflTransGen)
open Consensus (Hash Block BlockHeader)
open Execution Storage BlockStore

def maxReorgDepth : UInt64 := 100

structure AppliedState where
  tip : AppliedTip
  snapshots : ExtTreeMap UInt64 (Hash × StateDb)

namespace AppliedState

def record (s : AppliedState) (hash : Hash) (height : UInt64) (snapshot : StateDb) :
    AppliedState where
  tip := ⟨hash, height⟩
  snapshots := (s.snapshots.insert height (hash, snapshot)).filter fun h _ =>
    Word.saturatingSub height maxReorgDepth ≤ h

def ringHash (s : AppliedState) (height : UInt64) : Option Hash :=
  s.snapshots[height]?.map Prod.fst

end AppliedState

structure AppliedWalk where
  tip : AppliedTip
  stands : Option AppliedTip
  next : Hash
  maxHeight : UInt64
  lastTarget : Option UInt64
  failed : Option String

namespace AppliedWalk

def new (tip : AppliedTip) : AppliedWalk where
  tip := tip
  stands := none
  next := tip.hash
  maxHeight := tip.height
  lastTarget := none
  failed := none

def read (s : BlockStore) (w : AppliedWalk) : Except String AppliedTip × AppliedWalk :=
  match w.stands with
  | some here => (.ok here, w)
  | none =>
    match s.getHeader w.next with
    | none =>
      let e := s!"header {w.next} missing on the applied chain"
      (.error e, { w with failed := some e })
    | some header =>
      if w.maxHeight < header.height then
        let e := s!"header {w.next} at height {header.height} is not below its child (max {w.maxHeight})"
        (.error e, { w with failed := some e })
      else
        let here : AppliedTip := ⟨w.next, header.height⟩
        (.ok here, { w with next := header.selectedParentHash, stands := some here })

def descend (s : BlockStore) (target : UInt64) :
    ℕ → AppliedWalk → Except String (Option Hash) × AppliedWalk
  | 0, w => (.ok none, w)
  | n + 1, w =>
    match w.read s with
    | (.error e, w) => (.error e, w)
    | (.ok here, w) =>
      if here.height = target then (.ok (some here.hash), w)
      else if here.height < target ∨ here.height = 0 then (.ok none, w)
      else descend s target n
        { w with maxHeight := Word.saturatingSub here.height 1, stands := none }

def hashAt (s : BlockStore) (w : AppliedWalk) (target : UInt64) :
    Except String (Option Hash) × AppliedWalk :=
  match w.failed with
  | some e => (.error e, w)
  | none =>
    if w.lastTarget.any (· ≤ target) then
      (.error s!"applied walk asked for height {target} after {w.lastTarget} (must descend)", w)
    else
      let w := { w with lastTarget := some target }
      if w.tip.height < target then (.ok none, w)
      else descend s target (w.maxHeight.toNat + 2) w

end AppliedWalk

def appliedHashWalk (s : BlockStore) (tip : AppliedTip) (target : UInt64) :
    ℕ → Hash → UInt64 → Except String (Option Hash)
  | 0, _, _ => .error s!"walk from {tip.hash} @ {tip.height} did not reach height {target}"
  | reads + 1, cursor, maxHeight =>
    match s.getHeader cursor with
    | none => .error s!"header {cursor} missing on the applied chain"
    | some header =>
      let h := header.height
      if maxHeight < h then
        .error s!"header {cursor} at height {h} is not below its child (max {maxHeight})"
      else if h = target then .ok (some cursor)
      else if h < target ∨ h = 0 then .ok none
      else appliedHashWalk s tip target reads header.selectedParentHash (Word.saturatingSub h 1)

def appliedHashAtHeight (s : BlockStore) (tip : AppliedTip) (target : UInt64) :
    Except String (Option Hash) :=
  if tip.height < target then .ok none
  else appliedHashWalk s tip target
    (Word.saturatingAdd (Word.saturatingSub tip.height target) 1).toNat tip.hash tip.height

/-- The loop of `ancestor_hash_at_height`. Heights drop at each step, so `UInt64.size` steps are
more than any walk takes. -/
def ancestorWalk (s : BlockStore) (target : UInt64) : ℕ → Hash → Option Hash
  | 0, _ => none
  | n + 1, cursor =>
    match s.getBlock cursor with
    | none => none
    | some b =>
      if b.height = target then some cursor
      else if b.height < target ∨ b.height = 0 then none
      else ancestorWalk s target n b.selectedParent

def ancestorHashAtHeight (s : BlockStore) (start : Hash) (target : UInt64) : Option Hash :=
  ancestorWalk s target UInt64.size start

def descentWalk (s : BlockStore) (ancestor : Hash) (ancestorHeight : UInt64) : ℕ → Hash → Bool
  | 0, _ => false
  | n + 1, cursor =>
    if cursor = ancestor then true
    else match s.getBlock cursor with
      | none => false
      | some b =>
        if b.height ≤ ancestorHeight then cursor == ancestor
        else descentWalk s ancestor ancestorHeight n b.selectedParent

def headDescendsFrom (s : BlockStore) (head ancestor : Hash) (ancestorHeight : UInt64) : Bool :=
  descentWalk s ancestor ancestorHeight UInt64.size head

def appliedBlockAt (s : BlockStore) (st : AppliedState) (height : UInt64) :
    Except String (Option Hash) :=
  if st.tip.height < height then .ok none
  else match st.ringHash height with
    | some h => .ok (some h)
    | none =>
      if s.canonicalIndexTip = some st.tip then .ok (s.getCanonicalBlockByHeight height)
      else appliedHashAtHeight s st.tip height

def isApplied (s : BlockStore) (st : AppliedState) (hash : Hash) (height : UInt64) :
    Except String Bool :=
  (appliedBlockAt s st height).map fun h => h == some hash

/-- Blocks are stored under their hash, a block that is not at height zero stands one above its
selected parent, and genesis, which need not be stored, stands at height zero. -/
structure WellFormed (genesis : Hash) (blocks : KvStore Hash Block) : Prop where
  hash : ∀ {h b}, blocks h = some b → b.hash = h
  parent : ∀ {h b p}, blocks h = some b → b.height ≠ 0 → blocks b.selectedParent = some p →
    b.height.toNat = p.height.toNat + 1
  base : ∀ {h b}, blocks h = some b → b.height ≠ 0 → b.selectedParent = genesis → b.height = 1
  genesis : ∀ {b}, blocks genesis = some b → b.height = 0

def Parent (blocks : KvStore Hash Block) (x y : AppliedTip) : Prop :=
  ∃ b, blocks x.hash = some b ∧ b.height = x.height ∧ x.height ≠ 0 ∧
    y = ⟨b.selectedParent, x.height - 1⟩

abbrev OnChain (blocks : KvStore Hash Block) (t x : AppliedTip) : Prop :=
  ReflTransGen (Parent blocks) t x

section Chains
variable {blocks blocks' : KvStore Hash Block} {g : Hash} {t x y : AppliedTip} {b : Block}
variable {h : UInt64}

theorem toNat_sub_one (hh : h ≠ 0) : (h - 1).toNat + 1 = h.toNat := by
  have hpos : h.toNat ≠ 0 := fun h0 => hh (UInt64.toNat_inj.mp h0)
  have h1 : (1 : UInt64) ≤ h := by
    rw [UInt64.le_iff_toNat_le]
    exact Nat.one_le_iff_ne_zero.mpr hpos
  rw [UInt64.toNat_sub_of_le _ _ h1]
  have : (1 : UInt64).toNat = 1 := rfl
  omega

theorem saturatingSub_one (hh : h ≠ 0) : Word.saturatingSub h 1 = h - 1 := by
  have := toNat_sub_one hh
  have h1 : (1 : UInt64) ≤ h := by
    rw [UInt64.le_iff_toNat_le, ← this]
    exact Nat.le_add_left 1 _
  simp [Word.saturatingSub, h1]

theorem parent_ranked (blocks : KvStore Hash Block) :
    Descent.Ranked (Parent blocks) fun x => x.height.toNat where
  unique := by
    rintro x y z ⟨b, hb, -, -, rfl⟩ ⟨c, hc, -, -, rfl⟩
    rw [hb, Option.some.injEq] at hc
    rw [hc]
  drop := by
    rintro x y ⟨b, -, -, hne, rfl⟩
    exact (toNat_sub_one hne).symm

section

variable (hsub : ∀ h b, blocks h = some b → blocks' h = some b)
include hsub

theorem Parent.mono (h : Parent blocks x y) : Parent blocks' x y := by
  obtain ⟨b, hb, hrest⟩ := h
  exact ⟨b, hsub _ _ hb, hrest⟩

theorem OnChain.mono (h : OnChain blocks t x) : OnChain blocks' t x :=
  ReflTransGen.mono (fun _ _ => Parent.mono hsub) _ _ h

end

theorem OnChain.height_le (h : OnChain blocks t x) : x.height ≤ t.height :=
  UInt64.le_iff_toNat_le.mpr ((parent_ranked blocks).descends.rank_le h)

section

variable (hx : OnChain blocks t x) (hy : OnChain blocks t y)
include hx hy

theorem OnChain.of_height_le (hle : y.height ≤ x.height) : OnChain blocks x y :=
  (parent_ranked blocks).descends.reaches_of_rank_le hx hy (UInt64.le_iff_toNat_le.mp hle)

theorem OnChain.eq_of_height (heq : x.height = y.height) : x = y :=
  (parent_ranked blocks).descends.eq_of_reaches hx hy (congrArg UInt64.toNat heq)

end

abbrev Rooted (g : Hash) (blocks : KvStore Hash Block) (t : AppliedTip) : Prop :=
  OnChain blocks t ⟨g, 0⟩

theorem Rooted.of_onChain (hr : Rooted g blocks t) (h : OnChain blocks t x) : Rooted g blocks x :=
  h.of_height_le hr UInt64.zero_le

theorem Rooted.eq_genesis (hr : Rooted g blocks x) (h : x.height = 0) : x = ⟨g, 0⟩ :=
  OnChain.eq_of_height (t := x) .refl hr h

theorem Rooted.stored (hr : Rooted g blocks x) (h : x.height ≠ 0) :
    ∃ b, blocks x.hash = some b ∧ b.height = x.height ∧
      Parent blocks x ⟨b.selectedParent, x.height - 1⟩ ∧
      Rooted g blocks ⟨b.selectedParent, x.height - 1⟩ := by
  rcases ReflTransGen.cases_head hr with rfl | ⟨y, hp, hy⟩
  · exact absurd rfl h
  · obtain ⟨b, hb, hh, hne, rfl⟩ := id hp
    exact ⟨b, hb, hh, hp, hy⟩

theorem Rooted.height_eq (hwf : WellFormed g blocks) (hr : Rooted g blocks x)
    (hb : blocks x.hash = some b) : b.height = x.height := by
  by_cases hx : x.height = 0
  · obtain rfl := hr.eq_genesis hx
    exact hwf.genesis hb
  · obtain ⟨c, hc, hh, -⟩ := hr.stored hx
    rw [hb, Option.some.injEq] at hc
    rwa [hc]

theorem WellFormed.parent_of_rooted (hwf : WellFormed g blocks) {h : Hash} {k : UInt64}
    (hb : blocks h = some b) (hne : b.height ≠ 0) (hr : Rooted g blocks ⟨b.selectedParent, k⟩) :
    Parent blocks ⟨h, b.height⟩ ⟨b.selectedParent, k⟩ := by
  refine ⟨b, hb, rfl, hne, ?_⟩
  suffices heq : k = b.height - 1 by rw [heq]
  by_cases hk : k = 0
  · subst hk
    have hg : b.selectedParent = g := congrArg AppliedTip.hash (hr.eq_genesis rfl)
    rw [hwf.base hb hne hg]
    rfl
  · obtain ⟨p, hp, hh, -⟩ := hr.stored hk
    have h1 := hwf.parent hb hne hp
    have h2 := toNat_sub_one hne
    rw [hh] at h1
    rw [← UInt64.toNat_inj]
    exact Nat.succ_injective (h1.symm.trans h2.symm)

/-- Stored blocks above `parent`, lowest first, each the selected parent of the next. -/
def LinkedFrom (blocks : KvStore Hash Block) : Hash → List Block → Prop
  | _, [] => True
  | parent, b :: bs => blocks b.hash = some b ∧ b.height ≠ 0 ∧ b.selectedParent = parent ∧
      LinkedFrom blocks b.hash bs

def lastPosition (p : AppliedTip) : List Block → AppliedTip
  | [] => p
  | b :: bs => lastPosition ⟨b.hash, b.height⟩ bs

theorem lastPosition_hash (h : Hash) (k k' : UInt64) (bs : List Block) :
    (lastPosition ⟨h, k⟩ bs).hash = (lastPosition ⟨h, k'⟩ bs).hash := by
  cases bs with
  | nil => rfl
  | cons b bs => rfl

theorem lastPosition_concat (p : AppliedTip) (bs : List Block) (b : Block) :
    lastPosition p (bs ++ [b]) = ⟨b.hash, b.height⟩ := by
  induction bs generalizing p with
  | nil => rfl
  | cons c bs ih => exact ih _

variable {s : BlockStore} {bs : List Block} {w w' : AppliedWalk}

theorem linkedFrom_concat {p : AppliedTip} :
    LinkedFrom blocks p.hash (bs ++ [b]) ↔ LinkedFrom blocks p.hash bs ∧ blocks b.hash = some b ∧
      b.height ≠ 0 ∧ b.selectedParent = (lastPosition p bs).hash := by
  induction bs generalizing p with
  | nil => simp [LinkedFrom, lastPosition]
  | cons c bs ih =>
    have ih := ih (p := ⟨c.hash, c.height⟩)
    simp only [List.cons_append, LinkedFrom, lastPosition, ih, and_assoc]

theorem LinkedFrom.mono (hsub : ∀ h b, blocks h = some b → blocks' h = some b) {h : Hash}
    (hl : LinkedFrom blocks h bs) : LinkedFrom blocks' h bs := by
  induction bs generalizing h with
  | nil => trivial
  | cons b bs ih => exact ⟨hsub _ _ hl.1, hl.2.1, hl.2.2.1, ih hl.2.2.2⟩

theorem LinkedFrom.head_parent (hwf : WellFormed g blocks)
    (hr : Rooted g blocks x) (hl : LinkedFrom blocks x.hash (b :: bs)) :
    Parent blocks ⟨b.hash, b.height⟩ x := by
  obtain ⟨hb, hne, hp, -⟩ := hl
  obtain ⟨h, k⟩ := x
  obtain rfl : b.selectedParent = h := hp
  exact hwf.parent_of_rooted hb hne hr

theorem Parent.linkedFrom (h : Parent blocks ⟨b.hash, b.height⟩ x) (hb : blocks b.hash = some b) :
    LinkedFrom blocks x.hash [b] := by
  obtain ⟨c, hc, -, hne, rfl⟩ := h
  obtain rfl : b = c := Option.some.inj (hb.symm.trans hc)
  exact ⟨hb, hne, rfl, trivial⟩

section

variable (hwf : WellFormed g blocks) (hr : Rooted g blocks x) (hl : LinkedFrom blocks x.hash bs)
include hwf hr hl

theorem LinkedFrom.onChain : OnChain blocks (lastPosition x bs) x := by
  induction bs generalizing x with
  | nil => exact .refl
  | cons b bs ih =>
    have hp := hl.head_parent hwf hr
    exact (ih (.head hp hr) hl.2.2.2).tail hp

theorem LinkedFrom.onChain_of_mem (hb : b ∈ bs) :
    OnChain blocks (lastPosition x bs) ⟨b.hash, b.height⟩ := by
  induction bs generalizing x with
  | nil => cases hb
  | cons c bs ih =>
    have hr' : Rooted g blocks ⟨c.hash, c.height⟩ := .head (hl.head_parent hwf hr) hr
    rcases List.mem_cons.mp hb with rfl | hb
    · exact LinkedFrom.onChain hwf hr' hl.2.2.2
    · exact ih hr' hl.2.2.2 hb

theorem LinkedFrom.exists_height (hlt : x.height < h) (hle : h ≤ (lastPosition x bs).height) :
    ∃ b ∈ bs, b.height = h := by
  induction bs generalizing x with
  | nil => exact absurd hlt (not_lt.mpr hle)
  | cons c bs ih =>
    have hp := hl.head_parent hwf hr
    have hrank := (parent_ranked blocks).drop hp
    rcases lt_or_ge c.height h with hc | hc
    · obtain ⟨b, hb, hh⟩ := ih (.head hp hr) hl.2.2.2 hc hle
      exact ⟨b, List.mem_cons_of_mem _ hb, hh⟩
    · refine ⟨c, List.mem_cons_self, ?_⟩
      rw [UInt64.lt_iff_toNat_lt] at hlt
      rw [UInt64.le_iff_toNat_le] at hc
      rw [← UInt64.toNat_inj]
      simp only at hrank
      omega

end

variable {n : ℕ}

variable {target : UInt64}

theorem ancestorWalk_spec {target k : UInt64} {cursor : Hash} (hr : Rooted g s.blocks ⟨cursor, k⟩)
    (htarget : target ≠ 0) (hle : target ≤ k) (hn : k.toNat < n) :
    ∃ found, ancestorWalk s target n cursor = some found ∧
      OnChain s.blocks ⟨cursor, k⟩ ⟨found, target⟩ := by
  induction n generalizing cursor k with
  | zero => omega
  | succ n ih =>
    have hk0 : k ≠ 0 := by
      rintro rfl
      exact htarget (le_antisymm hle UInt64.zero_le)
    obtain ⟨b, hb, hh, hp, hroot⟩ := hr.stored hk0
    simp only [ancestorWalk, getBlock, hb, hh]
    by_cases heq : k = target
    · subst heq
      exact ⟨cursor, by simp, .refl⟩
    have hlt : target < k := lt_of_le_of_ne hle (Ne.symm heq)
    have hsub := toNat_sub_one hk0
    have hlt' := UInt64.lt_iff_toNat_lt.mp hlt
    obtain ⟨found, hf, hon⟩ := ih (k := k - 1) hroot
      (UInt64.le_iff_toNat_le.mpr (by omega)) (by omega)
    refine ⟨found, ?_, .head hp hon⟩
    rw [if_neg heq, if_neg (by simp [hk0, hlt.le])]
    exact hf

theorem descentWalk_sound {ancestor cursor : Hash} {a : Block} (hwf : WellFormed g s.blocks)
    (ha : s.blocks ancestor = some a) (h : descentWalk s ancestor a.height n cursor = true) :
    ∃ b, s.blocks cursor = some b ∧ OnChain s.blocks ⟨cursor, b.height⟩ ⟨ancestor, a.height⟩ := by
  fun_induction descentWalk s ancestor a.height n cursor with
  | case1 | case3 => cases h
  | case2 => exact ⟨a, ha, .refl⟩
  | case4 n cursor hne => exact absurd (beq_iff_eq.mp h) hne
  | case5 n cursor _ b hb hlt ih =>
    obtain ⟨p, hp, hon⟩ := ih h
    have hne : b.height ≠ 0 := fun h0 => hlt (h0 ▸ UInt64.zero_le)
    have h1 := hwf.parent hb hne hp
    have h2 := toNat_sub_one hne
    have hpk : p.height = b.height - 1 := by
      rw [← UInt64.toNat_inj]
      omega
    rw [hpk] at hon
    exact ⟨b, hb, .head ⟨b, hb, rfl, hne, rfl⟩ hon⟩

/-- What a descending walk knows: the block it stands on and the one it reads next are on the
chain of its tip. -/
structure AppliedWalk.Sound (blocks : KvStore Hash Block) (w : AppliedWalk) : Prop where
  here : ∀ p, w.stands = some p → OnChain blocks w.tip p ∧
    (p.height ≠ 0 → OnChain blocks w.tip ⟨w.next, p.height - 1⟩)
  next : w.stands = none → OnChain blocks w.tip ⟨w.next, w.maxHeight⟩

theorem AppliedWalk.sound_new (blocks : KvStore Hash Block) (tip : AppliedTip) :
    (AppliedWalk.new tip).Sound blocks := ⟨nofun, fun _ => .refl⟩

theorem AppliedWalk.Sound.read {r : Except String AppliedTip}
    (hwf : WellFormed g s.blocks) (hr : Rooted g s.blocks w.tip) (hw : w.Sound s.blocks)
    (h : w.read s = (r, w')) :
    w'.tip = w.tip ∧ w'.Sound s.blocks ∧ ∀ p, r = .ok p → w'.stands = some p := by
  revert h
  fun_cases w.read s with
  | case1 p hp =>
    rintro ⟨⟩
    refine ⟨rfl, hw, fun q hq => ?_⟩
    rw [hp, Except.ok.inj hq]
  | case2 | case3 =>
    rintro ⟨⟩
    exact ⟨rfl, ⟨hw.here, hw.next⟩, nofun⟩
  | case4 hstands header hheader _ here =>
    rintro ⟨⟩
    have hon := hw.next hstands
    obtain ⟨b, hb, rfl⟩ := Option.map_eq_some_iff.mp hheader
    have hk : b.header.height = w.maxHeight := (hr.of_onChain hon).height_eq hwf hb
    have hhere : here = ⟨w.next, w.maxHeight⟩ := congrArg (AppliedTip.mk w.next) hk
    refine ⟨rfl, ⟨?_, nofun⟩, fun q hq => by rw [← Except.ok.inj hq]⟩
    rintro p hp
    cases hp
    rw [hhere]
    exact ⟨hon, fun hne => hon.tail ⟨b, hb, hk, hne, rfl⟩⟩

variable {r : Except String (Option Hash)}

section

variable (hwf : WellFormed g s.blocks) (hr : Rooted g s.blocks w.tip) (hw : w.Sound s.blocks)
include hwf hr hw

theorem AppliedWalk.Sound.descend (h : AppliedWalk.descend s target n w = (r, w')) :
    w'.tip = w.tip ∧ w'.Sound s.blocks ∧
      ∀ found, r = .ok (some found) → OnChain s.blocks w.tip ⟨found, target⟩ := by
  fun_induction AppliedWalk.descend s target n w with
  | case1 =>
    cases h
    exact ⟨rfl, hw, nofun⟩
  | case2 n w e u hread | case4 n w p u hread =>
    obtain ⟨htip, hu, -⟩ := hw.read hwf hr hread
    cases h
    exact ⟨htip, hu, nofun⟩
  | case3 n w p u hread heq =>
    obtain ⟨htip, hu, hp⟩ := hw.read hwf hr hread
    cases h
    refine ⟨htip, hu, fun found hf => ?_⟩
    obtain rfl : p.hash = found := by simpa using hf
    rw [← htip, ← heq]
    exact (hu.here p (hp p rfl)).1
  | case5 n w p u hread _ hne ih =>
    obtain ⟨htip, hu, hp⟩ := hw.read hwf hr hread
    have hp0 : p.height ≠ 0 := fun h0 => hne (.inr h0)
    have hpar := (hu.here p (hp p rfl)).2 hp0
    rw [← saturatingSub_one hp0] at hpar
    rw [← htip] at hr ⊢
    exact ih hr ⟨nofun, fun _ => hpar⟩ h

theorem AppliedWalk.Sound.hashAt (h : w.hashAt s target = (r, w')) :
    w'.tip = w.tip ∧ w'.Sound s.blocks ∧
      ∀ found, r = .ok (some found) → OnChain s.blocks w.tip ⟨found, target⟩ := by
  revert h
  fun_cases w.hashAt s target with
  | case1 | case2 | case3 =>
    intro h
    obtain ⟨rfl, rfl⟩ := Prod.mk.inj h
    exact ⟨rfl, ⟨hw.here, hw.next⟩, nofun⟩
  | case4 => exact AppliedWalk.Sound.descend hwf hr ⟨hw.here, hw.next⟩

end

end Chains

end CitrateChain.Node
