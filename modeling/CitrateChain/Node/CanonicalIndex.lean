import CitrateChain.Base.Runs
import CitrateChain.Node.AppliedLineage

/-! # The canonical height index

Every write of the applied tip brings the index to it: the walk from the new tip stops where the
previous index names the same block. The heights from the floor of the marker to its tip hold the
lineage of that tip; rows above the tip and below the floor are leftovers of other branches. -/
namespace CitrateChain.Node
open Relation (ReflTransGen)
open Consensus (Hash Block BlockHeader)
open Storage BlockStore Word
variable {s s' : BlockStore} {tip x y : AppliedTip}

def Keeps (s s' : BlockStore) : Prop :=
  ∀ hash header, s.getHeader hash = some header → s'.getHeader hash = some header

theorem Stands.mono (hk : Keeps s s') (h : Stands s x) : Stands s' x := by
  obtain ⟨header, hheader, hheight⟩ := h
  exact ⟨header, hk _ _ hheader, hheight⟩

theorem Below.mono (hk : Keeps s s') (h : Below s x y) : Below s' x y := by
  obtain ⟨header, hheader, hheight, hhash, hlt, hy⟩ := h
  exact ⟨header, hk _ _ hheader, hheight, hhash, hlt, hy.mono hk⟩

theorem Lineage.mono (hk : Keeps s s') (h : Lineage s tip x) : Lineage s' tip x := by
  obtain ⟨start, hhash, hle, hstart, hx⟩ := h
  exact ⟨start, hhash, hle, hstart.mono hk, ReflTransGen.mono (fun _ _ => Below.mono hk) _ _ hx⟩

theorem Lineage.stands (h : Lineage s tip x) : Stands s x := by
  obtain ⟨start, -, -, hstart, hx⟩ := h
  rcases ReflTransGen.cases_tail hx with rfl | ⟨y, -, hy⟩
  · exact hstart
  · exact hy.stands

theorem Lineage.of_height_le (hx : Lineage s tip x) (hy : Lineage s tip y)
    (hle : y.height ≤ x.height) : Lineage s x y := by
  have hstands := hx.stands
  obtain ⟨start, hhash, -, hstart, hx⟩ := hx
  obtain ⟨start', hhash', -, hstart', hy⟩ := hy
  obtain rfl := hstart.unique hstart' (hhash.trans hhash'.symm)
  have hxy := (below_descends s).reaches_of_rank_le hx hy (UInt64.le_iff_toNat_le.mp hle)
  exact ⟨x, rfl, le_rfl, hstands, hxy⟩

variable {cur : Hash} {k : UInt64}

theorem stands_of_lineage (h : ∃ hash, Lineage s ⟨cur, k⟩ ⟨hash, k⟩) : Stands s ⟨cur, k⟩ := by
  obtain ⟨hash, start, hhash, hle, hstart, hx⟩ := h
  have hrank := UInt64.le_iff_toNat_le.mpr ((below_descends s).rank_le hx)
  have hheight : start.height = k := le_antisymm hle hrank
  obtain ⟨header, hheader, hheight'⟩ := hstart
  rw [hhash] at hheader
  exact ⟨header, hheader, hheight'.trans hheight⟩

theorem lineage_parent_iff {header : BlockHeader} (hheader : s.getHeader cur = some header)
    (hheight : header.height = k) (hne : k ≠ 0) (hlt : x.height < k) :
    Lineage s ⟨cur, k⟩ x ↔ Lineage s ⟨header.selectedParentHash, saturatingSub k 1⟩ x := by
  subst hheight
  rw [lineage_iff hheader le_rfl, reaches_iff (x := ⟨cur, header.height⟩) hheader rfl hne]
  constructor
  · rintro (heq | hx)
    · rw [← heq] at hlt
      exact absurd hlt (lt_irrefl _)
    · exact hx
  · exact .inr

/-- The index covers the heights from its floor to its tip with the lineage of its tip. -/
def IndexSound (s : BlockStore) : Prop :=
  ∀ m, s.canonicalMarker = some m → ∀ h, m.floor ≤ h → h ≤ m.tip.height →
    ∃ hash, s.canonicalEntry h = some hash ∧ Lineage s m.tip ⟨hash, h⟩

theorem indexed_eq_some {height floor : UInt64} (h : s.indexed cur height = some floor) :
    ∃ m, s.canonicalMarker = some m ∧ m.floor = floor ∧ floor ≤ height ∧ height ≤ m.tip.height ∧
      s.canonicalEntry height = some cur := by
  unfold indexed at h
  cases hm : s.canonicalMarker with
  | none => simp [hm] at h
  | some m =>
    simp only [hm, Option.ite_none_right_eq_some, Option.some.injEq] at h
    obtain ⟨⟨hfloor, hle, hentry⟩, rfl⟩ := h
    exact ⟨m, rfl, rfl, hfloor, hle, hentry⟩

theorem IndexSound.below (hs : IndexSound s) {height floor h : UInt64}
    (hcur : s.indexed cur height = some floor) (hfloor : floor ≤ h) (hle : h ≤ height) :
    ∃ hash, s.canonicalEntry h = some hash ∧ Lineage s ⟨cur, height⟩ ⟨hash, h⟩ := by
  obtain ⟨m, hm, rfl, hheight, htop, hentry⟩ := indexed_eq_some hcur
  obtain ⟨c, hc, hcurOn⟩ := hs m hm height hheight htop
  rw [hentry, Option.some.injEq] at hc
  subst hc
  obtain ⟨hash, hhash, hon⟩ := hs m hm h hfloor (le_trans hle htop)
  exact ⟨hash, hhash, hcurOn.of_height_le hon hle⟩

theorem canonicalWalk_cases (s : BlockStore) (n : ℕ) (cur : Hash) (entries : KvStore UInt64 Hash) :
    (∃ floor, s.indexed cur (UInt64.ofNat n) = some floor ∧
      s.canonicalWalk n cur entries = (floor, entries)) ∨
    (¬Stands s ⟨cur, UInt64.ofNat n⟩ ∧
      s.canonicalWalk n cur entries = (saturatingAdd (UInt64.ofNat n) 1, entries)) ∨
    ∃ header, s.getHeader cur = some header ∧ header.height = UInt64.ofNat n ∧
      s.canonicalWalk n cur entries = match n with
        | 0 => (0, entries.write (.put 0 cur))
        | k + 1 => s.canonicalWalk k header.selectedParentHash
          (entries.write (.put (UInt64.ofNat (k + 1)) cur)) := by
  cases hindexed : s.indexed cur (UInt64.ofNat n) with
  | some floor =>
    refine .inl ⟨floor, rfl, ?_⟩
    rw [canonicalWalk]
    simp [hindexed]
  | none =>
    cases hheader : s.getHeader cur with
    | none =>
      refine .inr (.inl ⟨?_, ?_⟩)
      · rintro ⟨header, hsome, -⟩
        cases hheader.symm.trans hsome
      · rw [canonicalWalk]
        simp [hindexed, hheader]
    | some header =>
      by_cases hheight : header.height = UInt64.ofNat n
      · refine .inr (.inr ⟨header, rfl, hheight, ?_⟩)
        rw [canonicalWalk]
        simp only [hindexed, hheader, if_pos hheight]
        cases n with
        | zero => rfl
        | succ k => rfl
      · refine .inr (.inl ⟨?_, ?_⟩)
        · rintro ⟨header', hsome, heq⟩
          rw [hheader, Option.some.injEq] at hsome
          subst hsome
          exact hheight heq
        · rw [canonicalWalk]
          simp [hindexed, hheader, hheight]

theorem succ_le_of_lt {a b : UInt64} (h : a < b) : saturatingAdd a 1 ≤ b := by
  have hlt := UInt64.lt_iff_toNat_lt.mp h
  have hbound := b.toNat_lt_size
  have hone : (1 : UInt64).toNat = 1 := rfl
  rw [UInt64.le_iff_toNat_le, saturatingAdd_toNat_of_lt (by omega)]
  omega

theorem saturatingSub_ofNat_succ {k : ℕ} (hk : k + 1 < UInt64.size) :
    saturatingSub (UInt64.ofNat (k + 1)) 1 = UInt64.ofNat k := by
  rw [← UInt64.toNat_inj, saturatingSub_toNat, UInt64.toNat_ofNat_of_lt' hk,
    UInt64.toNat_ofNat_of_lt' (Nat.lt_of_succ_lt hk)]
  rfl

/-- What a walk from `cur` at height `n` leaves behind: the rows above its start are untouched, and
from its floor on the rows hold the lineage of its start. -/
structure Covers (s : BlockStore) (n : ℕ) (cur : Hash) (entries : KvStore UInt64 Hash)
    (walk : UInt64 × KvStore UInt64 Hash) : Prop where
  above : ∀ h : UInt64, n < h.toNat → walk.2 h = entries h
  within : ∀ h : UInt64, walk.1 ≤ h → h.toNat ≤ n → ∃ hash, walk.2 h = some hash ∧
    Lineage s ⟨cur, UInt64.ofNat n⟩ ⟨hash, h⟩

section Covers
variable {n : ℕ} {cur : Hash} {entries : KvStore UInt64 Hash}

theorem Covers.of_indexed (hs : IndexSound s) (hn : n < UInt64.size) {floor : UInt64}
    (hsame : ∀ h : UInt64, h.toNat ≤ n → entries h = s.canonicalEntry h)
    (hindexed : s.indexed cur (UInt64.ofNat n) = some floor) :
    Covers s n cur entries (floor, entries) := by
  refine ⟨fun _ _ => rfl, fun h hfloor hle => ?_⟩
  have hle' : h ≤ UInt64.ofNat n := by
    rw [UInt64.le_iff_toNat_le, UInt64.toNat_ofNat_of_lt' hn]
    exact hle
  obtain ⟨hash, hentry, hon⟩ := hs.below hindexed hfloor hle'
  exact ⟨hash, (hsame h hle).trans hentry, hon⟩

theorem Covers.of_missing (hn : n + 1 < UInt64.size) :
    Covers s n cur entries (saturatingAdd (UInt64.ofNat n) 1, entries) := by
  refine ⟨fun _ _ => rfl, fun h hfloor hle => ?_⟩
  have hnat : (UInt64.ofNat n).toNat = n := UInt64.toNat_ofNat_of_lt' (Nat.lt_of_succ_lt hn)
  have hone : (1 : UInt64).toNat = 1 := rfl
  have hnext : (saturatingAdd (UInt64.ofNat n) 1).toNat = n + 1 := by
    rw [saturatingAdd_toNat_of_lt (by rw [hnat, hone]; exact hn), hnat, hone]
  have hfloor := UInt64.le_iff_toNat_le.mp hfloor
  simp only [hnext] at hfloor
  omega

theorem Covers.of_bottom (hstands : Stands s ⟨cur, 0⟩) :
    Covers s 0 cur entries (0, entries.write (.put 0 cur)) := by
  refine ⟨fun h hlt => ?_, fun h _ hle => ?_⟩
  · have hne : h ≠ 0 := by
      rintro rfl
      exact absurd hlt (lt_irrefl 0)
    exact (KvStore.write_put ..).trans (if_neg hne)
  · obtain rfl : h = 0 := UInt64.toNat_inj.mp (Nat.le_zero.mp hle)
    exact ⟨cur, (KvStore.write_put entries 0 cur 0).trans (if_pos rfl), hstands.lineage⟩

theorem Covers.step {header : BlockHeader} {walk : UInt64 × KvStore UInt64 Hash}
    (hn : n + 1 < UInt64.size) (hheader : s.getHeader cur = some header)
    (hheight : header.height = UInt64.ofNat (n + 1))
    (h : Covers s n header.selectedParentHash
      (entries.write (.put (UInt64.ofNat (n + 1)) cur)) walk) : Covers s (n + 1) cur entries walk := by
  have hnat : (UInt64.ofNat (n + 1)).toNat = n + 1 := UInt64.toNat_ofNat_of_lt' hn
  refine ⟨fun k hk => ?_, fun k hfloor hle => ?_⟩
  · have hne : k ≠ UInt64.ofNat (n + 1) := by
      rintro rfl
      omega
    rw [h.above k (by omega), KvStore.write_put, if_neg hne]
  by_cases hk : k = UInt64.ofNat (n + 1)
  · subst hk
    refine ⟨cur, ?_, Stands.lineage ⟨header, hheader, hheight⟩⟩
    rw [h.above _ (by omega), KvStore.write_put, if_pos rfl]
  have hlt : k.toNat ≤ n := by
    have hne : k.toNat ≠ n + 1 := fun heq => hk (UInt64.toNat_inj.mp (heq.trans hnat.symm))
    omega
  obtain ⟨hash, hentry, hon⟩ := h.within k hfloor hlt
  refine ⟨hash, hentry, ?_⟩
  have hne0 : UInt64.ofNat (n + 1) ≠ 0 := by
    intro h0
    rw [h0] at hnat
    cases hnat
  rw [lineage_parent_iff hheader hheight hne0, saturatingSub_ofNat_succ hn]
  · exact hon
  · rw [UInt64.lt_iff_toNat_lt, hnat]
    exact Nat.lt_succ_of_le hlt

theorem canonicalWalk_covers (hs : IndexSound s) (hn : n < UInt64.size)
    (hsame : ∀ h : UInt64, h.toNat ≤ n → entries h = s.canonicalEntry h)
    (henter : n + 1 < UInt64.size ∨ Stands s ⟨cur, UInt64.ofNat n⟩) :
    Covers s n cur entries (s.canonicalWalk n cur entries) := by
  induction n generalizing cur entries
  all_goals
    rcases canonicalWalk_cases s _ cur entries with ⟨floor, hindexed, hwalk⟩ | ⟨hnot, hwalk⟩ |
      ⟨header, hheader, hheight, hwalk⟩
    · rw [hwalk]
      exact .of_indexed hs hn hsame hindexed
    · rw [hwalk]
      exact .of_missing (henter.resolve_right hnot)
    rw [hwalk]
  case zero => exact .of_bottom ⟨header, hheader, hheight⟩
  case succ n ih =>
    refine .step hn hheader hheight (ih (Nat.lt_of_succ_lt hn) ?_ (.inl hn))
    intro h hle
    have hne : h ≠ UInt64.ofNat (n + 1) := by
      rintro rfl
      rw [UInt64.toNat_ofNat_of_lt' hn] at hle
      omega
    rw [KvStore.write_put, if_neg hne]
    exact hsame h (Nat.le_succ_of_le hle)

theorem canonicalWalk_floor_le {bottom : UInt64}
    (hfloor : ∀ m, s.canonicalMarker = some m → m.floor ≤ bottom) (hn : n < UInt64.size)
    (hdown : ∀ h : UInt64, bottom ≤ h → h.toNat ≤ n →
      ∃ hash, Lineage s ⟨cur, UInt64.ofNat n⟩ ⟨hash, h⟩) :
    (s.canonicalWalk n cur entries).1 ≤ bottom := by
  have hmet : ∀ {cur height floor}, s.indexed cur height = some floor → floor ≤ bottom := by
    intro cur height floor hindexed
    obtain ⟨m, hm, rfl, -⟩ := indexed_eq_some hindexed
    exact hfloor m hm
  have hmissing : ∀ {cur k}, k < UInt64.size → ¬Stands s ⟨cur, UInt64.ofNat k⟩ →
      (∀ h : UInt64, bottom ≤ h → h.toNat ≤ k → ∃ hash, Lineage s ⟨cur, UInt64.ofNat k⟩ ⟨hash, h⟩) →
      saturatingAdd (UInt64.ofNat k) 1 ≤ bottom := by
    intro cur k hk hnot hdown
    have hnat : (UInt64.ofNat k).toNat = k := UInt64.toNat_ofNat_of_lt' hk
    have hlt : UInt64.ofNat k < bottom := by
      refine not_le.mp fun hle => hnot (stands_of_lineage (hdown _ hle hnat.le))
    exact succ_le_of_lt hlt
  induction n generalizing cur entries
  all_goals
    rcases canonicalWalk_cases s _ cur entries with ⟨floor, hindexed, hwalk⟩ | ⟨hnot, hwalk⟩ |
      ⟨header, hheader, hheight, hwalk⟩
    · rw [hwalk]
      exact hmet hindexed
    · rw [hwalk]
      exact hmissing hn hnot hdown
    rw [hwalk]
  case zero => exact UInt64.zero_le
  case succ n ih =>
    refine ih (Nat.lt_of_succ_lt hn) fun h hbottom hle => ?_
    obtain ⟨hash, hon⟩ := hdown h hbottom (Nat.le_succ_of_le hle)
    have hnat : (UInt64.ofNat (n + 1)).toNat = n + 1 := UInt64.toNat_ofNat_of_lt' hn
    have hne0 : UInt64.ofNat (n + 1) ≠ 0 := by
      intro h0
      rw [h0] at hnat
      cases hnat
    have hlt : h < UInt64.ofNat (n + 1) := by
      rw [UInt64.lt_iff_toNat_lt, hnat]
      exact Nat.lt_succ_of_le hle
    rw [lineage_parent_iff hheader hheight hne0 hlt, saturatingSub_ofNat_succ hn] at hon
    exact ⟨hash, hon⟩

end Covers

/-- A tip at the greatest height, above which no floor can lie, has its header stored. -/
def Enterable (s : BlockStore) (tip : AppliedTip) : Prop :=
  tip.height = maxWord → Stands s tip

def HeadersDown (s : BlockStore) (tip : AppliedTip) : Prop :=
  ∀ h, h ≤ tip.height → ∃ hash, Lineage s tip ⟨hash, h⟩

theorem Enterable.lt_or_stands (h : Enterable s tip) :
    tip.height.toNat + 1 < UInt64.size ∨ Stands s ⟨tip.hash, UInt64.ofNat tip.height.toNat⟩ := by
  rw [UInt64.ofNat_toNat]
  have hlt := tip.height.toNat_lt_size
  by_cases hmax : tip.height.toNat + 1 < UInt64.size
  · exact .inl hmax
  · have hword : maxWord.toNat = UInt64.size - 1 := rfl
    refine .inr (h (UInt64.toNat_inj.mp ?_))
    omega

theorem stageCanonicalIndex_sound (hs : IndexSound s) (h : Enterable s tip) :
    IndexSound (s.stageCanonicalIndex tip) := by
  unfold stageCanonicalIndex
  split
  · exact hs
  · have hcovers : Covers s tip.height.toNat tip.hash s.canonicalEntry _ :=
      canonicalWalk_covers hs tip.height.toNat_lt_size (fun _ _ => rfl) h.lt_or_stands
    rintro m hm k hfloor hle
    cases hm
    have hon := hcovers.within k hfloor (UInt64.le_iff_toNat_le.mp hle)
    rwa [UInt64.ofNat_toNat] at hon

theorem stageCanonicalIndex_floor_le {bottom : UInt64}
    (hfloor : ∀ m, s.canonicalMarker = some m → m.floor ≤ bottom)
    (h : ∀ k, bottom ≤ k → k ≤ tip.height → ∃ hash, Lineage s tip ⟨hash, k⟩) :
    ∀ m, (s.stageCanonicalIndex tip).canonicalMarker = some m → m.floor ≤ bottom := by
  unfold stageCanonicalIndex
  split
  · exact hfloor
  · intro m hm
    cases hm
    refine canonicalWalk_floor_le hfloor tip.height.toNat_lt_size fun k hbottom hle => ?_
    rw [UInt64.ofNat_toNat]
    exact h k hbottom (UInt64.le_iff_toNat_le.mpr hle)

theorem stageCanonicalIndex_tip (s : BlockStore) (tip : AppliedTip) :
    (s.stageCanonicalIndex tip).canonicalIndexTip = some tip := by
  unfold stageCanonicalIndex
  split
  · rename_i h
    exact h
  · rfl

inductive IndexOp
  | putBlock (b : Block)
  | putAppliedTip (tip : AppliedTip)

namespace IndexOp

def apply (s : BlockStore) : IndexOp → BlockStore
  | putBlock b => s.putBlock b
  | putAppliedTip tip => s.putAppliedTip tip

def Meets (s : BlockStore) : IndexOp → Prop
  | putBlock b => ∀ header, s.getHeader b.hash = some header → header = b.header
  | putAppliedTip tip => Enterable s tip

def Whole (s : BlockStore) : IndexOp → Prop
  | putBlock _ => True
  | putAppliedTip tip => HeadersDown s tip

end IndexOp

def IndexStep (s : BlockStore) (op : IndexOp) (s' : BlockStore) : Prop :=
  op.Meets s ∧ s' = op.apply s

def WholeStep (s : BlockStore) (op : IndexOp) (s' : BlockStore) : Prop :=
  IndexStep s op s' ∧ op.Whole s

def Unapplied (s : BlockStore) : Prop := s.appliedTip = none ∧ s.canonicalMarker = none

structure Indexed (s : BlockStore) : Prop where
  sound : IndexSound s
  tip : s.canonicalIndexTip = s.appliedTip

theorem keeps_putBlock {b : Block} (h : (IndexOp.putBlock b).Meets s) : Keeps s (s.putBlock b) := by
  intro hash header hheader
  have hwrite : (s.putBlock b).getHeader hash =
      ((if hash = b.hash then some b else s.blocks hash).map Block.header) := by
    rw [← KvStore.write_put]
    rfl
  rw [hwrite]
  split
  · rename_i heq
    subst heq
    exact congrArg some (h header hheader).symm
  · exact hheader

theorem IndexSound.mono (hk : Keeps s s') (hmarker : s'.canonicalMarker = s.canonicalMarker)
    (hentry : s'.canonicalEntry = s.canonicalEntry) (h : IndexSound s) : IndexSound s' := by
  intro m hm k hfloor hle
  rw [hmarker] at hm
  obtain ⟨hash, hhash, hon⟩ := h m hm k hfloor hle
  rw [hentry]
  exact ⟨hash, hhash, hon.mono hk⟩

theorem Indexed.step {op : IndexOp} (h : Indexed s) (hstep : IndexStep s op s') : Indexed s' := by
  obtain ⟨hmeets, rfl⟩ := hstep
  cases op with
  | putBlock b => exact ⟨h.sound.mono (keeps_putBlock hmeets) rfl rfl, h.tip⟩
  | putAppliedTip tip =>
    exact ⟨stageCanonicalIndex_sound h.sound hmeets, stageCanonicalIndex_tip s tip⟩

theorem floor_step {op : IndexOp} (h : ∀ m, s.canonicalMarker = some m → m.floor ≤ 0)
    (hstep : WholeStep s op s') : ∀ m, s'.canonicalMarker = some m → m.floor ≤ 0 := by
  obtain ⟨⟨-, rfl⟩, hwhole⟩ := hstep
  cases op with
  | putBlock b => exact h
  | putAppliedTip tip => exact stageCanonicalIndex_floor_le h fun k _ hle => hwhole k hle

theorem Unapplied.indexed (h : Unapplied s) : Indexed s := by
  obtain ⟨htip, hmarker⟩ := h
  refine ⟨fun m hm => ?_, ?_⟩
  · cases hmarker.symm.trans hm
  · rw [canonicalIndexTip, hmarker, htip]
    rfl

theorem Indexed.lookup (h : Indexed s) (htip : s.appliedTip = some tip) (hle : k ≤ tip.height) :
    ∃ m, s.canonicalMarker = some m ∧ m.tip = tip ∧
      s.getCanonicalBlockByHeight k = if k < m.floor then none else s.canonicalEntry k := by
  have hindexTip : s.canonicalMarker.map (·.tip) = some tip := h.tip.trans htip
  obtain ⟨m, hm, rfl⟩ := Option.map_eq_some_iff.mp hindexTip
  refine ⟨m, hm, rfl, ?_⟩
  have hstaged : s.stageCanonicalIndex m.tip = s := by
    unfold stageCanonicalIndex
    rw [if_pos hindexTip]
  unfold getCanonicalBlockByHeight
  simp only [htip, hstaged, hm, if_neg (not_lt.mpr hle)]

/-- In every run that never replaces a stored header and enters the greatest height only with its
header stored, a lookup at or below the applied tip finds the tip's selected-parent ancestor at that
height or nothing, and the ancestor if each written tip had its headers stored down to height
zero. -/
theorem canonical_lookup_exact {s₀ : BlockStore} {ops : List IndexOp} {k : UInt64}
    (hstart : Unapplied s₀) (hrun : Transition.Runs IndexStep s₀ ops s)
    (htip : s.appliedTip = some tip) (hle : k ≤ tip.height) :
    (∀ hash, s.getCanonicalBlockByHeight k = some hash → Lineage s tip ⟨hash, k⟩) ∧
      (Transition.Runs WholeStep s₀ ops s →
        ∃ hash, s.getCanonicalBlockByHeight k = some hash ∧ Lineage s tip ⟨hash, k⟩) := by
  have hindexed := hrun.invariant hstart.indexed fun _ _ _ h hstep => h.step hstep
  obtain ⟨m, hm, rfl, hget⟩ := hindexed.lookup htip hle
  have hcovered := hindexed.sound m hm k
  rw [hget]
  refine ⟨fun hash hfound => ?_, fun hwhole => ?_⟩
  · rw [Option.ite_none_left_eq_some] at hfound
    obtain ⟨hfloor, hentry⟩ := hfound
    obtain ⟨hash', hentry', hon⟩ := hcovered (not_lt.mp hfloor) hle
    rw [hentry, Option.some.injEq] at hentry'
    rwa [hentry']
  have hempty : ∀ m, s₀.canonicalMarker = some m → m.floor ≤ 0 := by
    intro m hm
    cases hstart.2.symm.trans hm
  have hzero := hwhole.invariant hempty (fun _ _ _ h hstep => floor_step h hstep) m hm
  have hfloor : m.floor ≤ k := le_trans hzero UInt64.zero_le
  rw [if_neg (not_lt.mpr hfloor)]
  exact hcovered hfloor hle

def forkedBlocks : List IndexOp :=
  [.putBlock { header := { blockHash := 10 } },
    .putBlock { header := { blockHash := 11, height := 1, selectedParentHash := 10 } },
    .putBlock { header := { blockHash := 21, height := 1, selectedParentHash := 10 } }]

def forkedStore : BlockStore := forkedBlocks.foldl IndexOp.apply .empty

theorem forkedStore_runs : Transition.Runs WholeStep .empty forkedBlocks forkedStore :=
  .step (.step (.step .refl ⟨⟨nofun, rfl⟩, trivial⟩) ⟨⟨nofun, rfl⟩, trivial⟩) ⟨⟨nofun, rfl⟩, trivial⟩

theorem forkedStore_headersDown {hash : Hash} (h : Stands forkedStore ⟨hash, 1⟩)
    (hparent : Below forkedStore ⟨hash, 1⟩ ⟨10, 0⟩) : HeadersDown forkedStore ⟨hash, 1⟩ := by
  intro k hle
  have hle : k.toNat ≤ 1 := UInt64.le_iff_toNat_le.mp hle
  rcases Nat.le_one_iff_eq_zero_or_eq_one.mp hle with h0 | h1
  · obtain rfl : k = 0 := UInt64.toNat_inj.mp h0
    exact ⟨10, h.lineage.tail (.single hparent)⟩
  · obtain rfl : k = 1 := UInt64.toNat_inj.mp h1
    exact ⟨hash, h.lineage⟩

theorem canonical_lookup_exact_sibling :
    (((forkedStore.putAppliedTip ⟨11, 1⟩).putAppliedTip ⟨21, 1⟩).getCanonicalBlockByHeight 1 =
      some 21) ∧
      Lineage ((forkedStore.putAppliedTip ⟨11, 1⟩).putAppliedTip ⟨21, 1⟩) ⟨21, 1⟩ ⟨21, 1⟩ := by
  have h11 : HeadersDown forkedStore ⟨11, 1⟩ := forkedStore_headersDown ⟨_, rfl, rfl⟩
    ⟨_, rfl, rfl, rfl, by decide, _, rfl, rfl⟩
  have h21 : HeadersDown forkedStore ⟨21, 1⟩ := forkedStore_headersDown ⟨_, rfl, rfl⟩
    ⟨_, rfl, rfl, rfl, by decide, _, rfl, rfl⟩
  have hone : (1 : UInt64) ≠ maxWord := by decide
  have hlow : ∀ s hash, (IndexOp.putAppliedTip ⟨hash, 1⟩).Meets s :=
    fun _ _ hmax => absurd hmax hone
  have hrun : Transition.Runs WholeStep .empty
      (forkedBlocks ++ [.putAppliedTip ⟨11, 1⟩] ++ [.putAppliedTip ⟨21, 1⟩])
      ((forkedStore.putAppliedTip ⟨11, 1⟩).putAppliedTip ⟨21, 1⟩) :=
    (forkedStore_runs.step ⟨⟨hlow _ 11, rfl⟩, h11⟩).step ⟨⟨hlow _ 21, rfl⟩, h21⟩
  have hexact := canonical_lookup_exact (k := 1) ⟨rfl, rfl⟩ (hrun.imp fun _ _ _ _ h => h.1) rfl
    (by decide)
  have hfound : ((forkedStore.putAppliedTip ⟨11, 1⟩).putAppliedTip
      ⟨21, 1⟩).getCanonicalBlockByHeight 1 = some 21 := by decide +kernel
  exact ⟨hfound, hexact.1 21 hfound⟩

/-- Block 1 at the greatest height is stored and applied; then block 2 beside it, which is not
stored. -/
def saturatedStore : BlockStore :=
  [IndexOp.putBlock { header := { blockHash := 1, height := maxWord } },
    .putAppliedTip ⟨1, maxWord⟩, .putAppliedTip ⟨2, maxWord⟩].foldl IndexOp.apply .empty

theorem saturated_floor_names_previous_tip : saturatedStore.appliedTip = some ⟨2, maxWord⟩ ∧
      saturatedStore.getCanonicalBlockByHeight maxWord = some 1 ∧
      ¬Lineage saturatedStore ⟨2, maxWord⟩ ⟨1, maxWord⟩ := by
  refine ⟨by decide +kernel, by decide +kernel, ?_⟩
  have hmissing : saturatedStore.getHeader 2 = none := by decide
  rintro ⟨start, hhash, -, ⟨header, hheader, -⟩, -⟩
  rw [hhash, hmissing] at hheader
  cases hheader

end CitrateChain.Node
