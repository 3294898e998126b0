import CitrateChain.Node.AppliedChain

/-! # One descending walk of the applied chain

The lineage of a tip is what its stored headers say: the tip's block, its selected parent, and so on
as long as the parent is stored and strictly lower. A walk that is asked for one height after another
answers from that lineage, exactly as a fresh walk for each height does, and never reads a header
twice. -/
namespace CitrateChain.Node
open Relation (ReflTransGen)
open Consensus (Hash Block BlockHeader)
open Storage AppliedWalk

def Stands (s : BlockStore) (x : AppliedTip) : Prop :=
  ∃ header, s.getHeader x.hash = some header ∧ header.height = x.height

def Below (s : BlockStore) (x y : AppliedTip) : Prop :=
  ∃ header, s.getHeader x.hash = some header ∧ header.height = x.height ∧
    y.hash = header.selectedParentHash ∧ y.height < x.height ∧ Stands s y

/-- `x` is the block of `tip` or one of its selected-parent ancestors. The block of the tip stands
at the tip's height or, in a store that disagrees with the pointer, below it. -/
def Lineage (s : BlockStore) (tip x : AppliedTip) : Prop :=
  ∃ start : AppliedTip, start.hash = tip.hash ∧ start.height ≤ tip.height ∧ Stands s start ∧
    ReflTransGen (Below s) start x

structure StoredChain (s : BlockStore) (tip : AppliedTip) : Prop where
  top : Stands s tip
  parent : ∀ x, Lineage s tip x → x.height ≠ 0 → ∃ y, Below s x y

section Lineages
variable {s : BlockStore} {tip x y z : AppliedTip} {header : BlockHeader}

theorem Stands.unique (hx : Stands s x) (hy : Stands s y) (h : x.hash = y.hash) : x = y := by
  obtain ⟨hd, hhd, hheight⟩ := hx
  obtain ⟨hd', hhd', hheight'⟩ := hy
  cases x
  cases y
  simp_all

theorem Below.stands (h : Below s x y) : Stands s y := by
  obtain ⟨-, -, -, -, -, hy⟩ := h
  exact hy

theorem below_descends (s : BlockStore) : Descent.Descends (Below s) fun x => x.height.toNat where
  unique := by
    rintro x y z ⟨hd, hhd, -, hy, -, hys⟩ ⟨hd', hhd', -, hz, -, hzs⟩
    rw [hhd, Option.some.injEq] at hhd'
    subst hhd'
    exact hys.unique hzs (hy.trans hz.symm)
  lt := by
    rintro x y ⟨-, -, -, -, hlt, -⟩
    exact UInt64.lt_iff_toNat_lt.mp hlt

theorem Stands.lineage (h : Stands s tip) : Lineage s tip tip := ⟨tip, rfl, le_rfl, h, .refl⟩

theorem Lineage.tail (h : Lineage s tip x) (hxy : ReflTransGen (Below s) x y) : Lineage s tip y := by
  obtain ⟨start, hhash, hheight, hstart, hx⟩ := h
  exact ⟨start, hhash, hheight, hstart, hx.trans hxy⟩

theorem Lineage.height_le (h : Lineage s tip x) : x.height ≤ tip.height := by
  obtain ⟨start, -, hheight, -, hx⟩ := h
  have hle := (below_descends s).rank_le hx
  exact le_trans (UInt64.le_iff_toNat_le.mpr hle) hheight

theorem Lineage.unique (hx : Lineage s tip x) (hy : Lineage s tip y) (h : x.height = y.height) :
    x = y := by
  obtain ⟨start, hhash, -, hstart, hx⟩ := hx
  obtain ⟨start', hhash', -, hstart', hy⟩ := hy
  obtain rfl := hstart.unique hstart' (hhash.trans hhash'.symm)
  exact (below_descends s).eq_of_reaches hx hy (congrArg UInt64.toNat h)

theorem lt_iff_le_pred {a b : UInt64} (hb : b ≠ 0) : a < b ↔ a ≤ Word.saturatingSub b 1 := by
  rw [saturatingSub_one hb, UInt64.lt_iff_toNat_lt, UInt64.le_iff_toNat_le]
  have := toNat_sub_one hb
  omega

theorem reaches_iff (hheader : s.getHeader x.hash = some header) (hheight : header.height = x.height)
    (hne : x.height ≠ 0) : ReflTransGen (Below s) x y ↔
      x = y ∨ Lineage s ⟨header.selectedParentHash, Word.saturatingSub x.height 1⟩ y := by
  constructor
  · intro h
    rcases ReflTransGen.cases_head h with heq | ⟨z, ⟨hd, hhd, -, hz, hlt, hzs⟩, hzy⟩
    · exact .inl heq
    · rw [hheader, Option.some.injEq] at hhd
      subst hhd
      exact .inr ⟨z, hz, (lt_iff_le_pred hne).mp hlt, hzs, hzy⟩
  · rintro (rfl | ⟨z, hz, hle, hzs, hzy⟩)
    · exact .refl
    · exact .head ⟨header, hheader, hheight, hz, (lt_iff_le_pred hne).mpr hle, hzs⟩ hzy

theorem StoredChain.bottom (h : Stands s x) (h0 : x.height = 0) : StoredChain s x := by
  refine ⟨h, fun y hy hne => absurd ?_ hne⟩
  have hle := UInt64.le_iff_toNat_le.mp hy.height_le
  rw [h0] at hle
  exact UInt64.toNat_inj.mp (Nat.le_zero.mp hle)

theorem StoredChain.step (h : StoredChain s y) (hx : Stands s x) (hxy : Below s x y) :
    StoredChain s x := by
  refine ⟨hx, ?_⟩
  rintro z ⟨start, hhash, -, hstart, hz⟩ hne
  obtain rfl := hstart.unique hx hhash
  rcases ReflTransGen.cases_head hz with rfl | ⟨v, hv, hvz⟩
  · exact ⟨y, hxy⟩
  · obtain rfl := (below_descends s).unique hxy hv
    exact h.parent z ⟨y, rfl, le_rfl, hv.stands, hvz⟩ hne

end Lineages

section Fresh
variable {s : BlockStore} {tip : AppliedTip} {target : UInt64} {found : Option Hash}

theorem lineage_iff {cursor : Hash} {max : UInt64} {header : BlockHeader} {x : AppliedTip}
    (hheader : s.getHeader cursor = some header) (hle : header.height ≤ max) :
    Lineage s ⟨cursor, max⟩ x ↔ ReflTransGen (Below s) ⟨cursor, header.height⟩ x := by
  have hstands : Stands s ⟨cursor, header.height⟩ := ⟨header, hheader, rfl⟩
  constructor
  · rintro ⟨start, hhash, -, hstart, hx⟩
    obtain rfl := hstart.unique hstands hhash
    exact hx
  · intro hx
    exact ⟨⟨cursor, header.height⟩, rfl, hle, hstands, hx⟩

theorem appliedHashWalk_iff {n : ℕ} {cursor : Hash} {max : UInt64}
    (h : appliedHashWalk s tip target n cursor max = .ok found) (hash : Hash) :
    found = some hash ↔ Lineage s ⟨cursor, max⟩ ⟨hash, target⟩ := by
  fun_induction appliedHashWalk s tip target n cursor max with
  | case1 | case2 | case3 => cases h
  | case4 n cursor max header hheader height hle heq =>
    cases h
    rw [lineage_iff hheader (not_lt.mp hle)]
    constructor
    · intro hfound
      cases hfound
      rw [← heq]
    · intro hx
      have := (below_descends s).eq_of_rank_eq hx (congrArg UInt64.toNat heq)
      exact congrArg some (congrArg AppliedTip.hash this)
  | case5 n cursor max header hheader height hle hne hlow =>
    cases h
    rw [lineage_iff hheader (not_lt.mp hle)]
    refine iff_of_false nofun fun hx => ?_
    have hrank := (below_descends s).rank_le hx
    rcases hlow with hlow | hzero
    · exact absurd (UInt64.lt_iff_toNat_lt.mp hlow) (not_lt.mpr hrank)
    · have hle0 : target ≤ height := UInt64.le_iff_toNat_le.mpr hrank
      rw [hzero] at hle0 hne
      exact hne (le_antisymm UInt64.zero_le hle0)
  | case6 n cursor max header hheader height hle hne hhigh ih =>
    rw [lineage_iff hheader (not_lt.mp hle),
      reaches_iff (x := ⟨cursor, height⟩) hheader rfl fun h0 => hhigh (.inr h0), ih h]
    exact (or_iff_right fun heq => hne (congrArg AppliedTip.height heq)).symm

theorem appliedHashAtHeight_iff (h : appliedHashAtHeight s tip target = .ok found) (hash : Hash) :
    found = some hash ↔ Lineage s tip ⟨hash, target⟩ := by
  unfold appliedHashAtHeight at h
  split at h
  · rename_i hlt
    cases h
    exact iff_of_false nofun fun hx => not_lt.mpr hx.height_le hlt
  · exact appliedHashWalk_iff h hash

variable {g : Hash} {x y : AppliedTip}

theorem Below.parent (hwf : WellFormed g s.blocks) (h : Below s x y) : Parent s.blocks x y := by
  obtain ⟨header, hheader, hheight, hhash, hlt, header', hheader', hheight'⟩ := h
  obtain ⟨b, hb, rfl⟩ := Option.map_eq_some_iff.mp hheader
  obtain ⟨p, hp, rfl⟩ := Option.map_eq_some_iff.mp hheader'
  have hheight : b.height = x.height := hheight
  have hheight' : p.height = y.height := hheight'
  have hhash : y.hash = b.selectedParent := hhash
  have hne : x.height ≠ 0 := (lt_of_le_of_lt UInt64.zero_le hlt).ne'
  rw [hhash] at hp
  have hdrop := hwf.parent hb (hheight ▸ hne) hp
  refine ⟨b, hb, hheight, hne, ?_⟩
  have hpred := toNat_sub_one hne
  have hy : y.height = x.height - 1 := by
    rw [← UInt64.toNat_inj, ← hheight']
    rw [hheight] at hdrop
    omega
  rw [← hhash, ← hy]

theorem Lineage.onChain (hwf : WellFormed g s.blocks) (hr : Rooted g s.blocks tip)
    (h : Lineage s tip x) : OnChain s.blocks tip x := by
  obtain ⟨start, hhash, -, hstart, hx⟩ := h
  obtain ⟨header, hheader, -⟩ := id hstart
  rw [hhash] at hheader
  obtain ⟨b, hb, rfl⟩ := Option.map_eq_some_iff.mp hheader
  obtain rfl := hstart.unique ⟨b.header, hheader, hr.height_eq hwf hb⟩ hhash
  exact ReflTransGen.mono (fun _ _ => Below.parent hwf) _ _ hx

theorem appliedHashAtHeight_sound {hash : Hash} (hwf : WellFormed g s.blocks) (hr : Rooted g s.blocks tip)
    (h : appliedHashAtHeight s tip target = .ok (some hash)) : OnChain s.blocks tip ⟨hash, target⟩ :=
  ((appliedHashAtHeight_iff h hash).mp rfl).onChain hwf hr

end Fresh

namespace AppliedWalk
variable {s : BlockStore} {tip : AppliedTip} {target : UInt64} {w w' : AppliedWalk}

def Ahead (s : BlockStore) (w : AppliedWalk) (x : AppliedTip) : Prop :=
  match w.stands with
  | some p => ReflTransGen (Below s) p x
  | none => Lineage s ⟨w.next, w.maxHeight⟩ x

/-- A walk down the lineage of `tip` that has gone past no block of the heights `left`. -/
structure Walking (s : BlockStore) (tip : AppliedTip) (left : UInt64 → Prop) (w : AppliedWalk) :
    Prop where
  root : w.tip = tip
  here : ∀ p, w.stands = some p → p.height ≤ w.maxHeight ∧ ∃ header,
    s.getHeader p.hash = some header ∧ header.height = p.height ∧ header.selectedParentHash = w.next
  sound : ∀ x, w.Ahead s x → Lineage s tip x
  complete : ∀ x, Lineage s tip x → left x.height → w.Ahead s x
  stored : StoredChain s tip → ∃ x, w.Ahead s x

theorem walking_new (s : BlockStore) (tip : AppliedTip) (left : UInt64 → Prop) :
    Walking s tip left (.new tip) where
  root := rfl
  here := nofun
  sound := fun _ hx => hx
  complete := fun _ hx _ => hx
  stored := fun hstored => ⟨tip, hstored.top.lineage⟩

section Walking
variable {left left' : UInt64 → Prop}

theorem Walking.mono (h : Walking s tip left w) (hsub : ∀ k, left' k → left k) :
    Walking s tip left' w :=
  { h with complete := fun x hx hl => h.complete x hx (hsub _ hl) }

theorem Walking.read {r : Except String AppliedTip} (h : Walking s tip left w)
    (hread : w.read s = (r, w')) :
    (∃ e, r = .error e ∧ w'.failed = some e ∧ ¬StoredChain s tip) ∨
      ∃ p, r = .ok p ∧ w'.stands = some p ∧ w'.failed = w.failed ∧ w'.lastTarget = w.lastTarget ∧
        w'.maxHeight = w.maxHeight ∧ Walking s tip left w' := by
  have hahead : w.stands = none → ∀ x, w.Ahead s x ↔ Lineage s ⟨w.next, w.maxHeight⟩ x := by
    intro hstands
    simp [Ahead, hstands]
  revert hread
  fun_cases w.read s with
  | case1 p hp =>
    rintro ⟨⟩
    exact .inr ⟨p, rfl, hp, rfl, rfl, rfl, h⟩
  | case2 hstands hnone =>
    rintro ⟨⟩
    refine .inl ⟨_, rfl, rfl, fun hstored => ?_⟩
    obtain ⟨x, hx⟩ := h.stored hstored
    obtain ⟨start, hhash, -, ⟨header, hheader, -⟩, -⟩ := (hahead hstands x).mp hx
    rw [hhash, hnone] at hheader
    cases hheader
  | case3 hstands header hheader hlt =>
    rintro ⟨⟩
    refine .inl ⟨_, rfl, rfl, fun hstored => ?_⟩
    obtain ⟨x, hx⟩ := h.stored hstored
    obtain ⟨start, hhash, hle, ⟨header', hheader', hheight⟩, -⟩ := (hahead hstands x).mp hx
    rw [hhash, hheader, Option.some.injEq] at hheader'
    rw [← hheight, ← hheader'] at hle
    exact absurd hlt (not_lt.mpr hle)
  | case4 hstands header hheader hle here =>
    rintro ⟨⟩
    refine .inr ⟨_, rfl, rfl, rfl, rfl, rfl, ?_⟩
    -- the walk reads the block its lineage starts with, so nothing ahead of it changes
    have hsame : ∀ x, w.Ahead s x ↔ ReflTransGen (Below s) here x :=
      fun x => (hahead hstands x).trans (lineage_iff hheader (not_lt.mp hle))
    refine ⟨h.root, ?_, fun x hx => h.sound x ((hsame x).mpr hx),
      fun x hx hl => (hsame x).mp (h.complete x hx hl), fun _ => ⟨_, .refl⟩⟩
    intro p hp
    cases hp
    exact ⟨not_lt.mp hle, header, hheader, rfl, rfl⟩

variable (h : Walking s tip (· ≤ target) w)
include h

theorem Walking.parent {p : AppliedTip} (hp : w.stands = some p) (hne : p.height ≠ 0)
    (hlt : target < p.height) : Walking s tip (· ≤ target)
      { w with maxHeight := Word.saturatingSub p.height 1, stands := none } := by
  obtain ⟨-, header, hheader, hheight, hnext⟩ := h.here p hp
  have hahead : ∀ x, w.Ahead s x ↔ p = x ∨ Lineage s ⟨w.next, Word.saturatingSub p.height 1⟩ x := by
    intro x
    rw [← hnext, ← reaches_iff hheader hheight hne]
    simp [Ahead, hp]
  refine ⟨h.root, nofun, fun x hx => h.sound x ((hahead x).mpr (.inr hx)), ?_, ?_⟩
  · intro x hx hle
    rcases (hahead x).mp (h.complete x hx hle) with rfl | hx
    · exact absurd hlt (not_lt.mpr hle)
    · exact hx
  · intro hstored
    obtain ⟨y, hy⟩ := hstored.parent p (h.sound p ((hahead p).mpr (.inl rfl))) hne
    rcases (hahead y).mp (by simpa [Ahead, hp] using ReflTransGen.single hy) with rfl | hy'
    · exact absurd ((below_descends s).lt hy) (lt_irrefl _)
    · exact ⟨y, hy'⟩

theorem Walking.found {p : AppliedTip} (hp : w.stands = some p) (hle : p.height ≤ target)
    (hash : Hash) :
    (if p.height = target then some p.hash else none) = some hash ↔ Lineage s tip ⟨hash, target⟩ := by
  have hahead : ∀ x, w.Ahead s x ↔ ReflTransGen (Below s) p x := by
    simp [Ahead, hp]
  constructor
  · intro heq
    rw [Option.ite_none_right_eq_some, Option.some.injEq] at heq
    obtain ⟨rfl, rfl⟩ := heq
    exact h.sound _ ((hahead _).mpr .refl)
  · intro hx
    have hreach := (hahead _).mp (h.complete _ hx le_rfl)
    have hrank := (below_descends s).rank_le hreach
    have heq : p.height = target := le_antisymm hle (UInt64.le_iff_toNat_le.mpr hrank)
    have := (below_descends s).eq_of_rank_eq hreach (congrArg UInt64.toNat heq)
    rw [if_pos heq, congrArg AppliedTip.hash this]

theorem Walking.descend {n : ℕ} {r : Except String (Option Hash)} (hn : w.maxHeight.toNat < n)
    (hdescend : descend s target n w = (r, w')) :
    (∃ e, r = .error e ∧ w'.failed = some e ∧ ¬StoredChain s tip) ∨
      ∃ found, r = .ok found ∧ w'.failed = w.failed ∧ w'.lastTarget = w.lastTarget ∧
        Walking s tip (· ≤ target) w' ∧ ∀ hash, found = some hash ↔ Lineage s tip ⟨hash, target⟩ := by
  induction n generalizing w with
  | zero => omega
  | succ n ih =>
    unfold descend at hdescend
    rcases hread : w.read s with ⟨r', u⟩
    rw [hread] at hdescend
    rcases h.read hread with ⟨e, rfl, hfail, hnot⟩ | ⟨p, rfl, hp, hfail, hlast, hmax, hu⟩
    · cases hdescend
      exact .inl ⟨e, rfl, hfail, hnot⟩
    simp only at hdescend
    split at hdescend
    · rename_i heq
      cases hdescend
      refine .inr ⟨_, rfl, hfail, hlast, hu, fun hash => ?_⟩
      rw [← hu.found hp heq.le, if_pos heq]
    rename_i hne
    split at hdescend
    · rename_i hlow
      cases hdescend
      refine .inr ⟨_, rfl, hfail, hlast, hu, fun hash => ?_⟩
      have hle : p.height ≤ target := by
        rcases hlow with hlt | hzero
        · exact hlt.le
        · rw [hzero]
          exact UInt64.zero_le
      rw [← hu.found hp hle, if_neg hne]
    · rename_i hhigh
      obtain ⟨hnlt, hne0⟩ := not_or.mp hhigh
      have hlt : target < p.height := lt_of_le_of_ne (not_lt.mp hnlt) (Ne.symm hne)
      have hbound := UInt64.le_iff_toNat_le.mp (hu.here p hp).1
      rw [hmax] at hbound
      have hpred : (Word.saturatingSub p.height 1).toNat < n := by
        rw [saturatingSub_one hne0]
        have := toNat_sub_one hne0
        omega
      rw [← hfail, ← hlast]
      exact ih (w := { u with maxHeight := Word.saturatingSub p.height 1, stands := none })
        (hu.parent hp hne0 hlt) hpred hdescend

end Walking

/-- Between two calls the walk has gone past no block below the last height it was asked for. -/
def Ready (s : BlockStore) (tip : AppliedTip) (w : AppliedWalk) : Prop :=
  w.failed = none → Walking s tip (fun k => ∀ t ∈ w.lastTarget, k < t) w

theorem ready_new (s : BlockStore) (tip : AppliedTip) : Ready s tip (.new tip) :=
  fun _ => walking_new s tip _

variable {r : Except String (Option Hash)}

theorem Ready.cases (h : Ready s tip w) (hfailed : w.failed = none)
    (hat : w.hashAt s target = (r, w')) :
    ((∃ t ∈ w.lastTarget, t ≤ target) ∧ (∃ e, r = .error e) ∧ w' = w) ∨
    (∃ e, r = .error e ∧ w'.failed = some e ∧ ¬StoredChain s tip) ∨
    ∃ found, r = .ok found ∧ (∀ t ∈ w.lastTarget, target < t) ∧ w'.failed = none ∧
      w'.lastTarget = some target ∧ Ready s tip w' ∧
      ∀ hash, found = some hash ↔ Lineage s tip ⟨hash, target⟩ := by
  have hw := h hfailed
  obtain ⟨root, stands, next, maxHeight, lastTarget, failed⟩ := w
  obtain rfl : failed = none := hfailed
  unfold hashAt at hat
  simp only at hat
  split at hat
  · rename_i hany
    cases hat
    cases lastTarget with
    | none => simp at hany
    | some t => exact .inl ⟨⟨t, rfl, by simpa using hany⟩, ⟨_, rfl⟩, rfl⟩
  rename_i hany
  have hbelow : ∀ t ∈ lastTarget, target < t := by
    intro t ht
    refine not_le.mp fun hle => hany ?_
    rw [Option.mem_def.mp ht]
    simpa using hle
  have hstart : Walking s tip (· ≤ target) ⟨root, stands, next, maxHeight, some target, none⟩ := by
    have : Walking s tip (· ≤ target) ⟨root, stands, next, maxHeight, lastTarget, none⟩ :=
      hw.mono fun k hk t ht => lt_of_le_of_lt hk (hbelow t ht)
    exact ⟨this.root, this.here, this.sound, this.complete, this.stored⟩
  have hready : ∀ u : AppliedWalk, u.lastTarget = some target → Walking s tip (· ≤ target) u →
      Ready s tip u := by
    intro u hu hwalk _
    refine hwalk.mono fun k hk => ?_
    exact (hk target (by rw [hu]; rfl)).le
  split at hat
  · rename_i htip
    cases hat
    refine .inr (.inr ⟨none, rfl, hbelow, rfl, rfl, hready _ rfl hstart, fun hash => ?_⟩)
    constructor
    · nofun
    · intro hx
      have hle := hx.height_le
      rw [← hw.root] at hle
      exact absurd htip (not_lt.mpr hle)
  · rcases hstart.descend (Nat.lt_add_of_pos_right Nat.two_pos) hat with hfail | hok
    · exact .inr (.inl hfail)
    · obtain ⟨found, rfl, hfail, hlast, hwalk, hiff⟩ := hok
      exact .inr (.inr ⟨found, rfl, hbelow, hfail, hlast, hready _ hlast hwalk, hiff⟩)

theorem Ready.hashAt (h : Ready s tip w) (hat : w.hashAt s target = (r, w')) :
    Ready s tip w' ∧ ∀ found, r = .ok found →
      ∀ hash, found = some hash ↔ Lineage s tip ⟨hash, target⟩ := by
  cases hfailed : w.failed with
  | some e =>
    unfold AppliedWalk.hashAt at hat
    simp only [hfailed] at hat
    cases hat
    exact ⟨h, nofun⟩
  | none =>
    rcases h.cases hfailed hat with ⟨-, ⟨e, rfl⟩, rfl⟩ | ⟨e, rfl, hfail, -⟩ |
      ⟨found, rfl, -, -, -, hr, hiff⟩
    · exact ⟨h, nofun⟩
    · refine ⟨fun hnone => ?_, nofun⟩
      cases hfail.symm.trans hnone
    · refine ⟨hr, fun found' heq => ?_⟩
      cases heq
      exact hiff

def answers (s : BlockStore) : AppliedWalk → List UInt64 → List (UInt64 × Except String (Option Hash))
  | _, [] => []
  | w, target :: targets =>
    let (answer, w) := w.hashAt s target
    (target, answer) :: answers s w targets

theorem Ready.answers {targets : List UInt64} {answer : Except String (Option Hash)}
    (h : Ready s tip w) (hmem : (target, answer) ∈ w.answers s targets) :
    ∀ found, answer = .ok found → ∀ hash, found = some hash ↔ Lineage s tip ⟨hash, target⟩ := by
  induction targets generalizing w with
  | nil => cases hmem
  | cons t targets ih =>
    have hat : w.hashAt s t = ((w.hashAt s t).1, (w.hashAt s t).2) := rfl
    obtain ⟨hnext, hiff⟩ := h.hashAt hat
    rcases List.mem_cons.mp hmem with heq | hmem
    · cases heq
      exact hiff
    · exact ih hnext hmem

def readsOf (w : AppliedWalk) : List Hash :=
  match w.stands with
  | some _ => []
  | none => [w.next]

def descendReads (s : BlockStore) (target : UInt64) : ℕ → AppliedWalk → List Hash
  | 0, _ => []
  | n + 1, w =>
    w.readsOf ++ match w.read s with
    | (.error _, _) => []
    | (.ok here, w) =>
      if here.height = target then []
      else if here.height < target ∨ here.height = 0 then []
      else descendReads s target n
        { w with maxHeight := Word.saturatingSub here.height 1, stands := none }

def hashAtReads (s : BlockStore) (w : AppliedWalk) (target : UInt64) : List Hash :=
  match w.failed with
  | some _ => []
  | none =>
    if w.lastTarget.any (· ≤ target) then []
    else if w.tip.height < target then []
    else descendReads s target (w.maxHeight.toNat + 2) { w with lastTarget := some target }

def reads (s : BlockStore) : AppliedWalk → List UInt64 → List Hash
  | _, [] => []
  | w, target :: targets => w.hashAtReads s target ++ reads s (w.hashAt s target).2 targets

def budget (w : AppliedWalk) : ℕ :=
  match w.failed, w.stands with
  | some _, _ => 0
  | none, some p => p.height.toNat
  | none, none => w.maxHeight.toNat + 1

theorem read_budget {r : Except String AppliedTip} (hfailed : w.failed = none)
    (hread : w.read s = (r, w')) : w.readsOf.length + w'.budget ≤ w.budget ∧
      ∀ p, r = .ok p → w'.stands = some p ∧ w'.failed = none := by
  unfold read at hread
  split at hread
  · rename_i p hp
    cases hread
    refine ⟨by simp [readsOf, hp], fun q hq => ?_⟩
    rw [hp, Except.ok.inj hq]
    exact ⟨rfl, hfailed⟩
  rename_i hstands
  split at hread
  · cases hread
    exact ⟨by simp [readsOf, budget, hstands, hfailed], nofun⟩
  split at hread
  · cases hread
    exact ⟨by simp [readsOf, budget, hstands, hfailed], nofun⟩
  rename_i hle
  cases hread
  have hbound := UInt64.le_iff_toNat_le.mp (not_lt.mp hle)
  refine ⟨?_, fun q hq => ?_⟩
  · simp only [readsOf, budget, hstands, hfailed, List.length_singleton]
    omega
  · rw [← Except.ok.inj hq]
    exact ⟨rfl, hfailed⟩

theorem descend_budget {n : ℕ} (hfailed : w.failed = none) :
    (descendReads s target n w).length + (descend s target n w).2.budget ≤ w.budget := by
  induction n generalizing w with
  | zero => simp [descendReads, descend]
  | succ n ih =>
    unfold descendReads descend
    rcases hread : w.read s with ⟨_ | p, u⟩
    · obtain ⟨hle, -⟩ := read_budget hfailed hread
      simpa using hle
    obtain ⟨hle, hok⟩ := read_budget hfailed hread
    obtain ⟨hp, hu⟩ := hok p rfl
    simp only [List.length_append]
    split
    · simpa using hle
    split
    · simpa using hle
    rename_i hhigh
    have hne0 : p.height ≠ 0 := fun h0 => hhigh (.inr h0)
    -- stepping to the parent spends nothing: the parent's header is still to be read
    have hstep := ih (w := { u with maxHeight := Word.saturatingSub p.height 1, stands := none }) hu
    have hpred := toNat_sub_one hne0
    rw [← saturatingSub_one hne0] at hpred
    simp only [budget, hu, hp] at hle hstep ⊢
    omega

theorem hashAt_budget (s : BlockStore) (w : AppliedWalk) (target : UInt64) :
    (w.hashAtReads s target).length + (w.hashAt s target).2.budget ≤ w.budget := by
  obtain ⟨root, stands, next, maxHeight, lastTarget, failed⟩ := w
  unfold hashAtReads hashAt
  cases failed with
  | some e => simp
  | none =>
    simp only
    split
    · simp
    · split
      · simp [budget]
      · exact descend_budget rfl

theorem reads_length_le (s : BlockStore) (w : AppliedWalk) (targets : List UInt64) :
    (w.reads s targets).length ≤ w.budget := by
  induction targets generalizing w with
  | nil => exact Nat.zero_le _
  | cons target targets ih =>
    have hcall := hashAt_budget s w target
    have hrest := ih (w.hashAt s target).2
    rw [reads, List.length_append]
    omega

end AppliedWalk

/-- Whatever heights a walk is asked for and whatever headers are missing, each answer is the block
of the tip's lineage at that height, or none where the lineage has none, and equals the answer of a
fresh walk; all calls together read at most one header for each height up to the tip's. -/
theorem walk_answers_lineage (s : BlockStore) (tip : AppliedTip) (targets : List UInt64) :
    (∀ target answer, (target, answer) ∈ (new tip).answers s targets → ∀ found, answer = .ok found →
        (∀ hash, found = some hash ↔ Lineage s tip ⟨hash, target⟩) ∧
        ∀ fresh, appliedHashAtHeight s tip target = .ok fresh → found = fresh) ∧
      ((new tip).reads s targets).length ≤ tip.height.toNat + 1 := by
  refine ⟨fun target answer hmem found hok => ?_, reads_length_le s _ targets⟩
  have hfound := (ready_new s tip).answers hmem found hok
  refine ⟨hfound, fun fresh hfresh => ?_⟩
  refine Option.ext fun hash => ?_
  rw [hfound hash, ← appliedHashAtHeight_iff hfresh hash]

def holedStore : BlockStore :=
  (BlockStore.empty.putBlock { header := { blockHash := 11, height := 1, selectedParentHash := 10 } }).putBlock
    { header := { blockHash := 12, height := 2, selectedParentHash := 11 } }

theorem walk_answers_lineage_holed :
    ((new ⟨12, 2⟩).answers holedStore [2, 1, 0]).map (fun a => a.2.toOption) =
        [some (some 12), some (some 11), none] ∧
      Lineage holedStore ⟨12, 2⟩ ⟨11, 1⟩ ∧
      ((new ⟨12, 2⟩).reads holedStore [2, 1, 0]).length ≤ 3 := by
  obtain ⟨hanswers, hreads⟩ := walk_answers_lineage holedStore ⟨12, 2⟩ [2, 1, 0]
  have hmem : (1, .ok (some 11)) ∈ (new ⟨12, 2⟩).answers holedStore [2, 1, 0] :=
    List.mem_of_getElem? (i := 1) rfl
  have hfound := (hanswers 1 _ hmem _ rfl).1 11
  exact ⟨by decide, hfound.mp rfl, hreads⟩

end CitrateChain.Node
