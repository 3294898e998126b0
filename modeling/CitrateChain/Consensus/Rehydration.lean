import CitrateChain.Consensus.DagAcceptance
import CitrateChain.Consensus.DagRestart
import CitrateChain.Consensus.DerivedScores

/-! # Fork choice after a restart

A fresh engine knows no relations. The start-up registers some of the stored blocks, then takes the tips
of the DAG store and registers those that are missing. The scores come from relations, durable anchors
or a walk down the selected chain, and are the ones from before the restart whatever is registered and
whichever anchors are left. -/
namespace CitrateChain.Consensus
open Transition Word DagStore Result

namespace GhostDag
open DagStore (linkedParents HeaderTip)
variable {g g' h : GhostDag} {b : Block} {score : Hash → UInt64} {x : Hash} {bs : List Block}

/-- The score of a block that is registered: derived, else the durable anchor, else what the header
claims. -/
def registeredScore (g : GhostDag) (b : Block) : BlueSet :=
  match g.deriveScoreAndWork b with
  | .ok s => s
  | .error _ => lightweight ((g.dagStore.derivedScores b.hash).getD b.header.blueScore)

def registerExistingBlock (g : GhostDag) (b : Block) : Except GhostDagError GhostDag :=
  if b.isGenesis = false ∧ b.selectedParent = 0 then .error .invalidParents
  else .ok (g.record b (g.registeredScore b))

def reconcileTip (g : GhostDag) (hash : Hash) : GhostDag :=
  match g.relations hash with
  | some _ => g
  | none =>
    match g.dagStore.blocks hash with
    | none => g
    | some b =>
      match g.registerExistingBlock b with
      | .ok g' => g'
      | .error _ => g

def reconcileTipsFromDagStore (g : GhostDag) (authoritative : List Hash) : GhostDag :=
  { authoritative.foldl reconcileTip g with tips := authoritative }

def restarted (g : GhostDag) (dag : DagStore) (anchors : KvStore Hash UInt64) (order : HashOrder) :
    GhostDag :=
  { g with
    dagStore := ⟨fun x => dag.blocks[x]?, anchors, g.dagStore.configuredGenesis⟩
    relations := fun _ => none
    tips := []
    order := order }

/-- `h` has the blocks of `g`, and its relations and anchors are among those of `g`. -/
structure Rehydrates (g : GhostDag) (score : Hash → UInt64) (h : GhostDag) : Prop where
  params : h.params = g.params
  blocks : ∀ x, h.dagStore.blocks x = g.dagStore.blocks x
  entries : ∀ x e, h.entry x = some e → g.entry x = some e
  anchors : ∀ x b s, g.dagStore.blocks x = some b → h.dagStore.derivedScores x = some s → s = score x

section

variable (hh : Rehydrates g score h)
include hh

variable (hs : Scored g score)
include hs

theorem Rehydrates.retains : Retains g.dagStore.blocks 0 h := by
  refine ⟨fun x b hx _ => (hh.blocks x).trans hx, fun x r b hrel hx => ?_⟩
  obtain ⟨e, he⟩ := exists_entry hrel
  have hge := (hh.entries x e he).symm.trans (hs.entries x b hx)
  cases hge
  exact links_of_entry hrel he

theorem Rehydrates.contribution (ha : Accepted g) (hb : ParentsNear g.dagStore.blocks b) :
    h.scoreContribution b = g.scoreContribution b := by
  have hcount : h.boundedBlueMergeCount b = g.boundedBlueMergeCount b :=
    hb.count_eq ha.near (hh.retains hs) ha.retains (by rw [hh.params]) (Nat.zero_le _)
  unfold scoreContribution
  rw [hcount]

theorem Rehydrates.known (hx : g.dagStore.blocks x = some b) {s : UInt64}
    (hk : h.knownScore x = some s) : s = score x := by
  unfold knownScore at hk
  split at hk
  · rename_i r hrel
    obtain ⟨e, he⟩ := exists_entry hrel
    have hge := (hh.entries x e he).symm.trans (hs.entries x b hx)
    cases hge
    have hscore : h.derivedScore x = some (score x) := by
      rw [derivedScore_eq, he]
      rfl
    unfold derivedScore at hscore
    rw [hrel] at hscore
    exact (Option.some.inj hk).symm.trans (Option.some.inj hscore)
  · exact hh.anchors x b s hx hk

omit hs in
omit hh in
theorem not_isGenesis (hgen : ¬ b.isGenesis = true) : b.isGenesis = false := by
  rwa [Bool.not_eq_true] at hgen

variable (ha : Accepted g)
include ha

theorem Rehydrates.coldScore_eq (hops : ℕ) (sum : UInt64) (hx : g.dagStore.blocks x = some b)
    (hhops : b.height.toNat ≤ hops) (hsum : (score x).toNat + sum.toNat < UInt64.size) :
    ∃ t, h.coldScore hops sum x = .ok t ∧ t.toNat = (score x).toNat + sum.toNat := by
  induction hops generalizing x b sum
  all_goals
    rw [coldScore]
    split
    · rename_i s hk
      rw [hh.known hs hx hk]
      exact scoreAdd_of_lt hsum
    rw [hh.blocks, hx]
    dsimp only
    split
    · rename_i hgen
      rw [hs.genesis x b hx hgen] at hsum ⊢
      exact scoreAdd_of_lt hsum
    rename_i hgen
    have hnear := (ha.near x b hx).resolve_left hgen
    obtain ⟨sp, hsp, hheight⟩ := hnear.selected
  · omega
  · rename_i hops ih _ _
    obtain ⟨added, hadded, htotal⟩ := hs.adds x b hx (not_isGenesis hgen)
    have htotal := scoreAdd_toNat htotal
    obtain ⟨sum', hsum', hvalue⟩ := scoreAdd_of_lt (m := sum) (n := added) (by omega)
    obtain ⟨t, ht, htvalue⟩ := ih sum' hsp (by omega) (by omega)
    refine ⟨t, ?_, by omega⟩
    refine bind_eq_ok.mpr ⟨added, (hh.contribution hs ha hnear).trans hadded, ?_⟩
    exact bind_eq_ok.mpr ⟨sum', hsum', ht⟩

theorem Rehydrates.scoreOf_eq (hx : g.dagStore.blocks x = some b) :
    h.scoreOf x = .ok (score x) := by
  unfold scoreOf
  split
  · rename_i s hk
    rw [hh.known hs hx hk]
  · rw [hh.blocks, hx]
    dsimp only
    have hhops : b.height.toNat ≤ (saturatingAdd b.height 1).toNat + 1 :=
      (UInt64.le_iff_toNat_le.mp (le_saturatingAdd b.height 1)).trans (Nat.le_succ _)
    obtain ⟨t, ht, hvalue⟩ := hh.coldScore_eq hs ha _ 0 hx hhops (score x).toNat_lt
    rw [ht]
    exact congrArg Except.ok (UInt64.toNat_inj.mp hvalue)

theorem Rehydrates.derive_eq (hx : g.dagStore.blocks x = some b) :
    h.deriveScoreAndWork b = .ok (lightweight (score x)) := by
  rw [deriveScoreAndWork_eq_ok]
  cases hgen : b.isGenesis with
  | true => exact Or.inl ⟨rfl, by rw [hs.genesis x b hx hgen]⟩
  | false =>
    have hnear := (ha.near x b hx).resolve_left (by rw [hgen]; exact Bool.false_ne_true)
    obtain ⟨sp, hsp, -⟩ := hnear.selected
    obtain ⟨added, hadded, htotal⟩ := hs.adds x b hx hgen
    exact Or.inr ⟨rfl, _, added, _, hh.scoreOf_eq hs ha hsp,
      (hh.contribution hs ha hnear).trans hadded, htotal, rfl⟩

variable (hshaped : AllShaped g.params.maxParents g.dagStore.blocks)
include hshaped

theorem Rehydrates.register (hb : g.dagStore.blocks b.hash = some b) :
    ∃ h', h.registerExistingBlock b = .ok h' ∧ Rehydrates g score h' ∧
      ∀ x, x = b.hash ∨ (∃ e, h.entry x = some e) → ∃ e, h'.entry x = some e := by
  have hroot : ¬ (b.isGenesis = false ∧ b.selectedParent = 0) := by
    rintro ⟨hgen, hzero⟩
    rcases hshaped _ b hb with hgen' | hshape
    · cases hgen.symm.trans hgen'
    · exact hshape.selected hzero
  have hscore : h.registeredScore b = lightweight (score b.hash) := by
    unfold registeredScore
    rw [hh.derive_eq hs ha hb]
  have hentry := entry_record h b (lightweight (score b.hash))
  refine ⟨h.record b (lightweight (score b.hash)), ?_, ⟨hh.params, hh.blocks, ?_, ?_⟩, ?_⟩
  · unfold registerExistingBlock
    rw [if_neg hroot, hscore]
  · intro x e he
    rw [hentry] at he
    split at he
    · rename_i hx
      rw [hx, hs.entries _ b hb]
      exact he
    · exact hh.entries x e he
  · intro x c s hx hanchor
    have hwrite : (h.record b (lightweight (score b.hash))).dagStore.derivedScores x =
        if x = b.hash then some (score b.hash) else h.dagStore.derivedScores x :=
      KvStore.write_put _ _ _ x
    rw [hwrite] at hanchor
    split at hanchor
    · rename_i hxb
      rw [hxb]
      exact (Option.some.inj hanchor).symm
    · exact hh.anchors x c s hx hanchor
  · intro x hx
    rw [hentry]
    split
    · exact ⟨_, rfl⟩
    · rename_i hxb
      exact hx.resolve_left hxb

theorem Rehydrates.registerAll (hbs : ∀ b ∈ bs, g.dagStore.blocks b.hash = some b) :
    ∃ h', bs.foldlM registerExistingBlock h = .ok h' ∧ Rehydrates g score h' := by
  induction bs generalizing h with
  | nil => exact ⟨h, rfl, hh⟩
  | cons b bs ih =>
    obtain ⟨h₁, hstep, hh₁, -⟩ := hh.register hs ha hshaped (hbs b List.mem_cons_self)
    obtain ⟨h', hrest, hh'⟩ := ih hh₁ fun c hc => hbs c (List.mem_cons_of_mem _ hc)
    refine ⟨h', ?_, hh'⟩
    rw [List.foldlM_cons]
    exact bind_eq_ok.mpr ⟨h₁, hstep, hrest⟩

theorem Rehydrates.reconcileTip (hx : g.dagStore.blocks x = some b) (hname : b.hash = x) :
    Rehydrates g score (h.reconcileTip x) ∧
      ∀ y, y = x ∨ (∃ e, h.entry y = some e) → ∃ e, (h.reconcileTip x).entry y = some e := by
  subst hname
  unfold GhostDag.reconcileTip
  split
  · rename_i r hrel
    refine ⟨hh, ?_⟩
    rintro y (rfl | hy)
    · exact exists_entry hrel
    · exact hy
  · rw [hh.blocks, hx]
    dsimp only
    obtain ⟨h', hstep, hh', hentries⟩ := hh.register hs ha hshaped hx
    rw [hstep]
    exact ⟨hh', hentries⟩

theorem Rehydrates.reconcileAll {root : Hash} (hl : Linked root g.dagStore.blocks)
    {tips : List Hash} (htips : ∀ x ∈ tips, ∃ b, g.dagStore.blocks x = some b) :
    Rehydrates g score (tips.foldl GhostDag.reconcileTip h) ∧
      ∀ y, y ∈ tips ∨ (∃ e, h.entry y = some e) →
        ∃ e, (tips.foldl GhostDag.reconcileTip h).entry y = some e := by
  induction tips generalizing h with
  | nil => exact ⟨hh, fun y hy => hy.resolve_left List.not_mem_nil⟩
  | cons x tips ih =>
    obtain ⟨b, hx⟩ := htips x List.mem_cons_self
    obtain ⟨hh₁, hentries⟩ := hh.reconcileTip hs ha hshaped hx (hl.named x b hx)
    obtain ⟨hh', hrest⟩ := ih hh₁ fun y hy => htips y (List.mem_cons_of_mem _ hy)
    refine ⟨hh', fun y hy => hrest y ?_⟩
    rcases hy with hy | hy
    · rcases List.mem_cons.mp hy with rfl | hy
      · exact Or.inr (hentries y (Or.inl rfl))
      · exact Or.inl hy
    · exact Or.inr (hentries y (Or.inr hy))

end

theorem Builds.tips_eq (hb : Builds g b g') :
    g'.tips = b.hash :: (g.tips.filter (· ∉ b.parents)).filter (· ≠ b.hash) := by
  obtain ⟨-, hb⟩ := hb
  obtain ⟨g₁, hadd, hstore⟩ := bind_eq_ok.mp hb
  obtain ⟨-, -, s, -, rfl⟩ := addBlock_eq_ok.mp hadd
  cases hstore
  rfl

theorem linkedParents_of_genesis (hb : b.isGenesis = true) : linkedParents b = [] := by
  unfold linkedParents
  rw [if_pos hb]

def Unlinked (blocks : KvStore Hash Block) (x : Hash) : Prop :=
  (∃ b, blocks x = some b) ∧ ∀ y c, blocks y = some c → x ∉ linkedParents c

theorem tips_step (ha : Accepted g) (hb : Builds g b g') (hzero : g.dagStore.blocks 0 = none)
    (htips : ∀ x, x ∈ g.tips ↔ Unlinked g.dagStore.blocks x) (x : Hash) :
    x ∈ g'.tips ↔ Unlinked g'.dagStore.blocks x := by
  have hself : g'.dagStore.blocks b.hash = some b := hb.blocks_iff.mpr (.inl ⟨rfl, rfl⟩)
  have hgrows : ∀ {y c}, g.dagStore.blocks y = some c → g'.dagStore.blocks y = some c :=
    fun hy => hb.extends.blocks _ _ hy
  have hfresh : ∀ y c, g'.dagStore.blocks y = some c → b.hash ∉ linkedParents c := by
    intro y c hy hmem
    rcases hb.blocks_iff.mp hy with ⟨-, rfl⟩ | ⟨-, hy⟩
    · obtain ⟨d, hd⟩ := hb.parent_stored ha hmem
      exact hb.ne_hash hd rfl
    · obtain ⟨d, hd⟩ := ha.near.parent_stored hy hmem
      exact hb.ne_hash hd rfl
  have hdropped : ∀ y c, g.dagStore.blocks y = some c → (y ∈ b.parents ↔ y ∈ linkedParents b) := by
    intro y c hy
    cases hgen : b.isGenesis with
    | true =>
      rw [linkedParents_of_genesis hgen, (Block.isGenesis_parts hgen).2.2, List.mem_singleton]
      refine ⟨fun hzero' => ?_, nofun⟩
      rw [hzero', hzero] at hy
      cases hy
    | false => rw [linkedParents_of_not_genesis hgen]
  rw [hb.tips_eq]
  simp only [List.mem_cons, List.mem_filter, decide_eq_true_eq]
  constructor
  · rintro (rfl | ⟨⟨hx, hout⟩, hne⟩)
    · exact ⟨⟨b, hself⟩, hfresh⟩
    · obtain ⟨⟨c, hc⟩, hun⟩ := (htips x).mp hx
      refine ⟨⟨c, hgrows hc⟩, fun y d hy => ?_⟩
      rcases hb.blocks_iff.mp hy with ⟨-, rfl⟩ | ⟨-, hy⟩
      · exact fun hmem => hout ((hdropped x c hc).mpr hmem)
      · exact hun y d hy
  · rintro ⟨⟨c, hc⟩, hun⟩
    rcases hb.blocks_iff.mp hc with ⟨hxb, -⟩ | ⟨hxb, hx⟩
    · exact Or.inl hxb
    · refine Or.inr ⟨⟨(htips x).mpr ⟨⟨c, hx⟩, fun y d hy => hun y d (hgrows hy)⟩, ?_⟩, hxb⟩
      exact fun hmem => hun b.hash b hself ((hdropped x c hx).mp hmem)

theorem Runs.zero_free (hu : Unbuilt g) (hr : Runs Builds g bs g') (hzero : ∀ b ∈ bs, b.hash ≠ 0) :
    g'.dagStore.blocks 0 = none := by
  obtain ⟨root, hl⟩ := Runs.linked hu hr
  by_contra hsome
  obtain ⟨b, hb⟩ := Option.ne_none_iff_exists'.mp hsome
  exact hzero b (Runs.stored hu hr 0 b hb) (hl.named 0 b hb)

theorem Runs.mem_tips (hf : Fresh g) (hu : Unbuilt g) (hr : Runs Builds g bs g')
    (hzero : ∀ b ∈ bs, b.hash ≠ 0) (x : Hash) :
    x ∈ g'.tips ↔ Unlinked g'.dagStore.blocks x := by
  induction hr generalizing x with
  | refl =>
    rw [hf.2]
    refine ⟨nofun, ?_⟩
    rintro ⟨⟨b, hb⟩, -⟩
    rw [hu.empty] at hb
    cases hb
  | @step bs t b u hr hb ih =>
    have hbefore : ∀ c ∈ bs, c.hash ≠ 0 := fun c hc => hzero c (List.mem_append_left _ hc)
    exact tips_step (Runs.accepted hf hu hr) hb (Runs.zero_free hu hr hbefore) (ih hbefore) x

variable {blocks : KvStore Hash Block}

theorem Linked.root_named {root : Hash} (hl : Linked root blocks) (n : ℕ) {y : Hash} {c : Block}
    (hy : blocks y = some c) (hn : c.height.toNat = n + 1) :
    ∃ z d, blocks z = some d ∧ root ∈ linkedParents d := by
  induction n generalizing y c with
  | zero =>
    rcases hl.linked y c hy with ⟨-, -, hzero⟩ | ⟨hgen, sp, hsp⟩
    · rw [hzero] at hn
      cases hn
    · have hheight := hsp.height
      rcases hl.linked _ sp hsp.selected with ⟨-, hroot, -⟩ | ⟨-, sp', hsp'⟩
      · refine ⟨y, c, hy, ?_⟩
        rw [linkedParents_of_not_genesis hgen, ← hroot]
        exact List.mem_cons_self
      · have hheight' := hsp'.height
        omega
  | succ n ih =>
    rcases hl.linked y c hy with ⟨-, -, hzero⟩ | ⟨-, sp, hsp⟩
    · rw [hzero] at hn
      cases hn
    · have hheight := hsp.height
      exact ih hsp.selected (by omega)

theorem Linked.headerTip_iff {root : Hash} (hl : Linked root blocks) (hzero : blocks 0 = none)
    {m : Std.ExtTreeMap Hash Block} (hm : ∀ x : Hash, m[x]? = blocks x) (x : Hash) :
    HeaderTip m x ↔ Unlinked blocks x := by
  have hne : ∀ y c, blocks y = some c → y ≠ 0 := by
    rintro y c hy rfl
    cases hzero.symm.trans hy
  constructor
  · rintro ⟨⟨b, hb, -⟩, hun⟩
    rw [hm] at hb
    refine ⟨⟨b, hb⟩, fun y c hy hmem => ?_⟩
    refine hun.resolve_left (hne x b hb) y c ((hm y).trans hy) ?_
    unfold linkedParents at hmem
    split at hmem
    · cases hmem
    · exact hmem
  · rintro ⟨⟨b, hb⟩, hun⟩
    refine ⟨⟨b, (hm x).trans hb, ?_⟩, Or.inr fun y c hy hmem => ?_⟩
    · by_cases hheight : b.height = 0
      · refine Or.inr (TreeMap.size_eq_one (k := x) ?_ fun y hy => ?_)
        · exact TreeMap.mem_of_getElem? ((hm x).trans hb)
        obtain ⟨c, hc⟩ := TreeMap.mem_iff_exists.mp hy
        rw [hm] at hc
        rcases hl.linked x b hb with ⟨-, hroot, -⟩ | ⟨-, sp, hsp⟩
        · rcases hl.linked y c hc with ⟨-, hroot', -⟩ | ⟨-, sp, hsp⟩
          · exact hroot'.trans hroot.symm
          -- a second block would name the genesis, directly or through its selected chain
          · obtain ⟨z, d, hz, hmem⟩ := hl.root_named _ hc hsp.height
            rw [← hroot] at hmem
            exact absurd hmem (hun z d hz)
        · have hone := hsp.height
          rw [hheight] at hone
          cases hone
      · exact Or.inl hheight
    · rw [hm] at hy
      cases hgen : c.isGenesis with
      | true =>
        rw [(Block.isGenesis_parts hgen).2.2, List.mem_singleton] at hmem
        exact hne x b hb hmem
      | false => exact hun y c hy (by rwa [linkedParents_of_not_genesis hgen])

theorem Runs.anchors_eq (hu : Unbuilt g) (hr : Runs Builds g bs g') :
    ∀ x b, g'.dagStore.blocks x = some b → g'.dagStore.derivedScores x = g'.derivedScore x := by
  refine hr.invariant (P := fun t => ∀ x b, t.dagStore.blocks x = some b →
    t.dagStore.derivedScores x = t.derivedScore x) ?_ ?_
  · intro x b hx
    rw [hu.empty] at hx
    cases hx
  rintro t b u hanchors ⟨-, hb⟩ x c hx
  obtain ⟨g₁, hadd, hstore⟩ := bind_eq_ok.mp hb
  obtain ⟨-, -, s, -, rfl⟩ := addBlock_eq_ok.mp hadd
  cases hstore
  have hwrite : ∀ y, (t.record b s).dagStore.derivedScores y =
      if y = b.hash then some s.score else t.dagStore.derivedScores y :=
    KvStore.write_put _ _ _
  have hentry : (t.record b s).derivedScore x =
      if x = b.hash then some s.score else t.derivedScore x := by
    rw [derivedScore_eq, entry_record]
    split
    · rfl
    · exact (derivedScore_eq t x).symm
  refine (hwrite x).trans (Eq.trans ?_ hentry.symm)
  split
  · rfl
  · rename_i hxb
    refine hanchors x c ?_
    have hx : t.dagStore.blocks.write (.put b.hash b) x = some c := hx
    rw [KvStore.write_put, if_neg hxb] at hx
    exact hx

variable {iter : Cf → List (Bytes × Bytes)} {kv : PersistentStore}

theorem load_tips {r : DagRules} {dag : DagStore} (hload : loadFromPersistent r kv iter = .ok dag) :
    dag.tips = derivedTips dag.blocks := by
  obtain ⟨loaded, -, hload⟩ := bind_eq_ok.mp hload
  obtain ⟨childLists, -, hload⟩ := bind_eq_ok.mp hload
  cases hload
  rfl

theorem mem_getTips {r : DagRules} {dag : DagStore}
    (hload : loadFromPersistent r kv iter = .ok dag) :
    x ∈ dag.getTips ↔ HeaderTip dag.blocks x := by
  unfold getTips
  rw [Finset.mem_filter, load_tips hload, mem_derivedTips]
  refine ⟨And.left, fun htip => ⟨htip, ?_⟩⟩
  obtain ⟨⟨b, hb, -⟩, -⟩ := htip
  rw [hb]
  rfl

/-- A fresh engine over a DAG store that loads the blocks of the DAG, with whatever anchors are left,
whichever stored blocks it registers and in whatever order, chooses the tip from before the restart once
it has taken the tips of the store, and ranks it by the same score. `0` is the hash that stands for "no
parent". -/
theorem restart_fork_choice (hf : Fresh g) (hu : Unbuilt g) (hr : Runs Builds g bs g')
    (hzero : ∀ b ∈ bs, b.hash ≠ 0) {r : DagRules} {kv : PersistentStore}
    {iter : Cf → List (Bytes × Bytes)} {dag : DagStore}
    (hload : loadFromPersistent r kv iter = .ok dag)
    (hblocks : ∀ x : Hash, dag.blocks[x]? = g'.dagStore.blocks x) {anchors : KvStore Hash UInt64}
    (hanchors : ∀ x s, anchors x = some s → g'.dagStore.derivedScores x = some s) (order : HashOrder)
    {registered : List Block} (hregistered : ∀ b ∈ registered, g'.dagStore.blocks b.hash = some b)
    {tips : List Hash} (htips : ∀ x, x ∈ tips ↔ x ∈ dag.getTips) :
    ∃ h, registered.foldlM registerExistingBlock (restarted g' dag anchors order) = .ok h ∧
      (h.reconcileTipsFromDagStore tips).selectTip = g'.selectTip ∧
      ∀ t, g'.selectTip = .ok t → ∃ s, g'.derivedScore t = some s ∧
        (h.reconcileTipsFromDagStore tips).derivedScore t = some s := by
  obtain ⟨root, hl⟩ := Runs.linked hu hr
  obtain ⟨score, hs⟩ := Runs.scored hf hu hr
  have ha := Runs.accepted hf hu hr
  have hshaped := Runs.allShaped hu hr
  have hstart : Rehydrates g' score (restarted g' dag anchors order) := by
    refine ⟨rfl, hblocks, nofun, fun x b s hx hanchor => ?_⟩
    have hs' := hanchors x s hanchor
    rw [Runs.anchors_eq hu hr x b hx, hs.derivedScore hx] at hs'
    exact (Option.some.inj hs').symm
  have htip : ∀ x, x ∈ tips ↔ x ∈ g'.tips := by
    intro x
    rw [htips, mem_getTips hload, hl.headerTip_iff (Runs.zero_free hu hr hzero) hblocks,
      Runs.mem_tips hf hu hr hzero]
  have hstored : ∀ x ∈ tips, ∃ b, g'.dagStore.blocks x = some b := by
    intro x hx
    exact ((Runs.mem_tips hf hu hr hzero x).mp ((htip x).mp hx)).1
  obtain ⟨h, hreg, hh⟩ := hstart.registerAll hs ha hshaped hregistered
  obtain ⟨hh', hrelated⟩ := hh.reconcileAll hs ha hshaped hl hstored
  have hscore : ∀ x ∈ tips, (h.reconcileTipsFromDagStore tips).derivedScore x = g'.derivedScore x := by
    intro x hx
    obtain ⟨e, he⟩ := hrelated x (Or.inl hx)
    rw [derivedScore_eq g', hh'.entries x e he, derivedScore_eq]
    exact congrArg (Option.map _) he
  refine ⟨h, hreg, selectTip_congr htip hscore, fun t ht => ?_⟩
  rcases selectTip_spec g' with ⟨t', s, ht', hlead⟩ | ⟨hnone, -⟩
  · obtain rfl : t' = t := Except.ok.inj (ht'.symm.trans ht)
    exact ⟨s, hlead.score, (hscore t' ((htip t').mpr hlead.mem)).trans hlead.score⟩
  · cases hnone.symm.trans ht

theorem exists_load {l : List Block} (hnodup : (l.map Block.hash).Nodup) : ∃ iter dag,
    loadFromPersistent permissive (fun _ => none) iter = .ok dag ∧
      ∀ (x : Hash) b, dag.blocks[x]? = some b ↔ b ∈ l ∧ b.hash = x := by
  let iter : Cf → List (Bytes × Bytes) := fun cf =>
    if cf = .dagBlocks then l.map fun b => ([], permissive.block.encode b) else []
  have hdecode : decodeAll "deserialize block" permissive.block (iter .dagBlocks) = .ok l := by
    rw [decodeAll_of_forall]
    · simp [iter, decoded, List.filterMap_map, Codec.decode_encode]
    · intro e he
      obtain ⟨b, -, rfl⟩ := List.mem_map.mp he
      exact ⟨b, Codec.decode_encode _ b⟩
  refine ⟨iter, _, bind_eq_ok.mpr ⟨l, hdecode, rfl⟩, fun x b => ?_⟩
  exact (TreeMap.getElem?_foldl_insert_by hnodup).trans (by simp)

theorem restart_fork_choice_siblings : ∃ bs g' dag tips h, Runs Builds genesisEngine bs g' ∧
    (∀ x, x ∈ tips ↔ x ∈ getTips dag) ∧
    [dagBlock 2 1 [] 1 1].foldlM registerExistingBlock
      (restarted g' dag (fun _ => none) ⟨List.reverse, List.reverse_perm⟩) = .ok h ∧
    (h.reconcileTipsFromDagStore tips).selectTip = .ok 4 ∧
    (h.reconcileTipsFromDagStore tips).derivedScore 4 = some 4 := by
  let bs := [dagBlock 1 0 [] 0 0, dagBlock 2 1 [] 1 1, dagBlock 3 1 [] 1 1, dagBlock 4 2 [3] 2 2,
    dagBlock 5 3 [] 2 2]
  obtain ⟨g', hr, hstored, htip, hscore⟩ := exists_built bs (fun g =>
    (∀ b ∈ bs, g.dagStore.blocks b.hash = some b) ∧ g.selectTip = .ok 4 ∧
    g.derivedScore 4 = some 4) (by decide)
  obtain ⟨root, hl⟩ := Runs.linked genesisEngine_unbuilt hr
  obtain ⟨iter, dag, hload, hblocks⟩ := exists_load (l := bs) (by decide)
  have hsame : ∀ x : Hash, dag.blocks[x]? = g'.dagStore.blocks x := by
    intro x
    refine Option.ext fun b => (hblocks x b).trans ⟨?_, fun hx => ?_⟩
    · rintro ⟨hb, rfl⟩
      exact hstored b hb
    · exact ⟨Runs.stored genesisEngine_unbuilt hr x b hx, hl.named x b hx⟩
  have hlost : ∀ x s, (fun _ => none : KvStore Hash UInt64) x = some s →
      g'.dagStore.derivedScores x = some s := nofun
  have hregistered : ∀ b ∈ [dagBlock 2 1 [] 1 1], g'.dagStore.blocks b.hash = some b := by
    intro b hb
    refine hstored b ?_
    rw [List.mem_singleton.mp hb]
    decide
  have htips : ∀ x, x ∈ dag.getTips.toList ↔ x ∈ dag.getTips := fun _ => Finset.mem_toList
  obtain ⟨h, hreg, hchoice, hrank⟩ := restart_fork_choice ⟨rfl, rfl⟩ genesisEngine_unbuilt hr (by decide)
    hload hsame hlost ⟨List.reverse, List.reverse_perm⟩ hregistered htips
  obtain ⟨s, hs, hrank⟩ := hrank 4 htip
  obtain rfl : 4 = s := Option.some.inj (hscore.symm.trans hs)
  exact ⟨bs, g', dag, _, h, hr, htips, hreg, hchoice.trans htip, hrank⟩

end GhostDag

end CitrateChain.Consensus
