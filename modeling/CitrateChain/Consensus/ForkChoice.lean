import CitrateChain.Base.Runs
import CitrateChain.Consensus.GhostDag

/-! # Fork choice is a function of the admitted blocks

The score of a block reads only the links of what it reaches by parent edges. Those are fixed once
its parents are admitted, so the score is the same whatever else an engine holds, in whatever order
it was admitted, and however its hash sets iterate. -/
namespace CitrateChain.Consensus.GhostDag
open Transition Word
variable {g h g' h' : GhostDag} {b : Block} {S : Hash → Prop}

theorem selectedAnticone_eq {k : ℕ} {past ys : List Hash} {n : ℕ} (hn : n ≤ k) :
    selectedAnticone k past ys n = min (n + ys.countP (· ∉ past)) (k + 1) := by
  induction ys generalizing n with
  | nil =>
    rw [selectedAnticone, List.countP_nil]
    omega
  | cons y ys ih =>
    by_cases hy : y ∈ past
    · simp [selectedAnticone, hy, ih hn]
    · have hcount : (y :: ys).countP (· ∉ past) = ys.countP (· ∉ past) + 1 := by simp [hy]
      rw [selectedAnticone, if_neg hy, hcount]
      split
      · omega
      · rw [ih (by omega)]
        omega

variable {blues : List (Hash × List Hash)} {mp : Hash}

theorem bluesAnticone_le {k n : ℕ} {past : List Hash} : bluesAnticone k mp past blues n ≤ k ↔
      n + blues.countP (fun x => x.1 ∉ past ∧ mp ∉ x.2) ≤ k := by
  induction blues generalizing n with
  | nil => simp [bluesAnticone]
  | cons x blues ih =>
    rw [bluesAnticone, List.countP_cons]
    split
    · omega
    split
    · rename_i hx
      rw [ih, if_pos (decide_eq_true hx), Nat.add_right_comm, Nat.add_assoc]
    · rename_i hx
      rw [ih, if_neg (by simpa using hx), Nat.add_zero]

/-- Both engines hold the same links for every block of `S`, which a walk down to `floor` never
leaves. -/
structure AgreeFrom (floor : UInt64) (g h : GhostDag) (S : Hash → Prop) : Prop where
  k : g.params.k = h.params.k
  links : ∀ x, S x → g.linksOf x = h.linksOf x
  closed : Walk.Closed (g.pastStep floor) S

variable {floor : UInt64} {x : Hash}

theorem AgreeFrom.pastWithin (ha : AgreeFrom floor g h S) (hx : S x) :
    g.pastWithin x floor = h.pastWithin x floor := by
  apply Walk.visit_congr ha.closed
  · intro y hy
    unfold pastStep
    rw [ha.links y hy]
  · intro y hy
    rwa [List.mem_singleton.mp hy]

theorem anticone_le_iff {k : ℕ} {past spPast ys : List Hash} (hp : ys.Perm spPast) :
    bluesAnticone k mp past blues (selectedAnticone k past ys 0) ≤ k ↔
      spPast.countP (· ∉ past) + blues.countP (fun x => x.1 ∉ past ∧ mp ∉ x.2) ≤ k := by
  rw [bluesAnticone_le, selectedAnticone_eq (Nat.zero_le k), hp.countP_eq]
  omega

theorem AgreeFrom.judgeMergeParent (ha : AgreeFrom floor g h S) (hmp : S mp) (spPast : List Hash)
    (blues : List (Hash × List Hash)) :
    g.judgeMergeParent floor spPast blues mp = h.judgeMergeParent floor spPast blues mp := by
  simp only [GhostDag.judgeMergeParent, ha.pastWithin hmp, ha.k,
    anticone_le_iff (g.order.perm spPast), anticone_le_iff (h.order.perm spPast)]

theorem AgreeFrom.judgeAll (ha : AgreeFrom floor g h S) (spPast : List Hash) {mps : List Hash}
    (hm : ∀ m ∈ mps, S m) (blues : List (Hash × List Hash)) :
    mps.foldlM (g.judgeMergeParent floor spPast) blues =
      mps.foldlM (h.judgeMergeParent floor spPast) blues := by
  induction mps generalizing blues with
  | nil => rfl
  | cons mp mps ih =>
    have hrest : ∀ m ∈ mps, S m := fun m hm' => hm m (List.mem_cons_of_mem _ hm')
    rw [List.foldlM_cons, List.foldlM_cons, ha.judgeMergeParent (hm mp List.mem_cons_self)]
    congr 1
    funext judged
    exact ih hrest judged

theorem AgreeFrom.boundedBlueMergeCount (ha : AgreeFrom (saturatingSub b.height mergeScoreWindow) g h S)
    (hs : S b.selectedParent) (hm : ∀ m ∈ b.header.mergeParentHashes, S m) :
    g.boundedBlueMergeCount b = h.boundedBlueMergeCount b := by
  simp only [GhostDag.boundedBlueMergeCount, ha.pastWithin hs, ha.judgeAll _ hm]

theorem mem_pastStep {x y : Hash} {succs : List Hash} (hs : g.pastStep floor x = .ok (some succs))
    (hy : y ∈ succs) : ∃ l, g.linksOf x = .ok l ∧ floor ≤ l.height ∧
      (y = l.selectedParent ∧ l.selectedParent ≠ 0 ∧ floor < l.height ∨ y ∈ l.mergeParents) := by
  unfold pastStep at hs
  split at hs
  · cases hs
  rename_i l hl
  split at hs
  · cases hs
  rename_i hfloor
  obtain rfl : _ = succs := by simpa using hs
  refine ⟨l, hl, not_lt.mp hfloor, ?_⟩
  rcases List.mem_append.mp hy with hy | hy
  · split at hy
    · rename_i hsp
      exact Or.inl ⟨List.mem_singleton.mp hy, hsp⟩
    · cases hy
  · exact Or.inr hy

/-- Both engines hold the same links for every block of `S`, and these links stay in `S`. -/
structure Agree (g h : GhostDag) (S : Hash → Prop) : Prop where
  k : g.params.k = h.params.k
  links : ∀ x, S x → g.linksOf x = h.linksOf x
  selected : ∀ x l, S x → g.linksOf x = .ok l → l.selectedParent ≠ 0 → S l.selectedParent
  merges : ∀ x l, S x → g.linksOf x = .ok l → ∀ m ∈ l.mergeParents, S m

theorem Agree.agreeFrom (ha : Agree g h S) (floor : UInt64) : AgreeFrom floor g h S := by
  refine ⟨ha.k, ha.links, ?_⟩
  intro x succs hx hs y hy
  obtain ⟨l, hl, -, ⟨rfl, hsp, -⟩ | hmem⟩ := mem_pastStep hs hy
  · exact ha.selected x l hx hl hsp
  · exact ha.merges x l hx hl y hmem

theorem Agree.scoreContribution (ha : Agree g h S) (hs : S b.selectedParent)
    (hm : ∀ m ∈ b.header.mergeParentHashes, S m) :
    g.scoreContribution b = h.scoreContribution b := by
  simp only [GhostDag.scoreContribution, (ha.agreeFrom _).boundedBlueMergeCount hs hm]

/-- A relation without its children, which no score and no choice of a tip reads. -/
def bare (r : DagRelation) : DagRelation := { r with children := [] }

def entry (g : GhostDag) (x : Hash) : Option DagRelation := (g.relations x).map bare

def entryOf (b : Block) (blueSet : BlueSet) : DagRelation :=
  ⟨b.hash, b.selectedParent, b.header.mergeParentHashes, [], blueSet, b.height⟩

def derivedScore (g : GhostDag) (x : Hash) : Option UInt64 := (g.relations x).map (·.blueSet.score)

theorem derivedScore_eq (g : GhostDag) (x : Hash) :
    g.derivedScore x = (g.entry x).map (·.blueSet.score) := by
  simp only [derivedScore, entry, Option.map_map]
  rfl

theorem linksOf_of_entry {e : DagRelation} (he : g.entry x = some e) :
    g.linksOf x = .ok ⟨e.selectedParent, e.mergeParents, e.height⟩ := by
  obtain ⟨r, hr, rfl⟩ := Option.map_eq_some_iff.mp he
  simp only [linksOf, hr]
  rfl

theorem scoreOf_of_entry {e : DagRelation} (he : g.entry x = some e) :
    g.scoreOf x = .ok e.blueSet.score := by
  obtain ⟨r, hr, rfl⟩ := Option.map_eq_some_iff.mp he
  simp only [scoreOf, knownScore, hr]
  rfl

theorem pushChild_bare (block : Hash) (relations : KvStore Hash DagRelation) (parent x : Hash) :
    (pushChild block relations parent x).map bare = (relations x).map bare := by
  unfold pushChild
  cases hr : relations parent with
  | none => rfl
  | some r =>
    by_cases hx : x = parent
    · subst hx
      simp only [KvStore.write, Function.update_self, KvOp.key, hr, KvOp.value]
      rfl
    · simp only [KvStore.write, KvOp.key, Function.update_of_ne hx]

theorem foldl_pushChild_bare (block : Hash) (parents : List Hash)
    (relations : KvStore Hash DagRelation) (x : Hash) :
    (parents.foldl (pushChild block) relations x).map bare = (relations x).map bare := by
  induction parents generalizing relations with
  | nil => rfl
  | cons p parents ih => rw [List.foldl_cons, ih, pushChild_bare]

theorem entry_record (g : GhostDag) (b : Block) (s : BlueSet) (x : Hash) :
    (g.record b s).entry x = if x = b.hash then some (entryOf b s) else g.entry x := by
  simp only [entry, record, foldl_pushChild_bare]
  by_cases hx : x = b.hash
  · subst hx
    simp only [KvStore.write, KvOp.key, Function.update_self, if_true]
    rfl
  · simp only [KvStore.write, KvOp.key, Function.update_of_ne hx, if_neg hx]

/-- One admission: the parents are admitted already, and `add_block` accepts the block whatever the
DAG store holds at that time. -/
def Admits (g : GhostDag) (b : Block) (g' : GhostDag) : Prop :=
  (b.isGenesis = true ∨ ∀ p ∈ b.parents, (g.relations p).isSome) ∧
    ∃ store, { g with dagStore := store }.addBlock b = .ok g'

def Fresh (g : GhostDag) : Prop := g.relations = (fun _ => none) ∧ g.tips = []

def ParentsIn (bs : List Block) (b : Block) : Prop :=
  b.isGenesis = true ∨ ∀ p ∈ b.parents, ∃ c ∈ bs, c.hash = p

theorem ParentsIn.append {bs : List Block} (hp : ParentsIn bs b) (cs : List Block) :
    ParentsIn (bs ++ cs) b := by
  refine hp.imp id fun hparents p hmem => ?_
  obtain ⟨c, hc, hcp⟩ := hparents p hmem
  exact ⟨c, List.mem_append_left _ hc, hcp⟩

inductive ParentsFirst : List Block → Prop
  | nil : ParentsFirst []
  | snoc {bs : List Block} {b : Block} : ParentsFirst bs → ParentsIn bs b → ParentsFirst (bs ++ [b])

theorem ParentsFirst.closed {bs : List Block} (hp : ParentsFirst bs) :
    ∀ b ∈ bs, ParentsIn bs b := by
  induction hp with
  | nil => exact nofun
  | snoc _ hb ih =>
    exact forall_mem_concat.mpr ⟨fun c hc => (ih c hc).append _, hb.append _⟩

def Unnamed (bs : List Block) (x : Hash) : Prop :=
  ∀ c ∈ bs, c.isGenesis = true ∨ x ∉ c.parents

/-- What an engine holds after it admitted `bs`. -/
structure Admitted (bs : List Block) (g : GhostDag) : Prop where
  ordered : ParentsFirst bs
  holds : ∀ b ∈ bs, ∃ s, g.entry b.hash = some (entryOf b s) ∧ g.deriveScoreAndWork b = .ok s
  only : ∀ x e, g.entry x = some e → ∃ b ∈ bs, b.hash = x
  tips : ∀ x, x ∈ g.tips ↔ (∃ b ∈ bs, b.hash = x) ∧ Unnamed bs x

variable {bs : List Block}

theorem Admitted.entry_parent (ha : Admitted bs g) {c : Block} (hc : c ∈ bs)
    (hg : c.isGenesis = false) {p : Hash} (hp : p ∈ c.parents) : ∃ e, g.entry p = some e := by
  rcases ha.ordered.closed c hc with hgen | hparents
  · simp [hgen] at hg
  · obtain ⟨d, hd, rfl⟩ := hparents p hp
    obtain ⟨s, hs, -⟩ := ha.holds d hd
    exact ⟨_, hs⟩

structure Keeps (g h : GhostDag) : Prop where
  k : h.params.k = g.params.k
  links : ∀ x e, g.entry x = some e → h.linksOf x = .ok ⟨e.selectedParent, e.mergeParents, e.height⟩

theorem Keeps.of_entry (hk : h.params.k = g.params.k)
    (he : ∀ x e, g.entry x = some e → h.entry x = some e) : Keeps g h :=
  ⟨hk, fun x e hx => linksOf_of_entry (he x e hx)⟩

theorem Admitted.agree (ha : Admitted bs g) (hh : Keeps g h) (hh' : Keeps g h') :
    Agree h h' (fun x => ∃ e, g.entry x = some e) := by
  have hlinks : ∀ x l, (∃ e, g.entry x = some e) → h.linksOf x = .ok l → ∃ c ∈ bs,
      l.selectedParent = c.selectedParent ∧ l.mergeParents = c.header.mergeParentHashes := by
    rintro x l ⟨e, hx⟩ hl
    obtain ⟨c, hc, rfl⟩ := ha.only x e hx
    obtain ⟨s, hs, -⟩ := ha.holds c hc
    obtain rfl : _ = l := Except.ok.inj ((hh.links _ _ hs).symm.trans hl)
    exact ⟨c, hc, rfl, rfl⟩
  refine ⟨hh.k.trans hh'.k.symm, ?_, ?_, ?_⟩
  · rintro x ⟨e, hx⟩
    rw [hh.links x e hx, hh'.links x e hx]
  · intro x l hx hl hsp
    obtain ⟨c, hc, hsel, -⟩ := hlinks x l hx hl
    rw [hsel] at hsp ⊢
    cases hg : c.isGenesis with
    | true => exact absurd (Block.isGenesis_parts hg).1 hsp
    | false => exact ha.entry_parent hc hg List.mem_cons_self
  · intro x l hx hl m hm
    obtain ⟨c, hc, -, hmerges⟩ := hlinks x l hx hl
    rw [hmerges] at hm
    cases hg : c.isGenesis with
    | true =>
      rw [(Block.isGenesis_parts hg).2.1] at hm
      cases hm
    | false => exact ha.entry_parent hc hg (List.mem_cons_of_mem _ hm)

theorem Agree.deriveScoreAndWork (ha : Agree g h S)
    (hp : b.isGenesis = true ∨ (∀ p ∈ b.parents, S p) ∧
      g.scoreOf b.selectedParent = h.scoreOf b.selectedParent) :
    g.deriveScoreAndWork b = h.deriveScoreAndWork b := by
  unfold GhostDag.deriveScoreAndWork
  rcases hp with hg | ⟨hp, hscore⟩
  · rw [if_pos hg, if_pos hg]
  · have hm : ∀ m ∈ b.header.mergeParentHashes, S m := fun m hm => hp m (List.mem_cons_of_mem _ hm)
    rw [hscore, ha.scoreContribution (hp _ List.mem_cons_self) hm]

theorem Admitted.fresh (hg : Fresh g) : Admitted [] g where
  ordered := .nil
  holds _ hb := absurd hb List.not_mem_nil
  only x e he := by simp [entry, hg.1] at he
  tips x := by simp [hg.2]

theorem Admits.parentsIn (ha : Admitted bs g) (hs : Admits g b g') : ParentsIn bs b := by
  refine hs.1.imp id fun hparents p hp => ?_
  obtain ⟨r, hr⟩ := Option.isSome_iff_exists.mp (hparents p hp)
  exact ha.only p (bare r) (by simp [entry, hr])

theorem Admits.entry (hs : Admits g b g') : ∃ s store,
    { g with dagStore := store }.deriveScoreAndWork b = .ok s ∧ g'.params = g.params ∧
      (∀ x, g'.entry x = if x = b.hash then some (entryOf b s) else g.entry x) ∧
      g'.tips = b.hash :: (g.tips.filter (· ∉ b.parents)).filter (· ≠ b.hash) := by
  obtain ⟨-, store, hadd⟩ := hs
  obtain ⟨-, -, s, hd, rfl⟩ := addBlock_eq_ok.mp hadd
  exact ⟨s, store, hd, rfl, entry_record _ b s, rfl⟩

theorem Admitted.derive_eq (ha : Admitted bs g) (hh : Keeps g h) (hh' : Keeps g h')
    (hp : ParentsIn bs b)
    (hscore : ∀ e, b.isGenesis = false → g.entry b.selectedParent = some e →
      h.scoreOf b.selectedParent = h'.scoreOf b.selectedParent) :
    h.deriveScoreAndWork b = h'.deriveScoreAndWork b := by
  apply (ha.agree hh hh').deriveScoreAndWork
  rcases Bool.eq_false_or_eq_true b.isGenesis with hg | hg
  · exact Or.inl hg
  refine hp.imp id fun hparents => ?_
  have hheld : ∀ p ∈ b.parents, ∃ e, g.entry p = some e := by
    intro p hmem
    obtain ⟨c, hc, rfl⟩ := hparents p hmem
    obtain ⟨s, hs, -⟩ := ha.holds c hc
    exact ⟨_, hs⟩
  obtain ⟨e, he⟩ := hheld b.selectedParent List.mem_cons_self
  exact ⟨hheld, hscore e hg he⟩

section

variable (ha : Admitted bs g) (hs : Admits g b g') (hfresh : ∀ c ∈ bs, c.hash ≠ b.hash)
  (hzero : ∀ c ∈ bs, c.hash ≠ 0)
include ha hs hfresh hzero

theorem Admitted.tips_step (x : Hash) :
    x ∈ g'.tips ↔ (∃ c ∈ bs ++ [b], c.hash = x) ∧ Unnamed (bs ++ [b]) x := by
  obtain ⟨s, store, -, -, -, htips⟩ := hs.entry
  have hin := hs.parentsIn ha
  rw [htips]
  constructor
  · intro hx
    rcases List.mem_cons.mp hx with rfl | hx
    · refine ⟨⟨b, by simp, rfl⟩, ?_⟩
      intro c hc
      have hpc : ParentsIn bs c := forall_mem_concat.mpr ⟨ha.ordered.closed, hin⟩ c hc
      refine hpc.imp id fun hparents hmem => ?_
      obtain ⟨d, hd, hdb⟩ := hparents _ hmem
      exact hfresh d hd hdb
    · simp only [List.mem_filter, decide_eq_true_eq] at hx
      obtain ⟨⟨hx, hnp⟩, -⟩ := hx
      obtain ⟨⟨c, hc, hcx⟩, hun⟩ := (ha.tips x).mp hx
      exact ⟨⟨c, List.mem_append_left _ hc, hcx⟩, forall_mem_concat.mpr ⟨hun, .inr hnp⟩⟩
  · rintro ⟨⟨c, hc, rfl⟩, hun⟩
    rcases List.mem_append.mp hc with hc | hc
    · have hold : c.hash ∈ g.tips :=
        (ha.tips _).mpr ⟨⟨c, hc, rfl⟩, fun d hd => hun d (List.mem_append_left _ hd)⟩
      have hnp : c.hash ∉ b.parents := by
        rcases hun b (by simp) with hg | hnp
        · rw [(Block.isGenesis_parts hg).2.2]
          simpa using hzero c hc
        · exact hnp
      simp [hold, hnp, hfresh c hc]
    · rw [List.mem_singleton.mp hc]
      exact List.mem_cons_self

theorem Admitted.step : Admitted (bs ++ [b]) g' := by
  obtain ⟨s, store, hd, hparams, hentry, -⟩ := hs.entry
  have hin := hs.parentsIn ha
  have hkeep : ∀ x e, g.entry x = some e → g'.entry x = some e := by
    intro x e he
    obtain ⟨c, hc, rfl⟩ := ha.only x e he
    rw [hentry, if_neg (hfresh c hc), he]
  -- what the score of a block reads is there before and after the admission
  have hsame : ∀ store' c, ParentsIn bs c →
      { g with dagStore := store' }.deriveScoreAndWork c = g'.deriveScoreAndWork c := by
    intro store' c hpc
    have hstore : Keeps g { g with dagStore := store' } := .of_entry rfl fun _ _ he => he
    apply ha.derive_eq hstore (.of_entry (by rw [hparams]) hkeep) hpc
    intro e _ he
    rw [scoreOf_of_entry (hkeep _ e he)]
    exact scoreOf_of_entry he
  refine ⟨ha.ordered.snoc hin, ?_, ?_, ha.tips_step hs hfresh hzero⟩
  · refine forall_mem_concat.mpr ⟨fun c hc => ?_, s, by rw [hentry, if_pos rfl],
      by rw [← hsame store b hin]; exact hd⟩
    obtain ⟨t, ht, hdt⟩ := ha.holds c hc
    exact ⟨t, hkeep _ _ ht, by rw [← hsame g.dagStore c (ha.ordered.closed c hc)]; exact hdt⟩
  · intro x e he
    rw [hentry] at he
    split at he
    · rename_i hx
      exact ⟨b, by simp, hx.symm⟩
    · obtain ⟨c, hc, hcx⟩ := ha.only x e he
      exact ⟨c, List.mem_append_left _ hc, hcx⟩

end

theorem Runs.admitted (hg : Fresh g) (hr : Runs Admits g bs g')
    (hnodup : (bs.map Block.hash).Nodup) (hzero : ∀ b ∈ bs, b.hash ≠ 0) :
    Admitted bs g' ∧ g'.params = g.params := by
  induction hr with
  | refl => exact ⟨.fresh hg, rfl⟩
  | @step bs t b u _ hs ih =>
    rw [List.map_append, List.nodup_append] at hnodup
    have hz : ∀ c ∈ bs, c.hash ≠ 0 := fun c hc => hzero c (List.mem_append_left _ hc)
    obtain ⟨ha, hparams⟩ := ih hnodup.1 hz
    have hfresh : ∀ c ∈ bs, c.hash ≠ b.hash := by
      intro c hc
      exact hnodup.2.2 _ (List.mem_map_of_mem hc) _ (by simp)
    obtain ⟨_, _, -, hp, -, -⟩ := hs.entry
    exact ⟨ha.step hs hfresh hz, hp.trans hparams⟩

theorem Admitted.entry_eq {bs' cs : List Block} (ha : Admitted bs g) (hb : Admitted bs' h)
    (hk : g.params.k = h.params.k) (hmem : ∀ b, b ∈ bs ↔ b ∈ bs') (hcs : ParentsFirst cs)
    (hsub : ∀ b ∈ cs, b ∈ bs) : ∀ b ∈ cs, g.entry b.hash = h.entry b.hash := by
  induction hcs with
  | nil => exact nofun
  | @snoc cs b hcs hin ih =>
    have hold := ih fun c hc => hsub c (List.mem_append_left _ hc)
    intro c hc
    rcases List.mem_append.mp hc with hc | hc
    · exact hold c hc
    obtain rfl := List.mem_singleton.mp hc
    have hc := hsub c (by simp)
    obtain ⟨s, hs, hds⟩ := ha.holds c hc
    obtain ⟨t, ht, hdt⟩ := hb.holds c ((hmem c).mp hc)
    have hkeep : Keeps g h := by
      refine ⟨hk.symm, ?_⟩
      intro x e he
      obtain ⟨d, hd, rfl⟩ := ha.only x e he
      obtain ⟨u, hu, -⟩ := ha.holds d hd
      obtain ⟨v, hv, -⟩ := hb.holds d ((hmem d).mp hd)
      cases he.symm.trans hu
      rw [linksOf_of_entry hv]
      rfl
    have hderive : g.deriveScoreAndWork c = h.deriveScoreAndWork c := by
      apply ha.derive_eq (.of_entry rfl fun _ _ he => he) hkeep (ha.ordered.closed c hc)
      intro e hg _
      rcases hin with hgen | hparents
      · simp [hgen] at hg
      · obtain ⟨d, hd, hdp⟩ := hparents c.selectedParent List.mem_cons_self
        obtain ⟨u, hu, -⟩ := ha.holds d (hsub d (List.mem_append_left _ hd))
        have hu' := (hold d hd).symm.trans hu
        rw [← hdp, scoreOf_of_entry hu, scoreOf_of_entry hu']
    rw [hderive, hdt] at hds
    rw [hs, ht, Except.ok.inj hds]

/-- `t`, of score `s`, is the best of the scored blocks of `l`. -/
structure Leads (g : GhostDag) (l : List Hash) (t : Hash) (s : UInt64) : Prop where
  mem : t ∈ l
  score : g.derivedScore t = some s
  best : ∀ u ∈ l, ∀ s', g.derivedScore u = some s' → s' < s ∨ (s' = s ∧ t ≤ u)

def BestOf (g : GhostDag) (l : List Hash) : Option (Hash × UInt64) → Prop
  | none => ∀ u ∈ l, g.derivedScore u = none
  | some (t, s) => Leads g l t s

variable {best : Option (Hash × UInt64)}

theorem BestOf.step {l : List Hash} (hb : BestOf g l best) (tip : Hash) :
    BestOf g (l ++ [tip]) (g.betterTip best tip) := by
  unfold betterTip
  cases hr : g.relations tip with
  | none =>
    have hnone : g.derivedScore tip = none := by simp [derivedScore, hr]
    match best, hb with
    | none, hb => exact forall_mem_concat.mpr ⟨hb, hnone⟩
    | some (t, s), hb =>
      refine ⟨List.mem_append_left _ hb.mem, hb.score,
        forall_mem_concat.mpr ⟨hb.best, fun s' hs' => ?_⟩⟩
      cases hnone.symm.trans hs'
  | some r =>
    have hscore : g.derivedScore tip = some r.blueSet.score := by simp [derivedScore, hr]
    have hwon (hrest : ∀ u ∈ l, ∀ s', g.derivedScore u = some s' →
        s' < r.blueSet.score ∨ s' = r.blueSet.score ∧ tip ≤ u) : Leads g (l ++ [tip]) tip r.blueSet.score := by
      refine ⟨by simp, hscore, forall_mem_concat.mpr ⟨hrest, fun s' hs' => ?_⟩⟩
      exact .inr ⟨Option.some.inj (hs'.symm.trans hscore), BitVec.le_refl tip⟩
    match best, hb with
    | none, hb =>
      refine hwon fun u hu s' hs' => ?_
      cases (hb u hu).symm.trans hs'
    | some (t, s), hb =>
      dsimp only
      split
      · rename_i hwin
        refine hwon fun u hu s' hs' => ?_
        rcases hb.best u hu s' hs', hwin with ⟨hlt | ⟨rfl, hle⟩, hlt' | ⟨rfl, hlt'⟩⟩
        · exact .inl (hlt.trans hlt')
        · exact .inl hlt
        · exact .inl hlt'
        · exact .inr ⟨rfl, by bv_omega⟩
      · rename_i hlose
        refine ⟨List.mem_append_left _ hb.mem, hb.score,
          forall_mem_concat.mpr ⟨hb.best, fun s' hs' => ?_⟩⟩
        cases hscore.symm.trans hs'
        rw [not_or, not_lt] at hlose
        rcases hlose.1.lt_or_eq with hlt | heq
        · exact .inl hlt
        · exact .inr ⟨heq, BitVec.not_lt.mp fun hlt => hlose.2 ⟨heq, hlt⟩⟩

theorem bestOf_foldl (l : List Hash) {pre : List Hash} (hb : BestOf g pre best) :
    BestOf g (pre ++ l) (l.foldl g.betterTip best) := by
  induction l generalizing pre best with
  | nil => simpa using hb
  | cons tip l ih => simpa using ih (hb.step tip)

theorem Leads.unique {l l' : List Hash} {t t' : Hash} {s s' : UInt64} (hl : Leads g l t s)
    (hl' : Leads h l' t' s') (hmem : ∀ x, x ∈ l ↔ x ∈ l')
    (hscore : ∀ x ∈ l, g.derivedScore x = h.derivedScore x) : t = t' := by
  have hin : t' ∈ l := (hmem t').mpr hl'.mem
  have h1 := hl.best t' hin s' ((hscore t' hin).trans hl'.score)
  have h2 := hl'.best t ((hmem t).mp hl.mem) s ((hscore t hl.mem).symm.trans hl.score)
  rcases h1 with h1 | ⟨h1, hle⟩
  · rcases h2 with h2 | ⟨h2, -⟩
    · exact absurd h1 (lt_asymm h2)
    · exact absurd h2.symm h1.ne
  · rcases h2 with h2 | ⟨-, hle'⟩
    · exact absurd h1.symm h2.ne
    · exact BitVec.le_antisymm hle hle'

theorem selectTip_spec (g : GhostDag) : (∃ t s, g.selectTip = .ok t ∧ Leads g g.tips t s) ∨
      (g.selectTip = .error (.blockNotFound 0) ∧ ∀ u ∈ g.tips, g.derivedScore u = none) := by
  have hmem : ∀ x, x ∈ g.order.iter g.tips ↔ x ∈ g.tips := fun x => (g.order.perm g.tips).mem_iff
  have hbest : BestOf g ([] ++ g.order.iter g.tips) ((g.order.iter g.tips).foldl g.betterTip none) :=
    bestOf_foldl _ nofun
  unfold selectTip
  cases hf : (g.order.iter g.tips).foldl g.betterTip none with
  | none =>
    rw [hf] at hbest
    exact Or.inr ⟨rfl, fun u hu => hbest u ((hmem u).mpr hu)⟩
  | some p =>
    obtain ⟨t, s⟩ := p
    rw [hf] at hbest
    have hlead : Leads g g.tips t s :=
      ⟨(hmem t).mp hbest.mem, hbest.score, fun u hu => hbest.best u ((hmem u).mpr hu)⟩
    exact Or.inl ⟨t, s, rfl, hlead⟩

theorem selectTip_congr (hmem : ∀ x, x ∈ g.tips ↔ x ∈ h.tips)
    (hscore : ∀ x ∈ g.tips, g.derivedScore x = h.derivedScore x) : g.selectTip = h.selectTip := by
  rcases selectTip_spec g with ⟨t, s, hg, hl⟩ | ⟨hg, hnone⟩
  · rcases selectTip_spec h with ⟨t', s', hh, hl'⟩ | ⟨-, hnone⟩
    · rw [hg, hh, hl.unique hl' hmem hscore]
    · have hs := hnone t ((hmem t).mp hl.mem)
      rw [← hscore t hl.mem, hl.score] at hs
      cases hs
  · rcases selectTip_spec h with ⟨t', s', -, hl'⟩ | ⟨hh, -⟩
    · have hin : t' ∈ g.tips := (hmem t').mpr hl'.mem
      have hs := hnone t' hin
      rw [hscore t' hin, hl'.score] at hs
      cases hs
    · rw [hg, hh]

theorem Admits.mem_tips (hs : Admits g b g') : b.hash ∈ g'.tips := by
  obtain ⟨_, _, -, -, -, htips⟩ := hs.entry
  rw [htips]
  exact List.mem_cons_self

theorem exists_leads (ha : Admitted bs g') (hr : Runs Admits g bs g') (hne : bs ≠ []) :
    ∃ t s, g'.selectTip = .ok t ∧ Leads g' g'.tips t s := by
  rcases selectTip_spec g' with hlead | ⟨-, hnone⟩
  · exact hlead
  · cases hr with
    | refl => exact absurd rfl hne
    | @step bs t b u _ hs =>
      obtain ⟨s, he, -⟩ := ha.holds b (by simp)
      have hscore := hnone b.hash hs.mem_tips
      rw [derivedScore_eq, he] at hscore
      cases hscore

/-- Two engines that admit the same blocks, each after its parents and in whatever order, hold the
same derived scores and the same tips, and choose the same tip: the one of greatest derived score
and, among those, of smallest hash. `0` is the hash that stands for "no parent". -/
theorem fork_choice_convergence {bs bs' : List Block} (hg : Fresh g) (hh : Fresh h)
    (hparams : g.params = h.params) (hr : Runs Admits g bs g') (hr' : Runs Admits h bs' h')
    (hmem : ∀ b, b ∈ bs ↔ b ∈ bs') (hnodup : (bs.map Block.hash).Nodup)
    (hnodup' : (bs'.map Block.hash).Nodup) (hzero : ∀ b ∈ bs, b.hash ≠ 0) :
    (∀ x, g'.derivedScore x = h'.derivedScore x) ∧
    (∀ b ∈ bs, ∃ s, g'.derivedScore b.hash = some s) ∧
    (∀ x, x ∈ g'.tips ↔ (∃ b ∈ bs, b.hash = x) ∧ Unnamed bs x) ∧
    (∀ x, x ∈ g'.tips ↔ x ∈ h'.tips) ∧
    g'.selectTip = h'.selectTip ∧
    (bs ≠ [] → ∃ t s, g'.selectTip = .ok t ∧ Leads g' g'.tips t s) := by
  obtain ⟨ha, hp⟩ := Runs.admitted hg hr hnodup hzero
  obtain ⟨hb, hp'⟩ := Runs.admitted hh hr' hnodup' fun b hb => hzero b ((hmem b).mpr hb)
  have hk : g'.params.k = h'.params.k := by rw [hp, hp', hparams]
  have hentry : ∀ x, g'.entry x = h'.entry x := by
    intro x
    by_cases hx : ∃ b ∈ bs, b.hash = x
    · obtain ⟨b, hbm, rfl⟩ := hx
      exact ha.entry_eq hb hk hmem ha.ordered (fun _ hc => hc) b hbm
    · have hnone : g'.entry x = none :=
        Option.eq_none_iff_forall_ne_some.mpr fun e he => hx (ha.only x e he)
      have hnone' : h'.entry x = none := by
        refine Option.eq_none_iff_forall_ne_some.mpr fun e he => hx ?_
        obtain ⟨b, hbm, hbx⟩ := hb.only x e he
        exact ⟨b, (hmem b).mpr hbm, hbx⟩
      rw [hnone, hnone']
  have hscore : ∀ x, g'.derivedScore x = h'.derivedScore x := by
    intro x
    rw [derivedScore_eq, derivedScore_eq, hentry]
  have htips : ∀ x, x ∈ g'.tips ↔ x ∈ h'.tips := by
    intro x
    simp only [ha.tips, hb.tips, Unnamed, hmem]
  refine ⟨hscore, ?_, ha.tips, htips, selectTip_congr htips fun x _ => hscore x, exists_leads ha hr⟩
  intro b hbm
  obtain ⟨s, hs, -⟩ := ha.holds b hbm
  exact ⟨s.score, by rw [derivedScore_eq, hs]; rfl⟩

def lightweight (score : UInt64) : BlueSet := ⟨score, blueWorkForScore score⟩

theorem Admits.of_checks (score : UInt64)
    (hc : (b.isGenesis || b.parents.all fun p => (g.relations p).isSome) = true ∧
      ¬(b.isGenesis = false ∧ b.selectedParent = 0) ∧ g.validateBlockConsistency b = .ok () ∧
      g.deriveScoreAndWork b = .ok (lightweight score)) :
    Admits g b (g.record b (lightweight score)) := by
  obtain ⟨hp, hsp, hv, hd⟩ := hc
  simp only [Bool.or_eq_true, List.all_eq_true] at hp
  exact ⟨hp, g.dagStore, addBlock_eq_ok.mpr ⟨hsp, hv, _, hd, rfl⟩⟩

-- a genesis block, two siblings on it, and a block that merges them
def rootBlock : Block := ⟨⟨1, 1, 0, [], 0, 0, 0, 0⟩, 0, []⟩
def leftBlock : Block := ⟨⟨1, 2, 1, [], 0, 1, 1, 1000000⟩, 0, []⟩
def rightBlock : Block := ⟨⟨1, 3, 1, [], 0, 1, 1, 1000000⟩, 0, []⟩
def mergeBlock : Block := ⟨⟨1, 4, 2, [3], 0, 2, 2, 2000000⟩, 0, []⟩

def diamondEngine (order : HashOrder) : GhostDag where
  params := {}
  dagStore :=
    { blocks x := [rootBlock, leftBlock, rightBlock, mergeBlock].find? (·.hash = x)
      derivedScores _ := none
      configuredGenesis := some 1 }
  relations _ := none
  tips := []
  mergeDepthActivationHeight := some 0
  pbaHardening := {}
  verifyHash _ := true
  order := order

theorem fork_choice_convergence_diamond : ∃ g h : GhostDag,
    Runs Admits (diamondEngine ⟨id, fun _ => .refl _⟩)
      [rootBlock, leftBlock, rightBlock, mergeBlock] g ∧
    Runs Admits (diamondEngine ⟨List.reverse, List.reverse_perm⟩)
      [rootBlock, rightBlock, leftBlock, mergeBlock] h ∧
    g.selectTip = h.selectTip ∧ g.selectTip = .ok 4 ∧ g.derivedScore 4 = some 4 := by
  have hr : Runs Admits (diamondEngine ⟨id, fun _ => .refl _⟩)
      [rootBlock, leftBlock, rightBlock, mergeBlock] _ :=
    .head (.of_checks 1 (by decide)) <| .head (.of_checks 2 (by decide)) <|
      .head (.of_checks 2 (by decide)) <| .head (.of_checks 4 (by decide)) .refl
  have hr' : Runs Admits (diamondEngine ⟨List.reverse, List.reverse_perm⟩)
      [rootBlock, rightBlock, leftBlock, mergeBlock] _ :=
    .head (.of_checks 1 (by decide)) <| .head (.of_checks 2 (by decide)) <|
      .head (.of_checks 2 (by decide)) <| .head (.of_checks 4 (by decide)) .refl
  have hmem : ∀ b, b ∈ [rootBlock, leftBlock, rightBlock, mergeBlock] ↔
      b ∈ [rootBlock, rightBlock, leftBlock, mergeBlock] := by
    simp only [List.mem_cons]
    tauto
  have hconv := fork_choice_convergence ⟨rfl, rfl⟩ ⟨rfl, rfl⟩ (by rfl) hr hr' hmem
    (by decide) (by decide) (by simp [rootBlock, leftBlock, rightBlock, mergeBlock, Block.hash])
  exact ⟨_, _, hr, hr', hconv.2.2.2.2.1, by decide, by decide⟩

end CitrateChain.Consensus.GhostDag
