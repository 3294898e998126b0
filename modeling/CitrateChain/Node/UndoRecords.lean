import CitrateChain.Base.Runs
import CitrateChain.Node.Reorg
import CitrateChain.Storage.UndoStaging

/-! # Kept undo records are exact

Linear commits, rewrites of the applied tip and reorg batches move one store, and any of them may fail
to stage its undo records. A kept record then undoes the block it names, on whichever branch that
block stands: the invariant is about the record and not about the chain. What a batch without records
leaves behind may lie above its tip, so the heights are those of the window only after a batch that
staged its records. -/
namespace CitrateChain.Execution
open Std (ExtTreeMap)
open Storage

section PreImages
variable {K V : Type} [Ord K] [Std.TransOrd K] [Std.LawfulEqOrd K] [DecidableEq V]

theorem preImages_complete (before after : ExtTreeMap K V) :
    KvStore.PreImages (preImages before after) (fun k => after[k]?) fun k => before[k]? := by
  refine ⟨fun e he => ?_, fun k hk => ?_⟩
  · rcases List.mem_append.mp he with he | he
    · obtain ⟨c, -, rfl⟩ := List.mem_map.mp he
      rfl
    · obtain ⟨c, hc, rfl⟩ := List.mem_map.mp he
      exact (ExtTreeMap.mem_toList_iff_getElem?_eq_some.mp (List.mem_filter.mp hc).1).symm
  by_contra hne
  refine hk (List.mem_map.mpr ?_)
  cases hafter : after[k]? with
  | some v =>
    refine ⟨(k, before[k]?), List.mem_append_left _ (List.mem_map.mpr ⟨(k, v), ?_, rfl⟩), rfl⟩
    refine List.mem_filter.mpr ⟨ExtTreeMap.mem_toList_iff_getElem?_eq_some.mpr hafter, ?_⟩
    exact decide_eq_true fun hbefore => hne (hafter.trans hbefore.symm)
  | none =>
    cases hbefore : before[k]? with
    | none => exact absurd (hafter.trans hbefore.symm) hne
    | some v =>
      refine ⟨(k, some v), List.mem_append_right _ (List.mem_map.mpr ⟨(k, v), ?_, rfl⟩), rfl⟩
      refine List.mem_filter.mpr ⟨ExtTreeMap.mem_toList_iff_getElem?_eq_some.mpr hbefore, ?_⟩
      exact decide_eq_true (TreeMap.not_mem_of_getElem? hafter)

end PreImages

def World.durable (w : World) : Durable where
  accounts := fun a => w.accounts[a]?
  slots := fun k => w.getStorage k.1 k.2

theorem reflects_iff {s : StateStore} {w : World} : Reflects s w ↔ s.durable = w.durable := by
  constructor
  · intro h
    exact Durable.ext (funext h.accounts) (funext fun k => h.slots k.1 k.2)
  · intro h
    refine ⟨fun a => ?_, fun a key => ?_⟩
    · exact congrFun (congrArg Durable.accounts h) a
    · exact congrFun (congrArg Durable.slots h) (a, key)

theorem storageChanges_complete (before after : World) : KvStore.PreImages
      ((storageChanges after before).map fun c => ((c.address, c.key), c.value))
      after.durable.slots before.durable.slots := by
  refine ⟨fun e he => ?_, fun k hk => ?_⟩
  · obtain ⟨c, hc, rfl⟩ := List.mem_map.mp he
    exact (mem_storageChanges.mp hc).2
  · by_contra hne
    have hmem : ⟨k.1, k.2, before.getStorage k.1 k.2⟩ ∈ storageChanges after before :=
      mem_storageChanges.mpr ⟨Ne.symm hne, rfl⟩
    exact hk (List.mem_map.mpr ⟨_, List.mem_map.mpr ⟨_, hmem, rfl⟩, rfl⟩)

end CitrateChain.Execution

namespace CitrateChain.Node
open Consensus (Hash)
open Storage Execution

section BranchUndo
variable {stateOf : Hash → Durable} {tip : UInt64} {r : BlockUndo}
variable {snaps : List (UInt64 × Hash × StateDb)} {parent : AppliedTip}

theorem branchUndo_undoes {prev : World} (hprev : prev.durable = stateOf parent.hash)
    (hsnaps : ∀ snap ∈ snaps, snap.2.2.toWorld.durable = stateOf snap.2.1)
    (hr : r ∈ branchUndo tip parent prev snaps) :
    ∃ p, r.parent = some p ∧ r.Undoes (stateOf r.hash) (stateOf p.hash) := by
  induction snaps generalizing parent prev with
  | nil => cases hr
  | cons snap snaps ih =>
    obtain ⟨height, hash, db⟩ := snap
    obtain ⟨hdb, hsnaps⟩ := List.forall_mem_cons.mp hsnaps
    rcases List.mem_append.mp hr with hr | hr
    · split at hr
      · obtain rfl := List.mem_singleton.mp hr
        refine ⟨parent, rfl, ?_⟩
        rw [← hprev, ← hdb]
        refine ⟨preImages_complete prev.accounts db.accounts, ?_⟩
        rw [BlockUndo.slotLog, List.map_map]
        exact storageChanges_complete prev db.toWorld
      · cases hr
    · exact ih hdb hsnaps hr

theorem branchUndo_ne_nil {prev : World} {last : UInt64 × Hash × StateDb} (hlast : 0 < last.1) :
    branchUndo last.1 parent prev (snaps ++ [last]) ≠ [] := by
  induction snaps generalizing parent prev with
  | nil =>
    have hwindow : Word.saturatingSub last.1 maxReorgDepth < last.1 := by
      rw [UInt64.lt_iff_toNat_lt, Word.saturatingSub_toNat]
      have hdepth : maxReorgDepth.toNat = 100 := rfl
      have hpos := UInt64.lt_iff_toNat_lt.mp hlast
      rw [UInt64.toNat_zero] at hpos
      omega
    obtain ⟨height, hash, db⟩ := last
    simp [branchUndo, hwindow]
  | cons snap snaps ih =>
    obtain ⟨height, hash, db⟩ := snap
    exact fun h => ih (List.append_eq_nil_iff.mp h).2

end BranchUndo

/-- A store with the chain it has applied, tip first: every block with the accounts and slots the
store held when it last stood there. Execution is deterministic, so below the tip these are a function
`stateOf` of the block; at the tip, rewrites may still be under way. -/
structure AppliedStore (stateOf : Hash → Durable) where
  store : StorageManager
  chain : List (AppliedTip × Durable)
  top : chain.head? = store.blocks.appliedTip.map fun tip => (tip, store.state.durable)
  settled : ∀ e ∈ chain.tail, e.2 = stateOf e.1.hash
  descending : chain.Pairwise fun e e' => e'.1.height < e.1.height

inductive UndoBatch
  | commit (tip : AppliedTip) (accounts : List (Address × AccountState))
      (storage : List StateStorageChange) (index : ReceiptIndexBatch)
      (modelsJobs : Option ModelJobUndo) (fault : Option UndoFault)
  | move (tip : AppliedTip) (baseline current : World) (code : List (Hash × Bytes))
      (index : ReceiptIndexBatch)
  | adopt (fork : AppliedTip) (base : World) (branch : List (UInt64 × Hash × StateDb))
      (last : UInt64 × Hash × StateDb) (code : List (Hash × Bytes)) (index : ReceiptIndexBatch)
      (fault : Option UndoFault)

namespace UndoBatch

def tip : UndoBatch → AppliedTip
  | commit tip .. => tip
  | move tip .. => tip
  | adopt _ _ _ last .. => ⟨last.2.1, last.1⟩

def write (encodedLen : BlockUndo → ℕ) (st : StorageManager) : UndoBatch → StorageManager
  | commit tip accounts storage index modelsJobs fault =>
    st.commitBatch encodedLen fault accounts storage tip index modelsJobs
  | move tip baseline current code index =>
    st.reorgBatch encodedLen none (accountPuts baseline current) (storageChanges baseline current)
      (accountDels baseline current) code tip index []
  | adopt fork base branch last code index fault =>
    st.reorgBatch encodedLen fault (accountPuts base last.2.2.toWorld)
      (storageChanges base last.2.2.toWorld) (accountDels base last.2.2.toWorld) code
      ⟨last.2.1, last.1⟩ index (branchUndo last.1 fork base (branch ++ [last]))

def Drops : UndoBatch → Prop
  | commit tip _ _ _ _ fault => ∀ f ∈ fault, f.dropped tip.height = true
  | _ => True

def Stages : UndoBatch → Prop
  | commit _ _ _ _ _ fault => fault = none
  | move .. => False
  | adopt _ _ _ _ _ _ fault => fault = none

end UndoBatch

namespace AppliedStore
variable {stateOf : Hash → Durable} {s s' : AppliedStore stateOf} {b : UndoBatch}
variable {encodedLen : BlockUndo → ℕ}

def Settled (s : AppliedStore stateOf) : Prop :=
  ∀ t ∈ s.store.blocks.appliedTip, s.store.state.durable = stateOf t.hash

def stateAt (s : AppliedStore stateOf) (t : AppliedTip) : Durable :=
  if s.store.blocks.appliedTip = some t then s.store.state.durable else stateOf t.hash

/-- What the node makes sure of before it writes a batch: the batch starts from the state the store
holds, and the states it carries are those of their blocks. -/
def Meets (s : AppliedStore stateOf) : UndoBatch → Prop
  | .commit .. => True
  | .move tip baseline current _ _ =>
    s.Settled ∧ s.store.state.durable = baseline.durable ∧ current.durable = stateOf tip.hash
  | .adopt fork base branch last _ _ _ =>
    s.store.blocks.appliedTip = some fork ∧ s.store.state.durable = base.durable ∧
      ∀ snap ∈ branch ++ [last], snap.2.2.toWorld.durable = stateOf snap.2.1

def Below (s : AppliedStore stateOf) (rest : List (AppliedTip × Durable)) : UndoBatch → Prop
  | .commit tip .. => rest = if s.store.blocks.appliedTip = some tip then s.chain.tail else s.chain
  | .move .. => True
  | .adopt _ _ branch .. =>
    rest = (branch.reverse.map fun snap => (⟨snap.2.1, snap.1⟩, stateOf snap.2.1)) ++ s.chain

structure Step (encodedLen : BlockUndo → ℕ) (s : AppliedStore stateOf) (b : UndoBatch)
    (s' : AppliedStore stateOf) : Prop where
  meets : s.Meets b
  store : s'.store = b.write encodedLen s.store
  below : s.Below s'.chain.tail b

def Exact (s : AppliedStore stateOf) : Prop :=
  ∀ k r p, s.store.state.undo k = some r → r.parent = some p →
    r.Undoes (s.stateAt ⟨r.hash, k⟩) (stateOf p.hash)

theorem stateAt_of_settled (h : s.Settled) (t : AppliedTip) : s.stateAt t = stateOf t.hash := by
  unfold stateAt
  split
  · rename_i ht
    exact h t ht
  · rfl

theorem stateAt_tip {t : AppliedTip} (h : s.store.blocks.appliedTip = some t) :
    s.stateAt t = s.store.state.durable := if_pos h

theorem settled_of_below (h : ∀ e ∈ s.chain, e ∈ s'.chain.tail) : s.Settled := by
  intro t ht
  have htop := s.top
  rw [ht] at htop
  exact s'.settled _ (h _ (List.mem_of_mem_head? htop))

theorem write_appliedTip (st : StorageManager) (b : UndoBatch) :
    (b.write encodedLen st).blocks.appliedTip = some b.tip := by
  cases b with
  | commit | move | adopt => rfl

variable {tip : AppliedTip} {index : ReceiptIndexBatch} {fault : Option UndoFault}

theorem reorgBatch_durable {st : StorageManager} {base cur : World} {code : List (Hash × Bytes)}
    {undo : List BlockUndo} (h : st.state.durable = base.durable) :
    (st.reorgBatch encodedLen fault (accountPuts base cur) (storageChanges base cur)
      (accountDels base cur) code tip index undo).state.durable = cur.durable := by
  exact reflects_iff.mp (reconciled_reflects (.inl (reflects_iff.mpr h)) rfl rfl)

theorem Exact.commit {accounts : List (Address × AccountState)}
    {storage : List StateStorageChange} {modelsJobs : Option ModelJobUndo} (hs : s.Exact)
    (h : s.Step encodedLen (.commit tip accounts storage index modelsJobs fault) s')
    (hdrop : ∀ f ∈ fault, f.dropped tip.height = true) : s'.Exact := by
  have htip : s'.store.blocks.appliedTip = some tip := by
    rw [h.store]
    exact write_appliedTip ..
  have hdurable : s'.store.state.durable = s.store.state.committed accounts storage := by
    rw [h.store]
    rfl
  -- above the durable tip, that tip has become part of the chain below
  have hsettled : s.store.blocks.appliedTip ≠ some tip → s.Settled := by
    intro hne
    have hbelow : s'.chain.tail = s.chain := h.below.trans (if_neg hne)
    exact settled_of_below fun e he => hbelow ▸ he
  intro k r p hr hp
  rw [h.store] at hr
  rcases StateStore.stageBlockUndoWith_some hdrop hr with ⟨rfl, hown⟩ | ⟨hk, hold⟩
  · obtain ⟨base, hbase, -, hhash, hparent, hundoes⟩ := StateStore.blockUndo_some hown
    have hnamed : (⟨r.hash, tip.height⟩ : AppliedTip) = tip := by rw [hhash, hbase.names.2]
    rw [hnamed, stateAt_tip htip, hdurable]
    apply hundoes
    cases hbase with
    | fresh _ hne =>
      rw [← hsettled hne p (hparent.symm.trans hp)]
      exact ⟨KvStore.PreImages.nil _, KvStore.PreImages.nil _⟩
    | @own record _ hdone hrecord hnames _ =>
      have hheld := hs tip.height record p hrecord (hparent.symm.trans hp)
      have hsame : (⟨record.hash, tip.height⟩ : AppliedTip) = tip := by rw [hnames]
      rw [hsame, stateAt_tip hdone] at hheld
      exact ⟨hheld.accounts, hheld.slots⟩
  · have hne : tip ≠ ⟨r.hash, k⟩ := fun he => hk (congrArg AppliedTip.height he).symm
    have hheld := hs k r p hold hp
    have hstate : s.stateAt ⟨r.hash, k⟩ = stateOf r.hash := by
      by_cases hdone : s.store.blocks.appliedTip = some tip
      · exact if_neg fun he => hne (Option.some.inj (hdone.symm.trans he))
      · exact stateAt_of_settled (hsettled hdone) _
    have hstate' : s'.stateAt ⟨r.hash, k⟩ = stateOf r.hash :=
      if_neg fun he => hne (Option.some.inj (htip.symm.trans he))
    rwa [hstate', ← hstate]

theorem Exact.reorg (hs : s.Exact) (hsettled : s.Settled) (hsettled' : s'.Settled)
    (hundo : ∀ k r, s'.store.state.undo k = some r → s.store.state.undo k = some r ∨
      ∃ p, r.parent = some p ∧ r.Undoes (stateOf r.hash) (stateOf p.hash)) : s'.Exact := by
  intro k r p hr hp
  rw [stateAt_of_settled hsettled']
  rcases hundo k r hr with hold | ⟨q, hq, hnew⟩
  · have hheld := hs k r p hold hp
    rwa [stateAt_of_settled hsettled] at hheld
  · cases hq.symm.trans hp
    exact hnew

theorem Exact.step (hs : s.Exact) (h : s.Step encodedLen b s') (hdrop : b.Drops) : s'.Exact := by
  have htip : s'.store.blocks.appliedTip = some b.tip := by
    rw [h.store]
    exact write_appliedTip ..
  cases b with
  | commit tip accounts storage index modelsJobs fault => exact hs.commit h hdrop
  | move tip baseline current code index =>
    obtain ⟨hsettled, hbase, hcur⟩ := h.meets
    refine hs.reorg hsettled (fun t ht => ?_) fun k r hr => .inl ?_
    · cases htip.symm.trans ht
      rw [h.store]
      exact (reorgBatch_durable hbase).trans hcur
    · rw [h.store] at hr
      exact hr
  | adopt fork base branch last code index fault =>
    obtain ⟨hfork, hbase, hsnaps⟩ := h.meets
    have hbelow : s'.chain.tail = _ ++ s.chain := h.below
    have hsettled : s.Settled := settled_of_below fun e he => hbelow ▸ List.mem_append_right _ he
    refine hs.reorg hsettled (fun t ht => ?_) fun k r hr => ?_
    · cases htip.symm.trans ht
      rw [h.store]
      exact (reorgBatch_durable hbase).trans (hsnaps last List.mem_concat_self)
    · rw [h.store] at hr
      change (if _ then _ else _ : KvStore UInt64 BlockUndo) k = some r at hr
      split at hr
      · exact .inl hr
      · rcases StateStore.stageBranchUndoWith_some hr with ⟨hmem, -⟩ | hold
        · exact .inr (branchUndo_undoes (hbase.symm.trans (hsettled fork hfork)) hsnaps hmem)
        · exact .inl hold

theorem chain_eq_cons (h : s.store.blocks.appliedTip = some tip) :
    s.chain = (tip, s.store.state.durable) :: s.chain.tail := by
  have htop := s.top
  rw [h] at htop
  exact List.eq_cons_of_mem_head? htop

theorem stateAt_of_mem {e : AppliedTip × Durable} (h : e ∈ s.chain) : s.stateAt e.1 = e.2 := by
  cases htip : s.store.blocks.appliedTip with
  | none =>
    have htop := s.top
    rw [htip, Option.map_none, List.head?_eq_none_iff] at htop
    rw [htop] at h
    cases h
  | some tip =>
    have hcons := chain_eq_cons htip
    have hdesc := s.descending
    rw [hcons] at h hdesc
    rcases List.mem_cons.mp h with rfl | hmem
    · exact stateAt_tip htip
    · have hlt : e.1.height < tip.height := List.rel_of_pairwise_cons hdesc hmem
      rw [s.settled e hmem]
      refine if_neg fun he => ?_
      rw [Option.some.inj (htip.symm.trans he)] at hlt
      exact absurd hlt (UInt64.lt_irrefl _)

theorem Step.windowed (h : s.Step encodedLen b s') (hb : b.Stages) {k : UInt64} {r : BlockUndo}
    (hr : s'.store.state.undo k = some r) : inUndoWindow k b.tip.height = true := by
  have htip : s'.store.blocks.appliedTip = some b.tip := by
    rw [h.store]
    exact write_appliedTip ..
  rw [h.store] at hr
  cases b with
  | commit tip accounts storage index modelsJobs fault =>
    obtain rfl : fault = none := hb
    exact (StateStore.stageUndoWindow_some hr).1
  | move => exact hb.elim
  | adopt fork base branch last code index fault =>
    obtain rfl : fault = none := hb
    have hbelow : s'.chain.tail = _ ++ s.chain := h.below
    have hfork := chain_eq_cons h.meets.1
    have hmem : (fork, s.store.state.durable) ∈ s'.chain.tail := by
      rw [hbelow]
      exact List.mem_append_right _ (hfork ▸ List.mem_cons_self)
    have hdesc := s'.descending
    rw [chain_eq_cons htip] at hdesc
    have hlt : fork.height < last.1 := List.rel_of_pairwise_cons hdesc hmem
    have hpos : 0 < last.1 := by
      rw [UInt64.lt_iff_toNat_lt] at hlt ⊢
      exact Nat.lt_of_le_of_lt (Nat.zero_le _) hlt
    have hsome : branchUndo last.1 fork base (branch ++ [last]) ≠ [] := branchUndo_ne_nil hpos
    change (if _ then _ else _ : KvStore UInt64 BlockUndo) k = some r at hr
    rw [if_neg (by simpa using hsome)] at hr
    exact (StateStore.stageUndoWindow_some hr).1

theorem Exact.run {bs : List UndoBatch} (hfresh : ∀ k, s.store.state.undo k = none)
    (hrun : Transition.Runs (Step encodedLen) s bs s') (hdrop : ∀ b ∈ bs, b.Drops) : s'.Exact := by
  have hstart : s.Exact := fun k r p hr => nomatch (hfresh k).symm.trans hr
  have hclean : Transition.Runs (fun s b s' => Step encodedLen s b s' ∧ b.Drops) s bs s' :=
    hrun.imp fun s b s' hmem hstep => ⟨hstep, hdrop b hmem⟩
  exact hclean.invariant hstart fun s b s' hs hstep => hs.step hstep.1 hstep.2

end AppliedStore

def noState : Hash → Durable := fun _ => ⟨fun _ => none, fun _ => none⟩

def freshStore : AppliedStore noState where
  store := .empty
  chain := []
  top := rfl
  settled := nofun
  descending := .nil

def firstCommit : UndoBatch := .commit ⟨1, 1⟩ [] [] {} none none

def secondCommit : UndoBatch := .commit ⟨2, 2⟩ [] [] {} none none

def secondRewrite (fault : Option UndoFault) : UndoBatch := .commit ⟨2, 2⟩ [(5, {})] [] {} none fault

def revertToFirst : UndoBatch := .move ⟨1, 1⟩ {} {} [] {}

def failedScan : UndoBatch := .commit ⟨1, 1⟩ [] [] {} none (some ⟨.window fun _ => false, fun _ => true⟩)

def atFirst (store : StorageManager)
    (top : some (⟨1, 1⟩, noState 1) = store.blocks.appliedTip.map fun tip => (tip, store.state.durable)) :
    AppliedStore noState where
  store
  chain := [(⟨1, 1⟩, noState 1)]
  top
  settled := nofun
  descending := List.pairwise_singleton _ _

def oneCommit : AppliedStore noState := atFirst (firstCommit.write (fun _ => 0) freshStore.store) rfl

def twoCommits : AppliedStore noState where
  store := secondCommit.write (fun _ => 0) oneCommit.store
  chain := [(⟨2, 2⟩, noState 2), (⟨1, 1⟩, noState 1)]
  top := rfl
  settled := by
    intro e he
    obtain rfl := List.mem_singleton.mp he
    rfl
  descending := by simp

def twoCommitsRewritten (fault : Option UndoFault) : AppliedStore noState where
  store := (secondRewrite fault).write (fun _ => 0) twoCommits.store
  chain := [(⟨2, 2⟩, ((secondRewrite fault).write (fun _ => 0) twoCommits.store).state.durable),
    (⟨1, 1⟩, noState 1)]
  top := rfl
  settled := twoCommits.settled
  descending := by simp

def revertedToFirst : AppliedStore noState :=
  atFirst (revertToFirst.write (fun _ => 0) twoCommits.store) rfl

def scanFailed : AppliedStore noState :=
  atFirst (failedScan.write (fun _ => 0) revertedToFirst.store) rfl

theorem twoCommits_run : Transition.Runs (AppliedStore.Step fun _ => 0) freshStore
    [firstCommit, secondCommit] twoCommits :=
  have hfirst : freshStore.Step (fun _ => 0) firstCommit oneCommit := ⟨trivial, rfl, rfl⟩
  have hsecond : oneCommit.Step (fun _ => 0) secondCommit twoCommits := ⟨trivial, rfl, rfl⟩
  (Transition.Runs.refl.step hfirst).step hsecond

theorem twoCommitsRewritten_step (fault : Option UndoFault) :
    twoCommits.Step (fun _ => 0) (secondRewrite fault) (twoCommitsRewritten fault) :=
  ⟨trivial, rfl, rfl⟩

theorem revertedToFirst_step : twoCommits.Step (fun _ => 0) revertToFirst revertedToFirst := by
  have hempty : ({} : World).durable = noState 1 := by
    refine Durable.ext (funext fun a => ?_) (funext fun k => ?_)
    · simp [World.durable, noState]
    · simp [World.durable, World.getStorage, noState]
  refine ⟨⟨?_, hempty.symm, hempty⟩, rfl, trivial⟩
  intro t ht
  rfl

/-- In every run from a store without records, in which a failed staging of a commit at least removes
the record it could not keep: a kept record that names an applied block and the applied block below it
turns the durable state of the one into that of the other; and after a batch that stages its records
the kept heights are those of the window. -/
theorem undo_records_exact {stateOf : Hash → Durable} {s s' : AppliedStore stateOf}
    {encodedLen : BlockUndo → ℕ} {bs : List UndoBatch} (hfresh : ∀ k, s.store.state.undo k = none)
    (hrun : Transition.Runs (AppliedStore.Step encodedLen) s bs s') (hdrop : ∀ b ∈ bs, b.Drops) :
    (∀ above below tip parent now before r,
      s'.chain = above ++ (tip, now) :: (parent, before) :: below →
      s'.store.state.undo tip.height = some r → r.hash = tip.hash → r.parent = some parent →
        r.revert now = before) ∧
      ∀ b tip k r, bs.getLast? = some b → b.Stages → s'.store.blocks.appliedTip = some tip →
        s'.store.state.undo k = some r → inUndoWindow k tip.height = true := by
  refine ⟨fun above below tip parent now before r hchain hr hhash hparent => ?_,
    fun b tip k r hlast hb htip hr => ?_⟩
  · have hexact := AppliedStore.Exact.run hfresh hrun hdrop _ r parent hr hparent
    have hnow : s'.stateAt tip = now := AppliedStore.stateAt_of_mem (e := (tip, now)) (by simp [hchain])
    have hbefore : before = stateOf parent.hash := by
      refine s'.settled (parent, before) ?_
      rw [hchain]
      cases above with
      | nil | cons => simp
    have hsame : (⟨r.hash, tip.height⟩ : AppliedTip) = tip := by rw [hhash]
    rw [hsame, hnow, ← hbefore] at hexact
    exact hexact.revert
  · obtain ⟨bs, rfl⟩ := List.getLast?_eq_some_iff.mp hlast
    obtain ⟨mid, -, hstep⟩ := hrun.snoc_inv
    rw [hstep.store, AppliedStore.write_appliedTip] at htip
    cases htip
    exact hstep.windowed hb hr

theorem undo_records_exact_rewritten : ∃ r, (twoCommitsRewritten none).store.state.undo 2 = some r ∧
      r.revert (twoCommitsRewritten none).store.state.durable = noState 1 ∧
      inUndoWindow 2 2 = true := by
  have hdrop : ∀ b ∈ [firstCommit, secondCommit] ++ [secondRewrite none], b.Drops := by
    simp [firstCommit, secondCommit, secondRewrite, UndoBatch.Drops]
  have h := undo_records_exact (fun _ => rfl) (twoCommits_run.step (twoCommitsRewritten_step none)) hdrop
  have hexact := h.1 [] [] ⟨2, 2⟩ ⟨1, 1⟩ _ _ _ rfl rfl rfl rfl
  have hwindow := h.2 (secondRewrite none) ⟨2, 2⟩ 2 _ rfl rfl rfl rfl
  exact ⟨_, rfl, hexact, hwindow⟩

theorem revert_keeps_record_above_tip :
    (∃ r, revertedToFirst.store.blocks.appliedTip = some ⟨1, 1⟩ ∧
      revertedToFirst.store.state.undo 2 = some r ∧ inUndoWindow 2 1 = false ∧
      Transition.Runs (AppliedStore.Step fun _ => 0) freshStore
        ([firstCommit, secondCommit] ++ [revertToFirst]) revertedToFirst) ∧
      (∃ r, scanFailed.store.blocks.appliedTip = some ⟨1, 1⟩ ∧ scanFailed.store.state.undo 2 = some r ∧
        revertedToFirst.Step (fun _ => 0) failedScan scanFailed) ∧
      ∃ fault r, Transition.Runs (AppliedStore.Step fun _ => 0) freshStore
          ([firstCommit, secondCommit] ++ [secondRewrite (some fault)])
          (twoCommitsRewritten (some fault)) ∧
        (twoCommitsRewritten (some fault)).store.state.undo 2 = some r ∧ r.hash = 2 ∧
        r.parent = some ⟨1, 1⟩ ∧
        r.revert (twoCommitsRewritten (some fault)).store.state.durable ≠ noState 1 := by
  refine ⟨⟨_, rfl, rfl, by decide, twoCommits_run.step revertedToFirst_step⟩,
    ⟨_, rfl, rfl, trivial, rfl, rfl⟩, ⟨.record 0, fun _ => false⟩, _,
    twoCommits_run.step (twoCommitsRewritten_step _), rfl, rfl, rfl, ?_⟩
  intro h
  have hnone := congrFun (congrArg Durable.accounts h) 5
  cases hnone

end CitrateChain.Node
