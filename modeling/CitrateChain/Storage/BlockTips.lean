import Mathlib.Data.List.Sort
import CitrateChain.Storage.BlockPurge

/-! # The tips of the block store

A block is a tip when it has no children row. Deletions write the shortened row back, and a row
without children is not an empty value. -/
namespace CitrateChain.Storage
open Consensus (Hash Block BlockHeader)
open Bytes (toLe)
open Transition BlockStore KvStore

namespace BlockRows
variable {s : BlockRows} {h : Hash} {doomed : List Hash}

def deleteBlock (s : BlockRows) (h : Hash) : BlockRows :=
  match s.getBlock h with
  | none => s
  | some b =>
    { s with
      blocks := s.blocks.write (.delete h)
      byHeight := s.byHeight.write (.delete b.height)
      children := s.children.writeBatch (b.parents.map fun p => .put p ((s.getChildren p).filter (· ≠ h)))
      byBlueScore := s.byBlueScore.write (.delete b.header.blueScore) }

/-- How a row of children is serialised. A list without children takes bytes as well, since its
length is written. -/
structure RowFormat where
  bytes : List Hash → Bytes
  bytes_ne_nil : ∀ row, bytes row ≠ []

def getTips (format : RowFormat) (s : BlockRows) (hashes : List Hash) : List Hash :=
  let hasChildren h := (s.children h).any fun row => !(format.bytes row).isEmpty
  let tips := (hashes.filter fun h => !hasChildren h).map fun h =>
    (((s.getHeader h).map (·.height)).getD 0, h)
  (tips.mergeSort fun a b => decide (b.1 < a.1 ∨ b.1 = a.1 ∧ b.2 ≤ a.2)).map (·.2)

inductive Call
  | putBlock (b : Block)
  | deleteBlock (h : Hash)
  | purgeBlocks (headers : List (Hash × BlockHeader)) (doomed : List Hash)

def Call.run (s : BlockRows) : Call → BlockRows
  | .putBlock b => s.putBlock b
  | .deleteBlock h => s.deleteBlock h
  | .purgeBlocks headers doomed => (s.purgeBlocks headers doomed).2

variable {format : RowFormat}

theorem mem_getTips {hashes : List Hash} :
    h ∈ getTips format s hashes ↔ h ∈ hashes ∧ s.children h = none := by
  have hrow : ∀ h, ((s.children h).any fun row => !(format.bytes row).isEmpty) =
      (s.children h).isSome := by
    intro h
    cases s.children h <;> simp [format.bytes_ne_nil]
  simp [getTips, hrow]

/-- The rows are the children of the stored blocks, and none is empty. -/
structure Linked (s : BlockRows) : Prop where
  children : ∀ p c, c ∈ s.getChildren p ↔ s.Names p c
  filled : ∀ p, s.children p ≠ some []

theorem Linked.children_eq_none (hs : Linked s) (p : Hash) : s.children p = none ↔ ∀ c, ¬s.Names p c := by
  simp only [← hs.children, mem_getChildren]
  cases hrow : s.children p with
  | none => simp
  | some row =>
    obtain ⟨c, hc⟩ := List.exists_mem_of_ne_nil row fun hnil => hs.filled p (hnil ▸ hrow)
    simpa using ⟨c, hc⟩

theorem Linked.put (hs : Linked s) {b : Block}
    (hsame : ∀ b', s.blocks b.hash = some b' → b'.header = b.header) : Linked (s.putBlock b) where
  children p c := by
    rw [mem_getChildren_putBlock, names_putBlock hsame, hs.children]
  filled p hp := by
    rcases writeBatch_eq_some hp with hput | ⟨hp, -⟩
    · obtain ⟨q, -, hop⟩ := List.mem_map.mp hput
      simpa using (KvOp.put.inj hop).2
    · exact hs.filled p hp

theorem deleteBlock_rows {b : Block} (hb : s.blocks h = some b) :
    (∀ x, (s.deleteBlock h).blocks x = if x = h then none else s.blocks x) ∧
      ∀ p, (s.deleteBlock h).children p =
        if p ∈ b.parents then some ((s.getChildren p).filter (· ≠ h)) else s.children p := by
  rw [deleteBlock, getBlock, hb]
  refine ⟨fun x => write_delete .., fun p => ?_⟩
  refine writeBatch_ite (fun p => some ((s.getChildren p).filter (· ≠ h)))
    (List.forall_mem_map.mpr fun _ _ => rfl) (fun p => ?_) p
  simp [KvOp.key]

theorem Linked.delete (hs : Linked s) (hother : ∀ p, s.Names p h → ∃ c, c ≠ h ∧ s.Names p c) :
    Linked (s.deleteBlock h) := by
  cases hb : s.blocks h with
  | none => rwa [deleteBlock, getBlock, hb]
  | some b =>
    obtain ⟨hblocks, hrows⟩ := deleteBlock_rows hb
    have hnamed : ∀ p, s.Names p h ↔ p ∈ b.parents := fun p => by simp [Names, hb]
    have hnames : ∀ p c, (s.deleteBlock h).Names p c ↔ c ≠ h ∧ s.Names p c := by
      intro p c
      simp only [Names, hblocks]
      split_ifs with hc <;> simp [hc]
    refine ⟨fun p c => ?_, fun p hnil => ?_⟩
    · rw [hnames, getChildren, hrows, ← hs.children]
      split_ifs with hp
      · simp [and_comm]
      · refine ⟨fun hc => ⟨?_, hc⟩, And.right⟩
        rintro rfl
        exact hp ((hnamed p).mp ((hs.children p c).mp hc))
    · rw [hrows] at hnil
      split_ifs at hnil with hp
      · obtain ⟨c, hne, hc⟩ := hother p ((hnamed p).mpr hp)
        have hmem : c ∈ (s.getChildren p).filter (· ≠ h) :=
          List.mem_filter.mpr ⟨(hs.children p c).mpr hc, decide_eq_true hne⟩
        rw [Option.some.inj hnil] at hmem
        cases hmem
      · exact hs.filled p hnil

/-- A purged block that is stored has no surviving child, a purged parent of a purged block is stored,
and a surviving one has a surviving child. -/
structure Purgeable (s : BlockRows) (doomed : List Hash) : Prop where
  closed : ∀ p ∈ doomed, s.hasBlock p → ∀ c, s.Names p c → c ∈ doomed
  stored : ∀ p ∈ doomed, ∀ c ∈ doomed, s.Names p c → s.hasBlock p
  spared : ∀ p, p ∉ doomed → ∀ c ∈ doomed, s.Names p c → ∃ c', c' ∉ doomed ∧ s.Names p c'

theorem Linked.purge (hs : Linked s) {headers : List (Hash × BlockHeader)} (hd : Purgeable s doomed) :
    Linked (s.purgeBlocks headers doomed).2 := by
  by_cases hne : doomed = []
  · rwa [purgeBlocks, if_pos hne]
  obtain ⟨hblocks, hrows, -⟩ := @purgeBlocks_rows s doomed headers hne
  simp only [childOps_row hs.children] at hrows
  have hnames : ∀ p c, (s.purgeBlocks headers doomed).2.Names p c ↔ c ∉ doomed ∧ s.Names p c := by
    intro p c
    simp only [Names, hblocks]
    split_ifs with hc <;> simp [hc]
  refine ⟨fun p c => ?_, fun p hnil => ?_⟩
  · rw [hnames, getChildren, hrows, ← hs.children]
    split_ifs with hp hstored
    · refine ⟨fun hc => absurd hc List.not_mem_nil,
        fun hc => absurd (hd.closed p hp hstored c ((hs.children p c).mp hc.2)) hc.1⟩
    · refine ⟨fun hc => ⟨fun hdoomed => hstored ?_, hc⟩, And.right⟩
      exact hd.stored p hp c hdoomed ((hs.children p c).mp hc)
    · rw [mem_getChildren]
      cases s.children p <;> simp [and_comm]
  · rw [hrows] at hnil
    split_ifs at hnil with hp
    · exact hs.filled p hnil
    obtain ⟨row, hrow, hfilter⟩ := Option.map_eq_some_iff.mp hnil
    have hall : ∀ c ∈ row, c ∈ doomed := by simpa [List.filter_eq_nil_iff] using hfilter
    have hmem : ∀ {c}, c ∈ row ↔ s.Names p c := by
      intro c
      rw [← hs.children, getChildren, hrow, Option.getD_some]
    obtain ⟨c, hc⟩ := List.exists_mem_of_ne_nil row fun hrow' => hs.filled p (hrow' ▸ hrow)
    obtain ⟨c', hc', hnamed⟩ := hd.spared p hp c (hall c hc) (hmem.mp hc)
    exact hc' (hall c' (hmem.mpr hnamed))

def Orderly (s : BlockRows) : Call → Prop
  | .putBlock b => ∀ b', s.blocks b.hash = some b' → b'.header = b.header
  | .deleteBlock h => ∀ p, s.Names p h → ∃ c, c ≠ h ∧ s.Names p c
  | .purgeBlocks _ doomed => Purgeable s doomed

/-- After every run of orderly calls the tips are the stored blocks that no stored block names. -/
theorem tips_exact {calls : List Call} {hashes : List Hash}
    (hr : Runs (fun s call s' => Orderly s call ∧ s' = call.run s) empty calls s)
    (hhashes : ∀ h, h ∈ hashes ↔ s.hasBlock h) :
    h ∈ getTips format s hashes ↔ s.hasBlock h ∧ ∀ c, ¬s.Names h c := by
  have hlinked : Linked s := by
    refine hr.invariant ⟨fun p c => ?_, fun p => nofun⟩ ?_
    · simp [BlockStore.getChildren, empty, BlockStore.empty, Names]
    · rintro t call _ ht ⟨horderly, rfl⟩
      cases call with
      | putBlock b => exact ht.put horderly
      | deleteBlock h => exact ht.delete horderly
      | purgeBlocks headers doomed => exact ht.purge horderly
  rw [mem_getTips, hhashes, hlinked.children_eq_none]

-- the length as a 64-bit number, then the hashes
def lengthFirst : RowFormat where
  bytes row := toLe 8 row.length ++ row.flatMap Hash.asBytes
  bytes_ne_nil row hnil := by
    have hlen := congrArg List.length hnil
    simp [toLe] at hlen

def fourBlocks : BlockRows := (siblings 1).putBlock (siblingOf 4 2)

def thinned : BlockRows := ((fourBlocks.deleteBlock 2).purgeBlocks [] [4]).2

theorem fourBlocks_parents {c : Hash} {b : Block} (hb : fourBlocks.blocks c = some b) :
    b.parents = if c = 1 then [0] else [1] := by
  have hput : fourBlocks.blocks c = if c = 4 then some (siblingOf 4 2) else (siblings 1).blocks c :=
    write_put ..
  rw [hput, siblings_blocks] at hb
  split_ifs at hb with h4 h3 h2 h1 <;> cases hb <;> subst_vars <;> rfl

theorem thinned_run : Runs (fun s call s' => Orderly s call ∧ s' = call.run s) empty
    [.putBlock purgeGenesis, .putBlock (siblingOf 2 1), .putBlock (siblingOf 3 1),
      .putBlock (siblingOf 4 2), .deleteBlock 2, .purgeBlocks [] [4]] thinned := by
  have hdelete : Orderly fourBlocks (.deleteBlock 2) := by
    rintro p ⟨b, hb, hp⟩
    rw [fourBlocks_parents hb] at hp
    exact ⟨3, by decide, siblingOf 3 1, rfl, hp⟩
  have hnames : ∀ {p c}, (fourBlocks.deleteBlock 2).Names p c → ∃ b, fourBlocks.blocks c = some b ∧
      p ∈ b.parents := by
    rintro p c ⟨b, hb, hp⟩
    rw [(deleteBlock_rows rfl).1] at hb
    split_ifs at hb
    exact ⟨b, hb, hp⟩
  have hpurge : Orderly (fourBlocks.deleteBlock 2) (.purgeBlocks [] [4]) := by
    refine ⟨fun p hp _ c hc => ?_, fun p hp c hc hnamed => ?_, fun p _ c hc hnamed => ?_⟩
    all_goals
      obtain ⟨b, hb, hmem⟩ := hnames ‹_›
      rw [fourBlocks_parents hb] at hmem
      simp only [List.mem_singleton] at *
    · subst hp
      split_ifs at hmem <;> exact absurd hmem (by decide)
    · subst hp hc
      exact absurd hmem (by decide)
    · subst hc
      exact ⟨3, by decide, siblingOf 3 1, rfl, hmem⟩
  exact .head ⟨nofun, rfl⟩ <| .head ⟨nofun, rfl⟩ <| .head ⟨nofun, rfl⟩ <| .head ⟨nofun, rfl⟩ <|
    .head ⟨hdelete, rfl⟩ <| .head ⟨hpurge, rfl⟩ .refl

theorem tips_exact_thinned :
    3 ∈ getTips lengthFirst thinned [1, 3] ∧ 1 ∉ getTips lengthFirst thinned [1, 3] := by
  have hblocks : ∀ x, thinned.blocks x =
      if x ∈ [4] then none else if x = 2 then none else fourBlocks.blocks x := fun x => by
    rw [thinned, (purgeBlocks_rows (by decide)).1, (deleteBlock_rows rfl).1]
  have hexact : ∀ h, h ∈ getTips lengthFirst thinned [1, 3] ↔
      thinned.hasBlock h ∧ ∀ c, ¬thinned.Names h c := by
    intro h
    refine tips_exact thinned_run fun x => ?_
    have hfour : fourBlocks.blocks x = if x = 4 then some (siblingOf 4 2) else (siblings 1).blocks x :=
      write_put ..
    rw [hasBlock, hblocks, hfour, siblings_blocks]
    simp only [List.mem_cons, List.not_mem_nil, or_false]
    split_ifs with h4 h2 h3 h1 <;> simp_all
  refine ⟨(hexact 3).mpr ⟨rfl, ?_⟩, fun htip => ((hexact 1).mp htip).2 3 ⟨siblingOf 3 1, rfl, by decide⟩⟩
  rintro c ⟨b, hb, hp⟩
  rw [hblocks] at hb
  split_ifs at hb
  rw [fourBlocks_parents hb] at hp
  split_ifs at hp <;> exact absurd hp (by decide)

theorem emptied_row_hides_tip :
    let s := ((empty.putBlock purgeGenesis).putBlock (siblingOf 2 1)).deleteBlock 2
    s.hasBlock 1 ∧ (∀ c, ¬s.Names 1 c) ∧ ∀ format, 1 ∉ getTips format s [1] := by
  intro s
  have hblocks : ∀ x, s.blocks x = if x = 2 then none else if x = 2 then some (siblingOf 2 1)
      else if x = 1 then some purgeGenesis else none := fun x =>
    ((deleteBlock_rows rfl).1 x).trans (by simp only [putBlock, BlockStore.putBlock, write_put]; rfl)
  refine ⟨by decide, ?_, fun format htip => absurd (mem_getTips.mp htip).2 (by decide)⟩
  rintro c ⟨b, hb, hp⟩
  rw [hblocks] at hb
  split_ifs at hb
  cases hb
  exact absurd hp (by decide)

end BlockRows

end CitrateChain.Storage
