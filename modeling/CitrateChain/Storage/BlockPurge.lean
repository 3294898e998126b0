import CitrateChain.Base.Runs
import CitrateChain.Storage.BlockStore

/-! # Purging blocks from the block store

The height rows and the blue-score rows keep the last block that was put. A purge removes the rows
that name a purged block, gives the height rows to surviving blocks, and leaves the blue-score rows
empty. -/
namespace CitrateChain.Storage
open Consensus (Hash Block BlockHeader)
open Transition KvStore BlockStore

/-- The block store with its blue-score rows and its latest height. -/
structure BlockRows extends BlockStore where
  byBlueScore : KvStore UInt64 Hash
  latestHeight : UInt64

namespace BlockRows
variable {s : BlockRows} {b : Block} {doomed : List Hash}

def empty : BlockRows := { BlockStore.empty with byBlueScore := fun _ => none, latestHeight := 0 }

def putBlock (s : BlockRows) (b : Block) : BlockRows :=
  { s.toBlockStore.putBlock b with
    byBlueScore :=
      if 0 < b.header.blueScore then s.byBlueScore.write (.put b.header.blueScore b.hash)
      else s.byBlueScore
    latestHeight := max s.latestHeight b.height }

def found (s : BlockRows) (doomed : List Hash) : List (Hash × Block) :=
  doomed.filterMap fun h => (s.getBlock h).map (Prod.mk h)

def vacated (index : KvStore UInt64 Hash) (key : BlockHeader → UInt64) (found : List (Hash × Block)) :
    List UInt64 :=
  (found.filter fun e => index (key e.2.header) = some e.1).map fun e => key e.2.header

def childOps (s : BlockRows) (doomed : List Hash) : List (KvOp Hash (List Hash)) :=
  let parents := ((s.found doomed).flatMap fun e => e.2.parents).filter (· ∉ doomed)
  (s.found doomed).map (fun e => .delete e.1) ++ parents.filterMap fun p =>
    let kept := (s.getChildren p).filter (· ∉ doomed)
    if kept.length = (s.getChildren p).length then none else some (.put p kept)

/-- `headers` is what the backend iterates, `doomed` the set in its iteration order. -/
def purgeBlocks (s : BlockRows) (headers : List (Hash × BlockHeader)) (doomed : List Hash) :
    UInt64 × BlockRows :=
  if doomed = [] then (s.latestHeight, s)
  else
    let found := s.found doomed
    let heights := vacated s.byHeight (·.height) found
    let survivors := headers.filter fun e => e.1 ∉ doomed
    let latest := survivors.foldl (fun latest e => max latest e.2.height) 0
    let refill := heights.filterMap fun n =>
      (survivors.find? fun e => e.2.height = n).map fun e => .put n e.1
    (latest,
      { s with
        blocks := s.blocks.writeBatch (found.map fun e => .delete e.1)
        children := s.children.writeBatch (s.childOps doomed)
        byHeight := s.byHeight.writeBatch (heights.map .delete ++ refill)
        byBlueScore :=
          s.byBlueScore.writeBatch ((vacated s.byBlueScore (·.blueScore) found).map .delete)
        latestHeight := latest })

def Names (s : BlockRows) (p c : Hash) : Prop := ∃ b, s.blocks c = some b ∧ p ∈ b.parents

/-- Every row names a block with its key, and every block that has a key has a row. -/
structure Indexes (blocks : KvStore Hash Block) (index : KvStore UInt64 Hash)
    (key : BlockHeader → UInt64) (keyed : BlockHeader → Prop) : Prop where
  names : ∀ n h, index n = some h → ∃ b, blocks h = some b ∧ key b.header = n
  covers : ∀ h b, blocks h = some b → keyed b.header → ∃ h', index (key b.header) = some h'

def IsLatest (blocks : KvStore Hash Block) (n : UInt64) : Prop :=
  (∀ h b, blocks h = some b → b.height ≤ n) ∧ (n = 0 ∨ ∃ h b, blocks h = some b ∧ b.height = n)

structure Sound (s : BlockRows) : Prop where
  heights : Indexes s.blocks s.byHeight (·.height) fun _ => True
  scores : Indexes s.blocks s.byBlueScore (·.blueScore) fun header => 0 < header.blueScore
  children : ∀ p c, c ∈ s.getChildren p ↔ s.Names p c
  latest : IsLatest s.blocks s.latestHeight

section Index
variable {blocks : KvStore Hash Block} {index : KvStore UInt64 Hash} {key : BlockHeader → UInt64}
  {keyed : BlockHeader → Prop}

theorem exists_put (hsame : ∀ b', blocks b.hash = some b' → b'.header = b.header) {x : Hash}
    {b' : Block} (hb' : blocks x = some b') :
    ∃ b'', blocks.write (.put b.hash b) x = some b'' ∧ b''.header = b'.header := by
  rw [write_put]
  split_ifs with hx
  · exact ⟨b, rfl, (hsame b' (hx ▸ hb')).symm⟩
  · exact ⟨b', hb', rfl⟩

theorem Indexes.put [DecidablePred keyed] (h : Indexes blocks index key keyed)
    (hsame : ∀ b', blocks b.hash = some b' → b'.header = b.header) :
    Indexes (blocks.write (.put b.hash b))
      (if keyed b.header then index.write (.put (key b.header) b.hash) else index) key keyed where
  names n x hx := by
    have hold : index n = some x → ∃ b', blocks.write (.put b.hash b) x = some b' ∧
        key b'.header = n := by
      intro hx
      obtain ⟨b', hb', hkey⟩ := h.names n x hx
      obtain ⟨b'', hb'', hheader⟩ := exists_put hsame hb'
      exact ⟨b'', hb'', hheader ▸ hkey⟩
    split_ifs at hx
    · rw [write_put] at hx
      split_ifs at hx with hn
      · cases hx
        exact ⟨b, by simp [write_put], hn.symm⟩
      · exact hold hx
    · exact hold hx
  covers x b' hb' hkeyed := by
    rw [write_put] at hb'
    split_ifs at hb' with hx
    · cases hb'
      exact ⟨b.hash, by simp [hkeyed, write_put]⟩
    · obtain ⟨h', hindex⟩ := h.covers x b' hb' hkeyed
      split_ifs
      · rw [write_put]
        split_ifs
        · exact ⟨_, rfl⟩
        · exact ⟨h', hindex⟩
      · exact ⟨h', hindex⟩

theorem mem_found {x : Hash} : (x, b) ∈ s.found doomed ↔ x ∈ doomed ∧ s.blocks x = some b := by
  simp [found, getBlock]

theorem Indexes.mem_vacated (h : Indexes s.blocks index key keyed) {n : UInt64} :
    n ∈ vacated index key (s.found doomed) ↔ ∃ x ∈ doomed, index n = some x := by
  simp only [vacated, List.mem_map, List.mem_filter, Prod.exists, mem_found, decide_eq_true_eq]
  constructor
  · rintro ⟨x, b, ⟨⟨hx, -⟩, hindex⟩, rfl⟩
    exact ⟨x, hx, hindex⟩
  · rintro ⟨x, hx, hindex⟩
    obtain ⟨b, hb, rfl⟩ := h.names n x hindex
    exact ⟨x, b, ⟨⟨hx, hb⟩, hindex⟩, rfl⟩

theorem Indexes.writeBatch_vacated (h : Indexes s.blocks index key keyed) (n : UInt64) :
    index.writeBatch ((vacated index key (s.found doomed)).map .delete) n =
      (index n).filter (· ∉ doomed) := by
  rw [writeBatch_ite (q := (· ∈ vacated index key (s.found doomed))) fun _ => none]
  · cases hindex : index n with
    | none => simp
    | some x => by_cases hx : x ∈ doomed <;> simp [h.mem_vacated, hindex, Option.filter, hx]
  · exact List.forall_mem_map.mpr fun _ _ => rfl
  · simp [KvOp.key]

end Index

theorem mem_getChildren {p c : Hash} : c ∈ s.getChildren p ↔ ∃ l, s.children p = some l ∧ c ∈ l := by
  cases hl : s.children p <;> simp [getChildren, hl]

theorem mem_getChildren_putBlock (p c : Hash) : c ∈ (s.putBlock b).getChildren p ↔
    c ∈ s.getChildren p ∨ c = b.hash ∧ p ∈ b.parents := by
  have hrow : (s.putBlock b).children p = if p ∈ b.parents.filter fun p => b.hash ∉ s.getChildren p then
      some (s.getChildren p ++ [b.hash]) else s.children p :=
    writeBatch_ite (fun p => some (s.getChildren p ++ [b.hash])) (List.forall_mem_map.mpr fun _ _ => rfl)
      (fun p => by simp [KvOp.key]) p
  by_cases hp : p ∈ b.parents.filter fun p => b.hash ∉ s.getChildren p
  · rw [if_pos hp] at hrow
    simp [getChildren, hrow, (List.mem_filter.mp hp).1]
  rw [if_neg hp] at hrow
  have hlinked : p ∈ b.parents → b.hash ∈ s.getChildren p := by simpa using hp
  rw [show (s.putBlock b).getChildren p = s.getChildren p by simp [getChildren, hrow]]
  refine ⟨.inl, ?_⟩
  rintro (hc | ⟨rfl, hc⟩)
  · exact hc
  · exact hlinked hc

theorem names_putBlock (hsame : ∀ b', s.blocks b.hash = some b' → b'.header = b.header) (p c : Hash) :
    (s.putBlock b).Names p c ↔ s.Names p c ∨ c = b.hash ∧ p ∈ b.parents := by
  change (∃ b', s.blocks.write (.put b.hash b) c = some b' ∧ p ∈ b'.parents) ↔ _
  rw [write_put]
  split_ifs with hc
  · subst hc
    simp only [true_and, Option.some.injEq, exists_eq_left']
    refine ⟨.inr, ?_⟩
    rintro (⟨b', hb', hp⟩ | hp)
    · rwa [Block.parents, ← hsame b' hb']
    · exact hp
  · simp [hc, Names]

def Puts (s : BlockRows) (b : Block) (s' : BlockRows) : Prop :=
  (∀ b', s.blocks b.hash = some b' → b'.header = b.header) ∧ s' = s.putBlock b

theorem Sound.put (h : Sound s) (hsame : ∀ b', s.blocks b.hash = some b' → b'.header = b.header) :
    Sound (s.putBlock b) where
  heights := by
    have hput := h.heights.put hsame
    rw [if_pos trivial] at hput
    exact hput
  scores := h.scores.put hsame
  children p c := by
    rw [mem_getChildren_putBlock, names_putBlock hsame, h.children]
  latest := by
    refine ⟨fun x b' hb' => ?_, ?_⟩
    · change s.blocks.write (.put b.hash b) x = some b' at hb'
      rw [write_put] at hb'
      split_ifs at hb'
      · cases hb'
        exact le_max_right _ _
      · exact (h.latest.1 x b' hb').trans (le_max_left _ _)
    · change max s.latestHeight b.height = 0 ∨ ∃ x b',
        s.blocks.write (.put b.hash b) x = some b' ∧ b'.height = max s.latestHeight b.height
      rcases le_total s.latestHeight b.height with hle | hle
      · exact .inr ⟨b.hash, b, by simp [write_put], (max_eq_right hle).symm⟩
      · rw [max_eq_left hle]
        refine h.latest.2.imp id fun hreached => ?_
        obtain ⟨x, b', hb', hheight⟩ := hreached
        obtain ⟨b'', hb'', hheader⟩ := exists_put hsame hb'
        exact ⟨x, b'', hb'', by rw [← hheight, Block.height, Block.height, hheader]⟩

theorem Runs.sound {bs : List Block} (hr : Runs Puts empty bs s) : Sound s := by
  refine hr.invariant ⟨⟨nofun, nofun⟩, ⟨nofun, nofun⟩, fun p c => ?_, nofun, .inl rfl⟩ ?_
  · simp [BlockStore.getChildren, empty, BlockStore.empty, Names]
  · rintro s b _ h ⟨hsame, rfl⟩
    exact h.put hsame

/-- What a purge should leave: only the purged blocks are gone, the rows of both indexes name
surviving blocks and cover all of them, no child is a purged block, and the latest height is right. -/
structure Purged (s s' : BlockRows) (doomed : List Hash) : Prop where
  blocks : ∀ x, s'.blocks x = if x ∈ doomed then none else s.blocks x
  heights : Indexes s'.blocks s'.byHeight (·.height) fun _ => True
  scores : Indexes s'.blocks s'.byBlueScore (·.blueScore) fun header => 0 < header.blueScore
  children : ∀ p, ∀ c ∈ s'.getChildren p, c ∉ doomed
  latest : IsLatest s'.blocks s'.latestHeight

theorem writeBatch_found (x : Hash) :
    s.blocks.writeBatch ((s.found doomed).map fun e => .delete e.1) x =
      if x ∈ doomed then none else s.blocks x := by
  rw [writeBatch_ite (q := fun x => x ∈ doomed ∧ (s.blocks x).isSome) fun _ => none]
  · cases hb : s.blocks x <;> simp
  · exact List.forall_mem_map.mpr fun _ _ => rfl
  · simp [KvOp.key, mem_found, Option.isSome_iff_exists]

theorem mem_childOps {op : KvOp Hash (List Hash)} : op ∈ s.childOps doomed ↔
    (∃ x b, (x ∈ doomed ∧ s.blocks x = some b) ∧ op = .delete x) ∨
      ∃ p, (∃ x b, (x ∈ doomed ∧ s.blocks x = some b) ∧ p ∈ b.parents) ∧ p ∉ doomed ∧
        (∃ c ∈ s.getChildren p, c ∈ doomed) ∧
        op = .put p ((s.getChildren p).filter (· ∉ doomed)) := by
  simp only [childOps, List.mem_append, List.mem_map, List.mem_filterMap, List.mem_filter,
    List.mem_flatMap, Prod.exists, mem_found, Option.ite_none_left_eq_some,
    List.length_filter_eq_length_iff, decide_eq_true_eq, Option.some.injEq, eq_comm (b := op)]
  simp [and_assoc]

theorem childOps_row (hchildren : ∀ p c, c ∈ s.getChildren p ↔ s.Names p c) (p : Hash) :
    s.children.writeBatch (s.childOps doomed) p =
      if p ∈ doomed then if s.hasBlock p then none else s.children p
      else (s.children p).map (List.filter (· ∉ doomed)) := by
  by_cases hop : ∃ op ∈ s.childOps doomed, op.key = p
  · rw [writeBatch_of_mem (fun p => if p ∈ doomed then none
      else some ((s.getChildren p).filter (· ∉ doomed))) _ hop]
    · obtain ⟨op, hop, rfl⟩ := hop
      obtain ⟨x, b, ⟨hx, hb⟩, rfl⟩ | ⟨q, -, hq, ⟨c, hc, -⟩, rfl⟩ := mem_childOps.mp hop
      · simp [KvOp.key, hx, hasBlock, hb]
      · obtain ⟨l, hl, -⟩ := mem_getChildren.mp hc
        simp [KvOp.key, hq, getChildren, hl]
    · intro op hop
      obtain ⟨x, b, ⟨hx, -⟩, rfl⟩ | ⟨q, -, hq, -, rfl⟩ := mem_childOps.mp hop
      · simp [KvOp.key, KvOp.value, hx]
      · simp [KvOp.key, KvOp.value, hq]
  · have hkeep : s.children.writeBatch (s.childOps doomed) p = s.children p :=
      writeBatch_of_forall_ne fun op hmem hkey => hop ⟨op, hmem, hkey⟩
    rw [hkeep]
    split_ifs with hp hstored
    · obtain ⟨b, hb⟩ := Option.isSome_iff_exists.mp hstored
      exact absurd ⟨_, mem_childOps.mpr (.inl ⟨p, b, ⟨hp, hb⟩, rfl⟩), rfl⟩ hop
    · rfl
    cases hl : s.children p with
    | none => rfl
    | some l =>
      have hkept : ∀ c ∈ l, c ∉ doomed := by
        intro c hc hdoomed
        have hmem := mem_getChildren.mpr ⟨l, hl, hc⟩
        obtain ⟨b, hb, hparent⟩ := (hchildren p c).mp hmem
        exact hop ⟨_, mem_childOps.mpr
          (.inr ⟨p, ⟨c, b, ⟨hdoomed, hb⟩, hparent⟩, hp, ⟨c, hmem, hdoomed⟩, rfl⟩), rfl⟩
      rw [Option.map_some, List.filter_eq_self.mpr fun c hc => decide_eq_true (hkept c hc)]

theorem foldl_max (l : List (Hash × BlockHeader)) (n : UInt64) :
    let m := l.foldl (fun latest e => max latest e.2.height) n
    (n ≤ m ∧ ∀ e ∈ l, e.2.height ≤ m) ∧ (m = n ∨ ∃ e ∈ l, e.2.height = m) := by
  induction l generalizing n with
  | nil => simp
  | cons e l ih =>
    obtain ⟨⟨hmax, hall⟩, hattained⟩ := ih (max n e.2.height)
    refine ⟨⟨(le_max_left _ _).trans hmax, ?_⟩, ?_⟩
    · exact List.forall_mem_cons.mpr ⟨(le_max_right _ _).trans hmax, hall⟩
    · rcases hattained with heq | ⟨e', he', heq⟩
      · rcases max_choice n e.2.height with hn | hn
        · exact .inl (heq.trans hn)
        · exact .inr ⟨e, List.mem_cons_self, (heq.trans hn).symm⟩
      · exact .inr ⟨e', List.mem_cons_of_mem _ he', heq⟩

section Survivors
variable {headers : List (Hash × BlockHeader)}

theorem mem_survivors (hheaders : KvStore.ListedBy s.getHeader headers) {e : Hash × BlockHeader} :
    e ∈ headers.filter (fun e => e.1 ∉ doomed) ↔
      ∃ b, s.blocks.writeBatch ((s.found doomed).map fun e => .delete e.1) e.1 = some b ∧
        b.header = e.2 := by
  rw [List.mem_filter, hheaders e.1 e.2, writeBatch_found]
  by_cases he : e.1 ∈ doomed <;> simp [he, getHeader]

theorem purgeBlocks_rows (hne : doomed ≠ []) :
    (∀ x, (s.purgeBlocks headers doomed).2.blocks x = if x ∈ doomed then none else s.blocks x) ∧
      (∀ p, (s.purgeBlocks headers doomed).2.children p =
        s.children.writeBatch (s.childOps doomed) p) ∧
      ∀ n, (s.purgeBlocks headers doomed).2.byBlueScore n = s.byBlueScore.writeBatch
        ((vacated s.byBlueScore (·.blueScore) (s.found doomed)).map .delete) n := by
  rw [purgeBlocks, if_neg hne]
  exact ⟨writeBatch_found, fun _ => rfl, fun _ => rfl⟩

theorem Sound.purge_heights (h : Sound s) (hheaders : KvStore.ListedBy s.getHeader headers)
    (hne : doomed ≠ []) : Indexes (s.purgeBlocks headers doomed).2.blocks
      (s.purgeBlocks headers doomed).2.byHeight (·.height) fun _ => True := by
  have hsurvivor : ∀ e, e ∈ headers.filter (fun e => e.1 ∉ doomed) ↔ _ := fun _ =>
    mem_survivors hheaders
  rw [purgeBlocks, if_neg hne]
  simp only [writeBatch_append]
  set survivors := headers.filter fun e => e.1 ∉ doomed
  refine ⟨fun n x hrow => ?_, fun x b hb _ => ?_⟩
  · rcases writeBatch_eq_some hrow with hput | ⟨hrow, -⟩
    · obtain ⟨m, -, hput⟩ := List.mem_filterMap.mp hput
      obtain ⟨e, he, hop⟩ := Option.map_eq_some_iff.mp hput
      obtain ⟨rfl, rfl⟩ := KvOp.put.inj hop
      obtain ⟨b, hb, hheader⟩ := (hsurvivor e).mp (List.mem_of_find?_eq_some he)
      exact ⟨b, hb, by simpa [hheader] using List.find?_some he⟩
    · rw [h.heights.writeBatch_vacated, Option.filter_eq_some_iff] at hrow
      obtain ⟨b, hb, hheight⟩ := h.heights.names n x hrow.1
      exact ⟨b, by simpa [writeBatch_found, hb] using hrow.2, hheight⟩
  · by_cases hn : b.height ∈ vacated s.byHeight (·.height) (s.found doomed)
    · have hfind : (survivors.find? fun e => e.2.height = b.height).isSome :=
        List.find?_isSome.mpr ⟨(x, b.header), (hsurvivor _).mpr ⟨b, hb, rfl⟩, by simp [Block.height]⟩
      obtain ⟨e, he⟩ := Option.isSome_iff_exists.mp hfind
      refine ⟨e.1, (writeBatch_of_mem
        (fun n => (survivors.find? fun e => e.2.height = n).map Prod.fst) ?_ ?_).trans ?_⟩
      · intro op hop
        obtain ⟨m, -, hop⟩ := List.mem_filterMap.mp hop
        obtain ⟨e, he, rfl⟩ := Option.map_eq_some_iff.mp hop
        exact (congrArg (Option.map Prod.fst) he).symm
      · exact ⟨.put b.height e.1, List.mem_filterMap.mpr ⟨_, hn, by rw [he]; rfl⟩, rfl⟩
      · change (survivors.find? fun e => e.2.height = b.height).map Prod.fst = _
        rw [he, Option.map_some]
    · have hb' : x ∉ doomed ∧ s.blocks x = some b := by simpa [writeBatch_found] using hb
      obtain ⟨h', hrow⟩ := h.heights.covers x b hb'.2 trivial
      refine ⟨h', ?_⟩
      rw [writeBatch_of_forall_ne, h.heights.writeBatch_vacated, hrow]
      · rw [h.heights.mem_vacated] at hn
        simpa [Option.filter] using fun hd => hn ⟨h', hd, hrow⟩
      · intro op hop heq
        obtain ⟨m, hm, hop⟩ := List.mem_filterMap.mp hop
        obtain ⟨e, -, rfl⟩ := Option.map_eq_some_iff.mp hop
        exact hn ((show m = b.height from heq) ▸ hm)

theorem purge_latest (hheaders : KvStore.ListedBy s.getHeader headers) (hne : doomed ≠ []) :
    IsLatest (s.purgeBlocks headers doomed).2.blocks (s.purgeBlocks headers doomed).2.latestHeight := by
  have hsurvivor : ∀ e, e ∈ headers.filter (fun e => e.1 ∉ doomed) ↔ _ := fun _ =>
    mem_survivors hheaders
  rw [purgeBlocks, if_neg hne]
  obtain ⟨⟨-, hall⟩, hattained⟩ := foldl_max (headers.filter fun e => e.1 ∉ doomed) 0
  refine ⟨fun x b hb => hall (x, b.header) ((hsurvivor _).mpr ⟨b, hb, rfl⟩), hattained.imp id ?_⟩
  rintro ⟨e, he, heq⟩
  obtain ⟨b, hb, hheader⟩ := (hsurvivor e).mp he
  exact ⟨e.1, b, hb, by rw [Block.height, hheader, heq]⟩

end Survivors

/-- Of what a purge should leave, the blue-score rows and the child lists may be missing. It is all
there exactly when no purged block holds the row of a positive score that a surviving block has, and
every parent of a purged block that is to be purged too is stored. -/
theorem purge_blocks_exact {bs : List Block} {headers : List (Hash × BlockHeader)}
    (hr : Runs Puts empty bs s) (hheaders : KvStore.ListedBy s.getHeader headers)
    (doomed : List Hash) : Purged s (s.purgeBlocks headers doomed).2 doomed ↔
      (∀ x b, s.blocks x = some b → x ∉ doomed → 0 < b.header.blueScore →
        ∀ y, s.byBlueScore b.header.blueScore = some y → y ∉ doomed) ∧
      ∀ c ∈ doomed, ∀ b, s.blocks c = some b → ∀ p ∈ b.parents, p ∈ doomed → s.hasBlock p := by
  have h := Runs.sound hr
  by_cases hne : doomed = []
  · subst hne
    exact iff_of_true ⟨fun _ => by simp [purgeBlocks], h.heights, h.scores, by simp, h.latest⟩
      (by simp)
  obtain ⟨hblocks, hrows, hscoreRows⟩ := @purgeBlocks_rows s doomed headers hne
  simp only [h.scores.writeBatch_vacated] at hscoreRows
  constructor
  · rintro ⟨-, -, hscores, hchildren, -⟩
    refine ⟨fun x b hb hx hpos y hrow hy => ?_, fun c hc b hb p hp hdoomed => ?_⟩
    · obtain ⟨y', hrow'⟩ := hscores.covers x b (by rw [hblocks, if_neg hx, hb]) hpos
      simp [hscoreRows, hrow, Option.filter, hy] at hrow'
    · by_contra hstored
      refine hchildren p c ?_ hc
      rw [getChildren, hrows, childOps_row h.children, if_pos hdoomed, if_neg hstored]
      exact (h.children p c).mpr ⟨b, hb, hp⟩
  · rintro ⟨hscores, hstored⟩
    refine ⟨hblocks, h.purge_heights hheaders hne, ⟨fun n x hrow => ?_, fun x b hb hpos => ?_⟩,
      fun p c hc hdoomed => ?_, purge_latest hheaders hne⟩
    · rw [hscoreRows, Option.filter_eq_some_iff] at hrow
      obtain ⟨b, hb, hscore⟩ := h.scores.names n x hrow.1
      exact ⟨b, by simpa [hblocks, hb] using hrow.2, hscore⟩
    · have hb' : x ∉ doomed ∧ s.blocks x = some b := by simpa [hblocks] using hb
      obtain ⟨y, hrow⟩ := h.scores.covers x b hb'.2 hpos
      refine ⟨y, ?_⟩
      rw [hscoreRows, hrow]
      simpa [Option.filter] using hscores x b hb'.2 hb'.1 hpos y hrow
    · rw [getChildren, hrows, childOps_row h.children] at hc
      split_ifs at hc with hp hhas
      · cases hc
      · obtain ⟨b, hb, hparent⟩ := (h.children p c).mp hc
        exact hhas (hstored c hdoomed b hb p hparent hp)
      · cases hl : s.children p <;> simp [hl, hdoomed] at hc

def purgeGenesis : Block := ⟨{ blockHash := 1 }, 0, []⟩
def siblingOf (hash : Hash) (score : UInt64) : Block :=
  ⟨{ blockHash := hash, selectedParentHash := 1, height := 1, blueScore := score }, 0, []⟩

def siblings (score : UInt64) : BlockRows :=
  ((empty.putBlock purgeGenesis).putBlock (siblingOf 2 1)).putBlock (siblingOf 3 score)

theorem siblings_run (score : UInt64) :
    Runs Puts empty [purgeGenesis, siblingOf 2 1, siblingOf 3 score] (siblings score) :=
  .head ⟨nofun, rfl⟩ (.head ⟨nofun, rfl⟩ (.head ⟨nofun, rfl⟩ .refl))

theorem siblings_blocks (score : UInt64) (x : Hash) : (siblings score).blocks x =
    if x = 3 then some (siblingOf 3 score) else if x = 2 then some (siblingOf 2 1)
    else if x = 1 then some purgeGenesis else none := by
  simp only [siblings, putBlock, BlockStore.putBlock, write_put]
  rfl

def siblingHeaders (score : UInt64) : List (Hash × BlockHeader) :=
  [(1, purgeGenesis.header), (2, (siblingOf 2 1).header), (3, (siblingOf 3 score).header)]

theorem purge_blocks_exact_sibling :
    Purged (siblings 2) ((siblings 2).purgeBlocks (siblingHeaders 2) [3]).2 [3] := by
  refine (purge_blocks_exact (siblings_run 2) ?_ [3]).mpr ⟨?_, ?_⟩
  · intro x header
    rw [getHeader, siblings_blocks]
    split_ifs <;> simp_all [siblingHeaders, eq_comm]
  · intro x b hb hx hpos y hrow
    rw [siblings_blocks] at hb
    split_ifs at hb with h3 h2 h1
    · exact absurd h3 (by simpa using hx)
    · cases hb
      cases (by decide : (siblings 2).byBlueScore 1 = some 2).symm.trans hrow
      decide
    · cases hb
      exact absurd hpos (by decide)
  · intro c hc b hb p hp hdoomed
    obtain rfl := List.mem_singleton.mp hc
    cases (siblings_blocks 2 3).symm.trans hb
    obtain rfl := List.mem_singleton.mp hp
    exact absurd hdoomed (by decide)

theorem purge_drops_shared_score :
    Runs Puts empty [purgeGenesis, siblingOf 2 1, siblingOf 3 1] (siblings 1) ∧
    ∀ s', s' = ((siblings 1).purgeBlocks (siblingHeaders 1) [3]).2 →
      s'.getBlock 2 = some (siblingOf 2 1) ∧ s'.byBlueScore 1 = none := by
  refine ⟨siblings_run 1, ?_⟩
  rintro _ rfl
  exact ⟨by decide, by decide⟩

end BlockRows

end CitrateChain.Storage
