import Mathlib.Data.List.OfFn
import CitrateChain.Execution.StateDb

/-! # What a state root commits to

From the storage-root hardening height on, the root is a hash of hashes of insert-only trees. The
encoding of such a tree determines it, so that equal roots mean equal accounts, and equal slots for
every account with its storage trie. Slots of an address without an account are in no root. -/
namespace CitrateChain.Execution
open Bytes Trie TreeMap
open Std (ExtTreeMap)
open Consensus (Hash)

namespace TrieNode
variable {n m : TrieNode}

def BranchValued : TrieNode → Prop
  | .empty => True
  | .leaf _ _ => True
  | .branch children value => value ≠ some [] ∧ ∀ i, (children i).BranchValued
  | .extension _ node => node.BranchValued

theorem branchValued_of_filled (hn : n.InsertShaped) (h : ∀ path, n.getNode path ≠ some []) :
    n.BranchValued := by
  induction n with
  | empty | leaf key value => trivial
  | branch children value ih => exact ⟨h [], fun i => ih i (hn.1 i) fun rest => h (i :: rest)⟩
  | extension path node => exact hn.elim

theorem branchValued_of_length (hn : n.InsertShaped) {len : ℕ}
    (h : ∀ path, n.getNode path ≠ none → path.length = len) : n.BranchValued := by
  induction n generalizing len with
  | empty | leaf key value => trivial
  | branch children value ih =>
    obtain ⟨hc, a, b, hab, ha, hb⟩ := hn
    constructor
    · intro hv
      have hlen : len = 0 := (h [] (by simp [hv])).symm
      have ha' : a = [] := List.length_eq_zero_iff.mp ((h a ha).trans hlen)
      have hb' : b = [] := List.length_eq_zero_iff.mp ((h b hb).trans hlen)
      exact hab (ha'.trans hb'.symm)
    · intro i
      have hbelow : ∀ rest, (children i).getNode rest ≠ none → rest.length = len - 1 := by
        intro rest hrest
        have := h (i :: rest) hrest
        rw [List.length_cons] at this
        omega
      exact ih i (hc i) hbelow
  | extension path node => exact hn.elim

theorem nibbles_inj {k k' : List Nibble}
    (h : (k.map fun i => UInt8.ofNat i.val) = k'.map fun i => UInt8.ofNat i.val) : k = k' := by
  refine List.map_injective_iff.mpr (fun i j hij => ?_) h
  have hval := congrArg UInt8.toNat hij
  simp only [UInt8.toNat_ofNat'] at hval
  exact Fin.ext (by omega)

theorem encodeList_ne_nil (items : List Bytes) : Rlp.encodeList items ≠ [] :=
  fun h => Rlp.header_ne_nil _ _ (List.append_eq_nil_iff.mp h).1

theorem encodeNode_inj (hn : n.InsertShaped) (hm : m.InsertShaped) (hnv : n.BranchValued)
    (hmv : m.BranchValued) (hlen : n.encodeNode.length < 2 ^ 64)
    (h : n.encodeNode = m.encodeNode) : n = m := by
  induction n generalizing m with
  | empty =>
    cases m with
    | empty => rfl
    | leaf | branch => exact absurd h.symm (encodeList_ne_nil _)
    | extension => exact hm.elim
  | leaf key value =>
    cases m with
    | empty => exact absurd h (encodeList_ne_nil _)
    | leaf key' value' =>
      obtain ⟨hkey, hvalue⟩ := List.cons.inj (Rlp.encodeList_inj hlen h)
      rw [nibbles_inj hkey, (List.cons.inj hvalue).1]
    | branch children value' =>
      -- two items against seventeen
      have hitems := congrArg List.length (Rlp.encodeList_inj hlen h)
      simp at hitems
    | extension => exact hm.elim
  | branch children value ih =>
    cases m with
    | empty => exact absurd h (encodeList_ne_nil _)
    | leaf key' value' =>
      have hitems := congrArg List.length (Rlp.encodeList_inj hlen h)
      simp at hitems
    | branch children' value' =>
      obtain ⟨hitems, hvalue⟩ := List.append_inj' (Rlp.encodeList_inj hlen h) rfl
      have hchildren : children = children' := by
        funext i
        have hmem : (children i).encodeNode ∈ List.ofFn (fun i => (children i).encodeNode) ++
            [value.getD []] := List.mem_append_left _ (List.mem_ofFn.mpr ⟨i, rfl⟩)
        exact ih i (hn.1 i) (hm.1 i) (hnv.2 i) (hmv.2 i)
          ((Rlp.length_le_encodeList hmem).trans_lt hlen) (congrFun (List.ofFn_injective hitems) i)
      have hval : value = value' := by
        have hv := hnv.1
        have hv' := hmv.1
        cases value <;> cases value' <;> simp_all
      rw [hchildren, hval]
    | extension => exact hm.elim
  | extension => exact hn.elim

end TrieNode

namespace Trie
variable {t t' : Trie}

theorem entriesMap_eq_of_root (h : t.root = t'.root) : t.entriesMap = t'.entriesMap := by
  apply ExtTreeMap.ext_getElem?
  intro key
  exact (t.agrees key).symm.trans ((congrArg (TrieNode.getNode · _) h).trans (t'.agrees key))

def canonicalEncoding (t : Trie) : Bytes := t.rebuild.root.encodeNode

def Filled (t : Trie) : Prop := ∀ key : Bytes, t.entriesMap[key]? ≠ some []

theorem branchValued_rebuild (h : t.Filled) : t.rebuild.root.BranchValued := by
  refine TrieNode.branchValued_of_filled (t.rebuild.shaped t.removed_rebuild) fun path hp => ?_
  obtain ⟨key, rfl⟩ := t.rebuild.bytewise path (by simp [hp])
  have hkey : t.rebuild.entriesMap[key]? = some [] := (t.rebuild.agrees key).symm.trans hp
  exact h key (t.entriesMap_rebuild ▸ hkey)

theorem entriesMap_eq_of_encoding (ht : t.Filled) (ht' : t'.Filled)
    (hlen : t.canonicalEncoding.length < 2 ^ 64)
    (h : t.canonicalEncoding = t'.canonicalEncoding) : t.entriesMap = t'.entriesMap := by
  have hroot := TrieNode.encodeNode_inj (t.rebuild.shaped t.removed_rebuild)
    (t'.rebuild.shaped t'.removed_rebuild) (branchValued_rebuild ht) (branchValued_rebuild ht') hlen h
  rw [← t.entriesMap_rebuild, ← t'.entriesMap_rebuild]
  exact entriesMap_eq_of_root hroot

/-- Without empty values, and as far as the hash tells the two encodings apart, two histories have one root
just if they leave the same map. -/
theorem rootHash_binds_map {keccak : Bytes → Hash} {ops ops' : List TrieOp} (hf : (run ops).Filled)
    (hf' : (run ops').Filled)
    (hinj : Set.InjOn keccak {(run ops).canonicalEncoding, (run ops').canonicalEncoding})
    (hlen : (run ops).canonicalEncoding.length < 2 ^ 64) :
    (run ops).rootHash keccak = (run ops').rootHash keccak ↔ mapOf ops = mapOf ops' := by
  rw [← entriesMap_run, ← entriesMap_run]
  refine ⟨fun h => ?_, rootHash_congr⟩
  rw [rootHash_eq, rootHash_eq] at h
  exact entriesMap_eq_of_encoding hf hf' hlen (hinj (.inl rfl) (.inr rfl) h)

theorem rootHash_binds_map_one : (run [.insert [1] [9]]).rootHash (fun p => BitVec.ofNat 256 p.length) ≠
    (run []).rootHash fun p => BitVec.ofNat 256 p.length := by
  have hf : (run [.insert [1] [9]]).Filled := by
    intro key
    simp [entriesMap_run, mapOf, TrieOp.onMap, ExtTreeMap.getElem?_insert]
  refine (rootHash_binds_map hf (by simp [Filled, entriesMap_run, mapOf]) ?_ (by decide)).not.mpr
    (by decide)
  rw [Set.injOn_pair]
  exact fun h => absurd h (by decide)

end Trie

def AccountState.contents (account : AccountState) : UInt64 × BitVec 256 × Hash × List ModelId :=
  (account.nonce, account.balance, account.codeHash, account.modelPermissions)

namespace World
variable {w w' : World} {r : RootRules} {a : Address}

def nonEmptyAccount (w : World) (a : Address) : Option AccountState :=
  w.accounts[a]?.filter fun account => !account.isEmpty

def accountTrie (r : RootRules) (w : World) : Trie :=
  w.accounts.toList.foldl (fun t e =>
    if e.2.isEmpty then t else t.insert (toBe 20 e.1.toNat) (r.encodeAccount e.2)) new

theorem accountsRoot_eq (r : RootRules) (w : World) :
    w.accountsRoot r = r.keccak (w.accountTrie r).root.encodeNode := rfl

def accountEntries (r : RootRules) (w : World) : List (Bytes × Bytes) :=
  (w.accounts.toList.filter fun e => !e.2.isEmpty).map fun e =>
    (toBe 20 e.1.toNat, r.encodeAccount e.2)

theorem accountTrie_eq (r : RootRules) (w : World) :
    w.accountTrie r = (w.accountEntries r).foldl (fun t e => t.insert e.1 e.2) new := by
  rw [accountEntries, List.foldl_map, List.foldl_filter]
  unfold accountTrie
  congr 1
  funext t e
  by_cases h : e.2.isEmpty
  · simp [h]
  · simp [h]

theorem mem_accountEntries {key value : Bytes} : (key, value) ∈ w.accountEntries r ↔
    ∃ a account, w.nonEmptyAccount a = some account ∧ toBe 20 a.toNat = key ∧
      r.encodeAccount account = value := by
  simp only [accountEntries, List.mem_map, List.mem_filter, Prod.exists, Prod.mk.injEq,
    ExtTreeMap.mem_toList_iff_getElem?_eq_some, nonEmptyAccount, Option.filter_eq_some_iff, and_assoc]

theorem addressBytes_inj {a b : Address} (h : toBe 20 a.toNat = toBe 20 b.toNat) : a = b :=
  BitVec.eq_of_toNat_eq (toBe_inj (toNat_lt 20 a) (toNat_lt 20 b) h)

theorem accountEntries_nodup (r : RootRules) (w : World) :
    ((w.accountEntries r).map Prod.fst).Nodup := by
  have hkeys : (w.accounts.toList.map Prod.fst).Nodup := by
    rw [ExtTreeMap.map_fst_toList_eq_keys]
    exact ExtTreeMap.nodup_keys
  have hmap : (w.accountEntries r).map Prod.fst =
      ((w.accounts.toList.filter fun e => !e.2.isEmpty).map Prod.fst).map
        fun a => toBe 20 a.toNat := by
    simp [accountEntries]
  rw [hmap]
  exact (hkeys.sublist (List.filter_sublist.map Prod.fst)).map fun _ _ => addressBytes_inj

theorem accountTrie_removed (r : RootRules) (w : World) : (w.accountTrie r).removed = false := by
  rw [accountTrie_eq, (foldl_insert _ _).2]
  rfl

theorem accountTrie_entries {key value : Bytes} : (w.accountTrie r).entriesMap[key]? = some value ↔
      ∃ a account, w.nonEmptyAccount a = some account ∧ toBe 20 a.toNat = key ∧
        r.encodeAccount account = value := by
  rw [accountTrie_eq, (foldl_insert _ _).1, entriesMap_new,
    getElem?_foldl_insert_nodup (w.accountEntries_nodup r), mem_accountEntries]

theorem accountTrie_branchValued (r : RootRules) (w : World) :
    (w.accountTrie r).root.BranchValued := by
  have hlen : ∀ path, (w.accountTrie r).root.getNode path ≠ none → path.length = 40 := by
    intro path hp
    obtain ⟨key, rfl⟩ := (w.accountTrie r).bytewise path hp
    rw [(w.accountTrie r).agrees] at hp
    obtain ⟨value, hvalue⟩ := Option.ne_none_iff_exists'.mp hp
    obtain ⟨a, -, -, rfl, -⟩ := accountTrie_entries.mp hvalue
    simp [toNibbles, toBe_length]
  exact TrieNode.branchValued_of_length ((w.accountTrie r).shaped (w.accountTrie_removed r)) hlen

theorem nonEmptyAccount_eq (henc : Function.Injective r.encodeAccount)
    (hlen : (w.accountTrie r).root.encodeNode.length < 2 ^ 64)
    (h : (w.accountTrie r).root.encodeNode = (w'.accountTrie r).root.encodeNode) (a : Address) :
    w.nonEmptyAccount a = w'.nonEmptyAccount a := by
  have hroot := TrieNode.encodeNode_inj ((w.accountTrie r).shaped (w.accountTrie_removed r))
    ((w'.accountTrie r).shaped (w'.accountTrie_removed r)) (w.accountTrie_branchValued r)
    (w'.accountTrie_branchValued r) hlen h
  have hmap := entriesMap_eq_of_root hroot
  have hsub : ∀ {v v' : World}, (v.accountTrie r).entriesMap = (v'.accountTrie r).entriesMap →
      ∀ account, v.nonEmptyAccount a = some account → v'.nonEmptyAccount a = some account := by
    intro v v' hvv account hacc
    have hentry : (v.accountTrie r).entriesMap[toBe 20 a.toNat]? =
        some (r.encodeAccount account) := accountTrie_entries.mpr ⟨a, account, hacc, rfl, rfl⟩
    rw [hvv] at hentry
    obtain ⟨b, account', hacc', hkey, hvalue⟩ := accountTrie_entries.mp hentry
    obtain rfl : b = a := addressBytes_inj hkey
    obtain rfl : account' = account := henc hvalue
    exact hacc'
  apply Option.ext
  intro account
  exact ⟨hsub hmap account, hsub hmap.symm account⟩

def NoOrphans (w : World) : Prop := ∀ a key, w.getStorage a key ≠ none → a ∈ w.accounts

/-- An account without a resident trie records no storage root, or that of no slots. -/
def Hydrated (keccak : Bytes → Hash) (w : World) : Prop :=
  ∀ a account, w.accounts[a]? = some account → a ∉ w.storageTries →
    account.storageRoot = 0 ∨ account.storageRoot = keccak []

def Filled (w : World) : Prop := ∀ a key, w.getStorage a key ≠ some []

def hashed (r : RootRules) (w : World) : Set Bytes :=
  {p | p = [] ∨ p = ((w.fold r).accountTrie r).root.encodeNode ∨
    ∃ (a : Address) (t : Trie), w.storageTries[a]? = some t ∧ p = t.canonicalEncoding}

variable {t : Trie}

theorem filled_trie (h : w.Filled) (ht : w.storageTries[a]? = some t) : t.Filled := by
  intro key hkey
  refine h a key ?_
  rw [getStorage, ht, Option.bind_some, get_eq, hkey]

theorem getStorage_eq_of_trie (ht : w.storageTries[a]? = some t) (key : Bytes) :
    w.getStorage a key = t.entriesMap[key]? := by
  rw [getStorage, ht, Option.bind_some, get_eq]

theorem getStorage_eq_none (ht : w.storageTries[a]? = none) (key : Bytes) :
    w.getStorage a key = none := by
  rw [getStorage, ht, Option.bind_none]

theorem folded_storageRoot (hactive : r.activeAt w.rootHeight = true)
    (ht : w.storageTries[a]? = some t) (account : AccountState) :
    (w.folded r a account).storageRoot = r.keccak t.canonicalEncoding := by
  simp only [folded, ht, hactive, storageRootOf, if_true, rootHash_eq]
  rfl

theorem nonEmptyAccount_fold {account : AccountState}
    (h : (w.fold r).nonEmptyAccount a = some account) :
    ∃ stored, w.accounts[a]? = some stored ∧ account = w.folded r a stored := by
  obtain ⟨hmem, -⟩ := Option.filter_eq_some_iff.mp h
  rw [fold_accounts, Option.map_eq_some_iff] at hmem
  obtain ⟨stored, hstored, rfl⟩ := hmem
  exact ⟨stored, hstored, rfl⟩

end World

/-- What is asked of a hash: it tells the given byte strings apart, none of them hashes to zero, which
stands for no storage, and they fit in memory. -/
structure Distinguishes (keccak : Bytes → Hash) (s : Set Bytes) : Prop where
  inj : Set.InjOn keccak s
  ne_zero : ∀ p ∈ s, keccak p ≠ 0
  size : ∀ p ∈ s, p.length < 2 ^ 64

theorem Distinguishes.subset {keccak : Bytes → Hash} {s s' : Set Bytes} (h : Distinguishes keccak s)
    (hsub : s' ⊆ s) : Distinguishes keccak s' where
  inj := h.inj.mono hsub
  ne_zero p hp := h.ne_zero p (hsub hp)
  size p hp := h.size p (hsub hp)

namespace World
variable {w w' : World} {r : RootRules} {a : Address}

theorem nonEmptyAccount_of_slot (hmem : a ∈ w.accounts) (hactive : r.activeAt w.rootHeight = true)
    (hzero : ∀ p ∈ w.hashed r, r.keccak p ≠ 0) {key : Bytes} (hkey : w.getStorage a key ≠ none) :
    (w.fold r).nonEmptyAccount a ≠ none := by
  obtain ⟨stored, hstored⟩ := TreeMap.mem_iff_exists.mp hmem
  cases ht : w.storageTries[a]? with
  | none => exact absurd (getStorage_eq_none ht key) hkey
  | some t =>
    have hroot : (w.folded r a stored).storageRoot ≠ 0 := by
      rw [folded_storageRoot hactive ht]
      exact hzero _ (.inr (.inr ⟨a, t, ht, rfl⟩))
    have hne : (w.folded r a stored).isEmpty = false := by
      have hbeq : ((w.folded r a stored).storageRoot == 0) = false := beq_false_of_ne hroot
      simp only [AccountState.isEmpty, hbeq, Bool.and_false, Bool.false_and]
    rw [nonEmptyAccount, fold_accounts, hstored, Option.map_some, Option.filter_some]
    simp [hne]

variable {t : Trie}

theorem entriesMap_eq_empty (hs : Distinguishes r.keccak (w.hashed r))
    (ht : w.storageTries[a]? = some t) (hfilled : t.Filled)
    (h : r.keccak t.canonicalEncoding = 0 ∨ r.keccak t.canonicalEncoding = r.keccak []) :
    t.entriesMap = ∅ := by
  have hmem : t.canonicalEncoding ∈ w.hashed r := .inr (.inr ⟨a, t, ht, rfl⟩)
  rcases h with h | h
  · exact absurd h (hs.ne_zero _ hmem)
  · have henc : t.canonicalEncoding = new.canonicalEncoding := hs.inj hmem (.inl rfl) h
    exact entriesMap_eq_of_encoding hfilled (fun _ => by simp) (hs.size _ hmem) henc

section

variable (hw : r.activeAt w.rootHeight = true)
include hw

theorem getStorage_eq_of_absent {stored stored' : AccountState} (hfilled : w.Filled)
    (hhyd' : w'.Hydrated r.keccak) (hs : Distinguishes r.keccak (w.hashed r))
    (ht : w.storageTries[a]? = some t) (ht' : w'.storageTries[a]? = none)
    (hstored' : w'.accounts[a]? = some stored')
    (hroots : (w.folded r a stored).storageRoot = (w'.folded r a stored').storageRoot) (key : Bytes) :
    w.getStorage a key = w'.getStorage a key := by
  have hnot := TreeMap.not_mem_of_getElem? ht'
  rw [folded_storageRoot hw ht, folded_of_not_mem hnot] at hroots
  have hempty := entriesMap_eq_empty hs ht (filled_trie hfilled ht)
    (hroots ▸ hhyd' a stored' hstored' hnot)
  rw [getStorage_eq_of_trie ht, getStorage_eq_none ht', hempty, ExtTreeMap.getElem?_empty]

theorem getStorage_eq_of_accounts (hw' : r.activeAt w'.rootHeight = true)
    (hhyd : w.Hydrated r.keccak) (hhyd' : w'.Hydrated r.keccak) (hfilled : w.Filled)
    (hfilled' : w'.Filled) (hs : Distinguishes r.keccak (w.hashed r ∪ w'.hashed r))
    {account : AccountState} (h : (w.fold r).nonEmptyAccount a = some account)
    (h' : (w'.fold r).nonEmptyAccount a = some account) (key : Bytes) :
    w.getStorage a key = w'.getStorage a key := by
  obtain ⟨stored, hstored, rfl⟩ := nonEmptyAccount_fold h
  obtain ⟨stored', hstored', heq⟩ := nonEmptyAccount_fold h'
  have hroots := congrArg AccountState.storageRoot heq
  have hs₁ : Distinguishes r.keccak (w.hashed r) := hs.subset Set.subset_union_left
  have hs₂ : Distinguishes r.keccak (w'.hashed r) := hs.subset Set.subset_union_right
  cases ht : w.storageTries[a]? with
  | none =>
    cases ht' : w'.storageTries[a]? with
    | none => rw [getStorage_eq_none ht, getStorage_eq_none ht']
    | some t' =>
      exact (getStorage_eq_of_absent hw' hfilled' hhyd hs₂ ht' ht hstored hroots.symm key).symm
  | some t =>
    cases ht' : w'.storageTries[a]? with
    | none => exact getStorage_eq_of_absent hw hfilled hhyd' hs₁ ht ht' hstored' hroots key
    | some t' =>
      rw [folded_storageRoot hw ht, folded_storageRoot hw' ht'] at hroots
      have hmem : t.canonicalEncoding ∈ w.hashed r ∪ w'.hashed r := .inl (.inr (.inr ⟨a, t, ht, rfl⟩))
      have hmem' : t'.canonicalEncoding ∈ w.hashed r ∪ w'.hashed r :=
        .inr (.inr (.inr ⟨a, t', ht', rfl⟩))
      rw [getStorage_eq_of_trie ht, getStorage_eq_of_trie ht',
        entriesMap_eq_of_encoding (filled_trie hfilled ht) (filled_trie hfilled' ht')
          (hs.size _ hmem) (hs.inj hmem hmem' hroots)]

theorem eq_of_stateRoot (hw' : r.activeAt w'.rootHeight = true)
    (henc : Function.Injective r.encodeAccount) (hhyd : w.Hydrated r.keccak)
    (hhyd' : w'.Hydrated r.keccak) (horph : w.NoOrphans) (horph' : w'.NoOrphans)
    (hfilled : w.Filled) (hfilled' : w'.Filled)
    (hs : Distinguishes r.keccak (w.hashed r ∪ w'.hashed r)) (h : w.stateRoot r = w'.stateRoot r) :
    (∀ a, (w.fold r).nonEmptyAccount a = (w'.fold r).nonEmptyAccount a) ∧
      ∀ a key, w.getStorage a key = w'.getStorage a key := by
  have hmem : ((w.fold r).accountTrie r).root.encodeNode ∈ w.hashed r ∪ w'.hashed r :=
    .inl (.inr (.inl rfl))
  have hmem' : ((w'.fold r).accountTrie r).root.encodeNode ∈ w.hashed r ∪ w'.hashed r :=
    .inr (.inr (.inl rfl))
  have hacc := nonEmptyAccount_eq henc (hs.size _ hmem) (hs.inj hmem hmem' h)
  refine ⟨hacc, fun a key => ?_⟩
  cases hv : (w.fold r).nonEmptyAccount a with
  | some account =>
    exact getStorage_eq_of_accounts hw hw' hhyd hhyd' hfilled hfilled' hs hv ((hacc a).symm.trans hv) key
  | none =>
    have hnone : w.getStorage a key = none := by
      by_contra hkey
      exact nonEmptyAccount_of_slot (horph a key hkey) hw (fun p hp => hs.ne_zero p (.inl hp)) hkey hv
    have hnone' : w'.getStorage a key = none := by
      by_contra hkey
      exact nonEmptyAccount_of_slot (horph' a key hkey) hw' (fun p hp => hs.ne_zero p (.inr hp)) hkey
        ((hacc a).symm.trans hv)
    rw [hnone, hnone']

end

def committedPart (r : RootRules) (w : World) : World :=
  { w with
    accounts := (w.fold r).accounts.filter fun _ account => !account.isEmpty
    storageTries := w.storageTries.filter fun a _ => a ∈ w.accounts }

theorem committedPart_accounts (r : RootRules) (w : World) (a : Address) :
    (w.committedPart r).accounts[a]? = (w.fold r).nonEmptyAccount a := by
  apply Option.ext
  intro account
  rw [nonEmptyAccount, Option.filter_eq_some_iff]
  exact getElem?_filter_eq_some

theorem committedPart_storageTries (hmem : a ∈ w.accounts) :
    (w.committedPart r).storageTries[a]? = w.storageTries[a]? := by
  apply Option.ext
  intro t
  simp only [committedPart, getElem?_filter_eq_some, hmem, decide_true, and_true]

theorem mem_accounts_of_committedPart (h : (w.committedPart r).storageTries[a]? = some t) :
    a ∈ w.accounts ∧ w.storageTries[a]? = some t := by
  obtain ⟨ht, hmem⟩ := getElem?_filter_eq_some.mp h
  exact ⟨of_decide_eq_true hmem, ht⟩

theorem committedPart_getStorage {key value : Bytes}
    (h : (w.committedPart r).getStorage a key = some value) :
    a ∈ w.accounts ∧ w.getStorage a key = some value := by
  obtain ⟨t, ht, hkey⟩ := Option.bind_eq_some_iff.mp h
  obtain ⟨hmem, ht⟩ := mem_accounts_of_committedPart ht
  exact ⟨hmem, Option.bind_eq_some_iff.mpr ⟨t, ht, hkey⟩⟩

theorem nonEmptyAccount_committedPart (r : RootRules) (w : World) (a : Address) :
    ((w.committedPart r).fold r).nonEmptyAccount a = (w.fold r).nonEmptyAccount a := by
  rw [nonEmptyAccount, fold_accounts, committedPart_accounts]
  cases hv : (w.fold r).nonEmptyAccount a with
  | none => rfl
  | some account =>
    obtain ⟨stored, hstored, rfl⟩ := nonEmptyAccount_fold hv
    have hmem := TreeMap.mem_of_getElem? hstored
    have hfold : (w.committedPart r).folded r a (w.folded r a stored) = w.folded r a stored := by
      have hsame : (w.committedPart r).folded r a = w.folded r a := by
        funext account
        unfold folded
        rw [committedPart_storageTries hmem]
        rfl
      rw [hsame, folded_folded]
    obtain ⟨-, hne⟩ := Option.filter_eq_some_iff.mp hv
    rw [Option.map_some, hfold, Option.filter_some, if_pos hne]

theorem accountTrie_root_eq (h : ∀ a, w.nonEmptyAccount a = w'.nonEmptyAccount a) :
    (w.accountTrie r).root = (w'.accountTrie r).root := by
  apply root_eq (w.accountTrie_removed r) (w'.accountTrie_removed r)
  apply ExtTreeMap.ext_getElem?
  intro key
  apply Option.ext
  intro value
  rw [accountTrie_entries, accountTrie_entries]
  simp only [h]

theorem stateRoot_committedPart (r : RootRules) (w : World) :
    (w.committedPart r).stateRoot r = w.stateRoot r := by
  rw [stateRoot, stateRoot, accountsRoot_eq, accountsRoot_eq,
    accountTrie_root_eq (w.nonEmptyAccount_committedPart r)]

theorem hashed_committedPart (r : RootRules) (w : World) :
    (w.committedPart r).hashed r ⊆ w.hashed r := by
  rintro p (rfl | rfl | ⟨a, t, ht, rfl⟩)
  · exact .inl rfl
  · rw [accountTrie_root_eq (w.nonEmptyAccount_committedPart r)]
    exact .inr (.inl rfl)
  · exact .inr (.inr ⟨a, t, (mem_accounts_of_committedPart ht).2, rfl⟩)

theorem Filled.committedPart (h : w.Filled) : (w.committedPart r).Filled :=
  fun a key hkey => h a key (committedPart_getStorage hkey).2

theorem Hydrated.committedPart (h : w.Hydrated r.keccak) :
    (w.committedPart r).Hydrated r.keccak := by
  intro a account hacc hnot
  rw [committedPart_accounts] at hacc
  obtain ⟨stored, hstored, rfl⟩ := nonEmptyAccount_fold hacc
  have hmem := TreeMap.mem_of_getElem? hstored
  have hnot' : a ∉ w.storageTries := by
    rwa [ExtTreeMap.mem_iff_isSome_getElem?, committedPart_storageTries hmem,
      ← ExtTreeMap.mem_iff_isSome_getElem?] at hnot
  rw [folded_of_not_mem hnot']
  exact h a stored hstored hnot'

theorem noOrphans_committedPart (hactive : r.activeAt w.rootHeight = true)
    (hzero : ∀ p ∈ w.hashed r, r.keccak p ≠ 0) : (w.committedPart r).NoOrphans := by
  intro a key hkey
  obtain ⟨value, hvalue⟩ := Option.ne_none_iff_exists'.mp hkey
  obtain ⟨hmem, hslot⟩ := committedPart_getStorage hvalue
  have hv := nonEmptyAccount_of_slot hmem hactive hzero (by simp [hslot] : w.getStorage a key ≠ none)
  rw [ExtTreeMap.mem_iff_isSome_getElem?, committedPart_accounts]
  exact Option.isSome_iff_ne_none.mpr hv

end World

namespace StateDb
variable {db db' : StateDb} {r : RootRules} {keccak : Bytes → Hash} {height : UInt64}

def calculateStateRootWith (r : RootRules) (db : StateDb) (height : UInt64) : Hash × StateDb :=
  let result := (db.setRootHeight height).calculateStateRoot r
  (result.1, { result.2 with rootHeight := db.rootHeight })

def hashedAt (r : RootRules) (db : StateDb) (height : UInt64) : Set Bytes :=
  (db.setRootHeight height).toWorld.hashed r

/-- The same accounts that are not empty once their storage roots are current, and the same slots. -/
structure SameState (r : RootRules) (height : UInt64) (db db' : StateDb) : Prop where
  accounts : ∀ a, ((db.calculateStateRootWith r height).2.nonEmptyAccount a).map AccountState.contents =
    ((db'.calculateStateRootWith r height).2.nonEmptyAccount a).map AccountState.contents
  slots : ∀ a key, db.getStorage a key = db'.getStorage a key

/-- Among the databases with every storage trie resident, those whose slots all belong to accounts are
the ones whose state is determined by the root. -/
theorem state_commitment (hactive : r.activeAt height = true)
    (henc : Function.Injective r.encodeAccount) (hhyd : db.Hydrated r.keccak) (hfilled : db.Filled)
    (hs : Distinguishes r.keccak (db.hashedAt r height)) :
    db.NoOrphans ↔ ∀ db' : StateDb, db'.Hydrated r.keccak → db'.Filled → db'.NoOrphans →
      Distinguishes r.keccak (db.hashedAt r height ∪ db'.hashedAt r height) →
      (db.calculateStateRootWith r height).1 = (db'.calculateStateRootWith r height).1 →
      SameState r height db db' := by
  constructor
  · intro horph db' hhyd' hfilled' horph' hs' hroot
    obtain ⟨hacc, hslots⟩ := @World.eq_of_stateRoot (db.setRootHeight height).toWorld
      (db'.setRootHeight height).toWorld r hactive hactive henc hhyd hhyd' horph horph' hfilled
      hfilled' hs' hroot
    exact ⟨fun a => congrArg _ (hacc a), hslots⟩
  intro h
  -- what is in the root of the database makes a database with the same root
  let w := (db.setRootHeight height).toWorld
  let part : StateDb := { db with toWorld := w.committedPart r }
  have hsub : part.hashedAt r height ⊆ db.hashedAt r height := World.hashed_committedPart r w
  have hs' : Distinguishes r.keccak (db.hashedAt r height ∪ part.hashedAt r height) := by
    rwa [Set.union_eq_self_of_subset_right hsub]
  have hhyd' : part.Hydrated r.keccak := World.Hydrated.committedPart (w := w) hhyd
  have hfilled' : part.Filled := World.Filled.committedPart (w := w) hfilled
  have horph' : part.NoOrphans := World.noOrphans_committedPart (w := w) hactive hs.ne_zero
  have hsame := h part hhyd' hfilled' horph' hs' (World.stateRoot_committedPart r w).symm
  intro a key hkey
  rw [hsame.slots] at hkey
  obtain ⟨value, hvalue⟩ := Option.ne_none_iff_exists'.mp hkey
  exact (World.committedPart_getStorage (w := w) hvalue).1

/-- A hash that keeps the last 32 bytes, and an account encoding of fixed-width fields. -/
def tailRules : RootRules where
  keccak bs := BitVec.ofNat 256 (ofBe (1 :: bs))
  encodeAccount account := toLe 8 account.nonce.toNat ++ (toBe 32 account.codeHash.toNat ++
    (toBe 32 account.storageRoot.toNat ++ (toBe 32 account.balance.toNat ++
      account.modelPermissions.flatMap fun id => toBe 32 id.toNat)))
  activation := some 0

def artifactPrecompileAddress : Address := 0x1002

def fundedDb : StateDb := { accounts := (∅ : ExtTreeMap Address AccountState).insert 7 { balance := 5 } }

def artifactDb : StateDb := fundedDb.apply tailRules.keccak (.setStorage artifactPrecompileAddress [1] [2])

def slotDb : StateDb := fundedDb.apply tailRules.keccak (.setStorage 7 [1] [2])

def unhydratedDb : StateDb :=
  { fundedDb with accounts := (slotDb.calculateStateRootWith tailRules 1).2.accounts }

theorem root_misses_slots : tailRules.activeAt 1 = true ∧
    (artifactDb.calculateStateRootWith tailRules 1).1 = (fundedDb.calculateStateRootWith tailRules 1).1 ∧
    artifactDb.getStorage artifactPrecompileAddress [1] = some [2] ∧
    fundedDb.getStorage artifactPrecompileAddress [1] = none ∧
    (slotDb.calculateStateRootWith tailRules 1).1 = (unhydratedDb.calculateStateRootWith tailRules 1).1 ∧
    slotDb.getStorage 7 [1] = some [2] ∧ unhydratedDb.getStorage 7 [1] = none := by
  decide +kernel

theorem encodeAccount_tailRules_inj : Function.Injective tailRules.encodeAccount := by
  have hword : Unambiguous (fun _ : BitVec 256 => True) fun x => toBe 32 x.toNat :=
    .bitVecBe 32 (by decide)
  intro account account' h
  obtain ⟨hnonce, h⟩ := Unambiguous.u64.read h
  obtain ⟨hcode, h⟩ := hword.read h
  obtain ⟨hroot, h⟩ := hword.read h
  obtain ⟨hbalance, h⟩ := hword.read h
  have hperms := hword.flatMap_inj (fun x hx => by simpa [toBe_length] using congrArg List.length hx)
    (fun _ _ => trivial) (fun _ _ => trivial) h
  cases account
  cases account'
  simp_all

def besideEmptyDb : StateDb := { slotDb with accounts := slotDb.accounts.insert 9 {} }

def slotEncodings : List Bytes :=
  [[], (((slotDb.setRootHeight 1).toWorld.fold tailRules).accountTrie tailRules).root.encodeNode,
    (new.insert [1] [2]).canonicalEncoding]

theorem slotDb_storageTries {a : Address} {t : Trie} (h : slotDb.storageTries[a]? = some t) :
    a = 7 ∧ t = new.insert [1] [2] := by
  rcases getElem?_insert_eq_some.mp h with ⟨rfl, rfl⟩ | ⟨-, hnone⟩
  · exact ⟨rfl, rfl⟩
  · simp [fundedDb] at hnone

theorem mem_slotEncodings {p : Bytes}
    (h : p ∈ slotDb.hashedAt tailRules 1 ∪ besideEmptyDb.hashedAt tailRules 1) : p ∈ slotEncodings := by
  have htrie : (((besideEmptyDb.setRootHeight 1).toWorld.fold tailRules).accountTrie
      tailRules).root.encodeNode = (((slotDb.setRootHeight 1).toWorld.fold tailRules).accountTrie
      tailRules).root.encodeNode := by decide +kernel
  have hslot : ∀ (a : Address) (t : Trie), slotDb.storageTries[a]? = some t →
      t.canonicalEncoding ∈ slotEncodings := by
    intro a t ht
    obtain ⟨-, rfl⟩ := slotDb_storageTries ht
    simp [slotEncodings]
  rcases h with (hp | hp | ⟨a, t, ht, hp⟩) | (hp | hp | ⟨a, t, ht, hp⟩)
  · simp [slotEncodings, hp]
  · simp [slotEncodings, hp]
  · exact hp ▸ hslot a t ht
  · simp [slotEncodings, hp]
  · simp [slotEncodings, hp, htrie]
  · exact hp ▸ hslot a t ht

theorem distinguishes_slotEncodings : Distinguishes tailRules.keccak
    (slotDb.hashedAt tailRules 1 ∪ besideEmptyDb.hashedAt tailRules 1) where
  inj p hp q hq h := by
    have hall : (slotEncodings.all fun p => slotEncodings.all fun q =>
        decide (tailRules.keccak p = tailRules.keccak q → p = q)) = true := by decide +kernel
    have hp' := List.all_eq_true.mp hall p (mem_slotEncodings hp)
    exact of_decide_eq_true (List.all_eq_true.mp hp' q (mem_slotEncodings hq)) h
  ne_zero p hp := by
    have hall : (slotEncodings.all fun p => decide (tailRules.keccak p ≠ 0)) = true := by
      decide +kernel
    exact of_decide_eq_true (List.all_eq_true.mp hall p (mem_slotEncodings hp))
  size p hp := by
    have hall : (slotEncodings.all fun p => decide (p.length < 2 ^ 64)) = true := by decide +kernel
    exact of_decide_eq_true (List.all_eq_true.mp hall p (mem_slotEncodings hp))

theorem filled_slotDb : slotDb.Filled := by
  intro a key hkey
  obtain ⟨t, ht, hget⟩ := Option.bind_eq_some_iff.mp hkey
  obtain ⟨-, rfl⟩ := slotDb_storageTries ht
  rw [get_eq, entriesMap_insert, entriesMap_new] at hget
  rcases getElem?_insert_eq_some.mp hget with ⟨-, hvalue⟩ | ⟨-, hnone⟩
  · cases hvalue
  · simp at hnone

theorem mem_accounts_of_slot {a : Address} {key : Bytes} (h : slotDb.getStorage a key ≠ none) :
    a ∈ slotDb.accounts := by
  obtain ⟨value, hvalue⟩ := Option.ne_none_iff_exists'.mp h
  obtain ⟨t, ht, -⟩ := Option.bind_eq_some_iff.mp hvalue
  obtain ⟨rfl, -⟩ := slotDb_storageTries ht
  decide

theorem state_commitment_slot : slotDb.NoOrphans ∧ SameState tailRules 1 slotDb besideEmptyDb := by
  have hfunded : ∀ {a : Address} {account : AccountState}, slotDb.accounts[a]? = some account →
      account.storageRoot = 0 := by
    intro a account h
    rcases getElem?_insert_eq_some.mp h with ⟨-, rfl⟩ | ⟨-, hnone⟩
    · rfl
    · simp at hnone
  have hhyd : slotDb.Hydrated tailRules.keccak := fun _ _ hacc _ => .inl (hfunded hacc)
  have hhyd' : besideEmptyDb.Hydrated tailRules.keccak := by
    intro a account hacc _
    rcases getElem?_insert_eq_some.mp hacc with ⟨-, rfl⟩ | ⟨-, hacc⟩
    · exact .inl rfl
    · exact .inl (hfunded hacc)
  have horph : slotDb.NoOrphans := fun _ _ => mem_accounts_of_slot
  have horph' : besideEmptyDb.NoOrphans := fun a key h =>
    ExtTreeMap.mem_insert.mpr (.inr (mem_accounts_of_slot h))
  have hs : Distinguishes tailRules.keccak (slotDb.hashedAt tailRules 1) :=
    distinguishes_slotEncodings.subset Set.subset_union_left
  exact ⟨horph, (state_commitment (by decide) encodeAccount_tailRules_inj hhyd filled_slotDb hs).mp horph
    besideEmptyDb hhyd' filled_slotDb horph' distinguishes_slotEncodings (by decide +kernel)⟩

end StateDb

end CitrateChain.Execution
