import CitrateChain.Base.Rlp
import CitrateChain.Base.TreeMap
import CitrateChain.Consensus.Types

/-! # The storage trie

A key/value map kept twice: as a tree over the nibbles of its keys, which the root hash encodes,
and as a flat cache, which enumerates it. A tree built by inserts alone has one shape for each map;
a remove may leave another shape, so it is recorded and the root hash then rebuilds the tree. -/
namespace CitrateChain.Execution
open Std (ExtTreeMap)
open Consensus (Hash)

abbrev Nibble := Fin 16

inductive TrieNode
  | empty
  | leaf (key : List Nibble) (value : Bytes)
  | branch (children : Nibble → TrieNode) (value : Option Bytes)
  | extension (path : List Nibble) (node : TrieNode)

namespace TrieNode
variable {n : TrieNode} {k k' p q r s : List Nibble} {v v' : Bytes}

def isEmpty : TrieNode → Bool
  | .empty => true
  | _ => false

def defaultChildren : Nibble → TrieNode := fun _ => .empty

def getNode : TrieNode → List Nibble → Option Bytes
  | .empty, _ => none
  | .leaf key value, k => if key = k then some value else none
  | .branch _ value, [] => value
  | .branch children _, i :: rest => getNode (children i) rest
  | .extension path node, k => (path.isPrefixOf? k).bind (getNode node)

def createBranch : List Nibble → Bytes → List Nibble → Bytes → TrieNode
  | [], v, i :: rest, v' => .branch (Function.update defaultChildren i (.leaf rest v')) (some v)
  | i :: rest, v, [], v' => .branch (Function.update defaultChildren i (.leaf rest v)) (some v')
  | i :: rest, v, j :: rest', v' =>
    if i = j then .branch (Function.update defaultChildren i (createBranch rest v rest' v')) none
    else .branch (Function.update (Function.update defaultChildren i (.leaf rest v)) j
      (.leaf rest' v')) none
  | [], _, [], v' => .leaf [] v'

def commonPrefix (a b : List Nibble) : List Nibble :=
  ((a.zip b).takeWhile fun p => p.1 = p.2).map Prod.fst

def splitExtension (path : List Nibble) (node : TrieNode) (key : List Nibble) (value : Bytes)
    (commonLen : ℕ) : TrieNode :=
  let children := match path.drop commonLen with
    | [] => defaultChildren
    | [i] => Function.update defaultChildren i node
    | i :: rest => Function.update defaultChildren i (.extension rest node)
  let branch := match key.drop commonLen with
    | [] => .branch children (some value)
    | i :: rest => .branch (Function.update children i (.leaf rest value)) none
  if (path.take commonLen).isEmpty then branch else .extension (path.take commonLen) branch

def insertNode : TrieNode → List Nibble → Bytes → TrieNode
  | .empty, key, value => .leaf key value
  | .leaf leafKey leafValue, key, value =>
    if leafKey = key then .leaf key value else createBranch leafKey leafValue key value
  | .branch children _, [], value => .branch children (some value)
  | .branch children branchValue, i :: rest, value =>
    .branch (Function.update children i (insertNode (children i) rest value)) branchValue
  | .extension path node, key, value =>
    let common := commonPrefix path key
    if common.length = path.length then
      .extension path (insertNode node (key.drop common.length) value)
    else splitExtension path node key value common.length

def simplifyBranch (children : Nibble → TrieNode) (value : Option Bytes) : TrieNode :=
  match (List.finRange 16).filter fun i => !(children i).isEmpty, value with
  | [i], none =>
    match children i with
    | .leaf key value => .leaf (i :: key) value
    | child => .extension [i] child
  | _, _ => .branch children value

def removeNode : TrieNode → List Nibble → TrieNode
  | .empty, _ => .empty
  | .leaf leafKey value, key => if leafKey = key then .empty else .leaf leafKey value
  | .branch children _, [] => .branch children none
  | .branch children value, i :: rest =>
    simplifyBranch (Function.update children i (removeNode (children i) rest)) value
  | .extension path node, key =>
    match path.isPrefixOf? key with
    | some rest =>
      let newNode := removeNode node rest
      if newNode.isEmpty then .empty else .extension path newNode
    | none => .extension path node

def encodeNode : TrieNode → Bytes
  | .empty => []
  | .leaf key value => Rlp.encodeList [key.map fun i => UInt8.ofNat i.val, value]
  | .branch children value =>
    Rlp.encodeList ((List.ofFn fun i => encodeNode (children i)) ++ [value.getD []])
  | .extension path node =>
    Rlp.encodeList [path.map fun i => UInt8.ofNat i.val, encodeNode node]

@[simp] theorem getNode_branch_cons (children : Nibble → TrieNode) (value : Option Bytes)
    (i : Nibble) (rest : List Nibble) :
    getNode (.branch children value) (i :: rest) = getNode (children i) rest := rfl

@[simp] theorem getNode_branch_nil (children : Nibble → TrieNode) (value : Option Bytes) :
    getNode (.branch children value) [] = value := rfl

@[simp] theorem getNode_default (i : Nibble) (k : List Nibble) :
    getNode (defaultChildren i) k = none := rfl

theorem getNode_update (children : Nibble → TrieNode) (i j : Nibble) (n : TrieNode)
    (rest : List Nibble) : getNode (Function.update children i n j) rest =
      if j = i then getNode n rest else getNode (children j) rest := by
  rw [Function.update_apply]
  split <;> rfl

theorem getNode_extension_append (p k : List Nibble) (n : TrieNode) :
    getNode (.extension p n) (p ++ k) = getNode n k := by
  have h : p.isPrefixOf? (p ++ k) = some k := List.isPrefixOf?_eq_some_iff_append_eq.mpr rfl
  simp [getNode, h]

theorem getNode_extension_of_ne (h : ∀ rest, k ≠ p ++ rest) :
    getNode (.extension p n) k = none := by
  have hp : p.isPrefixOf? k = none := by
    rw [Option.eq_none_iff_forall_ne_some]
    intro rest hr
    exact h rest (List.isPrefixOf?_eq_some_iff_append_eq.mp hr).symm
  simp [getNode, hp]

theorem getNode_extension_cons (i j : Nibble) (p k : List Nibble) :
    getNode (.extension (i :: p) n) (j :: k) =
      if i = j then getNode (.extension p n) k else none := by
  by_cases h : i = j <;> simp [getNode, List.isPrefixOf?, h]

theorem getNode_extension_extension (q : List Nibble) :
    getNode (.extension p (.extension r n)) q = getNode (.extension (p ++ r) n) q := by
  induction p generalizing q with
  | nil => simp [getNode, List.isPrefixOf?]
  | cons i p ih =>
    cases q with
    | nil => rfl
    | cons j q => rw [List.cons_append, getNode_extension_cons, getNode_extension_cons, ih]

theorem getNode_extension_ite {m : TrieNode} {x : Option Bytes}
    (h : ∀ q, getNode m q = if s = q then x else getNode n q) (q : List Nibble) :
    getNode (.extension p m) q = if p ++ s = q then x else getNode (.extension p n) q := by
  by_cases hq : ∃ rest, q = p ++ rest
  · obtain ⟨rest, rfl⟩ := hq
    rw [getNode_extension_append, getNode_extension_append, h]
    simp
  · push Not at hq
    rw [getNode_extension_of_ne hq, getNode_extension_of_ne hq, if_neg fun he => hq s he.symm]

theorem getNode_createBranch (h : k ≠ k') (q : List Nibble) : getNode (createBranch k v k' v') q =
      if k' = q then some v' else if k = q then some v else none := by
  fun_induction createBranch k v k' v' generalizing q with
  | case1 v i rest v' | case2 i rest v v' | case4 i rest v j rest' v' hij =>
    cases q with
    | nil => simp
    | cons l q =>
      simp only [getNode_branch_cons, getNode_update]
      grind [getNode, getNode_default]
  | case3 rest v j rest' v' ih =>
    have hk : rest ≠ rest' := fun he => h (he ▸ rfl)
    cases q with
    | nil => simp
    | cons l q =>
      simp only [getNode_branch_cons, getNode_update, ih hk]
      grind [getNode_default]
  | case5 => exact absurd rfl h

theorem commonPrefix_split (a b : List Nibble) : ∃ r s, a = commonPrefix a b ++ r ∧
    b = commonPrefix a b ++ s ∧ ∀ i, r.head? = some i → s.head? ≠ some i := by
  induction a generalizing b with
  | nil => exact ⟨[], b, rfl, rfl, by simp⟩
  | cons i a ih =>
    cases b with
    | nil => exact ⟨i :: a, [], rfl, rfl, by simp⟩
    | cons j b =>
      by_cases h : i = j
      · subst h
        obtain ⟨r, s, ha, hb, hd⟩ := ih b
        have hc : commonPrefix (i :: a) (i :: b) = i :: commonPrefix a b := by
          simp [commonPrefix]
        exact ⟨r, s, by rw [hc, List.cons_append, ← ha], by rw [hc, List.cons_append, ← hb], hd⟩
      · have hc : commonPrefix (i :: a) (j :: b) = [] := by simp [commonPrefix, h]
        refine ⟨i :: a, j :: b, by rw [hc, List.nil_append], by rw [hc, List.nil_append], ?_⟩
        intro l hl hl'
        simp only [List.head?_cons, Option.some.injEq] at hl hl'
        exact h (hl.trans hl'.symm)

theorem getNode_splitExtension (hr : r ≠ []) (hd : ∀ i, r.head? = some i → s.head? ≠ some i)
    (q : List Nibble) :
    getNode (splitExtension (p ++ r) n (p ++ s) v p.length) q =
      if p ++ s = q then some v else getNode (.extension (p ++ r) n) q := by
  obtain ⟨i, r, rfl⟩ := List.exists_cons_of_ne_nil hr
  -- The part below the common path, where the two keys go different ways.
  have hbelow : ∀ q, getNode (splitExtension (i :: r) n s v 0) q =
      if s = q then some v else getNode (.extension (i :: r) n) q := by
    intro q
    cases r <;> cases s <;> cases q <;>
      simp_all [splitExtension, getNode_update, getNode, List.isPrefixOf?] <;> grind [getNode_default]
  cases p with
  | nil => simpa using hbelow q
  | cons j p =>
    have hsplit : splitExtension (j :: p ++ i :: r) n (j :: p ++ s) v (j :: p).length =
        .extension (j :: p) (splitExtension (i :: r) n s v 0) := by
      simp [splitExtension]
    rw [hsplit, getNode_extension_ite hbelow, getNode_extension_extension]

theorem getNode_insertNode (n : TrieNode) (k : List Nibble) (v : Bytes) (q : List Nibble) :
    getNode (insertNode n k v) q = if k = q then some v else getNode n q := by
  induction n generalizing k q with
  | empty => simp [insertNode, getNode]
  | leaf key value =>
    by_cases h : key = k
    · subst h
      simp only [insertNode, if_true, getNode]
      grind
    · rw [insertNode, if_neg h, getNode_createBranch h]
      rfl
  | branch children value ih =>
    cases k with
    | nil => cases q <;> simp [insertNode]
    | cons i k =>
      cases q with
      | nil => simp [insertNode]
      | cons j q =>
        simp only [insertNode, getNode_branch_cons, getNode_update, ih]
        grind
  | extension path node ih =>
    obtain ⟨r, s, hp, hk, hd⟩ := commonPrefix_split path k
    generalize hc : commonPrefix path k = c at hp hk
    by_cases hr : r = []
    · subst hr
      rw [List.append_nil] at hp
      subst hp hk
      simp only [insertNode, hc, if_true, List.drop_left]
      exact getNode_extension_ite (ih s) q
    · have hlen : ¬ c.length = path.length := by
        have := List.length_pos_iff.mpr hr
        rw [hp, List.length_append]
        omega
      simp only [insertNode, hc, if_neg hlen]
      rw [hp, hk]
      exact getNode_splitExtension hr hd q

theorem getNode_simplifyBranch (children : Nibble → TrieNode) (value : Option Bytes)
    (q : List Nibble) :
    getNode (simplifyBranch children value) q = getNode (.branch children value) q := by
  unfold simplifyBranch
  split
  case h_2 => rfl
  case h_1 i hi =>
    have hother : ∀ j, j ≠ i → children j = .empty := by
      intro j hj
      have hn : j ∉ (List.finRange 16).filter fun i => !(children i).isEmpty := by simp [hi, hj]
      cases hc : children j with
      | empty => rfl
      | leaf | branch | extension => simp [hc, isEmpty] at hn
    have hext : getNode (.extension [i] (children i)) q = getNode (.branch children none) q := by
      cases q with
      | nil => rfl
      | cons j q =>
        rw [getNode_extension_cons, getNode_branch_cons]
        by_cases h : i = j
        · subst h
          exact if_pos rfl
        · rw [if_neg h, hother j (Ne.symm h)]
          rfl
    split
    case h_2 => exact hext
    case h_1 key leafValue hleaf =>
      rw [← hext, hleaf]
      cases q with
      | nil => rfl
      | cons j q =>
        rw [getNode_extension_cons]
        simp only [getNode, List.cons.injEq, List.isPrefixOf?, Option.bind_some]
        grind

theorem getNode_removeNode (n : TrieNode) (k q : List Nibble) :
    getNode (removeNode n k) q = if k = q then none else getNode n q := by
  induction n generalizing k q with
  | empty => simp [removeNode, getNode]
  | leaf key value =>
    simp only [removeNode]
    split
    · grind [getNode]
    · grind [getNode]
  | branch children value ih =>
    cases k with
    | nil => cases q <;> simp [removeNode]
    | cons i k =>
      rw [removeNode, getNode_simplifyBranch]
      cases q with
      | nil => simp
      | cons j q =>
        simp only [getNode_branch_cons, getNode_update, ih]
        grind
  | extension path node ih =>
    simp only [removeNode]
    split
    case h_2 hp =>
      by_cases hq : k = q
      · subst hq
        simp [getNode, hp]
      · rw [if_neg hq]
    case h_1 rest hp =>
      obtain rfl := List.isPrefixOf?_eq_some_iff_append_eq.mp hp
      rw [← getNode_extension_ite (ih rest)]
      split
      case isFalse => rfl
      case isTrue he =>
        cases hr : removeNode node rest with
        | empty => simp [getNode]
        | leaf | branch | extension => simp [hr, isEmpty] at he

/-- The shape of a tree built by inserts alone: a branch only where two keys part ways, and no
extension. -/
def InsertShaped : TrieNode → Prop
  | .empty => True
  | .leaf _ _ => True
  | .branch children value => (∀ i, (children i).InsertShaped) ∧
      ∃ k k', k ≠ k' ∧ getNode (.branch children value) k ≠ none ∧
        getNode (.branch children value) k' ≠ none
  | .extension _ _ => False

theorem InsertShaped.update {children : Nibble → TrieNode} {i : Nibble}
    (hc : ∀ j, (children j).InsertShaped) (hn : n.InsertShaped) (j : Nibble) :
    (Function.update children i n j).InsertShaped := by
  rw [Function.update_apply]
  split
  · exact hn
  · exact hc j

theorem exists_keys_of_getNode (h : k ≠ k')
    (hn : ∀ q, getNode n q = if k' = q then some v' else if k = q then some v else none) :
    ∃ k k', k ≠ k' ∧ getNode n k ≠ none ∧ getNode n k' ≠ none :=
  ⟨k, k', h, by simp [hn, Ne.symm h], by simp [hn]⟩

theorem createBranch_insertShaped (h : k ≠ k') : (createBranch k v k' v').InsertShaped := by
  have hdefault : ∀ i, (defaultChildren i).InsertShaped := fun _ => trivial
  have hkeys := exists_keys_of_getNode h (@getNode_createBranch k k' v v' h)
  fun_induction createBranch k v k' v' with
  | case1 v i rest v' | case2 i rest v v' => exact ⟨InsertShaped.update hdefault trivial, hkeys⟩
  | case3 rest v j rest' v' ih =>
    have hk : rest ≠ rest' := fun he => h (he ▸ rfl)
    have hbelow := ih hk (exists_keys_of_getNode hk (getNode_createBranch hk))
    exact ⟨InsertShaped.update hdefault hbelow, hkeys⟩
  | case4 i rest v j rest' v' hij =>
    exact ⟨InsertShaped.update (InsertShaped.update hdefault trivial) trivial, hkeys⟩
  | case5 => exact absurd rfl h

theorem insertNode_insertShaped (hn : n.InsertShaped) (k : List Nibble) (v : Bytes) :
    (insertNode n k v).InsertShaped := by
  induction n generalizing k with
  | empty => trivial
  | leaf key value =>
    rw [insertNode]
    split
    · trivial
    · exact createBranch_insertShaped ‹_›
  | extension path node => exact hn.elim
  | branch children value ih =>
    obtain ⟨hc, a, b, hab, ha, hb⟩ := hn
    -- Keys present before the insertion are present after it.
    have hkeep : ∀ q, getNode (.branch children value) q ≠ none →
        getNode (insertNode (.branch children value) k v) q ≠ none := by
      intro q hq
      rw [getNode_insertNode]
      split
      · simp
      · exact hq
    cases k with
    | nil => exact ⟨hc, a, b, hab, hkeep a ha, hkeep b hb⟩
    | cons i k =>
      exact ⟨InsertShaped.update hc (ih i (hc i) k), a, b, hab, hkeep a ha, hkeep b hb⟩

theorem InsertShaped.eq_of_getNode {m : TrieNode} (hn : n.InsertShaped) (hm : m.InsertShaped)
    (h : ∀ q, getNode n q = getNode m q) : n = m := by
  induction n generalizing m with
  | empty =>
    cases m with
    | empty => rfl
    | leaf key value => simpa [getNode] using h key
    | branch children value =>
      obtain ⟨-, a, _, -, ha, -⟩ := hm
      exact absurd (h a).symm ha
    | extension => exact hm.elim
  | leaf key value =>
    cases m with
    | empty => simpa [getNode] using h key
    | leaf key' value' =>
      have hk := h key
      have hk' := h key'
      simp only [getNode, if_true] at hk hk'
      grind
    | branch children value' =>
      obtain ⟨-, a, b, hab, ha, hb⟩ := hm
      rw [← h, getNode] at ha hb
      grind
    | extension => exact hm.elim
  | branch children value ih =>
    obtain ⟨hc, a, b, hab, ha, hb⟩ := hn
    cases m with
    | empty => exact absurd (h a) ha
    | leaf key' value' =>
      rw [h, getNode] at ha hb
      grind
    | branch children' value' =>
      have hv : value = value' := h []
      have hchildren : children = children' := by
        funext i
        exact ih i (hc i) (hm.1 i) fun q => h (i :: q)
      rw [hv, hchildren]
    | extension => exact hm.elim
  | extension => exact hn.elim

end TrieNode

def toNibbles (bytes : Bytes) : List Nibble :=
  bytes.flatMap fun b => [Fin.ofNat 16 (b.toNat / 16), Fin.ofNat 16 (b.toNat % 16)]

theorem toNibbles_inj {bs bs' : Bytes} (h : toNibbles bs = toNibbles bs') : bs = bs' := by
  induction bs generalizing bs' with
  | nil =>
    cases bs' with
    | nil => rfl
    | cons b bs' => simp [toNibbles] at h
  | cons b bs ih =>
    cases bs' with
    | nil => simp [toNibbles] at h
    | cons b' bs' =>
      simp only [toNibbles, List.flatMap_cons, List.cons_append, List.nil_append, List.cons.injEq,
        Fin.ext_iff, Fin.val_ofNat] at h
      obtain ⟨hhigh, hlow, hrest⟩ := h
      have hb : b.toNat = b'.toNat := by
        have := b.toNat_lt
        have := b'.toNat_lt
        omega
      rw [UInt8.toNat_inj.mp hb, ih hrest]

/-- A trie: its tree and its cache hold the same map, and without a remove the tree has the
insert-only shape. -/
structure Trie where
  root : TrieNode
  cache : ExtTreeMap Bytes Bytes
  removed : Bool
  agrees : ∀ key, root.getNode (toNibbles key) = cache[key]?
  bytewise : ∀ path, root.getNode path ≠ none → ∃ key, toNibbles key = path
  shaped : removed = false → root.InsertShaped

namespace Trie
variable {t t' : Trie} {keccak : Bytes → Hash}

def new : Trie where
  root := .empty
  cache := ∅
  removed := false
  agrees := by simp [TrieNode.getNode]
  bytewise := by simp [TrieNode.getNode]
  shaped := fun _ => trivial

def insert (t : Trie) (key value : Bytes) : Trie where
  root := t.root.insertNode (toNibbles key) value
  cache := t.cache.insert key value
  removed := t.removed
  agrees := by
    intro q
    rw [TrieNode.getNode_insertNode, t.agrees, ExtTreeMap.getElem?_insert]
    by_cases h : key = q
    · simp [h]
    · have hn : toNibbles key ≠ toNibbles q := fun he => h (toNibbles_inj he)
      simp [h, hn]
  bytewise := by
    intro path hp
    rw [TrieNode.getNode_insertNode] at hp
    by_cases h : toNibbles key = path
    · exact ⟨key, h⟩
    · exact t.bytewise path (by simpa [h] using hp)
  shaped := fun h => TrieNode.insertNode_insertShaped (t.shaped h) _ _

def remove (t : Trie) (key : Bytes) : Trie where
  root := t.root.removeNode (toNibbles key)
  cache := t.cache.erase key
  removed := true
  agrees := by
    intro q
    rw [TrieNode.getNode_removeNode, t.agrees, ExtTreeMap.getElem?_erase]
    by_cases h : key = q
    · simp [h]
    · have hn : toNibbles key ≠ toNibbles q := fun he => h (toNibbles_inj he)
      simp [h, hn]
  bytewise := by
    intro path hp
    rw [TrieNode.getNode_removeNode] at hp
    by_cases h : toNibbles key = path
    · exact ⟨key, h⟩
    · exact t.bytewise path (by simpa [h] using hp)
  shaped := nofun

def entriesMap (t : Trie) : ExtTreeMap Bytes Bytes := t.cache

def get (t : Trie) (key : Bytes) : Option Bytes :=
  match t.cache[key]? with
  | some value => some value
  | none => t.root.getNode (toNibbles key)

/-- The structural hash, which depends on the removes the trie has seen. -/
def legacyRootHash (keccak : Bytes → Hash) (t : Trie) : Hash := keccak t.root.encodeNode

def rebuild (t : Trie) : Trie := t.cache.toList.foldl (fun t e => t.insert e.1 e.2) new

def rootHash (keccak : Bytes → Hash) (t : Trie) : Hash :=
  if t.removed then t.rebuild.legacyRootHash keccak else t.legacyRootHash keccak

theorem get_eq (t : Trie) (key : Bytes) : t.get key = t.entriesMap[key]? := by
  unfold get entriesMap
  split
  · rename_i h
    exact h.symm
  · rw [t.agrees]

@[simp] theorem entriesMap_insert (t : Trie) (key value : Bytes) :
    (t.insert key value).entriesMap = t.entriesMap.insert key value := rfl

@[simp] theorem entriesMap_remove (t : Trie) (key : Bytes) :
    (t.remove key).entriesMap = t.entriesMap.erase key := rfl

@[simp] theorem entriesMap_new : new.entriesMap = ∅ := rfl

theorem foldl_insert (es : List (Bytes × Bytes)) (t : Trie) :
    (es.foldl (fun t e => t.insert e.1 e.2) t).entriesMap =
      es.foldl (fun m e => m.insert e.1 e.2) t.entriesMap ∧
    (es.foldl (fun t e => t.insert e.1 e.2) t).removed = t.removed := by
  induction es generalizing t with
  | nil => exact ⟨rfl, rfl⟩
  | cons e es ih => exact ih (t.insert e.1 e.2)

@[simp] theorem entriesMap_rebuild (t : Trie) : t.rebuild.entriesMap = t.entriesMap := by
  rw [rebuild, (foldl_insert _ _).1]
  exact TreeMap.foldl_insert_toList t.cache

@[simp] theorem removed_rebuild (t : Trie) : t.rebuild.removed = false := (foldl_insert _ _).2

theorem root_eq (h : t.removed = false) (h' : t'.removed = false)
    (he : t.entriesMap = t'.entriesMap) : t.root = t'.root := by
  have hkeys : ∀ key, t.root.getNode (toNibbles key) = t'.root.getNode (toNibbles key) := by
    intro key
    rw [t.agrees, t'.agrees]
    exact congrArg (fun m : ExtTreeMap Bytes Bytes => m[key]?) he
  apply (t.shaped h).eq_of_getNode (t'.shaped h')
  intro path
  by_cases hp : ∃ key, toNibbles key = path
  · obtain ⟨key, rfl⟩ := hp
    exact hkeys key
  · rw [not_ne_iff.mp (mt (t.bytewise path) hp), not_ne_iff.mp (mt (t'.bytewise path) hp)]

theorem rootHash_eq (t : Trie) : t.rootHash keccak = t.rebuild.legacyRootHash keccak := by
  unfold rootHash
  split
  · rfl
  · rename_i h
    rw [legacyRootHash, legacyRootHash, root_eq (Bool.eq_false_of_not_eq_true h)
      t.removed_rebuild t.entriesMap_rebuild.symm]

theorem rootHash_congr (he : t.entriesMap = t'.entriesMap) :
    t.rootHash keccak = t'.rootHash keccak := by
  rw [rootHash_eq, rootHash_eq, rebuild, rebuild]
  exact congrArg _ (congrArg _ (congrArg ExtTreeMap.toList he))

end Trie

inductive TrieOp
  | insert (key value : Bytes)
  | remove (key : Bytes)

def TrieOp.onTrie (t : Trie) : TrieOp → Trie
  | insert key value => t.insert key value
  | remove key => t.remove key

def TrieOp.onMap (m : ExtTreeMap Bytes Bytes) : TrieOp → ExtTreeMap Bytes Bytes
  | insert key value => m.insert key value
  | remove key => m.erase key

namespace Trie
variable {keccak : Bytes → Hash} {ops ops' : List TrieOp}

def run (ops : List TrieOp) : Trie := ops.foldl TrieOp.onTrie new

def mapOf (ops : List TrieOp) : ExtTreeMap Bytes Bytes := ops.foldl TrieOp.onMap ∅

theorem entriesMap_onTrie (t : Trie) (op : TrieOp) :
    (TrieOp.onTrie t op).entriesMap = TrieOp.onMap t.entriesMap op := by
  cases op with
  | insert key value => rfl
  | remove key => rfl

theorem entriesMap_run (ops : List TrieOp) : (run ops).entriesMap = mapOf ops := by
  unfold run mapOf
  rw [← entriesMap_new]
  generalize new = t
  induction ops generalizing t with
  | nil => rfl
  | cons op ops ih => rw [List.foldl_cons, List.foldl_cons, ih, entriesMap_onTrie]

/-- The tree, the lookup and the enumeration all hold the map that the same operations make. -/
theorem run_refines_map (ops : List TrieOp) :
    (∀ key, (run ops).root.getNode (toNibbles key) = (mapOf ops)[key]?) ∧
      (∀ key, (run ops).get key = (mapOf ops)[key]?) ∧ (run ops).entriesMap = mapOf ops := by
  have hmap := entriesMap_run ops
  refine ⟨fun key => ?_, fun key => ?_, hmap⟩
  · rw [(run ops).agrees key, ← hmap]
    rfl
  · rw [get_eq, hmap]

/-- Histories with the same final map have the same root hash. -/
theorem rootHash_of_mapOf_eq (h : mapOf ops = mapOf ops') :
    (run ops).rootHash keccak = (run ops').rootHash keccak := by
  apply rootHash_congr
  rw [entriesMap_run, entriesMap_run, h]

theorem rootHash_of_mapOf_eq_removed :
    (run [.insert [1] [7], .insert [1, 2] [8], .insert [1] [9], .remove [1, 2]]).rootHash
        (fun bytes => BitVec.ofNat 256 bytes.length) =
      (run [.insert [1] [9]]).rootHash fun bytes => BitVec.ofNat 256 bytes.length :=
  rootHash_of_mapOf_eq (by decide)

end Trie

end CitrateChain.Execution
