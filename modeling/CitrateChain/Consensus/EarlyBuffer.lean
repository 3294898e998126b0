import CitrateChain.Base.NestedMap
import CitrateChain.Consensus.Checkpoint

/-! # The early-vote buffer

Votes that arrive before their checkpoint is proposed are held in a map by height and hash, with an
index by voter, the order in which the voters came and a counter. All four describe one set of
entries, in which a voter has one vote for a height. -/
namespace CitrateChain.Consensus
open NestedMap Word
open Std (ExtTreeMap)

structure EarlyBuffer where
  votes : NestedMap (UInt64 × Hash) PublicKey CheckpointVote := ∅
  byVoter : NestedMap PublicKey UInt64 Hash := ∅
  arrival : ExtTreeMap PublicKey UInt64 := ∅
  nextArrival : UInt64 := 0
  len : UInt64 := 0

namespace EarlyBuffer

def voterCount (b : EarlyBuffer) (voter : PublicKey) : ℕ := b.byVoter.rowSize voter

def forget (b : EarlyBuffer) (voter : PublicKey) (height : UInt64) : EarlyBuffer :=
  match b.byVoter[voter]? with
  | none => b
  | some _ =>
    let byVoter := b.byVoter.drop voter height
    { b with byVoter, arrival := if voter ∈ byVoter then b.arrival else b.arrival.erase voter }

def removeEntry (b : EarlyBuffer) (voter : PublicKey) (height : UInt64) : EarlyBuffer :=
  match b.byVoter.get voter height with
  | none => b
  | some hash =>
    let b := b.forget voter height
    { b with
      votes := b.votes.drop (height, hash) voter
      len := if (b.votes.get (height, hash) voter).isSome then saturatingSub b.len 1 else b.len }

def farthest (b : EarlyBuffer) (voter : PublicKey) : Option UInt64 :=
  b.byVoter[voter]?.bind fun heights => heights.keys.getLast?

def heavier (a c : ℕ × UInt64 × PublicKey) : ℕ × UInt64 × PublicKey :=
  if c.1 < a.1 ∨ c.1 = a.1 ∧ c.2.1 < a.2.1 then a else c

/-- The voter with the most votes, for an iteration of the index in the given order. -/
def heaviest (b : EarlyBuffer) (order : List PublicKey) : Option (ℕ × UInt64 × PublicKey) :=
  (order.filterMap fun voter =>
    b.byVoter[voter]?.map fun heights => (heights.size, b.arrival[voter]?.getD 0, voter)).foldl
    (fun best c => some (best.elim c (heavier · c))) none

def victim (b : EarlyBuffer) (order : List PublicKey) (own : ℕ) : Option (PublicKey × UInt64) :=
  (b.heaviest order).bind fun (count, _, voter) =>
    (b.farthest voter).bind fun far => if own < count then some (voter, far) else none

def admitVote (b : EarlyBuffer) (vote : CheckpointVote) : EarlyBuffer where
  votes := b.votes.put (vote.height, vote.blockHash) vote.voter vote
  byVoter := b.byVoter.put vote.voter vote.height vote.blockHash
  arrival := if vote.voter ∈ b.arrival then b.arrival else b.arrival.insert vote.voter b.nextArrival
  nextArrival := if vote.voter ∈ b.arrival then b.nextArrival else saturatingAdd b.nextArrival 1
  len := saturatingAdd b.len 1

structure Caps where
  perVoter : UInt64
  total : UInt64

def makeOwnRoom (caps : Caps) (b : EarlyBuffer) (voter : PublicKey) (height : UInt64) :
    Option EarlyBuffer :=
  if caps.perVoter.toNat ≤ b.voterCount voter then
    match b.farthest voter with
    | some far => if height < far then some (b.removeEntry voter far) else none
    | none => none
  else some b

def makeTotalRoom (caps : Caps) (b : EarlyBuffer) (order : List PublicKey) (voter : PublicKey) :
    Option EarlyBuffer :=
  if caps.total ≤ b.len then (b.victim order (b.voterCount voter)).map fun e => b.removeEntry e.1 e.2
  else some b

/-- What the call returns, and the buffer it leaves; `order` is the iteration of the voter index. -/
def insert (caps : Caps) (b : EarlyBuffer) (vote : CheckpointVote) (order : List PublicKey) :
    Except CheckpointError Unit × EarlyBuffer :=
  match b.byVoter.get vote.voter vote.height with
  | some held =>
    (.error (if held = vote.blockHash then .duplicateVote vote.voter
      else .storageError "voter already has an early vote for another hash at this height"), b)
  | none =>
    match makeOwnRoom caps b vote.voter vote.height with
    | none => (.error (.storageError "early-vote buffer full for voter"), b)
    | some b =>
      match makeTotalRoom caps b order vote.voter with
      | none => (.error (.storageError "early-vote buffer full"), b)
      | some b => (.ok (), b.admitVote vote)

def takeVoter (height : UInt64) (b : EarlyBuffer) (voter : PublicKey) : EarlyBuffer :=
  let b := b.forget voter height
  { b with len := saturatingSub b.len 1 }

def takeKey (b : EarlyBuffer) (key : UInt64 × Hash) : List CheckpointVote × EarlyBuffer :=
  match b.votes[key]? with
  | none => ([], b)
  | some slot =>
    (slot.values, slot.keys.foldl (takeVoter key.1) { b with votes := b.votes.erase key })

def takeKeys (b : EarlyBuffer) : List (UInt64 × Hash) → List CheckpointVote × EarlyBuffer
  | [] => ([], b)
  | key :: keys =>
    let (taken, b) := b.takeKey key
    let (more, b) := b.takeKeys keys
    (taken ++ more, b)

def takeHeight (b : EarlyBuffer) (height : UInt64) : List CheckpointVote × EarlyBuffer :=
  b.takeKeys (b.votes.keys.filter (·.1 = height))

def retainHeights (b : EarlyBuffer) (keep : UInt64 → Bool) : EarlyBuffer :=
  (b.takeKeys (b.votes.keys.filter fun key => !keep key.1)).2

structure Filed (b : EarlyBuffer) : Prop where
  rows : b.byVoter.Proper
  slots : b.votes.Proper
  named : ∀ voter height hash vote, b.votes.get (height, hash) voter = some vote →
    vote.voter = voter ∧ vote.height = height ∧ vote.blockHash = hash
  arrived : ∀ voter, voter ∈ b.arrival ↔ voter ∈ b.byVoter
  counted : b.len.toNat = b.byVoter.count

structure Consistent (b : EarlyBuffer) : Prop extends Filed b where
  agree : ∀ voter height hash,
    (∃ vote, b.votes.get (height, hash) voter = some vote) ↔ b.byVoter.get voter height = some hash
  tallied : b.len.toNat = b.votes.count

/-- The same while the voters `rest` of the slot at `key` are in the index only. -/
structure Draining (b : EarlyBuffer) (key : UInt64 × Hash) (rest : List PublicKey) : Prop extends
    Filed b where
  distinct : rest.Nodup
  apart : ∀ voter ∈ rest, b.votes.get key voter = none
  agree : ∀ voter height hash, (∃ vote, b.votes.get (height, hash) voter = some vote) ∨
    (height, hash) = key ∧ voter ∈ rest ↔ b.byVoter.get voter height = some hash
  tallied : b.len.toNat = b.votes.count + rest.length

section Lemmas
variable {b : EarlyBuffer} {voter : PublicKey} {height : UInt64} {hash : Hash}
variable {key : UInt64 × Hash} {rest : List PublicKey}

theorem Draining.consistent (h : b.Draining key []) : b.Consistent where
  __ := h.toFiled
  agree voter height hash := by simpa using h.agree voter height hash
  tallied := h.tallied

theorem forget_of_get (h : b.byVoter.get voter height = some hash) : b.forget voter height =
    { b with
      byVoter := b.byVoter.drop voter height
      arrival := if voter ∈ b.byVoter.drop voter height then b.arrival else b.arrival.erase voter } := by
  obtain ⟨row, hrow, -⟩ := get_eq_some.mp h
  unfold forget
  rw [hrow]

theorem saturatingSub_one_toNat {w : UInt64} {n : ℕ} (h : w.toNat = n + 1) :
    (saturatingSub w 1).toNat = n := by
  rw [saturatingSub_toNat, h]
  rfl

theorem Filed.arrived_forget (h : b.Filed) (hheld : b.byVoter.get voter height = some hash)
    (v : PublicKey) : v ∈ (if voter ∈ b.byVoter.drop voter height then b.arrival
      else b.arrival.erase voter) ↔ v ∈ b.byVoter.drop voter height := by
  by_cases hv : v = voter
  · subst hv
    split
    · rename_i hmem
      exact iff_of_true ((h.arrived v).mpr (h.rows.mem_iff.mpr ⟨_, _, hheld⟩)) hmem
    · rename_i hmem
      exact iff_of_false (TreeMap.not_mem_erase_self _ _) hmem
  · have hother : v ∈ b.byVoter.drop voter height ↔ v ∈ b.byVoter := by
      rw [(h.rows.drop voter height).mem_iff, h.rows.mem_iff]
      simp only [get_drop, hv, false_and, if_false]
    rw [hother, ← h.arrived v]
    split
    · rfl
    · rw [ExtTreeMap.mem_erase, Ne, Std.LawfulEqCmp.compare_eq_iff_eq]
      exact and_iff_right (Ne.symm hv)

theorem Draining.takeVoter (h : b.Draining key (voter :: rest)) :
    (takeVoter key.1 b voter).Draining key rest := by
  obtain ⟨hnot, hdistinct⟩ := List.nodup_cons.mp h.distinct
  have hheld : b.byVoter.get voter key.1 = some key.2 :=
    (h.agree voter key.1 key.2).mp (.inr ⟨rfl, List.mem_cons_self⟩)
  have hlen : (saturatingSub b.len 1).toNat = (b.byVoter.drop voter key.1).count :=
    saturatingSub_one_toNat (h.counted.trans (count_drop hheld))
  unfold EarlyBuffer.takeVoter
  rw [forget_of_get hheld]
  refine ⟨⟨h.rows.drop voter key.1, h.slots, h.named, h.arrived_forget hheld, hlen⟩, hdistinct,
    fun v hv => h.apart v (List.mem_cons_of_mem _ hv), fun v height hash => ?_,
    saturatingSub_one_toNat h.tallied⟩
  rw [get_drop]
  by_cases hv : v = voter ∧ height = key.1
  · obtain ⟨rfl, rfl⟩ := hv
    simp only [and_self, if_true]
    refine iff_of_false ?_ (Option.some_ne_none _).symm
    rintro (⟨vote, hvote⟩ | ⟨-, hmem⟩)
    · have hget := (h.agree v key.1 hash).mp (.inl ⟨vote, hvote⟩)
      obtain rfl := Option.some.inj (hget.symm.trans hheld)
      cases (h.apart v List.mem_cons_self).symm.trans hvote
    · exact hnot hmem
  · rw [if_neg hv, ← h.agree v height hash]
    refine or_congr_right (and_congr_right fun hkey => ?_)
    subst hkey
    rw [List.mem_cons]
    exact ⟨.inr, fun hmem => hmem.resolve_left fun he => hv ⟨he, rfl⟩⟩

theorem Draining.takeAll (h : b.Draining key rest) :
    (rest.foldl (EarlyBuffer.takeVoter key.1) b).Consistent := by
  induction rest generalizing b with
  | nil => exact h.consistent
  | cons voter rest ih => exact ih h.takeVoter

theorem Consistent.draining {votes : NestedMap (UInt64 × Hash) PublicKey CheckpointVote}
    (h : b.Consistent) (hslots : votes.Proper) (hdistinct : rest.Nodup)
    (hget : ∀ k v, votes.get k v = if k = key ∧ v ∈ rest then none else b.votes.get k v)
    (hheld : ∀ v ∈ rest, ∃ vote, b.votes.get key v = some vote)
    (hcount : b.votes.count = votes.count + rest.length) :
    ({ b with votes } : EarlyBuffer).Draining key rest where
  __ := h.toFiled
  slots := hslots
  distinct := hdistinct
  apart v hv := by rw [hget, if_pos ⟨rfl, hv⟩]
  agree v height hash := by
    rw [← h.agree, hget]
    by_cases hv : (height, hash) = key ∧ v ∈ rest
    · refine iff_of_true (.inr hv) ?_
      rw [hv.1]
      exact hheld v hv.2
    · rw [if_neg hv, or_iff_left hv]
  named v height hash vote hvote := by
    rw [hget] at hvote
    split at hvote
    · cases hvote
    · exact h.named v height hash vote hvote
  tallied := h.tallied.trans hcount

theorem Consistent.takeKey (h : b.Consistent) (key : UInt64 × Hash) : (b.takeKey key).2.Consistent := by
  unfold EarlyBuffer.takeKey
  split
  · exact h
  rename_i slot hslot
  refine (h.draining (h.slots.erase key) ExtTreeMap.nodup_keys (fun k v => ?_) (fun v hv => ?_)
    ?_).takeAll
  · rw [get_erase]
    by_cases hk : k = key
    · subst hk
      rw [if_pos rfl, get_of_row hslot]
      split
      · rfl
      · rename_i hv
        rw [ExtTreeMap.getElem?_eq_none fun hmem => hv ⟨rfl, ExtTreeMap.mem_keys.mpr hmem⟩]
    · rw [if_neg hk, if_neg fun h => hk h.1]
  · rw [get_of_row hslot]
    exact TreeMap.mem_iff_exists.mp (ExtTreeMap.mem_keys.mp hv)
  · rw [count_erase hslot, ExtTreeMap.length_keys, Nat.add_comm]

theorem Consistent.takeKeys (h : b.Consistent) (keys : List (UInt64 × Hash)) :
    (b.takeKeys keys).2.Consistent := by
  induction keys generalizing b with
  | nil => exact h
  | cons key keys ih => exact ih (h.takeKey key)

theorem removeEntry_of_get_none (h : b.byVoter.get voter height = none) :
    b.removeEntry voter height = b := by
  unfold removeEntry
  rw [h]

theorem Consistent.removeEntry_eq (h : b.Consistent) (he : b.byVoter.get voter height = some hash) :
    b.removeEntry voter height =
      takeVoter height { b with votes := b.votes.drop (height, hash) voter } voter := by
  obtain ⟨vote, hvote⟩ := (h.agree voter height hash).mpr he
  have hforget := forget_of_get he
  have hforget' : ({ b with votes := b.votes.drop (height, hash) voter } : EarlyBuffer).forget voter
      height = _ := forget_of_get he
  unfold EarlyBuffer.removeEntry EarlyBuffer.takeVoter
  rw [he]
  dsimp only
  rw [hforget, hforget']
  rw [hvote, Option.isSome_some, if_pos rfl]

theorem Consistent.removeEntry (h : b.Consistent) (voter : PublicKey) (height : UInt64) :
    (b.removeEntry voter height).Consistent := by
  cases he : b.byVoter.get voter height with
  | none => rwa [removeEntry_of_get_none he]
  | some hash =>
    obtain ⟨vote, hvote⟩ := (h.agree voter height hash).mpr he
    rw [h.removeEntry_eq he]
    have hdrain : ({ b with votes := b.votes.drop (height, hash) voter } : EarlyBuffer).Draining
        (height, hash) [voter] := by
      refine h.draining (h.slots.drop _ _) (List.nodup_singleton _) (fun k v => ?_) (fun v hv => ?_)
        (count_drop hvote)
      · simp only [get_drop, List.mem_singleton]
      · rw [List.mem_singleton.mp hv]
        exact ⟨vote, hvote⟩
    exact hdrain.takeVoter.consistent

structure WithinCaps (caps : Caps) (b : EarlyBuffer) : Prop where
  perVoter : ∀ voter, b.voterCount voter ≤ caps.perVoter.toNat
  total : b.len.toNat ≤ caps.total.toNat

structure Shrinks (b b' : EarlyBuffer) : Prop where
  perVoter : ∀ voter, b'.voterCount voter ≤ b.voterCount voter
  total : b'.len.toNat ≤ b.len.toNat

theorem Shrinks.refl (b : EarlyBuffer) : Shrinks b b := ⟨fun _ => le_rfl, le_rfl⟩

theorem Shrinks.trans {b' b'' : EarlyBuffer} (h : Shrinks b b') (h' : Shrinks b' b'') :
    Shrinks b b'' :=
  ⟨fun voter => (h'.perVoter voter).trans (h.perVoter voter), h'.total.trans h.total⟩

variable {b' : EarlyBuffer}

theorem WithinCaps.shrinks {caps : Caps} (hb : b.WithinCaps caps) (h : Shrinks b b') :
    b'.WithinCaps caps :=
  ⟨fun voter => (h.perVoter voter).trans (hb.perVoter voter), h.total.trans hb.total⟩

theorem forget_shrinks (b : EarlyBuffer) (voter : PublicKey) (height : UInt64) :
    Shrinks b (b.forget voter height) := by
  unfold forget
  split
  · exact .refl b
  · exact ⟨fun v => rowSize_drop_le _ _ _ _, le_rfl⟩

theorem takeVoter_shrinks (b : EarlyBuffer) (voter : PublicKey) (height : UInt64) :
    Shrinks b (takeVoter height b voter) := by
  have h := forget_shrinks b voter height
  refine ⟨h.perVoter, ?_⟩
  refine le_trans ?_ h.total
  exact (saturatingSub_toNat _ _).trans_le (Nat.sub_le _ _)

theorem takeKey_shrinks (b : EarlyBuffer) (key : UInt64 × Hash) : Shrinks b (b.takeKey key).2 := by
  unfold takeKey
  split
  · exact .refl b
  have hslot : Shrinks b { b with votes := b.votes.erase key } := ⟨fun _ => le_rfl, le_rfl⟩
  exact List.foldlRecOn _ _ hslot fun c hc voter _ => hc.trans (takeVoter_shrinks c voter key.1)

theorem takeKeys_shrinks (b : EarlyBuffer) (keys : List (UInt64 × Hash)) :
    Shrinks b (b.takeKeys keys).2 := by
  induction keys generalizing b with
  | nil => exact .refl b
  | cons key keys ih => exact (takeKey_shrinks b key).trans (ih _)

theorem Consistent.removeEntry_spec (h : b.Consistent)
    (he : b.byVoter.get voter height = some hash) :
    (b.removeEntry voter height).byVoter = b.byVoter.drop voter height ∧
      (b.removeEntry voter height).len.toNat + 1 = b.len.toNat := by
  have hforget : ({ b with votes := b.votes.drop (height, hash) voter } : EarlyBuffer).forget voter
      height = _ := forget_of_get he
  rw [h.removeEntry_eq he, takeVoter, hforget]
  refine ⟨rfl, ?_⟩
  have hcount := count_drop he
  have hlen := saturatingSub_one_toNat (h.counted.trans hcount)
  rw [h.counted, hcount, ← hlen]

theorem Consistent.removeEntry_shrinks (h : b.Consistent) (voter : PublicKey) (height : UInt64) :
    Shrinks b (b.removeEntry voter height) := by
  cases he : b.byVoter.get voter height with
  | none =>
    rw [removeEntry_of_get_none he]
    exact .refl b
  | some hash =>
    obtain ⟨hrows, hlen⟩ := h.removeEntry_spec he
    refine ⟨fun v => ?_, by omega⟩
    rw [voterCount, hrows]
    exact rowSize_drop_le _ _ _ _

variable {vote : CheckpointVote}

theorem Consistent.admitVote (h : b.Consistent)
    (hnone : b.byVoter.get vote.voter vote.height = none) (hlen : b.len.toNat + 1 < UInt64.size) :
    (b.admitVote vote).Consistent := by
  have hvotes : b.votes.get (vote.height, vote.blockHash) vote.voter = none := by
    rw [Option.eq_none_iff_forall_ne_some]
    intro held hheld
    have hget := (h.agree vote.voter vote.height vote.blockHash).mp ⟨held, hheld⟩
    exact nomatch hnone.symm.trans hget
  have hadd : (saturatingAdd b.len 1).toNat = b.len.toNat + 1 := saturatingAdd_toNat_of_lt hlen
  refine ⟨⟨h.rows.put _ _ _, h.slots.put _ _ _, fun v height hash held hheld => ?_, fun v => ?_,
    hadd.trans ((congrArg (· + 1) h.counted).trans (count_put hnone _).symm)⟩, fun v height hash => ?_,
    hadd.trans ((congrArg (· + 1) h.tallied).trans (count_put hvotes _).symm)⟩
  · change (b.votes.put _ _ _).get _ _ = some held at hheld
    rw [get_put] at hheld
    split at hheld
    · rename_i hk
      cases hheld
      obtain ⟨hkey, rfl⟩ := hk
      cases hkey
      exact ⟨rfl, rfl, rfl⟩
    · exact h.named v height hash held hheld
  · have hmem : v ∈ b.byVoter.put vote.voter vote.height vote.blockHash ↔
        v = vote.voter ∨ v ∈ b.byVoter := by
      rw [put, ExtTreeMap.mem_insert, Std.LawfulEqCmp.compare_eq_iff_eq, eq_comm]
    change v ∈ (if vote.voter ∈ b.arrival then b.arrival else b.arrival.insert vote.voter _) ↔ _
    rw [show (b.admitVote vote).byVoter = b.byVoter.put vote.voter vote.height vote.blockHash from rfl,
      hmem, ← h.arrived v]
    split
    · rename_i harrived
      refine ⟨.inr, ?_⟩
      rintro (rfl | hv)
      · exact harrived
      · exact hv
    · rw [ExtTreeMap.mem_insert, Std.LawfulEqCmp.compare_eq_iff_eq, eq_comm]
  · change (∃ held, (b.votes.put _ _ _).get _ _ = some held) ↔ (b.byVoter.put _ _ _).get _ _ = _
    simp only [get_put, Prod.mk.injEq]
    by_cases hv : v = vote.voter ∧ height = vote.height
    · obtain ⟨rfl, rfl⟩ := hv
      by_cases hhash : hash = vote.blockHash
      · simp [hhash]
      · simp [hhash, Ne.symm hhash, h.agree, hnone]
    · rw [if_neg hv, if_neg fun he => hv ⟨he.2, he.1.1⟩]
      exact h.agree v height hash

theorem admitVote_voterCount (hnone : b.byVoter.get vote.voter vote.height = none) (v : PublicKey) :
    (b.admitVote vote).voterCount v =
      if v = vote.voter then b.voterCount vote.voter + 1 else b.voterCount v :=
  rowSize_put hnone _ v

theorem farthest_held {far : UInt64} (h : b.farthest voter = some far) :
    ∃ hash, b.byVoter.get voter far = some hash := by
  obtain ⟨heights, hrow, hlast⟩ := Option.bind_eq_some_iff.mp h
  have hmem := ExtTreeMap.mem_keys.mp (List.mem_of_getLast? hlast)
  rw [get_of_row hrow]
  exact TreeMap.mem_iff_exists.mp hmem

theorem heavier_eq (a c : ℕ × UInt64 × PublicKey) : heavier a c = a ∨ heavier a c = c := by
  unfold heavier
  split
  · exact .inl rfl
  · exact .inr rfl

variable {order : List PublicKey}

theorem heaviest_held {e : ℕ × UInt64 × PublicKey} (h : b.heaviest order = some e) :
    e.1 = b.voterCount e.2.2 := by
  refine List.foldlRecOn (motive := fun best => ∀ e, best = some e → e.1 = b.voterCount e.2.2)
    _ _ nofun (fun best hbest c hc e he => ?_) e h
  obtain ⟨voter, -, hvoter⟩ := List.mem_filterMap.mp hc
  obtain ⟨heights, hrow, rfl⟩ := Option.map_eq_some_iff.mp hvoter
  have hown := (rowSize_of_row hrow).symm
  cases best with
  | none =>
    cases he
    exact hown
  | some a =>
    have he := Option.some.inj he
    rcases heavier_eq a (heights.size, b.arrival[voter]?.getD 0, voter) with ha | hc
    · exact ha.symm.trans he ▸ hbest a rfl
    · exact hc.symm.trans he ▸ hown

theorem victim_heavier {own : ℕ} {e : PublicKey × UInt64} (h : b.victim order own = some e) :
    own < b.voterCount e.1 ∧ b.farthest e.1 = some e.2 := by
  obtain ⟨⟨count, number, voter⟩, hheavy, h⟩ := Option.bind_eq_some_iff.mp h
  obtain ⟨far, hfar, h⟩ := Option.bind_eq_some_iff.mp h
  split at h
  · rename_i hlt
    cases h
    have hcount : count = b.voterCount voter := heaviest_held hheavy
    exact ⟨hcount ▸ hlt, hfar⟩
  · cases h

/-- How an insertion made room: not at all, from the voter's own votes at the per-voter cap, or at
the total cap from a voter that holds more. -/
inductive Room (caps : Caps) (b : EarlyBuffer) (voter : PublicKey) : EarlyBuffer → Prop
  | none : Room caps b voter b
  | own (far : UInt64) : caps.perVoter.toNat ≤ b.voterCount voter →
      Room caps b voter (b.removeEntry voter far)
  | other (heavy : PublicKey) (far : UInt64) : caps.total ≤ b.len →
      b.voterCount voter < b.voterCount heavy → Room caps b voter (b.removeEntry heavy far)

variable {caps : Caps} {order : List PublicKey}

variable (h : b.Consistent)
include h

variable (hcaps : b.WithinCaps caps)
include hcaps

theorem makeOwnRoom_some (hroom : makeOwnRoom caps b voter height = some b') :
    b' = b ∧ b.voterCount voter < caps.perVoter.toNat ∨
      ∃ far, caps.perVoter.toNat ≤ b.voterCount voter ∧ b' = b.removeEntry voter far ∧
        b'.voterCount voter < caps.perVoter.toNat ∧ b'.len.toNat < caps.total.toNat := by
  unfold makeOwnRoom at hroom
  split at hroom
  · rename_i hfull
    split at hroom
    · rename_i far hfar
      split at hroom
      · cases hroom
        obtain ⟨hash, hheld⟩ := farthest_held hfar
        obtain ⟨hrows, hlen⟩ := h.removeEntry_spec hheld
        have hcount : (b.removeEntry voter far).voterCount voter = b.voterCount voter - 1 := by
          rw [voterCount, hrows, rowSize_drop hheld, if_pos rfl, voterCount]
        have hpos : 0 < b.voterCount voter := rowSize_pos hheld
        have hcap := hcaps.perVoter voter
        have htotal := hcaps.total
        exact .inr ⟨far, hfull, rfl, by omega, by omega⟩
      · cases hroom
    · cases hroom
  · rename_i hroomy
    exact .inl ⟨(Option.some.inj hroom).symm, by omega⟩

theorem makeTotalRoom_some (hroom : makeTotalRoom caps b order voter = some b') :
    b' = b ∧ b.len.toNat < caps.total.toNat ∨
      ∃ heavy far, caps.total ≤ b.len ∧ b.voterCount voter < b.voterCount heavy ∧
        b' = b.removeEntry heavy far ∧ b'.len.toNat < caps.total.toNat := by
  unfold makeTotalRoom at hroom
  split at hroom
  · rename_i hfull
    obtain ⟨⟨heavy, far⟩, hvictim, rfl⟩ := Option.map_eq_some_iff.mp hroom
    obtain ⟨hmore, hfar⟩ := victim_heavier hvictim
    obtain ⟨hash, hheld⟩ := farthest_held hfar
    obtain ⟨-, hlen⟩ := h.removeEntry_spec hheld
    have htotal := hcaps.total
    exact .inr ⟨heavy, far, hfull, hmore, rfl, by omega⟩
  · rename_i hroomy
    rw [UInt64.le_iff_toNat_le, not_le] at hroomy
    exact .inl ⟨(Option.some.inj hroom).symm, hroomy⟩

omit hcaps in
theorem Consistent.get_removeEntry (v : PublicKey) (far : UInt64)
    (hnone : b.byVoter.get voter height = none) :
    (b.removeEntry v far).byVoter.get voter height = none := by
  cases he : b.byVoter.get v far with
  | none => rwa [removeEntry_of_get_none he]
  | some hash =>
    rw [(h.removeEntry_spec he).1, get_drop, hnone, ite_self]

theorem Consistent.insert_cases (vote : CheckpointVote) (order : List PublicKey) :
    (∃ e, b.insert caps vote order = (.error e, b)) ∨
      ∃ mid, b.insert caps vote order = (.ok (), mid.admitVote vote) ∧ Room caps b vote.voter mid ∧
        mid.Consistent ∧ mid.byVoter.get vote.voter vote.height = none ∧
        (∀ voter, mid.voterCount voter ≤ b.voterCount voter) ∧
        mid.voterCount vote.voter < caps.perVoter.toNat ∧ mid.len.toNat < caps.total.toNat := by
  unfold insert
  cases hheld : b.byVoter.get vote.voter vote.height with
  | some held => exact .inl ⟨_, rfl⟩
  | none =>
    cases hown : makeOwnRoom caps b vote.voter vote.height with
    | none => exact .inl ⟨_, rfl⟩
    | some mid =>
      dsimp only
      rcases makeOwnRoom_some h hcaps hown with ⟨rfl, hroomy⟩ | ⟨far, hfull, rfl, hroomy, hlen⟩
      · cases htotal : makeTotalRoom caps mid order vote.voter with
        | none => exact .inl ⟨_, rfl⟩
        | some mid' =>
          rcases makeTotalRoom_some h hcaps htotal with ⟨rfl, hlen⟩ | ⟨heavy, far, hfull, hmore, rfl, hlen⟩
          · exact .inr ⟨mid', rfl, .none, h, hheld, fun _ => le_rfl, hroomy, hlen⟩
          · have hshrinks := h.removeEntry_shrinks heavy far
            exact .inr ⟨_, rfl, .other heavy far hfull hmore, h.removeEntry heavy far,
              h.get_removeEntry heavy far hheld, hshrinks.perVoter,
              (hshrinks.perVoter vote.voter).trans_lt hroomy, hlen⟩
      · -- the displaced vote has made room under the total cap as well
        have hroom : makeTotalRoom caps (b.removeEntry vote.voter far) order vote.voter =
            some (b.removeEntry vote.voter far) := by
          rw [makeTotalRoom, if_neg]
          rw [UInt64.le_iff_toNat_le]
          omega
        rw [hroom]
        exact .inr ⟨_, rfl, .own far hfull, h.removeEntry _ far, h.get_removeEntry _ far hheld,
          (h.removeEntry_shrinks _ far).perVoter, hroomy, hlen⟩

theorem Consistent.insert (vote : CheckpointVote) (order : List PublicKey) :
    (b.insert caps vote order).2.Consistent ∧ (b.insert caps vote order).2.WithinCaps caps := by
  rcases h.insert_cases hcaps vote order with ⟨e, he⟩ | ⟨mid, he, -, hmid, hnone, hless, hroomy, hlen⟩
  · rw [he]
    exact ⟨h, hcaps⟩
  rw [he]
  have hbound := caps.total.toNat_lt_size
  have hlen' : mid.len.toNat + 1 < UInt64.size := by omega
  have hadd : (saturatingAdd mid.len 1).toNat = mid.len.toNat + 1 := saturatingAdd_toNat_of_lt hlen'
  refine ⟨hmid.admitVote hnone hlen', fun v => ?_, ?_⟩
  · rw [admitVote_voterCount hnone]
    split
    · exact hroomy
    · exact (hless v).trans (hcaps.perVoter v)
  · exact hadd.trans_le hlen

end Lemmas

inductive Op
  | insert (vote : CheckpointVote) (order : List PublicKey)
  | takeHeight (height : UInt64)
  | retainHeights (keep : UInt64 → Bool)
  | takeKeys (keys : List (UInt64 × Hash))
  | removeEntry (voter : PublicKey) (height : UInt64)

def Op.run (caps : Caps) (b : EarlyBuffer) : Op → EarlyBuffer
  | insert vote order => (b.insert caps vote order).2
  | takeHeight height => (b.takeHeight height).2
  | retainHeights keep => b.retainHeights keep
  | takeKeys keys => (b.takeKeys keys).2
  | removeEntry voter height => b.removeEntry voter height

theorem Consistent.empty : ({} : EarlyBuffer).Consistent where
  rows := .empty
  slots := .empty
  agree _ _ _ := by simp [NestedMap.get]
  named _ _ _ _ h := by simp [NestedMap.get] at h
  arrived _ := by simp
  counted := (TreeMap.sumBy_empty _).symm
  tallied := (TreeMap.sumBy_empty _).symm

theorem Op.run_sound {caps : Caps} {b : EarlyBuffer} (h : b.Consistent) (hcaps : b.WithinCaps caps)
    (op : Op) : (op.run caps b).Consistent ∧ (op.run caps b).WithinCaps caps := by
  cases op with
  | insert vote order => exact h.insert hcaps vote order
  | takeHeight height | retainHeights keep =>
    exact ⟨h.takeKeys _, hcaps.shrinks (takeKeys_shrinks b _)⟩
  | takeKeys keys => exact ⟨h.takeKeys keys, hcaps.shrinks (takeKeys_shrinks b keys)⟩
  | removeEntry voter height =>
    exact ⟨h.removeEntry voter height, hcaps.shrinks (h.removeEntry_shrinks voter height)⟩

theorem run_sound (caps : Caps) (ops : List Op) :
    (ops.foldl (Op.run caps) {}).Consistent ∧ (ops.foldl (Op.run caps) {}).WithinCaps caps := by
  refine List.foldlRecOn (motive := fun b : EarlyBuffer => b.Consistent ∧ b.WithinCaps caps) ops _ ?_ ?_
  · exact ⟨.empty, fun _ => Nat.zero_le _, Nat.zero_le _⟩
  · exact fun b ⟨h, hcaps⟩ op _ => op.run_sound h hcaps

/-- After every sequence of operations the four parts describe the same entries, a voter has one hash
for a height and the caps hold. A further insertion that is refused changes nothing; one that is
accepted loses at most a vote of the same voter at the per-voter cap, or, at the total cap, one of a
voter that held strictly more. -/
theorem operations_keep_buffer (caps : Caps) (ops : List Op) :
    let b := ops.foldl (Op.run caps) {}
    b.Consistent ∧ b.WithinCaps caps ∧
      (∀ voter height hash hash' vote vote', b.votes.get (height, hash) voter = some vote →
        b.votes.get (height, hash') voter = some vote' → hash = hash') ∧
      ∀ vote order, match b.insert caps vote order with
        | (.error _, b') => b' = b
        | (.ok (), b') => ∀ voter height hash, b.byVoter.get voter height = some hash →
          b'.byVoter.get voter height ≠ some hash →
            voter = vote.voter ∧ caps.perVoter.toNat ≤ b.voterCount voter ∨
              caps.total ≤ b.len ∧ b.voterCount vote.voter < b.voterCount voter := by
  intro b
  obtain ⟨h, hcaps⟩ := run_sound caps ops
  refine ⟨h, hcaps, fun voter height hash hash' vote vote' hv hv' => ?_, fun vote order => ?_⟩
  · have hhash := (h.agree voter height hash).mp ⟨vote, hv⟩
    have hhash' := (h.agree voter height hash').mp ⟨vote', hv'⟩
    exact Option.some.inj (hhash.symm.trans hhash')
  rcases h.insert_cases hcaps vote order with ⟨e, he⟩ | ⟨mid, he, hroom, -, hnone, -⟩
  · rw [he]
  rw [he]
  intro voter height hash hheld hlost
  -- the new vote stands where nothing was held, so the entry was lost in making room
  have hmid : mid.byVoter.get voter height ≠ some hash := by
    intro hget
    refine hlost ?_
    change (mid.byVoter.put _ _ _).get voter height = some hash
    rw [get_put, if_neg, hget]
    rintro ⟨rfl, rfl⟩
    exact nomatch hnone.symm.trans hget
  have hdropped : ∀ v far, (b.removeEntry v far).byVoter.get voter height ≠ some hash → voter = v := by
    intro v far hgone
    cases hv : b.byVoter.get v far with
    | none =>
      rw [removeEntry_of_get_none hv] at hgone
      exact absurd hheld hgone
    | some x =>
      rw [(h.removeEntry_spec hv).1, get_drop] at hgone
      by_contra hne
      exact hgone (by rw [if_neg fun he => hne he.1, hheld])
  cases hroom with
  | none => exact absurd hheld hmid
  | own far hfull =>
    obtain rfl := hdropped _ _ hmid
    exact .inl ⟨rfl, hfull⟩
  | other heavy far hfull hmore =>
    obtain rfl := hdropped _ _ hmid
    exact .inr ⟨hfull, hmore⟩

end EarlyBuffer

end CitrateChain.Consensus
