import CitrateChain.Base.MapSum
import CitrateChain.Base.Retention
import CitrateChain.Base.Runs
import CitrateChain.Consensus.Checkpoint

/-! # The proposer selector

The validators with their total stake, kept up to date by each operation, and the recent epoch
snapshots, each judged against the blocks it governs. -/
namespace CitrateChain.Consensus
open TreeMap Word
open Std (ExtTreeMap)

structure Validator where
  pubkey : PublicKey
  stake : ℕ
  isActive : Bool
  deriving DecidableEq

structure SnapshotSet where
  stakes : ExtTreeMap PublicKey ℕ
  minStake : ℕ

def SnapshotSet.ofEntries (entries : List (PublicKey × ℕ)) (minStake : ℕ) : SnapshotSet where
  stakes := entries.foldl (fun stakes e => stakes.insert e.1 e.2) ∅
  minStake := minStake

def SnapshotSet.eligibleMembers (set : SnapshotSet) : List (PublicKey × ℕ) :=
  set.stakes.toList.filter fun member => decide (set.minStake ≤ member.2)

def proposerSetHistorySnapshots : ℕ := 8

structure VrfProposerSelector where
  validators : ExtTreeMap PublicKey Validator := ∅
  totalStake : ℕ := 0
  minStake : ℕ := 0
  snapshotSchedule : Option (UInt64 × UInt64) := none
  history : ExtTreeMap UInt64 SnapshotSet := ∅

inductive VrfError
  | validatorNotFound
  deriving DecidableEq, Repr

def stakeAdd (a b : ℕ) : ℕ := min (a + b) (2 ^ 128 - 1)

namespace VrfProposerSelector

def registerValidator (s : VrfProposerSelector) (v : Validator) : VrfProposerSelector where
  __ := s
  totalStake := if v.isActive then stakeAdd s.totalStake v.stake else s.totalStake
  validators := s.validators.insert v.pubkey v

def removeValidator (s : VrfProposerSelector) (pubkey : PublicKey) :
    Except VrfError VrfProposerSelector :=
  match s.validators[pubkey]? with
  | some v => .ok { s with
      validators := s.validators.erase pubkey
      totalStake := if v.isActive then s.totalStake - v.stake else s.totalStake }
  | none => .error .validatorNotFound

def updateStake (s : VrfProposerSelector) (pubkey : PublicKey) (newStake : ℕ) :
    Except VrfError VrfProposerSelector :=
  match s.validators[pubkey]? with
  | some v => .ok { s with
      totalStake := if v.isActive then stakeAdd (s.totalStake - v.stake) newStake else s.totalStake
      validators := s.validators.insert pubkey { v with stake := newStake } }
  | none => .error .validatorNotFound

def syncActiveSet (s : VrfProposerSelector) (entries : List (PublicKey × ℕ)) (minStake : ℕ) :
    VrfProposerSelector where
  __ := s
  validators := entries.foldl (fun held e => held.insert e.1 ⟨e.1, e.2, true⟩) ∅
  totalStake := entries.foldl (fun sum e => stakeAdd sum e.2) 0
  minStake := minStake

inductive Call
  | registerValidator (v : Validator)
  | removeValidator (pubkey : PublicKey)
  | updateStake (pubkey : PublicKey) (newStake : ℕ)
  | syncActiveSet (entries : List (PublicKey × ℕ)) (minStake : ℕ)

def run (s : VrfProposerSelector) : Call → VrfProposerSelector
  | .registerValidator v => s.registerValidator v
  | .removeValidator pubkey => (s.removeValidator pubkey).toOption.getD s
  | .updateStake pubkey newStake => (s.updateStake pubkey newStake).toOption.getD s
  | .syncActiveSet entries minStake => s.syncActiveSet entries minStake

variable {s t : VrfProposerSelector} {calls : List Call}

def heldStake (s : VrfProposerSelector) : ℕ := sumBy (fun _ v => v.stake) s.validators

/-- A registration is of an active validator whose key is not held, an active set lists no key twice,
and the stakes fit their type. -/
def Regular (s : VrfProposerSelector) : Call → Prop
  | .registerValidator v =>
    v.isActive ∧ v.pubkey ∉ s.validators ∧ s.heldStake + v.stake < 2 ^ 128
  | .removeValidator _ => True
  | .updateStake _ newStake => s.heldStake + newStake < 2 ^ 128
  | .syncActiveSet entries _ => (entries.map Prod.fst).Nodup ∧ (entries.map Prod.snd).sum < 2 ^ 128

theorem stakeAdd_of_lt {a b : ℕ} (h : a + b < 2 ^ 128) : stakeAdd a b = a + b :=
  min_eq_left (Nat.le_sub_one_of_lt h)

structure Totalled (s : VrfProposerSelector) : Prop where
  active : ∀ (k : PublicKey) (v : Validator), s.validators[k]? = some v → v.isActive
  total : s.totalStake = s.heldStake

theorem Totalled.remove {pubkey : PublicKey} (h : Totalled s)
    (ht : s.removeValidator pubkey = .ok t) : Totalled t := by
  unfold removeValidator at ht
  split at ht
  · next v hv =>
    cases ht
    refine ⟨fun k w hw => h.active k w (getElem?_erase_eq_some.mp hw).2, ?_⟩
    have hsum := sumBy_erase (fun _ v => v.stake) hv
    have htotal := h.total
    rw [heldStake, hsum] at htotal
    rw [heldStake, if_pos (h.active pubkey v hv)]
    dsimp only
    omega
  · cases ht

theorem Totalled.update {pubkey : PublicKey} {newStake : ℕ} (h : Totalled s)
    (hfits : s.heldStake + newStake < 2 ^ 128) (ht : s.updateStake pubkey newStake = .ok t) :
    Totalled t := by
  unfold updateStake at ht
  split at ht
  · next v hv =>
    cases ht
    have hactive := h.active pubkey v hv
    refine ⟨fun k w hw => ?_, ?_⟩
    · obtain ⟨-, rfl⟩ | ⟨-, hw⟩ := getElem?_insert_eq_some.mp hw
      · exact hactive
      · exact h.active k w hw
    have hsum := sumBy_erase (fun _ v => v.stake) hv
    have htotal := h.total
    rw [heldStake, hsum] at htotal hfits
    rw [heldStake, if_pos hactive, ← insert_erase, sumBy_insert_of_not_mem _ (not_mem_erase_self _ _),
      stakeAdd_of_lt (by omega)]
    dsimp only
    omega
  · cases ht

theorem foldl_stakeAdd (entries : List (PublicKey × ℕ)) (acc : ℕ)
    (hfits : acc + (entries.map Prod.snd).sum < 2 ^ 128) :
    entries.foldl (fun sum e => stakeAdd sum e.2) acc = acc + (entries.map Prod.snd).sum := by
  induction entries generalizing acc with
  | nil => rfl
  | cons e entries ih =>
    rw [List.map_cons, List.sum_cons] at hfits ⊢
    rw [List.foldl_cons, stakeAdd_of_lt (by omega), ih _ (by omega), Nat.add_assoc]

theorem sumBy_foldl_insert {entries : List (PublicKey × ℕ)} (hnodup : (entries.map Prod.fst).Nodup)
    (held : ExtTreeMap PublicKey Validator) (hnew : ∀ e ∈ entries, e.1 ∉ held) :
    sumBy (fun _ v => v.stake)
        (entries.foldl (fun held e => held.insert e.1 ⟨e.1, e.2, true⟩) held) =
      sumBy (fun _ v => v.stake) held + (entries.map Prod.snd).sum := by
  induction entries generalizing held with
  | nil => rfl
  | cons e entries ih =>
    obtain ⟨hfresh, hnodup⟩ := List.nodup_cons.mp hnodup
    rw [List.foldl_cons, ih hnodup, sumBy_insert_of_not_mem _ (hnew e List.mem_cons_self),
      List.map_cons, List.sum_cons]
    · change e.2 + _ + _ = _
      omega
    · intro e' he' hmem
      obtain heq | hmem := ExtTreeMap.mem_insert.mp hmem
      · rw [Std.LawfulEqCmp.compare_eq_iff_eq] at heq
        exact hfresh (heq ▸ List.mem_map_of_mem he')
      · exact hnew e' (List.mem_cons_of_mem e he') hmem

theorem foldl_insert_active (entries : List (PublicKey × ℕ)) (k : PublicKey) (v : Validator)
    (hv : (entries.foldl (fun held e => held.insert e.1 ⟨e.1, e.2, true⟩)
      (∅ : ExtTreeMap PublicKey Validator))[k]? = some v) : v.isActive := by
  induction entries using List.reverseRecOn with
  | nil => simp at hv
  | append_singleton entries e ih =>
    rw [List.foldl_concat] at hv
    obtain ⟨-, rfl⟩ | ⟨-, hv⟩ := getElem?_insert_eq_some.mp hv
    · rfl
    · exact ih hv

theorem Totalled.run {call : Call} (h : Totalled s) (hregular : s.Regular call) :
    Totalled (s.run call) := by
  cases call with
  | registerValidator v =>
    obtain ⟨hactive, hnew, hfits⟩ := hregular
    refine ⟨fun k w hw => ?_, ?_⟩
    · obtain ⟨-, rfl⟩ | ⟨-, hw⟩ := getElem?_insert_eq_some.mp hw
      · exact hactive
      · exact h.active k w hw
    have hsum := sumBy_insert_of_not_mem (v := v) (fun _ v => v.stake) hnew
    rw [heldStake, VrfProposerSelector.run, registerValidator, hsum]
    rw [if_pos hactive, stakeAdd_of_lt (h.total ▸ hfits), h.total, heldStake, Nat.add_comm]
  | removeValidator pubkey =>
    cases ht : s.removeValidator pubkey with
    | error e => rwa [VrfProposerSelector.run, ht]
    | ok t => rw [VrfProposerSelector.run, ht]; exact h.remove ht
  | updateStake pubkey newStake =>
    cases ht : s.updateStake pubkey newStake with
    | error e => rwa [VrfProposerSelector.run, ht]
    | ok t => rw [VrfProposerSelector.run, ht]; exact h.update hregular ht
  | syncActiveSet entries minStake =>
    obtain ⟨hnodup, hfits⟩ := hregular
    have hsum := sumBy_foldl_insert hnodup ∅ fun _ _ => ExtTreeMap.not_mem_empty
    rw [sumBy_empty] at hsum
    exact ⟨foldl_insert_active entries, (foldl_stakeAdd entries 0 (by omega)).trans hsum.symm⟩

/-- The total is the sum of the stakes of the validators held after every run of regular calls. -/
theorem total_stake_exact
    (hr : Transition.Runs (fun s call t => Regular s call ∧ t = s.run call) {} calls s) :
    s.totalStake = s.heldStake := by
  refine (hr.invariant (P := Totalled) ⟨by simp, (sumBy_empty _).symm⟩ ?_).total
  rintro t call u ht ⟨hregular, rfl⟩
  exact ht.run hregular

theorem total_stake_exact_sync : ∃ s : VrfProposerSelector,
    s.totalStake = 4 ∧ s.heldStake = 4 ∧ s.validators.size = 2 := by
  let calls : List Call := [.registerValidator ⟨1, 5, true⟩, .updateStake 1 7, .removeValidator 1,
    .syncActiveSet [(2, 3), (3, 1)] 1]
  have hr : Transition.Runs (fun s call t => Regular s call ∧ t = s.run call) {} calls _ :=
    .head ⟨by unfold Regular; decide, rfl⟩ <| .head ⟨by unfold Regular; decide, rfl⟩ <|
      .head ⟨trivial, rfl⟩ <| .head ⟨by unfold Regular; decide, rfl⟩ .refl
  exact ⟨_, by decide, (total_stake_exact hr).symm.trans (by decide), by decide⟩

theorem registered_twice_counts_twice :
    (([.registerValidator ⟨1, 5, true⟩, .registerValidator ⟨1, 5, true⟩] : List Call).foldl run {}).totalStake
      = 10 ∧
    (([.registerValidator ⟨1, 5, true⟩, .registerValidator ⟨1, 5, true⟩] : List Call).foldl run {}).heldStake
      = 5 ∧
    (syncActiveSet {} [(1, 5), (1, 5)] 0).totalStake = 10 ∧
    (syncActiveSet {} [(1, 5), (1, 5)] 0).heldStake = 5 ∧
    (registerValidator {} ⟨1, 5, false⟩).totalStake = 0 ∧
    (registerValidator {} ⟨1, 5, false⟩).heldStake = 5 := by
  decide

def withSnapshotSchedule (s : VrfProposerSelector) (epoch lag : UInt64) : VrfProposerSelector :=
  if 0 < epoch ∧ lag < epoch then { s with snapshotSchedule := some (epoch, lag) } else s

def governingSnapshot (s : VrfProposerSelector) (height : UInt64) : Option UInt64 := do
  let (epoch, lag) ← s.snapshotSchedule
  let h ← checkedSub height 1
  let e ← checkedDiv (← checkedAdd h lag) epoch
  if e = 0 then none else checkedSub (← checkedMul e epoch) lag

def popFirst (history : ExtTreeMap UInt64 SnapshotSet) : ExtTreeMap UInt64 SnapshotSet :=
  match history.keys.head? with
  | some height => history.erase height
  | none => history

def recordSnapshot (s : VrfProposerSelector) (snapshotHeight : UInt64) (entries : List (PublicKey × ℕ))
    (minStake : ℕ) : VrfProposerSelector :=
  let history := s.history.insert snapshotHeight (.ofEntries entries minStake)
  { s with history := popFirst^[history.size - proposerSetHistorySnapshots] history }

def epochCommitteeSet (s : VrfProposerSelector) (height : UInt64) :
    Option (UInt64 × List (PublicKey × ℕ)) := do
  let snapshotHeight ← s.governingSnapshot height
  let set ← s.history[snapshotHeight]?
  some (snapshotHeight, set.eligibleMembers)

def snapshotsBelow (epoch lag height : ℕ) : Set ℕ :=
  {n | ∃ E, 1 ≤ E ∧ n + lag = E * epoch ∧ n < height}

theorem isGreatest_snapshotsBelow {epoch lag height n : ℕ} (hlag : lag < epoch) :
    IsGreatest (snapshotsBelow epoch lag height) n ↔
      0 < height ∧ (height - 1 + lag) / epoch ≠ 0 ∧ n = (height - 1 + lag) / epoch * epoch - lag := by
  have hdiv := Nat.div_mul_le_self (height - 1 + lag) epoch
  set e := (height - 1 + lag) / epoch with he
  have hlast : ∀ {m}, m ∈ snapshotsBelow epoch lag height → 0 < height ∧ e ≠ 0 ∧ m ≤ e * epoch - lag := by
    rintro m ⟨E, hE, hm, hlt⟩
    have hEe : E ≤ e := (Nat.le_div_iff_mul_le (by omega)).mpr (by omega)
    have := Nat.mul_le_mul_right epoch hEe
    omega
  have hmem : 0 < height → e ≠ 0 → e * epoch - lag ∈ snapshotsBelow epoch lag height := by
    intro hpos he
    have := Nat.le_mul_of_pos_left epoch (Nat.pos_of_ne_zero he)
    exact ⟨e, Nat.pos_of_ne_zero he, by omega, by omega⟩
  constructor
  · rintro ⟨hn, hgreatest⟩
    obtain ⟨hpos, hne, hle⟩ := hlast hn
    exact ⟨hpos, hne, le_antisymm hle (hgreatest (hmem hpos hne))⟩
  · rintro ⟨hpos, hne, rfl⟩
    exact ⟨hmem hpos hne, fun m hm => (hlast hm).2.2⟩

theorem governingSnapshot_eq_some {epoch lag height n : UInt64} :
    (withSnapshotSchedule {} epoch lag).governingSnapshot height = some n ↔
      lag < epoch ∧ height.toNat - 1 + lag.toNat < UInt64.size ∧
      IsGreatest (snapshotsBelow epoch.toNat lag.toNat height.toNat) n.toNat := by
  by_cases hlag : lag < epoch
  · have hlagN := UInt64.lt_iff_toNat_lt.mp hlag
    have hpos : 0 < epoch := UInt64.lt_iff_toNat_lt.mpr (Nat.zero_lt_of_lt hlagN)
    rw [isGreatest_snapshotsBelow hlagN, withSnapshotSchedule, if_pos ⟨hpos, hlag⟩]
    simp only [governingSnapshot, Option.bind_eq_bind, Option.bind_some, Option.bind_eq_some_iff,
      checkedSub_eq_some, checkedAdd_eq_some, checkedMul_eq_some, checkedDiv,
      Option.ite_none_left_eq_some, Option.some_inj]
    have hone : UInt64.toNat 1 = 1 := rfl
    constructor
    · rintro ⟨h, hh, sum, hsum, _, ⟨-, rfl⟩, hne, product, hproduct, hn⟩
      have hsum : sum.toNat = height.toNat - 1 + lag.toNat := by omega
      rw [← UInt64.toNat_inj, UInt64.toNat_div, hsum] at hne
      rw [UInt64.toNat_div, hsum] at hproduct
      exact ⟨hlag, hsum ▸ sum.toNat_lt_size, by omega, hne, by omega⟩
    rintro ⟨-, hfits, hheight, hne, hn⟩
    have hle := Nat.div_mul_le_self (height.toNat - 1 + lag.toNat) epoch.toNat
    have hge := Nat.le_mul_of_pos_left epoch.toNat (Nat.pos_of_ne_zero hne)
    have hsum := UInt64.toNat_ofNat_of_lt' hfits
    refine ⟨.ofNat (height.toNat - 1), ?_, .ofNat (height.toNat - 1 + lag.toNat), ?_, _,
      ⟨hpos.ne', rfl⟩, ?_, .ofNat ((height.toNat - 1 + lag.toNat) / epoch.toNat * epoch.toNat), ?_, ?_⟩
    · rw [UInt64.toNat_ofNat_of_lt' (by omega)]
      omega
    · rw [hsum, UInt64.toNat_ofNat_of_lt' (by omega)]
    · rw [← UInt64.toNat_inj, UInt64.toNat_div, hsum]
      exact hne
    · rw [UInt64.toNat_ofNat_of_lt' (by omega), UInt64.toNat_div, hsum]
    · rw [UInt64.toNat_ofNat_of_lt' (by omega)]
      omega
  · rw [withSnapshotSchedule, if_neg fun h => hlag h.2]
    simp [governingSnapshot, hlag]

section Retained
variable {snap : UInt64 → List (PublicKey × ℕ) × ℕ} {R : Finset UInt64} {heights : List UInt64}
variable {history : ExtTreeMap UInt64 SnapshotSet}

def heightsOf (history : ExtTreeMap UInt64 SnapshotSet) : Finset UInt64 := history.keys.toFinset

variable {h : UInt64}

theorem mem_heightsOf : h ∈ heightsOf history ↔ h ∈ history := by
  rw [heightsOf, List.mem_toFinset, ExtTreeMap.mem_keys]

theorem card_heightsOf : (heightsOf history).card = history.size :=
  (List.toFinset_card_of_nodup ExtTreeMap.nodup_keys).trans ExtTreeMap.length_keys

theorem heightsOf_insert {set : SnapshotSet} :
    heightsOf (history.insert h set) = insert h (heightsOf history) := by
  ext k
  simp [mem_heightsOf, ExtTreeMap.mem_insert, @eq_comm _ k]

theorem heightsOf_erase : heightsOf (history.erase h) = (heightsOf history).erase h := by
  ext k
  simp [mem_heightsOf, ExtTreeMap.mem_erase, @eq_comm _ k]

theorem popFirst_spec (h : history.size ≠ 0) : ∃ least ∈ heightsOf history,
    (∀ k ∈ heightsOf history, least ≤ k) ∧ popFirst history = history.erase least := by
  rw [← ExtTreeMap.length_keys] at h
  obtain ⟨least, rest, hkeys⟩ := List.exists_cons_of_length_pos (Nat.pos_of_ne_zero h)
  have hmin : history.minKey? = some least := by
    rw [ExtTreeMap.minKey?_eq_head?_keys, hkeys, List.head?_cons]
  have hleast := ExtTreeMap.minKey?_eq_some_iff_getKey?_eq_self_and_forall.mp hmin
  refine ⟨least, mem_heightsOf.mpr (ExtTreeMap.minKey?_mem hmin), fun k hk => ?_, ?_⟩
  · exact Std.isLE_compare.mp (hleast.2 k (mem_heightsOf.mp hk))
  · rw [popFirst, hkeys, List.head?_cons]

structure Recorded (snap : UInt64 → List (PublicKey × ℕ) × ℕ) (base : VrfProposerSelector)
    (R : Finset UInt64) (s : VrfProposerSelector) : Prop where
  rest : s = { base with history := s.history }
  retains : Retention.Retains proposerSetHistorySnapshots R (heightsOf s.history)
  sets : ∀ h set, s.history[h]? = some set → set = SnapshotSet.ofEntries (snap h).1 (snap h).2

theorem Recorded.recordSnapshot (hs : Recorded snap t R s) (h : UInt64) :
    Recorded snap t (insert h R) (s.recordSnapshot h (snap h).1 (snap h).2) := by
  set history := s.history.insert h (.ofEntries (snap h).1 (snap h).2) with hhistory
  have hinsert : heightsOf history = insert h (heightsOf s.history) := heightsOf_insert
  have hrest : ∀ kept, { s with history := kept } = ({ t with history := kept } : VrfProposerSelector) :=
    fun kept => by rw [hs.rest]
  have hsets : ∀ k set, history[k]? = some set → set = SnapshotSet.ofEntries (snap k).1 (snap k).2 := by
    intro k set hk
    obtain ⟨rfl, rfl⟩ | ⟨-, hk⟩ := getElem?_insert_eq_some.mp hk
    · rfl
    · exact hs.sets k set hk
  have hle := hs.retains.card_le
  have hone := Finset.card_insert_le h (heightsOf s.history)
  rw [← hinsert, card_heightsOf] at hone
  by_cases hover : history.size ≤ proposerSetHistorySnapshots
  · have heq : s.recordSnapshot h (snap h).1 (snap h).2 = { s with history := history } := by
      rw [VrfProposerSelector.recordSnapshot, ← hhistory, Nat.sub_eq_zero_of_le hover, Function.iterate_zero_apply]
    rw [heq]
    refine ⟨hrest history, ?_, hsets⟩
    change Retention.Retains _ _ (heightsOf history)
    rw [hinsert]
    exact hs.retains.take (by rwa [← hinsert, card_heightsOf])
  · have hsub : history.size - proposerSetHistorySnapshots = 1 := by omega
    obtain ⟨least, hmem, hleast, hpop⟩ := @popFirst_spec history (by omega)
    have heq : s.recordSnapshot h (snap h).1 (snap h).2 = { s with history := history.erase least } := by
      rw [VrfProposerSelector.recordSnapshot, ← hhistory, hsub, Function.iterate_one, hpop]
    rw [heq]
    refine ⟨hrest _, ?_, fun k set hk => hsets k set (getElem?_erase_eq_some.mp hk).2⟩
    change Retention.Retains _ _ (heightsOf (history.erase least))
    rw [heightsOf_erase, hinsert]
    rw [hinsert] at hmem hleast
    exact hs.retains.replace (by rw [← hinsert, card_heightsOf]; omega) hmem hleast

def recordAll (s : VrfProposerSelector) (snap : UInt64 → List (PublicKey × ℕ) × ℕ)
    (heights : List UInt64) : VrfProposerSelector :=
  heights.foldl (fun s h => s.recordSnapshot h (snap h).1 (snap h).2) s

theorem recordAll_recorded (hempty : t.history = ∅) (heights : List UInt64) :
    Recorded snap t heights.toFinset (t.recordAll snap heights) := by
  induction heights using List.reverseRecOn with
  | nil =>
    have hnone : heightsOf (t.recordAll snap []).history = ∅ := by simp [heightsOf, recordAll, hempty]
    exact ⟨rfl, by rw [hnone]; exact .empty _, by simp [recordAll, hempty]⟩
  | append_singleton heights h ih =>
    rw [recordAll, List.foldl_concat, List.toFinset_append, Finset.union_comm]
    exact ih.recordSnapshot h

theorem Recorded.unique {u : VrfProposerSelector} (hs : Recorded snap t R s) (hu : Recorded snap t R u) :
    s = u := by
  have hkeys : heightsOf s.history = heightsOf u.history :=
    hs.retains.eq_greatest.trans hu.retains.eq_greatest.symm
  have hhistory : s.history = u.history := by
    apply ExtTreeMap.ext_getElem?
    intro h
    have hiff : h ∈ s.history ↔ h ∈ u.history := by rw [← mem_heightsOf, hkeys, mem_heightsOf]
    rw [ExtTreeMap.mem_iff_isSome_getElem?, ExtTreeMap.mem_iff_isSome_getElem?] at hiff
    cases hsh : s.history[h]? <;> cases huh : u.history[h]? <;> simp_all
    exact (hs.sets _ _ hsh).trans (hu.sets _ _ huh).symm
  rw [hs.rest, hu.rest, hhistory]

end Retained

/-- The snapshot that governs a height is the greatest below it, as far as the sum with the lag fits a
word. Nodes that recorded the same heights retain the same snapshots, the eight greatest, and derive
the same committee sets. -/
theorem epoch_snapshot_agreement (epoch lag : UInt64) (snap : UInt64 → List (PublicKey × ℕ) × ℕ)
    {heights heights' : List UInt64} (hsame : heights.toFinset = heights'.toFinset) :
    (∀ height n, (withSnapshotSchedule {} epoch lag).governingSnapshot height = some n ↔
      lag < epoch ∧ height.toNat - 1 + lag.toNat < UInt64.size ∧
      IsGreatest (snapshotsBelow epoch.toNat lag.toNat height.toNat) n.toNat) ∧
    (∀ h, h ∈ ((withSnapshotSchedule {} epoch lag).recordAll snap heights).history ↔
      h ∈ Retention.greatest 8 heights.toFinset) ∧
    ∀ height, ((withSnapshotSchedule {} epoch lag).recordAll snap heights).epochCommitteeSet height =
      ((withSnapshotSchedule {} epoch lag).recordAll snap heights').epochCommitteeSet height := by
  have hempty : (withSnapshotSchedule {} epoch lag).history = ∅ := by
    unfold withSnapshotSchedule
    split <;> rfl
  have hs := @recordAll_recorded _ snap hempty heights
  have hs' := @recordAll_recorded _ snap hempty heights'
  refine ⟨fun height n => governingSnapshot_eq_some, fun h => ?_, fun height => ?_⟩
  · rw [← mem_heightsOf, hs.retains.eq_greatest]
    rfl
  · rw [hs.unique (hsame ▸ hs')]

theorem epoch_snapshot_agreement_reversed :
    (withSnapshotSchedule {} 10 2).governingSnapshot 20 = some 18 ∧
    ((withSnapshotSchedule {} 10 2).recordAll (fun _ => ([(1, 5)], 3)) [8, 18, 8]).epochCommitteeSet 20 =
      ((withSnapshotSchedule {} 10 2).recordAll (fun _ => ([(1, 5)], 3)) [18, 8]).epochCommitteeSet 20 :=
  ⟨by decide, (epoch_snapshot_agreement 10 2 (fun _ => ([(1, 5)], 3)) (by decide)).2.2 20⟩

theorem last_height_ungoverned : ((withSnapshotSchedule {} 3 2).governingSnapshot maxWord = none ∧
    1 ∈ snapshotsBelow 3 2 maxWord.toNat) ∧
    (withSnapshotSchedule {} 3 3).governingSnapshot 10 = none ∧ 3 ∈ snapshotsBelow 3 3 10 :=
  ⟨⟨by decide, 1, by decide, by decide, by decide⟩, by decide, 2, by decide, by decide,
    by decide⟩

end VrfProposerSelector

end CitrateChain.Consensus
