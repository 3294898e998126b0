import CitrateChain.Execution.BlockRewards

/-! # The durable reward snapshot

The policy of an epoch is written with its validators: a header of fixed width, then one entry for each.
The reader separates the list of stakes and the map of stakers that the writer interleaves. -/
namespace CitrateChain.Node
open Std (ExtTreeMap)
open Consensus (PublicKey)
open Execution (Address EpochRewardPolicy)
open Bytes

structure SnapshotPolicy extends EpochRewardPolicy where
  snapshotHeight : UInt64

abbrev StakeEntry := PublicKey × BitVec 128

abbrev RewardSnapshot := SnapshotPolicy × List StakeEntry × BitVec 128

def rewardSnapshotVersion : BitVec 8 := 2

def rewardSnapshotHeaderLen : ℕ := 125

/-- Four bytes hold the count modulo `2 ^ 32`, as the cast of the source does. -/
def encodeHeader (policy : SnapshotPolicy) (count : ℕ) (minStake : BitVec 128) : Bytes :=
  toBe 1 rewardSnapshotVersion.toNat ++ toBe 8 policy.epoch.toNat ++ toBe 8 policy.snapshotHeight.toNat ++
    toBe 8 policy.activationHeight.toNat ++ toBe 20 policy.registry.toNat ++
    toBe 20 policy.rewardMinter.toNat ++ toBe 8 policy.priorityFeeShareBps.toNat ++
    toBe 32 policy.blockSubsidy.toNat ++ toBe 16 minStake.toNat ++ toBe 4 count

def encodeEntry (stakerOf : ExtTreeMap PublicKey Address) (entry : StakeEntry) : Bytes :=
  toBe 32 entry.1.toNat ++ toBe 16 entry.2.toNat ++ toBe 20 (stakerOf.getD entry.1 0).toNat

def encodeRewardSnapshot : RewardSnapshot → Bytes
  | (policy, entries, minStake) =>
    encodeHeader policy entries.length minStake ++ entries.flatMap (encodeEntry policy.stakerOf)

abbrev SnapshotReader := StateT Bytes (Except String)

namespace SnapshotReader

def take (n : ℕ) : SnapshotReader (BitVec (8 * n)) := fun rest =>
  if rest.length < n then .error s!"reward snapshot truncated reading {n} bytes"
  else .ok (.ofNat _ (ofBe (rest.take n)), rest.drop n)

def takeEntries : ℕ → List StakeEntry → ExtTreeMap PublicKey Address →
    SnapshotReader (List StakeEntry × ExtTreeMap PublicKey Address)
  | 0, entries, stakerOf => pure (entries, stakerOf)
  | count + 1, entries, stakerOf => do
    let pubkey ← take 32
    let stake ← take 16
    let staker ← take 20
    takeEntries count (entries ++ [(pubkey, stake)]) (stakerOf.insert pubkey staker)

def takeArray (len : ℕ) (policy : SnapshotPolicy) (minStake : BitVec 128) (count : ℕ) :
    SnapshotReader RewardSnapshot := do
  let need := rewardSnapshotHeaderLen + count * 68
  if len < need then throw s!"reward snapshot truncated: need {need}, have {len}"
  else do
    let (entries, stakerOf) ← takeEntries count [] ∅
    return ({ policy with stakerOf }, entries, minStake)

def takeSnapshot (len : ℕ) : SnapshotReader RewardSnapshot := do
  let version ← take 1
  if version ≠ rewardSnapshotVersion then throw s!"unknown reward snapshot version {version.toNat}"
  else do
    let epoch ← take 8
    let snapshotHeight ← take 8
    let activationHeight ← take 8
    let registry ← take 20
    let rewardMinter ← take 20
    let priorityFeeShareBps ← take 8
    let blockSubsidy ← take 32
    let minStake ← take 16
    let count ← take 4
    let policy : EpochRewardPolicy :=
      { epoch := ⟨epoch⟩, activationHeight := ⟨activationHeight⟩, registry, rewardMinter,
        priorityFeeShareBps := ⟨priorityFeeShareBps⟩, blockSubsidy, stakerOf := ∅ }
    takeArray len { policy with snapshotHeight := ⟨snapshotHeight⟩ } minStake count.toNat

end SnapshotReader

open SnapshotReader

def decodeRewardSnapshot (buf : Bytes) : Except String RewardSnapshot :=
  if buf.length < rewardSnapshotHeaderLen then
    .error s!"reward snapshot too short ({buf.length} bytes)"
  else (takeSnapshot buf.length).run' buf

variable {policy : SnapshotPolicy} {entries : List StakeEntry} {minStake : BitVec 128} {count : ℕ}
  {rest : Bytes} {stakerOf m : ExtTreeMap PublicKey Address}

theorem take_bind {α : Type} {n : ℕ} (x : BitVec (8 * n)) (f : BitVec (8 * n) → SnapshotReader α) :
    (take n >>= f) (toBe n x.toNat ++ rest) = f x rest := by
  have hlen : ¬(toBe n x.toNat ++ rest).length < n := by simp
  have htake : take n (toBe n x.toNat ++ rest) = .ok (x, rest) := by
    rw [take, if_neg hlen, List.take_left' (toBe_length _ _), List.drop_left' (toBe_length _ _),
      ofBe_toBe (toNat_lt n x), BitVec.ofNat_toNat, BitVec.setWidth_eq]
  exact congrArg (· >>= fun r => f r.1 r.2) htake

theorem takeU64_bind {α : Type} (x : UInt64) (f : BitVec 64 → SnapshotReader α) :
    (take 8 >>= f) (toBe 8 x.toNat ++ rest) = f x.toBitVec rest := by
  rw [← UInt64.toNat_toBitVec, take_bind (n := 8)]

theorem length_encodeHeader : (encodeHeader policy count minStake).length = rewardSnapshotHeaderLen := by
  simp [encodeHeader, rewardSnapshotHeaderLen]

theorem length_encodeEntries :
    (entries.flatMap (encodeEntry stakerOf)).length = entries.length * 68 := by
  simp [encodeEntry, List.length_flatMap]

theorem takeEntries_encode (acc : List StakeEntry) :
    takeEntries entries.length acc m (entries.flatMap (encodeEntry stakerOf)) =
      .ok ((acc ++ entries, entries.foldl (fun m e => m.insert e.1 (stakerOf.getD e.1 0)) m), []) := by
  induction entries generalizing acc m with
  | nil => simp [takeEntries]; rfl
  | cons e entries ih =>
    rw [List.flatMap_cons, encodeEntry, List.append_assoc, List.append_assoc, List.length_cons, takeEntries,
      take_bind (n := 32), take_bind (n := 16), take_bind (n := 20), ih]
    simp

theorem decode_header (hcount : count < 2 ^ 32) :
    decodeRewardSnapshot (encodeHeader policy count minStake ++ rest) =
      (takeArray (rewardSnapshotHeaderLen + rest.length) policy minStake count).run' rest := by
  have hlen : (encodeHeader policy count minStake ++ rest).length = rewardSnapshotHeaderLen + rest.length := by
    rw [List.length_append, length_encodeHeader]
  have hword : count = (BitVec.ofNat (8 * 4) count).toNat := (Nat.mod_eq_of_lt hcount).symm
  rw [decodeRewardSnapshot, hlen, if_neg (by omega), encodeHeader, hword]
  simp only [StateT.run', takeSnapshot, List.append_assoc, take_bind (n := 1), if_neg (not_not.mpr rfl), takeU64_bind,
    take_bind (n := 20), take_bind (n := 32), take_bind (n := 16), take_bind (n := 4)]
  rfl

/-- The entries name the keys of the staker map, and there are fewer than `2 ^ 32` of them. -/
structure Listed (snapshot : RewardSnapshot) : Prop where
  nodup : (snapshot.2.1.map Prod.fst).Nodup
  length : snapshot.2.1.length < 2 ^ 32
  keys : ∀ key, key ∈ snapshot.1.stakerOf ↔ key ∈ snapshot.2.1.map Prod.fst

theorem Listed.stakers (h : Listed (policy, entries, minStake)) :
    entries.foldl (fun m e => m.insert e.1 (policy.stakerOf.getD e.1 0)) ∅ = policy.stakerOf := by
  refine ExtTreeMap.ext_getElem? fun key => Option.ext fun staker => ?_
  rw [TreeMap.getElem?_foldl_insert_by h.nodup]
  constructor
  · rintro ⟨e, he, rfl, rfl⟩
    obtain ⟨staker, hstaker⟩ := TreeMap.mem_iff_exists.mp ((h.keys e.1).mpr (List.mem_map_of_mem he))
    rw [ExtTreeMap.getD_eq_getD_getElem?, hstaker, Option.getD_some]
  · intro hstaker
    obtain ⟨e, he, rfl⟩ := List.mem_map.mp ((h.keys key).mp (TreeMap.mem_of_getElem? hstaker))
    exact ⟨e, he, rfl, by rw [ExtTreeMap.getD_eq_getD_getElem?, hstaker, Option.getD_some]⟩

theorem Listed.decode {snapshot : RewardSnapshot} (h : Listed snapshot) :
    decodeRewardSnapshot (encodeRewardSnapshot snapshot) = .ok snapshot := by
  obtain ⟨policy, entries, minStake⟩ := snapshot
  rw [encodeRewardSnapshot, decode_header h.length, length_encodeEntries, takeArray, if_neg (lt_irrefl _)]
  have hentries := @takeEntries_encode entries policy.stakerOf ∅ []
  rw [h.stakers] at hentries
  simp only [StateT.run', StateT.bind, bind, Except.bind, hentries]
  rfl

/-- A snapshot whose entries are the keys of its staker map is read back from its encoding, no proper
prefix of the encoding is accepted, and no other such snapshot has it. -/
theorem reward_snapshot_codec {snapshot : RewardSnapshot} (h : Listed snapshot) :
    decodeRewardSnapshot (encodeRewardSnapshot snapshot) = .ok snapshot ∧
    (∀ buf, buf <+: encodeRewardSnapshot snapshot → buf ≠ encodeRewardSnapshot snapshot →
      ∃ e, decodeRewardSnapshot buf = .error e) ∧
    ∀ other, Listed other → encodeRewardSnapshot other = encodeRewardSnapshot snapshot → other = snapshot := by
  refine ⟨h.decode, fun buf hbuf hne => ?_, fun other hother hsame => ?_⟩
  · obtain ⟨policy, entries, minStake⟩ := snapshot
    by_cases hshort : buf.length < rewardSnapshotHeaderLen
    · exact ⟨_, if_pos hshort⟩
    -- the header is whole, and the array behind it is short of what the count asks for
    obtain ⟨rest, rfl⟩ := List.prefix_of_prefix_length_le (List.prefix_append _ _) hbuf
      (length_encodeHeader.trans_le (not_lt.mp hshort))
    have hlt := lt_of_le_of_ne hbuf.length_le fun hlen => hne (hbuf.eq_of_length hlen)
    rw [encodeRewardSnapshot, List.length_append, List.length_append, length_encodeEntries,
      length_encodeHeader] at hlt
    rw [decode_header h.length, takeArray, if_pos hlt]
    exact ⟨_, rfl⟩
  · have hdecode := hother.decode
    rw [hsame, h.decode] at hdecode
    exact (Except.ok.inj hdecode).symm

def twoStakers : RewardSnapshot :=
  ({ epoch := 3, activationHeight := 0, registry := 7, rewardMinter := 8, priorityFeeShareBps := 5000,
     blockSubsidy := 1, stakerOf := .insert (.insert ∅ 5 9) 6 10, snapshotHeight := 2800 },
    [(6, 2000), (5, 1000)], 100)

theorem reward_snapshot_codec_two_stakers :
    (encodeRewardSnapshot twoStakers).length = 261 ∧
    decodeRewardSnapshot (encodeRewardSnapshot twoStakers) = .ok twoStakers := by
  have h : Listed twoStakers := by
    refine ⟨by decide, by decide, fun key => ?_⟩
    simp [twoStakers, Std.LawfulEqCmp.compare_eq_iff_eq, eq_comm (a := key)]
  exact ⟨by simp [encodeRewardSnapshot, twoStakers, encodeHeader, encodeEntry], (reward_snapshot_codec h).1⟩

end CitrateChain.Node
