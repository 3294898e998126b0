import CitrateChain.Base.Runs
import CitrateChain.Consensus.Block

/-! # Memory of the sync manager

Downloaded headers are evicted down to a byte budget. Nothing takes an entry out of the two download
queues. -/
namespace CitrateChain.Network
open Consensus (Hash Block BlockHeader)
open Transition

structure SyncConfig where
  maxConcurrentDownloads : ℕ := 16
  headerBatchSize : UInt32 := 64

def maxDownloadedHeadersBytes : ℕ := 64 * 1024 * 1024

def estimatedHeaderBytes (h : BlockHeader) : ℕ := h.mergeParentHashes.length * 32 + 384

def headerBytes (headers : List BlockHeader) : ℕ := (headers.map estimatedHeaderBytes).sum

def evictOldest : List BlockHeader → List BlockHeader
  | [] => []
  | h :: hs =>
    if headerBytes (h :: hs) ≤ maxDownloadedHeadersBytes then h :: hs else evictOldest hs

structure SyncManager where
  config : SyncConfig
  currentHeight : UInt64 := 0
  targetHeight : UInt64 := 0
  headerQueue : List Hash := []
  blockQueue : List Hash := []
  downloadedHeaders : List BlockHeader := []

namespace SyncManager

def queueHeaderDownloads (s : SyncManager) (start : Hash) (count : UInt64) : SyncManager :=
  let batch := s.config.headerBatchSize.toNat
  { s with
    headerQueue := s.headerQueue ++ List.replicate (min ((count.toNat + batch - 1) / batch) 10) start }

def startSync (s : SyncManager) (peerHeight : UInt64) (peerHash : Hash) : SyncManager :=
  let target := max s.targetHeight peerHeight
  if target ≤ s.currentHeight then s
  else queueHeaderDownloads { s with targetHeight := target } peerHash
    (Word.saturatingSub target s.currentHeight)

def setTarget (s : SyncManager) (height : UInt64) : SyncManager :=
  if s.targetHeight < height then { s with targetHeight := height } else s

def startBlockDownload (s : SyncManager) : SyncManager :=
  { s with
    blockQueue := s.blockQueue ++
      (s.downloadedHeaders.take s.config.maxConcurrentDownloads).map BlockHeader.blockHash
    downloadedHeaders := [] }

def handleHeaders (s : SyncManager) (headers : List BlockHeader) : Except String SyncManager :=
  match headers.getLast? with
  | none => .ok s
  | some last =>
    if headers.IsChain (·.height < ·.height) then
      let s := { s with downloadedHeaders := evictOldest (s.downloadedHeaders ++ headers) }
      .ok (if s.targetHeight ≤ last.height then s.startBlockDownload else s)
    else .error "non-monotonic header heights in sync response"

/-- `validated` are the blocks that pass the checks, `applied` is the node's own height if wired. -/
def handleBlocks (s : SyncManager) (validated : List Block) (applied : Option UInt64) : SyncManager :=
  match validated.getLast? with
  | none => s
  | some last => { s with currentHeight := applied.getD last.height }

/-- `checkTimeouts` retires pending requests, which are not in the state. -/
inductive Call
  | startSync (peerHeight : UInt64) (peerHash : Hash)
  | setTarget (height : UInt64)
  | handleHeaders (headers : List BlockHeader)
  | handleBlocks (validated : List Block) (applied : Option UInt64)
  | checkTimeouts

def run (s : SyncManager) : Call → SyncManager
  | .startSync peerHeight peerHash => s.startSync peerHeight peerHash
  | .setTarget height => s.setTarget height
  | .handleHeaders headers => (s.handleHeaders headers).toOption.getD s
  | .handleBlocks validated applied => s.handleBlocks validated applied
  | .checkTimeouts => s

def queued (s : SyncManager) : ℕ := s.headerQueue.length + s.blockQueue.length

def Call.adds (c : SyncConfig) : Call → ℕ
  | .startSync _ _ => if c.headerBatchSize = 0 then 0 else 10
  | .handleHeaders headers => if headers = [] then 0 else c.maxConcurrentDownloads
  | _ => 0

/-- The queues hold at most `bound` entries in every run of the configuration. -/
def Bounded (c : SyncConfig) (bound : ℕ) : Prop :=
  ∀ calls s, Runs (run · · = ·) { config := c } calls s → s.queued ≤ bound

variable {c : SyncConfig}

theorem evictOldest_bytes (headers : List BlockHeader) :
    headerBytes (evictOldest headers) ≤ maxDownloadedHeadersBytes := by
  induction headers with
  | nil => simp [evictOldest, headerBytes]
  | cons h hs ih =>
    unfold evictOldest
    split_ifs with hfits
    · exact hfits
    · exact ih

theorem startSync_queued (s : SyncManager) (peerHeight : UInt64) (peerHash : Hash) :
    (s.startSync peerHeight peerHash).queued ≤
      s.queued + (Call.startSync peerHeight peerHash).adds s.config := by
  unfold startSync
  dsimp only
  split_ifs with hold
  · exact Nat.le_add_right _ _
  simp only [queueHeaderDownloads, queued, List.length_append, List.length_replicate, Call.adds]
  split_ifs with hzero
  · simp [hzero]
  · omega

theorem handleHeaders_queued (s : SyncManager) (headers : List BlockHeader) :
    (s.run (.handleHeaders headers)).queued ≤ s.queued + (Call.handleHeaders headers).adds s.config := by
  simp only [run, handleHeaders]
  split
  · exact Nat.le_add_right _ _
  next last hlast =>
  have hne : headers ≠ [] := by
    rintro rfl
    cases hlast
  rw [Call.adds, if_neg hne]
  split_ifs with hchain hdone
  · simp only [Except.toOption, Option.getD_some, startBlockDownload, queued, List.length_append,
      List.length_map, ← Nat.add_assoc]
    exact Nat.add_le_add_left (List.length_take_le _ _) _
  · exact Nat.le_add_right _ _
  · exact Nat.le_add_right _ _

theorem run_queued (s : SyncManager) (call : Call) :
    (s.run call).queued ≤ s.queued + call.adds s.config := by
  cases call with
  | startSync peerHeight peerHash => exact s.startSync_queued peerHeight peerHash
  | setTarget height =>
    simp only [run, setTarget]
    split_ifs <;> exact Nat.le_add_right _ _
  | handleHeaders headers => exact s.handleHeaders_queued headers
  | handleBlocks validated applied =>
    simp only [run, handleBlocks]
    split <;> exact Nat.le_add_right _ _
  | checkTimeouts => exact Nat.le_add_right _ _

theorem run_kept {s : SyncManager} (call : Call)
    (h : s.config = c ∧ headerBytes s.downloadedHeaders ≤ maxDownloadedHeadersBytes) :
    (s.run call).config = c ∧ headerBytes (s.run call).downloadedHeaders ≤ maxDownloadedHeadersBytes := by
  cases call with
  | startSync peerHeight peerHash =>
    simp only [run, startSync]
    split_ifs <;> exact h
  | setTarget height =>
    simp only [run, setTarget]
    split_ifs <;> exact h
  | handleHeaders headers =>
    simp only [run, handleHeaders]
    split
    · exact h
    split_ifs
    · exact ⟨h.1, Nat.zero_le _⟩
    · exact ⟨h.1, evictOldest_bytes _⟩
    · exact h
  | handleBlocks validated applied =>
    simp only [run, handleBlocks]
    split <;> exact h
  | checkTimeouts => exact h

theorem runs_queued {calls : List Call} {s : SyncManager}
    (hr : Runs (run · · = ·) { config := c } calls s) :
    (s.config = c ∧ headerBytes s.downloadedHeaders ≤ maxDownloadedHeadersBytes) ∧
      s.queued ≤ (calls.map (·.adds c)).sum := by
  refine hr.history (P := fun calls s => (s.config = c ∧
      headerBytes s.downloadedHeaders ≤ maxDownloadedHeadersBytes) ∧ s.queued ≤ (calls.map (·.adds c)).sum)
    ⟨⟨rfl, Nat.zero_le _⟩, Nat.zero_le _⟩ ?_
  rintro calls s call _ ⟨hkept, hle⟩ rfl
  refine ⟨run_kept call hkept, (s.run_queued call).trans ?_⟩
  simpa [hkept.1] using hle

theorem not_bounded_of_adding {I : SyncManager → Prop} (call : Call) (h0 : I { config := c })
    (hadds : ∀ s, I s → I (s.run call) ∧ s.queued < (s.run call).queued) (bound : ℕ) : ¬Bounded c bound := by
  have hrun : ∀ n, ∃ calls s, Runs (run · · = ·) { config := c } calls s ∧ I s ∧ n ≤ s.queued := by
    intro n
    induction n with
    | zero => exact ⟨[], _, .refl, h0, Nat.zero_le _⟩
    | succ n ih =>
      obtain ⟨calls, s, hr, hs, hn⟩ := ih
      obtain ⟨hs', hlt⟩ := hadds s hs
      exact ⟨calls ++ [call], _, .step hr rfl, hs', hn.trans_lt hlt⟩
  intro h
  obtain ⟨calls, s, hr, -, hn⟩ := hrun (bound + 1)
  exact absurd (h calls s hr) (not_le.mpr hn)

theorem not_bounded_of_batches (hbatch : c.headerBatchSize ≠ 0) (bound : ℕ) : ¬Bounded c bound := by
  have hpos : 0 < c.headerBatchSize.toNat := Nat.pos_of_ne_zero fun h => hbatch (UInt32.toNat_inj.mp h)
  refine not_bounded_of_adding (I := fun s => s.config = c ∧ s.currentHeight = 0 ∧ s.targetHeight ≤ 1)
    (.startSync 1 0) ⟨rfl, rfl, UInt64.zero_le⟩ ?_ bound
  rintro s ⟨hconfig, hcurrent, htarget⟩
  have hone : (1 : UInt64).toNat + c.headerBatchSize.toNat - 1 = c.headerBatchSize.toNat := by simp
  have hnew : s.startSync 1 0 = { s with targetHeight := 1, headerQueue := s.headerQueue ++ [0] } := by
    rw [startSync, max_eq_right htarget, hcurrent]
    simp only [queueHeaderDownloads, hconfig]
    rw [if_neg (by decide), show Word.saturatingSub 1 0 = 1 from rfl, hone, Nat.div_self hpos]
    rfl
  rw [run, hnew]
  simp [hconfig, hcurrent, queued]

theorem not_bounded_of_downloads (hmax : c.maxConcurrentDownloads ≠ 0) (bound : ℕ) : ¬Bounded c bound := by
  obtain ⟨n, hn⟩ := Nat.exists_eq_succ_of_ne_zero hmax
  let header : BlockHeader := { blockHash := 0 }
  refine not_bounded_of_adding (I := fun s => s.config = c ∧ s.targetHeight = 0 ∧ s.downloadedHeaders = [])
    (.handleHeaders [header]) ⟨rfl, rfl, rfl⟩ ?_ bound
  rintro s ⟨hconfig, htarget, hheaders⟩
  have hkept : evictOldest [header] = [header] := by decide
  simp [run, handleHeaders, hheaders, hkept, htarget, startBlockDownload, hconfig, hn, Except.toOption, queued]

theorem queued_bounded_iff (c : SyncConfig) :
    (∀ calls s, Runs (run · · = ·) { config := c } calls s → s.queued ≤ (calls.map (·.adds c)).sum ∧
      headerBytes s.downloadedHeaders ≤ maxDownloadedHeadersBytes) ∧
    ((∃ bound, Bounded c bound) ↔ c.headerBatchSize = 0 ∧ c.maxConcurrentDownloads = 0) := by
  refine ⟨fun calls s hr => ⟨(runs_queued hr).2, (runs_queued hr).1.2⟩, ⟨?_, ?_⟩⟩
  · rintro ⟨bound, h⟩
    constructor
    · by_contra hbatch
      exact not_bounded_of_batches hbatch bound h
    · by_contra hmax
      exact not_bounded_of_downloads hmax bound h
  · rintro ⟨hbatch, hmax⟩
    have hadds : ∀ call : Call, call.adds c = 0 := by
      rintro (_ | _ | _ | _ | _) <;> simp [Call.adds, hbatch, hmax]
    exact ⟨0, fun calls s hr => by simpa [hadds] using (runs_queued hr).2⟩

theorem queues_grow_without_bound : ¬∃ bound, ∀ calls s,
    Runs (run · · = ·) { config := {} } calls s → s.queued ≤ bound := by
  rintro ⟨bound, h⟩
  exact not_bounded_of_batches (c := {}) (by decide) bound h

end SyncManager

end CitrateChain.Network
