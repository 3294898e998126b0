import CitrateChain.Consensus.CheckpointAgreement
import CitrateChain.Consensus.SignedVotesSafety
import CitrateChain.Consensus.FinalizedChain
import CitrateChain.Execution.StateCommitment
import CitrateChain.Node.AppliedRefinement
import CitrateChain.Execution.RestartRoot
import CitrateChain.Execution.BlockAtomicity
import CitrateChain.Sequencer.ConcurrentAdmission
import CitrateChain.Sequencer.BlockTemplate
import CitrateChain.Bridge.CrossOnce
import CitrateChain.Contracts.RegistrySolvency
import CitrateChain.Contracts.RegistryActiveSet
import CitrateChain.Contracts.EvidenceWindow
import CitrateChain.Contracts.PoolFairness
import CitrateChain.Node.AdmissionConvergence
import CitrateChain.Consensus.WindowedBlue
import CitrateChain.Consensus.ClaimIndependence
import CitrateChain.Node.CertifiedFloor
import CitrateChain.Node.RebuildPlanning
import CitrateChain.Storage.BlockTips
import CitrateChain.Node.UndoRecords
import CitrateChain.Consensus.EarlyBuffer
import CitrateChain.Consensus.SafetyStop
import CitrateChain.Api.EthTxAuthenticity
import CitrateChain.Execution.TxEffects
import CitrateChain.Consensus.SettledHeights
import CitrateChain.Consensus.CommonAncestor
import CitrateChain.Consensus.DagTips
import CitrateChain.Consensus.BodyResidency
import CitrateChain.Consensus.DagPurge
import CitrateChain.Consensus.ProposerSelector
import CitrateChain.Consensus.TotalOrdering
import CitrateChain.Consensus.TxCommitment
import CitrateChain.Node.CatchupGate
import CitrateChain.Node.Reconcile
import CitrateChain.Node.RewardSnapshot
import CitrateChain.Network.SyncManager
import CitrateChain.Commd.DataCommit
