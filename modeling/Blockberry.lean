import Blockberry.BlockStore.CertificateQueries
import Blockberry.BlockStore.Crash
import Blockberry.BlockStore.Equivalence
import Blockberry.BlockStore.HashIndex
import Blockberry.BlockStore.HeaderOnly
import Blockberry.BlockStore.KeyFamilies
import Blockberry.BlockStore.PruneOutcome
import Blockberry.BlockStore.Pruner
import Blockberry.Consensus.HeightVotes
import Blockberry.Consensus.Proposer
import Blockberry.Consensus.ProposerSelection
import Blockberry.Consensus.RepeatedEntries
import Blockberry.Consensus.ValidatorSetStore
import Blockberry.Container.Lifecycle
import Blockberry.Events.Cancellation
import Blockberry.Events.Panics
import Blockberry.Handlers.GossipNetwork
import Blockberry.Handlers.PendingRequests
import Blockberry.Handshake.Failures
import Blockberry.Handshake.Protocol
import Blockberry.Indexer.BatchCommit
import Blockberry.Indexer.HeightSearch
import Blockberry.Mempool.Equivalence
import Blockberry.Mempool.Eviction
import Blockberry.Mempool.Expiry
import Blockberry.Mempool.FailureAtomicity
import Blockberry.Mempool.FirstIn
import Blockberry.Mempool.SimpleReaping
import Blockberry.Node.Connections
import Blockberry.Node.Lifecycle
import Blockberry.Node.StoredBlocks
import Blockberry.P2P.Penalties
import Blockberry.Pex.Capacity
import Blockberry.Security.Eclipse
import Blockberry.Security.SlidingWindow
import Blockberry.StateStore.Retention
import Blockberry.StateStore.Splitting
import Blockberry.StateStore.Truncation
import Blockberry.StateStore.VersionPruning
import Blockberry.Sync.BlocksRequest
import Blockberry.Sync.Cursor
import Blockberry.Sync.NilHeight
import Blockberry.Sync.Parallel
import Blockberry.Sync.StateSyncHash
import Blockberry.Sync.StateSyncOffers
import Blockberry.Sync.StateSyncServing
