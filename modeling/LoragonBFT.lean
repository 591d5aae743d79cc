import LoragonBFT.Types
import LoragonBFT.Util.Effects
import LoragonBFT.BitArray
import LoragonBFT.Block
import LoragonBFT.Messages
import LoragonBFT.Chain
import LoragonBFT.EpochState
import LoragonBFT.Pacemaker.State
import LoragonBFT.Pacemaker.Commit
import LoragonBFT.Pacemaker.Handlers
import LoragonBFT.Node
import LoragonBFT.Pacemaker.Core
import LoragonBFT.Pacemaker.Refinement
import LoragonBFT.Pacemaker.Votes
import LoragonBFT.Pacemaker.Proposers
import LoragonBFT.Pacemaker.DraftTree
import LoragonBFT.Pacemaker.CommitLists
import LoragonBFT.QuorumSoundness
import LoragonBFT.BlockBinding
import LoragonBFT.Pacemaker.CommitLoop
import LoragonBFT.Sync
import LoragonBFT.CommitThreads
import LoragonBFT.Network
import LoragonBFT.Agreement
import LoragonBFT.Pacemaker.CommitAtomic
import LoragonBFT.Pacemaker.Standing
import LoragonBFT.AbciDiscipline
import LoragonBFT.QuorumFormation
import LoragonBFT.TimeoutFormation
import LoragonBFT.Pacemaker.Marks
import LoragonBFT.Pacemaker.HighestQC
import LoragonBFT.Pacemaker.CertifiedQC
import LoragonBFT.Pacemaker.LeaderBeats
import LoragonBFT.Pacemaker.VoteCollection
import LoragonBFT.TrunkIndex
import LoragonBFT.HandshakeReplay
import LoragonBFT.ValidatorUpdates
import LoragonBFT.Codec
import LoragonBFT.Persistence
import LoragonBFT.Pacemaker.Acceptance
import LoragonBFT.HeaderChecks
import LoragonBFT.CommitteeChange
import LoragonBFT.CertifiedChain
import LoragonBFT.HonestLeader
import LoragonBFT.GenesisUpdates
import LoragonBFT.AddBlockAtomic
import LoragonBFT.CertificateCache
import LoragonBFT.Envelopes
import LoragonBFT.MessageDigests
import LoragonBFT.Rpc
import LoragonBFT.Escorts
import LoragonBFT.Pacemaker.CommitCalls
import LoragonBFT.CommittedOnce
import LoragonBFT.AppliedUpdates
import LoragonBFT.SharedValidators
import LoragonBFT.DraftMap
import LoragonBFT.Pacemaker.Rounds
import LoragonBFT.Util.Ancestry
import LoragonBFT.Forks
import LoragonBFT.Pacemaker.Reservation
import LoragonBFT.TxLookup
import LoragonBFT.Adapter
import LoragonBFT.Announcements
import LoragonBFT.CommonAncestor
import LoragonBFT.TxStash
import LoragonBFT.NonceOrder
import LoragonBFT.TxPool
import LoragonBFT.BitArraySets
import LoragonBFT.BitArrayQueries
import LoragonBFT.Util.BinaryHeap
import LoragonBFT.Util.Slots
import LoragonBFT.RandCache
import LoragonBFT.PrioCache
import LoragonBFT.QuorumIntersection
import LoragonBFT.Download
import LoragonBFT.StoreRuns
import LoragonBFT.BlockReader
import LoragonBFT.Calls
