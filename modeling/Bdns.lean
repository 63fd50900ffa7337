import Bdns.Blockchain.Acceptance
import Bdns.Blockchain.Address
import Bdns.Blockchain.Apply
import Bdns.Blockchain.BalanceLedger
import Bdns.Blockchain.Block
import Bdns.Blockchain.Burning
import Bdns.Blockchain.Coins
import Bdns.Blockchain.Commit
import Bdns.Blockchain.CommitFlush
import Bdns.Blockchain.Config
import Bdns.Blockchain.Constructors
import Bdns.Blockchain.Database
import Bdns.Blockchain.DomainEffect
import Bdns.Blockchain.DomainGate
import Bdns.Blockchain.Headroom
import Bdns.Blockchain.Independence
import Bdns.Blockchain.Merkle
import Bdns.Blockchain.MerkleBinding
import Bdns.Blockchain.MerkleShape
import Bdns.Blockchain.Signing
import Bdns.Blockchain.Stake
import Bdns.Blockchain.StandIn
import Bdns.Blockchain.StateHash
import Bdns.Blockchain.Store
import Bdns.Blockchain.Transaction
import Bdns.Blockchain.ValidateBlock
import Bdns.Blockchain.ValidateTransactions
import Bdns.Consensus.Drg
import Bdns.Consensus.DrgPanics
import Bdns.Consensus.Pos
import Bdns.Consensus.StakeWalk
import Bdns.Gateway.Failover
import Bdns.Gateway.Pool
import Bdns.Gateway.ProofResponses
import Bdns.Gateway.Server
import Bdns.Gateway.Subscriptions
import Bdns.Index.Avl
import Bdns.Index.AvlBalance
import Bdns.Index.IndexHash
import Bdns.Index.IndexManager
import Bdns.Index.IndexOverlay
import Bdns.Index.OverlayRefinement
import Bdns.Lib.Binary64
import Bdns.Lib.Bytes
import Bdns.Lib.FiniteMap
import Bdns.Lib.HashTree
import Bdns.Lib.Numeral
import Bdns.Lib.Outcome
import Bdns.Lib.SideBySide
import Bdns.Lib.SortedAssoc
import Bdns.Network.Aliases
import Bdns.Network.Chain
import Bdns.Network.Election
import Bdns.Network.Freshness
import Bdns.Network.Gossip
import Bdns.Network.Leader
import Bdns.Network.LightNode
import Bdns.Network.Node
import Bdns.Network.Pool
import Bdns.Network.Resolver
import Bdns.Network.Rfc1035
import Bdns.Network.SlotLoop
import Bdns.Safety.Agreement
import Bdns.Safety.Applied
import Bdns.Safety.CommitReveal
import Bdns.Safety.Commutation
import Bdns.Safety.Competitor
import Bdns.Safety.Entries
import Bdns.Safety.Forks
import Bdns.Safety.Frames
import Bdns.Safety.Headers
import Bdns.Safety.IndexBinding
import Bdns.Safety.Indexing
import Bdns.Safety.Insertion
import Bdns.Safety.Sync
import Bdns.Safety.Listings
import Bdns.Safety.Registry
import Bdns.Safety.Locations
import Bdns.Safety.MapOrder
import Bdns.Safety.Mempool
import Bdns.Safety.Nonces
import Bdns.Safety.Ownership
import Bdns.Safety.Panics
import Bdns.Safety.Parallel
import Bdns.Safety.Presence
import Bdns.Safety.Provenance
import Bdns.Safety.Purging
import Bdns.Safety.RecordOrder
import Bdns.Safety.Replay
import Bdns.Safety.Replication
import Bdns.Safety.Rerooting
import Bdns.Safety.Resolution
import Bdns.Safety.Schedule
import Bdns.Safety.Sealing
import Bdns.Safety.Slashing
import Bdns.Safety.Solvency
import Bdns.Safety.StakeAccounts
import Bdns.Safety.Supply
import Bdns.Safety.SybilFloor
import Bdns.Safety.Unbonding
