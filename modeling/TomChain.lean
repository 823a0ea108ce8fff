import TomChain.Lib.Keyed
import TomChain.Lib.Decimal
import TomChain.Lib.Runs
import TomChain.Lib.Stations
import TomChain.Lib.Tally
import TomChain.Lib.Pool
import TomChain.Lib.Sharing
import TomChain.Lib.Locks
import TomChain.Lib.Seats
import TomChain.Lib.Counted
import TomChain.Lib.Ledger
import TomChain.Lib.Halting
import TomChain.Entity.Block
import TomChain.Entity.Flexbuffers
import TomChain.Entity.Msgpack
import TomChain.Entity.Adaptors
import TomChain.Server.State
import TomChain.Server.Handlers
import TomChain.Server.Threads
import TomChain.Server.Heap
import TomChain.Server.Life
import TomChain.Server.Pointers
import TomChain.Server.Backlog
import TomChain.Server.Locks
import TomChain.Server.Serve
import TomChain.Server.Counting
import TomChain.Server.PackBlock
import TomChain.Server.Offers
import TomChain.Server.Loops
import TomChain.Server.Reaping
import TomChain.Client.Client
import TomChain.Client.Replay
import TomChain.System.Step
import TomChain.System.Reach
import TomChain.System.Flow
import TomChain.System.Packing
import TomChain.System.Content
import TomChain.System.Ballots
import TomChain.System.Votes
import TomChain.System.Digest
import TomChain.System.Store
import TomChain.System.Pipeline
import TomChain.System.PoolLimit
import TomChain.System.Labels
import TomChain.System.Lifecycle
import TomChain.System.Barrier
import TomChain.System.Transit
import TomChain.System.Delivery
import TomChain.System.Agreement
import TomChain.System.Keys
import TomChain.System.Aggregation
import TomChain.System.Failures
import TomChain.System.Quorum
import TomChain.System.Startup
import TomChain.System.Pulls
import TomChain.System.Signing
import TomChain.System.Repeats
import TomChain.System.Rounds
import TomChain.System.Headers
import TomChain.System.Routing
import TomChain.System.Ledger
import TomChain.System.Transactions
import TomChain.System.Finality
import TomChain.System.Signatures
import TomChain.System.Callers
import TomChain.System.Progress
import TomChain.System.Work
import TomChain.System.Settling
import TomChain.System.Winding
import TomChain.System.Atomicity
import TomChain.System.Custody
import TomChain.System.Recovery
