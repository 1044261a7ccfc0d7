import Lootcoin.Api
import Lootcoin.App.Afford
import Lootcoin.App.Announce
import Lootcoin.App.Displaced
import Lootcoin.App.Entry
import Lootcoin.App.Locks
import Lootcoin.App.Mined
import Lootcoin.App.Network
import Lootcoin.App.Pending
import Lootcoin.App.Pool
import Lootcoin.App.Solo
import Lootcoin.App.Steps
import Lootcoin.App.Stored
import Lootcoin.Chain.Accounts
import Lootcoin.Chain.Append
import Lootcoin.Chain.Apply
import Lootcoin.Chain.Arithmetic
import Lootcoin.Chain.Fork
import Lootcoin.Chain.ForkChoice
import Lootcoin.Chain.Lottery
import Lootcoin.Chain.Odds
import Lootcoin.Chain.Pool
import Lootcoin.Chain.Pruned
import Lootcoin.Chain.Reorder
import Lootcoin.Chain.Reorg
import Lootcoin.Chain.State
import Lootcoin.Chain.Supply
import Lootcoin.Chain.Update
import Lootcoin.Chain.Window
import Lootcoin.Db
import Lootcoin.Db.History
import Lootcoin.Db.Index
import Lootcoin.Db.Keys
import Lootcoin.Db.Payouts
import Lootcoin.Db.Records
import Lootcoin.Encoding
import Lootcoin.Faucet
import Lootcoin.Faucet.RateLimit
import Lootcoin.Gauges
import Lootcoin.Gossip
import Lootcoin.Gossip.Seen
import Lootcoin.Gpu.CubeHash
import Lootcoin.Gpu.Header
import Lootcoin.Gpu.Kernel
import Lootcoin.Gpu.Launch
import Lootcoin.Gpu.Target
import Lootcoin.Head
import Lootcoin.Library.Cidr
import Lootcoin.Library.CubeHash
import Lootcoin.Library.Decimal
import Lootcoin.Library.Double
import Lootcoin.Library.Fallible
import Lootcoin.Library.Flood
import Lootcoin.Library.Greedy
import Lootcoin.Library.HashTable
import Lootcoin.Library.Json
import Lootcoin.Library.Ledger
import Lootcoin.Library.Lexicographic
import Lootcoin.Library.Lines
import Lootcoin.Library.Locks
import Lootcoin.Library.OrderStatistic
import Lootcoin.Library.OrderedTable
import Lootcoin.Library.Race
import Lootcoin.Library.Regroup
import Lootcoin.Library.Residues
import Lootcoin.Library.Runs
import Lootcoin.Library.Transducer
import Lootcoin.Library.Utf8
import Lootcoin.Library.Weights
import Lootcoin.Library.Words
import Lootcoin.Mempool
import Lootcoin.Miner
import Lootcoin.Miner.Selection
import Lootcoin.Node
import Lootcoin.Node.Agreement
import Lootcoin.Node.AllOrNothing
import Lootcoin.Node.Archive
import Lootcoin.Node.Branch
import Lootcoin.Node.Canonical
import Lootcoin.Node.CatchUp
import Lootcoin.Node.Checkpoints
import Lootcoin.Node.Confirmed
import Lootcoin.Node.Converge
import Lootcoin.Node.Difficulty
import Lootcoin.Node.Fed
import Lootcoin.Node.ForkDifficulty
import Lootcoin.Node.Heights
import Lootcoin.Node.Median
import Lootcoin.Node.Mirror
import Lootcoin.Node.Orphans
import Lootcoin.Node.Overflow
import Lootcoin.Node.Quiet
import Lootcoin.Node.Redelivery
import Lootcoin.Node.Restart
import Lootcoin.Node.Restored
import Lootcoin.Node.Snapshots
import Lootcoin.Node.Sound
import Lootcoin.Node.Stale
import Lootcoin.Node.Stored
import Lootcoin.Node.Swapped
import Lootcoin.Node.Tickets
import Lootcoin.Node.Tree
import Lootcoin.Node.View
import Lootcoin.Node.Window
import Lootcoin.Node.Work
import Lootcoin.Peers
import Lootcoin.Peers.Bound
import Lootcoin.Peers.Filter
import Lootcoin.Peers.Guard
import Lootcoin.PlainCore
import Lootcoin.Sample
import Lootcoin.Sse
import Lootcoin.Sse.Subscribers
import Lootcoin.Startup
import Lootcoin.Startup.Account
import Lootcoin.Startup.Anchor
import Lootcoin.Startup.Blocks
import Lootcoin.Startup.Counters
import Lootcoin.Startup.Crash
import Lootcoin.Startup.History
import Lootcoin.Startup.Indexed
import Lootcoin.Startup.Pot
import Lootcoin.Startup.Reorg
import Lootcoin.Startup.Tickets
import Lootcoin.Sync
import Lootcoin.Sync.Untrusted
import Lootcoin.Types
import Lootcoin.Wordcode
