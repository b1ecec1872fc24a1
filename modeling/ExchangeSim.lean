import ExchangeSim.Book.Audit
import ExchangeSim.Book.Equivalence
import ExchangeSim.Book.FillOrKill
import ExchangeSim.Book.IndexMap
import ExchangeSim.Book.Ledger
import ExchangeSim.Book.Levels
import ExchangeSim.Book.Mentions
import ExchangeSim.Book.Oracle
import ExchangeSim.Book.OrderBook
import ExchangeSim.Book.OrderIndex
import ExchangeSim.Book.OrderStore
import ExchangeSim.Book.PriceBitmap
import ExchangeSim.Book.Priority
import ExchangeSim.Book.PriorityBook
import ExchangeSim.Book.ReferenceBook
import ExchangeSim.Book.ReferenceSound
import ExchangeSim.Book.Refinement
import ExchangeSim.Book.Relabel
import ExchangeSim.Book.Representation
import ExchangeSim.Book.SelfTrade
import ExchangeSim.Book.Simulation
import ExchangeSim.Book.Taker
import ExchangeSim.Book.Touched
import ExchangeSim.Book.Traversal
import ExchangeSim.Common
import ExchangeSim.Engine.Exposure
import ExchangeSim.Engine.RateLimit
import ExchangeSim.Engine.Relabel
import ExchangeSim.Engine.RiskCalls
import ExchangeSim.Engine.RiskGate
import ExchangeSim.Engine.Sinks
import ExchangeSim.Engine.SpscQueue
import ExchangeSim.Gateway.Backup
import ExchangeSim.Gateway.Books
import ExchangeSim.Gateway.Channel
import ExchangeSim.Gateway.ClientIds
import ExchangeSim.Gateway.Commit
import ExchangeSim.Gateway.Core
import ExchangeSim.Gateway.Failover
import ExchangeSim.Gateway.Fencing
import ExchangeSim.Gateway.Gateway
import ExchangeSim.Gateway.IdMap
import ExchangeSim.Gateway.Naming
import ExchangeSim.Gateway.Outputs
import ExchangeSim.Gateway.Published
import ExchangeSim.Gateway.Recovery
import ExchangeSim.Gateway.Replica
import ExchangeSim.Gateway.Server
import ExchangeSim.Gateway.Stored
import ExchangeSim.Gateway.Traffic
import ExchangeSim.Gateway.Translation
import ExchangeSim.Gateway.Unused
import ExchangeSim.Journal.Burst
import ExchangeSim.Journal.Cut
import ExchangeSim.Journal.Damage
import ExchangeSim.Journal.Journal
import ExchangeSim.Journal.Recovery
import ExchangeSim.L3.Accounts
import ExchangeSim.L3.Consumers
import ExchangeSim.L3.Rebuild
import ExchangeSim.L3.SameTruth
import ExchangeSim.L3.TruthBook
import ExchangeSim.L3.TruthIndex
import ExchangeSim.LatencyHistogram
import ExchangeSim.Lib.Bytes
import ExchangeSim.Lib.Cells
import ExchangeSim.Lib.Crc
import ExchangeSim.Lib.Fifo
import ExchangeSim.Lib.Forest
import ExchangeSim.Lib.Framing
import ExchangeSim.Lib.Gcra
import ExchangeSim.Lib.LogLinear
import ExchangeSim.Lib.Loop
import ExchangeSim.Lib.Mixing
import ExchangeSim.Lib.Ring
import ExchangeSim.Lib.RobinHood
import ExchangeSim.Lib.SortedMap
import ExchangeSim.Lib.Trace
import ExchangeSim.MarketData.Book
import ExchangeSim.MarketData.Feed
import ExchangeSim.MarketData.Restart
import ExchangeSim.MarketData.Sync
import ExchangeSim.Mirror.BookMirror
import ExchangeSim.Mirror.Capture
import ExchangeSim.Mirror.Horizon
import ExchangeSim.Mirror.LevelBook
import ExchangeSim.Mirror.TwoPass
import ExchangeSim.Ocaml.Agreement
import ExchangeSim.Ocaml.ExsimRef
import ExchangeSim.Pipeline.Exact
import ExchangeSim.Pipeline.Progress
import ExchangeSim.Pipeline.Rings
import ExchangeSim.Pipeline.Threads
import ExchangeSim.Stream.Datagram
import ExchangeSim.Stream.Publisher
import ExchangeSim.Stream.Requests
import ExchangeSim.Stream.Subscriber
import ExchangeSim.Wire.EventBytes
import ExchangeSim.Wire.Protocol
import ExchangeSim.Wire.Reports
import ExchangeSim.Wire.Stream
import ExchangeSim.Gateway.Crashes
