import CleancacheRdma.Lib.Loop
import CleancacheRdma.Lib.System
import CleancacheRdma.Lib.Places
import CleancacheRdma.Lib.Counters
import CleancacheRdma.Lib.LastWrite
import CleancacheRdma.Lib.EventQueue
import CleancacheRdma.Lib.BitFields
import CleancacheRdma.Lib.Bitmap
import CleancacheRdma.Lib.Probing
import CleancacheRdma.Daemon.Basic
import CleancacheRdma.Daemon.HashTable.LinearProbingApprox
import CleancacheRdma.Daemon.HashTable.Scan
import CleancacheRdma.Daemon.HashTable.Refine
import CleancacheRdma.Daemon.HashTable.Busy
import CleancacheRdma.Daemon.HashTable.Stored
import CleancacheRdma.Daemon.PerCPUPool
import CleancacheRdma.Daemon.CountingBloomFilter
import CleancacheRdma.Daemon.KV
import CleancacheRdma.Daemon.Pages
import CleancacheRdma.Daemon.FilterCount
import CleancacheRdma.Daemon.Rdma
import CleancacheRdma.Daemon.Ownership
import CleancacheRdma.Daemon.Content
import CleancacheRdma.Daemon.SingleKey
import CleancacheRdma.Daemon.InclusiveGet
import CleancacheRdma.Daemon.Pollers
import CleancacheRdma.Driver.Backend
import CleancacheRdma.Driver.Filter.Refresh
import CleancacheRdma.Driver.Worker
import CleancacheRdma.Driver.SendBuffer
import CleancacheRdma.Driver.LastPut
import CleancacheRdma.Daemon.Snapshot
import CleancacheRdma.Driver.Filter.Coop
import CleancacheRdma.Daemon.Stock
import CleancacheRdma.Daemon.Circulation
import CleancacheRdma.Daemon.Load
import CleancacheRdma.Daemon.Imm
import CleancacheRdma.Driver.Requests
import CleancacheRdma.Driver.Matching
import CleancacheRdma.Daemon.HashTable.Interleaved
import CleancacheRdma.Driver.Slots
import CleancacheRdma.Driver.GetReply
import CleancacheRdma.Driver.Filter.Shipment
import CleancacheRdma.Driver.Hashtable
import CleancacheRdma.Driver.Filter.Cbf
import CleancacheRdma.Driver.Metadata
import CleancacheRdma.Driver.Filter.CountingRun
import CleancacheRdma.Daemon.Accounting
import CleancacheRdma.Daemon.Updates
import CleancacheRdma.Lib.LastMin
import CleancacheRdma.Daemon.HashTable.Victim
import CleancacheRdma.Daemon.HashTable.Reserved
import CleancacheRdma.Daemon.RetryLoop
import CleancacheRdma.Daemon.ClientAccounting
import CleancacheRdma.Lib.Chain
import CleancacheRdma.Daemon.LfStack
import CleancacheRdma.Driver.World
import CleancacheRdma.Daemon.HashTable.Eviction
import CleancacheRdma.Daemon.Borrowing
import CleancacheRdma.Daemon.Threshold
import CleancacheRdma.Lib.FirstMax
import CleancacheRdma.Daemon.PeerSelection
import CleancacheRdma.Daemon.EvictorRound
import CleancacheRdma.Daemon.FilterTally
import CleancacheRdma.Driver.Filter.Saturation
import CleancacheRdma.Driver.SharedHashtable
import CleancacheRdma.Daemon.Credits
import CleancacheRdma.Lib.Attempt
import CleancacheRdma.Driver.Init
import CleancacheRdma.Lib.Since
import CleancacheRdma.Driver.WorldSteps
import CleancacheRdma.Driver.InTransit
import CleancacheRdma.Driver.Handled
import CleancacheRdma.Driver.WorldInv
import CleancacheRdma.Driver.Absence
import CleancacheRdma.Driver.Learned
import CleancacheRdma.Driver.Coherence
import CleancacheRdma.Driver.Consumed
import CleancacheRdma.Driver.Rejected
import CleancacheRdma.Driver.Longkey
import CleancacheRdma.Driver.Imm
import CleancacheRdma.Daemon.FilterParam
import CleancacheRdma.Driver.FixedStack
import CleancacheRdma.Daemon.HashTable.LockRanges
import CleancacheRdma.Driver.Progress
import CleancacheRdma.Driver.CallsEnd
import CleancacheRdma.Driver.Drain
import CleancacheRdma.Lib.Tokens
import CleancacheRdma.Driver.Connection
import CleancacheRdma.Driver.ConnectionInv
import CleancacheRdma.Driver.ConnectionSteps
import CleancacheRdma.Driver.Handshake
import CleancacheRdma.Driver.Placed
import CleancacheRdma.Driver.HandshakeEnds
import CleancacheRdma.Driver.ConnectionEvents
import CleancacheRdma.Lib.Simulation
import CleancacheRdma.Lib.Overlay
import CleancacheRdma.Daemon.CompletionQueue
import CleancacheRdma.Daemon.HandlerFrame
import CleancacheRdma.Daemon.Linearization
import CleancacheRdma.Lib.RoundRobin
import CleancacheRdma.Daemon.DataPoller
import CleancacheRdma.Driver.PutCounter
