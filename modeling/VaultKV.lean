import VaultKV.Lib.Bytes
import VaultKV.Lib.RecordLog
import VaultKV.Types
import VaultKV.Util
import VaultKV.Crypto
import VaultKV.Wal.Model
import VaultKV.Wal.Format
import VaultKV.Wal.Recovery
import VaultKV.Wal.Reopen
import VaultKV.Lib.Lsm
import VaultKV.MemTable
import VaultKV.Lib.LowerBound
import VaultKV.Lib.Stream
import VaultKV.Sstable.Bloom
import VaultKV.Sstable.Model
import VaultKV.Sstable.Layout
import VaultKV.Sstable.RoundTrip
import VaultKV.Sstable.Faults
import VaultKV.Compaction
import VaultKV.Protocol
import VaultKV.Replication
import VaultKV.Engine.Model
import VaultKV.Engine.Contents
import VaultKV.Engine.History
import VaultKV.Engine.Steps
import VaultKV.Engine.Refine
import VaultKV.Engine.Opening
import VaultKV.Lib.FirstPairs
import VaultKV.Lib.LsmScan
import VaultKV.Engine.Scan
import VaultKV.Engine.Durable
import VaultKV.Engine.Recovery
import VaultKV.Engine.Crash
import VaultKV.Lib.Renumber
import VaultKV.Lib.Election
import VaultKV.Raft.Cluster
import VaultKV.Raft.Refine
import VaultKV.Raft.Safety
import VaultKV.Framing
import VaultKV.Server
import VaultKV.Gateway
import VaultKV.Engine.Order
import VaultKV.Engine.Threads
import VaultKV.Engine.Lanes
import VaultKV.Engine.Writers
import VaultKV.Engine.Readers
import VaultKV.Engine.FlushFaults
import VaultKV.Lib.Trace
import VaultKV.Replica.Model
import VaultKV.Replica.Quorum
import VaultKV.Replica.Agreement
import VaultKV.Gateway.Manager
import VaultKV.Replica.Failover
import VaultKV.Checksum
import VaultKV.Wal.Damage
import VaultKV.Engine.Budget
import VaultKV.Engine.Progress
import VaultKV.Gateway.Tasks
import VaultKV.Compaction.Merge
import VaultKV.Engine.Damage
import VaultKV.Engine.Replies
import VaultKV.Engine.Store
import VaultKV.Engine.Refused
import VaultKV.Codec
import VaultKV.Decoders
import VaultKV.Wal.Access
import VaultKV.Sstable.Damage
import VaultKV.Frontend.Store
import VaultKV.Raft.Node
import VaultKV.Lib.Unordered
import VaultKV.MemTable.Hash
import VaultKV.HexKey
import VaultKV.Lib.Serial
import VaultKV.Server.Loop
import VaultKV.Server.Serial
import VaultKV.Server.Shared
import VaultKV.Server.Descriptors
import VaultKV.Server.Client
import VaultKV.Raft.Progress
import VaultKV.Wal.Capacity
import VaultKV.Lib.Journal
import VaultKV.Wal.Fallback
import VaultKV.Gateway.Connection
import VaultKV.Gateway.Pairing
import VaultKV.Cli
import VaultKV.Cli.Session
import VaultKV.Replica.Transport
import VaultKV.Gateway.Metrics
import VaultKV.Gateway.Leadership
import VaultKV.Startup
