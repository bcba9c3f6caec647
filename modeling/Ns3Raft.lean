import Ns3Raft.Core.TimeUnits
import Ns3Raft.Lib.Ledger
import Ns3Raft.Raft.Election
import Ns3Raft.Raft.VoteRule
import Ns3Raft.Raft.PreCommit
import Ns3Raft.Lib.Replication.Safety
import Ns3Raft.Lib.IndexedLog
import Ns3Raft.Store.Reopen
import Ns3Raft.Store.SameContract
import Ns3Raft.Store.RangeReads
import Ns3Raft.Store.Compaction
import Ns3Raft.Raft.Lease
import Ns3Raft.Raft.Applied
import Ns3Raft.Raft.Timer
import Ns3Raft.Raft.ConfFlag
import Ns3Raft.Raft.Forward
import Ns3Raft.Raft.Order
import Ns3Raft.Sim.HeapScheduler
import Ns3Raft.Sim.CalendarRuns
import Ns3Raft.Sim.Execution
import Ns3Raft.Service.Timers
import Ns3Raft.Service.RpcSession
import Ns3Raft.Service.RpcClient
import Ns3Raft.Net.TagRuns
import Ns3Raft.Net.BufferRuns
import Ns3Raft.Net.EndPointDemux
import Ns3Raft.Net.TcpRxReports
import Ns3Raft.Net.Ipv4PartialPacket
import Ns3Raft.Net.Ipv4StaticRouting
import Ns3Raft.Net.NixFields
import Ns3Raft.Wifi.MsduAggregator
import Ns3Raft.Wifi.Defragmentation
import Ns3Raft.Wifi.OriginatorBlockAck
import Ns3Raft.Wifi.MacQueueInsert
import Ns3Raft.Lib.RoundRobin
import Ns3Raft.Traffic.CoDel
import Ns3Raft.Service.BufferCalls
import Ns3Raft.Service.AsioSession
import Ns3Raft.Traffic.CoDelOverflow
import Ns3Raft.Wifi.ReorderBuffer
import Ns3Raft.Wifi.MpduAggregator
import Ns3Raft.Net.TcpChecksum
import Ns3Raft.Olsr.MprComputation
import Ns3Raft.Raft.Quorum
import Ns3Raft.Net.SequenceWidths
import Ns3Raft.Traffic.CoDelNewton
import Ns3Raft.Olsr.ProcessTc
import Ns3Raft.Olsr.HnaRoutes
import Ns3Raft.Olsr.ShortestRoutes
import Ns3Raft.Net.BufferSerializing
import Ns3Raft.Raft.Mirror
import Ns3Raft.Raft.MirrorSteps
import Ns3Raft.Raft.Committed
import Ns3Raft.Raft.Agreement
import Ns3Raft.Raft.LogMatching
import Ns3Raft.Wifi.BlockAckCache
import Ns3Raft.Wifi.BlockAckResponse
import Ns3Raft.Net.TcpRoundTrip
import Ns3Raft.Traffic.FqCoDelRuns
