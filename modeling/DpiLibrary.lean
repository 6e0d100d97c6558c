import DpiLibrary.Foundation.Schedule
import DpiLibrary.Foundation.Cursor
import DpiLibrary.Foundation.Packing
import DpiLibrary.Foundation.Gaps
import DpiLibrary.Foundation.SinceMark
import DpiLibrary.Foundation.Chunks
import DpiLibrary.Foundation.Rounds
import DpiLibrary.Foundation.ByteMemory
import DpiLibrary.Rdma.SendQueue
import DpiLibrary.Rdma.QueuePairs
import DpiLibrary.Rdma.ConnectRuns
import DpiLibrary.Rdma.Manager
import DpiLibrary.Rdma.AllocatorSpec
import DpiLibrary.Rdma.AllocatorSafety
import DpiLibrary.Rdma.AllocatorConservation
import DpiLibrary.Rdma.AllocatorCoverage
import DpiLibrary.Rdma.MergeFreeMem
import DpiLibrary.Rdma.ReceiveWindows
import DpiLibrary.Rdma.MulticastGroups
import DpiLibrary.Foundation.GrownVector
import DpiLibrary.Rdma.DatagramQueues
import DpiLibrary.Rdma.NodeAddresses
import DpiLibrary.Dpi.BufferHandle
import DpiLibrary.Rdma.AllocatorRefusals
import DpiLibrary.Rdma.SnapshotRestore
import DpiLibrary.Rdma.MemoryClients
import DpiLibrary.Dpi.RegistryServer
import DpiLibrary.Dpi.RingAssignment
import DpiLibrary.Dpi.SegmentHeader
import DpiLibrary.Dpi.NodeServer
import DpiLibrary.Dpi.RingAllocation
import DpiLibrary.Dpi.RemoteNode
import DpiLibrary.Dpi.RegistryRuns
import DpiLibrary.Dpi.RingCreation
import DpiLibrary.Dpi.RingIsolation
import DpiLibrary.Dpi.RegistryFailures
import DpiLibrary.Dpi.RegistryClient
import DpiLibrary.Dpi.Ring
import DpiLibrary.Dpi.BufferIterator
import DpiLibrary.Dpi.BufferWriterBW
import DpiLibrary.Dpi.RingSystem
import DpiLibrary.Foundation.LaggedRing
import DpiLibrary.Dpi.RingMemory
import DpiLibrary.Dpi.RingShape
import DpiLibrary.Dpi.AllocatedRing
import DpiLibrary.Dpi.RingProtocol
import DpiLibrary.Dpi.IteratorInvariant
import DpiLibrary.Dpi.RingWalk
import DpiLibrary.Dpi.RingRefinement
import DpiLibrary.Dpi.BandwidthWriter
import DpiLibrary.Dpi.BandwidthRing
import DpiLibrary.Dpi.BufferReader
import DpiLibrary.Dpi.SegmentIterator
import DpiLibrary.Dpi.AppendCloseRead
import DpiLibrary.Dpi.RingLayout
import DpiLibrary.Dpi.BandwidthChain
import DpiLibrary.Dpi.ReaderBounds
import DpiLibrary.Dpi.RepeatedReads
import DpiLibrary.Dpi.BandwidthReclose
import DpiLibrary.Dpi.BandwidthResets
import DpiLibrary.Dpi.DrainedBuffer
import DpiLibrary.Dpi.RoundRobin
import DpiLibrary.Dpi.BufferWriterLat
import DpiLibrary.Dpi.LatencyWriter
import DpiLibrary.Dpi.LatencyRing
import DpiLibrary.Dpi.ClosedAgain
import DpiLibrary.Dpi.LatencyRuns
import DpiLibrary.Dpi.LatencySlots
import DpiLibrary.Dpi.LatencyCredits
import DpiLibrary.Dpi.LatencyChain
import DpiLibrary.Dpi.LatencyReclose
import DpiLibrary.Dpi.LatencyResets
import DpiLibrary.Dpi.SecondClose
import DpiLibrary.Dpi.LatencyStaging
import DpiLibrary.Dpi.BandwidthStaging
import DpiLibrary.Dpi.LatencySizes
import DpiLibrary.Dpi.MemoryApi
import DpiLibrary.Dpi.MemoryApiFailures
import DpiLibrary.Foundation.PartialWrites
import DpiLibrary.Dpi.TornWrites
import DpiLibrary.Dpi.TornSimulation
import DpiLibrary.Dpi.TornIterator
import DpiLibrary.Dpi.TornReads
import DpiLibrary.Rdma.WaitingCalls
import DpiLibrary.Foundation.FairRuns
import DpiLibrary.Dpi.FairDelivery
import DpiLibrary.Dpi.BandwidthDelivery
import DpiLibrary.Dpi.LatencyDelivery
import DpiLibrary.Dpi.BufferWriter
import DpiLibrary.Dpi.BufferFrames
import DpiLibrary.Dpi.Deployment
import DpiLibrary.Dpi.DeploymentRequests
import DpiLibrary.Dpi.DeploymentInvariant
import DpiLibrary.Dpi.DeploymentRuns
import DpiLibrary.Dpi.DeploymentDelivery
import DpiLibrary.Dpi.DeploymentReads
import DpiLibrary.Foundation.AtomicObject
import DpiLibrary.Net.ProtoServer
import DpiLibrary.Net.ServerRuns
import DpiLibrary.Net.ServerRequests
import DpiLibrary.Dpi.ServedRegistry
import DpiLibrary.Rdma.ConnectionCluster
import DpiLibrary.Rdma.ConnectionPairs
import DpiLibrary.Rdma.ManagementQueues
import DpiLibrary.Foundation.Numerals
import DpiLibrary.Foundation.TextLines
import DpiLibrary.Foundation.Assignments
import DpiLibrary.Utils.Config
import DpiLibrary.Utils.Network
import DpiLibrary.Utils.ConfigSettings
import DpiLibrary.Utils.ConfigFormat
import DpiLibrary.Utils.NodeEndpoints
