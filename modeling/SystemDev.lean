import SystemDev.Library.Run
import SystemDev.Library.Scan
import SystemDev.Library.Simulation
import SystemDev.Library.Fuel
import SystemDev.Library.CInt
import SystemDev.Library.ByteOrder
import SystemDev.Library.HostWord
import SystemDev.Library.HexText
import SystemDev.Library.Logarithm
import SystemDev.Library.KeyedList
import SystemDev.Library.Chain
import SystemDev.Library.Fill
import SystemDev.Library.Count
import SystemDev.Library.Cursor
import SystemDev.Library.Notify
import SystemDev.Library.Pull
import SystemDev.Library.Probe
import SystemDev.Library.ExchangeSort
import SystemDev.Library.SortedEntries
import SystemDev.Library.Closure
import SystemDev.Rdma.Message
import SystemDev.Rdma.HostOrder
import SystemDev.Rdma.Completion
import SystemDev.BitOperations.LogFunction
import SystemDev.Server.Session
import SystemDev.Server.Operations
import SystemDev.Server.Ownership
import SystemDev.Server.Accounting
import SystemDev.Server.Reach
import SystemDev.Server.Messages
import SystemDev.Server.Disconnect
import SystemDev.Server.Evict
import SystemDev.Server.Selection
import SystemDev.Server.Victims
import SystemDev.Server.Collect
import SystemDev.Server.Stops
import SystemDev.Server.Slots
import SystemDev.Server.Threads
import SystemDev.Server.Receives
import SystemDev.Server.Monitor
import SystemDev.Server.SendBuffers
import SystemDev.Server.Meminfo
import SystemDev.Octopus.ChunkList
import SystemDev.Octopus.ChunkSize
import SystemDev.Octopus.Table
import SystemDev.Octopus.Agreement
import SystemDev.Octopus.Connect
import SystemDev.Octopus.Setup
import SystemDev.Octopus.CqHandler
import SystemDev.Octopus.Link
import SystemDev.Octopus.Arming
import SystemDev.Octopus.Credits
import SystemDev.Octopus.Transfer
import SystemDev.Octopus.Backing
import SystemDev.Octopus.CommandPool
import SystemDev.Octopus.Dispatch
import SystemDev.Octopus.Queues
import SystemDev.Octopus.Teardown
import SystemDev.KernelLevel.CqHandler
import SystemDev.KernelLevel.Table
import SystemDev.ReadWrite.Exchange
import SystemDev.BlockDevice.Pagemap
import SystemDev.Instrument.Scanner
import SystemDev.Instrument.Item
import SystemDev.Instrument.Bounds
import SystemDev.Instrument.Descriptor
import SystemDev.Instrument.Prologue
import SystemDev.Instrument.Frame
import SystemDev.Panthera.Rdd
import SystemDev.Panthera.MapReduce
import SystemDev.Panthera.Snapshot
import SystemDev.Panthera.TransitiveClosure
import SystemDev.RedBlack.Node
import SystemDev.RedBlack.Table
import SystemDev.RedBlack.Entries
import SystemDev.RedBlack.Insertion
import SystemDev.RedBlack.Deletion
import SystemDev.RedBlack.Order
import SystemDev.RedBlack.Refinement
import SystemDev.RedBlack.Integrity
import SystemDev.Yak.Buckets
import SystemDev.Yak.Chains
import SystemDev.Yak.Reshuffle
import SystemDev.Yak.RegionLoop
import SystemDev.APlusB.Protocol
import SystemDev.APlusB.Sum
import SystemDev.APlusB.Stranded
