import SparkRdma.Foundations.Machine
import SparkRdma.Foundations.Projection
import SparkRdma.Foundations.Ownership
import SparkRdma.Foundations.Ledger
import SparkRdma.Foundations.Blocks
import SparkRdma.Foundations.LinkedList
import SparkRdma.Foundations.KeyedTable
import SparkRdma.Foundations.NotifiedQueue
import SparkRdma.Wire.Layout
import SparkRdma.Wire.Segmentation
import SparkRdma.Wire.Concatenation
import SparkRdma.Java.ByteBuffer
import SparkRdma.Pool.BufferPool
import SparkRdma.Pool.Representation
import SparkRdma.Pool.Accounting
import SparkRdma.Pool.Sequential
import SparkRdma.Pool.Shortage
import SparkRdma.Pool.Tokens
import SparkRdma.QueuePair.Posting
import SparkRdma.QueuePair.Credits
import SparkRdma.QueuePair.Capacity
import SparkRdma.Completion.HandleQueue
import SparkRdma.Completion.RunningFlag
import SparkRdma.Completion.Notification
import SparkRdma.WorkQueue.Reassembly
import SparkRdma.WorkQueue.Handover
import SparkRdma.WorkQueue.Allocation
import SparkRdma.WorkQueue.Chunks
import SparkRdma.WorkQueue.Delivery
import SparkRdma.WorkQueue.ArraySize
import SparkRdma.WorkQueue.Bounds
import SparkRdma.WorkQueue.Network
import SparkRdma.WorkQueue.Lossless
import SparkRdma.WorkQueue.Pointers
import SparkRdma.Connection.PeerTable
import SparkRdma.Connection.Handshake
import SparkRdma.Connection.Exchange
import SparkRdma.Connection.Lifecycle
import SparkRdma.Connection.Steps
import SparkRdma.Connection.Agreement
import SparkRdma.Connection.Sockets
import SparkRdma.Connection.Waiting
import SparkRdma.Wire.Memory
import SparkRdma.Engine.Engine
import SparkRdma.Engine.Owners
import SparkRdma.Engine.Memory
import SparkRdma.Server.Transport
import SparkRdma.Server.Server
import SparkRdma.Server.StartUp
import SparkRdma.Server.Early
import SparkRdma.Server.ShutDown
import SparkRdma.Transport.Alone
import SparkRdma.Transport.Parts
import SparkRdma.Transport.Progress
import SparkRdma.Transport.EndToEnd
import SparkRdma.Transport.Faultless
import SparkRdma.Transport.Quiescence
import SparkRdma.Transport.Recovery
import SparkRdma.Transport.Cluster
import SparkRdma.Transport.Serving
