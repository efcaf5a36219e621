import Ns2XPass.Agent.Backlog
import Ns2XPass.Agent.CloseWait
import Ns2XPass.Agent.CreditRate
import Ns2XPass.Agent.EarlyStop
import Ns2XPass.Agent.Exits
import Ns2XPass.Agent.Handlers
import Ns2XPass.Agent.Interference
import Ns2XPass.Agent.Machine
import Ns2XPass.Agent.Moves
import Ns2XPass.Agent.State
import Ns2XPass.Agent.Timers
import Ns2XPass.Classifier.MultiPath
import Ns2XPass.Classifier.Removal
import Ns2XPass.Classifier.Symmetric
import Ns2XPass.Common.Numeric
import Ns2XPass.Common.Packet
import Ns2XPass.Common.TimerHandler
import Ns2XPass.Dccp.AckCalls
import Ns2XPass.Dccp.AckHistory
import Ns2XPass.Dccp.AckItems
import Ns2XPass.Dccp.AckLoss
import Ns2XPass.Dccp.AckMap
import Ns2XPass.Dccp.AckMerge
import Ns2XPass.Dccp.AckOption
import Ns2XPass.Dccp.AckReports
import Ns2XPass.Dccp.AckRuns
import Ns2XPass.Dccp.AckVector
import Ns2XPass.Dccp.AckWalks
import Ns2XPass.Dccp.Connection
import Ns2XPass.Dccp.ConnectionMoves
import Ns2XPass.Dccp.FeatureRuns
import Ns2XPass.Dccp.Features
import Ns2XPass.Dccp.Listeners
import Ns2XPass.Dccp.Negotiation
import Ns2XPass.Dccp.OptionWalks
import Ns2XPass.Dccp.Options
import Ns2XPass.Dccp.Pipe
import Ns2XPass.Dccp.PipeBooks
import Ns2XPass.Dccp.PipeRuns
import Ns2XPass.Dccp.PipeScan
import Ns2XPass.Dccp.PipeStore
import Ns2XPass.Dccp.SendBuffer
import Ns2XPass.Dccp.TcpLike
import Ns2XPass.Dccp.Timeouts
import Ns2XPass.Dccp.TimerRuns
import Ns2XPass.Diffserv.FlowAccounting
import Ns2XPass.Diffserv.FlowTable
import Ns2XPass.Diffserv.Markers
import Ns2XPass.Diffserv.PolicyTables
import Ns2XPass.FullTcp.Agent
import Ns2XPass.FullTcp.Delivery
import Ns2XPass.FullTcp.Flags
import Ns2XPass.FullTcp.Frames
import Ns2XPass.FullTcp.Input
import Ns2XPass.FullTcp.Sack
import Ns2XPass.FullTcp.Shift
import Ns2XPass.Library.Ahead
import Ns2XPass.Library.Bag
import Ns2XPass.Library.BinaryHeap
import Ns2XPass.Library.Channel
import Ns2XPass.Library.DoublyLinked
import Ns2XPass.Library.Except
import Ns2XPass.Library.FluidBucket
import Ns2XPass.Library.Intervals
import Ns2XPass.Library.Iterator
import Ns2XPass.Library.KeyedList
import Ns2XPass.Library.LeastCost
import Ns2XPass.Library.LinkedList
import Ns2XPass.Library.Machine
import Ns2XPass.Library.Path
import Ns2XPass.Library.Places
import Ns2XPass.Library.Probe
import Ns2XPass.Library.Qsort
import Ns2XPass.Library.Ring
import Ns2XPass.Library.RingLinks
import Ns2XPass.Library.Ruler
import Ns2XPass.Library.Simulation
import Ns2XPass.Library.Switch
import Ns2XPass.Library.Tiling
import Ns2XPass.Library.TokenBucket
import Ns2XPass.Library.Window
import Ns2XPass.Nix.BreadthFirst
import Ns2XPass.Nix.RoundTrip
import Ns2XPass.Pair.Completion
import Ns2XPass.Pair.CreditSequence
import Ns2XPass.Pair.Moves
import Ns2XPass.Pair.Quiescence
import Ns2XPass.Pair.Reopening
import Ns2XPass.Pair.Stream
import Ns2XPass.Pair.System
import Ns2XPass.Queue.ActiveFlows
import Ns2XPass.Queue.BucketIndex
import Ns2XPass.Queue.Conformance
import Ns2XPass.Queue.Conservation
import Ns2XPass.Queue.DRR
import Ns2XPass.Queue.DRRBooks
import Ns2XPass.Queue.DRRRuns
import Ns2XPass.Queue.DropTail
import Ns2XPass.Queue.LinkedDropTail
import Ns2XPass.Queue.LinkedQueue
import Ns2XPass.Queue.MatrixRounds
import Ns2XPass.Queue.MatrixShape
import Ns2XPass.Queue.PacketQueue
import Ns2XPass.Queue.Progress
import Ns2XPass.Queue.Quantum
import Ns2XPass.Queue.Reset
import Ns2XPass.Queue.SFQ
import Ns2XPass.Queue.SFQCommands
import Ns2XPass.Queue.SRR
import Ns2XPass.Queue.SRRBooks
import Ns2XPass.Queue.SRRRuns
import Ns2XPass.Queue.TokenArithmetic
import Ns2XPass.Queue.WRRDebt
import Ns2XPass.Queue.WeightMatrix
import Ns2XPass.Queue.XPassDropTail
import Ns2XPass.Reassembly.Adding
import Ns2XPass.Reassembly.Basic
import Ns2XPass.Reassembly.Calls
import Ns2XPass.Reassembly.Clearing
import Ns2XPass.Reassembly.Ends
import Ns2XPass.Reassembly.Flags
import Ns2XPass.Reassembly.Insertion
import Ns2XPass.Reassembly.Joining
import Ns2XPass.Reassembly.Links
import Ns2XPass.Reassembly.NextHole
import Ns2XPass.Reassembly.Recency
import Ns2XPass.Reassembly.Runs
import Ns2XPass.Reassembly.Shift
import Ns2XPass.Reassembly.Stream
import Ns2XPass.Routing.DistanceVector
import Ns2XPass.Routing.DvRuns
import Ns2XPass.Routing.Forwarding
import Ns2XPass.Routing.HierGraph
import Ns2XPass.Routing.HierLookups
import Ns2XPass.Routing.HierMatrices
import Ns2XPass.Routing.HierRoutes
import Ns2XPass.Routing.HierRuns
import Ns2XPass.Routing.HierWrites
import Ns2XPass.Routing.LinkMatrix
import Ns2XPass.Routing.LinkState
import Ns2XPass.Routing.LinkStateAcks
import Ns2XPass.Routing.LinkStateRoutes
import Ns2XPass.Routing.LinkStateRuns
import Ns2XPass.Routing.LinkStateTable
import Ns2XPass.Routing.LinkStateUpdates
import Ns2XPass.Routing.MatrixGrowth
import Ns2XPass.Routing.NextHops
import Ns2XPass.Routing.PathMaps
import Ns2XPass.Routing.RouteLogic
import Ns2XPass.Routing.SourceRoutes
import Ns2XPass.Scheduler.Basic
import Ns2XPass.Scheduler.Buckets
import Ns2XPass.Scheduler.Calendar
import Ns2XPass.Scheduler.CalendarCalls
import Ns2XPass.Scheduler.CalendarRings
import Ns2XPass.Scheduler.CalendarRuns
import Ns2XPass.Scheduler.Heap
import Ns2XPass.Scheduler.HeapArray
import Ns2XPass.Scheduler.LinkedCalendar
import Ns2XPass.Scheduler.Search
import Ns2XPass.Scheduler.Splay
import Ns2XPass.Scheduler.Timers
import Ns2XPass.ScoreBoard.Blocks
import Ns2XPass.ScoreBoard.Circular
import Ns2XPass.ScoreBoard.Entries
import Ns2XPass.ScoreBoard.Linux
import Ns2XPass.ScoreBoard.LinuxRuns
import Ns2XPass.ScoreBoard.NextRetran
import Ns2XPass.ScoreBoard.Pass
import Ns2XPass.ScoreBoard.RqBoard
import Ns2XPass.Sink.Acker
import Ns2XPass.Sink.Acks
import Ns2XPass.Sink.SackBlocks
import Ns2XPass.Sink.Sacker
import Ns2XPass.Tcp.RttEstimator
import Ns2XPass.Tcp.SendTimes
