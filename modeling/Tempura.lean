import Tempura.Base.FiniteMap
import Tempura.Base.CyclicSearch
import Tempura.Base.Go
import Tempura.Base.Murmur3
import Tempura.Base.Split
import Tempura.Base.Wire
import Tempura.Base.WireWriter
import Tempura.Base.Run
import Tempura.Base.WriteLog
import Tempura.Base.Loop
import Tempura.Base.ObjectTable
import Tempura.Base.Locking
import Tempura.Base.Termination
import Tempura.Base.Serial
import Tempura.Base.Observes
import Tempura.Base.Channel
import Tempura.Base.FanOut
import Tempura.Base.Gather
import Tempura.Base.Program
import Tempura.ConsistentHash
import Tempura.RingHistory
import Tempura.RingLaws
import Tempura.VirtualNamespace
import Tempura.Capacity
import Tempura.PhysicalNamespace
import Tempura.Registry
import Tempura.AdminApi
import Tempura.Checkpoint
import Tempura.TaskToken
import Tempura.Resolver
import Tempura.Grpc
import Tempura.Messages
import Tempura.Handlers
import Tempura.ConnPark
import Tempura.Routing
import Tempura.Rewriting
import Tempura.PollMerge
import Tempura.PollProtocol
import Tempura.PollGoroutines
import Tempura.System
import Tempura.StoreSeparation
import Tempura.Isolation
import Tempura.ConcurrentResolve
import Tempura.Stickiness
import Tempura.TaskAnswers
import Tempura.TokenLoop
import Tempura.TokenParser
import Tempura.Dispatch
import Tempura.QueryAnswers
import Tempura.Completion
import Tempura.StoreFaults
import Tempura.HandlerSafety
import Tempura.Cordon
import Tempura.Accounting
import Tempura.CrashRecovery
import Tempura.SharedRegistry
import Tempura.ConcurrentAdmin
import Tempura.Locking
import Tempura.Atomicity
import Tempura.CheckpointReload
import Tempura.Traffic
import Tempura.InFlight
import Tempura.Tenants
import Tempura.RequestPhases
import Tempura.Linearization
import Tempura.Draining
import Tempura.TrafficSafety
import Tempura.TrafficProgress
import Tempura.TrafficSequential
import Tempura.AdminServer
