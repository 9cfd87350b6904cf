import OrderRisk.Lib.Machine
import OrderRisk.Lib.Code
import OrderRisk.Lib.Str
import OrderRisk.Lib.Framing
import OrderRisk.Lib.Double
import OrderRisk.Lib.Overwrite
import OrderRisk.Account.Store
import OrderRisk.Account.Conservation
import OrderRisk.Fix.Text
import OrderRisk.Risk.Validator
import OrderRisk.Fix.Parser
import OrderRisk.Fix.Fields
import OrderRisk.Fix.Stream
import OrderRisk.Fix.Grammar
import OrderRisk.Fix.Loop
import OrderRisk.Risk.Wire
import OrderRisk.Fix.Checksum
import OrderRisk.Fix.Client
import OrderRisk.Fix.Segments
import OrderRisk.Fix.Strict
import OrderRisk.Fix.Positions
import OrderRisk.Server.Connection
import OrderRisk.Server.Finalize
import OrderRisk.Server.Response
import OrderRisk.Server.Robust
import OrderRisk.Server.Tape
import OrderRisk.Server.Talk
import OrderRisk.Server.Output
import OrderRisk.Queue.Ring
import OrderRisk.Queue.Sequential
import OrderRisk.Queue.RingInvariant
import OrderRisk.Queue.RingSteps
import OrderRisk.Queue.Delivery
import OrderRisk.Queue.Cells
import OrderRisk.Queue.LockFree
import OrderRisk.Queue.Moves
import OrderRisk.Queue.Counters
import OrderRisk.Queue.Spinners
import OrderRisk.Queue.Emptiness
import OrderRisk.Queue.Claims
import OrderRisk.Queue.Wakeup
import OrderRisk.Queue.Roles
import OrderRisk.Queue.Balance
import OrderRisk.Queue.Spare
import OrderRisk.Pool.ThreadPool
import OrderRisk.Pool.Threads
import OrderRisk.Pool.Ledger
import OrderRisk.Pool.Drain
import OrderRisk.Pool.Hosted
import OrderRisk.Pool.Program
import OrderRisk.Queue.Closing
import OrderRisk.Queue.TaskQueue
import OrderRisk.Queue.Track
import OrderRisk.Queue.Trace
import OrderRisk.Queue.Linearization
import OrderRisk.Queue.Monitor
import OrderRisk.Lib.Linear
import OrderRisk.Risk.Concurrent
import OrderRisk.Risk.Schedule
import OrderRisk.Server.Closing
import OrderRisk.Server.EventLoop
import OrderRisk.Server.Descriptors
import OrderRisk.Server.Engine
import OrderRisk.Server.Answers
import OrderRisk.Server.Funds
import OrderRisk.Server.Conversation
import OrderRisk.Server.Deployed
import OrderRisk.Harness.Results
import OrderRisk.Harness.Tests
import OrderRisk.Lib.Rank
import OrderRisk.Lib.Progress
import OrderRisk.Account.LockFree
import OrderRisk.Queue.Progress
import OrderRisk.Harness.Stats
import OrderRisk.Harness.Slots
import OrderRisk.Lib.Leads
import OrderRisk.Queue.Cost
import OrderRisk.Queue.Alone
import OrderRisk.Pool.CatchUp
import OrderRisk.Pool.Jam
import OrderRisk.Pool.Ending
import OrderRisk.Risk.Onward
import OrderRisk.Harness.Ending
import OrderRisk.Server.Errand
import OrderRisk.Server.Onward
import OrderRisk.Server.Settle
