import OsCoursework.Allocator.Accounting
import OsCoursework.Allocator.Availability
import OsCoursework.Allocator.BlockOrderList
import OsCoursework.Allocator.BuddyHeaders
import OsCoursework.Allocator.Calls
import OsCoursework.Allocator.Capacity
import OsCoursework.Allocator.Contents
import OsCoursework.Allocator.Contract
import OsCoursework.Allocator.DoubleFree
import OsCoursework.Allocator.Frame
import OsCoursework.Allocator.FreeList
import OsCoursework.Allocator.Geometry
import OsCoursework.Allocator.Grow
import OsCoursework.Allocator.Header
import OsCoursework.Allocator.History
import OsCoursework.Allocator.InPlace
import OsCoursework.Allocator.InitHeap
import OsCoursework.Allocator.Invariant
import OsCoursework.Allocator.Isolation
import OsCoursework.Allocator.Layout
import OsCoursework.Allocator.Machine
import OsCoursework.Allocator.Merge
import OsCoursework.Allocator.MergeChain
import OsCoursework.Allocator.Placement
import OsCoursework.Allocator.Preservation
import OsCoursework.Allocator.Products
import OsCoursework.Allocator.Realloc
import OsCoursework.Allocator.Replay
import OsCoursework.Allocator.Representation
import OsCoursework.Allocator.Runs
import OsCoursework.Allocator.Split
import OsCoursework.Allocator.Statistics
import OsCoursework.Allocator.World
import OsCoursework.Ban.Authority
import OsCoursework.Ban.Branch
import OsCoursework.Ban.Kernel
import OsCoursework.Ban.Parity
import OsCoursework.FirstFit.BlockList
import OsCoursework.FirstFit.Bump
import OsCoursework.FirstFit.Calls
import OsCoursework.FirstFit.Contract
import OsCoursework.FirstFit.Machine
import OsCoursework.FirstFit.Products
import OsCoursework.FirstFit.Runs
import OsCoursework.Server.CgiOutput
import OsCoursework.Server.Client
import OsCoursework.Server.Confinement
import OsCoursework.Server.Counting
import OsCoursework.Server.Delivery
import OsCoursework.Server.Drain
import OsCoursework.Server.Framing
import OsCoursework.Server.Invariant
import OsCoursework.Server.Log
import OsCoursework.Server.LogDrain
import OsCoursework.Server.LogGrowth
import OsCoursework.Server.LogLock
import OsCoursework.Server.LogRoom
import OsCoursework.Server.LogWakeups
import OsCoursework.Server.Logging
import OsCoursework.Server.Pool
import OsCoursework.Server.Queue
import OsCoursework.Server.Reading
import OsCoursework.Server.Record
import OsCoursework.Server.Request
import OsCoursework.Server.RequestLine
import OsCoursework.Server.RoundTrip
import OsCoursework.Server.Wakeups
import OsCoursework.Shell.Agreement
import OsCoursework.Shell.Alias
import OsCoursework.Shell.AliasGrammar
import OsCoursework.Shell.AliasReplay
import OsCoursework.Shell.AliasRuns
import OsCoursework.Shell.ArgVector
import OsCoursework.Shell.BackgroundSign
import OsCoursework.Shell.Command
import OsCoursework.Shell.CtrlC
import OsCoursework.Shell.Descriptors
import OsCoursework.Shell.DirectoryTree
import OsCoursework.Shell.DiskUsage
import OsCoursework.Shell.Dispatch
import OsCoursework.Shell.Environment
import OsCoursework.Shell.Execute
import OsCoursework.Shell.Expansion
import OsCoursework.Shell.Files
import OsCoursework.Shell.FirstWords
import OsCoursework.Shell.Interrupted
import OsCoursework.Shell.JobRules
import OsCoursework.Shell.JobRuns
import OsCoursework.Shell.JobTable
import OsCoursework.Shell.Jobs
import OsCoursework.Shell.Numbers
import OsCoursework.Shell.Parts
import OsCoursework.Shell.Passwd
import OsCoursework.Shell.PasswdRecords
import OsCoursework.Shell.QuitKill
import OsCoursework.Shell.Restoring
import OsCoursework.Shell.Signals
import OsCoursework.Shell.System
import OsCoursework.Shell.Text
import OsCoursework.Shell.WorkingDirectory
import OsCoursework.Support.BuddyTiling
import OsCoursework.Support.Bytes
import OsCoursework.Support.CString
import OsCoursework.Support.Calls
import OsCoursework.Support.ClientHeap
import OsCoursework.Support.Coalescing
import OsCoursework.Support.Delimiter
import OsCoursework.Support.Dyadic
import OsCoursework.Support.HeaderBlock
import OsCoursework.Support.Interrupts
import OsCoursework.Support.LineCutting
import OsCoursework.Support.LinkedList
import OsCoursework.Support.LinkedQueue
import OsCoursework.Support.Mirror
import OsCoursework.Support.Monitor
import OsCoursework.Support.ParentChain
import OsCoursework.Support.PathResolution
import OsCoursework.Support.Pieces
import OsCoursework.Support.Schedule
import OsCoursework.Support.TerminatedArray
import OsCoursework.Support.Transition
import OsCoursework.Support.Words
