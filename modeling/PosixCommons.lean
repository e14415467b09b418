import PosixCommons.Framework.Runs
import PosixCommons.Framework.Memory
import PosixCommons.Framework.Strings
import PosixCommons.Framework.Ring
import PosixCommons.Framework.Decimal
import PosixCommons.Framework.Directories
import PosixCommons.Common.CString
import PosixCommons.Common.List
import PosixCommons.Common.Kmp
import PosixCommons.Common.BoyerMoore
import PosixCommons.Common.Slice
import PosixCommons.FileIO
import PosixCommons.Directories
import PosixCommons.Event.Basic
import PosixCommons.Event.Kqueue
import PosixCommons.Event.SubmitFailure
import PosixCommons.Reactor.Basic
import PosixCommons.Reactor.Lifecycle
import PosixCommons.Reactor.Threads
import PosixCommons.Reactor.Uninterrupted
import PosixCommons.Reactor.GcList
import PosixCommons.Reactor.Loop
import PosixCommons.Reactor.Release
import PosixCommons.Reactor.Delivery
import PosixCommons.Event.Epoll
import PosixCommons.Ipc
import PosixCommons.IpcDomain
import PosixCommons.IpcSockets
import PosixCommons.IpcThreads
import PosixCommons.IpcNames
import PosixCommons.AsyncLogCli
import PosixCommons.AsyncLogLimits
import PosixCommons.AsyncLogRoll
import PosixCommons.AsyncLogSvr
import PosixCommons.Common.CaseIgnored
import PosixCommons.Common.KmpSearch
import PosixCommons.Common.BinarySearch
import PosixCommons.Reactor.EpollLoop
import PosixCommons.Common.Utils
import PosixCommons.Common.Numbers
import PosixCommons.Framework.Ownership
import PosixCommons.Framework.Graft
import PosixCommons.Framework.Rings
import PosixCommons.Framework.Critical
import PosixCommons.Framework.Lines
import PosixCommons.Framework.Programs
import PosixCommons.Common.TimeStr
import PosixCommons.Common.SliceOps
import PosixCommons.Common.SliceValues
import PosixCommons.Common.SliceContents
import PosixCommons.Common.SliceNumbers
import PosixCommons.Common.SliceOwnership
import PosixCommons.Common.ListOps
import PosixCommons.Common.ListFamily
import PosixCommons.Common.ListTraversal
import PosixCommons.Log
import PosixCommons.AsyncLogExit
import PosixCommons.AsyncLogOnce
import PosixCommons.AsyncLogName
import PosixCommons.AsyncLogText
