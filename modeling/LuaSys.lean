import LuaSys.Date.Memory
import LuaSys.Date.RoundTrip
import LuaSys.Event.Armed
import LuaSys.Event.CallbackStack
import LuaSys.Event.Count
import LuaSys.Event.Dispatch
import LuaSys.Event.EpollDeletion
import LuaSys.Event.EpollSet
import LuaSys.Event.EventIds
import LuaSys.Event.HandOver
import LuaSys.Event.Kqueue
import LuaSys.Event.PollSelect
import LuaSys.Event.SelectSets
import LuaSys.Event.Signal
import LuaSys.Event.SignalChild
import LuaSys.Event.SignalHandler
import LuaSys.Event.SignalKqueue
import LuaSys.Event.SyncCall
import LuaSys.Event.SyncOps
import LuaSys.Event.TimeoutMap
import LuaSys.Event.Wait
import LuaSys.Event.Win32Answer
import LuaSys.Event.Win32Iocr
import LuaSys.File.Read
import LuaSys.File.ReadBuffer
import LuaSys.File.Write
import LuaSys.Isa.FcgiCuts
import LuaSys.Isa.FcgiFlush
import LuaSys.Isa.FcgiOffsets
import LuaSys.Isa.FcgiOutput
import LuaSys.Isa.FcgiParams
import LuaSys.Isa.FcgiStream
import LuaSys.Mem.Bounds
import LuaSys.Mem.LineStream
import LuaSys.Mem.Output
import LuaSys.Mem.Queue
import LuaSys.Mem.Typed
import LuaSys.Proc.CommandLine
import LuaSys.Sock.Addr
import LuaSys.Thread.CondWait
import LuaSys.Thread.DataPoolWake
import LuaSys.Thread.DataStore
import LuaSys.Thread.Lifecycle
import LuaSys.Thread.PipeClose
import LuaSys.Thread.PipeMsg
import LuaSys.Thread.PipeRetry
import LuaSys.Thread.PipeSize
import LuaSys.Thread.SchedAwake
import LuaSys.Thread.SchedEvents
import LuaSys.Thread.SchedLeave
import LuaSys.Thread.SchedQueue
import LuaSys.Thread.SyncEvent
import LuaSys.Thread.VmObjects
import LuaSys.Thread.VmRefs
