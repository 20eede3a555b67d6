import Aesd.Lib.Heap
import Aesd.Lib.Linked
import Aesd.Lib.Owners
import Aesd.Lib.Segments
import Aesd.Lib.Machine
import Aesd.Lib.RwLock
import Aesd.Lib.Ring
import Aesd.Lib.Concat
import Aesd.Lib.Fifo
import Aesd.Lib.Linear
import Aesd.Lib.Slots
import Aesd.Lib.Window
import Aesd.Driver.Kernel
import Aesd.Driver.CircularBuffer
import Aesd.Driver.Device
import Aesd.Driver.CommandLog
import Aesd.Driver.Represents
import Aesd.Driver.Read
import Aesd.Driver.Write
import Aesd.Driver.WriteLog
import Aesd.Driver.Ownership
import Aesd.Driver.Assertions
import Aesd.Driver.Stream
import Aesd.Driver.Seeking
import Aesd.Driver.Positions
import Aesd.Driver.Addressing
import Aesd.Driver.Fifo
import Aesd.Driver.Concurrent
import Aesd.Driver.Following
import Aesd.Driver.Module
import Aesd.Server.Fragments
import Aesd.Server.Scan
import Aesd.Server.Session
import Aesd.Server.Framing
import Aesd.Server.Packets
import Aesd.Server.Store
import Aesd.Server.System
import Aesd.Server.MainThread
import Aesd.Server.Turn
import Aesd.Server.Lifetimes
import Aesd.Server.Delivery
import Aesd.Server.Steps
import Aesd.Server.Sharing
import Aesd.Server.Appends
import Aesd.Server.Leftovers
import Aesd.Server.SeekCommand
import Aesd.Server.Reply
import Aesd.Server.Rewind
import Aesd.Server.Seek
import Aesd.Server.Table
import Aesd.Server.Resources
import Aesd.Server.Shutdown
import Aesd.Server.Clients
import Aesd.Server.Allocation
import Aesd.Server.Survival
import Aesd.Server.Work
import Aesd.Server.Progress
import Aesd.Server.Ending
import Aesd.Server.Hanging
import Aesd.Server.Queue
import Aesd.Server.LinkedServer
import Aesd.Server.Service
import Aesd.Server.Refinement
import Aesd.Server.Syscalls
import Aesd.Server.Process
import Aesd.Examples.Systemcalls
import Aesd.Examples.Threading
