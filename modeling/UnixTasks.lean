import UnixTasks.Lib.Run
import UnixTasks.Lib.Lifo
import UnixTasks.Lib.Linearize
import UnixTasks.Lib.CChar
import UnixTasks.Lib.CString
import UnixTasks.Lib.Decimal
import UnixTasks.Lib.Words
import UnixTasks.Lib.Tokens
import UnixTasks.Lib.Dataflow
import UnixTasks.Lib.Scan
import UnixTasks.ShMemory.Machine
import UnixTasks.ShMemory.Rounds
import UnixTasks.ShMemory.LastByte
import UnixTasks.ShStack.Kernel
import UnixTasks.ShStack.Machine
import UnixTasks.ShStack.Exclusion
import UnixTasks.ShStack.Contents
import UnixTasks.ShStack.Sequential
import UnixTasks.ShStack.Slots
import UnixTasks.ShStack.Mutex
import UnixTasks.ShStack.Deadlock
import UnixTasks.ShStack.Attach
import UnixTasks.ShStack.Creation
import UnixTasks.ShStack.Linear
import UnixTasks.ShStack.Patience
import UnixTasks.ShStack.Lifetime
import UnixTasks.ShStack.Generations
import UnixTasks.ShStack.Script
import UnixTasks.ShStack.Scripts
import UnixTasks.ShStack.Stress
import UnixTasks.BizzBuzz.Transfer
import UnixTasks.BizzBuzz.Output
import UnixTasks.BizzBuzz.Program
import UnixTasks.BizzBuzz.Rewind
import UnixTasks.Udp.Server
import UnixTasks.Udp.Messages
import UnixTasks.Udp.Registry
import UnixTasks.Udp.Sessions
import UnixTasks.Udp.Rounds
import UnixTasks.Udp.Unique
import UnixTasks.Udp.Routing
import UnixTasks.Udp.Client
import UnixTasks.Udp.Child
import UnixTasks.Udp.Transmit
import UnixTasks.Udp.Ending
import UnixTasks.Udp.Receiver
import UnixTasks.Udp.Ids
import UnixTasks.Udp.Bounds
import UnixTasks.Udp.Dfke
import UnixTasks.Udp.Shell
import UnixTasks.Udp.BashWork
import UnixTasks.Udp.ShellOutput
import UnixTasks.Udp.Answers
import UnixTasks.Udp.System
import UnixTasks.Udp.Mail
import UnixTasks.Udp.Arrival
import UnixTasks.Tcp.Framing
import UnixTasks.Server.Processes
import UnixTasks.Server.Roles
import UnixTasks.Trans.Machine
import UnixTasks.Trans.Link
import UnixTasks.Trans.Lockstep
import UnixTasks.Trans.Codec
import UnixTasks.Log.Log
import UnixTasks.Log.Bounds
import UnixTasks.Lib.Ring
import UnixTasks.Modules.List
import UnixTasks.Modules.Head
import UnixTasks.Modules.Field
import UnixTasks.Modules.Modulus
import UnixTasks.Lib.ForLoop
import UnixTasks.Inotify.Records
import UnixTasks.Inotify.Watchers
import UnixTasks.Daemon.Machine
import UnixTasks.Daemon.Pairing
import UnixTasks.Daemon.Table
import UnixTasks.Daemon.Buffers
import UnixTasks.Daemon.Requests
import UnixTasks.Daemon.Delivery
import UnixTasks.Lib.FileTree
import UnixTasks.Daemon.System
import UnixTasks.Daemon.Effects
import UnixTasks.Daemon.Coverage
import UnixTasks.Daemon.Backup
import UnixTasks.Daemon.Scan
import UnixTasks.Daemon.Guard
import UnixTasks.Daemon.Room
import UnixTasks.Daemon.InitialScan
import UnixTasks.Grep.Pipeline
import UnixTasks.Grep.Commands
import UnixTasks.Grep.Progress
import UnixTasks.Grep.Output
import UnixTasks.Flocks.Getlk
import UnixTasks.Flocks.Complete
import UnixTasks.Flocks.Locking
import UnixTasks.Flocks.Scanning
import UnixTasks.Lib.MsgQueue
import UnixTasks.Msg.Programs
import UnixTasks.Msg.Senders
import UnixTasks.Msg.Handshake
import UnixTasks.Poll.Printer
import UnixTasks.Socket.Server
