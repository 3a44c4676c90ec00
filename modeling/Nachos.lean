import Nachos.Base.Transition
import Nachos.Mp4.Formatting
import Nachos.Mp4.Sectors
import Nachos.Mp4.Transfer
import Nachos.Base.Queue
import Nachos.Mp3.Scheduler
import Nachos.Mp3.Kernel
import Nachos.Mp3.Placement
import Nachos.Mp3.Steps
import Nachos.Mp3.Conservation
import Nachos.Mp3.Discipline
import Nachos.Mp3.Waiting
import Nachos.Base.Condition
import Nachos.Base.Ring
import Nachos.Pthreads.TSQueue
import Nachos.Pthreads.Monitor
import Nachos.Pthreads.Pipeline
import Nachos.Pthreads.Ledger
import Nachos.Pthreads.Conservation
import Nachos.Pthreads.Progress
import Nachos.Pthreads.Starvation
import Nachos.Mp1.Console
import Nachos.Mp3.Preemption
import Nachos.Mp1.Atomicity
import Nachos.Base.CString
import Nachos.Mp1.FileSystem
import Nachos.Mp1.OpenFiles
import Nachos.Base.Ownership
import Nachos.Mp2.AddrSpace
import Nachos.Mp2.Frames
import Nachos.Mp2.Spaces
import Nachos.Mp2.Syscall
import Nachos.Mp2.Handler
import Nachos.Base.Tally
import Nachos.Mp2.Lifecycle
import Nachos.Mp2.Handover
import Nachos.Mp2.Halting
import Nachos.Mp2.Reclaiming
import Nachos.Mp4.Headers
import Nachos.Base.Cursor
import Nachos.Mp4.ByteFile
import Nachos.Mp4.Overflow
import Nachos.Mp4.Sizes
import Nachos.Mp4.Opening
import Nachos.Mp4.UserCalls
import Nachos.Mp3.Synch
import Nachos.Mp3.Exclusion
import Nachos.Mp3.Semaphores
import Nachos.Mp3.Signals
import Nachos.Base.Preorder
import Nachos.Mp4.Entries
import Nachos.Mp4.Listing
import Nachos.Mp4.Listed
import Nachos.Mp4.DirectoryMap
import Nachos.Base.Writes
import Nachos.Mp2.Loading
import Nachos.Mp2.Placing
import Nachos.Mp2.Protection
import Nachos.Base.Cells
import Nachos.Mp3.LinkedList
import Nachos.Mp3.Iterators
import Nachos.Mp3.Accounting
import Nachos.Mp3.Comparison
import Nachos.Mp3.CommandLine
import Nachos.Mp3.Priorities
import Nachos.Pthreads.Vector
import Nachos.Pthreads.Scaling
import Nachos.Pthreads.Lifetime
import Nachos.Base.Host
import Nachos.Mp1.Descriptors
import Nachos.Mp1.ReadFile
import Nachos.Mp3.Interrupt
import Nachos.Mp3.SortedList
import Nachos.Mp3.Deadlines
import Nachos.Base.DoubleWord
import Nachos.Mp3.Instruction
import Nachos.Mp3.Multiplication
import Nachos.Mp3.Arithmetic
import Nachos.Base.StringBuffer
import Nachos.Mp4.Splitting
import Nachos.Base.Interleaving
import Nachos.User.Bus
import Nachos.User.Image
import Nachos.User.Machine
import Nachos.User.Places
import Nachos.User.Switching
import Nachos.User.Isolation
import Nachos.User.Unaligned
import Nachos.Base.Service
import Nachos.Devices.Guarded
import Nachos.Devices.Disk
import Nachos.Devices.SynchDisk
import Nachos.Devices.ConsoleInput
import Nachos.Devices.Mail
import Nachos.Devices.PostOfficeOutput
import Nachos.Devices.PostOffice
import Nachos.Base.Trace
import Nachos.Base.FileTree
import Nachos.Mp4.Refinement
import Nachos.Mp4.Answers
import Nachos.Mp4.Restarting
import Nachos.Mp3.HashClients
import Nachos.Mp3.SynchListProgress
import Nachos.Devices.MailBoxes
