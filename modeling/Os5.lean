import Os5.Fs.Access
import Os5.Fs.Archives
import Os5.Fs.Buffers
import Os5.Fs.Canonical
import Os5.Fs.Counts
import Os5.Fs.Cursors
import Os5.Fs.Delivery
import Os5.Fs.Failures
import Os5.Fs.Keyboard
import Os5.Fs.Listing
import Os5.Fs.Locking
import Os5.Fs.Lookups
import Os5.Fs.MountPoints
import Os5.Fs.MountTree
import Os5.Fs.Mounts
import Os5.Fs.Namespace
import Os5.Fs.Placing
import Os5.Fs.Readdir
import Os5.Fs.Reading
import Os5.Fs.Resolve
import Os5.Fs.Seek
import Os5.Fs.Tarfs
import Os5.Fs.TreeTypes
import Os5.Fs.Wakeups
import Os5.Lib.Bytes
import Os5.Lib.Circular
import Os5.Lib.Cursor
import Os5.Lib.Named
import Os5.Lib.Transition
import Os5.Mem.Break
import Os5.Mem.Collision
import Os5.Mem.Decoding
import Os5.Mem.FindAbove
import Os5.Mem.Granted
import Os5.Mem.KernelHeap
import Os5.Mem.KernelTables
import Os5.Mem.Mapped
import Os5.Mem.OwnFrames
import Os5.Mem.Permissions
import Os5.Mem.Pmm
import Os5.Mem.PmmInit
import Os5.Mem.ReadOnly
import Os5.Mem.SplitRings
import Os5.Mem.StackFaults
import Os5.Mem.StartOver
import Os5.Mem.UserPointers
import Os5.Mem.Windows
import Os5.Proc.Arguments
import Os5.Proc.Execve
import Os5.Proc.Fairness
import Os5.Proc.Family
import Os5.Proc.Frames
import Os5.Proc.Handlers
import Os5.Proc.LoadElf
import Os5.Proc.Nodes
import Os5.Proc.Queues
import Os5.Proc.Scheduler
import Os5.Proc.Signals
import Os5.Proc.Switching
import Os5.Proc.Timer
import Os5.Proc.Turns
import Os5.Proc.Victims
import Os5.Proc.Waitpid
import Os5.User.Commands
import Os5.User.Escapes
import Os5.User.Keys
import Os5.User.Screens
import Os5.User.Shell
import Os5.User.Terminal
