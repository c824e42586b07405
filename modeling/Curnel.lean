import Curnel.Memory.Runs
import Curnel.Memory.Contents
import Curnel.Interrupts.Delivery
import Curnel.Filesystem.Handles
import Curnel.Paging.AddressSpaces
import Curnel.Lib.Linked
import Curnel.Lib.Radix
import Curnel.Usermode
import Curnel.Paging.Runs
import Curnel.Process.Zombies
import Curnel.Process.Kill
import Curnel.Process.Pending
import Curnel.Pipe.Fork
import Curnel.Pipe.Wakeups
import Curnel.Pipe.Results
import Curnel.Pipe.Identifiers
import Curnel.Filesystem.Reopen
import Curnel.Filesystem.Geometry
import Curnel.Filesystem.Seek
import Curnel.Filesystem.Faults
import Curnel.Filesystem.Cycles
import Curnel.Filesystem.Lookup
import Curnel.Filesystem.Position
import Curnel.Boot
import Curnel.Paging.Sharing
import Curnel.Paging.Ranges
import Curnel.Paging.Rollback
import Curnel.Paging.Accounting
import Curnel.Memory.Restore
import Curnel.Memory.FirstFit
import Curnel.Process.Masks
import Curnel.Process.Running
import Curnel.Process.Fork
import Curnel.Process.Wait
import Curnel.Process.Awaiting
import Curnel.Process.Drain
import Curnel.Process.RoundRobin
import Curnel.Process.Parked
import Curnel.Process.Nesting
import Curnel.Process.Dispatching
import Curnel.Process.Defaults
import Curnel.Process.Resuming
import Curnel.Syscall.Handlers
import Curnel.Syscall.Pointers
import Curnel.Usermode.Program
import Curnel.Process.Sleeping
import Curnel.Process.Ancestry
import Curnel.Process.Keyed
import Curnel.Process.Stacks
import Curnel.Process.StackOwners
import Curnel.Process.Sessions
import Curnel.Descriptors.Channels
import Curnel.Descriptors.Pipes
import Curnel.Descriptors.Routing
import Curnel.Descriptors.Buffers
import Curnel.Terminal
import Curnel.Keyboard.Queue
import Curnel.Keyboard.Line
import Curnel.Keyboard.Modifiers
import Curnel.Numerals.Callers
import Curnel.Coreutils.Words
import Curnel.Coreutils.Echo
import Curnel.Coreutils.Killing
import Curnel.Shell.Editor
import Curnel.Shell.History
import Curnel.Shell.Bounds
import Curnel.Shell.Screen
import Curnel.Filesystem.Entries
import Curnel.Filesystem.ShortNames
