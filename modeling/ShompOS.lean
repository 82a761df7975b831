import ShompOS.Heap.Invariant
import ShompOS.Process.Missing
import ShompOS.Process.ContextSwitch
import ShompOS.Process.Syscalls
import ShompOS.Process.Stacks
import ShompOS.Elf.Safety
import ShompOS.Process.FreshProcess
import ShompOS.Process.Faults
import ShompOS.Fs.Modes
import ShompOS.Fs.Closing
import ShompOS.Fs.Reads
import ShompOS.Fs.Listing
import ShompOS.Fs.Ownership
import ShompOS.Fs.Paths
import ShompOS.Shell.LineEditor
import ShompOS.Fs.Pwd
import ShompOS.Shell.WellFormed
import ShompOS.Fs.Seeking
import ShompOS.Elf.Span
import ShompOS.Fs.Creating
import ShompOS.Elf.Failure
import ShompOS.Fs.Overrun
import ShompOS.Shell.Names
import ShompOS.Shell.Terminal
import ShompOS.Shell.Reachable
import ShompOS.Fs.Twins
import ShompOS.Heap.Break
import ShompOS.Heap.DoubleFree
import ShompOS.Heap.Fit
import ShompOS.Heap.Headers
import ShompOS.Heap.Neutral
import ShompOS.Shell.Parse
import ShompOS.Shell.Screen
import ShompOS.FakeLibc.Compare
import ShompOS.FakeLibc.Tokens
import ShompOS.FileTree
import ShompOS.Heap.Address
import ShompOS.Mnt.Generator
import ShompOS.Mnt.Image
import ShompOS.Mnt.Reproduced
import ShompOS.Process.Dispatch
import ShompOS.Process.Pids
import ShompOS.Fs.LastWrite
import ShompOS.Process.Preemption
import ShompOS.Boot.Pic
import ShompOS.Heap.Independence
import ShompOS.Heap.Counts
import ShompOS.Process.Reuse
import ShompOS.System.Isolation
import ShompOS.Shell.Hearing
import ShompOS.Process.Fairness
