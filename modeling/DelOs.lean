import DelOs.Lib.Transition
import DelOs.Lib.FirstFit
import DelOs.Lib.FlagRuns
import DelOs.Lib.Splice
import DelOs.Memory.HeapTiling
import DelOs.Memory.PmmOwnership
import DelOs.Memory.FreshTable
import DelOs.Memory.HeapFrames
import DelOs.Fs.Stat
import DelOs.Fs.State
import DelOs.Fs.Tmpfs
import DelOs.Fs.Path
import DelOs.Fs.Vfs
import DelOs.Fs.Calls
import DelOs.Fs.FailedWrite
import DelOs.Fs.FileArray
import DelOs.Fs.Tree
import DelOs.Fs.TreeEdit
import DelOs.Fs.Nodes
import DelOs.Fs.DirOps
import DelOs.Fs.PathCalls
import DelOs.Fs.WholePath
import DelOs.Fs.OpenAgrees
import DelOs.Fs.Mount
import DelOs.Lib.Ring
import DelOs.Sched.Scheduler
import DelOs.Lib.Ia32
import DelOs.Sched.RoundRobin
import DelOs.Sched.Context
import DelOs.Sched.Tick
import DelOs.Sched.Preemption
import DelOs.Sched.Boot
import DelOs.Sched.KernelStacks
import DelOs.Sys.Syscall
import DelOs.Sys.SyscallGate
import DelOs.Lib.Attempt
import DelOs.Process.User
import DelOs.Memory.TableFrames
import DelOs.Process.Windows
import DelOs.Process.Directory
import DelOs.Process.UserSpace
import DelOs.Memory.VmmInit
import DelOs.Process.Confinement
import DelOs.Process.Frames
import DelOs.Lib.PathTree
import DelOs.Fs.Initrd
import DelOs.Fs.Names
import DelOs.Fs.Contents
import DelOs.Fs.Unpack
import DelOs.Fs.Archive
import DelOs.Fs.Holders
import DelOs.Kstdlib.Kprintf
import DelOs.Memory.KmallocSizes
import DelOs.Kstdlib.PrintfAgree
import DelOs.Memory.E820
import DelOs.Memory.PmmInit
import DelOs.Memory.PageAddresses
import DelOs.Sched.ResumeStores
import DelOs.Fs.MountPoint
import DelOs.Fs.UnpackAny
import DelOs.Fs.StdStreams
import DelOs.Fs.NewNodes
import DelOs.Lib.Words
import DelOs.Shell.Arguments
import DelOs.Shell.Format
import DelOs.Shell.Parse
import DelOs.Fs.TreeRuns
import DelOs.Fs.HeldNodes
import DelOs.Fs.PlainNames
import DelOs.Fs.TreeShape
import DelOs.Fs.DescriptorTable
import DelOs.Fs.FailedOpen
import DelOs.Fs.WriteBounds
import DelOs.Memory.Krealloc
import DelOs.Memory.KfreeChecks
import DelOs.Memory.PageRights
import DelOs.Memory.TableClearing
import DelOs.Memory.KernelPages
import DelOs.Memory.MapRange
import DelOs.Process.Create
import DelOs.Fs.DescriptorCalls
import DelOs.Fs.EntriesInUse
import DelOs.Fs.TableRuns
import DelOs.Fs.SplitBuffer
import DelOs.Fs.Listing
import DelOs.Lib.ListCursor
import DelOs.Fs.Iteration
import DelOs.Fs.Cancel
import DelOs.Fs.Spellings
import DelOs.Fs.ArchiveReader
import DelOs.Fs.UnpackNodes
import DelOs.Shell.CommandBounds
import DelOs.Fs.SpareNodes
import DelOs.Shell.Pwd
import DelOs.Shell.LineEditor
import DelOs.Lib.Numerals
import DelOs.Kstdlib.SprintfText
import DelOs.Kstdlib.Kstrtol
import DelOs.Kstdlib.Katoi
import DelOs.Tty.Console
import DelOs.Memory.EarlyRuns
import DelOs.Lib.RingBuffer
import DelOs.Sys.Keyboard
import DelOs.Memory.BitmapSearch
import DelOs.Kstdlib.Kmemmove
import DelOs.Kstdlib.DigitStrings
import DelOs.Lib.PathWalk
import DelOs.Fs.PathMachine
import DelOs.Fs.PathContents
import DelOs.Fs.PathOpen
import DelOs.Fs.PathPlaces
import DelOs.Fs.PathShows
import DelOs.Fs.Refinement
import DelOs.Lib.TreeListing
import DelOs.Fs.CallerBlocks
import DelOs.Shell.FileCommands
import DelOs.Shell.PathCommands
import DelOs.Shell.FileSession
import DelOs.Shell.ShellLoop
import DelOs.Sys.Scancodes
import DelOs.Lib.CellGrid
import DelOs.Tty.Sheet
import DelOs.Tty.Page
import DelOs.Kstdlib.PrintfText
import DelOs.Tty.Prints
import DelOs.Shell.Machine
import DelOs.Shell.PrintedBytes
import DelOs.Shell.Transcript
