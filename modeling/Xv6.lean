import Xv6.Bio
import Xv6.Bio.Flat
import Xv6.Bio.Pool
import Xv6.Dev.Console
import Xv6.Dev.Ide
import Xv6.Dev.Mp
import Xv6.File
import Xv6.Fs.Block
import Xv6.Fs.Bmap
import Xv6.Fs.Budget
import Xv6.Fs.Coherent
import Xv6.Fs.Content
import Xv6.Fs.Contents
import Xv6.Fs.Dir
import Xv6.Fs.Filled
import Xv6.Fs.Icache
import Xv6.Fs.Inode
import Xv6.Fs.Itrunc
import Xv6.Fs.Keep
import Xv6.Fs.Layout
import Xv6.Fs.Leave
import Xv6.Fs.Owner
import Xv6.Fs.Ownership
import Xv6.Fs.Poised
import Xv6.Fs.Progress
import Xv6.Fs.Refs
import Xv6.Fs.Sees
import Xv6.Fs.Vnode
import Xv6.Kernel
import Xv6.Lib.Act
import Xv6.Lib.Buffer
import Xv6.Lib.Bytes
import Xv6.Lib.Chain
import Xv6.Lib.Cycle
import Xv6.Lib.Fifo
import Xv6.Lib.Heap
import Xv6.Lib.Poke
import Xv6.Lib.Prog
import Xv6.Lib.Redo
import Xv6.Lib.Ring
import Xv6.Lib.Tally
import Xv6.Lib.Trans
import Xv6.Log.Admission
import Xv6.Log.Atomic
import Xv6.Log.Basic
import Xv6.Log.Buffers
import Xv6.Log.Commit
import Xv6.Log.History
import Xv6.Log.Machine
import Xv6.Log.Ops
import Xv6.Log.Reads
import Xv6.Log.Spare
import Xv6.Mkfs.Agree
import Xv6.Mkfs.Append
import Xv6.Mkfs.Basic
import Xv6.Mkfs.Image
import Xv6.Param
import Xv6.Pipe.Calls
import Xv6.Pipe.Wakeup
import Xv6.Proc.Current
import Xv6.Proc.Family
import Xv6.Proc.Interrupts
import Xv6.Proc.Residue
import Xv6.Proc.Smp
import Xv6.Proc.Table
import Xv6.Proc.Wakeup
import Xv6.Procfs.Counters
import Xv6.Procfs.Descriptors
import Xv6.Procfs.Format
import Xv6.Procfs.Inum
import Xv6.Procfs.Listing
import Xv6.Procfs.Process
import Xv6.Procfs.Slices
import Xv6.Procfs.Strings
import Xv6.Sys.Args
import Xv6.Sys.Boot
import Xv6.Sys.Calls
import Xv6.Sys.Chunks
import Xv6.Sys.Filedesc
import Xv6.Sys.Header
import Xv6.Sys.LogArea
import Xv6.Sys.Mount
import Xv6.Sys.Process
import Xv6.Sys.Resolve
import Xv6.Sys.Still
import Xv6.Sys.Stores
import Xv6.Sys.Writes
import Xv6.User.Grep
import Xv6.User.GrepInput
import Xv6.User.Heap
import Xv6.User.Lsof
import Xv6.User.Malloc
import Xv6.User.Sh
import Xv6.User.ShGrammar
import Xv6.User.Ulib
import Xv6.Vm.Arguments
import Xv6.Vm.Balance
import Xv6.Vm.Copyout
import Xv6.Vm.Entries
import Xv6.Vm.Exec
import Xv6.Vm.Fork
import Xv6.Vm.Free
import Xv6.Vm.Grow
import Xv6.Vm.Growproc
import Xv6.Vm.Image
import Xv6.Vm.Kernel
import Xv6.Vm.Leak
import Xv6.Vm.Mappages
import Xv6.Vm.Memory
import Xv6.Vm.Sweep
