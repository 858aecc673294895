import Xv6.Lib.Trans
import Xv6.Sys.Process

/-!
# From boot, call after call

The machine with its system calls as steps: `userinit` starts it, and then processes do system calls
in any order. Beside it is a small disk for runs.
-/

namespace Xv6.Kernel

open Lib Act

/-- One system call by one process; the events so far are kept beside the kernel. A call that stops
is no step. -/
def callStep (l : Fin NPROC × Call) (s : Kernel × List FsEvent) : Option (Kernel × List FsEvent) :=
  match sysStep l.1 l.2 s.1 with
  | .ok _ k es => some (k, s.2 ++ es)
  | .halt _ _ => none

/-- `userinit` and then the calls in turn; `none` when one of them stops. -/
def bootRun (store : Store) (log : Log) (env : Env) (calls : List (Fin NPROC × Call)) :
    Option (Kernel × List FsEvent) :=
  match userinit (loaded store log env) with
  | .ok _ k es => runFrom callStep calls (k, es)
  | .halt _ _ => none

/-! A disk with 34 free blocks in front of the log, and an empty root directory on it. -/

/-- An entry of a directory. -/
def dirent (inum : Nat) (name : String) : Dirent :=
  { inum := BitVec.ofNat 16 inum, name := strncpyName (cstr name) }

/-- A block of directory entries. -/
def direntBlock (ds : List Dirent) : Block := fun i => (ds.flatMap Dirent.bytes).getD i 0

/-- A directory with two entries, in block `b`. -/
def emptyDir (b : BitVec 32) : Dinode :=
  { Dinode.zero with
    type := T_DIR
    nlink := 1
    size := 32
    addrs := Function.update (fun _ => 0) ⟨0, by decide⟩ b }

/-- The disk; the root directory is inode 1. -/
def rootDisk (s : Nat) : Block :=
  if s = 1 then (((Bytes.zero BSIZE).put32 0 70).put32 8 8).put32 12 30
  else if s = 2 then putDinode (Bytes.zero BSIZE) 1 (emptyDir 5)
  else if s = 4 then (Bytes.zero BSIZE).splice 0 (fun _ => 63) 1
  else if s = 5 then direntBlock [dirent 1 ".", dirent 1 ".."]
  else Bytes.zero BSIZE

/-- A run on it, with memory at hand. -/
def rootRun (calls : List (Fin NPROC × Call)) : Option (Kernel × List FsEvent) :=
  bootRun { disk := rootDisk, disksize := 70, bcache := binit } (.initlog 70 30)
    { junk := fun _ _ => 0, input := fun _ => none, memory := fun _ => true } calls

/-- The first process. -/
def proc0 : Fin NPROC := ⟨0, NPROC_pos⟩

end Xv6.Kernel
