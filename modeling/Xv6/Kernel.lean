import Xv6.Lib.Act
import Xv6.Fs.Icache
import Xv6.Log.Commit

/-!
# The kernel's file system state

The tables that the file system shares between processes, and `log.c` as its callers see it. The
functions of `fs.c`, `file.c` and `sysfile.c` are computations on this state for one process at a
time: where the source would sleep, no other process will ever wake it, and the computation stops
with `Halt.sleep`.
-/

namespace Xv6

open Lib

/-- What happens outside the modelled state, as sequences indexed by the number of such things
that have happened. -/
structure Env where
  /-- The bytes of the stack under a local array that the source does not initialise. -/
  junk : Nat → Nat → UInt8
  /-- What a read from the console or a pipe gives; `none` is an error. -/
  input : Nat → Option (List UInt8)
  /-- Whether an allocation of memory succeeds. -/
  memory : Nat → Bool

/-- What an observer sees of the calls inside the kernel. -/
inductive FsEvent where
  /-- `log_write` of a buffer for this sector. -/
  | logWrite (sector : Nat)
  /-- `balloc`, called on this store, found this block. -/
  | balloc (st : Store) (block : Nat)
  /-- `iupdate` of this inode. -/
  | iupdate (inum : Nat)
  /-- `procfsiread` of this inode. -/
  | procfsiread (inum : Nat)
  /-- `kalloc` gave this page to a pipe. -/
  | kalloc (page : Nat)
  /-- `kfree` of this page by a pipe. -/
  | kfree (page : Nat)

/-- The state of the kernel. -/
structure Kernel where
  store : Store
  log : Log
  icache : Icache
  ftable : Fin NFILE → File
  /-- The pages that `kalloc` gave to pipes; a page is named by the tick of its allocation. -/
  pipes : Nat → Pipe
  ptable : Ptable
  /-- `proc`, the process that runs. -/
  cur : Fin NPROC
  /-- `currentInode` (`procfs.c:18`). -/
  currentInode : Nat
  env : Env
  tick : Nat

/-- A computation of the kernel. -/
abbrev K : Type → Type := Act FsEvent Kernel

namespace Kernel

/-- The tables as the kernel is loaded, in front of a given disk. -/
def loaded (store : Store) (log : Log) (env : Env) : Kernel where
  store := store
  log := log
  icache := .empty
  ftable := fun _ => .empty
  pipes := fun _ => { readopen := false, writeopen := false }
  ptable := .empty
  cur := ⟨0, NPROC_pos⟩
  currentInode := 2 ^ 32 - 1
  env := env
  tick := 0

/-- Replace the store. -/
def setStore (st : Store) (k : Kernel) : Kernel := { k with store := st }

/-- Replace the log. -/
def setLog (l : Log) (k : Kernel) : Kernel := { k with log := l }

/-- Run an operation of `bio.c`. -/
def onStore {α : Type} (x : Prog Store α) : K α := Act.lift Kernel.store setStore x

/-! ## Buffers -/

/-- `bread`. -/
def bread (dev sector : Nat) : K (Fin NBUF) := onStore (Xv6.bread dev sector)

/-- `brelse`. -/
def brelse (b : Fin NBUF) : K Unit := onStore (Xv6.brelse b)

/-- `bp->data`. -/
def data (b : Fin NBUF) : K Block := do
  let k ← Act.get
  return (k.store.buf b).data

/-- Store into `bp->data`. -/
def setData (b : Fin NBUF) (d : Block) : K Unit := onStore (Xv6.setData b d)

/-! ## The log -/

/-- `log_write` (`log.c:210-230`). -/
def logWrite (b : Fin NBUF) : K Unit := do
  let k ← Act.get
  match k.log.logWriteTests with
  | some msg => Act.panic msg
  | none =>
    Act.emit (.logWrite (k.store.buf b).sector)
    Act.modify fun k => { k with
      log := k.log.logWrite (k.store.buf b).sector
      store := k.store.setBuf b { k.store.buf b with dirty := true } }

/-- Change the data of a buffer, log it and release it, as most updates end. -/
def writeBack (b : Fin NBUF) (d : Block) : K Unit := do
  setData b d
  logWrite b
  brelse b

/-- `begin_op` (`log.c:123-140`). -/
def beginOp : K Unit := do
  let k ← Act.get
  match k.log.beginOp with
  | none => Act.sleep
  | some l => Act.modify (setLog l)

/-- `commit` (`log.c:191-201`). -/
def commit : K Unit := do
  let k ← Act.get
  let start := k.log.start
  let lh := k.log.lh
  if 0 < lh.length then
    Act.forEach (fun tail => onStore (writeLogBody start lh tail)) (List.range lh.length)
    onStore (writeHead start lh)
    Act.forEach (fun tail => onStore (installBody start lh tail)) (List.range lh.length)
    Act.modify fun k => { k with log := { k.log with lh := [] } }
    onStore (writeHead start [])
  else
    return ()

/-- `end_op` (`log.c:144-171`). -/
def endOp : K Unit := do
  let k ← Act.get
  match k.log.endOp with
  | .error msg => Act.panic msg
  | .ok (l, false) => Act.modify (setLog l)
  | .ok (l, true) =>
    Act.modify (setLog l)
    commit
    Act.modify fun k => { k with log := { k.log with committing := false } }

/-! ## The inode cache -/

/-- The entry behind an inode pointer. -/
def inode (e : Fin NINODE) : K Inode := do
  let k ← Act.get
  return k.icache e

/-- Change one entry of the inode cache. -/
def setInode (e : Fin NINODE) (f : Inode → Inode) : K Unit :=
  Act.modify fun k => { k with icache := Function.update k.icache e (f (k.icache e)) }

/-- Store into the copy of the disk inode. -/
def setDinode (e : Fin NINODE) (f : Dinode → Dinode) : K Unit :=
  setInode e fun ip => { ip with d := f ip.d }

/-- `iget`. -/
def iget (dev inum : Nat) : K (Fin NINODE) := do
  let k ← Act.get
  match Xv6.iget k.icache dev inum with
  | none => Act.panic "iget: no inodes"
  | some (e, ic) =>
    Act.modify fun k => { k with icache := ic }
    return e

/-- `idup` (`fs.c:259-266`). -/
def idup (e : Fin NINODE) : K (Fin NINODE) := do
  setInode e fun ip => { ip with ref := ip.ref + 1 }
  return e

/-- `procfsiread`. -/
def procfsiread (e : Fin NINODE) : K Unit := do
  let ip ← inode e
  Act.emit (.procfsiread ip.inum)
  setInode e Xv6.procfsiread

/-- One more thing has happened outside the state. -/
def tickOnce : K Nat := do
  let k ← Act.get
  Act.modify fun k => { k with tick := k.tick + 1 }
  return k.tick

end Kernel

end Xv6
