import Xv6.Sys.Calls

/-!
# Processes and the system call interface

`exec`, and the calls of `proc.c` as far as they touch files; then one step of the machine, a
whole system call by one process. Page tables are those of `Xv6.Vm`: here only the answers matter, and
`allocated` says whether there was a page.
-/

namespace Xv6.Kernel

open Lib

/-! ## `exec` -/

/-- The result of `allocuvm` (`vm.c:220-243`); 0 is the failure. -/
def allocuvm (oldsz newsz : Nat) : K Nat := do
  if KERNBASE ≤ newsz then
    return 0
  else if newsz < oldsz then
    return oldsz
  else
    let ok ← allocated
    return if ok then newsz else 0

/-- The loop of `loaduvm` over the pages (`vm.c:204-214`). -/
def loaduvmLoop (e : Fin NINODE) (offset sz : Nat) : List Nat → K Bool
  | [] => return true
  | i :: is => do
    let present ← allocated
    if present then
      let n := min (sz - i) PGSIZE
      let r ← readi e ((offset + i) % 2 ^ 32) n
      if (r.map List.length) = some n then
        loaduvmLoop e offset sz is
      else
        return false
    else
      Act.panic "loaduvm: address should exist"

/-- `loaduvm` (`vm.c:196-216`). -/
def loaduvm (e : Fin NINODE) (vaddr offset sz : Nat) : K Bool := do
  if vaddr % PGSIZE ≠ 0 then
    Act.panic "loaduvm: addr must be page aligned"
  else
    loaduvmLoop e offset sz ((List.range ((sz + PGSIZE - 1) / PGSIZE)).map (· * PGSIZE))

/-- One program header of `exec` (`exec.c:39-49`); `none` is `goto bad`. -/
def execHeader (e : Fin NINODE) (off sz : Nat) : K (Option Nat) := do
  let r ← readi e (off % 2 ^ 32) 32
  let ph := r.getD []
  if ph.length ≠ 32 then
    return none
  else if le ph 0 4 ≠ 1 then
    return some sz
  else if le ph 20 4 < le ph 16 4 then
    return none
  else
    let sz ← allocuvm sz ((le ph 8 4 + le ph 20 4) % 2 ^ 32)
    if sz = 0 then
      return none
    else
      let ok ← loaduvm e (le ph 8 4) (le ph 4 4) (le ph 16 4)
      return if ok then some sz else none

/-- The loop of `exec` over the program headers (`exec.c:38-50`). -/
def execHeaders (e : Fin NINODE) : Nat → Nat → Nat → K (Option Nat)
  | 0, _, sz => return some sz
  | phnum + 1, off, sz => do
    let r ← execHeader e off sz
    match r with
    | none => return none
    | some sz => execHeaders e phnum (off + 32) sz

/-- The header check and the load of `exec` (`exec.c:28-50`). A result -1 of the first `readi`
passes its unsigned comparison, and the header stays as it was on the stack. -/
def execLoad (e : Fin NINODE) : K (Option Nat) := do
  let r ← readi e 0 ELFHDRSZ
  let tick ← tickOnce
  let k ← Act.get
  let elf := r.getD ((List.range ELFHDRSZ).map (k.env.junk tick))
  if elf.length < ELFHDRSZ then
    return none
  else if le elf 0 4 ≠ ELF_MAGIC then
    return none
  else
    let pgdir ← allocated
    if pgdir then
      execHeaders e (le elf 44 2) (le elf 28 4) 0
    else
      return none

/-- The part of `exec` after the file has been let go (`exec.c:55-96`). -/
def execCommit (sz : Nat) : K Int := do
  let base := (sz + PGSIZE - 1) / PGSIZE * PGSIZE
  let sz ← allocuvm base (base + 2 * PGSIZE)
  if sz = 0 then
    return -1
  else
    let copied ← allocated
    if copied then
      setProc fun p => { p with sz := BitVec.ofNat 32 sz }
      return 0
    else
      return -1

/-- `exec` (`exec.c:10-104`). -/
def exec (path : Path) : K Int := do
  beginOp
  let r ← namei path
  match r with
  | none =>
    endOp
    return -1
  | some e =>
    ilock e
    let sz ← execLoad e
    iunlockput e
    endOp
    match sz with
    | none => return -1
    | some sz => execCommit sz

/-! ## `proc.c` -/

/-- `userinit`. -/
def userinit : K Unit := do
  let cwd ← namei (cstr "/")
  let k ← Act.get
  match k.ptable.userinit cwd with
  | none => Act.undefined
  | some t => Act.modify fun k => { k with ptable := t }

/-- The duplicated descriptors of `fork` (`proc.c:151-153`). -/
def forkFile (p : Proc) (i : Fin NOFILE) : K Unit :=
  match p.ofile i with
  | none => return ()
  | some f => filedup f

/-- `fork`; the flags say whether there was memory for the stack and for the copy. -/
def fork (kalloc copyuvm : Bool) : K Int := do
  let k ← Act.get
  match k.ptable.fork k.cur kalloc copyuvm with
  | (t, none) =>
    Act.modify fun k => { k with ptable := t }
    return -1
  | (t, some np) =>
    Act.forEach (forkFile (k.ptable.proc k.cur)) (List.finRange NOFILE)
    let e ← cwd
    let _ ← idup e
    Act.modify fun k => { k with ptable := t }
    return (t.proc np).pid

/-- Close one descriptor of a process that exits (`proc.c:183-188`). -/
def exitFile (i : Fin NOFILE) : K Unit := do
  let k ← Act.get
  match (k.ptable.proc k.cur).ofile i with
  | none => return ()
  | some f =>
    fileclose f
    setFd i none

/-- `exit`, up to the switch to the scheduler. -/
def exit : K Int := do
  let k ← Act.get
  if k.ptable.initproc = some k.cur then
    Act.panic "init exiting"
  else
    Act.forEach exitFile (List.finRange NOFILE)
    beginOp
    let e ← cwd
    iput e
    endOp
    let k ← Act.get
    match k.ptable.exit k.cur with
    | none => Act.panic "init exiting"
    | some t =>
      Act.modify fun k => { k with ptable := t }
      return 0

/-- `wait`. -/
def wait : K Int := do
  let k ← Act.get
  match k.ptable.wait k.cur with
  | some (t, pid) =>
    Act.modify fun k => { k with ptable := t }
    return pid
  | none =>
    if (List.finRange NPROC).any (fun j => decide ((k.ptable.proc j).parent = some k.cur)) = false ∨
        (k.ptable.proc k.cur).killed = true then
      return -1
    else
      Act.sleep

/-! ## System calls -/

/-- A system call with its arguments. -/
inductive Call where
  | open (path : Option Path) (omode : Option (BitVec 32))
  | close (fd : Option Int)
  | dup (fd : Option Int)
  | pipe (fd : Bool)
  | read (fd : Option Int) (n : Option Nat)
  | write (fd : Option Int) (buf : Option (List UInt8))
  | fstat (fd : Option Int) (st : Bool)
  | link (old new : Option Path)
  | unlink (path : Option Path)
  | mkdir (path : Option Path)
  | mknod (path : Option Path) (major minor : Option Int)
  | chdir (path : Option Path)
  | exec (path : Option Path)
  | fork (kalloc copyuvm : Bool)
  | exit
  | wait

/-- The function behind a system call number. -/
def syscall : Call → K Int
  | .open path omode => sysOpen path omode
  | .close fd => sysClose fd
  | .dup fd => sysDup fd
  | .pipe fd => sysPipe fd
  | .read fd n => sysRead fd n
  | .write fd buf => sysWrite fd buf
  | .fstat fd st => sysFstat fd st
  | .link old new => sysLink old new
  | .unlink path => sysUnlink path
  | .mkdir path => sysMkdir path
  | .mknod path major minor => sysMknod path major minor
  | .chdir path => sysChdir path
  | .exec none => return -1
  | .exec (some path) => exec path
  | .fork kalloc copyuvm => fork kalloc copyuvm
  | .exit => exit
  | .wait => wait

/-- A living process is made to run and does a system call. -/
def sysStep (p : Fin NPROC) (c : Call) : K Int := do
  let k ← Act.get
  if (k.ptable.proc p).state.living then
    Act.modify fun k => { k with cur := p }
    syscall c
  else
    Act.sleep

end Xv6.Kernel
