import Xv6.Sys.Filedesc

/-!
# System calls

`sysfile.c`, `exec.c` and the calls of `proc.c` that touch files. An argument is `none` when
fetching it from the user's memory fails.
-/

namespace Xv6.Kernel

open Lib

/-! ## File descriptors -/

/-- The slot of the running process. -/
def setProc (g : Proc → Proc) : K Unit :=
  Act.modify fun k => { k with ptable := k.ptable.set k.cur (g (k.ptable.proc k.cur)) }

/-- `argfd` (`sysfile.c:19-34`). -/
def argfd (fd : Option Int) : K (Option (Fin NOFILE × Fin NFILE)) := do
  let k ← Act.get
  match fd with
  | none => return none
  | some fd =>
    if h : 0 ≤ fd ∧ fd.toNat < NOFILE then
      return ((k.ptable.proc k.cur).ofile ⟨fd.toNat, h.2⟩).map fun f => (⟨fd.toNat, h.2⟩, f)
    else
      return none

/-- Set one descriptor of the running process. -/
def setFd (fd : Fin NOFILE) (f : Option (Fin NFILE)) : K Unit :=
  setProc fun p => { p with ofile := Function.update p.ofile fd f }

/-- `fdalloc` (`sysfile.c:38-50`). -/
def fdalloc (f : Fin NFILE) : K (Option (Fin NOFILE)) := do
  let k ← Act.get
  match (List.finRange NOFILE).find? fun fd =>
    decide ((k.ptable.proc k.cur).ofile fd = none) with
  | none => return none
  | some fd =>
    setFd fd (some f)
    return some fd

/-- `sys_dup` (`sysfile.c:52-64`). -/
def sysDup (fd : Option Int) : K Int := do
  let a ← argfd fd
  match a with
  | none => return -1
  | some (_, f) =>
    let fd ← fdalloc f
    match fd with
    | none => return -1
    | some fd =>
      filedup f
      return fd

/-- `sys_read` (`sysfile.c:66-76`). -/
def sysRead (fd : Option Int) (n : Option Nat) : K Int := do
  let a ← argfd fd
  match a, n with
  | some (_, f), some n =>
    let r ← fileread f n
    return match r with
      | none => -1
      | some bs => bs.length
  | _, _ => return -1

/-- `sys_write` (`sysfile.c:78-88`). -/
def sysWrite (fd : Option Int) (buf : Option (List UInt8)) : K Int := do
  let a ← argfd fd
  match a, buf with
  | some (_, f), some bs => filewrite f (fun i => bs.getD i 0) bs.length
  | _, _ => return -1

/-- `sys_close` (`sysfile.c:90-101`). -/
def sysClose (fd : Option Int) : K Int := do
  let a ← argfd fd
  match a with
  | none => return -1
  | some (fd, f) =>
    setFd fd none
    fileclose f
    return 0

/-- `sys_fstat` (`sysfile.c:103-112`); `st` says whether the pointer for the result is good. -/
def sysFstat (fd : Option Int) (st : Bool) : K Int := do
  let a ← argfd fd
  match a with
  | none => return -1
  | some (_, f) =>
    if st then
      let r ← filestat f
      return if r.isSome then 0 else -1
    else
      return -1

/-! ## Links -/

/-- Change the link count of an inode, on the disk too. -/
def addLink (e : Fin NINODE) (n : BitVec 16) : K Unit := do
  setDinode e fun d => { d with nlink := d.nlink + n }
  iupdate e

/-- The end of `sys_link` after its label `bad`. -/
def sysLinkBad (e : Fin NINODE) : K Int := do
  ilock e
  addLink e (-1)
  iunlockput e
  endOp
  return -1

/-- `sys_link` once the old path has been found to be `e`, with its count increased. -/
def sysLinkNew (e : Fin NINODE) (new : Path) : K Int := do
  let r ← nameiparent new
  match r with
  | none => sysLinkBad e
  | some (dp, name) =>
    ilock dp
    let d ← inode dp
    let ip ← inode e
    let ok ← if d.dev = ip.dev then dirlink dp name ip.inum else pure false
    iunlockput dp
    if ok then
      iput e
      endOp
      return 0
    else
      sysLinkBad e

/-- `sys_link` (`sysfile.c:115-162`). -/
def sysLink (old new : Option Path) : K Int := do
  match old, new with
  | some old, some new =>
    beginOp
    let r ← namei old
    match r with
    | none =>
      endOp
      return -1
    | some e =>
      ilock e
      let ip ← inode e
      if ip.d.type = T_DIR then
        iunlockput e
        endOp
        return -1
      else
        addLink e 1
        iunlock e
        sysLinkNew e new
  | _, _ => return -1

/-- The loop of `isdirempty`. -/
def isdiremptyLoop (e : Fin NINODE) : Nat → Nat → K Bool
  | 0, _ => return true
  | turns + 1, off => do
    let dp ← inode e
    if off < dp.d.size.toNat then
      let r ← readi e off DIRENTSZ
      let bs := r.getD []
      if bs.length ≠ DIRENTSZ then
        Act.panic "isdirempty: readi"
      else if (toDirent bs).inum ≠ 0 then
        return false
      else
        isdiremptyLoop e turns (off + DIRENTSZ)
    else
      return true

/-- `isdirempty` (`sysfile.c:165-178`). -/
def isdirempty (e : Fin NINODE) : K Bool := do
  let dp ← inode e
  isdiremptyLoop e (dp.d.size.toNat / DIRENTSZ + 1) (2 * DIRENTSZ)

/-- The end of `sys_unlink` after its label `bad`. -/
def sysUnlinkBad (dp : Fin NINODE) : K Int := do
  iunlockput dp
  endOp
  return -1

/-- The parent loses the link of the directory's `..` entry (`sysfile.c:218-221`). -/
def unlinkDots (dp e : Fin NINODE) : K Unit := do
  let ip ← inode e
  if ip.d.type = T_DIR then
    addLink dp (-1)
  else
    return ()

/-- `sys_unlink` once the entry at `off` of `dp` is to be removed. -/
def sysUnlinkEntry (dp e : Fin NINODE) (off : Nat) : K Int := do
  let r ← writei dp (fun _ => 0) off DIRENTSZ
  if r = some DIRENTSZ then
    unlinkDots dp e
    iunlockput dp
    addLink e (-1)
    iunlockput e
    endOp
    return 0
  else
    Act.panic "unlink: writei"

/-- `sys_unlink` once both directory and entry are found and locked. -/
def sysUnlinkFound (dp e : Fin NINODE) (off : Nat) : K Int := do
  let ip ← inode e
  if ip.d.nlink.toInt < 1 then
    Act.panic "unlink: nlink < 1"
  else
    let empty ← if ip.d.type = T_DIR then isdirempty e else pure true
    if empty then
      sysUnlinkEntry dp e off
    else
      iunlockput e
      sysUnlinkBad dp

/-- `sys_unlink` (`sysfile.c:181-236`). -/
def sysUnlink (path : Option Path) : K Int := do
  match path with
  | none => return -1
  | some path =>
    beginOp
    let r ← nameiparent path
    match r with
    | none =>
      endOp
      return -1
    | some (dp, name) =>
      ilock dp
      if name = cstr "." ∨ name = cstr ".." then
        sysUnlinkBad dp
      else
        let found ← dirlookup dp name
        match found with
        | none => sysUnlinkBad dp
        | some (e, off) =>
          ilock e
          sysUnlinkFound dp e off

/-! ## Creating and opening -/

/-- The entries `.` and `..` of a new directory (`sysfile.c:272-278`). -/
def createDots (dp e : Fin NINODE) : K Unit := do
  addLink dp 1
  let d ← inode dp
  let ip ← inode e
  let dot ← dirlink e (cstr ".") ip.inum
  let dots ← if dot then dirlink e (cstr "..") d.inum else pure false
  if dots then
    return ()
  else
    Act.panic "create dots"

/-- The part of `create` that makes a new inode in `dp`. -/
def createNew (dp : Fin NINODE) (name : Path) (type major minor : BitVec 16) :
    K (Option (Fin NINODE)) := do
  let d ← inode dp
  let e ← ialloc d.dev type
  ilock e
  setDinode e fun d => { d with major := major, minor := minor, nlink := 1 }
  iupdate e
  if type = T_DIR then createDots dp e else pure ()
  let ip ← inode e
  let ok ← dirlink dp name ip.inum
  if ok then
    iunlockput dp
    return some e
  else
    Act.panic "create: dirlink"

/-- `create` (`sysfile.c:238-286`). The inode it returns is locked. -/
def create (path : Path) (type major minor : BitVec 16) : K (Option (Fin NINODE)) := do
  let r ← nameiparent path
  match r with
  | none => return none
  | some (dp, name) =>
    ilock dp
    let d ← inode dp
    if d.d.type = T_DEV then
      iunlockput dp
      return none
    else
      let found ← dirlookup dp name
      match found with
      | some (e, _) =>
        iunlockput dp
        ilock e
        let ip ← inode e
        if type = T_FILE ∧ ip.d.type = T_FILE then
          return some e
        else
          iunlockput e
          return none
      | none => createNew dp name type major minor

/-- `O_WRONLY`, `O_RDWR` and `O_CREATE` (`fcntl.h`). -/
def O_WRONLY : BitVec 32 := 0x001
/-- Open for reading and writing. -/
def O_RDWR : BitVec 32 := 0x002
/-- Create the file. -/
def O_CREATE : BitVec 32 := 0x200

/-- How `sys_open` comes to a locked inode (`sysfile.c:301-318`). -/
def openInode (path : Path) (omode : BitVec 32) : K (Option (Fin NINODE)) := do
  if omode &&& O_CREATE ≠ 0 then
    create path T_FILE 0 0
  else
    let r ← namei path
    match r with
    | none => return none
    | some e =>
      ilock e
      let ip ← inode e
      if ip.d.type = T_DIR ∧ omode ≠ 0 then
        iunlockput e
        return none
      else
        return some e

/-- `sys_open` when there is no file or no descriptor left (`sysfile.c:321-325`). -/
def openFail (e : Fin NINODE) : K Int := do
  iunlockput e
  endOp
  return -1

/-- `sys_open` (`sysfile.c:289-336`). -/
def sysOpen (path : Option Path) (omode : Option (BitVec 32)) : K Int := do
  match path, omode with
  | some path, some omode =>
    beginOp
    let r ← openInode path omode
    match r with
    | none =>
      endOp
      return -1
    | some e =>
      let f ← filealloc
      match f with
      | none => openFail e
      | some f =>
        let fd ← fdalloc f
        match fd with
        | none =>
          fileclose f
          openFail e
        | some fd =>
          iunlock e
          endOp
          setFile f fun v => { v with
            type := .inode
            ip := some e
            off := 0
            readable := decide (omode &&& O_WRONLY = 0)
            writable := decide (omode &&& O_WRONLY ≠ 0 ∨ omode &&& O_RDWR ≠ 0) }
          return fd
  | _, _ => return -1

/-- The common end of `sys_mkdir` and `sys_mknod`. -/
def created (r : Option (Fin NINODE)) : K Int := do
  match r with
  | none =>
    endOp
    return -1
  | some e =>
    iunlockput e
    endOp
    return 0

/-- `sys_mkdir` (`sysfile.c:339-352`). -/
def sysMkdir (path : Option Path) : K Int := do
  beginOp
  let r ← match path with
    | none => pure none
    | some path => create path T_DIR 0 0
  created r

/-- `sys_mknod` (`sysfile.c:355-373`); the numbers are cut to a `short`. -/
def sysMknod (path : Option Path) (major minor : Option Int) : K Int := do
  beginOp
  let r ← match path, major, minor with
    | some path, some major, some minor =>
      create path T_DEV (BitVec.ofInt 16 major) (BitVec.ofInt 16 minor)
    | _, _, _ => pure none
  created r

/-- The failure of `sys_pipe` when there is no descriptor left (`sysfile.c:437-441`). -/
def pipeFail (rf wf : Fin NFILE) : K Int := do
  fileclose rf
  fileclose wf
  return -1

/-- `sys_pipe` (`sysfile.c:426-447`); `fd` says whether the pointer for the result is good. -/
def sysPipe (fd : Bool) : K Int := do
  if fd then
    let r ← pipealloc
    match r with
    | none => return -1
    | some (rf, wf) =>
      let fd0 ← fdalloc rf
      match fd0 with
      | none => pipeFail rf wf
      | some fd0 =>
        let fd1 ← fdalloc wf
        match fd1 with
        | none =>
          setFd fd0 none
          pipeFail rf wf
        | some _ => return 0
  else
    return -1

/-- `sys_chdir` (`sysfile.c:376-397`). -/
def sysChdir (path : Option Path) : K Int := do
  beginOp
  let r ← match path with
    | none => pure none
    | some path => namei path
  match r with
  | none =>
    endOp
    return -1
  | some e =>
    ilock e
    let ip ← inode e
    let dir ← if ip.d.type = T_DIR then pure true else isDevDir e
    if dir then
      iunlock e
      let old ← cwd
      iput old
      endOp
      setProc fun p => { p with cwd := some e }
      return 0
    else
      iunlockput e
      endOp
      return -1

end Xv6.Kernel
