import Xv6.Fs.Dir

/-!
# Open files

`file.c` and `pipe.c`: the file table, reading and writing through it, and the two ends of a pipe.
-/

namespace Xv6.Kernel

open Lib

/-- Change one entry of the file table. -/
def setFile (f : Fin NFILE) (g : File → File) : K Unit :=
  Act.modify fun k => { k with ftable := Function.update k.ftable f (g (k.ftable f)) }

/-- The entry behind a file pointer. -/
def file (f : Fin NFILE) : K File := do
  let k ← Act.get
  return k.ftable f

/-- `filealloc` (`file.c:25-41`). -/
def filealloc : K (Option (Fin NFILE)) := do
  let k ← Act.get
  match (List.finRange NFILE).find? fun f => decide ((k.ftable f).ref = 0) with
  | none => return none
  | some f =>
    setFile f fun v => { v with ref := 1 }
    return some f

/-- `filedup` (`file.c:44-53`). -/
def filedup (f : Fin NFILE) : K Unit := do
  let v ← file f
  if v.ref < 1 then
    Act.panic "filedup"
  else
    setFile f fun v => { v with ref := v.ref + 1 }

/-- `iput` through a pointer; a null pointer is followed. -/
def iputPtr (p : Option (Fin NINODE)) : K Unit :=
  match p with
  | none => Act.undefined
  | some e => iput e

/-- Whether the next allocation succeeds. -/
def allocated : K Bool := do
  let tick ← tickOnce
  let k ← Act.get
  return k.env.memory tick

/-- `kalloc` of a page for a pipe; `none` when there is no memory. -/
def kalloc : K (Option Nat) := do
  let k ← Act.get
  let ok ← allocated
  if ok then
    Act.emit (.kalloc k.tick)
    return some k.tick
  else
    return none

/-- Change the flags of a pipe. -/
def setPipe (p : Nat) (g : Pipe → Pipe) : K Unit :=
  Act.modify fun k => { k with pipes := Function.update k.pipes p (g (k.pipes p)) }

/-- `pipeclose` (`pipe.c:57-74`). -/
def pipeclose (p : Nat) (writable : Bool) : K Unit := do
  setPipe p fun v => if writable then { v with writeopen := false } else { v with readopen := false }
  let k ← Act.get
  if (k.pipes p).readopen = false ∧ (k.pipes p).writeopen = false then
    Act.emit (.kfree p)
  else
    return ()

/-- `pipeclose` through a pointer; a null pointer is followed. -/
def pipeclosePtr (p : Option Nat) (writable : Bool) : K Unit :=
  match p with
  | none => Act.undefined
  | some p => pipeclose p writable

/-- `fileclose` (`file.c:56-80`). -/
def fileclose (f : Fin NFILE) : K Unit := do
  let ff ← file f
  if ff.ref < 1 then
    Act.panic "fileclose"
  else if 0 < ff.ref - 1 then
    setFile f fun v => { v with ref := v.ref - 1 }
  else
    setFile f fun v => { v with ref := 0, type := .none }
    match ff.type with
    | .pipe => pipeclosePtr ff.pipe ff.writable
    | .inode =>
      beginOp
      iputPtr ff.ip
      endOp
    | .none => return ()

/-- `pipealloc` (`pipe.c:21-55`). Only what was allocated is given back after the label `bad`. -/
def pipealloc : K (Option (Fin NFILE × Fin NFILE)) := do
  let f0 ← filealloc
  match f0 with
  | none => return none
  | some f0 =>
    let f1 ← filealloc
    match f1 with
    | none =>
      fileclose f0
      return none
    | some f1 =>
      let p ← kalloc
      match p with
      | none =>
        fileclose f0
        fileclose f1
        return none
      | some p =>
        setPipe p fun _ => { readopen := true, writeopen := true }
        setFile f0 fun v => { v with
          type := .pipe, readable := true, writable := false, pipe := some p }
        setFile f1 fun v => { v with
          type := .pipe, readable := false, writable := true, pipe := some p }
        return some (f0, f1)

/-- `struct stat` as `stati` fills it (`fs.c:425-433`). -/
structure Stat where
  dev : Nat
  ino : Nat
  type : BitVec 16
  nlink : BitVec 16
  size : BitVec 32

/-- `stati`. -/
def stati (ip : Inode) : Stat where
  dev := ip.dev
  ino := ip.inum
  type := ip.d.type
  nlink := ip.d.nlink
  size := ip.d.size

/-- `filestat` (`file.c:83-93`); `none` is the result -1. -/
def filestat (f : Fin NFILE) : K (Option Stat) := do
  let v ← file f
  if v.type = .inode then
    match v.ip with
    | none => Act.panic "ilock"
    | some e =>
      ilock e
      let ip ← inode e
      iunlock e
      return some (stati ip)
  else
    return none

/-- `fileread` (`file.c:96-113`); `none` is the result -1. -/
def fileread (f : Fin NFILE) (n : Nat) : K (Option (List UInt8)) := do
  let v ← file f
  if v.readable = false then
    return none
  else
    match v.type with
    | .none => Act.panic "fileread"
    | .pipe =>
      let tick ← tickOnce
      let k ← Act.get
      return (k.env.input tick).map (List.take n)
    | .inode =>
      match v.ip with
      | none => Act.panic "ilock"
      | some e =>
        ilock e
        let r ← readi e v.off n
        setFile f fun v => { v with off := (v.off + (r.getD []).length) % 2 ^ 32 }
        iunlock e
        return r

/-- `max` of `filewrite` (`file.c:134`). -/
def filewriteMax : Nat := (LOGSIZE - 1 - 1 - 2) / 2 * 512

/-- One transaction of `filewrite` (`file.c:141-146`): `n` bytes of `src`. -/
def filewriteChunk (f : Fin NFILE) (e : Fin NINODE) (src : Nat → UInt8) (n : Nat) :
    K (Option Nat) := do
  beginOp
  ilock e
  let v ← file f
  let r ← writei e src v.off n
  setFile f fun v => { v with off := (v.off + r.getD 0) % 2 ^ 32 }
  iunlock e
  endOp
  return r

/-- The loop of `filewrite`; a turn that goes on has written at least one byte. `i` bytes have
been written and `left` remain, and the result is how many were written in the end. -/
def filewriteLoop (f : Fin NFILE) (e : Fin NINODE) : Nat → (Nat → UInt8) → Nat → Nat → K Nat
  | 0, _, i, _ => return i
  | turns + 1, src, i, left =>
    if left = 0 then return i
    else do
      let n1 := min left filewriteMax
      let r ← filewriteChunk f e src n1
      match r with
      | none => return i
      | some m =>
        if m = n1 then
          filewriteLoop f e turns (fun j => src (j + n1)) (i + n1) (left - n1)
        else
          Act.panic "short filewrite"

/-- `filewrite` (`file.c:117-155`) of the `n` bytes of `src`. -/
def filewrite (f : Fin NFILE) (src : Nat → UInt8) (n : Nat) : K Int := do
  let v ← file f
  if v.writable = false then
    return -1
  else
    match v.type with
    | .none => Act.panic "filewrite"
    | .pipe =>
      let tick ← tickOnce
      let k ← Act.get
      return if (k.env.input tick).isSome then (n : Int) else -1
    | .inode =>
      match v.ip with
      | none => if n = 0 then return 0 else Act.panic "ilock"
      | some e =>
        let i ← filewriteLoop f e n src 0 n
        return if i = n then (n : Int) else -1

end Xv6.Kernel
