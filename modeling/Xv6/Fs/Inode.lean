import Xv6.Fs.Block

/-!
# Inodes

The part of `fs.c` that allocates inodes, locks them, and maps, truncates, reads and writes their
contents, with the device functions that `readi` and `writei` call through `devsw`.
-/

namespace Xv6.Kernel

open Lib

/-! ## Locks and references -/

/-- `iupdate` (`fs.c:200-217`). -/
def iupdate (e : Fin NINODE) : K Unit := do
  let ip ← inode e
  Act.emit (.iupdate ip.inum)
  let bp ← bread ip.dev (iblock ip.inum)
  let d ← data bp
  writeBack bp (putDinode d (ip.inum % IPB) ip.d)

/-- The loop of `ialloc` over the inode numbers. -/
def iallocLoop (dev : Nat) (type : BitVec 16) : List Nat → K (Fin NINODE)
  | [] => Act.panic "ialloc: no inodes"
  | inum :: inums => do
    let bp ← bread dev (iblock inum)
    let d ← data bp
    if (getDinode d (inum % IPB)).type = 0 then
      writeBack bp (putDinode d (inum % IPB) { Dinode.zero with type := type })
      iget dev inum
    else
      brelse bp
      iallocLoop dev type inums

/-- `ialloc` (`fs.c:172-197`). -/
def ialloc (dev : Nat) (type : BitVec 16) : K (Fin NINODE) := do
  let sb ← readsb dev
  iallocLoop dev type (List.range' 1 (sb.ninodes - 1))

/-- The part of `ilock` that reads the inode from the disk. -/
def iload (e : Fin NINODE) : K Unit := do
  let ip ← inode e
  let bp ← bread ip.dev (iblock ip.inum)
  let d ← data bp
  setDinode e fun _ => getDinode d (ip.inum % IPB)
  brelse bp
  setInode e fun ip => { ip with valid := true }
  let ip ← inode e
  if ip.d.type = 0 then
    Act.panic "ilock: no type"
  else
    return ()

/-- `ilock` (`fs.c:270-298`). -/
def ilock (e : Fin NINODE) : K Unit := do
  let ip ← inode e
  if ip.ref < 1 then
    Act.panic "ilock"
  else if ip.busy then
    Act.sleep
  else
    setInode e fun ip => { ip with busy := true }
    if ip.valid then
      return ()
    else
      iload e

/-- `iunlock` (`fs.c:302-312`). -/
def iunlock (e : Fin NINODE) : K Unit := do
  let ip ← inode e
  if ip.busy = false ∨ ip.ref < 1 then
    Act.panic "iunlock"
  else
    setInode e fun ip => { ip with busy := false }

/-! ## Contents -/

/-- The two places of `bmap` that fill a missing address of the inode itself. -/
def bmapAddr (e : Fin NINODE) (i : Fin (NDIRECT + 1)) : K Nat := do
  let ip ← inode e
  if ip.d.addrs i = 0 then
    let addr ← balloc ip.dev
    setDinode e fun d => { d with addrs := Function.update d.addrs i (BitVec.ofNat 32 addr) }
    return addr
  else
    return (ip.d.addrs i).toNat

/-- The lookup of `bmap` in the indirect block. -/
def bmapEntry (dev addr bn : Nat) : K Nat := do
  let bp ← bread dev addr
  let a ← data bp
  if getAddr a bn = 0 then
    let addr ← balloc dev
    let a ← data bp
    writeBack bp (putAddr a bn (BitVec.ofNat 32 addr))
    return addr
  else
    brelse bp
    return (getAddr a bn).toNat

/-- `bmap` (`fs.c:358-387`). -/
def bmap (e : Fin NINODE) (bn : Nat) : K Nat := do
  if h : bn < NDIRECT then
    bmapAddr e ⟨bn, Nat.lt_succ_of_lt h⟩
  else if bn - NDIRECT < NINDIRECT then
    let addr ← bmapAddr e (Fin.last NDIRECT)
    let ip ← inode e
    bmapEntry ip.dev addr (bn - NDIRECT)
  else
    Act.panic "bmap: out of range"

/-- Free one direct block, the body of `itrunc`'s first loop. -/
def itruncDirect (e : Fin NINODE) (i : Fin (NDIRECT + 1)) : K Unit := do
  let ip ← inode e
  if ip.d.addrs i = 0 then
    return ()
  else
    bfree ip.dev (ip.d.addrs i).toNat
    setDinode e fun d => { d with addrs := Function.update d.addrs i 0 }

/-- Free one block of the indirect block, the body of `itrunc`'s second loop. -/
def itruncEntry (dev : Nat) (bp : Fin NBUF) (j : Nat) : K Unit := do
  let a ← data bp
  if getAddr a j = 0 then
    return ()
  else
    bfree dev (getAddr a j).toNat

/-- The blocks behind the indirect block. -/
def itruncIndirect (e : Fin NINODE) : K Unit := do
  let ip ← inode e
  if ip.d.addrs (Fin.last NDIRECT) = 0 then
    return ()
  else
    let bp ← bread ip.dev (ip.d.addrs (Fin.last NDIRECT)).toNat
    Act.forEach (itruncEntry ip.dev bp) (List.range NINDIRECT)
    brelse bp
    itruncDirect e (Fin.last NDIRECT)

/-- `itrunc` (`fs.c:394-422`). -/
def itrunc (e : Fin NINODE) : K Unit := do
  Act.forEach (itruncDirect e) ((List.finRange NDIRECT).map Fin.castSucc)
  itruncIndirect e
  setDinode e fun d => { d with size := 0 }
  iupdate e

/-- `iput` (`fs.c:321-339`). -/
def iput (e : Fin NINODE) : K Unit := do
  let ip ← inode e
  if ip.ref = 1 ∧ ip.valid = true ∧ ip.d.nlink = 0 then
    if ip.busy then
      Act.panic "iput busy"
    else
      setInode e fun ip => { ip with busy := true }
      itrunc e
      setDinode e fun d => { d with type := 0 }
      iupdate e
      setInode e fun ip => { ip with busy := false, valid := false }
      setInode e fun ip => { ip with ref := ip.ref - 1 }
  else
    setInode e fun ip => { ip with ref := ip.ref - 1 }

/-- `iunlockput` (`fs.c:343-348`). -/
def iunlockput (e : Fin NINODE) : K Unit := do
  iunlock e
  iput e

/-! ## Devices -/

/-- `procfsread`'s `BUFFSIZE` (`procfs.c:16`). -/
def BUFFSIZE : Nat := (2 + NPROC) * DIRENTSZ

/-- The bytes of a listing. -/
def direntBytes (ds : List Dirent) : List (Option UInt8) :=
  ds.flatMap fun d => d.bytes.map some

/-- What the `switch` of `procfsread` leaves in `buf[0..size)` (`procfs.c:223-253`). A byte that
is not written is `none`, and so is everything where the source is undefined. -/
def procfsContent (k : Kernel) (inum : Nat) : Option (List (Option UInt8)) :=
  match command inum with
  | .proc => (initProc k.ptable inum).map direntBytes
  | .pid => (initPID k.ptable k.icache k.currentInode inum).map fun ds =>
      (direntBytes ds ++ List.replicate DIRENTSZ none).take (5 * DIRENTSZ)
  | .status => (status k.ptable inum).map (List.map some)
  | .fdinfo => (fdinfo k.ptable inum).map direntBytes
  | .blockstat => (blockstat k.store.bcache).map (List.map some)
  | .inodestat => (inodestat k.icache).map (List.map some)
  | .fd => (filesContent k.ptable k.ftable k.icache inum).map (List.map some)
  | .nothing => some []

/-- Fill in what the stack had in the bytes that were not written. -/
def fillJunk (junk : Nat → UInt8) (content : List (Option UInt8)) : List UInt8 :=
  content.zipIdx.map fun p => p.1.getD (junk p.2)

/-- `procfsread` (`procfs.c:214-263`). The offset and the count are `int`s. -/
def procfsread (inum off n : Nat) : K (Option (List UInt8)) := do
  Act.modify fun k => if command inum = .proc then { k with currentInode := inum } else k
  let k ← Act.get
  match procfsContent k inum with
  | none => Act.undefined
  | some content =>
    if BUFFSIZE < content.length ∨ 2 ^ 31 ≤ off ∨ (off < content.length ∧ 2 ^ 31 ≤ n) then
      Act.undefined
    else
      let tick ← tickOnce
      return some (((fillJunk (k.env.junk tick) content).drop off).take n)

/-- The answer of `consoleread` (`console.c:227-263`). What it has stored before its process is killed
(`Console.consolereadLoop`, `consolereadStores`) is for the caller among the junk of its buffer. -/
def consoleread (e : Fin NINODE) (n : Nat) : K (Option (List UInt8)) := do
  iunlock e
  let tick ← tickOnce
  ilock e
  let k ← Act.get
  return (k.env.input tick).map (List.take n)

/-- `consolewrite` (`console.c:266-279`). -/
def consolewrite (e : Fin NINODE) (n : Nat) : K (Option Nat) := do
  iunlock e
  ilock e
  return some n

/-- `devsw[ip->major].read`. -/
def devRead (e : Fin NINODE) (off n : Nat) : K (Option (List UInt8)) := do
  let ip ← inode e
  if ip.d.major.toInt = CONSOLE then
    consoleread e n
  else if ip.d.major.toInt = PROCFS then
    procfsread ip.inum off n
  else
    return none

/-- `devsw[ip->major].write`; `procfswrite` writes nothing (`procfs.c:265-269`). -/
def devWrite (e : Fin NINODE) (n : Nat) : K (Option Nat) := do
  let ip ← inode e
  if ip.d.major.toInt = CONSOLE then
    consolewrite e n
  else if ip.d.major.toInt = PROCFS then
    return some 0
  else
    return none

/-- `IS_DEV_DIR` (`file.h:44`). The index into `devsw` is not checked. -/
def isDevDir (e : Fin NINODE) : K Bool := do
  let ip ← inode e
  if ip.d.type = T_DEV then
    if ip.d.major.toInt < 0 ∨ (NDEV : Int) ≤ ip.d.major.toInt then
      Act.outside
    else
      return decide (ip.d.major.toInt = PROCFS) &&
        (decide (ip.d.minor = 0) || decide (ip.d.minor = T_DIR))
  else
    return false

/-! ## Reading and writing -/

/-- The loop of `readi`; every turn reads at least one byte, so `left` turns are enough. -/
def readiLoop (e : Fin NINODE) : Nat → Nat → Nat → K (List UInt8)
  | 0, _, _ => return []
  | turns + 1, off, left =>
    if left = 0 then return []
    else do
      let addr ← bmap e (off / BSIZE)
      let ip ← inode e
      let bp ← bread ip.dev addr
      let d ← data bp
      brelse bp
      let m := min left (BSIZE - off % BSIZE)
      let rest ← readiLoop e turns (off + m) (left - m)
      return (List.range m).map (fun i => d.u8 (off % BSIZE + i)) ++ rest

/-- `readi` (`fs.c:437-461`); `none` is the result -1. -/
def readi (e : Fin NINODE) (off n : Nat) : K (Option (List UInt8)) := do
  let ip ← inode e
  if ip.d.type = T_DEV then
    devRead e off n
  else if ip.d.size.toNat < off ∨ 2 ^ 32 ≤ off + n then
    return none
  else
    let n := min n (ip.d.size.toNat - off)
    let bytes ← readiLoop e n off n
    return some bytes

/-- The loop of `writei`; `src` is where the next byte comes from. -/
def writeiLoop (e : Fin NINODE) : Nat → (Nat → UInt8) → Nat → Nat → K Unit
  | 0, _, _, _ => return ()
  | turns + 1, src, off, left =>
    if left = 0 then return ()
    else do
      let addr ← bmap e (off / BSIZE)
      let ip ← inode e
      let bp ← bread ip.dev addr
      let d ← data bp
      let m := min left (BSIZE - off % BSIZE)
      writeBack bp (d.splice (off % BSIZE) src m)
      writeiLoop e turns (fun i => src (i + m)) (off + m) (left - m)

/-- The end of `writei`: a file that has grown is written back. -/
def writeiGrow (e : Fin NINODE) (off n : Nat) : K Unit := do
  let ip ← inode e
  if 0 < n ∧ ip.d.size.toNat < off + n then
    setDinode e fun d => { d with size := BitVec.ofNat 32 (off + n) }
    iupdate e
  else
    return ()

/-- `writei` (`fs.c:465-495`); `none` is the result -1. -/
def writei (e : Fin NINODE) (src : Nat → UInt8) (off n : Nat) : K (Option Nat) := do
  let ip ← inode e
  if ip.d.type = T_DEV then
    devWrite e n
  else if ip.d.size.toNat < off ∨ 2 ^ 32 ≤ off + n then
    return none
  else if MAXFILE * BSIZE < off + n then
    return none
  else
    writeiLoop e n src off n
    writeiGrow e off n
    return some n

end Xv6.Kernel
