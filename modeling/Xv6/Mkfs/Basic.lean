import Xv6.Fs.Layout
import Xv6.Procfs.Listing

/-!
# mkfs

`mkfs.c`, the program on the build host that writes the first image. It allocates inodes and blocks
in order, and marks the blocks it has used when it is done. It stops at a failed `assert`, and when
a sector behind the end of the image is read.
-/

namespace Xv6

open Lib

/-- The image and the counters of `mkfs.c:21-27`. -/
structure Mkfs where
  disk : Nat → Block
  /-- The sectors that the image has so far. -/
  length : Nat
  freeblock : Nat
  usedblocks : Nat
  freeinode : Nat

namespace Mkfs

/-- `nblocks` (`mkfs.c:16`). -/
def nblocks : Nat := 995 - LOGSIZE

/-- `nlog` (`mkfs.c:17`). -/
def nlog : Nat := LOGSIZE

/-- `size` (`mkfs.c:19`). -/
def size : Nat := 1024

/-- `bitblocks` (`mkfs.c:91`). -/
def bitblocks : Nat := size / (512 * 8) + 1

/-- The first value of `usedblocks` (`mkfs.c:92`): the blocks of metadata. -/
def metablocks : Nat := NINODES / IPB + 3 + bitblocks

/-- The superblock (`mkfs.c:86-89`). -/
def sb : Superblock := { size := size, nblocks := nblocks, ninodes := NINODES, nlog := nlog }

/-- The sector with the superblock. -/
def sbBlock : Block :=
  ((((Bytes.zero BSIZE).put32 0 (BitVec.ofNat 32 size)).put32 4 (BitVec.ofNat 32 nblocks)).put32 8
    (BitVec.ofNat 32 NINODES)).put32 12 (BitVec.ofNat 32 nlog)

/-- The image after it has been cleared and the superblock written (`mkfs.c:91-105`). -/
def start : Mkfs where
  disk := Function.update (fun _ => Bytes.zero BSIZE) 1 sbBlock
  length := size
  freeblock := metablocks
  usedblocks := metablocks
  freeinode := 1

/-- `wsect` (`mkfs.c:160-171`). -/
def wsect (sec : Nat) (buf : Block) : Prog Mkfs Unit :=
  Prog.modify fun m => { m with
    disk := Function.update m.disk sec buf
    length := max m.length (sec + 1) }

/-- `rsect` (`mkfs.c:206-217`). -/
def rsect (sec : Nat) : Prog Mkfs Block := fun m =>
  if sec < m.length then .ok (m.disk sec) m else .halt (.panic "read")

/-- `winode` (`mkfs.c:179-191`). -/
def winode (inum : Nat) (d : Dinode) : Prog Mkfs Unit := do
  let buf ← rsect (iblock inum)
  wsect (iblock inum) (putDinode buf (inum % IPB) d)

/-- `rinode` (`mkfs.c:193-204`). -/
def rinode (inum : Nat) : Prog Mkfs Dinode := do
  let buf ← rsect (iblock inum)
  return getDinode buf (inum % IPB)

/-- `ialloc` (`mkfs.c:219-231`). -/
def ialloc (type : BitVec 16) : Prog Mkfs Nat := do
  let m ← Prog.get
  Prog.modify fun m => { m with freeinode := m.freeinode + 1 }
  winode m.freeinode { Dinode.zero with type := type, nlink := 1 }
  return m.freeinode

/-- `freeblock++`, with the count of used blocks. -/
def takeBlock : Prog Mkfs Nat := do
  let m ← Prog.get
  Prog.modify fun m => { m with freeblock := m.freeblock + 1, usedblocks := m.usedblocks + 1 }
  return m.freeblock

/-- The two places of `iappend` that fill a missing address of the inode. -/
def iappendAddr (din : Dinode) (i : Fin (NDIRECT + 1)) : Prog Mkfs Dinode := do
  if din.addrs i = 0 then
    let b ← takeBlock
    return { din with addrs := Function.update din.addrs i (BitVec.ofNat 32 b) }
  else
    return din

/-- The lookup of `iappend` in the indirect block `a`. -/
def iappendEntry (a j : Nat) : Prog Mkfs Nat := do
  let indirect ← rsect a
  if getAddr indirect j = 0 then
    let b ← takeBlock
    wsect a (putAddr indirect j (BitVec.ofNat 32 b))
    return b
  else
    return (getAddr indirect j).toNat

/-- The block for file block `fbn` (`mkfs.c:267-287`). -/
def iappendBlock (din : Dinode) (fbn : Nat) : Prog Mkfs (Dinode × Nat) := do
  if h : fbn < NDIRECT then
    let din ← iappendAddr din ⟨fbn, Nat.lt_succ_of_lt h⟩
    return (din, (din.addrs ⟨fbn, Nat.lt_succ_of_lt h⟩).toNat)
  else
    let din ← iappendAddr din (Fin.last NDIRECT)
    let x ← iappendEntry (din.addrs (Fin.last NDIRECT)).toNat (fbn - NDIRECT)
    return (din, x)

/-- The loop of `iappend`; every turn copies at least one byte. -/
def iappendLoop : Nat → Dinode → (Nat → UInt8) → Nat → Nat → Prog Mkfs (Dinode × Nat)
  | 0, din, _, off, _ => return (din, off)
  | turns + 1, din, src, off, n =>
    if n = 0 then return (din, off)
    else if off / BSIZE < MAXFILE then do
      let (din, x) ← iappendBlock din (off / BSIZE)
      let n1 := min n ((off / BSIZE + 1) * BSIZE - off)
      let buf ← rsect x
      wsect x (buf.splice (off - off / BSIZE * BSIZE) src n1)
      iappendLoop turns din (fun i => src (i + n1)) (off + n1) (n - n1)
    else
      Prog.panic "fbn < MAXFILE"

/-- `iappend` (`mkfs.c:251-298`) of `n` bytes of `src`. -/
def iappend (inum : Nat) (src : Nat → UInt8) (n : Nat) : Prog Mkfs Unit := do
  let din ← rinode inum
  let (din, off) ← iappendLoop n din src din.size.toNat n
  winode inum { din with size := BitVec.ofNat 32 off }

/-- The bytes of a list, as a source to copy from. -/
def bytesOf (bs : List UInt8) : Nat → UInt8 := fun i => bs.getD i 0

/-- A directory entry is added to the root directory. -/
def addEntry (inum : Nat) (name : List UInt8) : Prog Mkfs Unit :=
  iappend ROOTINO (bytesOf { inum := BitVec.ofNat 16 inum, name := strncpyName name : Dirent }.bytes)
    DIRENTSZ

/-- The loop that copies a file, a buffer at a time (`mkfs.c:142-143`). -/
def copyFile (inum : Nat) : Nat → List UInt8 → Prog Mkfs Unit
  | 0, _ => return ()
  | turns + 1, bs =>
    if bs = [] then return ()
    else do
      iappend inum (bytesOf (bs.take BSIZE)) (bs.take BSIZE).length
      copyFile inum turns (bs.drop BSIZE)

/-- A file of the build host: the name it is given and its contents. -/
structure HostFile where
  name : List UInt8
  bytes : List UInt8

/-- The name without a leading underscore (`mkfs.c:132-133`). -/
def HostFile.stripped (f : HostFile) : List UInt8 :=
  if f.name.head? = some 95 then f.name.tail else f.name

/-- One turn of the loop over the arguments (`mkfs.c:120-146`). -/
def addFile (f : HostFile) : Prog Mkfs Unit := do
  if 47 ∈ f.name then
    Prog.panic "index(argv[i], '/') == 0"
  else
    let inum ← ialloc T_FILE
    addEntry inum f.stripped
    copyFile inum f.bytes.length f.bytes

/-- The loop over the arguments. -/
def addFiles : List HostFile → Prog Mkfs Unit
  | [] => return ()
  | f :: fs => do
    addFile f
    addFiles fs

/-- The bitmap with the first `used` bits set (`mkfs.c:241-244`). -/
def bitmap : Nat → Block
  | 0 => Bytes.zero BSIZE
  | used + 1 => setBit (bitmap used) used

/-- `balloc` (`mkfs.c:233-247`). -/
def balloc (used : Nat) : Prog Mkfs Unit := do
  if used < 512 * 8 then
    wsect (NINODES / IPB + 3) (bitmap used)
  else
    Prog.panic "used < 512*8"

/-- The size of the root directory is rounded up (`mkfs.c:148-153`). -/
def fixRoot : Prog Mkfs Unit := do
  let din ← rinode ROOTINO
  winode ROOTINO
    { din with size := BitVec.ofNat 32 ((din.size.toNat / BSIZE + 1) * BSIZE) }

/-- `main` from the allocation of the root directory on (`mkfs.c:107-158`). -/
def main (files : List HostFile) : Prog Mkfs Unit := do
  let root ← ialloc T_DIR
  if root = ROOTINO then
    addEntry root (cstr ".")
    addEntry root (cstr "..")
    addFiles files
    fixRoot
    let m ← Prog.get
    balloc m.usedblocks
  else
    Prog.panic "rootino == ROOTINO"

end Mkfs

end Xv6
