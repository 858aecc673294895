import Xv6.Kernel

/-!
# Disk blocks

The superblock and the block allocator of `fs.c`.
-/

namespace Xv6.Kernel

open Lib

/-- `readsb` (`fs.c:26-34`). -/
def readsb (dev : Nat) : K Superblock := do
  let bp ← bread dev 1
  let d ← data bp
  brelse bp
  return getSuperblock d

/-- `bzero` (`fs.c:37-46`). -/
def bzero (dev bno : Nat) : K Unit := do
  let bp ← bread dev bno
  writeBack bp (Bytes.zero BSIZE)

/-- The inner loop of `balloc`: the first clear bit of a bitmap block whose first bit is for
block `b`. -/
@[irreducible] def findClear (d : Block) (b size : Nat) : Option Nat :=
  (List.range BPB).find? fun bi => decide (b + bi < size) && !testBit d bi

/-- One turn of the outer loop of `balloc`, for the bitmap block that starts with block `b`. -/
def ballocBlock (dev : Nat) (sb : Superblock) (b : Nat) : K (Option Nat) := do
  let bp ← bread dev (bblock b sb.ninodes)
  let d ← data bp
  match findClear d b sb.size with
  | some bi =>
    writeBack bp (setBit d bi)
    bzero dev (b + bi)
    return some (b + bi)
  | none =>
    brelse bp
    return none

/-- The outer loop of `balloc`. -/
def ballocLoop (dev : Nat) (sb : Superblock) : List Nat → K Nat
  | [] => Act.panic "balloc: out of blocks"
  | b :: bs => do
    let r ← ballocBlock dev sb b
    match r with
    | some b => return b
    | none => ballocLoop dev sb bs

/-- `balloc` (`fs.c:51-75`). -/
def balloc (dev : Nat) : K Nat := do
  let k ← Act.get
  let sb ← readsb dev
  let b ← ballocLoop dev sb ((List.range ((sb.size + BPB - 1) / BPB)).map (· * BPB))
  Act.emit (.balloc k.store b)
  return b

/-- `bfree` (`fs.c:79-95`). -/
def bfree (dev b : Nat) : K Unit := do
  let sb ← readsb dev
  let bp ← bread dev (bblock b sb.ninodes)
  let d ← data bp
  if testBit d (b % BPB) then
    writeBack bp (clearBit d (b % BPB))
  else
    Act.panic "freeing free block"

end Xv6.Kernel
