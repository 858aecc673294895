import Xv6.Proc.Table
import Xv6.Vm.Memory

/-!
# fork and exec

What `fork` and `exec` do with memory. `exec` gets the file as a function that reads it: locating
the inode and letting go of it is the file system's part.
-/

namespace Xv6.Vm

open Lib

variable {im : Layout}

/-! ## `fork` -/

/-- `fork` (`proc.c:128-169`) as far as memory goes; `none` is the result -1. -/
def fork (im : Layout) (t : Ptable) (parent : Pgdir) (sz : Word) : V im (Option (Pgdir × Nat)) :=
  match t.findUnused with
  | none => return none
  | some _ => do
    let r ← kalloc
    match r with
    | none => return none
    | some kstack =>
      let r ← copyuvm im parent sz
      match r with
      | none =>
        kfree im kstack
        return none
      | some d => return some (d, kstack)

/-! ## `elf.h` -/

/-- `ELF_PROG_LOAD`. -/
def ELF_PROG_LOAD : Nat := 1
/-- `sizeof(struct proghdr)`. -/
def PROGHDRSZ : Nat := 32
/-- `MAXARG`. -/
def MAXARG : Nat := 32

/-- The fields of `struct elfhdr` that `exec` looks at. -/
structure Elfhdr where
  magic : Nat
  entry : Word
  phoff : Word
  phnum : Nat

/-- A `struct elfhdr` from its bytes. -/
def toElfhdr (bs : List UInt8) : Elfhdr where
  magic := le bs 0 4
  entry := BitVec.ofNat 32 (le bs 24 4)
  phoff := BitVec.ofNat 32 (le bs 28 4)
  phnum := le bs 44 2

/-- The fields of `struct proghdr` that `exec` looks at. -/
structure Proghdr where
  type : Nat
  off : Word
  vaddr : Word
  filesz : Word
  memsz : Word

/-- A `struct proghdr` from its bytes. -/
def toProghdr (bs : List UInt8) : Proghdr where
  type := le bs 0 4
  off := BitVec.ofNat 32 (le bs 4 4)
  vaddr := BitVec.ofNat 32 (le bs 8 4)
  filesz := BitVec.ofNat 32 (le bs 16 4)
  memsz := BitVec.ofNat 32 (le bs 20 4)

/-! ## `exec` -/

/-- The bytes of a word. -/
def wordBytes (w : Word) : List UInt8 := (List.range 4).map (Bytes.byteOf w.toNat)

/-- A segment for a program header (`exec.c:43-50`): memory for it, and its bytes from the file. The
result is the new size; `none` is `goto bad`. -/
def loadSegment (im : Layout) (rd : Reader) (ph : Proghdr) (d : Pgdir) (sz : Word) :
    V im (Pgdir × Option Word) :=
  if ph.type ≠ ELF_PROG_LOAD then
    return (d, some sz)
  else if ph.memsz < ph.filesz then
    return (d, none)
  else do
    let (d, sz) ← allocuvm im d sz (ph.vaddr + ph.memsz)
    if sz = 0 then
      return (d, none)
    else
      let ok ← loaduvm rd d ph.vaddr ph.off ph.filesz
      if ok then return (d, some sz) else return (d, none)

/-- One turn of the loop over the program headers (`exec.c:41-50`). -/
def loadNext (im : Layout) (rd : Reader) (off : Word) (d : Pgdir) (sz : Word) :
    V im (Pgdir × Option Word) :=
  match rd off.toNat PROGHDRSZ with
  | none => return (d, none)
  | some bs =>
    if bs.length ≠ PROGHDRSZ then return (d, none)
    else loadSegment im rd (toProghdr bs) d sz

/-- The loop over the program headers (`exec.c:40-51`). -/
def loadSegments (im : Layout) (rd : Reader) : Nat → Word → Pgdir → Word → V im (Pgdir × Option Word)
  | 0, _, d, sz => return (d, some sz)
  | phnum + 1, off, d, sz => do
    let (d, r) ← loadNext im rd off d sz
    match r with
    | none => return (d, none)
    | some sz => loadSegments im rd phnum (off + BitVec.ofNat 32 PROGHDRSZ) d sz

/-- The loop that pushes the argument strings (`exec.c:65-72`): the stack pointer and the addresses
of the strings so far. -/
def pushArgs (d : Pgdir) : List (List UInt8) → Nat → Word → List Word → V im (Option (Word × List Word))
  | [], _, sp, ustack => return some (sp, ustack)
  | arg :: args, argc, sp, ustack =>
    if MAXARG ≤ argc then
      return none
    else do
      let sp := BitVec.ofNat 32 ((sp - BitVec.ofNat 32 (arg.length + 1)).toNat / 4 * 4)
      let ok ← copyout d sp (arg ++ [0])
      if ok then pushArgs d args (argc + 1) sp (ustack ++ [sp]) else return none

/-- The user image that `exec` commits to. -/
structure Image where
  pgdir : Pgdir
  sz : Word
  eip : Word
  esp : Word

/-- The stack and the arguments (`exec.c:58-81`). -/
def setupStack (im : Layout) (argv : List (List UInt8)) (entry : Word) (d : Pgdir) (sz : Word) :
    V im (Pgdir × Option Image) := do
  let sz := PGROUNDUP sz
  let (d, sz) ← allocuvm im d sz (sz + BitVec.ofNat 32 (2 * PGSIZE))
  if sz = 0 then
    return (d, none)
  else
    let d ← clearpteu d (sz - BitVec.ofNat 32 (2 * PGSIZE))
    let r ← pushArgs d argv 0 sz []
    match r with
    | none => return (d, none)
    | some (sp, ustack) =>
      let argc := argv.length
      let frame := [BitVec.ofNat 32 0xffffffff, BitVec.ofNat 32 argc,
        sp - BitVec.ofNat 32 ((argc + 1) * 4)] ++ ustack ++ [0]
      let sp := sp - BitVec.ofNat 32 ((3 + argc + 1) * 4)
      let ok ← copyout d sp (frame.flatMap wordBytes)
      if ok then
        return (d, some { pgdir := d, sz := sz, eip := entry, esp := sp })
      else
        return (d, none)

/-- The new address space (`exec.c:36-81`) for a file with the header `elf`. -/
def buildImage (im : Layout) (rd : Reader) (elf : Elfhdr) (argv : List (List UInt8)) (d : Pgdir) :
    V im (Pgdir × Option Image) := do
  let (d, r) ← loadSegments im rd elf.phnum elf.phoff d 0
  match r with
  | none => return (d, none)
  | some sz => setupStack im argv elf.entry d sz

/-- The header of the file, if `exec` gets past it (`exec.c:30-34`). A result -1 of `readi` passes
the unsigned comparison, and the header is then what was on the stack. -/
def readHeader (rd : Reader) (stack : List UInt8) : Option Elfhdr :=
  let bs := (rd 0 ELFHDRSZ).getD stack
  if bs.length < ELFHDRSZ then none
  else if (toElfhdr bs).magic ≠ ELF_MAGIC then none
  else some (toElfhdr bs)

/-- `exec` (`exec.c:10-107`) of the file that `rd` reads, in place of the address space `old`;
`none` is the result -1. -/
def exec (im : Layout) (rd : Reader) (stack : List UInt8) (argv : List (List UInt8)) (old : Pgdir) :
    V im (Option Image) :=
  match readHeader rd stack with
  | none => return none
  | some elf => do
    let r ← setupkvm im
    match r with
    | none => return none
    | some d =>
      let (d, r) ← buildImage im rd elf argv d
      match r with
      | none =>
        freevm im d
        return none
      | some image =>
        freevm im old
        return some image

end Xv6.Vm
