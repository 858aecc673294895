import Xv6.File
import Xv6.Proc.Table

/-!
# The contents of procfs nodes

The formatters of `procfs.c`. Each returns the bytes that it leaves in the local buffer of
`procfsread`, `none` where it leaves the buffer as it was on the stack; the whole result is
`none` where the source has no defined behaviour: an index outside a table, a null or
uninitialised pointer, a negative number given to `itoa`.
-/

namespace Xv6

open Lib

/-! ## Names and numbers -/

/-- The characters of a string literal. -/
def cstr (s : String) : List UInt8 := s.toList.map fun c => UInt8.ofNat c.toNat

/-- `struct dirent` (`fs.h:51-54`). -/
structure Dirent where
  inum : BitVec 16
  name : Bytes DIRSIZ

/-- The sixteen bytes of a directory entry. -/
def Dirent.bytes (d : Dirent) : List UInt8 :=
  [Bytes.byteOf d.inum.toNat 0, Bytes.byteOf d.inum.toNat 1] ++ List.ofFn d.name

@[simp] theorem Dirent.length_bytes (d : Dirent) : d.bytes.length = DIRENTSZ := by
  have hname : (List.ofFn fun i => d.name i).length = DIRSIZ := List.length_ofFn
  rw [Dirent.bytes, List.length_append]
  exact congrArg (2 + ·) hname

theorem Dirent.length_flatMap_bytes (ds : List Dirent) :
    (ds.flatMap Dirent.bytes).length = DIRENTSZ * ds.length := by
  induction ds with
  | nil => rfl
  | cons d ds ih => simp [ih, Nat.mul_add, Nat.add_comm]

/-- `strncpy(de.name, s, DIRSIZ)`: the rest is filled with zeros. -/
def strncpyName (s : List UInt8) : Bytes DIRSIZ := fun i => s.getD i 0

/-- The first loop of `itoa` (`string.c:111-113`): the digits, last one first. -/
def itoaLoop : Nat → Nat → List UInt8
  | 0, _ => []
  | fuel + 1, x => UInt8.ofNat (48 + x % 10) :: if x / 10 = 0 then [] else itoaLoop fuel (x / 10)

/-- `itoa` (`string.c:106-121`); an `int` has at most ten digits. -/
def itoa (x : Int) : Option (List UInt8) :=
  if x < 0 then none else some (itoaLoop 10 x.toNat).reverse

/-- `itoa(x, de.name)`: the bytes behind the zero stay. -/
def itoaName (x : Int) (name : Bytes DIRSIZ) : Option (Bytes DIRSIZ) :=
  (itoa x).map fun s => name.splice 0 (fun i => (s ++ [0]).getD i 0) (s.length + 1)

/-! ## Directories -/

/-- The loop of `initProc` over the process table (`procfs.c:46-55`); `de.name` is the one local
variable of all iterations. -/
def initProcLoop (t : Ptable) : List (Fin NPROC) → Bytes DIRSIZ → Option (List Dirent)
  | [], _ => some []
  | k :: ks, name =>
    if (t.proc k).state = .unused then initProcLoop t ks name
    else do
      let name ← itoaName (t.proc k).pid name
      let rest ← initProcLoop t ks name
      return { inum := BitVec.ofInt 16 (700 * (t.proc k).pid), name := name } :: rest

/-- `initProc` (`procfs.c:24-59`). -/
def initProc (t : Ptable) (inum : Nat) : Option (List Dirent) := do
  let rest ← initProcLoop t (List.finRange NPROC) (strncpyName (cstr "inodestat"))
  return [{ inum := BitVec.ofNat 16 inum, name := strncpyName (cstr ".") },
    { inum := BitVec.ofNat 16 ROOTINO, name := strncpyName (cstr "..") },
    { inum := 660, name := strncpyName (cstr "blockstat") },
    { inum := 670, name := strncpyName (cstr "inodestat") }] ++ rest

/-- `initPID` (`procfs.c:61-90`): the four fixed entries, and one for the working directory if
there is one. -/
def initPID (t : Ptable) (icache : Fin NINODE → Inode) (currentInode inum : Nat) :
    Option (List Dirent) := do
  let p ← t.getProcByPID (inum / 700)
  let cwd := match (t.proc p).cwd with
    | none => []
    | some ip => [{ inum := BitVec.ofNat 16 (icache ip).inum, name := strncpyName (cstr "cwd") }]
  return [{ inum := BitVec.ofNat 16 inum, name := strncpyName (cstr ".") },
    { inum := BitVec.ofNat 16 currentInode, name := strncpyName (cstr "..") },
    { inum := BitVec.ofNat 16 (10 + inum), name := strncpyName (cstr "status") },
    { inum := BitVec.ofNat 16 (20 + inum), name := strncpyName (cstr "fdinfo") }] ++ cwd

/-- The loop of `fdinfo` (`procfs.c:118-126`). -/
def fdinfoLoop (p : Proc) (inum : Nat) : List (Fin NOFILE) → Bytes DIRSIZ → Option (List Dirent)
  | [], _ => some []
  | i :: is, name =>
    if p.ofile i = none then fdinfoLoop p inum is name
    else do
      let name ← itoaName i name
      let rest ← fdinfoLoop p inum is name
      return { inum := BitVec.ofNat 16 (inum + i + 1), name := name } :: rest

/-- `fdinfo` (`procfs.c:106-128`). -/
def fdinfo (t : Ptable) (inum : Nat) : Option (List Dirent) := do
  let p ← Ptable.getProc (inum / 700)
  let rest ← fdinfoLoop (t.proc p) inum (List.finRange NOFILE) (strncpyName (cstr ".."))
  return [{ inum := BitVec.ofNat 16 inum, name := strncpyName (cstr ".") },
    { inum := BitVec.ofInt 16 (inum - 20), name := strncpyName (cstr "..") }] ++ rest

/-! ## Texts -/

/-- `status` (`procfs.c:92-104`). -/
def status (t : Ptable) (inum : Nat) : Option (List UInt8) := do
  let p ← Ptable.getProc (inum / 700)
  let sz ← itoa (t.proc p).sz.toInt
  return cstr "Status: " ++ cstr (Ptable.getProcState (t.proc p)) ++ cstr " Size: " ++ sz ++
    cstr "\n"

/-- The line of `filesContent` about the access mode (`procfs.c:140-147`). -/
def flagsText (f : File) : List UInt8 :=
  if f.readable = true ∧ f.writable = true then cstr "RDWR"
  else if f.readable = false ∧ f.writable = true then cstr "RDONLY"
  else if f.readable = true ∧ f.writable = false then cstr "WRONLY"
  else cstr "no flags , sad so sad"

/-- The index into `p->ofile` that `filesContent` uses, which is `fd - 1` (`procfs.c:132-135`). -/
def fdIndex (inum : Nat) : Int := ((inum % 700 - 20) % NOFILE : Nat) - 1

/-- `p->ofile[fd-1]`, which is outside the array for the last descriptor. -/
def ofileAt (p : Proc) (inum : Nat) : Option (Fin NFILE) :=
  if h : 0 ≤ fdIndex inum ∧ (fdIndex inum).toNat < NOFILE then p.ofile ⟨_, h.2⟩ else none

/-- `filesContent` (`procfs.c:130-156`). -/
def filesContent (t : Ptable) (ftable : Fin NFILE → File) (icache : Fin NINODE → Inode)
    (inum : Nat) : Option (List UInt8) := do
  let p ← Ptable.getProc (inum / 700)
  let slot ← ofileAt (t.proc p) inum
  let f := ftable slot
  let off ← itoa (BitVec.ofNat 32 f.off).toInt
  let ip ← f.ip
  let inumText ← if f.type = .inode then
      (itoa (BitVec.ofNat 32 (icache ip).inum).toInt).map (cstr "\nINODE NUMBER: " ++ ·)
    else some []
  let ref ← itoa (icache ip).ref
  return cstr "TYPE: " ++ cstr (fileType f) ++ cstr "\nPOSITION: " ++ off ++ cstr "\nflags: " ++
    flagsText f ++ inumText ++ cstr "\nREFERENCE COUNT: " ++ ref ++ cstr "\n"

/-- The file that `filesContent` reports. -/
def openSlot (t : Ptable) (inum : Nat) : Option (Fin NFILE) :=
  (Ptable.getProc (inum / 700)).bind fun p => ofileAt (t.proc p) inum

/-- Its line about the inode number. -/
def inumText (f : File) (icache : Fin NINODE → Inode) : Option (List UInt8) :=
  if f.type = .inode then
    f.ip.bind fun ip =>
      (itoa (BitVec.ofNat 32 (icache ip).inum).toInt).map (cstr "\nINODE NUMBER: " ++ ·)
  else some []

/-- What `filesContent` says about it, behind the first label. -/
def linesText (f : File) (icache : Fin NINODE → Inode) : Option (List UInt8) := do
  let off ← itoa (BitVec.ofNat 32 f.off).toInt
  let ip ← f.ip
  let inum ← inumText f icache
  let ref ← itoa (icache ip).ref
  return cstr (fileType f) ++ cstr "\nPOSITION: " ++ off ++ cstr "\nflags: " ++ flagsText f ++ inum ++
    cstr "\nREFERENCE COUNT: " ++ ref ++ cstr "\n"

/-- `filesContent` depends on the process table only through the file it reports. -/
theorem filesContent_eq (t : Ptable) (ftable : Fin NFILE → File) (icache : Fin NINODE → Inode)
    (inum : Nat) : filesContent t ftable icache inum = (openSlot t inum).bind fun slot =>
      (linesText (ftable slot) icache).map (cstr "TYPE: " ++ ·) := by
  unfold filesContent openSlot
  cases Ptable.getProc (inum / 700) with
  | none => rfl
  | some p =>
    simp only [Option.bind_eq_bind, Option.bind_some]
    cases ofileAt (t.proc p) inum with
    | none => rfl
    | some slot =>
      simp only [Option.bind_some, linesText, inumText, Option.bind_eq_bind]
      cases itoa (BitVec.ofNat 32 (ftable slot).off).toInt with
      | none => rfl
      | some off =>
        cases (ftable slot).ip with
        | none => rfl
        | some ip =>
          by_cases htype : (ftable slot).type = .inode
          · simp only [htype, if_true, Option.bind_some]
            cases itoa (BitVec.ofNat 32 (icache ip).inum).toInt <;>
              cases itoa (icache ip).ref <;> simp
          · simp only [htype, if_false, Option.bind_some]
            cases itoa (icache ip).ref <;> simp

/-- `blockstat` (`procfs.c:168-179`). -/
def blockstat (c : Bcache) : Option (List UInt8) := do
  let free ← itoa c.freeBlockNumber
  let total ← itoa NBUF
  let hits ← itoa c.numberOfHits
  let acsses ← itoa c.numberOfBlockAcsses
  return cstr "Free blocks: " ++ free ++ cstr "\nTotal blocks: " ++ total ++
    cstr "\nHits ratio: " ++ hits ++ cstr "/" ++ acsses ++ cstr "\n"

/-- `get_number_of_free_inode` (`fs.c:671-683`). -/
def getNumberOfFreeInode (icache : Fin NINODE → Inode) : Int :=
  (List.finRange NINODE).countP fun e => !(icache e).busy && !(icache e).valid

/-- `number_of_valid_inode` (`fs.c:686-697`). -/
def numberOfValidInode (icache : Fin NINODE → Inode) : Int :=
  (List.finRange NINODE).countP fun e => (icache e).valid

/-- `get_number_of_ref` (`fs.c:699-708`). -/
def getNumberOfRef (icache : Fin NINODE → Inode) : Int :=
  ((List.finRange NINODE).map fun e => (icache e).ref).sum

/-- `get_number_of_active_inode` (`fs.c:710-712`). -/
def getNumberOfActiveInode (icache : Fin NINODE → Inode) : Int :=
  NINODE - getNumberOfFreeInode icache

/-- `inodestat` (`procfs.c:181-192`). -/
def inodestat (icache : Fin NINODE → Inode) : Option (List UInt8) := do
  let free ← itoa (getNumberOfFreeInode icache)
  let valid ← itoa (numberOfValidInode icache)
  let ref ← itoa (getNumberOfRef icache)
  let active ← itoa (getNumberOfActiveInode icache)
  return cstr "Free inodes: " ++ free ++ cstr "\nValid inode: " ++ valid ++
    cstr "\nRefs per inode: " ++ ref ++ cstr "/" ++ active ++ cstr "\n"

/-! ## Dispatch -/

/-- What a procfs inode number selects in `procfsread` (`procfs.c:218-253`). -/
inductive Command where
  | proc | pid | status | fdinfo | blockstat | inodestat | fd
  /-- No case of the `switch`: the node is empty. -/
  | nothing
  deriving DecidableEq, Repr

/-- The `switch` of `procfsread`. -/
def command (inum : Nat) : Command :=
  let c := inum % 700
  if 21 ≤ c ∧ c ≤ 36 then .fd
  else if c = 19 then .proc
  else if c = 0 then .pid
  else if c = 10 then .status
  else if c = 20 then .fdinfo
  else if c = 660 then .blockstat
  else if c = 670 then .inodestat
  else .nothing

/-- The `minor` that `procfsiread` stores (`procfs.c:208-211`). -/
def procfsMinor (inum : Nat) : BitVec 16 :=
  if inum = 19 ∨ inum % 700 = 0 ∨ inum % 700 = 20 then T_DIR else T_FILE

end Xv6
