import Xv6.Fs.Inode

/-!
# Directories and paths

The last part of `fs.c`. A path is the list of its characters before the terminating zero, and a
name the at most `DIRSIZ` characters of one element.
-/

namespace Xv6.Kernel

open Lib

/-- Characters of a path. -/
abbrev Path : Type := List UInt8

/-- The character that separates path elements. -/
def slash : UInt8 := 47

/-- A `struct dirent` read from sixteen bytes. -/
def toDirent (bs : List UInt8) : Dirent where
  inum := BitVec.ofNat 16 ((bs.getD 0 0).toNat + 256 * (bs.getD 1 0).toNat)
  name := fun i => bs.getD (2 + i) 0

theorem toDirent_bytes (d : Dirent) :
    toDirent ((List.range DIRENTSZ).map fun k => d.bytes.getD k 0) = d := by
  have hget : ∀ k, k < DIRENTSZ → ((List.range DIRENTSZ).map fun k => d.bytes.getD k 0).getD k 0 =
      d.bytes.getD k 0 := by
    intro k hk
    simp [List.getD_eq_getElem?_getD, hk]
  have hinum : BitVec.ofNat 16 ((Bytes.byteOf d.inum.toNat 0).toNat +
      256 * (Bytes.byteOf d.inum.toNat 1).toNat) = d.inum := by
    have hlt := d.inum.isLt
    apply BitVec.eq_of_toNat_eq
    simp only [Bytes.toNat_byteOf, BitVec.toNat_ofNat]
    omega
  have hname : ∀ i : Fin DIRSIZ, d.bytes.getD (2 + i) 0 = d.name i := by
    intro i
    have hofFn : (List.ofFn fun i => d.name i).getD i 0 = d.name i := by
      simp [List.getD_eq_getElem?_getD]
    rw [Dirent.bytes, List.getD_append_right _ _ _ _ (Nat.le_add_right 2 i)]
    exact (congrArg (List.getD _ · 0) (Nat.add_sub_cancel_left ..)).trans hofFn
  unfold toDirent
  rw [hget 0 (by decide), hget 1 (by decide)]
  cases d with
  | mk inum name =>
    congr 1
    funext i
    rw [hget (2 + i) (by have := i.isLt; simp only [DIRSIZ, DIRENTSZ] at *; omega)]
    exact hname i

theorem inum_toDirent_zero :
    (toDirent ((List.range DIRENTSZ).map fun _ => 0)).inum = 0 := by decide

/-- Whether `namecmp` (`fs.c:500-504`) finds a name equal to that of an entry. -/
def namecmp (s : Path) (t : Bytes DIRSIZ) : Bool :=
  decide (s.take DIRSIZ = (List.ofFn t).takeWhile (· ≠ 0))

/-- What `dirlookup` does when an entry matches: `devsw[dp->major].iread` is `procfsiread` or
missing. -/
def dirFound (e : Fin NINODE) (inum off : Nat) : K (Option (Fin NINODE × Nat)) := do
  let dp ← inode e
  let f ← iget dp.dev inum
  let ip ← inode f
  if ip.valid = false ∧ dp.d.type = T_DEV ∧ dp.d.major.toInt = PROCFS then
    procfsiread f
    return some (f, off)
  else
    return some (f, off)

/-- The loop of `dirlookup`. -/
def dirlookupLoop (e : Fin NINODE) (name : Path) : Nat → Nat → K (Option (Fin NINODE × Nat))
  | 0, _ => Act.sleep
  | turns + 1, off => do
    let dp ← inode e
    if off < dp.d.size.toNat ∨ dp.d.type = T_DEV then
      let r ← readi e off DIRENTSZ
      let bs := r.getD []
      if bs.length ≠ DIRENTSZ then
        if dp.d.type = T_DEV then return none else Act.panic "dirlink read"
      else if (toDirent bs).inum = 0 then
        dirlookupLoop e name turns (off + DIRENTSZ)
      else if namecmp name (toDirent bs).name then
        dirFound e (toDirent bs).inum.toNat off
      else
        dirlookupLoop e name turns (off + DIRENTSZ)
    else
      return none

/-- `dirlookup` (`fs.c:508-541`), with the offset it stores. A listing of procfs has at most
`BUFFSIZE / DIRENTSZ` entries, so the loop ends within the given number of turns. -/
def dirlookup (e : Fin NINODE) (name : Path) : K (Option (Fin NINODE × Nat)) := do
  let dp ← inode e
  if dp.d.type = T_DIR then
    dirlookupLoop e name (dp.d.size.toNat / DIRENTSZ + NPROC + 8) 0
  else
    let dir ← isDevDir e
    if dir then
      dirlookupLoop e name (dp.d.size.toNat / DIRENTSZ + NPROC + 8) 0
    else
      Act.panic "dirlookup not DIR"

/-- The search of `dirlink` for an empty entry. -/
def dirlinkSlot (e : Fin NINODE) : Nat → Nat → K Nat
  | 0, off => return off
  | turns + 1, off => do
    let dp ← inode e
    if off < dp.d.size.toNat then
      let r ← readi e off DIRENTSZ
      let bs := r.getD []
      if bs.length ≠ DIRENTSZ then
        Act.panic "dirlink read"
      else if (toDirent bs).inum = 0 then
        return off
      else
        dirlinkSlot e turns (off + DIRENTSZ)
    else
      return off

/-- The bytes of an entry as `writei` takes them. -/
def direntSrc (d : Dirent) : Nat → UInt8 := fun i => d.bytes.getD i 0

/-- `dirlink` (`fs.c:544-573`); `false` is the result -1. -/
def dirlink (e : Fin NINODE) (name : Path) (inum : Nat) : K Bool := do
  let found ← dirlookup e name
  match found with
  | some (ip, _) =>
    iput ip
    return false
  | none =>
    let dp ← inode e
    let off ← dirlinkSlot e (dp.d.size.toNat / DIRENTSZ + 1) 0
    let de : Dirent := { inum := BitVec.ofNat 16 inum, name := strncpyName name }
    let r ← writei e (direntSrc de) off DIRENTSZ
    if r = some DIRENTSZ then
      return true
    else
      Act.panic "dirlink"

/-! ## Paths -/

/-- `skipelem` (`fs.c:590-612`): the next element and the path behind it. -/
def skipelem (path : Path) : Option (Path × Path) :=
  let path := path.dropWhile (· = slash)
  if path = [] then none
  else
    let s := path.takeWhile (· ≠ slash)
    some (s.take DIRSIZ, (path.drop s.length).dropWhile (· = slash))

/-- The loop of `namex`. Every turn takes a character off the path. -/
def namexLoop (nameiparent : Bool) : Nat → Fin NINODE → Path → K (Option (Fin NINODE × Path))
  | 0, _, _ => Act.sleep
  | turns + 1, ip, path =>
    match skipelem path with
    | none =>
      if nameiparent then do
        iput ip
        return none
      else return some (ip, [])
    | some (name, rest) => do
      ilock ip
      let dp ← inode ip
      let dir ← if dp.d.type = T_DIR then pure true else isDevDir ip
      if dir = false then
        iunlockput ip
        return none
      else if nameiparent = true ∧ rest = [] then
        iunlock ip
        return some (ip, name)
      else
        let next ← dirlookup ip name
        iunlockput ip
        match next with
        | none => return none
        | some (next, _) => namexLoop nameiparent turns next rest

/-- `proc->cwd`; a null pointer is followed. -/
def cwd : K (Fin NINODE) := do
  let k ← Act.get
  match (k.ptable.proc k.cur).cwd with
  | none => Act.undefined
  | some e => return e

/-- `namex` (`fs.c:617-650`), with the last name when `nameiparent` is set. -/
def namex (path : Path) (nameiparent : Bool) : K (Option (Fin NINODE × Path)) := do
  let ip ← if path.head? = some slash then iget ROOTDEV ROOTINO else do
    let e ← cwd
    idup e
  namexLoop nameiparent (path.length + 1) ip path

/-- `namei` (`fs.c:652-657`). -/
def namei (path : Path) : K (Option (Fin NINODE)) := do
  let r ← namex path false
  return r.map Prod.fst

/-- `nameiparent` (`fs.c:659-663`). -/
def nameiparent (path : Path) : K (Option (Fin NINODE × Path)) := namex path true

end Xv6.Kernel
