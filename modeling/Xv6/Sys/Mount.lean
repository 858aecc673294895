import Xv6.Fs.Budget
import Xv6.Fs.Ownership
import Xv6.Sys.Boot

/-!
# Disks to boot from

A disk with its log, what makes it one that can be booted, and the small disks of the runs that
serve as examples.
-/

namespace Xv6

open Lib Kernel

/-- A disk with its log. -/
structure Mount where
  region : Region
  /-- The first block of the log. -/
  start : Nat
  order : region.lo ≤ start
  /-- Whether all major numbers are known to be indices into `devsw`. -/
  ranged : Prop

/-- The number of inodes. -/
def Mount.ninodes (m : Mount) : Nat := m.region.sb.ninodes

/-- A major number that is an index into `devsw`. -/
def DevIndex (major : BitVec 16) : Prop := 0 ≤ major.toInt ∧ major.toInt < NDEV

instance (major : BitVec 16) : Decidable (DevIndex major) := by unfold DevIndex; infer_instance

/-- The entry is free, or names an inode of the disk. -/
def Dirent.Names (n : Nat) (d : Dirent) : Prop := d.inum = 0 ∨ OnDisk n d.inum.toNat

instance (n : Nat) (d : Dirent) : Decidable (d.Names n) := inferInstanceAs (Decidable (_ ∨ _))

namespace Vnode

/-- The entry at `off` of a directory. -/
def dirent (nd : Vnode) (off : Nat) : Dirent :=
  Kernel.toDirent ((List.range DIRENTSZ).map fun i => nd.byte (off + i))

/-- A directory names inodes of the disk, and the number of a device is in range if all are. -/
structure Lists (m : Mount) (nd : Vnode) : Prop where
  names : nd.type = T_DIR → ∀ i, DIRENTSZ * i + DIRENTSZ ≤ nd.size →
    (nd.dirent (DIRENTSZ * i)).Names m.ninodes
  device : m.ranged → nd.type = T_DEV → DevIndex nd.major

end Vnode

/-- All directories name inodes of the disk, and all devices are in range if that is known. -/
def Named (m : Mount) (fs : Nat → Vnode) : Prop := ∀ j, (fs j).Lists m

/-- A disk that can be booted: consistent, with the blocks of the files in front of the log, and
directories that name inodes of the disk. -/
structure Bootable (m : Mount) (v : Nat → Block) : Prop where
  consistent : Consistent m.region v
  start : m.start = m.region.sb.size - m.region.sb.nlog
  below : ∀ p b, refs v m.ninodes (dino v) p = some b → b < m.start
  named : Named m (nodes v m.ninodes (dino v))
  root : OnDisk m.ninodes ROOTINO

/-- The log that `initlog` finds. -/
def Mount.log (m : Mount) : Log := .initlog m.region.sb.size m.region.sb.nlog

/-- A fresh buffer cache in front of a disk. -/
def freshStore (disk : Nat → Block) (disksize : Nat) : Store :=
  { disk := disk, disksize := disksize, bcache := binit }

namespace Kernel

/-! ## Disks on which only the root directory has a block -/

/-- Block `b` is that of the root directory, and no inode has another one. -/
structure RootOnly (m : Mount) (v : Nat → Block) (b : BitVec 32) : Prop where
  super : getSuperblock (v 1) = m.region.sb
  start : m.start = m.region.sb.size - m.region.sb.nlog
  reserved : ∀ c < m.region.top, ¬ (m.region.lo ≤ c ∧ c < m.region.hi) → bit v m.ninodes c = true
  bitmap : ∀ c < m.region.hi, m.region.lo ≤ c → (bit v m.ninodes c = true ↔ c = b.toNat)
  inside : m.region.lo ≤ b.toNat ∧ b.toNat < m.start ∧ m.start ≤ m.region.hi
  root : 1 < m.ninodes ∧ (dino v 1).type = T_DIR
  addrs : ∀ j < m.ninodes, ∀ i, (dino v j).addrs i = if j = 1 ∧ i = 0 then b else 0
  size : ∀ j < m.ninodes, (dino v j).size.toNat ≤ if j = 1 then BSIZE else 0
  names : ∀ j < m.ninodes, ∀ i < BSIZE / DIRENTSZ, (nodes v m.ninodes (dino v) j).type = T_DIR →
    DIRENTSZ * i + DIRENTSZ ≤ (nodes v m.ninodes (dino v) j).size →
    ((nodes v m.ninodes (dino v) j).dirent (DIRENTSZ * i)).Names m.ninodes
  device : ∀ j < m.ninodes, (nodes v m.ninodes (dino v) j).type = T_DEV →
    DevIndex (nodes v m.ninodes (dino v) j).major

namespace RootOnly

variable {m : Mount} {v : Nat → Block} {b : BitVec 32}

theorem ne_zero (h : RootOnly m v b) : b ≠ 0 := by
  rintro rfl
  exact absurd (lt_of_lt_of_le m.region.inodes h.inside.1) (Nat.not_lt_zero _)

theorem refs_root (h : RootOnly m v b) :
    refs v m.ninodes (dino v) (1, .addr 0) = some b.toNat := by
  have hl : Allocated m.ninodes (dino v) 1 := ⟨le_refl _, h.root.1, by rw [h.root.2]; decide⟩
  rw [refs, if_pos hl, slotRef, h.addrs 1 h.root.1 0, if_pos ⟨rfl, rfl⟩, ptr_of_ne h.ne_zero]

theorem refs_eq {p : Pos} {c : Nat} (h : RootOnly m v b)
    (hp : refs v m.ninodes (dino v) p = some c) : p = (1, .addr 0) ∧ c = b.toNat := by
  obtain ⟨j, s⟩ := p
  obtain ⟨hl, hs⟩ := refs_eq_some hp
  cases s with
  | addr i =>
    simp only [slotRef, h.addrs j hl.2.1] at hs
    split at hs
    · rename_i hroot
      exact ⟨by rw [hroot.1, hroot.2], (ptr_eq_some hs).2.symm⟩
    · cases hs
  | entry i =>
    have hlast : Fin.last NDIRECT ≠ 0 := by decide
    simp only [slotRef, h.addrs j hl.2.1, hlast, and_false, if_false] at hs
    cases hs

theorem consistent (h : RootOnly m v b) : Consistent m.region v where
  super := h.super
  reserved := h.reserved
  bitmap := fun c hlo hhi => by
    refine (h.bitmap c hhi hlo).trans ⟨?_, fun ⟨p, hp⟩ => (h.refs_eq hp).2⟩
    rintro rfl
    exact ⟨_, h.refs_root⟩
  inside := fun p c hp => by
    obtain ⟨-, rfl⟩ := h.refs_eq hp
    exact ⟨h.inside.1, lt_of_lt_of_le h.inside.2.1 h.inside.2.2⟩
  once := fun p q c hp hq => by rw [(h.refs_eq hp).1, (h.refs_eq hq).1]
  mapped := fun j hj bn hbn => by
    have hsize := h.size j hj.2.1
    by_cases hroot : j = 1
    · subst hroot
      rw [if_pos rfl] at hsize
      obtain rfl : bn = 0 := by
        unfold BSIZE at hsize hbn
        omega
      exact ⟨_, _, rfl, h.refs_root⟩
    · rw [if_neg hroot] at hsize
      rw [Nat.le_zero.mp hsize] at hbn
      exact absurd hbn (by decide +revert)

theorem named (h : RootOnly m v b) : Named m (nodes v m.ninodes (dino v)) := by
  intro j
  by_cases hj : Allocated m.ninodes (dino v) j
  · refine ⟨fun htype i hi => h.names j hj.2.1 i ?_ htype hi, fun _ => h.device j hj.2.1⟩
    have hsize := h.size j hj.2.1
    rw [nodes_of_allocated hj] at hi
    have hi' : DIRENTSZ * i + DIRENTSZ ≤ (dino v j).size.toNat := hi
    unfold BSIZE at hsize
    unfold DIRENTSZ at hi'
    show i < 32
    split at hsize <;> omega
  · have hfree : nodes v m.ninodes (dino v) j = .free := if_neg hj
    rw [hfree]
    exact ⟨fun ht => absurd ht (by decide), fun _ ht => absurd ht (by decide)⟩

theorem bootable (h : RootOnly m v b) : Bootable m v where
  consistent := h.consistent
  start := h.start
  below := fun p c hp => by
    obtain ⟨-, rfl⟩ := h.refs_eq hp
    exact h.inside.2.1
  named := h.named
  root := ⟨le_refl _, h.root.1⟩

end RootOnly

/-- How `rootDisk` is laid out. -/
def rootMount : Mount where
  region := newFileRegion
  start := 40
  order := by decide
  ranged := True

/-- The environment of `rootRun`. -/
def rootEnv : Env := { junk := fun _ _ => 0, input := fun _ => none, memory := fun _ => true }

theorem rootDisk_bootable : Bootable rootMount rootDisk :=
  RootOnly.bootable (b := 5) (by constructor <;> decide +kernel)

/-! ## The device switch -/

/-- One of the devices of `init`. -/
def consoleNode : List (Fin NPROC × Call) :=
  [(proc0, .mknod (some (cstr "console")) (some 1) (some 1))]

/-! ## A disk with procfs on it -/

/-- The root directory holds these entries, in block 7. -/
def procRoot : List Dirent := [dirent 1 ".", dirent 1 "..", dirent 19 "proc"]

/-- The disk; `/proc` is inode 19, as on the disk that `mkfs` and `init` make. -/
def procDisk (s : Nat) : Block :=
  if s = 1 then (((Bytes.zero BSIZE).put32 0 70).put32 8 24).put32 12 30
  else if s = 2 then putDinode (Bytes.zero BSIZE) 1 { emptyDir 7 with size := 48 }
  else if s = 4 then putDinode (Bytes.zero BSIZE) 3
    { Dinode.zero with type := T_DEV, major := 2, nlink := 1 }
  else if s = 6 then (Bytes.zero BSIZE).splice 0 (fun _ => 255) 1
  else if s = 7 then direntBlock procRoot
  else Bytes.zero BSIZE

/-- How it is laid out. -/
def procMount : Mount where
  region :=
    { sb := { size := 70, nblocks := 0, ninodes := 24, nlog := 30 }
      lo := 7
      hi := 70
      inodes := by decide
      order := by decide
      bitmap := by decide
      word := newFileRegion.word }
  start := 40
  order := by decide
  ranged := True

/-- A run on it. -/
def procRun (calls : List (Fin NPROC × Call)) : Option (Kernel × List FsEvent) :=
  bootRun (freshStore procDisk 70) procMount.log rootEnv calls

end Kernel

end Xv6
