import Mathlib.Data.Nat.Basic

/-!
# Configuration constants

The compile-time parameters of the kernel (`param.h`), of the on-disk format (`fs.h`) and of
the inode types (`stat.h`, `file.h`), under the names the C headers give them.
-/

namespace Xv6

/-! ## `param.h` -/

/-- Maximum number of processes. -/
def NPROC : Nat := 64
/-- Open files per process. -/
def NOFILE : Nat := 16
/-- Open files per system. -/
def NFILE : Nat := 100
/-- Maximum number of active inodes. -/
def NINODE : Nat := 50
/-- Maximum major device number. -/
def NDEV : Nat := 10
/-- Device number of the file system root disk. -/
def ROOTDEV : Nat := 1
/-- Maximum number of blocks any file-system operation writes. -/
def MAXOPBLOCKS : Nat := 10
/-- Maximum number of data sectors in the on-disk log. -/
def LOGSIZE : Nat := MAXOPBLOCKS * 3
/-- Size of the disk block cache. -/
def NBUF : Nat := MAXOPBLOCKS * 3

theorem NPROC_pos : 0 < NPROC := by decide

theorem one_lt_NPROC : 1 < NPROC := by decide

theorem NFILE_pos : 0 < NFILE := by decide

theorem NINODE_pos : 0 < NINODE := by decide

theorem NBUF_pos : 0 < NBUF := by decide

/-! ## `mmu.h`, `memlayout.h` and `elf.h` -/

/-- Bytes of a page. -/
def PGSIZE : Nat := 4096
/-- The first kernel virtual address. -/
def KERNBASE : Nat := 0x80000000
/-- The first word of an executable file. -/
def ELF_MAGIC : Nat := 0x464C457F
/-- `sizeof(struct elfhdr)`. -/
def ELFHDRSZ : Nat := 52

/-! ## `fs.h` -/

/-- The root directory's inode number. -/
def ROOTINO : Nat := 1
/-- Block size in bytes. -/
def BSIZE : Nat := 512
/-- Direct block addresses of an inode. -/
def NDIRECT : Nat := 12
/-- Block addresses held by the indirect block: `BSIZE / sizeof(uint)`. -/
def NINDIRECT : Nat := BSIZE / 4
/-- Blocks of the largest file. -/
def MAXFILE : Nat := NDIRECT + NINDIRECT
/-- `sizeof(struct dinode)`. -/
def DINODESZ : Nat := 64
/-- Inodes per block. -/
def IPB : Nat := BSIZE / DINODESZ
/-- Bitmap bits per block. -/
def BPB : Nat := BSIZE * 8
/-- Length of a directory entry's name. -/
def DIRSIZ : Nat := 14
/-- Inodes of the image that `mkfs` writes (`mkfs.c:18`). -/
def NINODES : Nat := 200
/-- `sizeof(struct dirent)`: a 16-bit inode number and the name. -/
def DIRENTSZ : Nat := 16

end Xv6
