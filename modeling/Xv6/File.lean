import Xv6.Fs.Layout

/-!
# In-memory inodes and open files

`file.h` and `stat.h`: the entries of the inode cache and of the file table.
-/

namespace Xv6

/-! ## `stat.h` and `file.h` -/

/-- Directory. -/
def T_DIR : BitVec 16 := 1
/-- Regular file. -/
def T_FILE : BitVec 16 := 2
/-- Device. -/
def T_DEV : BitVec 16 := 3
/-- Major number of the console. -/
def CONSOLE : Int := 1
/-- Major number of procfs. -/
def PROCFS : Int := 2

/-- `struct inode` (`file.h:13-25`). The fields copied from the disk are a `Dinode`, and the two
flag bits are two fields. -/
structure Inode where
  dev : Nat
  inum : Nat
  ref : Int
  busy : Bool
  valid : Bool
  d : Dinode

/-- An entry of the inode cache as the kernel is loaded. -/
def Inode.empty : Inode :=
  { dev := 0, inum := 0, ref := 0, busy := false, valid := false, d := .zero }

/-- The type of a `struct file`. -/
inductive FileType where
  | none | pipe | inode
  deriving DecidableEq, Repr

/-- `struct file` (`file.h:1-9`); a null pointer is `none`, and `pipe` points to a page. -/
structure File where
  type : FileType
  ref : Int
  readable : Bool
  writable : Bool
  pipe : Option Nat
  ip : Option (Fin NINODE)
  off : Nat

/-- An entry of the file table as the kernel is loaded. -/
def File.empty : File :=
  { type := .none, ref := 0, readable := false, writable := false, pipe := none, ip := none,
    off := 0 }

/-- The flags of a `struct pipe` (`pipe.c:12-19`). What goes through it is left to the
environment. -/
structure Pipe where
  readopen : Bool
  writeopen : Bool
  deriving DecidableEq, Repr

/-- `fileType` (`file.c:157-174`). -/
def fileType (f : File) : String :=
  match f.type with
  | .none => "FD_NONE"
  | .pipe => "FD_PIPE"
  | .inode => "FD_INODE"

end Xv6
