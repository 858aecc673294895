import Mathlib.Data.BitVec
import Xv6.Param

/-!
# Arguments of system calls

`syscall.c` takes the arguments of a system call from the stack of the process and checks pointers
against its size. All of this is arithmetic on 32-bit words, in part unsigned and in part signed.
-/

namespace Xv6

/-- What a system call sees of the process: `proc->sz`, `proc->tf->esp` and the user memory. -/
structure User where
  sz : BitVec 32
  esp : BitVec 32
  mem : BitVec 32 → UInt8

namespace User

/-- The `int` at an address. -/
def word (u : User) (addr : BitVec 32) : BitVec 32 :=
  (u.mem (addr + 3)).toBitVec ++ (u.mem (addr + 2)).toBitVec ++ (u.mem (addr + 1)).toBitVec ++
    (u.mem addr).toBitVec

/-- `fetchint` (`syscall.c:17-24`). -/
def fetchint (u : User) (addr : BitVec 32) : Option (BitVec 32) :=
  if u.sz ≤ addr ∨ u.sz < addr + 4 then none else some (u.word addr)

/-- `argint` (`syscall.c:45-49`). -/
def argint (u : User) (n : Nat) : Option (BitVec 32) :=
  u.fetchint (u.esp + 4 + 4 * BitVec.ofNat 32 n)

/-- `argptr` (`syscall.c:54-65`). -/
def argptr (u : User) (n : Nat) (size : BitVec 32) : Option (BitVec 32) :=
  match u.argint n with
  | none => none
  | some i => if u.sz ≤ i ∨ u.sz < i + size then none else some i

/-- `argfd` (`sysfile.c:19-34`), the file. -/
def argfd {α : Type*} (u : User) (ofile : Fin NOFILE → Option α) (n : Nat) : Option α :=
  match u.argint n with
  | none => none
  | some fd => if h : 0 ≤ fd.toInt ∧ fd.toInt.toNat < NOFILE then ofile ⟨fd.toInt.toNat, h.2⟩ else none

/-- A pointer that `argptr` accepts lies in the process, and so does the end of its block as the
machine computes it. -/
theorem argptr_eq_some {u : User} {n : Nat} {size p : BitVec 32} (h : u.argptr n size = some p) :
    p < u.sz ∧ p + size ≤ u.sz := by
  unfold argptr at h
  split at h
  · simp at h
  · rename_i i _
    split at h
    · simp at h
    · rename_i hi
      cases h
      rw [not_or, BitVec.not_le, BitVec.not_lt] at hi
      exact hi

end User

end Xv6
