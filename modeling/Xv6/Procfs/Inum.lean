import Xv6.Procfs.Listing

/-!
# Inode numbers as a code for processes and nodes

The listings of `initProc`, `initPID` and `fdinfo` number the nodes of process `pid` from
`700 * pid` on, and the readers take the process and the node out of the number again. A
`struct dirent` has sixteen bits for it, which is enough up to pid 93.
-/

namespace Xv6

/-- The nodes of a process. -/
inductive Node where
  | dir | status | fdinfo
  | fd (i : Fin NOFILE)
  deriving DecidableEq, Repr

/-- The number of a process's directory, as `initProc` lists it. -/
def pidInum (pid : Int) : BitVec 16 := BitVec.ofInt 16 (700 * pid)

/-- The number of its `fdinfo` directory, as `initPID` lists it. -/
def fdinfoInum (pid : Int) : BitVec 16 := BitVec.ofNat 16 (20 + (pidInum pid).toNat)

/-- The number in the directory entry through which the node is found: `initPID` of the
directory's number lists `status` and `fdinfo`, and `fdinfo` of its own number lists the
descriptors. -/
def nodeInum (pid : Int) : Node → BitVec 16
  | .dir => pidInum pid
  | .status => BitVec.ofNat 16 (10 + (pidInum pid).toNat)
  | .fdinfo => fdinfoInum pid
  | .fd i => BitVec.ofNat 16 ((fdinfoInum pid).toNat + i + 1)

/-- The process that `procfsread` takes a number for, and the node of it that is listed under that
number. For a descriptor this is not what `filesContent` makes of the number, which is `fdIndex`. -/
def decodeInum (inum : Nat) : Option (Nat × Node) :=
  match command inum with
  | .pid => some (inum / 700, .dir)
  | .status => some (inum / 700, .status)
  | .fdinfo => some (inum / 700, .fdinfo)
  | .fd => if h : inum % 700 - 21 < NOFILE then some (inum / 700, .fd ⟨_, h⟩) else none
  | _ => none

/-- The kind of inode the node should be. -/
def Node.minor : Node → BitVec 16
  | .dir | .fdinfo => T_DIR
  | .status | .fd _ => T_FILE

/-- The offset of a node's number from that of its process's directory. -/
def Node.offset : Node → Nat
  | .dir => 0
  | .status => 10
  | .fdinfo => 20
  | .fd i => 21 + i

theorem Node.offset_le (n : Node) : n.offset ≤ 36 := by
  cases n with
  | fd i => have := i.isLt; simp only [NOFILE] at this; simp only [offset]; omega
  | _ => simp [offset]

theorem nodeInum_toNat {pid : Nat} (h : pid ≤ 93) (n : Node) :
    (nodeInum pid n).toNat = 700 * pid + n.offset := by
  have hdir : (pidInum pid).toNat = 700 * pid := by
    simp only [pidInum, BitVec.toNat_ofInt]
    omega
  have hfdinfo : (fdinfoInum pid).toNat = 700 * pid + 20 := by
    rw [fdinfoInum, BitVec.toNat_ofNat, hdir]
    omega
  cases n with
  | dir => exact hdir
  | status =>
    rw [nodeInum, BitVec.toNat_ofNat, hdir, Node.offset]
    omega
  | fdinfo => exact hfdinfo
  | fd i =>
    have := i.isLt
    simp only [NOFILE] at this
    rw [nodeInum, BitVec.toNat_ofNat, hfdinfo, Node.offset]
    omega

theorem command_eq (pid : Nat) (n : Node) :
    command (700 * pid + n.offset) = match n with
      | .dir => .pid
      | .status => .status
      | .fdinfo => .fdinfo
      | .fd _ => .fd := by
  have hmod : (700 * pid + n.offset) % 700 = n.offset := by
    have := n.offset_le
    omega
  simp only [command, hmod]
  cases n with
  | fd i =>
    have hi := i.isLt
    simp only [NOFILE] at hi
    rw [if_pos (by simp only [Node.offset]; omega)]
  | _ => rfl

/-- Decoding undoes the numbering as long as the number is not cut off. -/
theorem decodeInum_eq (pid : Nat) (n : Node) :
    decodeInum (700 * pid + n.offset) = some (pid, n) := by
  have hle := n.offset_le
  have hdiv : (700 * pid + n.offset) / 700 = pid := by omega
  rw [decodeInum, command_eq, hdiv]
  cases n with
  | fd i =>
    have hi := i.isLt
    have hsub : (700 * pid + (Node.fd i).offset) % 700 - 21 = i := by
      simp only [NOFILE, Node.offset] at *
      omega
    simp only [hsub, hi, dif_pos]
  | _ => rfl

theorem procfsMinor_eq {pid : Nat} (h : 1 ≤ pid) (n : Node) :
    procfsMinor (700 * pid + n.offset) = n.minor := by
  have hle := n.offset_le
  have hmod : (700 * pid + n.offset) % 700 = n.offset := by omega
  have h19 : 700 * pid + n.offset ≠ 19 := by omega
  rw [procfsMinor, hmod]
  simp only [h19, false_or]
  cases n with
  | fd i => rw [if_neg (by simp only [Node.offset]; omega), Node.minor]
  | _ => rfl

/-- The numbers of one process are good: they decode to it and to their nodes, with the right
kind of inode, none is an inode number of the disk or one of the two fixed numbers, and no node
of a process numbered before shares one of them. -/
def Faithful (ninodes pid : Nat) : Prop :=
  ∀ n, decodeInum (nodeInum pid n).toNat = some (pid, n) ∧
    procfsMinor (nodeInum pid n).toNat = n.minor ∧
    ninodes ≤ (nodeInum pid n).toNat ∧ (nodeInum pid n).toNat ≠ 660 ∧
    (nodeInum pid n).toNat ≠ 670 ∧
    ∀ (q : Nat) (m : Node), 1 ≤ q → q ≤ pid → nodeInum q m = nodeInum pid n → (q, m) = (pid, n)

/-- The procfs numbers of a process are a faithful code exactly up to pid 93. -/
theorem nodeInum_faithful_iff (pid : Nat) (h : 1 ≤ pid) :
    Faithful NINODES pid ↔ pid ≤ 93 := by
  constructor
  · -- a sixteen-bit number divided by 700 is at most 93
    intro hf
    have hdec := (hf .dir).1
    have hlt := (nodeInum pid .dir).isLt
    rw [decodeInum] at hdec
    split at hdec
    · simp only [Option.some.injEq, Prod.mk.injEq, and_true] at hdec
      omega
    all_goals simp at hdec
  · intro hle n
    rw [nodeInum_toNat hle n]
    refine ⟨decodeInum_eq pid n, procfsMinor_eq h n, ?_, by omega, by omega, ?_⟩
    · simp only [NINODES]
      omega
    · intro q m _ hq heq
      have hnat := congrArg BitVec.toNat heq
      rw [nodeInum_toNat (hq.trans hle), nodeInum_toNat hle] at hnat
      have hsame := congrArg decodeInum hnat
      rw [decodeInum_eq, decodeInum_eq] at hsame
      exact Option.some.inj hsame

theorem nodeInum_faithful_init : Faithful NINODES 1 :=
  (nodeInum_faithful_iff 1 le_rfl).mpr (by decide)

/-- The directory of pid 94 gets number 264, which denotes no node; the one of pid 281 gets 92,
a number of the disk. -/
theorem nodeInum_not_faithful :
    ¬ Faithful NINODES 94 ∧ (nodeInum 94 .dir).toNat = 264 ∧ decodeInum 264 = none ∧
    (nodeInum 281 .dir).toNat = 92 ∧ 92 < NINODES := by
  refine ⟨fun h => ?_, by decide⟩
  exact absurd (h .dir).1 (by decide)

end Xv6
