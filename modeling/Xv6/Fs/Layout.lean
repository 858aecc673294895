import Mathlib.Data.Nat.Bitwise
import Xv6.Bio

/-!
# The on-disk format

The structures of `fs.h` as bytes of a block: the superblock, the `struct dinode` slots of an
inode block, the bits of a bitmap block and the addresses of an indirect block. Each store has
a lemma for reading it back and one for what it leaves alone.
-/

namespace Xv6

open Lib

/-- `struct superblock` (`fs.h:15-20`). -/
structure Superblock where
  size : Nat
  nblocks : Nat
  ninodes : Nat
  nlog : Nat
  deriving DecidableEq, Repr

/-- The superblock at the start of a block. -/
def getSuperblock (b : Block) : Superblock where
  size := (b.u32 0).toNat
  nblocks := (b.u32 4).toNat
  ninodes := (b.u32 8).toNat
  nlog := (b.u32 12).toNat

/-- `IBLOCK` (`fs.h:40`). -/
def iblock (i : Nat) : Nat := i / IPB + 2

/-- `BBLOCK` (`fs.h:46`). -/
def bblock (b ninodes : Nat) : Nat := b / BPB + ninodes / IPB + 3

/-! ## Inodes -/

/-- `struct dinode` (`fs.h:27-34`). -/
@[ext]
structure Dinode where
  type : BitVec 16
  major : BitVec 16
  minor : BitVec 16
  nlink : BitVec 16
  size : BitVec 32
  addrs : Fin (NDIRECT + 1) → BitVec 32

/-- A cleared `struct dinode`. -/
def Dinode.zero : Dinode where
  type := 0
  major := 0
  minor := 0
  nlink := 0
  size := 0
  addrs := fun _ => 0

/-- `(struct dinode*)b + k`. -/
def getDinode (b : Block) (k : Nat) : Dinode where
  type := b.u16 (DINODESZ * k)
  major := b.u16 (DINODESZ * k + 2)
  minor := b.u16 (DINODESZ * k + 4)
  nlink := b.u16 (DINODESZ * k + 6)
  size := b.u32 (DINODESZ * k + 8)
  addrs := fun i => b.u32 (DINODESZ * k + 12 + 4 * i)

/-- Store all fields of slot `k`. -/
def putDinode (b : Block) (k : Nat) (d : Dinode) : Block :=
  let b := b.put16 (DINODESZ * k) d.type
  let b := b.put16 (DINODESZ * k + 2) d.major
  let b := b.put16 (DINODESZ * k + 4) d.minor
  let b := b.put16 (DINODESZ * k + 6) d.nlink
  let b := b.put32 (DINODESZ * k + 8) d.size
  Bytes.putWords (DINODESZ * k + 12) (List.ofFn fun i => (d.addrs i).toNat) b

variable {b : Block} {k i j bi bj : Nat} {d : Dinode} {a : BitVec 32}

theorem u8_putDinode_of_outside (h : i < DINODESZ * k ∨ DINODESZ * (k + 1) ≤ i) :
    (putDinode b k d).u8 i = b.u8 i := by
  simp only [DINODESZ] at h
  have hlen : (List.ofFn fun j => (d.addrs j).toNat).length = NDIRECT + 1 := List.length_ofFn
  simp only [putDinode, DINODESZ]
  rw [Bytes.u8_putWords_of_outside (by rw [hlen]; simp only [NDIRECT]; omega)]
  simp only [Bytes.put16, Bytes.put32, Bytes.u8_splice]
  rw [if_neg (by omega), if_neg (by omega), if_neg (by omega), if_neg (by omega),
    if_neg (by omega)]

theorem getDinode_congr {b' : Block}
    (h : ∀ i, DINODESZ * k ≤ i → i < DINODESZ * (k + 1) → b'.u8 i = b.u8 i) :
    getDinode b' k = getDinode b k := by
  simp only [DINODESZ] at h
  have h16 : ∀ i, 64 * k ≤ i → i + 2 ≤ 64 * k + 64 → b'.u16 i = b.u16 i := by
    intro i h1 h2
    simp only [Bytes.u16, h i h1 (by omega), h (i + 1) (by omega) (by omega)]
  have h32 : ∀ i, 64 * k ≤ i → i + 4 ≤ 64 * k + 64 → b'.u32 i = b.u32 i := by
    intro i h1 h2
    simp only [Bytes.u32, h i h1 (by omega), h (i + 1) (by omega) (by omega),
      h (i + 2) (by omega) (by omega), h (i + 3) (by omega) (by omega)]
  simp only [getDinode, DINODESZ, Dinode.mk.injEq]
  refine ⟨h16 _ (by omega) (by omega), h16 _ (by omega) (by omega), h16 _ (by omega) (by omega),
    h16 _ (by omega) (by omega), h32 _ (by omega) (by omega), ?_⟩
  funext i
  have := i.isLt
  simp only [NDIRECT] at this
  exact h32 _ (by omega) (by omega)

theorem getDinode_putDinode_of_ne (h : j ≠ k) : getDinode (putDinode b k d) j = getDinode b j := by
  refine getDinode_congr fun i h1 h2 => u8_putDinode_of_outside ?_
  simp only [DINODESZ] at *
  omega

theorem getDinode_putDinode_self (hk : k < IPB) : getDinode (putDinode b k d) k = d := by
  have hlen : (List.ofFn fun j => (d.addrs j).toNat).length = NDIRECT + 1 := List.length_ofFn
  simp only [IPB, DINODESZ, BSIZE] at hk
  have hroom : 64 * k + 64 ≤ BSIZE := by simp only [BSIZE]; omega
  simp only [getDinode, putDinode, DINODESZ]
  refine Dinode.ext ?_ ?_ ?_ ?_ ?_ ?_ <;> dsimp only
  · rw [Bytes.u16_putWords_of_lt (by omega), Bytes.u16_put32_of_disjoint (by omega),
      Bytes.u16_put16_of_disjoint (by omega), Bytes.u16_put16_of_disjoint (by omega),
      Bytes.u16_put16_of_disjoint (by omega), Bytes.u16_put16_self (by omega)]
  · rw [Bytes.u16_putWords_of_lt (by omega), Bytes.u16_put32_of_disjoint (by omega),
      Bytes.u16_put16_of_disjoint (by omega), Bytes.u16_put16_of_disjoint (by omega),
      Bytes.u16_put16_self (by omega)]
  · rw [Bytes.u16_putWords_of_lt (by omega), Bytes.u16_put32_of_disjoint (by omega),
      Bytes.u16_put16_of_disjoint (by omega), Bytes.u16_put16_self (by omega)]
  · rw [Bytes.u16_putWords_of_lt (by omega), Bytes.u16_put32_of_disjoint (by omega),
      Bytes.u16_put16_self (by omega)]
  · rw [Bytes.u32_putWords_of_lt (by omega), Bytes.u32_put32_self (by omega)]
  · funext i
    have hi := i.isLt
    simp only [NDIRECT] at hi
    rw [Bytes.u32_putWords (by simp [i.isLt]) (by rw [hlen]; simp only [NDIRECT]; omega)]
    rw [List.getElem_ofFn]
    exact BitVec.eq_of_toNat_eq (by simp)

/-! ## The bitmap -/

/-- `data[bi/8] & (1 << (bi % 8))` (`fs.c:64-65`). -/
def testBit (b : Block) (bi : Nat) : Bool := (b.u8 (bi / 8)).toNat.testBit (bi % 8)

/-- `data[bi/8] |= m` (`fs.c:66`). -/
def setBit (b : Block) (bi : Nat) : Block :=
  b.splice (bi / 8) (fun _ => UInt8.ofNat ((b.u8 (bi / 8)).toNat ||| 2 ^ (bi % 8))) 1

/-- `data[bi/8] &= ~m` (`fs.c:92`). -/
def clearBit (b : Block) (bi : Nat) : Block :=
  b.splice (bi / 8) (fun _ => UInt8.ofNat ((b.u8 (bi / 8)).toNat &&& (255 ^^^ 2 ^ (bi % 8)))) 1

theorem testBit_splice {v : UInt8} (hj : bj < BPB) : testBit (b.splice (bi / 8) (fun _ => v) 1) bj =
      if bj / 8 = bi / 8 then v.toNat.testBit (bj % 8) else testBit b bj := by
  simp only [BPB, BSIZE] at hj
  unfold testBit
  rw [Bytes.u8_splice]
  by_cases h : bj / 8 = bi / 8
  · rw [if_pos ⟨by omega, by omega, by simp only [BSIZE]; omega⟩, if_pos h]
  · rw [if_neg (by omega), if_neg h]

theorem testBit_setBit (hj : bj < BPB) :
    testBit (setBit b bi) bj = (decide (bj = bi) || testBit b bj) := by
  have h8 : bi % 8 < 8 := Nat.mod_lt _ (by omega)
  have hpow : 2 ^ (bi % 8) < 256 := (Nat.pow_lt_pow_right (by omega) h8).trans_eq (by norm_num)
  rw [setBit, testBit_splice hj]
  by_cases h : bj / 8 = bi / 8
  · have hlt : (b.u8 (bi / 8)).toNat ||| 2 ^ (bi % 8) < 2 ^ 8 :=
      Nat.or_lt_two_pow (b.u8 (bi / 8)).toNat_lt hpow
    rw [if_pos h, UInt8.toNat_ofNat_of_lt' hlt, Nat.testBit_or, Nat.testBit_two_pow, testBit, h,
      Bool.or_comm]
    congr 1
    exact decide_eq_decide.mpr (by omega)
  · rw [if_neg h, decide_eq_false (by omega), Bool.false_or]

theorem testBit_clearBit (hj : bj < BPB) :
    testBit (clearBit b bi) bj = (!decide (bj = bi) && testBit b bj) := by
  have h8 : bi % 8 < 8 := Nat.mod_lt _ (by omega)
  rw [clearBit, testBit_splice hj]
  by_cases h : bj / 8 = bi / 8
  · have hlt : (b.u8 (bi / 8)).toNat &&& (255 ^^^ 2 ^ (bi % 8)) < 2 ^ 8 :=
      Nat.and_lt_two_pow _ (Nat.xor_lt_two_pow (by omega)
        ((Nat.pow_lt_pow_right (by omega) h8).trans_eq (by norm_num)))
    have h255 : Nat.testBit 255 (bj % 8) = true := by
      rw [show (255 : Nat) = 2 ^ 8 - 1 by norm_num, Nat.testBit_two_pow_sub_one]
      exact decide_eq_true (Nat.mod_lt _ (by omega))
    rw [if_pos h, UInt8.toNat_ofNat_of_lt' hlt, Nat.testBit_and, Nat.testBit_xor, h255,
      Nat.testBit_two_pow, testBit, h, Bool.and_comm]
    congr 1
    simp only [Bool.true_xor]
    congr 1
    exact decide_eq_decide.mpr (by omega)
  · rw [if_neg h, decide_eq_false (by omega), Bool.not_false, Bool.true_and]

/-! ## Indirect blocks -/

/-- `((uint*)b)[i]`. -/
def getAddr (b : Block) (i : Nat) : BitVec 32 := b.u32 (4 * i)

/-- Store one address of an indirect block. -/
def putAddr (b : Block) (i : Nat) (a : BitVec 32) : Block := b.put32 (4 * i) a

theorem getAddr_putAddr_self (hi : i < NINDIRECT) : getAddr (putAddr b i a) i = a :=
  Bytes.u32_put32_self (by simp only [NINDIRECT, BSIZE] at *; omega)

theorem getAddr_putAddr_of_ne (h : j ≠ i) : getAddr (putAddr b i a) j = getAddr b j :=
  Bytes.u32_put32_of_disjoint (by omega)

theorem getAddr_zero (i : Nat) : getAddr (Bytes.zero BSIZE) i = 0 := by
  simp [getAddr, Bytes.u32]

end Xv6
