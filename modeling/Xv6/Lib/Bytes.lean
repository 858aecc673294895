import Mathlib.Data.Nat.Basic
import Mathlib.Tactic.Ring

/-!
# Byte blocks with little-endian fields

A block is a fixed number of bytes. Records laid over it are read and written through 8-, 16-
and 32-bit little-endian fields; the lemmas say that a field reads back what was stored in it
and that a store leaves every disjoint field alone.
-/

namespace Xv6.Lib

/-- The little-endian number of `n` bytes at offset `i`. -/
def le (bs : List UInt8) (i n : Nat) : Nat :=
  ((List.range n).map fun j => (bs.getD (i + j) 0).toNat * 256 ^ j).sum

/-- `n` bytes of storage. -/
def Bytes (n : Nat) : Type := Fin n → UInt8

namespace Bytes

variable {n : Nat}

@[ext] theorem ext {a b : Bytes n} (h : ∀ i, a i = b i) : a = b := funext h

/-- `n` zero bytes. -/
def zero (n : Nat) : Bytes n := fun _ => 0

/-- The byte at offset `i`; reads past the end give zero. -/
def u8 (b : Bytes n) (i : Nat) : UInt8 := if h : i < n then b ⟨i, h⟩ else 0

/-- Copy `m` bytes of `src` to offset `off`. -/
def splice (b : Bytes n) (off : Nat) (src : Nat → UInt8) (m : Nat) : Bytes n :=
  fun i => if off ≤ i.val ∧ i.val < off + m then src (i.val - off) else b i

/-- Byte `k` of the little-endian representation of `v`. -/
def byteOf (v k : Nat) : UInt8 := UInt8.ofNat (v / 256 ^ k)

/-- The 16-bit field at offset `i`. -/
def u16 (b : Bytes n) (i : Nat) : BitVec 16 :=
  BitVec.ofNat 16 ((b.u8 i).toNat + 256 * (b.u8 (i + 1)).toNat)

/-- The 32-bit field at offset `i`. -/
def u32 (b : Bytes n) (i : Nat) : BitVec 32 :=
  BitVec.ofNat 32 ((b.u8 i).toNat + 256 * (b.u8 (i + 1)).toNat +
    65536 * (b.u8 (i + 2)).toNat + 16777216 * (b.u8 (i + 3)).toNat)

/-- Store a 16-bit field. -/
def put16 (b : Bytes n) (i : Nat) (v : BitVec 16) : Bytes n := b.splice i (byteOf v.toNat) 2

/-- Store a 32-bit field. -/
def put32 (b : Bytes n) (i : Nat) (v : BitVec 32) : Bytes n := b.splice i (byteOf v.toNat) 4

@[simp] theorem u8_zero (i : Nat) : (zero n).u8 i = 0 := by
  unfold u8 zero; split <;> rfl

theorem u8_splice (b : Bytes n) (off m j : Nat) (src : Nat → UInt8) :
    (b.splice off src m).u8 j =
      if off ≤ j ∧ j < off + m ∧ j < n then src (j - off) else b.u8 j := by
  unfold u8 splice
  by_cases hj : j < n
  · by_cases hin : off ≤ j ∧ j < off + m
    · simp [hj, hin]
    · simp [hj, hin]
  · simp [hj]

variable {b : Bytes n} {off m j i : Nat} {src : Nat → UInt8} {v : BitVec 32} {ws : List Nat}

theorem splice_congr {src' : Nat → UInt8} (h : ∀ j < m, src j = src' j) :
    b.splice off src m = b.splice off src' m := by
  funext i
  unfold splice
  split
  · exact h _ (by omega)
  · rfl

theorem u8_splice_of_lt (h : j < off) : (b.splice off src m).u8 j = b.u8 j := by
  rw [u8_splice, if_neg (by omega)]

theorem u8_splice_of_ge (h : off + m ≤ j) : (b.splice off src m).u8 j = b.u8 j := by
  rw [u8_splice, if_neg (by omega)]

theorem u8_splice_of_mem (hj : j < m) (hn : off + j < n) :
    (b.splice off src m).u8 (off + j) = src j := by
  rw [u8_splice, if_pos ⟨by omega, by omega, hn⟩, Nat.add_sub_cancel_left]

@[simp] theorem toNat_byteOf (v k : Nat) : (byteOf v k).toNat = v / 256 ^ k % 256 := by
  simp [byteOf]

theorem u16_put16_self {v : BitVec 16} (h : i + 2 ≤ n) : (b.put16 i v).u16 i = v := by
  have key : ∀ j, j < 2 → (b.put16 i v).u8 (i + j) = byteOf v.toNat j := fun j hj =>
    u8_splice_of_mem hj (by omega)
  have h0 := key 0 (by omega)
  rw [Nat.add_zero] at h0
  apply BitVec.eq_of_toNat_eq
  have hv := v.isLt
  simp only [u16, h0, key 1 (by omega), toNat_byteOf, BitVec.toNat_ofNat]
  omega

theorem u32_put32_self (h : i + 4 ≤ n) : (b.put32 i v).u32 i = v := by
  have key : ∀ j, j < 4 → (b.put32 i v).u8 (i + j) = byteOf v.toNat j := fun j hj =>
    u8_splice_of_mem hj (by omega)
  have h0 := key 0 (by omega)
  rw [Nat.add_zero] at h0
  apply BitVec.eq_of_toNat_eq
  have hv := v.isLt
  simp only [u32, h0, key 1 (by omega), key 2 (by omega), key 3 (by omega), toNat_byteOf,
    BitVec.toNat_ofNat]
  omega

/-- A store of `m` bytes at `off` leaves a field of `k` bytes at `i` alone if they are
disjoint. -/
theorem u16_splice_of_disjoint (h : i + 2 ≤ off ∨ off + m ≤ i) :
    (b.splice off src m).u16 i = b.u16 i := by
  have key : ∀ j, j < 2 → (b.splice off src m).u8 (i + j) = b.u8 (i + j) := by
    intro j hj
    rcases h with h | h
    · exact u8_splice_of_lt (by omega)
    · exact u8_splice_of_ge (by omega)
  have h0 := key 0 (by omega)
  rw [Nat.add_zero] at h0
  simp only [u16, h0, key 1 (by omega)]

theorem u32_splice_of_disjoint (h : i + 4 ≤ off ∨ off + m ≤ i) :
    (b.splice off src m).u32 i = b.u32 i := by
  have key : ∀ j, j < 4 → (b.splice off src m).u8 (i + j) = b.u8 (i + j) := by
    intro j hj
    rcases h with h | h
    · exact u8_splice_of_lt (by omega)
    · exact u8_splice_of_ge (by omega)
  have h0 := key 0 (by omega)
  rw [Nat.add_zero] at h0
  simp only [u32, h0, key 1 (by omega), key 2 (by omega), key 3 (by omega)]

theorem u32_put32_of_disjoint (h : j + 4 ≤ i ∨ i + 4 ≤ j) : (b.put32 i v).u32 j = b.u32 j :=
  u32_splice_of_disjoint h

theorem u16_put32_of_disjoint (h : j + 2 ≤ i ∨ i + 4 ≤ j) : (b.put32 i v).u16 j = b.u16 j :=
  u16_splice_of_disjoint h

theorem u16_put16_of_disjoint {v : BitVec 16} (h : j + 2 ≤ i ∨ i + 2 ≤ j) :
    (b.put16 i v).u16 j = b.u16 j :=
  u16_splice_of_disjoint h

/-- Consecutive 32-bit fields from offset `off` on. -/
def putWords (off : Nat) : List Nat → Bytes n → Bytes n
  | [], b => b
  | w :: ws, b => putWords (off + 4) ws (b.put32 off (BitVec.ofNat 32 w))

theorem u32_putWords_of_lt (h : i + 4 ≤ off) : (putWords off ws b).u32 i = b.u32 i := by
  induction ws generalizing off b with
  | nil => rfl
  | cons w ws ih =>
    rw [putWords, ih (by omega), u32_put32_of_disjoint (.inl h)]

theorem u16_putWords_of_lt (h : i + 2 ≤ off) : (putWords off ws b).u16 i = b.u16 i := by
  induction ws generalizing off b with
  | nil => rfl
  | cons w ws ih =>
    rw [putWords, ih (by omega), u16_put32_of_disjoint (.inl h)]

theorem u8_putWords_of_outside (h : i < off ∨ off + 4 * ws.length ≤ i) :
    (putWords off ws b).u8 i = b.u8 i := by
  induction ws generalizing off b with
  | nil => rfl
  | cons w ws ih =>
    rw [List.length_cons] at h
    rw [putWords, ih (by omega), put32]
    rcases h with h | h
    · exact u8_splice_of_lt h
    · exact u8_splice_of_ge (by omega)

theorem u32_putWords {k : Nat} (hk : k < ws.length) (hn : off + 4 * ws.length ≤ n) :
    (putWords off ws b).u32 (off + 4 * k) = BitVec.ofNat 32 (ws[k]) := by
  induction ws generalizing off b k with
  | nil => simp at hk
  | cons w ws ih =>
    rw [putWords]
    rw [List.length_cons] at hn hk
    cases k with
    | zero =>
      simp only [Nat.mul_zero, Nat.add_zero]
      rw [u32_putWords_of_lt (by omega), u32_put32_self (by omega)]
      rfl
    | succ k =>
      rw [show off + 4 * (k + 1) = off + 4 + 4 * k by ring, ih (by omega) (by omega)]
      rfl

end Bytes

end Xv6.Lib
