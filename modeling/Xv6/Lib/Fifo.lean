import Mathlib.Data.BitVec
import Mathlib.Data.List.Range

/-!
# Queues in a circular buffer

`N` slots and two counters of `w` bits that are never reduced: an element goes to the slot of the
write counter modulo `N`. The counters may wrap around as long as `N` divides `2 ^ w`.
-/

namespace Xv6.Lib

open Function List

/-- The buffer and the numbers of elements read and written. -/
structure Fifo (α : Type*) (N w : Nat) where
  data : Fin N → α
  nread : BitVec w
  nwrite : BitVec w

namespace Fifo

variable {α : Type*} {N w : Nat} [NeZero N] {f : Fifo α N w} {a : α}

/-- The slot of a counter. -/
def slot (x : BitVec w) : Fin N := Fin.ofNat N x.toNat

/-- `data[nwrite++ % N] = a`. -/
def push (f : Fifo α N w) (a : α) : Fifo α N w :=
  { f with data := update f.data (slot f.nwrite) a, nwrite := f.nwrite + 1 }

/-- `data[nread % N]`. -/
def front (f : Fifo α N w) : α := f.data (slot f.nread)

/-- `nread++`. -/
def pop (f : Fifo α N w) : Fifo α N w := { f with nread := f.nread + 1 }

/-- `data[(nwrite - 1) % N]`. -/
def back (f : Fifo α N w) : α := f.data (slot (f.nwrite - 1))

/-- `nwrite--`. -/
def dropBack (f : Fifo α N w) : Fifo α N w := { f with nwrite := f.nwrite - 1 }

/-- How many elements there are. -/
def count (f : Fifo α N w) : Nat := (f.nwrite - f.nread).toNat

/-- The elements, the oldest first. -/
def contents (f : Fifo α N w) : List α :=
  (List.range f.count).map fun i => f.data (slot (f.nread + BitVec.ofNat w i))

@[simp] theorem contents_length (f : Fifo α N w) : f.contents.length = f.count := by
  simp [contents]

omit [NeZero N] in
theorem count_eq_zero : f.count = 0 ↔ f.nread = f.nwrite := by
  have hzero : f.count = (0#w).toNat ↔ f.nwrite - f.nread = 0#w := BitVec.toNat_inj
  rw [BitVec.toNat_zero] at hzero
  rw [hzero, eq_comm (a := f.nread)]
  exact sub_eq_zero

theorem contents_eq_nil : f.contents = [] ↔ f.nread = f.nwrite := by
  rw [← length_eq_zero_iff, contents_length, count_eq_zero]

theorem slot_add (hdvd : N ∣ 2 ^ w) (x : BitVec w) (i : Nat) :
    (slot (x + BitVec.ofNat w i) : Fin N) = Fin.ofNat N (x.toNat + i) := by
  apply Fin.ext
  change (x + BitVec.ofNat w i).toNat % N = (x.toNat + i) % N
  rw [BitVec.toNat_add, Nat.mod_mod_of_dvd _ hdvd, BitVec.toNat_ofNat, Nat.add_mod,
    Nat.mod_mod_of_dvd _ hdvd, ← Nat.add_mod]

omit [NeZero N] in
theorem count_eq_cap (hlt : N < 2 ^ w) :
    f.count = N ↔ f.nwrite = f.nread + BitVec.ofNat w N := by
  have hN : (BitVec.ofNat w N).toNat = N := by
    rw [BitVec.toNat_ofNat, Nat.mod_eq_of_lt hlt]
  rw [← sub_eq_iff_eq_add', ← BitVec.toNat_inj, hN]
  rfl

theorem toNat_one (hlt : N < 2 ^ w) : (1 : BitVec w).toNat = 1 := by
  have hpos : 0 < N := Nat.pos_of_ne_zero (NeZero.ne N)
  have : (1 : BitVec w) = BitVec.ofNat w 1 := rfl
  rw [this, BitVec.toNat_ofNat, Nat.mod_eq_of_lt (by omega)]

theorem count_push (hlt : N < 2 ^ w) (h : f.count < N) : (f.push a).count = f.count + 1 := by
  have hsub : f.nwrite + 1 - f.nread = f.nwrite - f.nread + 1 := add_sub_right_comm ..
  rw [count, push, hsub, BitVec.toNat_add_of_lt, toNat_one hlt]
  · rfl
  · rw [toNat_one hlt]
    exact (Nat.succ_le_of_lt h).trans_lt hlt

theorem count_pop (hlt : N < 2 ^ w) (h : f.count ≠ 0) : f.pop.count + 1 = f.count := by
  have hsub : f.nwrite - f.nread = f.nwrite - (f.nread + 1) + 1 := by
    rw [sub_add_eq_sub_sub, sub_add_cancel]
  have hcount : f.count = (f.pop.count + 1) % 2 ^ w := by
    rw [count, hsub, BitVec.toNat_add, toNat_one hlt]
    rfl
  rw [hcount]
  refine (Nat.mod_eq_of_lt ((Nat.succ_le_of_lt (BitVec.isLt _)).lt_of_ne fun heq => h ?_)).symm
  rw [hcount, show f.pop.count + 1 = 2 ^ w from heq, Nat.mod_self]

theorem contents_push (hdvd : N ∣ 2 ^ w) (hlt : N < 2 ^ w) (h : f.count < N) :
    (f.push a).contents = f.contents ++ [a] := by
  have hwrite : f.nwrite = f.nread + BitVec.ofNat w f.count := by
    rw [count, BitVec.ofNat_toNat, BitVec.setWidth_eq]
    exact (add_sub_cancel ..).symm
  have hslot : ∀ i < f.count, (slot (f.nread + BitVec.ofNat w i) : Fin N) ≠ slot f.nwrite :=
    fun i hi heq => by
      rw [hwrite, slot_add hdvd, slot_add hdvd, Fin.ext_iff] at heq
      have hmod : (f.nread.toNat + i) % N = (f.nread.toNat + f.count) % N := heq
      rw [← Nat.ModEq, Nat.ModEq.comm] at hmod
      have := Nat.le_of_dvd (by omega) ((Nat.modEq_iff_dvd' (by omega)).mp hmod.symm)
      omega
  rw [contents, count_push hlt h, range_succ, map_append, map_singleton]
  congr 1
  · exact map_congr_left fun i hi =>
      update_of_ne (hslot i (mem_range.mp hi)) ..
  · simp only [push]
    rw [← hwrite, update_self]

theorem contents_pop (hlt : N < 2 ^ w) (h : f.count ≠ 0) :
    f.contents = f.front :: f.pop.contents := by
  rw [contents, ← count_pop hlt h, range_succ_eq_map, map_cons, map_map, contents,
    front]
  congr 1
  · simp
  · refine map_congr_left fun i _ => ?_
    simp only [Function.comp, pop]
    congr 2
    rw [add_assoc]
    congr 1
    rw [Nat.succ_eq_add_one, Nat.add_comm, BitVec.ofNat_add]
    rfl

theorem count_dropBack (hlt : N < 2 ^ w) (h : f.count ≠ 0) : f.dropBack.count + 1 = f.count := by
  have hsub : f.nwrite - 1 - f.nread = f.nwrite - (f.nread + 1) := by
    rw [sub_add_eq_sub_sub, sub_right_comm]
  rw [← count_pop hlt h, count, count, dropBack, pop, hsub]

theorem contents_dropBack (hlt : N < 2 ^ w) (h : f.count ≠ 0) :
    f.contents = f.dropBack.contents ++ [f.back] := by
  have hwrite : f.nwrite - 1 = f.nread + BitVec.ofNat w f.dropBack.count := by
    rw [count, BitVec.ofNat_toNat, BitVec.setWidth_eq]
    exact (add_sub_cancel ..).symm
  rw [contents, ← count_dropBack hlt h, range_succ, map_append, map_singleton, back,
    hwrite]
  rfl

end Fifo

end Xv6.Lib
