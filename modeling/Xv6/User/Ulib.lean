import Mathlib.Data.Nat.Digits.Lemmas
import Xv6.Procfs.Strings

/-!
# The user library

`atoi` and `memmove` of `ulib.c`, next to `itoa` and `memmove` of the kernel's `string.c`. Memory is
a function from addresses to bytes. The ranges of a `memmove` do not go over the end of the address
space, so that addresses are natural numbers.
-/

namespace Xv6.Ulib

open Lib Cstring

/-! ## Decimal numbers -/

/-- `atoi` (`ulib.c:84-93`) from the value `n` on. The sum wraps: for the largest numbers it leaves
the range of `int` before `'0'` is subtracted. -/
def atoiLoop (n : BitVec 32) : List UInt8 → BitVec 32
  | [] => n
  | c :: s =>
    if 48 ≤ c.toNat ∧ c.toNat ≤ 57 then
      atoiLoop (n * 10#32 + BitVec.ofNat 32 c.toNat - 48#32) s
    else n

def atoi (s : List UInt8) : Int := (atoiLoop 0 s).toInt

section

variable {x : Nat} {n : BitVec 32} {s : List UInt8}

theorem decimal_eq (x : Nat) :
    decimal x = (if x < 10 then [] else decimal (x / 10)) ++ [UInt8.ofNat (48 + x % 10)] := by
  by_cases hx : x = 0
  · subst hx
    rfl
  · rw [decimal, if_neg hx, Nat.digits_def' (by omega) (by omega), List.map_cons, List.reverse_cons]
    by_cases hlt : x < 10
    · rw [if_pos hlt, Nat.div_eq_of_lt hlt, Nat.digits_zero]
      rfl
    · rw [if_neg hlt, decimal, if_neg (by omega)]

theorem decimal_head (hx : x ≠ 0) : (decimal x).head? ≠ some 48 := by
  induction x using Nat.strongRecOn with
  | ind x ih =>
    rw [decimal_eq]
    by_cases hlt : x < 10
    · rw [if_pos hlt]
      intro h
      have hdigit := congrArg UInt8.toNat (Option.some.inj h)
      simp at hdigit
      omega
    · have hrest := ih (x / 10) (by omega) (by omega)
      have hne : decimal (x / 10) ≠ [] := by rw [decimal_eq]; simp
      rw [if_neg hlt, List.head?_append_of_ne_nil _ hne]
      exact hrest

theorem atoiLoop_append (hs : ∀ c ∈ s, 48 ≤ c.toNat ∧ c.toNat < 58) (t : List UInt8) :
    atoiLoop n (s ++ t) = atoiLoop (atoiLoop n s) t := by
  induction s generalizing n with
  | nil => rfl
  | cons c s ih =>
    have hc := hs c (by simp)
    rw [List.cons_append, atoiLoop, if_pos (by omega), atoiLoop, if_pos (by omega)]
    exact ih fun c hc => hs c (List.mem_cons_of_mem _ hc)

theorem atoiLoop_decimal (x : Nat) : atoiLoop 0 (decimal x) = BitVec.ofNat 32 x := by
  induction x using Nat.strongRecOn with
  | ind x ih =>
    have hinit : atoiLoop 0 (if x < 10 then [] else decimal (x / 10)) = BitVec.ofNat 32 (x / 10) := by
      split
      · rw [Nat.div_eq_of_lt (by assumption)]
        rfl
      · exact ih _ (by omega)
    have hdigits : ∀ c ∈ (if x < 10 then [] else decimal (x / 10)), 48 ≤ c.toNat ∧ c.toNat < 58 := by
      intro c hc
      split at hc
      · cases hc
      · exact digit_mem hc
    have hlast : (UInt8.ofNat (48 + x % 10)).toNat = 48 + x % 10 := by simp; omega
    rw [decimal_eq, atoiLoop_append hdigits, hinit, atoiLoop, hlast, if_pos (by omega), atoiLoop]
    apply BitVec.eq_of_toNat_eq
    simp only [BitVec.toNat_sub, BitVec.toNat_add, BitVec.toNat_mul, BitVec.toNat_ofNat]
    omega

theorem atoi_decimal (hx : x < 2 ^ 31) : atoi (decimal x) = x := by
  rw [atoi, atoiLoop_decimal, BitVec.toInt_eq_toNat_of_lt (by simp; omega)]
  simp
  omega

theorem decimal_length_le (hx : x < 2 ^ 31) : (decimal x).length ≤ 10 :=
  (itoa_plain (itoa_eq_decimal (by omega))).2

end

/-- What `itoa(x, buf + s)` leaves in memory, and that the numeral can be read back. -/
structure Converts (x s : Nat) (b : Buffer) (run : Option Unit × Buffer) : Prop where
  returns : run.1 = some ()
  text : run.2.Text s (decimal x)
  short : (decimal x).length + 1 ≤ 11
  canonical : x ≠ 0 → (decimal x).head? ≠ some 48
  top : run.2.top = max b.top (s + (decimal x).length + 1)
  frame : ∀ j, j < s ∨ s + (decimal x).length < j → run.2.byte j = b.byte j
  back : atoi (decimal x) = x

end Xv6.Ulib

namespace Xv6.Lsof

/-- `itoa` of `lsof.c:21-36`, the same text as the kernel's; it writes to `path`, which has 100
bytes. -/
def itoa (x : Int) (s : Nat) : Lib.Fmt Unit := Cstring.itoa 100 x s

end Xv6.Lsof

namespace Xv6.Ulib

open Function Lib Cstring

theorem itoa_converts {x s size : Nat} (hx : x < 2 ^ 31) (hsize : s + 10 < size) (b : Buffer) :
    Converts x s b (Cstring.itoa size x s b) := by
  have hdec := itoa_eq_decimal (n := x) (by omega)
  have hrun : Cstring.itoa size x s b = (some (), b.store s (decimal x ++ [0])) := by
    rw [itoa_run hsize, hdec]
  have hplain := (itoa_plain hdec).1
  rw [hrun]
  refine ⟨rfl, Buffer.text_store (m := 1) hplain (by omega), ?_, decimal_head, ?_, ?_,
    atoi_decimal hx⟩
  · exact Nat.succ_le_succ (decimal_length_le hx)
  · rw [Buffer.store_top (by simp), List.length_append, List.length_singleton, Nat.add_assoc]
  · intro j hj
    rw [Buffer.store_byte, if_neg]
    rw [List.length_append, List.length_singleton]
    omega

/-- Both copies of `itoa` write the numeral of `x` and nothing behind its zero, `atoi` reads it
back, and different numbers have different names, which fit in a directory entry. -/
theorem itoa_roundtrip (x : Nat) (hx : x < 2 ^ 31) :
    (∀ (size s : Nat) (b : Buffer), s + 10 < size → Converts x s b (Cstring.itoa size x s b)) ∧
    (∀ (s : Nat) (b : Buffer), s + 10 < 100 → Converts x s b (Lsof.itoa x s b)) ∧
    (decimal x).length < DIRSIZ ∧ ∀ y < 2 ^ 31, decimal x = decimal y → x = y := by
  refine ⟨fun size s b hsize => itoa_converts hx hsize b, fun s b hs => itoa_converts hx hs b, ?_, ?_⟩
  · exact lt_of_le_of_lt (decimal_length_le hx) (by decide)
  · intro y _ h
    exact decimal_injective h

theorem itoa_roundtrip_sixtyFour :
    (Lsof.itoa 64 6 (.fresh fun _ => 7)).1 = some () ∧ atoi (decimal 64) = 64 := by
  have h := (itoa_roundtrip 64 (by decide)).2.1 6 (.fresh fun _ => 7) (by decide)
  exact ⟨h.returns, h.back⟩

/-! ## Moving bytes -/

abbrev Memory := Nat → UInt8

/-- `while(n-- > 0) *d++ = *s++` -/
def copyUp (m : Memory) (d s : Nat) : Nat → Memory
  | 0 => m
  | n + 1 => copyUp (update m d (m s)) (d + 1) (s + 1) n

/-- `while(n-- > 0) *--d = *--s`, from the ends of the ranges -/
def copyDown (m : Memory) (d s : Nat) : Nat → Memory
  | 0 => m
  | n + 1 => copyDown (update m (d + n) (m (s + n))) d s n

end Xv6.Ulib

namespace Xv6.Cstring

open Ulib

/-- `memmove` of the kernel (`string.c:31-49`). -/
def memmove (m : Memory) (d s n : Nat) : Memory :=
  if s < d ∧ d < s + n then copyDown m d s n else copyUp m d s n

end Xv6.Cstring

namespace Xv6.Ulib

open Function

/-- `memmove` of the user library (`ulib.c:95-105`). -/
def memmove (m : Memory) (d s n : Nat) : Memory := copyUp m d s n

/-- The destination holds what the source held, and nothing else has changed. -/
def Moved (m : Memory) (d s n : Nat) (m' : Memory) : Prop :=
  ∀ a, m' a = if d ≤ a ∧ a < d + n then m (s + (a - d)) else m a

section

variable {m m' : Memory} {d s n i a : Nat}

theorem Moved.at (h : Moved m d s n m') (hi : i < n) : m' (d + i) = m (s + i) := by
  rw [h, if_pos (by omega), Nat.add_sub_cancel_left]

theorem copyDown_moved (h : s < d) : Moved m d s n (copyDown m d s n) := by
  induction n generalizing m with
  | zero =>
    intro a
    rw [if_neg (by omega)]
    rfl
  | succ n ih =>
    intro a
    rw [copyDown, ih]
    by_cases hin : d ≤ a ∧ a < d + n
    · -- The store was behind the byte that is read here.
      rw [if_pos hin, if_pos (by omega), update_of_ne (by omega)]
    · rw [if_neg hin]
      by_cases hlast : a = d + n
      · rw [hlast, update_self, if_pos (by omega), Nat.add_sub_cancel_left]
      · rw [update_of_ne hlast, if_neg (by omega)]

theorem copyUp_moved_of_le (h : d ≤ s) : Moved m d s n (copyUp m d s n) := by
  induction n generalizing m d s with
  | zero =>
    intro a
    rw [if_neg (by omega)]
    rfl
  | succ n ih =>
    intro a
    rw [copyUp, ih (by omega)]
    by_cases hin : d + 1 ≤ a ∧ a < d + 1 + n
    · rw [if_pos hin, if_pos (by omega), update_of_ne (by omega)]
      congr 1
      omega
    · rw [if_neg hin]
      by_cases hfirst : a = d
      · rw [hfirst, update_self, if_pos (by omega), Nat.sub_self, Nat.add_zero]
      · rw [update_of_ne hfirst, if_neg (by omega)]

theorem copyUp_frame (h : a < d ∨ d + n ≤ a) : copyUp m d s n a = m a := by
  induction n generalizing m d s with
  | zero => rfl
  | succ n ih => rw [copyUp, ih (by omega), update_of_ne (by omega)]

/-- Going up, a byte of the source is final when it is copied. -/
theorem copyUp_repeats (h : s < d) (hi : i < n) :
    copyUp m d s n (d + i) = copyUp m d s n (s + i) := by
  induction n generalizing m d s i with
  | zero => omega
  | succ n ih =>
    rw [copyUp]
    cases i with
    | zero =>
      rw [copyUp_frame (by omega), copyUp_frame (by omega), Nat.add_zero, Nat.add_zero,
        update_self, update_of_ne (by omega)]
    | succ i =>
      have hstep := ih (m := update m d (m s)) (d := d + 1) (s := s + 1) (i := i)
        (by omega) (by omega)
      rwa [Nat.add_right_comm d, Nat.add_right_comm s] at hstep

/-- Going up into the source, the copy is right just if the source repeats itself at the distance of
the two ranges. -/
theorem copyUp_moved_iff (h : s < d) :
    Moved m d s n (copyUp m d s n) ↔ ∀ i, d + i < s + n → m (d + i) = m (s + i) := by
  constructor
  · intro hmoved i hi
    have hfar := hmoved.at (i := d - s + i) (by omega)
    rw [copyUp_repeats h (by omega), show s + (d - s + i) = d + i by omega,
      hmoved.at (by omega)] at hfar
    exact hfar.symm
  · intro hrep
    have hcopied : ∀ i, i < n → copyUp m d s n (d + i) = m (s + i) := by
      intro i
      induction i using Nat.strongRecOn with
      | ind i ih =>
        intro hi
        rw [copyUp_repeats h hi]
        by_cases hlow : s + i < d
        · exact copyUp_frame (.inl hlow)
        · obtain ⟨j, hj⟩ := Nat.exists_eq_add_of_le (Nat.le_of_not_lt hlow)
          rw [hj, ih j (by omega) (by omega), hrep j (by omega)]
    intro a
    by_cases hin : d ≤ a ∧ a < d + n
    · have := hcopied (a - d) (by omega)
      rwa [Nat.add_sub_cancel' hin.1, ← if_pos hin (t := m (s + (a - d))) (e := m a)] at this
    · rw [if_neg hin]
      exact copyUp_frame (by omega)

end

/-- The kernel's `memmove` is right for all ranges. That of the library is wrong when the
destination begins inside the source, unless the source repeats itself there. -/
theorem memmoves_moved_iff (m : Memory) (d s n : Nat) :
    Moved m d s n (Cstring.memmove m d s n) ∧ Moved m d s n (memmove m d s n) ↔
      (s < d ∧ d < s + n → ∀ i, d + i < s + n → m (d + i) = m (s + i)) := by
  by_cases hlt : s < d
  · have hkernel : Moved m d s n (Cstring.memmove m d s n) ↔
        (d < s + n ∨ Moved m d s n (copyUp m d s n)) := by
      unfold Cstring.memmove
      split
      · exact iff_of_true (copyDown_moved hlt) (.inl (by omega))
      · rw [or_iff_right (by omega)]
    rw [hkernel, memmove, copyUp_moved_iff hlt]
    constructor
    · intro h _
      exact h.2
    · intro h
      have hrep : ∀ i, d + i < s + n → m (d + i) = m (s + i) := fun i hi => h ⟨hlt, by omega⟩ i hi
      exact ⟨.inr hrep, hrep⟩
  · have hup := copyUp_moved_of_le (m := m) (n := n) (Nat.le_of_not_lt hlt)
    rw [Cstring.memmove, if_neg (fun h => hlt h.1)]
    exact iff_of_true ⟨hup, hup⟩ fun h => absurd h.1 hlt

/-- Two bytes moved up by one: the second one is lost. -/
theorem memmove_overlap_wrong :
    ¬ Moved (fun a => UInt8.ofNat a) 1 0 2 (memmove (fun a => UInt8.ofNat a) 1 0 2) := by
  intro h
  exact absurd (h 2) (by decide)

end Xv6.Ulib
