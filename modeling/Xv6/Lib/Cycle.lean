import Mathlib.Data.List.Nodup
import Mathlib.Data.List.Rotate
import Mathlib.Logic.Function.Basic

/-!
# Circular singly linked lists

A list goes round in the links `ptr` if each of its elements is linked to the next one and the last
to the first. Where the list is cut open does not matter. `scan` follows the links up to the first
cell that passes a test and returns the cell before it as well.
-/

namespace Xv6.Lib

open Function List

variable {α : Type*} {ptr ptr' : α → α} {l m : List α} {a b x y : α}

/-- The links go round in `l`. -/
def Loops (ptr : α → α) (l : List α) : Prop := l.map ptr = l.rotate 1

def scan (ptr : α → α) (test : α → Bool) : Nat → α → α → Option (α × α)
  | 0, _, _ => none
  | turns + 1, prev, p => if test p then some (prev, p) else scan ptr test turns p (ptr p)

theorem loops_cons : Loops ptr (x :: l) ↔ (x :: l).map ptr = l ++ [x] := by
  rw [Loops, rotate_cons_succ, rotate_zero]

theorem Loops.rotate (h : Loops ptr l) (n : Nat) : Loops ptr (l.rotate n) := by
  rw [Loops, map_rotate, h, rotate_rotate, rotate_rotate, Nat.add_comm]

theorem Loops.swap (h : Loops ptr (l ++ m)) : Loops ptr (m ++ l) := by
  have := h.rotate l.length
  rwa [rotate_append_length_eq] at this

/-- The list cut open in front of `x`. -/
theorem loops_middle : Loops ptr (l ++ x :: m) ↔ (x :: (m ++ l)).map ptr = m ++ l ++ [x] :=
  ⟨fun h => loops_cons.mp h.swap, fun h => Loops.swap (l := x :: m) (loops_cons.mpr h)⟩

theorem Loops.congr (h : Loops ptr l) (heq : ∀ a ∈ l, ptr' a = ptr a) : Loops ptr' l := by
  rw [Loops, map_congr_left heq]
  exact h

theorem Loops.next (h : Loops ptr (l ++ x :: m)) : (m ++ l ++ [x]).head? = some (ptr x) := by
  rw [← loops_middle.mp h]
  rfl

section Update

variable [DecidableEq α]

/-- Put `b` in behind `x`. -/
theorem Loops.link (h : Loops ptr (l ++ x :: m)) (hl : (l ++ x :: m).Nodup) (hb : b ∉ l ++ x :: m) :
    Loops (update (update ptr b (ptr x)) x b) (l ++ x :: b :: m) := by
  have hcons := loops_middle.mp h
  have hx : x ∉ m ++ l := by
    have := nodup_append_comm.mp hl
    exact (nodup_cons.mp this).1
  have hb' : b ≠ x ∧ b ∉ m ++ l := by
    simp only [mem_append, mem_cons, not_or] at hb ⊢
    tauto
  apply loops_middle.mpr
  have hrest : (m ++ l).map (update (update ptr b (ptr x)) x b) =
      (m ++ l).map ptr := by
    refine map_congr_left fun a ha => ?_
    rw [update_of_ne (ne_of_mem_of_not_mem ha hx),
      update_of_ne (ne_of_mem_of_not_mem ha hb'.2)]
  rw [cons_append, map_cons, map_cons, hrest, update_self,
    update_of_ne hb'.1, update_self, cons_append, ← hcons, map_cons]

/-- Take the cell behind `x` out. -/
theorem Loops.unlink (h : Loops ptr (l ++ x :: b :: m)) (hl : (l ++ x :: b :: m).Nodup) :
    Loops (update ptr x (ptr b)) (l ++ x :: m) := by
  have hcons := loops_middle.mp h
  have hx : x ∉ m ++ l := by
    have := (nodup_cons.mp (nodup_append_comm.mp hl)).1
    exact fun hmem => this (mem_cons_of_mem _ hmem)
  apply loops_middle.mpr
  have hrest : (m ++ l).map (update ptr x (ptr b)) = (m ++ l).map ptr :=
    map_congr_left fun a ha => update_of_ne (ne_of_mem_of_not_mem ha hx) ..
  rw [cons_append, map_cons, map_cons, cons_append] at hcons
  rw [map_cons, hrest, update_self]
  exact (List.cons.inj hcons).2

end Update

/-- More turns change nothing once a scan has ended. -/
theorem scan_mono {test : α → Bool} {n k : Nat} {p : α} {r : α × α} (h : scan ptr test n x p = some r)
    (hk : n ≤ k) : scan ptr test k x p = some r := by
  induction n generalizing k x p with
  | zero => cases h
  | succ n ih =>
    obtain ⟨k, rfl⟩ := Nat.exists_eq_succ_of_ne_zero (n := k) (by omega)
    rw [scan] at h ⊢
    split at h
    · rwa [if_pos ‹_›]
    · rw [if_neg ‹_›]
      exact ih h (Nat.le_of_succ_le_succ hk)

/-- A scan along a path on which some cell passes the test. It comes to the end only if no other cell
does. -/
theorem scan_path {test : α → Bool} {turns : Nat} (h : (x :: l).map ptr = l ++ [y]) (hy : y ∉ l)
    (htest : ∃ q ∈ l ++ [y], test q = true) (hturns : l.length < turns) :
    ∃ r ∈ x :: l, scan ptr test turns x (ptr x) = some (r, ptr r) ∧ test (ptr r) = true ∧
      (ptr r = y → ∀ q ∈ l, test q = false) := by
  induction l generalizing x turns with
  | nil =>
    obtain ⟨turns, rfl⟩ := Nat.exists_eq_succ_of_ne_zero (Nat.ne_of_gt hturns)
    obtain ⟨q, hq, hpass⟩ := htest
    obtain rfl : ptr x = q := by simp_all
    exact ⟨x, by simp, by rw [scan, if_pos hpass], hpass, by simp⟩
  | cons a l ih =>
    obtain ⟨turns, rfl⟩ := Nat.exists_eq_succ_of_ne_zero (Nat.ne_of_gt (Nat.zero_lt_of_lt hturns))
    obtain ⟨rfl, hrest⟩ := List.cons.inj h
    rw [mem_cons, not_or] at hy
    by_cases hpass : test (ptr x) = true
    · exact ⟨x, by simp, by rw [scan, if_pos hpass], hpass, fun heq => absurd heq.symm hy.1⟩
    · obtain ⟨q, hq, hqpass⟩ := htest
      have hq' : q ∈ l ++ [y] := (mem_cons.mp hq).resolve_left fun h => hpass (h ▸ hqpass)
      obtain ⟨r, hr, hscan, htest, hlast⟩ :=
        ih hrest hy.2 ⟨q, hq', hqpass⟩ (Nat.lt_of_succ_lt_succ hturns)
      refine ⟨r, mem_cons_of_mem _ hr, by rw [scan, if_neg hpass, hscan], htest, fun heq => ?_⟩
      exact forall_mem_cons.mpr ⟨Bool.eq_false_iff.mpr hpass, hlast heq⟩

/-- Starting behind any cell, a scan comes to a cell that passes the test if there is one. It comes
round to the cell where it started only if no other cell passes. -/
theorem Loops.scan {turns : Nat} (test : α → Bool) (h : Loops ptr l) (hl : l.Nodup) (hx : x ∈ l)
    (htest : ∃ q ∈ l, test q = true) (hturns : l.length ≤ turns) :
    ∃ r ∈ l, Lib.scan ptr test turns x (ptr x) = some (r, ptr r) ∧ test (ptr r) = true ∧
      (ptr r = x → ∀ q ∈ l, q ≠ x → test q = false) := by
  obtain ⟨s, t, rfl⟩ := append_of_mem hx
  obtain ⟨q, hq, hpass⟩ := htest
  have hmem : ∀ q, q ∈ s ++ x :: t ↔ q = x ∨ q ∈ t ++ s := by
    intro q
    simp only [mem_append, mem_cons]
    tauto
  have hx' : x ∉ t ++ s := (nodup_cons.mp (nodup_append_comm.mp hl)).1
  have hq' : q ∈ t ++ s ++ [x] := by
    rw [mem_append, mem_singleton, or_comm]
    exact (hmem q).mp hq
  have hlen : (t ++ s).length < turns := by
    simp only [length_append, length_cons] at hturns ⊢
    omega
  obtain ⟨r, hr, hscan, htest, hlast⟩ := scan_path (loops_middle.mp h) hx' ⟨q, hq', hpass⟩ hlen
  refine ⟨r, (hmem r).mpr (mem_cons.mp hr), hscan, htest, fun heq q hq hne => ?_⟩
  exact hlast heq q (((hmem q).mp hq).resolve_left hne)

end Xv6.Lib
