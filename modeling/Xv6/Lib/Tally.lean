import Mathlib.Algebra.BigOperators.Pi
import Mathlib.Algebra.BigOperators.Ring.Finset
import Mathlib.Algebra.BigOperators.Group.Finset.Piecewise
import Mathlib.Algebra.Order.BigOperators.Group.Finset
import Mathlib.Algebra.BigOperators.Fin
import Mathlib.Data.Int.Order.Basic
import Mathlib.Tactic.Abel

/-!
# Counting places

`marks xs x` is the number of times that `x` is in the list `xs`. Counts are functions, so that what
several lists have together is a sum and a change to one of them is an equation between functions.
-/

namespace Xv6.Lib

open Function

section

variable {ι κ α M : Type} [Fintype ι] [DecidableEq ι] [DecidableEq κ]

/-- One for the place pointed at. -/
def mark (o : Option κ) : κ → Int := o.elim 0 fun x => Pi.single x 1

@[simp] theorem mark_none : mark (none : Option κ) = 0 := rfl

@[simp] theorem mark_some_self (x : κ) : mark (some x) x = 1 := Pi.single_eq_same x 1

@[simp] theorem mark_some_of_ne {x y : κ} (h : y ≠ x) : mark (some x) y = 0 :=
  Pi.single_eq_of_ne h 1

theorem mark_apply (o : Option κ) (x : κ) : mark o x = if o = some x then 1 else 0 := by
  cases o with
  | none => simp
  | some y =>
    by_cases h : x = y
    · simp [h]
    · simp [h, Ne.symm h]

theorem mark_nonneg (o : Option κ) (x : κ) : 0 ≤ mark o x := by
  rw [mark_apply]
  split <;> decide

omit [Fintype ι] in
/-- A sum over some entries of a table after a change to one of them. -/
theorem sum_comp_update_of_mem [AddCommGroup M] {u : Finset ι} (w : α → M) (g : ι → α) {i : ι}
    (hi : i ∈ u) (a : α) :
    ∑ j ∈ u, w (update g i a j) = ∑ j ∈ u, w (g j) - w (g i) + w a := by
  have hsplit : ∀ b, ∑ j ∈ u, w (update g i b j) =
      w b + ∑ j ∈ u \ {i}, w (g j) := by
    intro b
    rw [← Finset.sum_update_of_mem hi]
    refine Finset.sum_congr rfl fun j _ => ?_
    by_cases hj : j = i
    · simp [hj]
    · simp [hj]
  have hold := hsplit (g i)
  rw [update_eq_self] at hold
  rw [hsplit, hold]
  abel

/-! ## Lists of places -/

/-- How often each place is in a list. -/
def marks (xs : List κ) : κ → Int := (xs.map fun x => mark (some x)).sum

@[simp] theorem marks_nil : marks ([] : List κ) = 0 := rfl

@[simp] theorem marks_cons (x : κ) (xs : List κ) : marks (x :: xs) = mark (some x) + marks xs := by
  simp [marks]

theorem marks_apply (xs : List κ) (x : κ) : marks xs x = (xs.count x : Int) := by
  induction xs with
  | nil => rfl
  | cons y ys ih =>
    rw [marks_cons, Pi.add_apply, ih, mark_apply, List.count_cons]
    by_cases hxy : y = x
    · simp [hxy, add_comm]
    · simp [hxy]

/-- Two lists have the same places exactly if one is a permutation of the other. -/
theorem marks_eq_iff {xs ys : List κ} : marks xs = marks ys ↔ xs.Perm ys := by
  rw [List.perm_iff_count]
  constructor
  · intro h x
    have hx := congrFun h x
    rw [marks_apply, marks_apply] at hx
    exact Int.ofNat.inj hx
  · intro h
    funext x
    rw [marks_apply, marks_apply, h x]

theorem mark_some_ne_zero (x : κ) : mark (some x) ≠ 0 := by
  intro h
  have hx := congrFun h x
  rw [mark_some_self] at hx
  exact one_ne_zero hx

end

end Xv6.Lib
