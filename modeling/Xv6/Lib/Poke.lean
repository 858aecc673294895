import Mathlib.Logic.Function.Basic
import Mathlib.Data.List.Basic

/-!
# A sequence of stores

Values are stored at places one after the other. A place holds the value that was stored there last,
and the places where nothing was stored are as before.
-/

namespace Xv6.Lib

open Function

variable {κ ν : Type} [DecidableEq κ] {f : κ → ν} {k : κ} {v : ν} {l m : List (κ × ν)}

/-- Store the values one after the other. -/
def poke (f : κ → ν) (l : List (κ × ν)) : κ → ν :=
  l.foldl (fun f x => update f x.1 x.2) f

@[simp] theorem poke_nil : poke f [] = f := rfl

@[simp] theorem poke_cons (x : κ × ν) : poke f (x :: l) = poke (update f x.1 x.2) l := rfl

theorem poke_append : poke f (l ++ m) = poke (poke f l) m := List.foldl_append ..

theorem poke_of_notMem : ∀ {f : κ → ν}, k ∉ l.map Prod.fst → poke f l k = f k := by
  induction l with
  | nil =>
    intro f _
    rfl
  | cons x l ih =>
    intro f hk
    rw [List.map_cons, List.mem_cons, not_or] at hk
    rw [poke_cons, ih hk.2, update_of_ne hk.1]

theorem poke_of_last (h : k ∉ m.map Prod.fst) : poke f (l ++ (k, v) :: m) k = v := by
  rw [poke_append, poke_cons, poke_of_notMem h, update_self]

end Xv6.Lib
