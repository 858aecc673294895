import Xv6.Lib.Ring

/-!
# Singly linked queues

A chain is a pointer to its first cell and a link in every cell. The place of a pointer is an
`Option`, as in the rings of `Lib.Ring`: `none` is the pointer to the first cell, `some a` the
link of the cell `a`. A pointer to a pointer is a place. `Holds c l` says that the pointers lead
through the cells of `l` in order.
-/

namespace Xv6.Lib

open List

variable {α : Type*}

/-- The pointer to the first cell and the links of the cells. -/
structure Chain (α : Type*) where
  head : Option α
  next : α → Option α

namespace Chain

/-- A chain without cells. -/
def empty : Chain α := ⟨none, fun _ => none⟩

/-- The pointer at a place. -/
def get (c : Chain α) : Option α → Option α
  | none => c.head
  | some a => c.next a

/-- Go from a place to the first one behind it whose pointer is null; `none` when that takes
`turns` turns or more. -/
def last (c : Chain α) : Nat → Option α → Option (Option α)
  | 0, _ => none
  | turns + 1, pp =>
    match c.get pp with
    | none => some pp
    | some a => c.last turns (some a)

/-- Take the first cell, `b`, out. -/
def pop (c : Chain α) (b : α) : Chain α := { c with head := c.next b }

section

variable [DecidableEq α]

/-- Store a pointer at a place. -/
def set (c : Chain α) : Option α → Option α → Chain α
  | none, v => { c with head := v }
  | some a, v => { c with next := Function.update c.next a v }

/-- Put the cell `b` in at the end, which a walk over the places finds. -/
def append (c : Chain α) (turns : Nat) (b : α) : Option (Chain α) :=
  let c := c.set (some b) none
  (c.last turns none).map fun pp => c.set pp (some b)

end

/-- The pointers go through `l`: at every place where `l` can be cut in two, the pointer leads to
the second part. -/
def Holds (c : Chain α) (l : List α) : Prop := ∀ p q, p ++ q = l → c.get p.getLast? = q.head?

variable {c : Chain α} {l p q : List α} {b : α}

theorem empty_holds : (empty : Chain α).Holds [] := by
  intro p q h
  obtain ⟨rfl, rfl⟩ := append_eq_nil_iff.mp h
  rfl

theorem get_set_self [DecidableEq α] (pp v : Option α) : (c.set pp v).get pp = v := by
  cases pp with
  | none => rfl
  | some a => simp [set, get]

theorem get_set_of_ne [DecidableEq α] {pp qq : Option α} (v : Option α) (h : qq ≠ pp) :
    (c.set pp v).get qq = c.get qq := by
  cases pp with
  | none =>
    cases qq with
    | none => exact absurd rfl h
    | some a => rfl
  | some a =>
    cases qq with
    | none => rfl
    | some a' =>
      have hne : a' ≠ a := fun heq => h (congrArg some heq)
      simp [set, get, Function.update_of_ne hne]

namespace Holds

theorem head_eq (h : c.Holds l) : c.head = l.head? := h [] l rfl

/-- The walk ends at the place behind the last cell. -/
theorem last_eq (h : c.Holds l) : ∀ (p q : List α) turns, p ++ q = l → q.length < turns →
    c.last turns p.getLast? = some l.getLast?
  | _, _, 0, _, hlen => absurd hlen (Nat.not_lt_zero _)
  | p, [], turns + 1, heq, _ => by
    have hget : c.get p.getLast? = none := h p [] heq
    rw [append_nil] at heq
    simp only [last, hget]
    rw [heq]
  | p, a :: q, turns + 1, heq, hlen => by
    have hget : c.get p.getLast? = some a := h p (a :: q) heq
    have hrest := last_eq h (p ++ [a]) q turns (by simpa using heq)
      (by simpa using hlen)
    rw [getLast?_concat] at hrest
    simp only [last, hget, hrest]

theorem pop (h : c.Holds (b :: l)) : (c.pop b).Holds l := by
  intro p q hpq
  have hcut : c.get (b :: p).getLast? = q.head? := h (b :: p) q (by rw [cons_append, hpq])
  cases p with
  | nil => exact hcut
  | cons a p =>
    rw [getLast?_cons_cons] at hcut
    rw [getLast?_eq_some_getLast (cons_ne_nil a p)] at hcut ⊢
    exact hcut

variable [DecidableEq α]

/-- The link of a cell that is not in the chain does not matter. -/
theorem set_link (h : c.Holds l) (hb : b ∉ l) (v : Option α) : (c.set (some b) v).Holds l := by
  intro p q hpq
  rw [get_set_of_ne, h p q hpq]
  intro heq
  apply hb
  rw [← hpq]
  exact mem_append_left q (mem_of_getLast? heq)

theorem append (h : c.Holds l) (hnodup : l.Nodup) (hb : b ∉ l) {turns : Nat}
    (hlen : l.length < turns) :
    ∃ c', c.append turns b = some c' ∧ c'.Holds (l ++ [b]) := by
  have hset := h.set_link hb none
  have hlast : (c.set (some b) none).last turns none = some l.getLast? :=
    hset.last_eq [] l turns rfl hlen
  refine ⟨(c.set (some b) none).set l.getLast? (some b), ?_, ?_⟩
  · rw [Chain.append, hlast]
    rfl
  intro p q hpq
  rcases eq_nil_or_concat q with rfl | ⟨q, a, rfl⟩
  · -- behind the new cell
    rw [append_nil] at hpq
    have hne : some b ≠ l.getLast? := fun heq => hb (mem_of_getLast? heq.symm)
    rw [hpq, getLast?_concat, get_set_of_ne _ hne, get_set_self]
    rfl
  rw [concat_eq_append, ← append_assoc] at hpq
  obtain ⟨hcut, hab⟩ := append_inj' hpq rfl
  obtain rfl : a = b := by simpa using hab
  rw [concat_eq_append]
  by_cases hq : q = []
  · -- in front of it
    subst hq
    obtain rfl : p = l := by simpa using hcut
    rw [get_set_self]
    rfl
  · -- among the cells that were there
    have hne : p.getLast? ≠ l.getLast? := by
      rw [← hcut]
      apply Links.Holds.getLast?_ne _ hq
      rw [hcut]
      exact hnodup
    rw [get_set_of_ne _ hne, hset p q hcut, head?_append_of_ne_nil _ hq]

end Holds

end Chain

end Xv6.Lib
