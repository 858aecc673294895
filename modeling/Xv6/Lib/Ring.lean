import Mathlib.Data.List.Nodup
import Mathlib.Logic.Function.Basic

/-!
# Circular doubly linked lists

A ring has one pair of links for each of its cells and one for its head. A link is an
`Option`: `none` is the head, so the first cell of a list is `head?` and the last one `getLast?`.
`Holds r l` says that going round the ring from the head meets the cells of `l` in order, and
going round backwards meets them in the opposite order.
-/

namespace Xv6.Lib

open Function List

variable {α : Type*}

/-- The links of the cells, and of the head, to their neighbours. -/
structure Links (α : Type*) where
  next : Option α → Option α
  prev : Option α → Option α

namespace Links

/-- A head whose neighbour on both sides is itself. -/
def empty : Links α := ⟨fun _ => none, fun _ => none⟩

/-- The links from the head on go through `l`: at every place where `l` can be cut in two, the two
ends are linked to each other. -/
def Holds (r : Links α) (l : List α) : Prop :=
  ∀ p q, p ++ q = l → r.next p.getLast? = q.head? ∧ r.prev q.head? = p.getLast?

/-- Follow the links `f` from a node to the first cell that passes the test. -/
def scan (f : Option α → Option α) (test : α → Bool) : Nat → Option α → Option α
  | 0, _ => none
  | _ + 1, none => none
  | turns + 1, some a => if test a then some a else scan f test turns (f (some a))

section

variable [DecidableEq α]

/-- Take the cell `b` out of the ring: its neighbours are linked to each other. -/
def unlink (r : Links α) (b : α) : Links α :=
  let r := { r with prev := update r.prev (r.next (some b)) (r.prev (some b)) }
  { r with next := update r.next (r.prev (some b)) (r.next (some b)) }

/-- Put the cell `b` in behind the head. -/
def pushFront (r : Links α) (b : α) : Links α :=
  let r := { r with next := update r.next (some b) (r.next none) }
  let r := { r with prev := update r.prev (some b) none }
  let r := { r with prev := update r.prev (r.next none) (some b) }
  { r with next := update r.next none (some b) }

end

variable {r : Links α} {l p q : List α} {b : α}

theorem empty_holds : (empty : Links α).Holds [] := by
  intro p q h
  obtain ⟨rfl, rfl⟩ := append_eq_nil_iff.mp h
  exact ⟨rfl, rfl⟩

namespace Holds

/-- The links of a cell lead to the cells around it. -/
theorem next_cell (h : r.Holds (p ++ b :: q)) : r.next (some b) = q.head? := by
  have := (h (p ++ [b]) q (by simp)).1
  rwa [getLast?_concat] at this

theorem prev_cell (h : r.Holds (p ++ b :: q)) : r.prev (some b) = p.getLast? :=
  (h p (b :: q) rfl).2

variable {test : α → Bool} {turns : Nat} {c : List α}

theorem scan_next (h : r.Holds l) : ∀ (p q : List α) turns, p ++ q = l → q.length ≤ turns →
      scan r.next test turns q.head? = q.find? test
  | _, [], turns, _, _ => by cases turns <;> rfl
  | _, a :: q, 0, _, hlen => by simp at hlen
  | p, a :: q, turns + 1, heq, hlen => by
    simp only [head?_cons, scan, find?_cons]
    split
    · rename_i ht; simp [ht]
    · rename_i ht
      rw [next_cell (by rw [heq]; exact h),
        scan_next h (p ++ [a]) q turns (by simpa using heq) (by simpa using hlen)]
      simp [ht]

theorem scan_prev (h : r.Holds l) : ∀ (p q : List α) turns, p.reverse ++ q = l → p.length ≤ turns →
      scan r.prev test turns p.head? = p.find? test
  | [], _, turns, _, _ => by cases turns <;> rfl
  | a :: p, _, 0, _, hlen => by simp at hlen
  | a :: p, q, turns + 1, heq, hlen => by
    have hcut : p.reverse ++ a :: q = l := by simpa using heq
    simp only [head?_cons, scan, find?_cons]
    split
    · rename_i ht; simp [ht]
    · rename_i ht
      rw [prev_cell (by rw [hcut]; exact h), getLast?_reverse,
        scan_prev h p (a :: q) turns hcut (by simpa using hlen)]
      simp [ht]

/-- A walk from the head sees the cells in order. -/
theorem find?_next (h : r.Holds l) (hlen : l.length ≤ turns) :
    scan r.next test turns (r.next none) = l.find? test := by
  rw [show r.next none = l.head? from (h [] l rfl).1]
  exact h.scan_next [] l turns rfl hlen

theorem find?_prev (h : r.Holds l) (hlen : l.length ≤ turns) :
    scan r.prev test turns (r.prev none) = l.reverse.find? test := by
  have hlast : r.prev none = l.reverse.head? := by
    rw [head?_reverse]
    exact (h l [] (by simp)).2
  rw [hlast]
  exact h.scan_prev l.reverse [] turns (by simp) (by simpa using hlen)

/-- Two different cuts of a list without repetitions do not meet at a node. -/
theorem getLast?_ne (hnodup : (p ++ c).Nodup) (hc : c ≠ []) : p.getLast? ≠ (p ++ c).getLast? := by
  rw [getLast?_append_of_ne_nil _ hc, getLast?_eq_some_getLast hc]
  intro heq
  have hp := mem_of_getLast? heq
  exact disjoint_of_nodup_append hnodup hp (getLast_mem hc)

theorem head?_ne (hnodup : (c ++ q).Nodup) (hc : c ≠ []) : q.head? ≠ (c ++ q).head? := by
  obtain ⟨a, c, rfl⟩ := exists_cons_of_ne_nil hc
  intro heq
  have ha : a ∈ q := mem_of_head? (by simpa using heq)
  exact disjoint_of_nodup_append hnodup mem_cons_self ha

variable [DecidableEq α]

theorem unlink (h : r.Holds (p ++ b :: q)) (hnodup : (p ++ b :: q).Nodup) :
    (r.unlink b).Holds (p ++ q) := by
  have hsub : (p ++ q).Nodup := hnodup.sublist (by simp)
  have hbp : b ∉ p := fun hmem =>
    disjoint_of_nodup_append hnodup hmem mem_cons_self
  have hbq : b ∉ q := (nodup_cons.mp hnodup.of_append_right).1
  have hself : q.head? ≠ some b := fun heq => hbq (mem_of_head? heq)
  have hprev : (r.unlink b).prev = update r.prev q.head? p.getLast? := by
    simp only [Links.unlink, h.next_cell, h.prev_cell]
  have hnext : (r.unlink b).next = update r.next p.getLast? q.head? := by
    simp only [Links.unlink, h.next_cell, h.prev_cell, update_of_ne (Ne.symm hself)]
  intro s t hst
  rw [hprev, hnext]
  rcases append_eq_append_iff.mp hst with ⟨c, hp, ht⟩ | ⟨c, hs, hq⟩
  · -- the cut is in front of the cell
    by_cases hc : c = []
    · subst hc
      simp only [append_nil, nil_append] at hp ht
      subst hp ht
      exact ⟨update_self .., update_self ..⟩
    · subst hp ht
      rw [append_assoc] at h hsub
      have hcut := h s (c ++ b :: q) rfl
      rw [head?_append_of_ne_nil _ hc] at hcut ⊢
      refine ⟨?_, ?_⟩
      · rw [update_of_ne (getLast?_ne (hsub.sublist (by simp)) hc)]
        exact hcut.1
      · have hne := head?_ne (hsub.sublist (sublist_append_right ..)) hc
        rw [head?_append_of_ne_nil _ hc] at hne
        rw [update_of_ne (Ne.symm hne)]
        exact hcut.2
  · -- the cut is behind it
    by_cases hc : c = []
    · subst hc
      simp only [append_nil, nil_append] at hs hq
      subst hs hq
      exact ⟨update_self .., update_self ..⟩
    · subst hs hq
      have hcut := h (p ++ b :: c) t (by simp)
      rw [getLast?_append_of_ne_nil _ (by simp), getLast?_cons] at hcut
      obtain ⟨x, hx⟩ : ∃ x, c.getLast? = some x := ⟨_, getLast?_eq_some_getLast hc⟩
      rw [hx, Option.getD_some] at hcut
      have hsp : (p ++ c).getLast? = some x := by rw [getLast?_append_of_ne_nil _ hc, hx]
      refine ⟨?_, ?_⟩
      · have hne := getLast?_ne (p := p) (c := c) (hsub.sublist (by simp)) hc
        rw [update_of_ne (Ne.symm hne), hsp]
        exact hcut.1
      · rw [update_of_ne (head?_ne (hsub.sublist (sublist_append_right ..)) hc), hsp]
        exact hcut.2

theorem pushFront (h : r.Holds l) (hnodup : l.Nodup) (hb : b ∉ l) :
    (r.pushFront b).Holds (b :: l) := by
  have hfirst : r.next none = l.head? := (h [] l rfl).1
  have hself : l.head? ≠ some b := fun heq => hb (mem_of_head? heq)
  have hnext : (r.pushFront b).next =
      update (update r.next (some b) l.head?) none (some b) := by
    simp only [Links.pushFront, hfirst]
  have hprev : (r.pushFront b).prev =
      update (update r.prev (some b) none) l.head? (some b) := by
    simp only [Links.pushFront, hfirst, update_of_ne (Option.some_ne_none b).symm]
  intro s t hst
  rw [hnext, hprev]
  cases s with
  | nil =>
    obtain rfl : t = b :: l := hst
    rw [head?_cons, update_of_ne (Ne.symm hself), update_self]
    exact ⟨update_self .., rfl⟩
  | cons a s =>
    obtain ⟨rfl, hl⟩ := List.cons.inj hst
    obtain rfl : s ++ t = l := hl
    by_cases hs : s = []
    · subst hs
      simp
    · have hcut := h s t rfl
      have hht := head?_ne hnodup hs
      obtain ⟨x, hx⟩ : ∃ x, s.getLast? = some x := ⟨_, getLast?_eq_some_getLast hs⟩
      have hxa : x ≠ a := fun heq => hb (mem_append_left _ (heq ▸ mem_of_getLast? hx))
      have hta : t.head? ≠ some a := fun heq =>
        hb (mem_append_right _ (mem_of_head? heq))
      rw [hx] at hcut
      rw [getLast?_cons, hx, Option.getD_some, update_of_ne (Option.some_ne_none x),
        update_of_ne (by simpa using hxa), update_of_ne hht,
        update_of_ne hta]
      exact hcut

theorem moveFront (h : r.Holds l) (hnodup : l.Nodup) (hb : b ∈ l) :
    ((r.unlink b).pushFront b).Holds (b :: l.erase b) := by
  obtain ⟨p, q, rfl⟩ := append_of_mem hb
  have hp : b ∉ p := fun hmem => disjoint_of_nodup_append hnodup hmem mem_cons_self
  have hq : b ∉ q := (nodup_cons.mp hnodup.of_append_right).1
  rw [erase_append_right _ hp, erase_cons_head]
  exact (h.unlink hnodup).pushFront (hnodup.sublist (by simp)) (by simp [hp, hq])

end Holds

end Links

end Xv6.Lib
