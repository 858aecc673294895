import Mathlib.Data.Set.Insert
import Mathlib.Logic.Relation
import Mathlib.Logic.Function.Basic

/-!
# Allocation and reference

A heap is a set of units in use, and a partial map from the positions that can hold a reference to
units. It changes by giving a free unit to an empty position and by taking one back. `Owned` says
that references go to units in use and that no two positions share one, `Exact` that nothing in use
is lost. Both are kept by every step, so a program that refines these steps keeps them too.
-/

namespace Xv6.Lib

open Function

variable {P B : Type*}

/-- Units in use, and who refers to them. -/
@[ext]
structure Heap (P B : Type*) where
  used : Set B
  ref : P → Option B

namespace Heap

/-- The unit `b` is given to the position `p`. -/
def assign [DecidableEq P] (h : Heap P B) (p : P) (b : B) : Heap P B :=
  ⟨insert b h.used, update h.ref p (some b)⟩

/-- The unit `b` is taken back from the position `p`. -/
def release [DecidableEq P] (h : Heap P B) (p : P) (b : B) : Heap P B :=
  ⟨h.used \ {b}, update h.ref p none⟩

/-- The steps of a heap. -/
inductive Step [DecidableEq P] : Heap P B → Heap P B → Prop where
  | assign {h : Heap P B} {p : P} {b : B} :
      b ∉ h.used → h.ref p = none → Step h (h.assign p b)
  | release {h : Heap P B} {p : P} {b : B} : h.ref p = some b → Step h (h.release p b)

/-- References go to units in use, and no unit has two. -/
structure Owned (h : Heap P B) : Prop where
  mem : ∀ {p b}, h.ref p = some b → b ∈ h.used
  inj : ∀ {p q b}, h.ref p = some b → h.ref q = some b → p = q

/-- Every unit in use is referred to. -/
def Exact (h : Heap P B) : Prop := ∀ b ∈ h.used, ∃ p, h.ref p = some b

variable [DecidableEq P] {h h' : Heap P B}

theorem Owned.step (ho : h.Owned) (hs : Step h h') : h'.Owned := by
  cases hs with
  | @assign p b hb hp =>
    refine ⟨fun {q c} hq => ?_, fun {q r c} hq hr => ?_⟩ <;> simp only [Heap.assign] at *
    · by_cases hqp : q = p
      · subst hqp
        rw [update_self] at hq
        exact .inl (Option.some.inj hq).symm
      · rw [update_of_ne hqp] at hq
        exact .inr (ho.mem hq)
    · by_cases hqp : q = p <;> by_cases hrp : r = p
      · rw [hqp, hrp]
      · -- the new unit was not referred to before
        rw [hqp, update_self] at hq
        rw [update_of_ne hrp] at hr
        exact absurd (Option.some.inj hq ▸ ho.mem hr) hb
      · rw [hrp, update_self] at hr
        rw [update_of_ne hqp] at hq
        exact absurd (Option.some.inj hr ▸ ho.mem hq) hb
      · rw [update_of_ne hqp] at hq
        rw [update_of_ne hrp] at hr
        exact ho.inj hq hr
  | @release p b hp =>
    have hold : ∀ {q c}, update h.ref p none q = some c → q ≠ p ∧ h.ref q = some c := by
      intro q c hq
      by_cases hqp : q = p
      · rw [hqp, update_self] at hq
        cases hq
      · exact ⟨hqp, by rwa [update_of_ne hqp] at hq⟩
    refine ⟨fun {q c} hq => ?_, fun {q r c} hq hr => ho.inj (hold hq).2 (hold hr).2⟩
    obtain ⟨hqp, hq⟩ := hold hq
    refine ⟨ho.mem hq, fun hcb => hqp (ho.inj (hcb ▸ hq) hp)⟩

theorem Exact.step (he : h.Exact) (hs : Step h h') : h'.Exact := by
  cases hs with
  | @assign p b hb hp =>
    intro c hc
    rcases hc with rfl | hc
    · exact ⟨p, update_self ..⟩
    · obtain ⟨q, hq⟩ := he c hc
      have hqp : q ≠ p := fun heq => by rw [heq, hp] at hq; cases hq
      exact ⟨q, by simpa [Heap.assign, update_of_ne hqp] using hq⟩
  | @release p b hp =>
    rintro c ⟨hc, hcb⟩
    obtain ⟨q, hq⟩ := he c hc
    have hqp : q ≠ p := fun heq => by
      rw [heq, hp] at hq
      exact hcb (Option.some.inj hq).symm
    exact ⟨q, by simpa [Heap.release, update_of_ne hqp] using hq⟩

/-- Any number of steps. -/
abbrev Steps : Heap P B → Heap P B → Prop := Relation.ReflTransGen Step

theorem Owned.steps (ho : h.Owned) (hs : Steps h h') : h'.Owned := by
  induction hs with
  | refl => exact ho
  | tail _ hstep ih => exact ih.step hstep

theorem Exact.steps (he : h.Exact) (hs : Steps h h') : h'.Exact := by
  induction hs with
  | refl => exact he
  | tail _ hstep ih => exact ih.step hstep

end Heap

end Xv6.Lib
