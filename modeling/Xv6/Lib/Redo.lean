import Mathlib.Logic.Function.Basic
import Mathlib.Data.Set.Defs

/-!
# Redo logs

A store maps addresses to values. `Redo H disk log goal` says that carrying out the writes of
`log` over the addresses `H` of `disk` gives `goal`, in whatever order and however often they
are carried out: each of them writes what `goal` has. This is what survives a crash in the
middle of the installation.
-/

namespace Xv6.Lib

open Function

variable {A V : Type*}

section

variable [DecidableEq A]

/-- Carry out writes in order. -/
def applyWrites (m : A → V) (ws : List (A × V)) : A → V :=
  ws.foldl (fun m w => update m w.1 w.2) m

@[simp] theorem applyWrites_nil (m : A → V) : applyWrites m [] = m := rfl

theorem applyWrites_append (m : A → V) (ws vs : List (A × V)) :
    applyWrites m (ws ++ vs) = applyWrites (applyWrites m ws) vs := List.foldl_append

@[simp] theorem applyWrites_singleton (m : A → V) (w : A × V) :
    applyWrites m [w] = update m w.1 w.2 := rfl

end

/-- Installing `log` over the addresses `H` of `disk` gives `goal`. -/
structure Redo (H : Set A) (disk : A → V) (log : List (A × V)) (goal : A → V) : Prop where
  home : ∀ w ∈ log, w.1 ∈ H
  logged : ∀ w ∈ log, goal w.1 = w.2
  rest : ∀ a ∈ H, (∀ w ∈ log, w.1 ≠ a) → disk a = goal a

namespace Redo

variable {H : Set A} {disk disk' goal : A → V} {log : List (A × V)} {w : A × V}

/-- With nothing in the log, the disk is the goal. -/
theorem of_home (h : ∀ a ∈ H, disk a = goal a) : Redo H disk [] goal :=
  ⟨by simp, by simp, fun a ha _ => h a ha⟩

theorem home_of_nil (h : Redo H disk [] goal) : ∀ a ∈ H, disk a = goal a :=
  fun a ha => h.rest a ha (by simp)

theorem congr (h : Redo H disk log goal) (hdisk : ∀ a ∈ H, disk' a = disk a) :
    Redo H disk' log goal :=
  ⟨h.home, h.logged, fun a ha hout => (hdisk a ha).trans (h.rest a ha hout)⟩

/-- Installing one entry, for the first time or again. -/
theorem install [DecidableEq A] (h : Redo H disk log goal) (hw : w ∈ log) :
    Redo H (update disk w.1 w.2) log goal := by
  refine ⟨h.home, h.logged, fun a ha hout => ?_⟩
  rw [update_of_ne (Ne.symm (hout w hw))]
  exact h.rest a ha hout

/-- When every entry is installed the log is no longer needed. -/
theorem installed (h : Redo H disk log goal) (hall : ∀ w ∈ log, disk w.1 = w.2) :
    ∀ a ∈ H, disk a = goal a := by
  intro a ha
  by_cases hin : ∃ w ∈ log, w.1 = a
  · obtain ⟨w, hw, rfl⟩ := hin
    rw [hall w hw, h.logged w hw]
  · exact h.rest a ha fun w hw heq => hin ⟨w, hw, heq⟩

end Redo

end Xv6.Lib
