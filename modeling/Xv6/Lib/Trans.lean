import Mathlib.Data.List.Induction

/-!
# Labelled transition systems

A system is a partial step function `step : ι → σ → Option σ`: `none` says that the label is
not enabled. A run is a list of labels, all enabled in turn. The invariant rules below are
the only inductions over runs that the rest of the development needs.
-/

namespace Xv6.Lib

variable {σ ι : Type*}

/-- Take the labels in turn; `none` as soon as one of them is not enabled. -/
def runFrom (step : ι → σ → Option σ) : List ι → σ → Option σ
  | [], s => some s
  | l :: ls, s => (step l s).bind (runFrom step ls)

/-- Every step of the run from `s` is taken in a state where its label meets `cond`. -/
def StepsMeet (step : ι → σ → Option σ) (cond : ι → σ → Prop) : List ι → σ → Prop
  | [], _ => True
  | l :: ls, s => cond l s ∧ ∀ s', step l s = some s' → StepsMeet step cond ls s'

/-- `StepsMeet` as a check on one run. -/
def meets (step : ι → σ → Option σ) (cond : ι → σ → Bool) : List ι → σ → Bool
  | [], _ => true
  | l :: ls, s => cond l s && match step l s with
    | none => true
    | some s' => meets step cond ls s'

variable {step : ι → σ → Option σ}

@[simp] theorem runFrom_nil (s : σ) : runFrom step [] s = some s := rfl

theorem runFrom_cons {l : ι} {ls : List ι} {s t : σ} :
    runFrom step (l :: ls) s = some t ↔ ∃ m, step l s = some m ∧ runFrom step ls m = some t := by
  simp [runFrom, Option.bind_eq_some_iff]

theorem runFrom_append {ls ms : List ι} {s t : σ} :
    runFrom step (ls ++ ms) s = some t ↔
      ∃ m, runFrom step ls s = some m ∧ runFrom step ms m = some t := by
  induction ls generalizing s with
  | nil => simp
  | cons l ls ih =>
    simp only [List.cons_append, runFrom_cons, ih]
    constructor
    · rintro ⟨m, hm, k, hk, ht⟩
      exact ⟨k, ⟨m, hm, hk⟩, ht⟩
    · rintro ⟨k, ⟨m, hm, hk⟩, ht⟩
      exact ⟨m, hm, k, hk, ht⟩

theorem runFrom_snoc {ls : List ι} {l : ι} {s t : σ} :
    runFrom step (ls ++ [l]) s = some t ↔
      ∃ m, runFrom step ls s = some m ∧ step l m = some t := by
  rw [runFrom_append]
  simp [runFrom]

theorem StepsMeet.of_forall {cond : ι → σ → Prop} {ls : List ι} {s : σ}
    (h : ∀ l ∈ ls, ∀ s, cond l s) : StepsMeet step cond ls s := by
  induction ls generalizing s with
  | nil => trivial
  | cons l ls ih =>
    exact ⟨h l (List.mem_cons_self ..) s,
      fun _ _ => ih fun l hl => h l (List.mem_cons_of_mem _ hl)⟩

theorem StepsMeet.of_meets {cond : ι → σ → Prop} {check : ι → σ → Bool}
    (hcheck : ∀ l s, check l s = true → cond l s) {ls : List ι} {s : σ}
    (h : meets step check ls s = true) : StepsMeet step cond ls s := by
  induction ls generalizing s with
  | nil => trivial
  | cons l ls ih =>
    simp only [meets, Bool.and_eq_true] at h
    refine ⟨hcheck l s h.1, fun t ht => ih ?_⟩
    simpa [ht] using h.2

/-- The run rule: what every enabled step keeps, every run keeps. -/
theorem runFrom_invariant {inv : σ → Prop}
    (hstep : ∀ l s t, inv s → step l s = some t → inv t) {ls : List ι} {s t : σ}
    (hs : inv s) (hrun : runFrom step ls s = some t) : inv t := by
  induction ls generalizing s with
  | nil => simp at hrun; exact hrun ▸ hs
  | cons l ls ih =>
    obtain ⟨m, hm, hrest⟩ := runFrom_cons.mp hrun
    exact ih (hstep l s m hs hm) hrest

/-- The run rule under a condition on the steps taken. -/
theorem runFrom_invariant_of {inv : σ → Prop} {cond : ι → σ → Prop}
    (hstep : ∀ l s t, inv s → cond l s → step l s = some t → inv t) {ls : List ι} {s t : σ}
    (hs : inv s) (hmeet : StepsMeet step cond ls s) (hrun : runFrom step ls s = some t) :
    inv t := by
  induction ls generalizing s with
  | nil => simp at hrun; exact hrun ▸ hs
  | cons l ls ih =>
    obtain ⟨m, hm, hrest⟩ := runFrom_cons.mp hrun
    exact ih (hstep l s m hs hmeet.1 hm) (hmeet.2 m hm) hrest

/-- The run rule for an invariant that also reads the labels taken so far. -/
theorem runFrom_history {inv : List ι → σ → Prop}
    (hstep : ∀ pre l s t, inv pre s → step l s = some t → inv (pre ++ [l]) t)
    {ls : List ι} {s t : σ} (hs : inv [] s) (hrun : runFrom step ls s = some t) : inv ls t := by
  induction ls using List.reverseRecOn generalizing t with
  | nil => simp at hrun; exact hrun ▸ hs
  | append_singleton ls l ih =>
    obtain ⟨m, hm, hl⟩ := runFrom_snoc.mp hrun
    exact hstep ls l m t (ih hm) hl

/-- Two systems whose steps agree have runs that agree. -/
theorem runFrom_rel {τ : Type*} {step' : ι → τ → Option τ} {R : σ → τ → Prop}
    (hstep : ∀ l s t, R s t → Option.Rel R (step l s) (step' l t)) (ls : List ι) {s : σ} {t : τ}
    (h : R s t) : Option.Rel R (runFrom step ls s) (runFrom step' ls t) := by
  induction ls generalizing s t with
  | nil => exact .some h
  | cons l ls ih =>
    have hl := hstep l s t h
    simp only [runFrom]
    cases hs : step l s with
    | none =>
      rw [hs] at hl
      cases ht : step' l t with
      | none => exact .none
      | some t' =>
        rw [ht] at hl
        cases hl
    | some s' =>
      rw [hs] at hl
      cases ht : step' l t with
      | none =>
        rw [ht] at hl
        cases hl
      | some t' =>
        rw [ht] at hl
        cases hl with
        | some hr => exact ih hr

end Xv6.Lib
