import Mathlib.Algebra.BigOperators.Group.Finset.Basic
import Mathlib.Algebra.Order.BigOperators.Group.Finset
import Xv6.Log.Ops

/-!
# Admission of operations to the log

`begin_op` reserves `MAXOPBLOCKS` sectors for every operation it admits, out of `LOGSIZE`.
The reservation is kept (`Admitted.reserved`), but `log_write` gives up one sector earlier:
the header takes one of the `sb.nlog = LOGSIZE` sectors, and the test comes before absorption.
-/

namespace Xv6

open Function Finset List

open Lib

/-! ## What a history says

The sets below are read off the labels alone, so that bounds on them are bounds on what the
processes asked for and not on what the log recorded. -/

/-- The operations begun and not yet ended. -/
def active : List OpStep → Finset Nat := List.foldl (fun a l => activeStep l a) ∅

/-- The distinct sectors `log_write` has been called with by `p`'s latest operation. -/
def opSectors (p : Nat) : List OpStep → Finset Nat :=
  List.foldl (fun u l => match l with
    | .beginOp q => if q = p then ∅ else u
    | .logTests q sector => if q = p then insert sector u else u
    | _ => u) ∅

/-- Those of them whose `log_write` has run its locked section. -/
def opLogged (p : Nat) : List OpStep → Finset Nat :=
  List.foldl (fun u l => match l with
    | .beginOp q => if q = p then ∅ else u
    | .logWrite q sector => if q = p then insert sector u else u
    | _ => u) ∅

/-- The distinct sectors logged since the last commit, by whatever operation. -/
def groupSectors : List OpStep → Finset Nat :=
  List.foldl (fun g l => match l with
    | .logWrite _ sector => insert sector g
    | .endCommit _ => ∅
    | _ => g) ∅

/-- Every operation calls `log_write` with at most `MAXOPBLOCKS` distinct sectors. -/
def Budgeted (ls : List OpStep) : Prop :=
  ∀ pre, pre <+: ls → ∀ p, (opSectors p pre).card ≤ MAXOPBLOCKS

variable {pre ls : List OpStep} {l : OpStep} {s t : OpSys}

theorem Budgeted.of_snoc (h : Budgeted (pre ++ [l])) : Budgeted pre :=
  fun q hq => h q (hq.trans (prefix_append _ _))

theorem Budgeted.last (h : Budgeted ls) (p : Nat) : (opSectors p ls).card ≤ MAXOPBLOCKS :=
  h ls (prefix_refl _) p

/-- The sectors still reserved for the operations in progress. -/
def reserve (pre : List OpStep) : Nat :=
  ∑ p ∈ active pre, (MAXOPBLOCKS - (opLogged p pre).card)

/-- The state the admission control is in after the history `pre`. -/
structure Admitted (pre : List OpStep) (s : OpSys) : Prop where
  counted : Counted s (active pre)
  size : s.log.size = LOGSIZE
  sectors : s.log.lh.toFinset = groupSectors pre
  logging : ∀ p sector, s.pc p = .logging sector → sector ∈ opSectors p pre
  called : ∀ p, opLogged p pre ⊆ opSectors p pre
  inGroup : ∀ p ∈ active pre, opLogged p pre ⊆ groupSectors pre
  /-- The invariant `begin_op`'s test is there for. -/
  reserved : s.log.lh.length + reserve pre ≤ LOGSIZE

namespace Admitted

variable {pre : List OpStep} {s t : OpSys} {p sector : Nat}

theorem length_eq (h : Admitted pre s) : s.log.lh.length = (groupSectors pre).card := by
  rw [← h.sectors, toFinset_card_of_nodup h.counted.nodup]

theorem boot (sbSize : Nat) : Admitted [] (OpSys.boot sbSize LOGSIZE) where
  counted := Counted.boot _ _
  size := rfl
  sectors := rfl
  logging := by simp [OpSys.boot]
  called := by simp [opLogged]
  inGroup := by simp [active]
  reserved := by simp [reserve, active, OpSys.boot, Log.initlog]

theorem active_snoc (pre : List OpStep) (l : OpStep) :
    active (pre ++ [l]) = activeStep l (active pre) := by simp [active, foldl_append]

theorem reserve_le (pre : List OpStep) : reserve pre ≤ (active pre).card * MAXOPBLOCKS := by
  calc reserve pre ≤ ∑ _p ∈ active pre, MAXOPBLOCKS :=
        sum_le_sum fun p _ => Nat.sub_le _ _
    _ = (active pre).card * MAXOPBLOCKS := sum_const_nat fun _ _ => rfl

theorem reserve_congr {a b : List OpStep} (hact : active a = active b)
    (hlog : ∀ p ∈ active a, opLogged p a = opLogged p b) : reserve a = reserve b := by
  unfold reserve
  rw [← hact]
  exact sum_congr rfl fun p hp => by rw [hlog p hp]

/-- The admission test leaves room for the operations already running and for a new one. -/
theorem beginOp {l : Log} (h : Admitted pre s) (hpc : s.pc p = .out)
    (hl : s.log.beginOp = some l)
    (hcount : Counted { s with log := l, pc := update s.pc p .inOp }
      (active (pre ++ [.beginOp p]))) :
    Admitted (pre ++ [.beginOp p]) { s with log := l, pc := update s.pc p .inOp } := by
  obtain ⟨hcom, hroom, rfl⟩ := Log.beginOp_eq_some.mp hl
  have hp : p ∉ active pre := by rw [h.counted.running]; simp [hpc]
  have hne : ∀ q ∈ active pre, p ≠ q := fun q hq heq => hp (heq ▸ hq)
  have hact : active (pre ++ [.beginOp p]) = insert p (active pre) := active_snoc _ _
  have hlogged : ∀ q, opLogged q (pre ++ [.beginOp p]) = if p = q then ∅ else opLogged q pre := by
    intro q; simp [opLogged, foldl_append]
  have hcalled : ∀ q, opSectors q (pre ++ [.beginOp p]) =
      if p = q then ∅ else opSectors q pre := by
    intro q; simp [opSectors, foldl_append]
  have hgroup : groupSectors (pre ++ [.beginOp p]) = groupSectors pre := by
    simp [groupSectors, foldl_append]
  refine ⟨hcount, h.size, by rw [hgroup]; exact h.sectors, ?_, ?_, ?_, ?_⟩
  · intro q sector hq
    obtain ⟨hqp, hq⟩ := OpPc.logging_of_update rfl hq
    rw [hcalled, if_neg (Ne.symm hqp)]
    exact h.logging q sector hq
  · intro q
    rw [hlogged, hcalled]
    split
    · exact Finset.Subset.refl _
    · exact h.called q
  · intro q hq
    rw [hlogged, hgroup]
    split
    · exact empty_subset _
    · rename_i hpq
      rw [hact, mem_insert] at hq
      exact h.inGroup q (hq.resolve_left (Ne.symm hpq))
  · have hres : reserve (pre ++ [.beginOp p]) = MAXOPBLOCKS + reserve pre := by
      unfold reserve
      rw [hact, sum_insert hp, hlogged, if_pos rfl]
      congr 1
      exact sum_congr rfl fun q hq => by rw [hlogged, if_neg (hne q hq)]
    rw [hres]
    have hle := reserve_le pre
    have hout := h.counted.outstanding
    simp only [MAXOPBLOCKS, LOGSIZE] at *
    push_cast at hroom
    omega

theorem logTests (h : Admitted pre s) (hlog : t.log = s.log)
    (hpc : ∀ q x, t.pc q = .logging x → s.pc q = .logging x ∨ q = p ∧ x = sector)
    (hcount : Counted t (active (pre ++ [.logTests p sector]))) :
    Admitted (pre ++ [.logTests p sector]) t := by
  have hact : active (pre ++ [.logTests p sector]) = active pre := active_snoc _ _
  have hlogged : ∀ q, opLogged q (pre ++ [.logTests p sector]) = opLogged q pre := by
    intro q; simp [opLogged, foldl_append]
  have hcalled : ∀ q, opSectors q (pre ++ [.logTests p sector]) =
      if p = q then insert sector (opSectors q pre) else opSectors q pre := by
    intro q; simp [opSectors, foldl_append]
  have hmono : ∀ q, opSectors q pre ⊆ opSectors q (pre ++ [.logTests p sector]) := by
    intro q
    rw [hcalled]
    split
    · exact subset_insert _ _
    · exact Finset.Subset.refl _
  have hgroup : groupSectors (pre ++ [.logTests p sector]) = groupSectors pre := by
    simp [groupSectors, foldl_append]
  refine ⟨hcount, by rw [hlog]; exact h.size, by rw [hgroup, hlog]; exact h.sectors, ?_,
    fun q => (hlogged q).symm ▸ (h.called q).trans (hmono q), ?_, ?_⟩
  · intro q x hq
    rcases hpc q x hq with hq | ⟨rfl, rfl⟩
    · exact hmono q (h.logging q x hq)
    · rw [hcalled, if_pos rfl]
      exact mem_insert_self _ _
  · intro q hq
    rw [hlogged, hgroup]
    exact h.inGroup q (hact ▸ hq)
  · rw [hlog, reserve_congr hact fun q _ => hlogged q]
    exact h.reserved

/-- The locked section of `log_write` uses up at most what was reserved for its operation. -/
theorem logWrite (h : Admitted pre s) (hpc : s.pc p = .logging sector)
    (hb : Budgeted (pre ++ [.logWrite p sector]))
    (hcount : Counted { s with log := s.log.logWrite sector, pc := update s.pc p .inOp }
      (active (pre ++ [.logWrite p sector]))) :
    Admitted (pre ++ [.logWrite p sector])
      { s with log := s.log.logWrite sector, pc := update s.pc p .inOp } := by
  have hp : p ∈ active pre := (h.counted.running p).mpr (by simp [hpc])
  have hsec : sector ∈ opSectors p pre := h.logging p sector hpc
  have hact : active (pre ++ [.logWrite p sector]) = active pre := active_snoc _ _
  have hcalled : ∀ q, opSectors q (pre ++ [.logWrite p sector]) = opSectors q pre := by
    intro q; simp [opSectors, foldl_append]
  have hlogged : ∀ q, opLogged q (pre ++ [.logWrite p sector]) =
      if p = q then insert sector (opLogged q pre) else opLogged q pre := by
    intro q; simp [opLogged, foldl_append]
  have hgroup : groupSectors (pre ++ [.logWrite p sector]) = insert sector (groupSectors pre) := by
    simp [groupSectors, foldl_append]
  have hsub : ∀ q, opLogged q (pre ++ [.logWrite p sector]) ⊆ opSectors q pre := by
    intro q
    rw [hlogged]
    split
    · rename_i hpq
      exact insert_subset (hpq ▸ hsec) (h.called q)
    · exact h.called q
  refine ⟨hcount, h.size, ?_, ?_, fun q => (hcalled q).symm ▸ hsub q, ?_, ?_⟩
  · rw [hgroup, ← h.sectors]
    exact Log.absorb_toFinset _ _
  · intro q x hq
    rw [hcalled]
    exact h.logging q x (OpPc.logging_of_update rfl hq).2
  · intro q hq
    rw [hlogged, hgroup]
    have hold := h.inGroup q (hact ▸ hq)
    split
    · exact insert_subset_insert _ hold
    · exact hold.trans (subset_insert _ _)
  · -- `p`'s share of the reservation pays for the sector, if it is new
    have hsum : ∀ f : Nat → Nat, ∑ q ∈ active pre, f q = f p + ∑ q ∈ (active pre).erase p, f q :=
      fun f => (add_sum_erase _ f hp).symm
    have hrest : ∑ q ∈ (active pre).erase p, (MAXOPBLOCKS -
          (opLogged q (pre ++ [.logWrite p sector])).card) =
        ∑ q ∈ (active pre).erase p, (MAXOPBLOCKS - (opLogged q pre).card) :=
      sum_congr rfl fun q hq => by
        rw [hlogged, if_neg (ne_of_mem_erase hq).symm]
    have hcard : (opLogged p (pre ++ [.logWrite p sector])).card ≤ MAXOPBLOCKS :=
      (card_le_card (hsub p)).trans (hb.of_snoc.last p)
    have hres := h.reserved
    unfold reserve at hres ⊢
    rw [hact, hsum, hrest]
    rw [hsum] at hres
    rw [hlogged, if_pos rfl] at hcard ⊢
    change (Log.absorb sector s.log.lh).length + _ ≤ _
    by_cases hin : sector ∈ s.log.lh
    · rw [Log.absorb_of_mem hin]
      have := card_le_card (subset_insert sector (opLogged p pre))
      omega
    · have hnew : sector ∉ opLogged p pre := fun hmem => hin <| by
        have := h.inGroup p hp hmem
        rw [← h.sectors] at this
        exact mem_toFinset.mp this
      rw [Log.absorb_of_not_mem hin, length_append, length_singleton]
      rw [card_insert_of_notMem hnew] at hcard ⊢
      omega

theorem endOp (h : Admitted pre s) (hlh : t.log.lh = s.log.lh) (hsize : t.log.size = s.log.size)
    (hpc : ∀ q x, t.pc q = .logging x → s.pc q = .logging x)
    (hcount : Counted t (active (pre ++ [.endOp p]))) : Admitted (pre ++ [.endOp p]) t := by
  have hact : active (pre ++ [.endOp p]) = (active pre).erase p := active_snoc _ _
  have hlogged : ∀ q, opLogged q (pre ++ [.endOp p]) = opLogged q pre := by
    intro q; simp [opLogged, foldl_append]
  have hcalled : ∀ q, opSectors q (pre ++ [.endOp p]) = opSectors q pre := by
    intro q; simp [opSectors, foldl_append]
  have hgroup : groupSectors (pre ++ [.endOp p]) = groupSectors pre := by
    simp [groupSectors, foldl_append]
  refine ⟨hcount, by rw [hsize]; exact h.size, by rw [hgroup, hlh]; exact h.sectors,
    fun q x hq => by rw [hcalled]; exact h.logging q x (hpc q x hq),
    fun q => by rw [hlogged, hcalled]; exact h.called q, ?_, ?_⟩
  · intro q hq
    rw [hlogged, hgroup]
    rw [hact] at hq
    exact h.inGroup q (mem_of_mem_erase hq)
  · have hle : reserve (pre ++ [.endOp p]) ≤ reserve pre := by
      unfold reserve
      rw [hact]
      apply (sum_le_sum_of_subset (erase_subset p (active pre))).trans
      exact (sum_congr rfl fun q _ => by rw [hlogged]).le
    rw [hlh]
    exact (Nat.add_le_add_left hle _).trans h.reserved

theorem endCommit (h : Admitted pre s) (hpc : s.pc p = .committing)
    (hcount : Counted { s with log := s.log.endCommit, pc := update s.pc p .out }
      (active (pre ++ [.endCommit p]))) :
    Admitted (pre ++ [.endCommit p])
      { s with log := s.log.endCommit, pc := update s.pc p .out } := by
  have hcom := h.counted.committer p hpc
  have hact : active (pre ++ [.endCommit p]) = ∅ :=
    (active_snoc _ _).trans (h.counted.quiet hcom)
  have hlogged : ∀ q, opLogged q (pre ++ [.endCommit p]) = opLogged q pre := by
    intro q; simp [opLogged, foldl_append]
  have hcalled : ∀ q, opSectors q (pre ++ [.endCommit p]) = opSectors q pre := by
    intro q; simp [opSectors, foldl_append]
  refine ⟨hcount, h.size, by simp [groupSectors, foldl_append, Log.endCommit], ?_,
    fun q => by rw [hlogged, hcalled]; exact h.called q, by rw [hact]; simp, ?_⟩
  · intro q x hq
    have := h.counted.not_running_of_committing hcom q
    simp [(OpPc.logging_of_update rfl hq).2] at this
  · simp [reserve, hact, Log.endCommit]

end Admitted

theorem OpSys.step_admitted (h : Admitted pre s) (hb : Budgeted (pre ++ [l]))
    (hstep : OpSys.step l s = some t) : Admitted (pre ++ [l]) t := by
  have hcount : Counted t (active (pre ++ [l])) := by
    rw [Admitted.active_snoc]
    exact OpSys.step_counted h.counted hstep
  rcases OpSys.step_cases h.counted hstep with ⟨p, lg, rfl, hpc, hl, rfl⟩ |
    ⟨p, sector, msg, rfl, -, -, rfl⟩ | ⟨p, sector, rfl, hpc, -, rfl⟩ |
    ⟨p, sector, rfl, hpc, rfl⟩ | ⟨p, rfl, hpc, rfl⟩ | ⟨p, rfl, hpc, rfl⟩
  · exact h.beginOp hpc hl hcount
  · exact h.logTests rfl (fun q x hq => .inl hq) hcount
  · refine h.logTests rfl (fun q x hq => ?_) hcount
    by_cases hqp : q = p
    · subst hqp
      simp only [update_self, OpPc.logging.injEq] at hq
      exact .inr ⟨rfl, hq.symm⟩
    · exact .inl (by simpa [hqp] using hq)
  · exact h.logWrite hpc hb hcount
  · refine h.endOp rfl rfl (fun q x hq => ?_) hcount
    by_cases hqp : q = p
    · subst hqp
      simp only [update_self] at hq
      split at hq <;> simp at hq
    · simpa [hqp] using hq
  · exact h.endCommit hpc hcount

theorem OpSys.run_admitted {sbSize : Nat} (hb : Budgeted ls)
    (hrun : runFrom OpSys.step ls (OpSys.boot sbSize LOGSIZE) = some s) : Admitted ls s := by
  have hkeep : ∀ pre l (s t : OpSys), (Budgeted pre → Admitted pre s) →
      OpSys.step l s = some t → Budgeted (pre ++ [l]) → Admitted (pre ++ [l]) t :=
    fun pre l s t ih hstep hbud => OpSys.step_admitted (ih hbud.of_snoc) hbud hstep
  exact runFrom_history hkeep (fun _ => Admitted.boot sbSize) hrun hb

/-! ## When `log_write` gives up -/

/-- The panic of `log_write` depends on the group's distinct sectors alone. -/
theorem Admitted.tests_tooBig_iff (h : Admitted pre s) :
    s.log.logWriteTests = some "too big a transaction" ↔ LOGSIZE - 1 ≤ (groupSectors pre).card := by
  rw [← h.length_eq]
  unfold Log.logWriteTests
  rw [h.size]
  by_cases hn : LOGSIZE - 1 ≤ s.log.lh.length
  · simp [hn]
  · have hn' : ¬ LOGSIZE ≤ s.log.lh.length := by omega
    simp only [ge_iff_le, hn, hn', or_self, if_false, iff_false]
    split <;> simp

/-- A step ends in the panic of `log_write` exactly when it is a call that finds the group
with `LOGSIZE - 1` distinct sectors. -/
theorem OpSys.step_tooBig_iff (h : Admitted pre s) (hstep : OpSys.step l s = some t) :
    t.panicked = some "too big a transaction" ↔
      ∃ p sector, l = .logTests p sector ∧ LOGSIZE - 1 ≤ (groupSectors pre).card := by
  have hrunning := OpSys.step_running hstep
  rw [← h.tests_tooBig_iff]
  rcases OpSys.step_cases h.counted hstep with ⟨p, lg, rfl, -, -, rfl⟩ |
    ⟨p, sector, msg, rfl, -, htests, rfl⟩ | ⟨p, sector, rfl, -, htests, rfl⟩ |
    ⟨p, sector, rfl, -, rfl⟩ | ⟨p, rfl, -, rfl⟩ | ⟨p, rfl, -, rfl⟩
  · simp [hrunning]
  · simp [htests]
  · simp [hrunning, htests]
  · simp [hrunning]
  · simp [hrunning]
  · simp [hrunning]

/-- On a disk with `sb.nlog = LOGSIZE`, whatever the interleaving of operations that each log
at most `MAXOPBLOCKS` distinct sectors: `begin_op` never lets more than `LOGSIZE` sectors be
logged, and the panic of `log_write` stays unreached exactly in the runs where no `log_write`
is called once `LOGSIZE - 1` distinct sectors have been logged since the last commit. -/
theorem logWrite_fits_iff (sbSize : Nat) (ls : List OpStep) (s : OpSys)
    (hb : Budgeted ls)
    (hrun : runFrom OpSys.step ls (OpSys.boot sbSize LOGSIZE) = some s) :
    s.log.lh.length ≤ LOGSIZE ∧
    (s.panicked ≠ some "too big a transaction" ↔
      ∀ pre p sector, pre ++ [.logTests p sector] <+: ls →
        (groupSectors pre).card < LOGSIZE - 1) := by
  refine ⟨(Nat.le_add_right _ _).trans (OpSys.run_admitted hb hrun).reserved, ?_, ?_⟩
  · intro hok pre p sector hpre
    obtain ⟨rest, rfl⟩ := hpre
    obtain ⟨t, ht, hrest⟩ := runFrom_append.mp hrun
    obtain ⟨m, hm, hstep⟩ := runFrom_snoc.mp ht
    have hadm : Admitted pre m :=
      OpSys.run_admitted (fun q hq => hb q
        (hq.trans ((prefix_append _ _).trans (prefix_append _ _)))) hm
    by_contra hbig
    have hpanic : t.panicked = some "too big a transaction" :=
      (OpSys.step_tooBig_iff hadm hstep).mpr ⟨p, sector, rfl, Nat.le_of_not_lt hbig⟩
    -- the machine has stopped, so the run ends here
    cases rest with
    | nil => simp at hrest; exact hok (hrest ▸ hpanic)
    | cons l rest =>
      obtain ⟨u, hu, -⟩ := runFrom_cons.mp hrest
      rw [OpSys.step_running hu] at hpanic
      simp at hpanic
  · intro hall hpanic
    induction ls using List.reverseRecOn with
    | nil => simp at hrun; subst hrun; simp [OpSys.boot] at hpanic
    | append_singleton pre l _ =>
      obtain ⟨m, hm, hstep⟩ := runFrom_snoc.mp hrun
      have hadm := OpSys.run_admitted hb.of_snoc hm
      obtain ⟨p, sector, rfl, hbig⟩ := (OpSys.step_tooBig_iff hadm hstep).mp hpanic
      have := hall pre p sector (prefix_refl _)
      omega

/-- The sectors `p` calls `log_write` with, over the whole history. -/
def calls (p : Nat) (ls : List OpStep) : List Nat :=
  ls.filterMap fun l => match l with
    | .logTests q sector => if q = p then some sector else none
    | _ => none

theorem opSectors_subset_calls (p : Nat) (ls : List OpStep) :
    opSectors p ls ⊆ (calls p ls).toFinset := by
  induction ls using List.reverseRecOn with
  | nil => simp [opSectors]
  | append_singleton ls l ih =>
    intro x hx
    rw [calls, filterMap_append, toFinset_append, mem_union]
    cases l with
    | beginOp q =>
      simp only [opSectors, foldl_append, foldl_cons, foldl_nil] at hx
      split at hx
      · simp at hx
      · exact .inl (ih hx)
    | logTests q sector =>
      simp only [opSectors, foldl_append, foldl_cons, foldl_nil] at hx
      split at hx
      · rename_i hqp
        rcases mem_insert.mp hx with rfl | hx
        · exact .inr (by simp [hqp])
        · exact .inl (ih hx)
      · exact .inl (ih hx)
    | logWrite q sector | endOp q | endCommit q =>
      exact .inl (ih (by simpa [opSectors, foldl_append] using hx))

/-- A history in which no process calls `log_write` with more than `MAXOPBLOCKS` distinct
sectors at all is budgeted. -/
theorem Budgeted.of_calls (h : ∀ p, (calls p ls).toFinset.card ≤ MAXOPBLOCKS) : Budgeted ls := by
  rintro pre ⟨rest, rfl⟩ p
  refine (card_le_card ((opSectors_subset_calls p pre).trans ?_)).trans (h p)
  intro x hx
  simp only [calls, filterMap_append, toFinset_append, mem_union] at hx ⊢
  exact .inl hx

/-- One operation that logs one sector and commits. -/
def oneOp : List OpStep :=
  [.beginOp 0, .logTests 0 100, .logWrite 0 100, .endOp 0, .endCommit 0]

theorem oneOp_budgeted : Budgeted oneOp := by
  apply Budgeted.of_calls
  rintro (_ | p)
  · decide
  · simp [calls, oneOp]

theorem logWrite_fits_oneOp :
    Budgeted oneOp ∧ ∃ s, runFrom OpSys.step oneOp (OpSys.boot 1024 LOGSIZE) = some s ∧
      s.log.lh.length ≤ LOGSIZE ∧
      (s.panicked ≠ some "too big a transaction" ↔
        ∀ pre p sector, pre ++ [.logTests p sector] <+: oneOp →
          (groupSectors pre).card < LOGSIZE - 1) :=
  ⟨oneOp_budgeted, _, rfl, logWrite_fits_iff 1024 oneOp _ oneOp_budgeted rfl⟩

/-- `n` calls of `log_write` by `p`, on the sectors from `first` on. -/
def logMany (p first n : Nat) : List OpStep :=
  (List.range n).flatMap fun i => [.logTests p (first + i), .logWrite p (first + i)]

/-- Three operations, admitted together, that log ten distinct sectors each. -/
def threeFullOps : List OpStep :=
  [.beginOp 0, .beginOp 1, .beginOp 2] ++ logMany 0 100 10 ++ logMany 1 110 10 ++
    logMany 2 120 9 ++ [.logTests 2 129]

theorem threeFullOps_budgeted : Budgeted threeFullOps := by
  apply Budgeted.of_calls
  rintro (_ | _ | _ | p)
  · decide
  · decide
  · decide
  · simp [calls, threeFullOps, logMany, List.range, List.range.loop]

/-- The thirtieth sector of three full operations has no room: the log's own header is one of
the `LOGSIZE` sectors that `begin_op` gave out. -/
theorem logWrite_overflows :
    Budgeted threeFullOps ∧
    (runFrom OpSys.step threeFullOps (OpSys.boot 1024 LOGSIZE)).bind (·.panicked) =
      some "too big a transaction" :=
  ⟨threeFullOps_budgeted, by decide +kernel⟩

end Xv6
