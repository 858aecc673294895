import Mathlib.Data.Finset.Card
import Xv6.Log.Basic
import Xv6.Lib.Trans

/-!
# Operations on the log

Any number of processes run operations against the in-memory log: `begin_op`, any number of
`log_write` calls, `end_op`, and the commit when the last one leaves. The sections under
`log.lock` are single steps; the tests at the head of `log_write` are a step of their own.

`Counted` is what the counters say in every reachable state: `log.outstanding` is the number of
operations in progress, a commit runs only when there is none, and one process runs it.
-/

namespace Xv6

open Function Option Finset

open Lib

/-! ## Processes running operations -/

/-- Where a process stands with respect to the log. -/
inductive OpPc where
  /-- Outside any transaction. -/
  | out
  /-- Between `begin_op` and `end_op`. -/
  | inOp
  /-- Inside `log_write`, past its tests and before its locked section. -/
  | logging (sector : Nat)
  /-- Running `commit` for the group it closed. -/
  | committing
  deriving DecidableEq, Repr

/-- One step of one process. -/
inductive OpStep where
  | beginOp (p : Nat)
  /-- `log_write` is called and passes, or fails, its tests. -/
  | logTests (p sector : Nat)
  /-- The locked section of that `log_write`. -/
  | logWrite (p sector : Nat)
  | endOp (p : Nat)
  /-- `commit` and the second locked section of `end_op`. -/
  | endCommit (p : Nat)
  deriving DecidableEq, Repr

/-- The log, the processes around it, and the panic that stopped the machine, if any. -/
structure OpSys where
  log : Log
  pc : Nat → OpPc
  panicked : Option String

namespace OpSys

/-- The machine after `initlog` on a disk with the given superblock fields. -/
def boot (sbSize nlog : Nat) : OpSys :=
  { log := .initlog sbSize nlog, pc := fun _ => .out, panicked := none }

/-- One step; `none` when the process is elsewhere, has to sleep, or the machine has stopped. -/
def step : OpStep → OpSys → Option OpSys
  | .beginOp p, s =>
    if s.panicked = none ∧ s.pc p = .out then
      s.log.beginOp.map fun l => { s with log := l, pc := update s.pc p .inOp }
    else none
  | .logTests p sector, s =>
    if s.panicked = none ∧ s.pc p = .inOp then
      match s.log.logWriteTests with
      | some msg => some { s with panicked := some msg }
      | none => some { s with pc := update s.pc p (.logging sector) }
    else none
  | .logWrite p sector, s =>
    if s.panicked = none ∧ s.pc p = .logging sector then
      some { s with log := s.log.logWrite sector, pc := update s.pc p .inOp }
    else none
  | .endOp p, s =>
    if s.panicked = none ∧ s.pc p = .inOp then
      match s.log.endOp with
      | .error msg => some { s with panicked := some msg }
      | .ok (l, doCommit) =>
        some { s with
          log := l
          pc := update s.pc p (if doCommit then .committing else .out) }
    else none
  | .endCommit p, s =>
    if s.panicked = none ∧ s.pc p = .committing then
      some { s with log := s.log.endCommit, pc := update s.pc p .out }
    else none

end OpSys

/-- The operations in progress after a step, given those before it. -/
def activeStep (l : OpStep) (a : Finset Nat) : Finset Nat :=
  match l with
  | .beginOp p => insert p a
  | .endOp p => a.erase p
  | _ => a

namespace OpPc

/-- Between `begin_op` and `end_op`. -/
def running : OpPc → Bool
  | .inOp | .logging _ => true
  | _ => false

/-- Between the tests of `log_write` and its locked section. -/
def isLogging : OpPc → Bool
  | .logging _ => true
  | _ => false

@[simp] theorem running_out : OpPc.out.running = false := rfl
@[simp] theorem running_inOp : OpPc.inOp.running = true := rfl
@[simp] theorem running_logging (sector : Nat) : (OpPc.logging sector).running = true := rfl
@[simp] theorem running_committing : OpPc.committing.running = false := rfl
@[simp] theorem isLogging_out : OpPc.out.isLogging = false := rfl
@[simp] theorem isLogging_inOp : OpPc.inOp.isLogging = false := rfl
@[simp] theorem isLogging_logging (sector : Nat) : (OpPc.logging sector).isLogging = true := rfl

theorem logging_of_update {pc : Nat → OpPc} {c : OpPc} {p q n : Nat} (hc : c.isLogging = false)
    (h : update pc p c q = .logging n) : q ≠ p ∧ pc q = .logging n := by
  by_cases hqp : q = p
  · rw [hqp, update_self] at h
    rw [h] at hc
    cases hc
  · exact ⟨hqp, by rwa [update_of_ne hqp] at h⟩

end OpPc

/-- The counters of the log describe the operations `a` in progress. -/
structure Counted (s : OpSys) (a : Finset Nat) : Prop where
  running : ∀ p, p ∈ a ↔ (s.pc p).running = true
  outstanding : s.log.outstanding = a.card
  committer : ∀ p, s.pc p = .committing → s.log.committing = true
  oneCommitter : ∀ p q, s.pc p = .committing → s.pc q = .committing → p = q
  quiet : s.log.committing = true → a = ∅
  nodup : s.log.lh.Nodup
  few : a.card * MAXOPBLOCKS ≤ LOGSIZE
  /-- Each process inside `log_write` saw less than `LOGSIZE` sectors. -/
  room : s.log.lh.length + (a.filter fun p => (s.pc p).isLogging = true).card ≤
    LOGSIZE - 1 + LOGSIZE / MAXOPBLOCKS

namespace Counted

variable {s t : OpSys} {a : Finset Nat} {p : Nat}

theorem boot (sbSize nlog : Nat) : Counted (OpSys.boot sbSize nlog) ∅ where
  running := by simp [OpSys.boot]
  outstanding := rfl
  committer := by simp [OpSys.boot]
  oneCommitter := by simp [OpSys.boot]
  quiet := by simp
  nodup := List.nodup_nil
  few := by simp
  room := by simp [OpSys.boot, Log.initlog]

/-- The header block has room for what is logged, whatever the operations do. -/
theorem length_lt (h : Counted s a) : s.log.lh.length < 127 := by
  have := h.room
  simp only [LOGSIZE, MAXOPBLOCKS] at this
  omega

/-- `end_op` by a running operation never panics: a commit starts only when none is left. -/
theorem not_committing (h : Counted s a) (hpc : (s.pc p).running = true) :
    s.log.committing = false := by
  have hp : p ∈ a := (h.running p).mpr hpc
  by_contra hc
  rw [h.quiet (by simpa using hc)] at hp
  simp at hp

theorem not_running_of_committing (h : Counted s a) (hc : s.log.committing = true) (q : Nat) :
    (s.pc q).running = false := by
  have := (h.running q).not.mp (by rw [h.quiet hc]; simp)
  simpa using this

/-- One process moves, and not to `committing`: there is no new committer. -/
theorem committers_update {pcs : Nat → OpPc} {c : OpPc} {com : Bool} (hc : c ≠ .committing)
    (hcom : ∀ q, pcs q = .committing → com = true)
    (hone : ∀ q r, pcs q = .committing → pcs r = .committing → q = r) :
    (∀ q, update pcs p c q = .committing → com = true) ∧
    ∀ q r, update pcs p c q = .committing → update pcs p c r = .committing →
      q = r := by
  have hold : ∀ q, update pcs p c q = .committing → pcs q = .committing := by
    intro q hq
    by_cases hqp : q = p
    · simp [hqp, hc] at hq
    · rwa [update_of_ne hqp] at hq
  exact ⟨fun q hq => hcom q (hold q hq), fun q r hq hr => hone q r (hold q hq) (hold r hr)⟩

/-- The processes inside `log_write` after `p` has moved to a position outside it. -/
theorem loggers_update_le {c : OpPc} (hc : c.isLogging = false) {b : Finset Nat} (hb : b ⊆ a) :
    (b.filter fun q => (update s.pc p c q).isLogging = true).card ≤
      (a.filter fun q => (s.pc q).isLogging = true).card := by
  apply card_le_card
  intro q hq
  rw [mem_filter] at hq ⊢
  refine ⟨hb hq.1, ?_⟩
  by_cases hqp : q = p
  · simp [hqp, hc] at hq
  · simpa [hqp] using hq.2

theorem beginOp {l : Log} (h : Counted s a) (hpc : s.pc p = .out)
    (hl : s.log.beginOp = some l) :
    Counted { s with log := l, pc := update s.pc p .inOp } (insert p a) := by
  obtain ⟨hcom, hroom, rfl⟩ := Log.beginOp_eq_some.mp hl
  have hp : p ∉ a := by rw [h.running]; simp [hpc]
  obtain ⟨hcommitter, hone⟩ := committers_update (p := p) (c := .inOp) (by simp) h.committer
    h.oneCommitter
  have hout := h.outstanding
  refine ⟨?_, ?_, hcommitter, hone, ?_, h.nodup, ?_, ?_⟩
  · intro q
    rw [mem_insert, h.running]
    by_cases hq : q = p
    · simp [hq]
    · simp [hq]
  · rw [card_insert_of_notMem hp]
    simp [hout]
  · intro hc
    simp [hcom] at hc
  · rw [card_insert_of_notMem hp]
    simp only [MAXOPBLOCKS, LOGSIZE] at *
    push_cast at hroom
    omega
  · have hle : ((insert p a).filter fun q => (update s.pc p .inOp q).isLogging = true) ⊆
        a.filter fun q => (s.pc q).isLogging = true := by
      intro q hq
      rw [mem_filter, mem_insert] at hq
      rw [mem_filter]
      by_cases hqp : q = p
      · simp [hqp] at hq
      · exact ⟨hq.1.resolve_left hqp, by simpa [hqp] using hq.2⟩
    exact (Nat.add_le_add_left (card_le_card hle) _).trans h.room

theorem panic (h : Counted s a) (msg : Option String) : Counted { s with panicked := msg } a :=
  ⟨h.running, h.outstanding, h.committer, h.oneCommitter, h.quiet, h.nodup, h.few, h.room⟩

theorem logTests {sector : Nat} (h : Counted s a) (hpc : s.pc p = .inOp)
    (htests : s.log.logWriteTests = none) :
    Counted { s with pc := update s.pc p (.logging sector) } a := by
  obtain ⟨hcommitter, hone⟩ := committers_update (p := p) (c := .logging sector) (by simp)
    h.committer h.oneCommitter
  refine ⟨?_, h.outstanding, hcommitter, hone, h.quiet, h.nodup, h.few, ?_⟩
  · intro q
    rw [h.running]
    by_cases hq : q = p
    · simp [hq, hpc]
    · simp [hq]
  · have hlen : s.log.lh.length < LOGSIZE := by
      unfold Log.logWriteTests at htests
      split at htests
      · simp at htests
      · omega
    have hfew := h.few
    have hcard := card_filter_le a
      fun q => (update s.pc p (.logging sector) q).isLogging = true
    simp only [LOGSIZE, MAXOPBLOCKS] at *
    omega

theorem logWrite {sector : Nat} (h : Counted s a) (hpc : s.pc p = .logging sector) :
    Counted { s with log := s.log.logWrite sector, pc := update s.pc p .inOp } a := by
  have hp : p ∈ a := (h.running p).mpr (by simp [hpc])
  obtain ⟨hcommitter, hone⟩ := committers_update (p := p) (c := .inOp) (by simp) h.committer
    h.oneCommitter
  refine ⟨?_, h.outstanding, hcommitter, hone, h.quiet, Log.absorb_nodup h.nodup, h.few, ?_⟩
  · intro q
    rw [h.running]
    by_cases hq : q = p
    · simp [hq, hpc]
    · simp [hq]
  · -- `p` leaves `log_write` as the sector it logs goes in
    have hlt : (a.filter fun q => (update s.pc p .inOp q).isLogging = true).card <
        (a.filter fun q => (s.pc q).isLogging = true).card := by
      apply card_lt_card
      rw [ssubset_iff_of_subset]
      · exact ⟨p, by simp [hp, hpc], by simp ⟩
      · intro q hq
        rw [mem_filter] at hq ⊢
        by_cases hqp : q = p
        · simp [hqp] at hq
        · exact ⟨hq.1, by simpa [hqp] using hq.2⟩
    have habs : (s.log.logWrite sector).lh.length ≤ s.log.lh.length + 1 :=
      Log.absorb_length_le _ _
    have hroom := h.room
    change (s.log.logWrite sector).lh.length +
      (a.filter fun q => (update s.pc p .inOp q).isLogging = true).card ≤ _
    omega

theorem endOp (h : Counted s a) (hpc : s.pc p = .inOp) :
    Counted { s with
      log := { s.log with
        outstanding := s.log.outstanding - 1
        committing := decide (s.log.outstanding = 1) }
      pc := update s.pc p
        (if decide (s.log.outstanding = 1) = true then .committing else .out) } (a.erase p) := by
  have hrun : (s.pc p).running = true := by simp [hpc]
  have hp : p ∈ a := (h.running p).mpr hrun
  have hpos : 0 < a.card := card_pos.mpr ⟨p, hp⟩
  have hout := h.outstanding
  have hcard : (a.erase p).card = a.card - 1 := card_erase_of_mem hp
  have hcommits : ∀ q, update s.pc p
      (if decide (s.log.outstanding = 1) = true then .committing else .out) q = .committing →
      q = p := by
    intro q hq
    by_contra hqp
    rw [update_of_ne hqp] at hq
    have := h.committer q hq
    rw [h.not_committing hrun] at this
    simp at this
  refine ⟨?_, ?_, ?_, ?_, ?_, h.nodup, ?_, ?_⟩
  · intro q
    rw [mem_erase, h.running]
    by_cases hq : q = p
    · subst hq
      simp only [update_self, ne_eq, not_true_eq_false, false_and, false_iff]
      split <;> simp
    · simp [hq]
  · rw [hcard]
    change s.log.outstanding - 1 = _
    omega
  · intro q hq
    have hqp := hcommits q hq
    subst hqp
    by_contra hc
    simp_all
  · intro q r hq hr
    rw [hcommits q hq, hcommits r hr]
  · intro hc
    rw [← card_eq_zero, hcard]
    have hone : s.log.outstanding = 1 := by simpa using hc
    omega
  · have := h.few
    simp only [MAXOPBLOCKS, LOGSIZE] at *
    omega
  · refine (Nat.add_le_add_left (loggers_update_le ?_ (erase_subset p a)) _).trans h.room
    split <;> rfl

theorem endCommit (h : Counted s a) (hpc : s.pc p = .committing) :
    Counted { s with log := s.log.endCommit, pc := update s.pc p .out } a := by
  have hnone : a = ∅ := h.quiet (h.committer p hpc)
  -- only the process that closed the group was committing it
  have hleft : ∀ q, update s.pc p .out q ≠ .committing := by
    intro q hq
    by_cases hqp : q = p
    · simp [hqp] at hq
    · rw [update_of_ne hqp] at hq
      exact hqp (h.oneCommitter q p hq hpc)
  refine ⟨?_, h.outstanding, fun q hq => (hleft q hq).elim, fun q _ hq => (hleft q hq).elim,
    by simp [Log.endCommit], List.nodup_nil, h.few, ?_⟩
  · intro q
    rw [h.running]
    by_cases hq : q = p
    · simp [hq, hpc]
    · simp [hq]
  · simp [hnone, Log.endCommit]

end Counted

variable {l : OpStep} {s t : OpSys} {a : Finset Nat}

theorem OpSys.step_running (hstep : OpSys.step l s = some t) : s.panicked = none := by
  by_contra hp
  cases l <;> simp [OpSys.step, hp] at hstep

/-- Everything a step can do, with its guards. -/
theorem OpSys.step_cases (h : Counted s a) (hstep : OpSys.step l s = some t) :
    (∃ p lg, l = .beginOp p ∧ s.pc p = .out ∧ s.log.beginOp = some lg ∧
      t = { s with log := lg, pc := update s.pc p .inOp }) ∨
    (∃ p sector msg, l = .logTests p sector ∧ s.pc p = .inOp ∧
      s.log.logWriteTests = some msg ∧ t = { s with panicked := some msg }) ∨
    (∃ p sector, l = .logTests p sector ∧ s.pc p = .inOp ∧ s.log.logWriteTests = none ∧
      t = { s with pc := update s.pc p (.logging sector) }) ∨
    (∃ p sector, l = .logWrite p sector ∧ s.pc p = .logging sector ∧
      t = { s with log := s.log.logWrite sector, pc := update s.pc p .inOp }) ∨
    (∃ p, l = .endOp p ∧ s.pc p = .inOp ∧
      t = { s with
        log := { s.log with
          outstanding := s.log.outstanding - 1
          committing := decide (s.log.outstanding = 1) }
        pc := update s.pc p
          (if decide (s.log.outstanding = 1) = true then .committing else .out) }) ∨
    (∃ p, l = .endCommit p ∧ s.pc p = .committing ∧
      t = { s with log := s.log.endCommit, pc := update s.pc p .out }) := by
  cases l with
  | beginOp p =>
    obtain ⟨hpc, hstep⟩ := ite_none_right_eq_some.mp hstep
    obtain ⟨lg, hl, rfl⟩ := map_eq_some_iff.mp hstep
    exact .inl ⟨p, lg, rfl, hpc.2, hl, rfl⟩
  | logTests p sector =>
    obtain ⟨hpc, hstep⟩ := ite_none_right_eq_some.mp hstep
    split at hstep <;> rename_i htests <;> cases hstep
    · exact .inr (.inl ⟨p, sector, _, rfl, hpc.2, htests, rfl⟩)
    · exact .inr (.inr (.inl ⟨p, sector, rfl, hpc.2, htests, rfl⟩))
  | logWrite p sector =>
    obtain ⟨hpc, hstep⟩ := ite_none_right_eq_some.mp hstep
    exact .inr (.inr (.inr (.inl ⟨p, sector, rfl, hpc.2, (some.inj hstep).symm⟩)))
  | endOp p =>
    obtain ⟨hpc, hstep⟩ := ite_none_right_eq_some.mp hstep
    rw [Log.endOp_of_not_committing (h.not_committing (p := p) (by simp [hpc.2]))] at hstep
    exact .inr (.inr (.inr (.inr (.inl ⟨p, rfl, hpc.2, (some.inj hstep).symm⟩))))
  | endCommit p =>
    obtain ⟨hpc, hstep⟩ := ite_none_right_eq_some.mp hstep
    exact .inr (.inr (.inr (.inr (.inr ⟨p, rfl, hpc.2, (some.inj hstep).symm⟩))))

theorem OpSys.step_counted (h : Counted s a) (hstep : OpSys.step l s = some t) :
    Counted t (activeStep l a) := by
  rcases OpSys.step_cases h hstep with ⟨p, lg, rfl, hpc, hl, rfl⟩ |
    ⟨p, sector, msg, rfl, -, -, rfl⟩ | ⟨p, sector, rfl, hpc, htests, rfl⟩ |
    ⟨p, sector, rfl, hpc, rfl⟩ | ⟨p, rfl, hpc, rfl⟩ | ⟨p, rfl, hpc, rfl⟩
  · exact h.beginOp hpc hl
  · exact h.panic _
  · exact h.logTests hpc htests
  · exact h.logWrite hpc
  · exact h.endOp hpc
  · exact h.endCommit hpc

end Xv6
