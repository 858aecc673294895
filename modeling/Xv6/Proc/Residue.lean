import Xv6.Proc.Current

/-!
# What is left in a free slot

`wait` clears the pid and the `killed` flag of the slot that it frees. `fork` does not when it gives
up, and `kill` looks at pids only: a pid that was left behind, or pid 0, makes it mark a free slot,
and the process that gets this slot next is killed from the start.
-/

namespace Xv6

open Function Option

open Lib

/-- The calls, and a move of a process between its living states. -/
inductive ProcCall where
  | fork (q : Fin NPROC) (kalloc copyuvm : Bool)
  | exit (q : Fin NPROC)
  | wait (q : Fin NPROC)
  | kill (pid : Int)
  | sched (q : Fin NPROC) (state : ProcState)
  deriving DecidableEq

namespace Ptable

/-- The calls one after another. -/
def callStep : ProcCall → Ptable → Option Ptable
  | .fork q kalloc copyuvm, t => t.step (.fork q kalloc copyuvm)
  | .exit q, t => t.step (.exit q)
  | .wait q, t => t.step (.wait q)
  | .kill pid, t => some (t.kill pid).1
  | .sched q state, t => t.step (.sched q state (t.proc q).killed)

/-- Free slots carry nothing. -/
def Clear (t : Ptable) : Prop :=
  ∀ k, (t.proc k).state = .unused → (t.proc k).pid = 0 ∧ (t.proc k).killed = false

/-- What a call has to do: it leaves free slots clear, `kill` returns 0 only for a process with the
given pid, and `fork` gives a child that is not killed. -/
def Serves (t t' : Ptable) : ProcCall → Prop
  | .kill pid => t'.Clear ∧
      ((t.kill pid).2 = true → ∃ k, (t.proc k).state ≠ .unused ∧ (t.proc k).pid = pid)
  | .fork q kalloc copyuvm => t'.Clear ∧
      ∀ k, (t.fork q kalloc copyuvm).2 = some k → (t'.proc k).killed = false
  | _ => t'.Clear

/-- The argument of `kill` is not 0 as long as there is a free slot, and `fork` does not run out of
pages once it has found one. -/
def Careful : ProcCall → Ptable → Prop
  | .kill pid, t => pid = 0 → ∀ k, (t.proc k).state ≠ .unused
  | .fork _ kalloc copyuvm, t => t.findUnused ≠ none → kalloc = true ∧ copyuvm = true
  | _, _ => True

variable {t t' : Ptable} {k q : Fin NPROC}

theorem Clear.set {p : Proc} {n : Int} (h : t.Clear)
    (hp : p.state = .unused → p.pid = 0 ∧ p.killed = false) :
    Clear { t.set k p with nextpid := n } := by
  intro j hj
  by_cases hjk : j = k
  · subst hjk
    simp only [set_proc, update_self] at hj ⊢
    exact hp hj
  · simp only [set_proc, update_of_ne hjk] at hj ⊢
    exact h j hj

theorem fork_of_found (hk : t.findUnused = some k) (kalloc copyuvm : Bool) :
    ∃ p : Proc, p.pid = t.nextpid ∧ p.killed = (t.proc k).killed ∧
      p.state = (if kalloc && copyuvm then .runnable else .unused) ∧
      t.fork q kalloc copyuvm = ({ t.set k p with nextpid := t.nextpid + 1 },
        if kalloc && copyuvm then some k else none) := by
  cases kalloc <;> cases copyuvm
  all_goals
    simp only [Ptable.fork, Ptable.allocproc, hk, Ptable.set, update_self,
      update_idem, if_true, if_false, Bool.and_true, Bool.and_false, Bool.false_eq_true]
    refine ⟨_, ?_, ?_, ?_, rfl⟩
    all_goals rfl

theorem fork_of_full (hk : t.findUnused = none) (kalloc copyuvm : Bool) :
    t.fork q kalloc copyuvm = (t, none) := by
  simp [Ptable.fork, Ptable.allocproc, hk]

theorem pid_of_getProcByPID {pid : Int} (h : t.getProcByPID pid = some k) :
    (t.proc k).pid = pid := by
  simpa using List.find?_some h

theorem exists_getProcByPID {pid : Int} (h : (t.proc k).pid = pid) :
    ∃ j, t.getProcByPID pid = some j := by
  apply isSome_iff_exists.mp
  rw [getProcByPID, List.find?_isSome]
  exact ⟨k, List.mem_finRange k, by simpa using h⟩

theorem Clear.kill_iff (h : t.Clear) (hnum : t.Numbered) (pid : Int) :
    Serves t (t.kill pid).1 (.kill pid) ↔ Careful (.kill pid) t := by
  constructor
  · intro hserves hpid k hk
    subst hpid
    obtain ⟨j, hj⟩ := exists_getProcByPID (h k hk).1
    have hret : (t.kill 0).2 = true := by simp [Ptable.kill, hj]
    obtain ⟨i, hi, hzero⟩ := hserves.2 hret
    have := hnum.inUse i hi
    omega
  · intro hcareful
    cases hj : t.getProcByPID pid with
    | none =>
      have hkill : t.kill pid = (t, false) := by simp [Ptable.kill, hj]
      rw [Serves, hkill]
      exact ⟨h, by simp⟩
    | some j =>
      have hpid := pid_of_getProcByPID hj
      -- the slot is in use: a free one has pid 0
      have huse : (t.proc j).state ≠ .unused := by
        intro hfree
        exact hcareful (hpid ▸ (h j hfree).1) j hfree
      refine ⟨?_, fun _ => ⟨j, huse, hpid⟩⟩
      simp only [Ptable.kill, hj]
      apply h.set
      intro hs
      split at hs
      · simp at hs
      · exact absurd hs huse

theorem Clear.fork_iff (h : t.Clear) (hnum : t.Numbered) (kalloc copyuvm : Bool) :
    Serves t (t.fork q kalloc copyuvm).1 (.fork q kalloc copyuvm) ↔
      Careful (.fork q kalloc copyuvm) t := by
  cases hk : t.findUnused with
  | none =>
    rw [Serves, Careful, fork_of_full hk]
    simpa [hk] using h
  | some k =>
    obtain ⟨p, hpid, hkilled, hstate, heq⟩ := fork_of_found (q := q) hk kalloc copyuvm
    have hclear := h k (Numbered.findUnused_eq_some hk).1
    have hboth : Careful (.fork q kalloc copyuvm) t ↔ (kalloc && copyuvm) = true := by
      simp [Careful, hk]
    rw [hboth, Serves, heq]
    cases hok : kalloc && copyuvm with
    | false =>
      -- the slot is free again but has the new pid
      rw [hok] at hstate
      refine iff_of_false ?_ (by simp)
      intro hserves
      have := hserves.1 k (by simpa using hstate)
      have hnext := hnum.next
      simp only [set_proc, update_self, hpid] at this
      omega
    | true =>
      rw [hok] at hstate
      refine iff_of_true ⟨?_, ?_⟩ rfl
      · apply h.set
        intro hs
        rw [hstate] at hs
        simp at hs
      · intro j hj
        obtain rfl : k = j := by simpa using hj
        simp [hkilled, hclear.2]

theorem Clear.exit (h : t.Clear) (hq : (t.proc q).state ≠ .unused) (hexit : t.exit q = some t') :
    t'.Clear := by
  unfold Ptable.exit at hexit
  split at hexit
  · simp at hexit
  · cases hexit
    intro j hj
    by_cases hjq : j = q
    · subst hjq
      simp at hj
    · simp only [set_proc, update_of_ne hjq] at hj ⊢
      split at hj
      · rename_i hparent
        rw [if_pos hparent]
        exact h j hj
      · rename_i hparent
        rw [if_neg hparent]
        exact h j hj

theorem Clear.wait {pid : Int} (h : t.Clear) (hwait : t.wait q = some (t', pid)) : t'.Clear := by
  obtain ⟨k, -, heq⟩ := map_eq_some_iff.mp hwait
  obtain ⟨rfl, -⟩ := Prod.mk.inj heq
  apply h.set
  intro _
  exact ⟨rfl, rfl⟩

/-- Every call leaves the pids in order. -/
theorem Numbered.callStep {l : ProcCall} (h : t.Numbered) (hstep : Ptable.callStep l t = some t') :
    t'.Numbered := by
  cases l with
  | fork q kalloc copyuvm => exact h.step (l := .fork q kalloc copyuvm) hstep
  | exit q => exact h.step (l := .exit q) hstep
  | wait q => exact h.step (l := .wait q) hstep
  | sched q state => exact h.step (l := .sched q state (t.proc q).killed) hstep
  | kill pid =>
    cases hstep
    cases hj : t.getProcByPID pid with
    | none => simpa [Ptable.kill, hj] using h
    | some j =>
      simp only [Ptable.kill, hj]
      apply h.setSlot
      · rfl
      · intro hs hfree
        simp [hfree] at hs

/-- A call in a state whose free slots are clear does what it has to do if and only if it is
careful. -/
theorem Clear.serves_iff {l : ProcCall} (h : t.Clear) (hnum : t.Numbered)
    (hstep : Ptable.callStep l t = some t') : Serves t t' l ↔ Careful l t := by
  cases l with
  | fork q kalloc copyuvm =>
    simp only [Ptable.callStep, Ptable.step, ite_none_right_eq_some,
      some.injEq] at hstep
    obtain ⟨-, rfl⟩ := hstep
    exact h.fork_iff hnum kalloc copyuvm
  | kill pid =>
    cases hstep
    exact h.kill_iff hnum pid
  | exit q =>
    simp only [Ptable.callStep, Ptable.step, ite_none_right_eq_some] at hstep
    exact iff_of_true (h.exit (by simp [hstep.1]) hstep.2) trivial
  | wait q =>
    simp only [Ptable.callStep, Ptable.step, ite_none_right_eq_some,
      map_eq_some_iff] at hstep
    obtain ⟨-, ⟨u, pid⟩, hwait, rfl⟩ := hstep
    exact iff_of_true (h.wait hwait) trivial
  | sched q state =>
    simp only [Ptable.callStep, Ptable.step, ite_none_right_eq_some,
      some.injEq] at hstep
    obtain ⟨⟨hq, hs⟩, rfl⟩ := hstep
    refine iff_of_true ?_ trivial
    apply h.set
    intro hfree
    rw [show state = .unused from hfree] at hs
    simp [ProcState.living] at hs

theorem booted_ok (cwd : Option (Fin NINODE)) : (booted cwd).Clear ∧ (booted cwd).Numbered := by
  refine ⟨?_, Numbered.empty.userinit (Smp.userinit_empty cwd)⟩
  rw [Smp.booted_eq]
  have hempty : Ptable.empty.Clear := fun _ _ => ⟨rfl, rfl⟩
  have hset := hempty.set (k := Smp.first) (p := { Ptable.empty.proc Smp.first with
    sz := 4096, pid := 1, cwd := cwd, state := .runnable }) (n := 2) (by simp)
  exact hset

/-- In every run of careful calls free slots stay clear, and the next call does what it has to do
if and only if it is careful. -/
theorem residue_free_iff {cwd : Option (Fin NINODE)} {ls : List ProcCall}
    (hrun : runFrom callStep ls (booted cwd) = some t)
    (hmeet : StepsMeet callStep Careful ls (booted cwd)) :
    t.Clear ∧ ∀ l t', callStep l t = some t' → (Serves t t' l ↔ Careful l t) := by
  have hstep : ∀ l s s', Clear s ∧ s.Numbered → Careful l s → callStep l s = some s' →
      Clear s' ∧ s'.Numbered := by
    intro l s s' ⟨hclear, hnum⟩ hcareful hs
    refine ⟨?_, hnum.callStep hs⟩
    have hserves := (hclear.serves_iff hnum hs).mpr hcareful
    cases l with
    | fork | kill => exact hserves.1
    | exit | wait | sched => exact hserves
  obtain ⟨hclear, hnum⟩ := runFrom_invariant_of hstep (booted_ok cwd) hmeet hrun
  exact ⟨hclear, fun l t' hl => hclear.serves_iff hnum hl⟩

instance (l : ProcCall) (t : Ptable) : Decidable (Careful l t) := by
  cases l <;> unfold Careful <;> infer_instance

/-- The first process forks and kills the child, which exits and is reaped. -/
def killChild : List ProcCall :=
  let child : Fin NPROC := ⟨1, one_lt_NPROC⟩
  [.sched Smp.first .running, .fork Smp.first true true, .kill 2, .sched child .running, .exit child,
    .wait Smp.first]

theorem residue_free_killChild : ∃ t, runFrom callStep killChild (booted none) = some t ∧
    t.nextpid = 3 ∧ (t.proc ⟨1, by decide⟩).state = .unused ∧ (t.proc ⟨1, by decide⟩).pid = 0 ∧
      (t.proc ⟨1, by decide⟩).killed = false := by
  have hrun : (runFrom callStep killChild (booted none)).map (fun t =>
      (t.nextpid, (t.proc ⟨1, by decide⟩).state)) = some (3, .unused) := by decide +kernel
  obtain ⟨t, ht, heq⟩ := map_eq_some_iff.mp hrun
  obtain ⟨hpid, hfree⟩ := Prod.mk.inj heq
  have hmeet : StepsMeet callStep Careful killChild (booted none) :=
    StepsMeet.of_meets (fun l t => of_decide_eq_true) (by decide +kernel)
  exact ⟨t, ht, hpid, hfree, (residue_free_iff ht hmeet).1 _ hfree⟩

/-- A `fork` that fails leaves its pid in slot 1, `kill` of this pid succeeds, and the next child is
killed from the start; `kill(0)` does the same without a `fork` that fails. -/
theorem residue_kills_child :
    (∃ t, runFrom callStep [.sched Smp.first .running, .fork Smp.first true false] (booted none) =
        some t ∧ (t.proc ⟨1, by decide⟩).state = .unused ∧ (t.proc ⟨1, by decide⟩).pid = 2 ∧
      (t.kill 2).2 = true ∧
      ((t.kill 2).1.fork Smp.first true true).2 = some ⟨1, by decide⟩ ∧
      (((t.kill 2).1.fork Smp.first true true).1.proc ⟨1, by decide⟩).killed = true) ∧
    ∃ t, runFrom callStep [.sched Smp.first .running] (booted none) = some t ∧
      (∀ k, (t.proc k).state ≠ .unused → (t.proc k).pid ≠ 0) ∧ (t.kill 0).2 = true ∧
      (((t.kill 0).1.fork Smp.first true true).1.proc ⟨1, by decide⟩).killed = true := by
  constructor
  · refine ⟨_, rfl, ?_⟩
    decide +kernel
  · refine ⟨_, rfl, ?_⟩
    decide +kernel

end Ptable

end Xv6
