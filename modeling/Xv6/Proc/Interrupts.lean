import Mathlib.Logic.Function.Basic
import Xv6.Lib.Trans

/-!
# Disabling interrupts

`pushcli` and `popcli` (`spinlock.c:96-116`), `acquire` and `release` (`spinlock.c:24-64`), and the
switches between a process and the scheduler of a CPU (`scheduler` and `sched`, `proc.c:264-316`).
`ncli` and `intena` belong to a CPU, but the calls that are still open belong to a kernel thread,
which may continue on another CPU. `Calls` records for a thread how many calls are open and what the
interrupt flag was before the outermost of them. It moves with the thread, and no step reads it to
decide what the kernel does.

`sched` saves `intena` for its process, but nobody saves that of the scheduler: when it releases
`ptable.lock`, it goes by what the last process has left.
-/

namespace Xv6.Interrupts

open Function Option

open Lib

inductive Panic
  | popcliInterruptible
  | popcli
  | acquire
  | release
  | schedPtableLock
  | schedLocks
  | schedInterruptible
  deriving DecidableEq

/-- The calls of a thread that are open. -/
structure Calls where
  depth : Nat
  /-- The interrupt flag before the outermost of them. -/
  entry : Bool
  /-- The process that made the outermost of them, `none` for the scheduler. -/
  opener : Option Nat
  /-- Whether a process has come back to the scheduler since. -/
  switched : Bool
  deriving DecidableEq

structure Cpu where
  /-- `FL_IF` of `eflags`. -/
  fl : Bool
  ncli : Int
  intena : Bool
  /-- `none` while the scheduler runs. -/
  proc : Option Nat
  /-- Of the thread that runs. -/
  calls : Calls
  /-- Of the scheduler while a process runs. -/
  waiting : Calls
  deriving DecidableEq

/-- `pushcli` (`spinlock.c:96-105`). -/
def pushcli (c : Cpu) : Cpu :=
  { c with
    fl := false
    ncli := c.ncli + 1
    intena := if c.ncli = 0 then c.fl else c.intena
    calls := if c.calls.depth = 0 then ⟨1, c.fl, c.proc, false⟩
      else { c.calls with depth := c.calls.depth + 1 } }

/-- `popcli` (`spinlock.c:107-116`). -/
def popcli (c : Cpu) : Except Panic Cpu :=
  let c' := { c with ncli := c.ncli - 1, calls := { c.calls with depth := c.calls.depth - 1 } }
  if c.fl then .error .popcliInterruptible
  else if c'.ncli < 0 then .error .popcli
  else .ok (if c'.ncli = 0 ∧ c'.intena then { c' with fl := true } else c')

/-- Where a process is: it has not run yet, it runs, or it is in `sched`, which has `intena` on its
stack. -/
inductive Place
  | fresh
  | running
  | sched (intena : Bool) (calls : Calls)

structure State where
  cpu : Nat → Cpu
  place : Nat → Place
  /-- The CPU that holds a lock. -/
  lock : Nat → Option Nat
  panicked : Option Panic

def State.setCpu (s : State) (c : Nat) (cpu : Cpu) : State :=
  { s with cpu := update s.cpu c cpu }

def State.setPlace (s : State) (p : Nat) (place : Place) : State :=
  { s with place := update s.place p place }

def State.panic (s : State) (e : Panic) : State := { s with panicked := some e }

def State.popcli (s : State) (c : Nat) : State :=
  match Interrupts.popcli (s.cpu c) with
  | .error e => s.panic e
  | .ok cpu => s.setCpu c cpu

/-- `ptable.lock` -/
def ptableLock : Nat := 0

inductive Label
  | pushcli (c : Nat)
  | popcli (c : Nat)
  | acquire (c lk : Nat)
  | release (c lk : Nat)
  /-- `cli`, `sti`, the entry of an interrupt handler or the return from it. -/
  | flag (c : Nat) (fl : Bool)
  | sched (c : Nat)
  /-- The `swtch` of the scheduler. -/
  | dispatch (c p : Nat)

/-- `sched` up to its `swtch`: the scheduler goes on with `intena` as it is. -/
def sched (s : State) (c p : Nat) : State :=
  let cpu := s.cpu c
  if s.lock ptableLock ≠ some c then s.panic .schedPtableLock
  else if cpu.ncli ≠ 1 then s.panic .schedLocks
  else if cpu.fl then s.panic .schedInterruptible
  else
    (s.setPlace p (.sched cpu.intena cpu.calls)).setCpu c
      { cpu with proc := none, calls := { cpu.waiting with switched := true } }

/-- A process continues behind the `swtch` of its `sched`, or begins in `forkret`, where the open
call is the scheduler's `acquire`. -/
def dispatch (s : State) (c p : Nat) : Option State :=
  let cpu := { s.cpu c with proc := some p, waiting := (s.cpu c).calls }
  match s.place p with
  | .running => none
  | .fresh => some ((s.setPlace p .running).setCpu c cpu)
  | .sched intena calls =>
    some ((s.setPlace p .running).setCpu c { cpu with intena := intena, calls := calls })

/-- One step of the thread on a CPU. The calls of a thread are matched: it closes no more of them
than it has open, and the flag is changed only when none is. An `acquire` that spins has made the
step of its `pushcli`. The callers of `sched` have changed `proc->state`. -/
def step (l : Label) (s : State) : Option State :=
  if s.panicked.isSome then none
  else match l with
    | .pushcli c => some (s.setCpu c (pushcli (s.cpu c)))
    | .popcli c => if (s.cpu c).calls.depth = 0 then none else some (s.popcli c)
    | .acquire c lk =>
      let s' := s.setCpu c (pushcli (s.cpu c))
      match s.lock lk with
      | none => some { s' with lock := update s.lock lk (some c) }
      | some c' => if c' = c then some (s'.panic .acquire) else none
    | .release c lk =>
      if (s.cpu c).calls.depth = 0 then none
      else if s.lock lk = some c then
        some (State.popcli { s with lock := update s.lock lk none } c)
      else some (s.panic .release)
    | .flag c fl =>
      if (s.cpu c).calls.depth = 0 then some (s.setCpu c { s.cpu c with fl := fl }) else none
    | .sched c => (s.cpu c).proc.map (sched s c)
    | .dispatch c p =>
      if (s.cpu c).proc = none ∧ s.lock ptableLock = some c ∧ (s.cpu c).calls.depth = 1 then
        dispatch s c p
      else none

/-- No call is open and no process has run; the interrupt flags are what they are. -/
def boot (fl : Nat → Bool) : State where
  cpu c := ⟨fl c, 0, false, none, ⟨0, false, none, false⟩, ⟨0, false, none, false⟩⟩
  place _ := .fresh
  lock _ := none
  panicked := none

/-! ## What every step keeps -/

/-- The outermost call was made by a process, or no process has come back to the scheduler since it
was made. -/
def Calls.Restores (calls : Calls) : Prop := calls.opener ≠ none ∨ calls.switched = false

/-- The fields of a CPU say how many calls its thread has open, and the flag before them. -/
structure Cpu.Masks (c : Cpu) : Prop where
  ncli : c.ncli = c.calls.depth
  fl : 0 < c.calls.depth → c.fl = false
  intena : 0 < c.calls.depth → c.calls.Restores → c.intena = c.calls.entry
  scheduler : c.proc = none → c.calls.opener = none
  waiting : c.proc ≠ none → c.waiting.depth = 1 ∧ c.waiting.opener = none

/-- `sched` has the flag of its thread, which has one call open. -/
def Place.Saves : Place → Prop
  | .sched intena calls => calls.depth = 1 ∧ (calls.Restores → intena = calls.entry)
  | _ => True

structure Nests (s : State) : Prop where
  cpu : ∀ c, (s.cpu c).Masks
  place : ∀ p, (s.place p).Saves
  panics : s.panicked ≠ some .popcliInterruptible ∧ s.panicked ≠ some .popcli

section

variable {s t : State} {c p : Nat} {e : Panic} {cpu : Cpu} {place : Place}

theorem Nests.setCpu (h : Nests s) (hcpu : cpu.Masks) : Nests (s.setCpu c cpu) :=
  ⟨(Function.forall_update_iff s.cpu fun _ => Cpu.Masks).mpr ⟨hcpu, fun c' _ => h.cpu c'⟩,
    h.place, h.panics⟩

theorem Nests.setPlace (h : Nests s) (hplace : place.Saves) : Nests (s.setPlace p place) :=
  ⟨h.cpu, (Function.forall_update_iff s.place fun _ => Place.Saves).mpr
    ⟨hplace, fun p' _ => h.place p'⟩, h.panics⟩

theorem Nests.panic (h : Nests s) (he : e ≠ .popcliInterruptible ∧ e ≠ .popcli) :
    Nests (s.panic e) :=
  ⟨h.cpu, h.place, by simpa [State.panic] using he⟩

theorem Cpu.Masks.pushcli (h : cpu.Masks) : (pushcli cpu).Masks := by
  have hncli := h.ncli
  unfold Interrupts.pushcli
  by_cases h0 : cpu.calls.depth = 0
  · rw [if_pos h0, if_pos (by omega)]
    exact ⟨by simp only; omega, fun _ => rfl, fun _ _ => rfl, id, h.waiting⟩
  · rw [if_neg h0, if_neg (by omega)]
    exact ⟨by simp only; omega, fun _ => rfl, fun _ => h.intena (by omega), h.scheduler, h.waiting⟩

/-- `popcli` does not panic, and the outermost one puts the flag back. -/
theorem Cpu.Masks.popcli (h : cpu.Masks) (hpos : 0 < cpu.calls.depth) :
    ∃ cpu', popcli cpu = .ok cpu' ∧ cpu'.Masks ∧
      (cpu.calls.depth = 1 → cpu.calls.Restores → cpu'.fl = cpu.calls.entry) := by
  have hncli := h.ncli
  have hfl := h.fl hpos
  unfold Interrupts.popcli
  dsimp only
  rw [if_neg (by simp [hfl]), if_neg (by omega)]
  refine ⟨_, rfl, ?_⟩
  by_cases h1 : cpu.calls.depth = 1
  · -- the last call: the flag is what `intena` says
    by_cases hintena : cpu.intena = true
    · rw [if_pos ⟨by omega, hintena⟩]
      exact ⟨⟨by simp only; omega, by simp [h1], by simp [h1], h.scheduler, h.waiting⟩,
        fun _ hr => hintena.symm.trans (h.intena hpos hr)⟩
    · rw [if_neg fun hc => hintena hc.2]
      exact ⟨⟨by simp only; omega, by simp [h1], by simp [h1], h.scheduler, h.waiting⟩,
        fun _ hr => by simp only [hfl, ← h.intena hpos hr, Bool.eq_false_iff.mpr hintena]⟩
  · rw [if_neg (by omega)]
    exact ⟨⟨by simp only; omega, fun _ => hfl, fun _ => h.intena hpos, h.scheduler, h.waiting⟩,
      fun h => absurd h h1⟩

theorem Nests.popcli (h : Nests s) (hpos : 0 < (s.cpu c).calls.depth) :
    Nests (s.popcli c) ∧
      ((s.cpu c).calls.depth = 1 → (s.cpu c).calls.Restores →
        ((s.popcli c).cpu c).fl = (s.cpu c).calls.entry) := by
  obtain ⟨cpu', hpop, hmasks, hflag⟩ := (h.cpu c).popcli hpos
  rw [State.popcli, hpop]
  refine ⟨h.setCpu hmasks, fun h1 hr => ?_⟩
  show (update s.cpu c cpu' c).fl = _
  rw [update_self, hflag h1 hr]

theorem Nests.sched (h : Nests s) (hp : (s.cpu c).proc = some p) : Nests (sched s c p) := by
  have hc := h.cpu c
  have hncli := hc.ncli
  have hwait := hc.waiting (by simp [hp])
  unfold Interrupts.sched
  dsimp only
  split
  · exact h.panic (by decide)
  · split
    · exact h.panic (by decide)
    · split
      · exact h.panic (by decide)
      · rename_i hone hfl
        have hdepth : (s.cpu c).calls.depth = 1 := by omega
        have hsaves : (Place.sched (s.cpu c).intena (s.cpu c).calls).Saves :=
          ⟨hdepth, hc.intena (by omega)⟩
        refine (h.setPlace hsaves).setCpu ⟨?_, ?_, ?_, ?_, ?_⟩
        · simp only [hwait.1]
          omega
        · exact fun _ => Bool.eq_false_iff.mpr hfl
        · exact fun _ hr => absurd hr (by simp [Calls.Restores, hwait.2])
        · exact fun _ => hwait.2
        · exact fun hne => absurd rfl hne

theorem Nests.dispatch (h : Nests s) (hnone : (s.cpu c).proc = none)
    (hdepth : (s.cpu c).calls.depth = 1) (hstep : dispatch s c p = some t) : Nests t := by
  have hc := h.cpu c
  have hncli := hc.ncli
  have hfl := hc.fl (by omega)
  have hwait : (s.cpu c).calls.depth = 1 ∧ (s.cpu c).calls.opener = none :=
    ⟨hdepth, hc.scheduler hnone⟩
  have hp := h.place p
  unfold Interrupts.dispatch at hstep
  dsimp only at hstep
  split at hstep
  · cases hstep
  · cases hstep
    exact Nests.setCpu (h.setPlace trivial)
      ⟨hncli, fun _ => hfl, hc.intena, fun _ => hwait.2, fun _ => hwait⟩
  · rename_i intena calls hplace
    rw [hplace] at hp
    cases hstep
    refine Nests.setCpu (h.setPlace trivial)
      ⟨?_, fun _ => hfl, fun _ => hp.2, fun hne => absurd hne (by simp), fun _ => hwait⟩
    simp only [hp.1]
    omega

theorem Nests.step {l : Label} (h : Nests s) (hstep : step l s = some t) : Nests t := by
  unfold Interrupts.step at hstep
  rw [ite_none_left_eq_some] at hstep
  replace hstep := hstep.2
  cases l with
  | pushcli c => exact some.inj hstep ▸ h.setCpu (h.cpu c).pushcli
  | popcli c =>
    simp only [ite_none_left_eq_some] at hstep
    exact some.inj hstep.2 ▸ (h.popcli (Nat.pos_of_ne_zero hstep.1)).1
  | acquire c lk =>
    have henter := h.setCpu (c := c) (h.cpu c).pushcli
    simp only at hstep
    split at hstep
    · exact some.inj hstep ▸ ⟨henter.cpu, henter.place, henter.panics⟩
    · rw [ite_none_right_eq_some] at hstep
      exact some.inj hstep.2 ▸ henter.panic (by decide)
  | release c lk =>
    simp only [ite_none_left_eq_some] at hstep
    obtain ⟨hpos, hstep⟩ := hstep
    split at hstep
    · have hlock : Nests { s with lock := update s.lock lk none } :=
        ⟨h.cpu, h.place, h.panics⟩
      exact some.inj hstep ▸ (hlock.popcli (Nat.pos_of_ne_zero hpos)).1
    · exact some.inj hstep ▸ h.panic (by decide)
  | flag c fl =>
    simp only [ite_none_right_eq_some] at hstep
    obtain ⟨hzero, hstep⟩ := hstep
    refine some.inj hstep ▸
      h.setCpu ⟨(h.cpu c).ncli, ?_, ?_, (h.cpu c).scheduler, (h.cpu c).waiting⟩
    · simp [hzero]
    · simp [hzero]
  | sched c =>
    obtain ⟨p, hp, rfl⟩ := map_eq_some_iff.mp hstep
    exact h.sched hp
  | dispatch c p =>
    simp only [ite_none_right_eq_some] at hstep
    exact h.dispatch hstep.1.1 hstep.1.2.2 hstep.2

theorem nests_boot (fl : Nat → Bool) : Nests (boot fl) :=
  ⟨fun _ => ⟨rfl, by simp [boot], by simp [boot], fun _ => rfl, by simp [boot]⟩, fun _ => trivial,
    by simp [boot]⟩

end

/-! ## Every run -/

/-- In every state of every run interrupts are off while `ncli` is positive, `ncli` is the number of
calls that the thread on the CPU has open, and neither panic of `popcli` has been reached. Closing
the outermost call leaves the flag that was there before it was opened, if a process made it, or if
no process has come back to the scheduler since. -/
theorem interrupts_nest (fl : Nat → Bool) (ls : List Label) (s : State)
    (hrun : runFrom step ls (boot fl) = some s) :
    (∀ c, 0 < (s.cpu c).ncli → (s.cpu c).fl = false) ∧
    (∀ c, (s.cpu c).ncli = (s.cpu c).calls.depth) ∧
    (s.panicked ≠ some .popcliInterruptible ∧ s.panicked ≠ some .popcli) ∧
    ∀ l t c, (l = .popcli c ∨ ∃ lk, l = .release c lk) → step l s = some t → t.panicked = none →
      (s.cpu c).calls.depth = 1 → (s.cpu c).calls.Restores →
      (t.cpu c).fl = (s.cpu c).calls.entry := by
  have h : Nests s := runFrom_invariant (fun _ _ _ h hstep => h.step hstep) (nests_boot fl) hrun
  refine ⟨fun c hpos => (h.cpu c).fl ?_, fun c => (h.cpu c).ncli, h.panics, ?_⟩
  · have := (h.cpu c).ncli
    omega
  · intro l t c hl hstep hpanic h1 hr
    unfold step at hstep
    rw [ite_none_left_eq_some] at hstep
    rcases hl with rfl | ⟨lk, rfl⟩
    · simp only [ite_none_left_eq_some] at hstep
      exact some.inj hstep.2.2 ▸ (h.popcli (by omega)).2 h1 hr
    · simp only [ite_none_left_eq_some] at hstep
      obtain ⟨-, -, hstep⟩ := hstep
      split at hstep
      · have hlock : Nests { s with lock := update s.lock lk none } :=
          ⟨h.cpu, h.place, h.panics⟩
        have hpos : 0 < (s.cpu c).calls.depth := by omega
        exact some.inj hstep ▸ (hlock.popcli hpos).2 h1 hr
      · cases hstep
        cases hpanic

/-- A process runs on CPU 0, calls `yield` with interrupts enabled, and continues on CPU 1. -/
def yieldRun : List Label :=
  [.acquire 0 0, .dispatch 0 5, .release 0 0, .flag 0 true, .acquire 0 0, .sched 0, .release 0 0,
    .acquire 1 0, .dispatch 1 5]

/-- It releases `ptable.lock` there, which enables interrupts. -/
theorem interrupts_nest_yield : ∃ s t, runFrom step yieldRun (boot fun _ => false) = some s ∧
    step (.release 1 0) s = some t ∧ (s.cpu 1).fl = false ∧ (t.cpu 1).fl = true := by
  have h : ((runFrom step yieldRun (boot fun _ => false)).bind fun s =>
      (step (.release 1 0) s).map fun t => (t.panicked, s.cpu 1)) = some (none,
        ⟨false, 1, true, some 5, ⟨1, true, some 5, false⟩, ⟨1, false, none, false⟩⟩) := by decide
  obtain ⟨s, hs, hstep⟩ := bind_eq_some_iff.mp h
  obtain ⟨t, ht, hend⟩ := map_eq_some_iff.mp hstep
  obtain ⟨hpanic, hcpu⟩ := Prod.mk.inj hend
  have hflag := (interrupts_nest _ _ _ hs).2.2.2 _ t 1 (.inr ⟨0, rfl⟩) ht hpanic (by rw [hcpu])
    (.inl (by rw [hcpu]; simp))
  rw [hcpu] at hflag
  exact ⟨s, t, hs, ht, by rw [hcpu], hflag⟩

/-- The scheduler enables interrupts and acquires `ptable.lock`. The process that it switches to is
interrupted and calls `yield` in the handler, where interrupts are disabled. -/
def timerRun : List Label :=
  [.flag 0 true, .acquire 0 0, .dispatch 0 5, .release 0 0, .flag 0 false, .acquire 0 0, .sched 0]

/-- The `release` of the scheduler leaves interrupts disabled. -/
theorem scheduler_flag_lost : ∃ s t, runFrom step timerRun (boot fun _ => true) = some s ∧
    step (.release 0 0) s = some t ∧ t.panicked = none ∧ (s.cpu 0).proc = none ∧
    (s.cpu 0).calls.depth = 1 ∧ (s.cpu 0).calls.entry = true ∧ (t.cpu 0).fl = false := by
  have h : ((runFrom step timerRun (boot fun _ => true)).bind fun s =>
      (step (.release 0 0) s).map fun t => (t.panicked, (s.cpu 0).proc, (s.cpu 0).calls.depth,
        (s.cpu 0).calls.entry, (t.cpu 0).fl)) = some (none, none, 1, true, false) := by decide
  obtain ⟨s, hs, hstep⟩ := bind_eq_some_iff.mp h
  obtain ⟨t, ht, hend⟩ := map_eq_some_iff.mp hstep
  simp only [Prod.mk.injEq] at hend
  exact ⟨s, t, hs, ht, hend⟩

end Xv6.Interrupts
