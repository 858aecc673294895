import Mathlib.Data.Fin.Basic
import Mathlib.Logic.Function.Basic
import Mathlib.Order.Interval.Finset.Fin
import Mathlib.Data.Int.Interval
import Xv6.Param
import Xv6.Lib.Trans

/-!
# The process table

`ptable` of `proc.c` and the functions that give out and take back its slots. `allocproc` takes
the first free slot and the next pid, so the slots below it are all in use by processes with
smaller pids: a slot's pid is always larger than its index (`Ptable.Numbered`).
-/

namespace Xv6

open Function Option

open Lib

/-- `enum procstate` (`proc.h:53`). -/
inductive ProcState where
  | unused | embryo | sleeping | runnable | running | zombie
  deriving DecidableEq, Repr

/-- `struct proc` (`proc.h:56-70`), without the fields of the memory and the scheduler. -/
structure Proc where
  sz : BitVec 32
  state : ProcState
  pid : Int
  parent : Option (Fin NPROC)
  killed : Bool
  ofile : Fin NOFILE → Option (Fin NFILE)
  cwd : Option (Fin NINODE)

/-- `ptable`, `nextpid` and `initproc` (`proc.c:10-17`). -/
structure Ptable where
  proc : Fin NPROC → Proc
  nextpid : Int
  initproc : Option (Fin NPROC)

namespace Ptable

/-- The table as the kernel is loaded. -/
def empty : Ptable where
  proc := fun _ =>
    { sz := 0, state := .unused, pid := 0, parent := none, killed := false,
      ofile := fun _ => none, cwd := none }
  nextpid := 1
  initproc := none

/-- Change one slot. -/
def set (t : Ptable) (k : Fin NPROC) (p : Proc) : Ptable :=
  { t with proc := update t.proc k p }

@[simp] theorem set_proc (t : Ptable) (k : Fin NPROC) (p : Proc) :
    (t.set k p).proc = update t.proc k p := rfl
@[simp] theorem set_nextpid (t : Ptable) (k : Fin NPROC) (p : Proc) :
    (t.set k p).nextpid = t.nextpid := rfl

/-- The loop of `allocproc`. -/
def findUnused (t : Ptable) : Option (Fin NPROC) :=
  (List.finRange NPROC).find? fun k => decide ((t.proc k).state = .unused)

/-- `allocproc` (`proc.c:34-74`); `kalloc` says whether there was a page for the stack. -/
def allocproc (t : Ptable) (kalloc : Bool) : Ptable × Option (Fin NPROC) :=
  match t.findUnused with
  | none => (t, none)
  | some k =>
    let t := { t.set k { t.proc k with state := .embryo, pid := t.nextpid } with
      nextpid := t.nextpid + 1 }
    if kalloc then (t, some k) else (t.set k { t.proc k with state := .unused }, none)

/-- `userinit` (`proc.c:78-103`); `cwd` is what `namei("/")` returned. -/
def userinit (t : Ptable) (cwd : Option (Fin NINODE)) : Option Ptable :=
  match t.allocproc true with
  | (_, none) => none
  | (t, some k) => some { t.set k { t.proc k with sz := 4096, cwd := cwd, state := .runnable } with
      initproc := some k }

/-- The table that `userinit` leaves when the kernel starts. -/
def booted (cwd : Option (Fin NINODE)) : Ptable := (empty.userinit cwd).getD .empty

/-- `fork` by the process in slot `q` (`proc.c:128-169`). -/
def fork (t : Ptable) (q : Fin NPROC) (kalloc copyuvm : Bool) : Ptable × Option (Fin NPROC) :=
  match t.allocproc kalloc with
  | (t, none) => (t, none)
  | (t, some k) =>
    if copyuvm then
      let p := t.proc q
      (t.set k { t.proc k with
        sz := p.sz
        parent := some q
        ofile := fun i => match p.ofile i with | some f => some f | none => (t.proc k).ofile i
        cwd := p.cwd
        state := .runnable }, some k)
    else (t.set k { t.proc k with state := .unused }, none)

/-- `exit` by the process in slot `q` (`proc.c:174-213`), once its files and its directory have
been given back; `none` is the panic "init exiting". -/
def exit (t : Ptable) (q : Fin NPROC) : Option Ptable :=
  if t.initproc = some q then none
  else
    let t := { t with proc := fun k =>
      if (t.proc k).parent = some q then { t.proc k with parent := t.initproc } else t.proc k }
    some (t.set q { t.proc q with ofile := fun _ => none, cwd := none, state := .zombie })

/-- The scan of `wait` by the process in slot `q` (`proc.c:226-244`); `none` when there is no
zombie child. -/
def wait (t : Ptable) (q : Fin NPROC) : Option (Ptable × Int) :=
  ((List.finRange NPROC).find? fun k =>
    decide ((t.proc k).parent = some q ∧ (t.proc k).state = .zombie)).map fun k =>
      (t.set k { t.proc k with state := .unused, pid := 0, parent := none, killed := false },
        (t.proc k).pid)

/-- `getProc` (`proc.c:467-470`): the slot with the given index; `none` past the table. -/
def getProc (i : Nat) : Option (Fin NPROC) := if h : i < NPROC then some ⟨i, h⟩ else none

/-- `getProcByPID` (`proc.c:471-483`): the first slot with the given pid; `none` when the
uninitialised pointer is returned. -/
def getProcByPID (t : Ptable) (pid : Int) : Option (Fin NPROC) :=
  (List.finRange NPROC).find? fun k => decide ((t.proc k).pid = pid)

/-- `getProcState` (`proc.c:485-509`). -/
def getProcState (p : Proc) : String :=
  match p.state with
  | .unused => "UNUSED"
  | .embryo => "EMBRYO"
  | .sleeping => "SLEEPING"
  | .runnable => "RUNNABLE"
  | .running => "RUNNING"
  | .zombie => "ZOMBIE"

end Ptable

/-! ## Runs of the table -/

/-- What happens to the table. -/
inductive ProcStep where
  | userinit (cwd : Option (Fin NINODE))
  | allocproc (kalloc : Bool)
  | fork (q : Fin NPROC) (kalloc copyuvm : Bool)
  | exit (q : Fin NPROC)
  | wait (q : Fin NPROC)
  /-- The scheduler, `sleep`, `wakeup` and `kill` move a process between its living states. -/
  | sched (q : Fin NPROC) (state : ProcState) (killed : Bool)
  /-- The process opens and closes files, changes its directory and grows. -/
  | user (q : Fin NPROC) (sz : BitVec 32) (ofile : Fin NOFILE → Option (Fin NFILE))
      (cwd : Option (Fin NINODE))

/-- The states between which a process moves while it lives. -/
def ProcState.living : ProcState → Bool
  | .sleeping | .runnable | .running => true
  | _ => false

/-- One step of the table; `none` when it cannot happen. Pids stay below `2 ^ 31`, where the
increment of `nextpid` would be undefined. -/
def Ptable.step : ProcStep → Ptable → Option Ptable
  | .userinit cwd, t => if t.initproc = none then t.userinit cwd else none
  | .allocproc kalloc, t =>
    if t.nextpid < 2 ^ 31 - 1 then some (t.allocproc kalloc).1 else none
  | .fork q kalloc copyuvm, t =>
    if t.nextpid < 2 ^ 31 - 1 ∧ (t.proc q).state = .running then
      some (t.fork q kalloc copyuvm).1
    else none
  | .exit q, t => if (t.proc q).state = .running then t.exit q else none
  | .wait q, t => if (t.proc q).state = .running then (t.wait q).map Prod.fst else none
  | .sched q state killed, t =>
    if (t.proc q).state.living = true ∧ state.living = true then
      some (t.set q { t.proc q with state := state, killed := killed })
    else none
  | .user q sz ofile cwd, t =>
    if (t.proc q).state = .running then
      some (t.set q { t.proc q with sz := sz, ofile := ofile, cwd := cwd })
    else none

/-! ## Slots and pids -/

/-- How slots and pids go together in every reachable table. -/
structure Ptable.Numbered (t : Ptable) : Prop where
  /-- A pid exceeds the index of its slot; `wait` leaves a zero. -/
  above : ∀ k, (t.proc k).pid = 0 ∨ (k : Int) < (t.proc k).pid
  inUse : ∀ k, (t.proc k).state ≠ .unused → 0 < (t.proc k).pid ∧ (t.proc k).pid < t.nextpid
  distinct : ∀ j k, (t.proc j).state ≠ .unused → (t.proc k).state ≠ .unused →
    (t.proc j).pid = (t.proc k).pid → j = k
  next : 0 < t.nextpid

namespace Ptable.Numbered

variable {t t' : Ptable} {k : Fin NPROC}

theorem empty : Ptable.empty.Numbered where
  above := by simp [Ptable.empty]
  inUse := by simp [Ptable.empty]
  distinct := by simp [Ptable.empty]
  next := by simp [Ptable.empty]

/-- The slots below a slot hold as many different pids as there are of them. -/
theorem index_lt_nextpid (h : t.Numbered) (hbelow : ∀ j < k, (t.proc j).state ≠ .unused) :
    (k : Int) < t.nextpid := by
  have hcard : (Finset.Iio k).card ≤ (Finset.Ioo (0 : Int) t.nextpid).card := by
    apply Finset.card_le_card_of_injOn fun j => (t.proc j).pid
    · intro j hj
      have hj' : j < k := by simpa using hj
      have := h.inUse j (hbelow j hj')
      simpa using this
    · intro i hi j hj heq
      have hi' : i < k := by simpa using hi
      have hj' : j < k := by simpa using hj
      exact h.distinct i j (hbelow i hi') (hbelow j hj') heq
  rw [Fin.card_Iio, Int.card_Ioo] at hcard
  have := h.next
  omega

/-- Writing to a slot without touching its pid, or after freeing it. -/
theorem keep (h : t.Numbered) (hnext : t'.nextpid = t.nextpid)
    (hslot : ∀ j, ((t'.proc j).pid = (t.proc j).pid ∨
        (t'.proc j).pid = 0 ∧ (t'.proc j).state = .unused) ∧
      ((t'.proc j).state ≠ .unused → (t.proc j).state ≠ .unused)) : t'.Numbered := by
  have hpid : ∀ j, (t'.proc j).state ≠ .unused → (t'.proc j).pid = (t.proc j).pid :=
    fun j hj => (hslot j).1.resolve_right fun hz => hj hz.2
  refine ⟨fun j => ?_, fun j hj => ?_, fun i j hi hj heq => ?_, by rw [hnext]; exact h.next⟩
  · rcases (hslot j).1 with heq | hz
    · rw [heq]; exact h.above j
    · exact .inl hz.1
  · rw [hpid j hj, hnext]
    exact h.inUse j ((hslot j).2 hj)
  · rw [hpid i hi, hpid j hj] at heq
    exact h.distinct i j ((hslot i).2 hi) ((hslot j).2 hj) heq

theorem findUnused_eq_some (hk : t.findUnused = some k) :
    (t.proc k).state = .unused ∧ ∀ j < k, (t.proc j).state ≠ .unused := by
  unfold findUnused at hk
  rw [List.find?_eq_some_iff_getElem] at hk
  obtain ⟨hunused, i, hi, hik, hbelow⟩ := hk
  refine ⟨by simpa using hunused, fun j hj => ?_⟩
  have hki : k.val = i := by
    have := congrArg Fin.val hik
    simpa using this.symm
  have := hbelow j.val (by rw [← hki]; exact hj)
  simpa using this

/-- The slot `allocproc` fills gets a pid above its index and above all others. -/
theorem fill {p : Proc} (h : t.Numbered) (hk : t.findUnused = some k)
    (hp : p.pid = t.nextpid) :
    Numbered { t.set k p with nextpid := t.nextpid + 1 } := by
  obtain ⟨-, hbelow⟩ := findUnused_eq_some hk
  have hlt := h.index_lt_nextpid hbelow
  have hnext := h.next
  have hother : ∀ j, j ≠ k → update t.proc k p j = t.proc j := fun j hj =>
    update_of_ne hj _ _
  refine ⟨fun j => ?_, fun j hj => ?_, fun i j hi hj heq => ?_, by simp only; omega⟩
  · by_cases hjk : j = k
    · subst hjk
      exact .inr (by simpa [hp] using hlt)
    · simpa [hother j hjk] using h.above j
  · by_cases hjk : j = k
    · subst hjk
      simp only [set_proc, update_self, hp]
      omega
    · simp only [set_proc, hother j hjk] at hj ⊢
      have := h.inUse j hj
      omega
  · by_cases hik : i = k <;> by_cases hjk : j = k
    · rw [hik, hjk]
    · subst hik
      simp only [set_proc, update_self, hother j hjk, hp] at heq hj
      have := h.inUse j hj
      omega
    · subst hjk
      simp only [set_proc, update_self, hother i hik, hp] at heq hi
      have := h.inUse i hi
      omega
    · simp only [set_proc, hother i hik, hother j hjk] at heq hi hj
      exact h.distinct i j hi hj heq

/-- A change to one slot in use that keeps its pid. -/
theorem setSlot {p : Proc} (h : t.Numbered) (hpid : p.pid = (t.proc k).pid)
    (hstate : p.state ≠ .unused → (t.proc k).state ≠ .unused) : (t.set k p).Numbered := by
  refine h.keep rfl fun j => ?_
  by_cases hjk : j = k
  · subst hjk
    exact ⟨.inl (by simp [hpid]), by simpa using hstate⟩
  · simp [hjk]

theorem allocproc (h : t.Numbered) (kalloc : Bool) : (t.allocproc kalloc).1.Numbered := by
  unfold Ptable.allocproc
  split
  · exact h
  · rename_i k hk
    have hfill := h.fill (p := { t.proc k with state := .embryo, pid := t.nextpid }) hk rfl
    split
    · exact hfill
    · exact hfill.setSlot (by simp) (by simp)

theorem allocproc_slot {kalloc : Bool} (hk : t.allocproc kalloc = (t', some k)) :
    (t'.proc k).state = .embryo := by
  unfold Ptable.allocproc at hk
  split at hk
  · simp at hk
  · split at hk
    · simp only [Prod.mk.injEq, some.injEq] at hk
      obtain ⟨rfl, rfl⟩ := hk
      simp
    · simp at hk

theorem fork {q : Fin NPROC} (h : t.Numbered) (kalloc copyuvm : Bool) :
    (t.fork q kalloc copyuvm).1.Numbered := by
  have halloc := h.allocproc kalloc
  unfold Ptable.fork
  split
  · rename_i hk
    rw [hk] at halloc
    exact halloc
  · rename_i k hk
    have hembryo := allocproc_slot hk
    rw [hk] at halloc
    split
    · exact halloc.setSlot rfl fun _ => by simp [hembryo]
    · exact halloc.setSlot rfl (by simp)

theorem exit {q : Fin NPROC} (h : t.Numbered) (hq : (t.proc q).state ≠ .unused)
    (hexit : t.exit q = some t') : t'.Numbered := by
  unfold Ptable.exit at hexit
  split at hexit
  · simp at hexit
  · cases hexit
    refine h.keep rfl fun j => ?_
    by_cases hjq : j = q
    · subst hjq
      refine ⟨.inl ?_, fun _ => hq⟩
      simp only [set_proc, update_self]
      split <;> rfl
    · simp only [set_proc, update_of_ne hjq]
      split <;> simp

theorem wait {q : Fin NPROC} {pid : Int} (h : t.Numbered) (hwait : t.wait q = some (t', pid)) :
    t'.Numbered := by
  obtain ⟨k, -, heq⟩ := map_eq_some_iff.mp hwait
  obtain ⟨rfl, -⟩ := Prod.mk.inj heq
  refine h.keep rfl fun j => ?_
  by_cases hjk : j = k
  · subst hjk
    simp
  · simp [hjk]

theorem userinit {cwd : Option (Fin NINODE)} (h : t.Numbered)
    (hinit : t.userinit cwd = some t') : t'.Numbered := by
  have halloc := h.allocproc true
  unfold Ptable.userinit at hinit
  split at hinit
  · simp at hinit
  · rename_i u k hk
    rw [hk] at halloc
    cases hinit
    have hset := halloc.setSlot (k := k)
      (p := { u.proc k with sz := 4096, cwd := cwd, state := .runnable }) rfl
      fun _ => by simp [allocproc_slot hk]
    exact ⟨hset.above, hset.inUse, hset.distinct, hset.next⟩

theorem step {l : ProcStep} (h : t.Numbered) (hstep : Ptable.step l t = some t') :
    t'.Numbered := by
  cases l with
  | userinit cwd =>
    obtain ⟨-, hstep⟩ := ite_none_right_eq_some.mp hstep
    exact h.userinit hstep
  | allocproc kalloc =>
    obtain ⟨-, ⟨⟩⟩ := ite_none_right_eq_some.mp hstep
    exact h.allocproc kalloc
  | fork q kalloc copyuvm =>
    obtain ⟨-, ⟨⟩⟩ := ite_none_right_eq_some.mp hstep
    exact h.fork kalloc copyuvm
  | exit q =>
    obtain ⟨hq, hstep⟩ := ite_none_right_eq_some.mp hstep
    exact h.exit (by simp [hq]) hstep
  | wait q =>
    obtain ⟨-, hstep⟩ := ite_none_right_eq_some.mp hstep
    obtain ⟨⟨t'', pid⟩, hwait, rfl⟩ := map_eq_some_iff.mp hstep
    exact h.wait hwait
  | sched q state killed =>
    obtain ⟨hq, ⟨⟩⟩ := ite_none_right_eq_some.mp hstep
    refine h.setSlot rfl fun _ hunused => ?_
    rw [hunused] at hq
    simp [ProcState.living] at hq
  | user q sz ofile cwd =>
    obtain ⟨-, ⟨⟩⟩ := ite_none_right_eq_some.mp hstep
    exact h.setSlot rfl id

theorem run {ls : List ProcStep} (hrun : runFrom Ptable.step ls .empty = some t) : t.Numbered :=
  runFrom_invariant (fun _ _ _ h hstep => step h hstep) empty hrun

/-- The slot with index `p` never has pid `p`. -/
theorem getProc_ne {p : Nat} {j : Fin NPROC} (h : t.Numbered) (hp : 0 < p)
    (hj : getProc p = some j) : (t.proc j).pid ≠ p := by
  unfold getProc at hj
  split at hj
  · cases hj
    intro heq
    rcases h.above ⟨p, by assumption⟩ with hz | hlt
    · rw [heq] at hz
      omega
    · rw [heq] at hlt
      simp at hlt
  · simp at hj

end Ptable.Numbered

end Xv6
