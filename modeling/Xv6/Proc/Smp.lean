import Xv6.Proc.Table

/-!
# Processes on several CPUs

`proc.c` on any number of CPUs, with `ptable.lock` taken by one thread of control and released by
another. A section under `ptable.lock` is one step where nothing else happens in it; it is cut
where control goes from one stack to another and where `sleep` has given up one lock and not yet
gone to sleep. A process is preempted wherever it holds no spinlock, also in the middle of `fork`
and at the end of `sleep`. What the processes do outside `proc.c` is left open, but for the other
spinlocks that they take.

The model keeps a history of what has happened. No step reads it.
-/

namespace Xv6

open Function Option

open Lib

/-- What a process waits for: a process, in `wait`, or an object at some other address. -/
inductive Chan where
  | proc (k : Fin NPROC)
  | addr (a : Nat)
  deriving DecidableEq, Repr

/-- A spinlock. -/
inductive Lk where
  | ptable
  | addr (l : Nat)
  deriving DecidableEq, Repr

/-- Where the kernel thread of a process stands. -/
inductive Pc where
  /-- Outside `proc.c`. -/
  | out
  /-- In `forkret`, or in `yield` after `sched`: `ptable.lock` is to be released, and the thread
  goes on at `pc`. -/
  | back (pc : Pc)
  /-- In `sleep`, with `ptable.lock` and the lock `lk`. -/
  | sleep (chan : Chan) (lk : Nat)
  /-- In `sleep`, with `ptable.lock` only. -/
  | drowsy (chan : Chan) (lk : Lk)
  /-- In the `sched` of `sleep`. -/
  | asleep (chan : Chan) (lk : Lk)
  /-- At the end of `sleep`: `lk` is to be acquired again. -/
  | relock (lk : Nat)
  /-- In `wait`, before the scan of the table. -/
  | wait
  /-- In `allocproc`, without a kernel stack for the new process. -/
  | embryo (k : Fin NPROC)
  /-- In `fork`, before `copyuvm`. -/
  | copy (k : Fin NPROC)
  /-- In `fork`, before the new process is made runnable. -/
  | born (k : Fin NPROC)
  /-- There is no thread, or it is in the `sched` of `exit`. -/
  | dead
  deriving DecidableEq, Repr

/-- Whether a thread that runs there has `ptable.lock`. -/
def Pc.locked : Pc → Bool
  | .back _ | .sleep .. | .drowsy .. | .asleep .. | .wait => true
  | _ => false

/-- The process that a thread is about to create, and whether it has a parent yet. -/
def Pc.task : Pc → Option (Fin NPROC × Bool)
  | .embryo k | .copy k => some (k, false)
  | .born k => some (k, true)
  | .back pc => pc.task
  | _ => none

/-- The process that a thread is about to create. -/
def Pc.child (pc : Pc) : Option (Fin NPROC) := pc.task.map Prod.fst

/-- `struct cpu` (`proc.h:5-18`), with the stack that the CPU is on (`none` for that of the
scheduler), the page table that is loaded (`none` for `kpgdir`), and the loop variable of
`scheduler`. `ncli` counts the spinlocks held other than `ptable.lock`. -/
structure Cpu where
  proc : Option (Fin NPROC)
  stack : Option (Fin NPROC)
  cr3 : Option (Fin NPROC)
  next : Nat
  ncli : Nat

/-- Who does something: a process, or a CPU on which no process runs. -/
inductive Who where
  | cpu (c : Nat)
  | proc (p : Fin NPROC)
  deriving DecidableEq, Repr

/-- What has happened. Processes that are created and reaped are named by their pids, because slots
are used again. -/
inductive ProcEvent where
  /-- `p` has called `sleep(chan, lk)`. -/
  | sleep (p : Fin NPROC) (chan : Chan) (lk : Lk)
  /-- The call of `sleep` by `p` has been woken up and goes on. -/
  | returned (p : Fin NPROC)
  | acquired (w : Who) (lk : Lk)
  /-- `wakeup(chan)` is done. -/
  | woke (w : Who) (chan : Chan)
  /-- `fork` in process `f` has made process `c`. -/
  | forked (f c : Int)
  | exited (pid : Int)
  /-- `wait` in process `w` returns a pid, or -1. -/
  | waited (w : Int) (pid : Option Int)
  deriving DecidableEq, Repr

/-- The processes, the CPUs and the locks. -/
structure Smp where
  ptable : Ptable
  chan : Fin NPROC → Option Chan
  /-- The slots with a kernel stack. -/
  kstack : Fin NPROC → Bool
  /-- The slots with a page table. -/
  pgdir : Fin NPROC → Bool
  pc : Fin NPROC → Pc
  cpu : Nat → Cpu
  /-- The CPU that has `ptable.lock`. -/
  lock : Option Nat
  /-- The CPU that has another lock. -/
  holder : Nat → Option Nat
  hist : List ProcEvent

namespace Ptable

/-- `p->state = state`. -/
def setState (t : Ptable) (k : Fin NPROC) (state : ProcState) : Ptable :=
  t.set k { t.proc k with state := state }

/-- `wakeup1` (`proc.c:388-396`). -/
def wakeup1 (t : Ptable) (chans : Fin NPROC → Option Chan) (chan : Option Chan) : Ptable :=
  { t with proc := fun k =>
      if (t.proc k).state = .sleeping ∧ chans k = chan then { t.proc k with state := .runnable }
      else t.proc k }

/-- `kill` (`proc.c:410-428`) and whether it returns 0; its loop is that of `getProcByPID`. -/
def kill (t : Ptable) (pid : Int) : Ptable × Bool :=
  match t.getProcByPID pid with
  | none => (t, false)
  | some k => (t.set k { t.proc k with
      killed := true
      state := if (t.proc k).state = .sleeping then .runnable else (t.proc k).state }, true)

/-- What `fork` by the process in slot `q` copies to slot `k` (`proc.c:144-155`). -/
def inherit (t : Ptable) (q k : Fin NPROC) : Proc :=
  { t.proc k with
    sz := (t.proc q).sz
    parent := some q
    ofile := fun i => match (t.proc q).ofile i with
      | some f => some f
      | none => (t.proc k).ofile i
    cwd := (t.proc q).cwd }

/-- The zombie child that `wait` finds. -/
def zombie (t : Ptable) (q : Fin NPROC) : Option (Fin NPROC) :=
  (List.finRange NPROC).find? fun k =>
    decide ((t.proc k).parent = some q ∧ (t.proc k).state = .zombie)

/-- Whether `wait` sets `havekids`. -/
def havekids (t : Ptable) (q : Fin NPROC) : Bool :=
  (List.finRange NPROC).any fun k => decide ((t.proc k).parent = some q)

/-- `wait` frees the slot that it finds (`proc.c:231-243`). -/
def reap (t : Ptable) (k : Fin NPROC) : Ptable :=
  t.set k { t.proc k with state := .unused, pid := 0, parent := none, killed := false }

/-- The steps of `fork` one after another. -/
theorem fork_eq_inherit {t u : Ptable} {q k : Fin NPROC} (h : t.allocproc true = (u, some k)) :
    t.fork q true true =
      (u.set k { u.inherit q k with state := .runnable }, some k) := by
  simp only [fork, h, if_true]
  rfl

theorem wait_eq_reap (t : Ptable) (q : Fin NPROC) :
    t.wait q = (t.zombie q).map fun k => (t.reap k, (t.proc k).pid) := rfl

end Ptable

namespace Smp

/-- Who the CPU works for. -/
def who (m : Smp) (c : Nat) : Who :=
  match (m.cpu c).stack with
  | none => .cpu c
  | some p => .proc p

/-- The thread on the CPU, if it is outside `proc.c`. -/
def thread (m : Smp) (c : Nat) : Option (Fin NPROC) :=
  (m.cpu c).stack.filter fun p => m.pc p = .out

/-- Whether code outside `proc.c` may run on the CPU: that of a process, what `fork` calls, or an
interrupt handler. -/
def idle (m : Smp) (c : Nat) : Bool :=
  match (m.cpu c).stack with
  | none => decide (m.lock ≠ some c)
  | some p => !(m.pc p).locked

/-- Move the thread of a process. -/
def setPc (m : Smp) (p : Fin NPROC) (pc : Pc) : Smp :=
  { m with pc := update m.pc p pc }

/-- Something has happened. -/
def log (m : Smp) (es : List ProcEvent) : Smp := { m with hist := m.hist ++ es }

/-- `sched` on CPU `c` by process `p`: the scheduler goes on behind the slot of `p`, with
`ptable.lock` (`proc.c:286-291`, `299-315`). -/
def sched (m : Smp) (c : Nat) (p : Fin NPROC) : Smp :=
  { m with
    cpu := update m.cpu c
      { proc := none, stack := none, cr3 := none, next := p + 1, ncli := (m.cpu c).ncli }
    lock := some c }

/-- The scheduler on CPU `c` switches to process `k` (`proc.c:281-285`). -/
def dispatch (m : Smp) (c : Nat) (k : Fin NPROC) : Smp :=
  { m with
    ptable := m.ptable.setState k .running
    cpu := update m.cpu c
      { proc := some k, stack := some k, cr3 := some k, next := k, ncli := (m.cpu c).ncli } }

/-- `acquire` of a lock other than `ptable.lock`. -/
def takeLock (m : Smp) (c l : Nat) : Smp :=
  { m with
    holder := update m.holder l (some c)
    cpu := update m.cpu c { m.cpu c with ncli := (m.cpu c).ncli + 1 } }

/-- `release` of a lock other than `ptable.lock`. -/
def dropLock (m : Smp) (c l : Nat) : Smp :=
  { m with
    holder := update m.holder l none
    cpu := update m.cpu c { m.cpu c with ncli := (m.cpu c).ncli - 1 } }

/-- Whether `exit` finds a zombie among the children (`proc.c:202-205`). -/
def orphaned (m : Smp) (p : Fin NPROC) : Bool :=
  (List.finRange NPROC).any fun k =>
    decide ((m.ptable.proc k).parent = some p ∧ (m.ptable.proc k).state = .zombie)

/-- What `exit` by `p` wakes up: its parent, and the initial process if it leaves a zombie to it. -/
def exitChans (m : Smp) (p : Fin NPROC) : List Chan :=
  (((m.ptable.proc p).parent.map Chan.proc).toList) ++
    if m.orphaned p then (m.ptable.initproc.map Chan.proc).toList else []

/-- Several calls of `wakeup1`. -/
def wakeAll (m : Smp) (chans : List Chan) : Ptable :=
  chans.foldl (fun t chan => t.wakeup1 m.chan (some chan)) m.ptable

/-- `exit` from the acquisition of `ptable.lock` on (`proc.c:195-212`); `none` is the panic. The
file descriptors and the directory have been given back. -/
def exit (m : Smp) (c : Nat) (p : Fin NPROC) : Option Smp :=
  ((m.wakeAll (m.exitChans p)).exit p).map fun t =>
    ((({ m with ptable := t }).setPc p .dead).sched c p).log
      (ProcEvent.acquired (m.who c) .ptable :: (m.exitChans p).map (ProcEvent.woke (m.who c)) ++
        [ProcEvent.exited (m.ptable.proc p).pid])

/-- One round of the loop of `wait` (`proc.c:223-253`). -/
def scanWait (m : Smp) (p : Fin NPROC) : Smp :=
  match m.ptable.zombie p with
  | some k =>
    (({ m with
      ptable := m.ptable.reap k
      kstack := update m.kstack k false
      pgdir := update m.pgdir k false
      lock := none }).setPc p .out).log
        [.waited (m.ptable.proc p).pid (some (m.ptable.proc k).pid)]
  | none =>
    if m.ptable.havekids p = false ∨ (m.ptable.proc p).killed = true then
      (({ m with lock := none }).setPc p .out).log [.waited (m.ptable.proc p).pid none]
    else
      (m.setPc p (.drowsy (.proc p) .ptable)).log [.sleep p (.proc p) .ptable]

/-- What a CPU does next. -/
inductive Op where
  /-- `scheduler` acquires `ptable.lock`. -/
  | scan
  /-- `scheduler` looks at the next slot, or releases `ptable.lock` behind the last one. -/
  | look
  /-- The thread that the scheduler has switched to goes on. -/
  | resume
  | yield
  | acquire (l : Nat)
  | release (l : Nat)
  /-- `sleep` up to the acquisition of `ptable.lock`. -/
  | sleep (chan : Chan) (l : Nat)
  /-- `sleep` releases the lock it was called with. -/
  | unlock
  /-- `sleep` puts the process to sleep. -/
  | doze
  /-- `sleep` acquires the lock it was called with. -/
  | relock
  | wakeup (chan : Chan)
  | kill (pid : Int)
  /-- `fork` up to the release of `ptable.lock` in `allocproc`. -/
  | fork
  /-- `allocproc` gets a page for the kernel stack, or none. -/
  | kalloc (ok : Bool)
  /-- `fork` copies the address space and the rest, or fails. -/
  | copyuvm (ok : Bool)
  /-- `fork` makes the new process runnable. -/
  | ready
  | exit
  /-- `wait` acquires `ptable.lock`. -/
  | wait
  /-- `wait` scans the table. -/
  | reap
  deriving DecidableEq, Repr

/-- One step on CPU `c`; `none` when it cannot happen, which includes spinning on a lock that is
taken, and the panics of `sched`, `switchuvm` and `exit`. Pids stay below `2 ^ 31`. -/
def step : Nat × Op → Smp → Option Smp
  | (c, .scan), m =>
    if m.lock = none ∧ (m.cpu c).stack = none ∧ (m.cpu c).ncli = 0 then
      some { m with
        lock := some c
        cpu := update m.cpu c { m.cpu c with next := 0 } }
    else none
  | (c, .look), m =>
    if m.lock = some c ∧ (m.cpu c).stack = none then
      if h : (m.cpu c).next < NPROC then
        if (m.ptable.proc ⟨(m.cpu c).next, h⟩).state = .runnable then
          if m.pgdir ⟨(m.cpu c).next, h⟩ then some (m.dispatch c ⟨(m.cpu c).next, h⟩) else none
        else
          some { m with
            cpu := update m.cpu c { m.cpu c with next := (m.cpu c).next + 1 } }
      else some { m with lock := none }
    else none
  | (c, .resume), m =>
    match (m.cpu c).stack with
    | none => none
    | some p =>
      match m.pc p with
      | .back pc => some (({ m with lock := none }).setPc p pc)
      | .asleep _ .ptable =>
        some ((({ m with chan := update m.chan p none }).setPc p .wait).log [.returned p])
      | .asleep _ (.addr l) =>
        some ((({ m with
          chan := update m.chan p none
          lock := none }).setPc p (.relock l)).log [.returned p])
      | _ => none
  | (c, .yield), m =>
    match (m.cpu c).stack with
    | none => none
    | some p =>
      if (m.pc p).locked = false ∧ m.lock = none ∧ (m.cpu c).ncli = 0 then
        some ((({ m with ptable := m.ptable.setState p .runnable }).setPc p
          (.back (m.pc p))).sched c p)
      else none
  | (c, .acquire l), m =>
    if m.idle c = true ∧ m.holder l = none then
      some ((m.takeLock c l).log [.acquired (m.who c) (.addr l)])
    else none
  | (c, .release l), m =>
    if m.idle c = true ∧ m.holder l = some c then some (m.dropLock c l) else none
  | (c, .sleep chan l), m =>
    match m.thread c with
    | none => none
    | some p =>
      if m.lock = none ∧ m.holder l = some c then
        some ((({ m with lock := some c }).setPc p (.sleep chan l)).log [.sleep p chan (.addr l)])
      else none
  | (c, .unlock), m =>
    match (m.cpu c).stack with
    | none => none
    | some p =>
      match m.pc p with
      | .sleep chan l => some ((m.dropLock c l).setPc p (.drowsy chan (.addr l)))
      | _ => none
  | (c, .doze), m =>
    match (m.cpu c).stack with
    | none => none
    | some p =>
      match m.pc p with
      | .drowsy chan lk =>
        if (m.cpu c).ncli = 0 then
          some ((({ m with
            ptable := m.ptable.setState p .sleeping
            chan := update m.chan p (some chan) }).setPc p (.asleep chan lk)).sched c p)
        else none
      | _ => none
  | (c, .relock), m =>
    match (m.cpu c).stack with
    | none => none
    | some p =>
      match m.pc p with
      | .relock l =>
        if m.holder l = none then
          some (((m.takeLock c l).setPc p .out).log [.acquired (m.who c) (.addr l)])
        else none
      | _ => none
  | (c, .wakeup chan), m =>
    if m.idle c = true ∧ m.lock = none then
      some (({ m with ptable := m.ptable.wakeup1 m.chan (some chan) }).log
        [.acquired (m.who c) .ptable, .woke (m.who c) chan])
    else none
  | (c, .kill pid), m =>
    if m.idle c = true ∧ m.lock = none then
      some { m with ptable := (m.ptable.kill pid).1 }
    else none
  | (c, .fork), m =>
    match m.thread c with
    | none => none
    | some p =>
      if m.lock = none ∧ (m.cpu c).ncli = 0 ∧ m.ptable.nextpid < 2 ^ 31 - 1 then
        match m.ptable.allocproc true with
        | (t, none) => some { m with ptable := t }
        | (t, some k) => some (({ m with ptable := t }).setPc p (.embryo k))
      else none
  | (c, .kalloc ok), m =>
    match (m.cpu c).stack with
    | none => none
    | some p =>
      match m.pc p with
      | .embryo k =>
        if ok then some (({ m with kstack := update m.kstack k true }).setPc p (.copy k))
        else some (({ m with ptable := m.ptable.setState k .unused }).setPc p .out)
      | _ => none
  | (c, .copyuvm ok), m =>
    match (m.cpu c).stack with
    | none => none
    | some p =>
      match m.pc p with
      | .copy k =>
        if ok then
          some (({ m with
            pgdir := update m.pgdir k true
            ptable := m.ptable.set k (m.ptable.inherit p k) }).setPc p (.born k))
        else
          some (({ m with
            kstack := update m.kstack k false
            ptable := m.ptable.setState k .unused }).setPc p .out)
      | _ => none
  | (c, .ready), m =>
    match (m.cpu c).stack with
    | none => none
    | some p =>
      match m.pc p with
      | .born k =>
        if m.lock = none then
          some (((({ m with ptable := m.ptable.setState k .runnable }).setPc k
            (.back .out)).setPc p .out).log [.forked (m.ptable.proc p).pid (m.ptable.proc k).pid])
        else none
      | _ => none
  | (c, .exit), m =>
    match m.thread c with
    | none => none
    | some p => if m.lock = none ∧ (m.cpu c).ncli = 0 then m.exit c p else none
  | (c, .wait), m =>
    match m.thread c with
    | none => none
    | some p =>
      if m.lock = none ∧ (m.cpu c).ncli = 0 then
        some ((({ m with lock := some c }).setPc p .wait).log [.acquired (m.who c) .ptable])
      else none
  | (c, .reap), m =>
    match (m.cpu c).stack with
    | none => none
    | some p => if m.pc p = .wait then some (m.scanWait p) else none

/-! ## What a step can do -/

/-- The state of a process. -/
def state (m : Smp) (k : Fin NPROC) : ProcState := (m.ptable.proc k).state

/-- What CPU `c` can do, with what is known when it happens. -/
inductive Does (m : Smp) (c : Nat) : Op → Smp → Prop
  | scan (hlock : m.lock = none) (hstack : (m.cpu c).stack = none) :
      Does m c .scan { m with
        lock := some c
        cpu := update m.cpu c { m.cpu c with next := 0 } }
  | skip (hlock : m.lock = some c) (hstack : (m.cpu c).stack = none) :
      Does m c .look { m with
        cpu := update m.cpu c { m.cpu c with next := (m.cpu c).next + 1 } }
  | done (hlock : m.lock = some c) (hstack : (m.cpu c).stack = none) :
      Does m c .look { m with lock := none }
  | dispatch (k : Fin NPROC) (hlock : m.lock = some c) (hstack : (m.cpu c).stack = none)
      (hstate : m.state k = .runnable) : Does m c .look (m.dispatch c k)
  | back (p : Fin NPROC) (pc : Pc) (hstack : (m.cpu c).stack = some p) (hpc : m.pc p = .back pc) :
      Does m c .resume (({ m with lock := none }).setPc p pc)
  | rescan (p : Fin NPROC) (chan : Chan) (hstack : (m.cpu c).stack = some p)
      (hpc : m.pc p = .asleep chan .ptable) :
      Does m c .resume ((({ m with chan := update m.chan p none }).setPc p .wait).log
        [.returned p])
  | resume (p : Fin NPROC) (chan : Chan) (l : Nat) (hstack : (m.cpu c).stack = some p)
      (hpc : m.pc p = .asleep chan (.addr l)) :
      Does m c .resume ((({ m with
        chan := update m.chan p none
        lock := none }).setPc p (.relock l)).log [.returned p])
  | yield (p : Fin NPROC) (hstack : (m.cpu c).stack = some p) (hpc : (m.pc p).locked = false)
      (hlock : m.lock = none) :
      Does m c .yield ((({ m with ptable := m.ptable.setState p .runnable }).setPc p
        (.back (m.pc p))).sched c p)
  | acquire (l : Nat) (hidle : m.idle c = true) (hfree : m.holder l = none) :
      Does m c (.acquire l) ((m.takeLock c l).log [.acquired (m.who c) (.addr l)])
  | release (l : Nat) (hidle : m.idle c = true) (hheld : m.holder l = some c) :
      Does m c (.release l) (m.dropLock c l)
  | sleep (p : Fin NPROC) (chan : Chan) (l : Nat) (hstack : (m.cpu c).stack = some p)
      (hpc : m.pc p = .out) (hlock : m.lock = none) (hheld : m.holder l = some c) :
      Does m c (.sleep chan l) ((({ m with lock := some c }).setPc p (.sleep chan l)).log
        [.sleep p chan (.addr l)])
  | unlock (p : Fin NPROC) (chan : Chan) (l : Nat) (hstack : (m.cpu c).stack = some p)
      (hpc : m.pc p = .sleep chan l) :
      Does m c .unlock ((m.dropLock c l).setPc p (.drowsy chan (.addr l)))
  | doze (p : Fin NPROC) (chan : Chan) (lk : Lk) (hstack : (m.cpu c).stack = some p)
      (hpc : m.pc p = .drowsy chan lk) :
      Does m c .doze ((({ m with
        ptable := m.ptable.setState p .sleeping
        chan := update m.chan p (some chan) }).setPc p (.asleep chan lk)).sched c p)
  | relock (p : Fin NPROC) (l : Nat) (hstack : (m.cpu c).stack = some p)
      (hpc : m.pc p = .relock l) (hfree : m.holder l = none) :
      Does m c .relock (((m.takeLock c l).setPc p .out).log [.acquired (m.who c) (.addr l)])
  | wakeup (chan : Chan) (hidle : m.idle c = true) (hlock : m.lock = none) :
      Does m c (.wakeup chan) (({ m with ptable := m.ptable.wakeup1 m.chan (some chan) }).log
        [.acquired (m.who c) .ptable, .woke (m.who c) chan])
  | kill (pid : Int) (hidle : m.idle c = true) (hlock : m.lock = none) :
      Does m c (.kill pid) { m with ptable := (m.ptable.kill pid).1 }
  | full : Does m c .fork m
  | fork (p k : Fin NPROC) (t : Ptable) (hstack : (m.cpu c).stack = some p)
      (hpc : m.pc p = .out) (hlock : m.lock = none)
      (halloc : m.ptable.allocproc true = (t, some k)) :
      Does m c .fork (({ m with ptable := t }).setPc p (.embryo k))
  | kalloc {ok : Bool} (p k : Fin NPROC) (hstack : (m.cpu c).stack = some p)
      (hpc : m.pc p = .embryo k) :
      Does m c (.kalloc ok)
        (({ m with kstack := update m.kstack k true }).setPc p (.copy k))
  | noStack {ok : Bool} (p k : Fin NPROC) (hstack : (m.cpu c).stack = some p)
      (hpc : m.pc p = .embryo k) :
      Does m c (.kalloc ok) (({ m with ptable := m.ptable.setState k .unused }).setPc p .out)
  | copyuvm {ok : Bool} (p k : Fin NPROC) (hstack : (m.cpu c).stack = some p)
      (hpc : m.pc p = .copy k) :
      Does m c (.copyuvm ok) (({ m with
        pgdir := update m.pgdir k true
        ptable := m.ptable.set k (m.ptable.inherit p k) }).setPc p (.born k))
  | noCopy {ok : Bool} (p k : Fin NPROC) (hstack : (m.cpu c).stack = some p)
      (hpc : m.pc p = .copy k) :
      Does m c (.copyuvm ok) (({ m with
        kstack := update m.kstack k false
        ptable := m.ptable.setState k .unused }).setPc p .out)
  | ready (p k : Fin NPROC) (hstack : (m.cpu c).stack = some p) (hpc : m.pc p = .born k)
      (hlock : m.lock = none) :
      Does m c .ready (((({ m with ptable := m.ptable.setState k .runnable }).setPc k
        (.back .out)).setPc p .out).log [.forked (m.ptable.proc p).pid (m.ptable.proc k).pid])
  | exit (p : Fin NPROC) (m' : Smp) (hstack : (m.cpu c).stack = some p) (hpc : m.pc p = .out)
      (hlock : m.lock = none) (hexit : m.exit c p = some m') : Does m c .exit m'
  | wait (p : Fin NPROC) (hstack : (m.cpu c).stack = some p) (hpc : m.pc p = .out)
      (hlock : m.lock = none) :
      Does m c .wait ((({ m with lock := some c }).setPc p .wait).log [.acquired (m.who c) .ptable])
  | reap (p : Fin NPROC) (hstack : (m.cpu c).stack = some p) (hpc : m.pc p = .wait) :
      Does m c .reap (m.scanWait p)

theorem thread_eq_some {m : Smp} {c : Nat} {p : Fin NPROC} :
    m.thread c = some p ↔ (m.cpu c).stack = some p ∧ m.pc p = .out := by
  simp only [thread, Option.filter_eq_some_iff, decide_eq_true_eq]

theorem allocproc_none {t u : Ptable} (h : t.allocproc true = (u, none)) : u = t := by
  unfold Ptable.allocproc at h
  split at h
  · exact (Prod.mk.inj h).1.symm
  · simp at h

/-- The inversion rule of `step`. -/
theorem does_of_step {m m' : Smp} {c : Nat} {op : Op} (h : step (c, op) m = some m') :
    Does m c op m' := by
  cases op <;> simp only [step] at h
  case scan =>
    obtain ⟨⟨hlock, hstack, -⟩, ⟨⟩⟩ := ite_none_right_eq_some.mp h
    exact .scan hlock hstack
  case look =>
    simp only [ite_none_right_eq_some] at h
    obtain ⟨⟨hlock, hstack⟩, h⟩ := h
    split at h
    · rename_i hlt
      split at h
      · rename_i hstate
        obtain ⟨-, ⟨⟩⟩ := ite_none_right_eq_some.mp h
        exact .dispatch _ hlock hstack hstate
      · cases h
        exact .skip hlock hstack
    · cases h
      exact .done hlock hstack
  case resume =>
    split at h
    · simp at h
    · rename_i p hstack
      split at h
      · rename_i pc hpc
        cases h
        exact .back p pc hstack hpc
      · rename_i chan hpc
        cases h
        exact .rescan p chan hstack hpc
      · rename_i chan l hpc
        cases h
        exact .resume p chan l hstack hpc
      · simp at h
  case yield =>
    split at h
    · simp at h
    · rename_i p hstack
      obtain ⟨⟨hpc, hlock, -⟩, ⟨⟩⟩ := ite_none_right_eq_some.mp h
      exact .yield p hstack hpc hlock
  case acquire l =>
    obtain ⟨⟨hidle, hfree⟩, ⟨⟩⟩ := ite_none_right_eq_some.mp h
    exact .acquire l hidle hfree
  case release l =>
    obtain ⟨⟨hidle, hheld⟩, ⟨⟩⟩ := ite_none_right_eq_some.mp h
    exact .release l hidle hheld
  case sleep chan l =>
    split at h
    · simp at h
    · rename_i p hthread
      obtain ⟨hstack, hpc⟩ := thread_eq_some.mp hthread
      obtain ⟨⟨hlock, hheld⟩, ⟨⟩⟩ := ite_none_right_eq_some.mp h
      exact .sleep p chan l hstack hpc hlock hheld
  case unlock =>
    split at h
    · simp at h
    · rename_i p hstack
      split at h
      · rename_i chan l hpc
        cases h
        exact .unlock p chan l hstack hpc
      · simp at h
  case doze =>
    split at h
    · simp at h
    · rename_i p hstack
      split at h
      · rename_i chan lk hpc
        obtain ⟨-, ⟨⟩⟩ := ite_none_right_eq_some.mp h
        exact .doze p chan lk hstack hpc
      · simp at h
  case relock =>
    split at h
    · simp at h
    · rename_i p hstack
      split at h
      · rename_i l hpc
        obtain ⟨hfree, ⟨⟩⟩ := ite_none_right_eq_some.mp h
        exact .relock p l hstack hpc hfree
      · simp at h
  case wakeup chan =>
    obtain ⟨⟨hidle, hlock⟩, ⟨⟩⟩ := ite_none_right_eq_some.mp h
    exact .wakeup chan hidle hlock
  case kill pid =>
    obtain ⟨⟨hidle, hlock⟩, ⟨⟩⟩ := ite_none_right_eq_some.mp h
    exact .kill pid hidle hlock
  case fork =>
    split at h
    · simp at h
    · rename_i p hthread
      obtain ⟨hstack, hpc⟩ := thread_eq_some.mp hthread
      simp only [ite_none_right_eq_some] at h
      obtain ⟨⟨hlock, -⟩, h⟩ := h
      split at h
      · rename_i t halloc
        cases h
        rw [allocproc_none halloc]
        exact .full
      · rename_i t k halloc
        cases h
        exact .fork p k t hstack hpc hlock halloc
  case kalloc ok =>
    split at h
    · simp at h
    · rename_i p hstack
      split at h
      · rename_i k hpc
        split at h
        · cases h
          exact .kalloc p k hstack hpc
        · cases h
          exact .noStack p k hstack hpc
      · simp at h
  case copyuvm ok =>
    split at h
    · simp at h
    · rename_i p hstack
      split at h
      · rename_i k hpc
        split at h
        · cases h
          exact .copyuvm p k hstack hpc
        · cases h
          exact .noCopy p k hstack hpc
      · simp at h
  case ready =>
    split at h
    · simp at h
    · rename_i p hstack
      split at h
      · rename_i k hpc
        obtain ⟨hlock, ⟨⟩⟩ := ite_none_right_eq_some.mp h
        exact .ready p k hstack hpc hlock
      · simp at h
  case exit =>
    split at h
    · simp at h
    · rename_i p hthread
      obtain ⟨hstack, hpc⟩ := thread_eq_some.mp hthread
      simp only [ite_none_right_eq_some] at h
      obtain ⟨⟨hlock, -⟩, h⟩ := h
      exact .exit p m' hstack hpc hlock h
  case wait =>
    split at h
    · simp at h
    · rename_i p hthread
      obtain ⟨hstack, hpc⟩ := thread_eq_some.mp hthread
      obtain ⟨⟨hlock, -⟩, ⟨⟩⟩ := ite_none_right_eq_some.mp h
      exact .wait p hstack hpc hlock
  case reap =>
    split at h
    · simp at h
    · rename_i p hstack
      obtain ⟨hpc, ⟨⟩⟩ := ite_none_right_eq_some.mp h
      exact .reap p hstack hpc

/-- The state before the first scheduler runs: `main` has called `userinit`. -/
def boot (cwd : Option (Fin NINODE)) : Smp where
  ptable := .booted cwd
  chan := fun _ => none
  kstack := fun k => decide (k.val = 0)
  pgdir := fun k => decide (k.val = 0)
  pc := fun k => if k.val = 0 then .back .out else .dead
  cpu := fun _ => { proc := none, stack := none, cr3 := none, next := 0, ncli := 0 }
  lock := none
  holder := fun _ => none
  hist := []

/-- The states that can come about. -/
def Reachable (m : Smp) : Prop := ∃ cwd ls, runFrom step ls (boot cwd) = some m

end Smp

end Xv6
