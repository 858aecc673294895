import Xv6.File
import Xv6.Lib.Fifo
import Xv6.Proc.Current

/-!
# Pipes

`pipewrite`, `piperead` and `pipeclose` on one pipe by any number of processes on any number of
CPUs. The calls are cut wherever another CPU can do something in between; `sleep`, `wakeup` and the
spinlock of the pipe are those of the machine. The pipe has lock 0 and the channels 0 (`&nread`)
and 1 (`&nwrite`), which nobody else uses, because they are addresses in the page of the pipe.

The model keeps the bytes that were stored and those that were delivered. No step reads them.
-/

namespace Xv6

open Function Option

open Lib

/-- `PIPESIZE` (`pipe.c:10`). -/
def PIPESIZE : Nat := 512

instance : NeZero PIPESIZE := ⟨by decide⟩

/-- `struct pipe` (`pipe.c:12-19`). -/
structure PipeBuf extends Pipe, Fifo UInt8 PIPESIZE 32

namespace PipeBuf

/-- `p->nwrite == p->nread + PIPESIZE`. -/
def full (b : PipeBuf) : Bool := decide (b.nwrite = b.nread + BitVec.ofNat 32 PIPESIZE)

/-- `p->nread == p->nwrite`. -/
def empty (b : PipeBuf) : Bool := decide (b.nread = b.nwrite)

/-- `p->data[p->nwrite++ % PIPESIZE] = x`. -/
def put (b : PipeBuf) (x : UInt8) : PipeBuf := { b with toFifo := b.toFifo.push x }

/-- `p->data[p->nread++ % PIPESIZE]`, the counter. -/
def take (b : PipeBuf) : PipeBuf := { b with toFifo := b.toFifo.pop }

/-- The first assignment of `pipeclose`. -/
def close (b : PipeBuf) (writable : Bool) : PipeBuf :=
  if writable then { b with writeopen := false } else { b with readopen := false }

end PipeBuf

/-- `&p->nread` for true, `&p->nwrite` for false. -/
def pipeChan (nread : Bool) : Chan := if nread then .addr 0 else .addr 1

/-- Where a process stands in `pipe.c`, or where it goes on when `sleep` returns. -/
inductive PipePc where
  | out
  /-- `pipewrite` before the test `i < n`, or before the test of the inner loop. -/
  | write (n : Int) (addr : Nat → UInt8) (i : Nat)
  /-- `pipewrite` has found the pipe full: `wakeup(&p->nread)` comes next. -/
  | writeFull (n : Int) (addr : Nat → UInt8) (i : Nat)
  /-- `sleep(&p->nwrite, &p->lock)` comes next. -/
  | writeSleep (n : Int) (addr : Nat → UInt8) (i : Nat)
  /-- `piperead` before the test of the first loop. -/
  | read (n : Int)
  /-- `sleep(&p->nread, &p->lock)` comes next. -/
  | readSleep (n : Int)
  /-- `piperead` before the test `i < n`. -/
  | copy (n : Int) (i : Nat)
  /-- `pipeclose` with the lock. -/
  | close (writable : Bool)
  /-- The last `wakeup` of a call that returns `r`. -/
  | wake (nread : Bool) (r : Int)
  /-- `release(&p->lock)` and `return r`. -/
  | leave (r : Int)

/-- Whether the process is outside `pipe.c`. -/
def PipePc.isOut : PipePc → Bool
  | .out => true
  | _ => false

/-- The machine and the pipe. The write end of the pipe is `true`, the read end `false`. -/
structure PipeSys where
  sys : Smp
  pipe : PipeBuf
  pos : Fin NPROC → PipePc
  /-- The ends that are open in some process. -/
  ref : Bool → Bool
  /-- The end that a process reads or writes. -/
  fd : Fin NPROC → Option Bool
  /-- What the last call returned. -/
  ret : Fin NPROC → Int
  stored : List UInt8
  delivered : List UInt8

/-- What a CPU does next. -/
inductive PipeOp where
  | pipewrite (n : Int) (addr : Nat → UInt8)
  | piperead (n : Int)
  | pipeclose (writable : Bool)
  /-- The next step of the call that the process on the CPU is in. -/
  | go
  /-- Something outside `pipe.c`. -/
  | sys (op : Smp.Op)

/-- Whether something outside `pipe.c` can be this: it leaves the lock and the channels of the pipe
alone. -/
def Smp.Op.foreign : Smp.Op → Bool
  | .acquire l | .release l => l ≠ 0
  | .sleep chan l => l ≠ 0 ∧ chan ≠ pipeChan true ∧ chan ≠ pipeChan false
  | .wakeup chan => chan ≠ pipeChan true ∧ chan ≠ pipeChan false
  | _ => true

namespace PipeSys

/-- The process goes on elsewhere. -/
def move (s : PipeSys) (p : Fin NPROC) (pos : PipePc) : PipeSys :=
  { s with pos := update s.pos p pos }

/-- A call that begins with `acquire(&p->lock)`. -/
def enter (s : PipeSys) (c : Nat) (p : Fin NPROC) (pos : PipePc) : Option PipeSys :=
  (Smp.step (c, .acquire 0) s.sys).map fun m => ({ s with sys := m }).move p pos

/-- The next step of process `p` in `pipewrite` (`pipe.c:77-97`), `piperead` (`pipe.c:99-120`) or
`pipeclose` (`pipe.c:57-74`). -/
def go (s : PipeSys) (c : Nat) (p : Fin NPROC) : Option PipeSys :=
  match s.pos p with
  | .out => none
  | .write n addr i =>
    if (i : Int) < n then
      if s.pipe.full then
        if s.pipe.readopen = false ∨ (s.sys.ptable.proc p).killed = true then
          some (s.move p (.leave (-1)))
        else some (s.move p (.writeFull n addr i))
      else
        some (({ s with
          pipe := s.pipe.put (addr i)
          stored := s.stored ++ [addr i] }).move p (.write n addr (i + 1)))
    else some (s.move p (.wake true n))
  | .writeFull n addr i =>
    (Smp.step (c, .wakeup (pipeChan true)) s.sys).map fun m =>
      ({ s with sys := m }).move p (.writeSleep n addr i)
  | .writeSleep n addr i =>
    (Smp.step (c, .sleep (pipeChan false) 0) s.sys).map fun m =>
      ({ s with sys := m }).move p (.write n addr i)
  | .read n =>
    if s.pipe.empty = true ∧ s.pipe.writeopen = true then
      if (s.sys.ptable.proc p).killed = true then some (s.move p (.leave (-1)))
      else some (s.move p (.readSleep n))
    else some (s.move p (.copy n 0))
  | .readSleep n =>
    (Smp.step (c, .sleep (pipeChan true) 0) s.sys).map fun m =>
      ({ s with sys := m }).move p (.read n)
  | .copy n i =>
    if (i : Int) < n then
      if s.pipe.empty then some (s.move p (.wake false i))
      else
        some (({ s with
          pipe := s.pipe.take
          delivered := s.delivered ++ [s.pipe.front] }).move p (.copy n (i + 1)))
    else some (s.move p (.wake false i))
  | .close writable =>
    some (({ s with pipe := s.pipe.close writable }).move p (.wake writable 0))
  | .wake nread r =>
    (Smp.step (c, .wakeup (pipeChan nread)) s.sys).map fun m =>
      ({ s with sys := m }).move p (.leave r)
  | .leave r =>
    (Smp.step (c, .release 0) s.sys).map fun m =>
      ({ s with
        sys := m
        fd := update s.fd p none
        ret := update s.ret p r }).move p .out

/-- One step on CPU `c`. An end is closed when the last descriptor for it goes, so that no process
is in a call on that end and none comes after. -/
def step : Nat × PipeOp → PipeSys → Option PipeSys
  | (c, .pipewrite n addr), s =>
    match s.sys.thread c with
    | none => none
    | some p =>
      if (s.pos p).isOut = true ∧ s.ref true = true then
        ({ s with fd := update s.fd p (some true) }).enter c p (.write n addr 0)
      else none
  | (c, .piperead n), s =>
    match s.sys.thread c with
    | none => none
    | some p =>
      if (s.pos p).isOut = true ∧ s.ref false = true then
        ({ s with fd := update s.fd p (some false) }).enter c p (.read n)
      else none
  | (c, .pipeclose writable), s =>
    match s.sys.thread c with
    | none => none
    | some p =>
      if (s.pos p).isOut = true ∧ s.ref writable = true ∧ ∀ q, s.fd q ≠ some writable then
        ({ s with ref := update s.ref writable false }).enter c p (.close writable)
      else none
  | (c, .go), s =>
    match s.sys.thread c with
    | none => none
    | some p => s.go c p
  | (c, .sys op), s =>
    if op.foreign = true ∧ (s.sys.thread c).all (fun p => (s.pos p).isOut) = true then
      (Smp.step (c, op) s.sys).map fun m => { s with sys := m }
    else none

/-- What a CPU can do, with what is known when it happens. -/
inductive Does (s : PipeSys) (c : Nat) : PipeSys → Prop
  | call (p : Fin NPROC) (m : Smp) (pos : PipePc) (ref : Bool → Bool) (fd : Fin NPROC → Option Bool)
      (hthread : s.sys.thread c = some p) (hout : s.pos p = .out)
      (hpos : (∃ n addr, pos = .write n addr 0) ∨ (∃ n, pos = .read n) ∨ ∃ w, pos = .close w)
      (hstep : Smp.step (c, .acquire 0) s.sys = some m) :
      Does s c (({ s with sys := m, ref := ref, fd := fd }).move p pos)
  | quit (p : Fin NPROC) (n : Int) (addr : Nat → UInt8) (i : Nat)
      (hthread : s.sys.thread c = some p) (hpos : s.pos p = .write n addr i)
      (hlt : (i : Int) < n) (hfull : s.pipe.full = true)
      (hquit : s.pipe.readopen = false ∨ (s.sys.ptable.proc p).killed = true) :
      Does s c (s.move p (.leave (-1)))
  | fill (p : Fin NPROC) (n : Int) (addr : Nat → UInt8) (i : Nat)
      (hthread : s.sys.thread c = some p) (hpos : s.pos p = .write n addr i)
      (hfull : s.pipe.full = true) (hopen : s.pipe.readopen = true) :
      Does s c (s.move p (.writeFull n addr i))
  | store (p : Fin NPROC) (n : Int) (addr : Nat → UInt8) (i : Nat)
      (hthread : s.sys.thread c = some p) (hpos : s.pos p = .write n addr i)
      (hfull : s.pipe.full = false) :
      Does s c (({ s with
        pipe := s.pipe.put (addr i)
        stored := s.stored ++ [addr i] }).move p (.write n addr (i + 1)))
  | wrote (p : Fin NPROC) (n : Int) (addr : Nat → UInt8) (i : Nat)
      (hthread : s.sys.thread c = some p) (hpos : s.pos p = .write n addr i) :
      Does s c (s.move p (.wake true n))
  | wakeFull (p : Fin NPROC) (n : Int) (addr : Nat → UInt8) (i : Nat) (m : Smp)
      (hthread : s.sys.thread c = some p) (hpos : s.pos p = .writeFull n addr i)
      (hstep : Smp.step (c, .wakeup (pipeChan true)) s.sys = some m) :
      Does s c (({ s with sys := m }).move p (.writeSleep n addr i))
  | sleepFull (p : Fin NPROC) (n : Int) (addr : Nat → UInt8) (i : Nat) (m : Smp)
      (hthread : s.sys.thread c = some p) (hpos : s.pos p = .writeSleep n addr i)
      (hstep : Smp.step (c, .sleep (pipeChan false) 0) s.sys = some m) :
      Does s c (({ s with sys := m }).move p (.write n addr i))
  | readQuit (p : Fin NPROC) (n : Int)
      (hthread : s.sys.thread c = some p) (hpos : s.pos p = .read n) :
      Does s c (s.move p (.leave (-1)))
  | readEmpty (p : Fin NPROC) (n : Int)
      (hthread : s.sys.thread c = some p) (hpos : s.pos p = .read n)
      (hempty : s.pipe.empty = true) (hopen : s.pipe.writeopen = true) :
      Does s c (s.move p (.readSleep n))
  | readFound (p : Fin NPROC) (n : Int)
      (hthread : s.sys.thread c = some p) (hpos : s.pos p = .read n) :
      Does s c (s.move p (.copy n 0))
  | readSleep (p : Fin NPROC) (n : Int) (m : Smp)
      (hthread : s.sys.thread c = some p) (hpos : s.pos p = .readSleep n)
      (hstep : Smp.step (c, .sleep (pipeChan true) 0) s.sys = some m) :
      Does s c (({ s with sys := m }).move p (.read n))
  | deliver (p : Fin NPROC) (n : Int) (i : Nat)
      (hthread : s.sys.thread c = some p) (hpos : s.pos p = .copy n i)
      (hempty : s.pipe.empty = false) :
      Does s c (({ s with
        pipe := s.pipe.take
        delivered := s.delivered ++ [s.pipe.front] }).move p (.copy n (i + 1)))
  | copied (p : Fin NPROC) (n : Int) (i : Nat)
      (hthread : s.sys.thread c = some p) (hpos : s.pos p = .copy n i) :
      Does s c (s.move p (.wake false i))
  | close (p : Fin NPROC) (writable : Bool)
      (hthread : s.sys.thread c = some p) (hpos : s.pos p = .close writable) :
      Does s c (({ s with pipe := s.pipe.close writable }).move p (.wake writable 0))
  | wake (p : Fin NPROC) (nread : Bool) (r : Int) (m : Smp)
      (hthread : s.sys.thread c = some p) (hpos : s.pos p = .wake nread r)
      (hstep : Smp.step (c, .wakeup (pipeChan nread)) s.sys = some m) :
      Does s c (({ s with sys := m }).move p (.leave r))
  | leave (p : Fin NPROC) (r : Int) (m : Smp) (fd : Fin NPROC → Option Bool) (ret : Fin NPROC → Int)
      (hthread : s.sys.thread c = some p) (hpos : s.pos p = .leave r)
      (hstep : Smp.step (c, .release 0) s.sys = some m) :
      Does s c (({ s with sys := m, fd := fd, ret := ret }).move p .out)
  | sys (op : Smp.Op) (m : Smp) (hforeign : op.foreign = true)
      (hout : ∀ p, s.sys.thread c = some p → s.pos p = .out)
      (hstep : Smp.step (c, op) s.sys = some m) : Does s c { s with sys := m }

variable {pos : PipePc} {s s' : PipeSys} {c : Nat} {p : Fin NPROC}

theorem isOut_iff : pos.isOut = true ↔ pos = .out := by
  cases pos <;> simp [PipePc.isOut]

theorem does_of_go (hthread : s.sys.thread c = some p) (h : s.go c p = some s') : Does s c s' := by
  unfold go at h
  split at h
  · simp at h
  · rename_i n addr i hpos
    split at h
    · rename_i hlt
      split at h
      · rename_i hfull
        split at h
        · rename_i hquit
          exact some.inj h ▸ .quit p n addr i hthread hpos hlt hfull hquit
        · rename_i hquit
          have hopen : s.pipe.readopen = true := by
            simpa using fun hopen => hquit (.inl hopen)
          exact some.inj h ▸ .fill p n addr i hthread hpos hfull hopen
      · rename_i hfull
        exact some.inj h ▸ .store p n addr i hthread hpos (by simpa using hfull)
    · exact some.inj h ▸ .wrote p n addr i hthread hpos
  · rename_i n addr i hpos
    obtain ⟨m, hm, rfl⟩ := map_eq_some_iff.mp h
    exact .wakeFull p n addr i m hthread hpos hm
  · rename_i n addr i hpos
    obtain ⟨m, hm, rfl⟩ := map_eq_some_iff.mp h
    exact .sleepFull p n addr i m hthread hpos hm
  · rename_i n hpos
    split at h
    · rename_i hempty
      split at h
      · exact some.inj h ▸ .readQuit p n hthread hpos
      · exact some.inj h ▸ .readEmpty p n hthread hpos hempty.1 hempty.2
    · exact some.inj h ▸ .readFound p n hthread hpos
  · rename_i n hpos
    obtain ⟨m, hm, rfl⟩ := map_eq_some_iff.mp h
    exact .readSleep p n m hthread hpos hm
  · rename_i n i hpos
    split at h
    · split at h
      · exact some.inj h ▸ .copied p n i hthread hpos
      · rename_i hempty
        exact some.inj h ▸ .deliver p n i hthread hpos (by simpa using hempty)
    · exact some.inj h ▸ .copied p n i hthread hpos
  · rename_i w hpos
    exact some.inj h ▸ .close p w hthread hpos
  · rename_i nread r hpos
    obtain ⟨m, hm, rfl⟩ := map_eq_some_iff.mp h
    exact .wake p nread r m hthread hpos hm
  · rename_i r hpos
    obtain ⟨m, hm, rfl⟩ := map_eq_some_iff.mp h
    exact .leave p r m _ _ hthread hpos hm

theorem does_of_enter {ref : Bool → Bool} {fd : Fin NPROC → Option Bool}
    (hthread : s.sys.thread c = some p)
    (hout : (s.pos p).isOut = true)
    (hpos : (∃ n addr, pos = .write n addr 0) ∨ (∃ n, pos = .read n) ∨ ∃ w, pos = .close w)
    (h : ({ s with ref := ref, fd := fd } : PipeSys).enter c p pos = some s') : Does s c s' := by
  obtain ⟨m, hm, rfl⟩ := map_eq_some_iff.mp h
  exact .call p m pos ref fd hthread (isOut_iff.mp hout) hpos hm

theorem does_of_step {l : Nat × PipeOp} (h : step l s = some s') : Does s l.1 s' := by
  obtain ⟨c, op⟩ := l
  cases op with
  | sys op =>
    obtain ⟨hop, h⟩ := ite_none_right_eq_some.mp h
    obtain ⟨m, hm, rfl⟩ := map_eq_some_iff.mp h
    refine .sys op m hop.1 (fun p hp => ?_) hm
    have hout := hop.2
    rw [hp] at hout
    exact isOut_iff.mp hout
  | go =>
    simp only [step] at h
    split at h
    · simp at h
    · rename_i p hthread
      exact does_of_go hthread h
  | pipewrite n addr =>
    simp only [step] at h
    split at h
    · simp at h
    · rename_i p hthread
      obtain ⟨hop, h⟩ := ite_none_right_eq_some.mp h
      exact does_of_enter hthread hop.1 (.inl ⟨n, addr, rfl⟩) h
  | piperead n =>
    simp only [step] at h
    split at h
    · simp at h
    · rename_i p hthread
      obtain ⟨hop, h⟩ := ite_none_right_eq_some.mp h
      exact does_of_enter hthread hop.1 (.inr (.inl ⟨n, rfl⟩)) h
  | pipeclose w =>
    simp only [step] at h
    split at h
    · simp at h
    · rename_i p hthread
      obtain ⟨hop, h⟩ := ite_none_right_eq_some.mp h
      exact does_of_enter hthread hop.1 (.inr (.inr ⟨w, rfl⟩)) h

/-- The pipe that `pipealloc` sets up in a page with arbitrary contents (`pipe.c:31-35`), before
anybody uses it. -/
def boot (cwd : Option (Fin NINODE)) (data : Fin PIPESIZE → UInt8) : PipeSys where
  sys := Smp.boot cwd
  pipe := { readopen := true, writeopen := true, data := data, nread := 0, nwrite := 0 }
  pos := fun _ => .out
  ref := fun _ => true
  fd := fun _ => none
  ret := fun _ => 0
  stored := []
  delivered := []

/-- The states that can come about. -/
def Reachable (s : PipeSys) : Prop := ∃ cwd data ls, runFrom step ls (boot cwd data) = some s

/-! ## What goes through the pipe -/

/-- What was stored has been delivered or is in the buffer. -/
def Lossless (s : PipeSys) : Prop :=
  s.pipe.count ≤ PIPESIZE ∧ s.delivered ++ s.pipe.contents = s.stored

theorem Lossless.does (h : Lossless s) (hd : Does s c s') : Lossless s' := by
  cases hd with
  | store p n addr i hthread hpos hfull =>
    have hne : s.pipe.count ≠ PIPESIZE := by
      rw [Ne, Fifo.count_eq_cap (by decide)]
      simpa [PipeBuf.full] using hfull
    have hlt : s.pipe.count < PIPESIZE := lt_of_le_of_ne h.1 hne
    refine ⟨?_, ?_⟩
    · simp only [move, PipeBuf.put, Fifo.count_push (by decide) hlt]
      exact hlt
    · simp only [move, PipeBuf.put, Fifo.contents_push (by decide) (by decide) hlt]
      rw [← List.append_assoc, h.2]
  | deliver p n i hthread hpos hempty =>
    have hne : s.pipe.count ≠ 0 := by
      rw [Ne, Fifo.count_eq_zero]
      simpa [PipeBuf.empty] using hempty
    refine ⟨?_, ?_⟩
    · have hpop := Fifo.count_pop (f := s.pipe.toFifo) (by decide) hne
      simp only [move, PipeBuf.take]
      have := h.1
      omega
    · simp only [move, PipeBuf.take]
      rw [← h.2, Fifo.contents_pop (by decide) hne, List.append_assoc]
      rfl
  | close p w hthread hpos =>
    cases w <;> exact h
  | _ => exact h

/-- For any calls by any processes: the counters are at most `PIPESIZE` apart, and what the readers
got, with what is in the buffer, is what the writers stored, in order. -/
theorem pipe_lossless {s : PipeSys} (h : Reachable s) :
    (s.pipe.nwrite - s.pipe.nread).toNat ≤ PIPESIZE ∧
      s.delivered ++ s.pipe.contents = s.stored := by
  obtain ⟨cwd, data, ls, hrun⟩ := h
  refine runFrom_invariant (fun _ _ _ h hstep => Lossless.does h (does_of_step hstep)) ?_ hrun
  have hnil : (boot cwd data).pipe.contents = [] := Fifo.contents_eq_nil.mpr rfl
  refine ⟨?_, by rw [hnil]; rfl⟩
  rw [← Fifo.contents_length, hnil]
  exact Nat.zero_le _

/-- The first process writes three bytes and reads two. -/
def echoRun : List (Nat × PipeOp) :=
  [(0, .sys .scan), (0, .sys .look), (0, .sys .resume), (0, .pipewrite 3 fun i => .ofNat (i + 7))] ++
    List.replicate 6 (0, .go) ++ [(0, .piperead 2)] ++ List.replicate 6 (0, .go)

theorem echo_lossless : ∃ s, runFrom step echoRun (boot none fun _ => 0) = some s ∧
    s.delivered = [7, 8] ∧ [7, 8] ++ s.pipe.contents = [7, 8, 9] := by
  have hrun : (runFrom step echoRun (boot none fun _ => 0)).map
      (fun s => (s.delivered, s.stored)) = some ([7, 8], [7, 8, 9]) := by
    decide +kernel
  obtain ⟨s, hs, heq⟩ := map_eq_some_iff.mp hrun
  obtain ⟨hdelivered, hstored⟩ := Prod.mk.inj heq
  have h := (pipe_lossless ⟨none, _, echoRun, hs⟩).2
  rw [hdelivered, hstored] at h
  exact ⟨s, hs, hdelivered, h⟩

end PipeSys

end Xv6
