import Xv6.Lib.Redo
import Xv6.Log.Ops
import Xv6.Log.Commit

/-!
# The logging machine

Processes run operations on cached blocks, the last one to leave commits, and the machine may
lose power at any point and recover. The in-memory log is `OpSys`; here the buffer cache and
the disk stand beside it, and `commit` and `recover_from_log` are taken apart into steps of one
sector write each. The iterations of their loops read what they need and write one sector at
the end, so a crash inside an iteration is a crash before or after it.

The geometry is that of the superblock, which nothing in the kernel writes.
-/

namespace Xv6

open Function

open Lib

/-- Where `initlog` finds the log: the last `nlog` of `size` sectors. -/
structure Geometry where
  size : Nat
  nlog : Nat
  fits : nlog ≤ size
  small : size < 2 ^ 31

namespace Geometry

/-- `log.start` (`log.c:61`). -/
def start (g : Geometry) : Nat := g.size - g.nlog

/-- The sector belongs to the log area. -/
def InLog (g : Geometry) (n : Nat) : Prop := g.start ≤ n ∧ n < g.start + g.nlog

end Geometry

/-- Where `commit`, or `recover_from_log`, stands. -/
inductive Phase where
  /-- No commit is running. -/
  | up
  /-- `write_log` has copied `tail` blocks. -/
  | writeLog (tail : Nat)
  /-- Before the first `write_head`, the real commit. -/
  | writeHead
  /-- `install_trans` has copied `tail` blocks. -/
  | install (tail : Nat)
  /-- Before the second `write_head`. -/
  | erase
  /-- `commit` has returned to `end_op`. -/
  | committed
  /-- Power has come back, `recover_from_log` has not begun. -/
  | off
  /-- `install_trans` of the recovery. -/
  | recInstall (tail : Nat)
  /-- Before the `write_head` that ends the recovery. -/
  | recErase
  deriving DecidableEq, Repr

/-- Recovery runs before any process makes system calls. -/
def Phase.recovering : Phase → Bool
  | .off | .recInstall _ | .recErase => true
  | _ => false

/-- The machine. `holder` says which process has the buffer from `bread`, and `edited` that
the holder has changed the data since it last logged them. -/
structure Machine where
  ops : OpSys
  store : Store
  phase : Phase
  holder : Fin NBUF → Option Nat
  edited : Fin NBUF → Bool

/-- What happens next. -/
inductive Event where
  | beginOp (p : Nat)
  | bread (p sector : Nat)
  /-- Process `p` stores into `b->data`. -/
  | modify (p : Nat) (b : Fin NBUF) (data : Block)
  /-- `p` calls `log_write(b)`; its tests. -/
  | logTests (p : Nat) (b : Fin NBUF)
  /-- The locked section of that `log_write`. -/
  | logWrite (p : Nat) (b : Fin NBUF)
  | brelse (p : Nat) (b : Fin NBUF)
  | endOp (p : Nat)
  /-- The next sector write, or loop exit, of `commit`. -/
  | commit (p : Nat)
  | crash
  /-- The next sector write, or loop exit, of `recover_from_log`. -/
  | recover

namespace Machine

/-- The machine when power comes on: the disk is all that is left. -/
def powerOn (g : Geometry) (disk : Nat → Block) : Machine where
  ops := .boot g.size g.nlog
  store := { disk := disk, disksize := g.size, bcache := binit }
  phase := .off
  holder := fun _ => none
  edited := fun _ => false

/-- A panic stops everything but the power switch. -/
def panic (m : Machine) (msg : String) : Machine :=
  { m with ops := { m.ops with panicked := some msg } }

/-- Store the in-memory log header. -/
def setLh (m : Machine) (lh : List Nat) : Machine :=
  { m with ops := { m.ops with log := { m.ops.log with lh := lh } } }

/-- Run a piece of the kernel. When it has to sleep it is tried again later, and nothing it did
on the way has reached the disk. -/
def exec {α : Type} (m : Machine) (x : Prog Store α) (k : α → Store → Machine) :
    Option Machine :=
  match x m.store with
  | .ok a st => some (k a st)
  | .halt (.panic msg) => some (m.panic msg)
  | .halt _ => none

/-- `commit` (`log.c:191-201`) and the end of `end_op` (`log.c:166-169`), by process `p`. -/
def commitStep (p : Nat) (m : Machine) : Option Machine :=
  let log := m.ops.log
  match m.phase with
  | .writeLog tail =>
    if tail < log.lh.length then
      m.exec (writeLogBody log.start log.lh tail) fun _ st =>
        { m with store := st, phase := .writeLog (tail + 1) }
    else some { m with phase := .writeHead }
  | .writeHead =>
    m.exec (writeHead log.start log.lh) fun _ st => { m with store := st, phase := .install 0 }
  | .install tail =>
    if tail < log.lh.length then
      m.exec (installBody log.start log.lh tail) fun _ st =>
        { m with store := st, phase := .install (tail + 1) }
    else some { m.setLh [] with phase := .erase }
  | .erase =>
    m.exec (writeHead log.start log.lh) fun _ st => { m with store := st, phase := .committed }
  | .committed => (OpSys.step (.endCommit p) m.ops).map fun o => { m with ops := o, phase := .up }
  | _ => none

/-- `recover_from_log` (`log.c:114-121`). -/
def recoverStep (m : Machine) : Option Machine :=
  let log := m.ops.log
  match m.phase with
  | .off =>
    m.exec (readHead log.start) fun lh st =>
      { m.setLh lh with store := st, phase := .recInstall 0 }
  | .recInstall tail =>
    if tail < log.lh.length then
      m.exec (installBody log.start log.lh tail) fun _ st =>
        { m with store := st, phase := .recInstall (tail + 1) }
    else some { m.setLh [] with phase := .recErase }
  | .recErase =>
    m.exec (writeHead log.start log.lh) fun _ st => { m with store := st, phase := .up }
  | _ => none

/-- The processes may run. -/
def Serving (m : Machine) : Prop := m.ops.panicked = none ∧ m.phase.recovering = false

instance (m : Machine) : Decidable m.Serving := by unfold Serving; infer_instance

/-- `p` runs code outside `log.c`. -/
def AtLarge (m : Machine) (p : Nat) : Prop := m.ops.pc p = .out ∨ m.ops.pc p = .inOp

instance (m : Machine) (p : Nat) : Decidable (m.AtLarge p) := by unfold AtLarge; infer_instance

/-- One event; `none` when it cannot happen now. A process changes and logs the buffers it holds
inside an operation, logs none of the log area, and does not release a buffer with changes that
it has not logged. -/
def step (g : Geometry) : Event → Machine → Option Machine
  | .beginOp p, m =>
    if m.Serving then (OpSys.step (.beginOp p) m.ops).map fun o => { m with ops := o } else none
  | .bread p sector, m =>
    if m.Serving ∧ m.AtLarge p then
      m.exec (bread ROOTDEV sector) fun b st =>
        { m with store := st, holder := update m.holder b (some p) }
    else none
  | .modify p b data, m =>
    if m.Serving ∧ m.ops.pc p = .inOp ∧ m.holder b = some p then
      m.exec (setData b data) fun _ st =>
        { m with store := st, edited := update m.edited b true }
    else none
  | .logTests p b, m =>
    if m.Serving ∧ m.holder b = some p ∧ (m.store.buf b).sector < g.start then
      (OpSys.step (.logTests p (m.store.buf b).sector) m.ops).map fun o => { m with ops := o }
    else none
  | .logWrite p b, m =>
    if m.Serving ∧ m.holder b = some p then
      (OpSys.step (.logWrite p (m.store.buf b).sector) m.ops).map fun o =>
        { m with
          ops := o
          store := m.store.setBuf b { m.store.buf b with dirty := true }
          edited := update m.edited b false }
    else none
  | .brelse p b, m =>
    if m.Serving ∧ m.AtLarge p ∧ m.holder b = some p ∧ m.edited b = false then
      m.exec (brelse b) fun _ st =>
        { m with store := st, holder := update m.holder b none }
    else none
  | .endOp p, m =>
    if m.Serving then
      (OpSys.step (.endOp p) m.ops).map fun o =>
        { m with
          ops := o
          phase := if o.pc p = .committing then
              (if o.log.lh.length > 0 then .writeLog 0 else .committed)
            else m.phase }
    else none
  | .commit p, m =>
    if m.Serving ∧ m.ops.pc p = .committing then m.commitStep p else none
  | .crash, m => some (powerOn g m.store.disk)
  | .recover, m => if m.ops.panicked = none then m.recoverStep else none

end Machine

/-! ## What was logged, and what became durable -/

/-- One `log_write`: the operation, and the block it logged. -/
structure Update where
  op : Nat
  sector : Nat
  data : Block

/-- The history of a run. -/
structure History where
  /-- Every update ever logged. -/
  logged : List Update
  /-- The groups that `end_op` closed, without those a crash has undone. -/
  groups : List (List Update)
  /-- The groups up to the last one whose first `write_head` reached the disk. -/
  durable : Nat
  /-- The updates of the open group. -/
  cur : List Update
  /-- The operation each process runs; every `begin_op` takes a new number. -/
  op : Nat → Nat
  next : Nat

namespace History

/-- Nothing has happened. -/
def empty : History where
  logged := []
  groups := []
  durable := 0
  cur := []
  op := fun _ => 0
  next := 0

/-- What the event that led from `m` to `m'` adds. -/
def record (h : History) (e : Event) (m m' : Machine) : History :=
  match e with
  | .beginOp p => { h with op := update h.op p h.next, next := h.next + 1 }
  | .logWrite p b =>
    let u : Update :=
      { op := h.op p, sector := (m.store.buf b).sector, data := (m.store.buf b).data }
    { h with logged := h.logged ++ [u], cur := h.cur ++ [u] }
  | .endOp p =>
    if m'.ops.pc p = .committing then { h with groups := h.groups ++ [h.cur], cur := [] } else h
  | .commit _ =>
    if m.phase = .writeHead ∧ m'.phase = .install 0 then { h with durable := h.groups.length }
    else h
  | .recover =>
    if m.phase = .recErase ∧ m'.phase = .up then
      { h with groups := h.groups.take h.durable, cur := [] }
    else h
  | _ => h

/-- The sectors after the updates, done in order. -/
def contents (disk : Nat → Block) (us : List Update) : Nat → Block :=
  applyWrites disk (us.map fun u => (u.sector, u.data))

end History

/-- The machine with its history. -/
def tracedStep (g : Geometry) (e : Event) (s : Machine × History) : Option (Machine × History) :=
  (Machine.step g e s.1).map fun m' => (m', s.2.record e s.1 m')

end Xv6
