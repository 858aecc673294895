import Mathlib.Data.Finset.Card
import Xv6.Param

/-!
# The in-memory log

`log.c` keeps one in-memory record of the current transaction: the sectors logged so far, the
number of system calls inside `begin_op`/`end_op`, and whether a commit is running. This
module embeds the sections of `log.c` that run under `log.lock`.

`log_write` tests the log's fill level *before* it takes `log.lock`, so its tests and its
locked section are two definitions: other processes may run in between.
-/

namespace Xv6

/-! ## `struct log` and its critical sections -/

/-- `struct log` (`log.c:39-48`). `lh` lists `lh.sector[0..n)`, so `lh.n` is its length. -/
structure Log where
  start : Nat
  size : Nat
  outstanding : Int
  committing : Bool
  lh : List Nat
  deriving DecidableEq, Repr

namespace Log

/-- `initlog` (`log.c:52-65`) after recovery: the log takes the last `nlog` sectors. -/
def initlog (sbSize nlog : Nat) : Log :=
  { start := sbSize - nlog, size := nlog, outstanding := 0, committing := false, lh := [] }

/-- The loop body of `begin_op` (`log.c:123-140`); `none` when the process has to sleep. -/
def beginOp (l : Log) : Option Log :=
  if l.committing then none
  else if l.lh.length + (l.outstanding + 1) * MAXOPBLOCKS > (LOGSIZE : Int) then none
  else some { l with outstanding := l.outstanding + 1 }

/-- The tests at the head of `log_write` (`log.c:214-217`), with the message of the panic. -/
def logWriteTests (l : Log) : Option String :=
  if l.lh.length ≥ LOGSIZE ∨ l.lh.length ≥ l.size - 1 then some "too big a transaction"
  else if l.outstanding < 1 then some "log_write outside of trans"
  else none

/-- The search loop of `log_write` and the store after it (`log.c:220-226`): a sector that is
already listed is absorbed, a new one goes to the end. -/
def absorb (sector : Nat) : List Nat → List Nat
  | [] => [sector]
  | x :: xs => if x = sector then sector :: xs else x :: absorb sector xs

/-- The locked section of `log_write`, for a buffer of the given sector. -/
def logWrite (l : Log) (sector : Nat) : Log := { l with lh := absorb sector l.lh }

/-- The locked section of `end_op` (`log.c:149-160`): `.error` is the panic, and the flag says
whether this process has to commit. -/
def endOp (l : Log) : Except String (Log × Bool) :=
  if l.committing then .error "log.committing"
  else if l.outstanding - 1 = 0 then
    .ok ({ l with outstanding := l.outstanding - 1, committing := true }, true)
  else .ok ({ l with outstanding := l.outstanding - 1 }, false)

/-- The log after `commit` and the second locked section of `end_op` (`log.c:166-169`). -/
def endCommit (l : Log) : Log := { l with lh := [], committing := false }

variable {s : Nat} {l : List Nat}

theorem mem_absorb {x : Nat} : x ∈ absorb s l ↔ x = s ∨ x ∈ l := by
  induction l with
  | nil => simp [absorb]
  | cons y ys ih =>
    by_cases h : y = s
    · subst h; simp [absorb]
    · simp only [absorb, h, if_false, List.mem_cons, ih]
      tauto

theorem absorb_of_mem (h : s ∈ l) : absorb s l = l := by
  induction l with
  | nil => simp at h
  | cons y ys ih =>
    by_cases hy : y = s
    · subst hy; simp [absorb]
    · rcases List.mem_cons.mp h with rfl | h
      · exact absurd rfl hy
      · simp [absorb, hy, ih h]

theorem absorb_of_not_mem (h : s ∉ l) : absorb s l = l ++ [s] := by
  induction l with
  | nil => rfl
  | cons y ys ih =>
    simp only [List.mem_cons, not_or] at h
    simp [absorb, Ne.symm h.1, ih h.2]

theorem absorb_nodup (h : l.Nodup) : (absorb s l).Nodup := by
  by_cases hs : s ∈ l
  · rwa [absorb_of_mem hs]
  · rw [absorb_of_not_mem hs, List.nodup_append]
    refine ⟨h, by simp, ?_⟩
    intro a ha b hb
    simp only [List.mem_singleton] at hb
    subst hb
    exact fun heq => hs (heq ▸ ha)

theorem absorb_toFinset (s : Nat) (l : List Nat) :
    (absorb s l).toFinset = insert s l.toFinset := by
  ext x; simp [mem_absorb]

/-- Absorption is what keeps the header's sectors distinct, so its length counts them. -/
theorem absorb_length_le (s : Nat) (l : List Nat) : (absorb s l).length ≤ l.length + 1 := by
  by_cases hs : s ∈ l
  · rw [absorb_of_mem hs]; omega
  · rw [absorb_of_not_mem hs]; simp

theorem beginOp_eq_some {l l' : Log} :
    l.beginOp = some l' ↔ l.committing = false ∧
      l.lh.length + (l.outstanding + 1) * MAXOPBLOCKS ≤ (LOGSIZE : Int) ∧
      l' = { l with outstanding := l.outstanding + 1 } := by
  unfold beginOp
  cases l.committing
  · by_cases h : l.lh.length + (l.outstanding + 1) * MAXOPBLOCKS > (LOGSIZE : Int)
    · simp [h]
    · simp [h, Int.not_lt.mp h, eq_comm]
  · simp

theorem endOp_of_not_committing {l : Log} (h : l.committing = false) :
    l.endOp = .ok ({ l with
      outstanding := l.outstanding - 1
      committing := decide (l.outstanding = 1) }, decide (l.outstanding = 1)) := by
  unfold endOp
  by_cases ho : l.outstanding = 1
  · simp [h, ho]
  · have : l.outstanding - 1 ≠ 0 := by omega
    simp [h, ho, this]

end Log

end Xv6
