import Xv6.Lib.Fifo
import Xv6.Lib.Trans
import Xv6.Param

/-!
# Reading from the console

`consoleintr` edits a line in a circular buffer and `consoleread` takes lines out of it, for any number
of processes. Three counters of 32 bits divide the buffer: what is between `r` and `w` has been
committed, and what is between `w` and `e` can still be edited. All of this is a queue and a line.
-/

namespace Xv6.Console

open Function List

open Lib

/-! ## `console.c` -/

/-- `INPUT_BUF` (`console.c:176`). -/
def INPUT_BUF : Nat := 128

instance : NeZero INPUT_BUF := ⟨by decide⟩

/-- `input` (`console.c:177-183`), without the lock. -/
structure Input where
  buf : Fin INPUT_BUF → UInt8
  r : BitVec 32
  w : BitVec 32
  e : BitVec 32

/-- `C(x)` (`console.c:185`). -/
def C (x : Char) : UInt8 := UInt8.ofNat (x.toNat - '@'.toNat)

/-- `'\n'`. -/
def newline : UInt8 := 10

/-- `'\r'`. -/
def carriageReturn : UInt8 := 13

/-- The loop for ^U (`console.c:198-202`); `e` goes down to `w` at most. -/
def killLine : Nat → Input → Input
  | 0, s => s
  | turns + 1, s =>
    if s.e ≠ s.w ∧ s.buf (Fifo.slot (s.e - 1)) ≠ newline then
      killLine turns { s with e := s.e - 1 }
    else s

/-- One turn of `consoleintr` (`console.c:193-221`). -/
def consoleintrChar (s : Input) (c : UInt8) : Input :=
  if c = C 'P' then s
  else if c = C 'U' then killLine (s.e - s.w).toNat s
  else if c = C 'H' ∨ c = 0x7f then
    if s.e ≠ s.w then { s with e := s.e - 1 } else s
  else if c ≠ 0 ∧ (s.e - s.r).toNat < INPUT_BUF then
    let c := if c = carriageReturn then newline else c
    let s := { s with buf := update s.buf (Fifo.slot s.e) c, e := s.e + 1 }
    if c = newline ∨ c = C 'D' ∨ s.e = s.r + BitVec.ofNat 32 INPUT_BUF then { s with w := s.e } else s
  else s

/-- `consoleintr` (`console.c:187-225`) for the characters that `getc` has. -/
def consoleintr (s : Input) (cs : List UInt8) : Input := cs.foldl consoleintrChar s

/-- How far a `consoleread` has come when it gives up the lock: it has returned, -1 or the bytes that it
stored, or it sleeps with `n` bytes to go. -/
inductive Pause (σ : Type) where
  | returned (s : σ) (result : Option (List UInt8))
  | asleep (s : σ) (n : Nat) (stored : List UInt8)

/-- The loop of `consoleread` (`console.c:236-257`) with `n` bytes to go. -/
def consolereadLoop (killed : Bool) (target : Nat) : Nat → List UInt8 → Input → Pause Input
  | 0, stored, s => .returned s (some stored)
  | n + 1, stored, s =>
    if s.r = s.w then
      if killed then .returned s none else .asleep s (n + 1) stored
    else
      let c := s.buf (Fifo.slot s.r)
      let s := { s with r := s.r + 1 }
      if c = C 'D' then
        if n + 1 < target then .returned { s with r := s.r - 1 } (some stored)
        else .returned s (some stored)
      else if c = newline then
        .returned s (some (stored ++ [c]))
      else
        consolereadLoop killed target n (stored ++ [c]) s

/-! ## The line -/

/-- What the buffer stands for: the characters that can be read, and the line that is being edited. -/
structure Line where
  queue : List UInt8
  edit : List UInt8

namespace Line

/-- A key is pressed. -/
def key (t : Line) (c : UInt8) : Line :=
  if c = C 'P' then t
  else if c = C 'U' then { t with edit := [] }
  else if c = C 'H' ∨ c = 0x7f then { t with edit := t.edit.dropLast }
  else if c = 0 ∨ INPUT_BUF ≤ t.queue.length + t.edit.length then t
  else
    let c := if c = carriageReturn then newline else c
    let edit := t.edit ++ [c]
    if c = newline ∨ c = C 'D' ∨ t.queue.length + edit.length = INPUT_BUF then
      { queue := t.queue ++ edit, edit := [] }
    else { t with edit := edit }

def keys (t : Line) (cs : List UInt8) : Line := cs.foldl key t

/-- A read goes on with `n` characters to go. It ends after a newline, and at a ^D: that stays in the
queue if there are characters before it. -/
def read (killed : Bool) : Nat → List UInt8 → Line → Pause Line
  | 0, stored, t => .returned t (some stored)
  | n + 1, stored, ⟨[], edit⟩ =>
    if killed then .returned ⟨[], edit⟩ none else .asleep ⟨[], edit⟩ (n + 1) stored
  | n + 1, stored, ⟨c :: queue, edit⟩ =>
    if c = C 'D' then
      .returned ⟨if stored = [] then queue else c :: queue, edit⟩ (some stored)
    else if c = newline then .returned ⟨queue, edit⟩ (some (stored ++ [c]))
    else read killed n (stored ++ [c]) ⟨queue, edit⟩

end Line

/-! ## The buffer is the line -/

/-- What can be read or edited. -/
def Input.ring (s : Input) : Fifo UInt8 INPUT_BUF 32 := { data := s.buf, nread := s.r, nwrite := s.e }

/-- What can be read. -/
def Input.lines (s : Input) : Fifo UInt8 INPUT_BUF 32 := { data := s.buf, nread := s.r, nwrite := s.w }

/-- `r <= w <= e <= r + INPUT_BUF`, for counters that wrap around. -/
def Input.Ordered (s : Input) : Prop :=
  (s.w - s.r).toNat ≤ (s.e - s.r).toNat ∧ (s.e - s.r).toNat ≤ INPUT_BUF

/-- The buffer holds the line. -/
structure Shows (s : Input) (t : Line) : Prop where
  contents : s.ring.contents = t.queue ++ t.edit
  committed : s.lines.count = t.queue.length
  room : t.queue.length + t.edit.length ≤ INPUT_BUF
  line : newline ∉ t.edit

namespace Shows

variable {s : Input} {t : Line}

theorem count (h : Shows s t) : s.ring.count = t.queue.length + t.edit.length := by
  rw [← Fifo.contents_length, h.contents, length_append]

theorem ordered (h : Shows s t) : s.Ordered := by
  have hcount := h.count
  have hroom := h.room
  have hcommitted := h.committed
  simp only [Fifo.count, Input.ring, Input.lines] at hcount hcommitted
  exact ⟨by omega, by omega⟩

theorem empty_iff (h : Shows s t) : s.r = s.w ↔ t.queue = [] := by
  rw [← length_eq_zero_iff, ← h.committed, Fifo.count_eq_zero]
  rfl

theorem edit_count (h : Shows s t) : (s.e - s.w).toNat = t.edit.length := by
  have hcount := h.count
  have hcommitted := h.committed
  simp only [Fifo.count, Input.ring, Input.lines] at hcount hcommitted
  have hle : s.w - s.r ≤ s.e - s.r := by
    rw [BitVec.le_def]
    omega
  rw [← sub_sub_sub_cancel_right s.e s.w s.r, BitVec.toNat_sub_of_le hle, hcount, hcommitted]
  omega

theorem edit_iff (h : Shows s t) : s.e = s.w ↔ t.edit = [] := by
  rw [← length_eq_zero_iff, ← h.edit_count, ← sub_eq_zero, ← BitVec.toNat_inj]
  rfl

theorem dropBack (h : Shows s t) (hne : t.edit ≠ []) :
    s.buf (Fifo.slot (s.e - 1)) = t.edit.getLast hne ∧
      Shows { s with e := s.e - 1 } { t with edit := t.edit.dropLast } := by
  have hpos := length_pos_iff.mpr hne
  have hcontents := Fifo.contents_dropBack (f := s.ring) (by decide) (by rw [h.count]; omega)
  have hsplit : t.queue ++ t.edit = t.queue ++ t.edit.dropLast ++ [t.edit.getLast hne] := by
    rw [append_assoc, dropLast_append_getLast]
  rw [h.contents, hsplit] at hcontents
  obtain ⟨hdrop, hlast⟩ := append_inj' hcontents rfl
  refine ⟨(singleton_inj.mp hlast).symm, hdrop.symm, h.committed, ?_, ?_⟩
  · have hroom := h.room
    rw [length_dropLast]
    dsimp only
    omega
  · exact fun hmem => h.line (dropLast_subset _ hmem)

/-- The loop for ^U takes back the whole line: there is no newline in it. -/
theorem killLine (turns : Nat) : ∀ {s : Input} {t : Line}, Shows s t → t.edit.length ≤ turns →
    Shows (Console.killLine turns s) { t with edit := [] } := by
  induction turns with
  | zero =>
    intro s t h hlen
    obtain ⟨queue, edit⟩ := t
    obtain rfl : edit = [] := eq_nil_of_length_eq_zero (Nat.le_zero.mp hlen)
    exact h
  | succ turns ih =>
    intro s t h hlen
    rw [Console.killLine]
    by_cases hedit : t.edit = []
    · rw [if_neg fun hcond => hcond.1 (h.edit_iff.mpr hedit)]
      obtain ⟨queue, edit⟩ := t
      obtain rfl : edit = [] := hedit
      exact h
    · obtain ⟨hback, hdrop⟩ := h.dropBack hedit
      have hline : t.edit.getLast hedit ≠ newline := by
        intro heq
        exact h.line (heq ▸ getLast_mem hedit)
      rw [if_pos ⟨mt h.edit_iff.mp hedit, by rw [hback]; exact hline⟩]
      apply @ih _ { t with edit := t.edit.dropLast } hdrop
      rw [length_dropLast]
      omega

theorem push {c : UInt8} (h : Shows s t) (hroom : t.queue.length + t.edit.length < INPUT_BUF) :
    ({ s with buf := update s.buf (Fifo.slot s.e) c, e := s.e + 1 } : Input).ring.contents =
      t.queue ++ (t.edit ++ [c]) := by
  have hpush := Fifo.contents_push (f := s.ring) (a := c) (by decide) (by decide)
    (by rw [h.count]; exact hroom)
  rw [h.contents, append_assoc] at hpush
  exact hpush

theorem pop {c : UInt8} {queue : List UInt8} (h : Shows s t) (hqueue : t.queue = c :: queue) :
    s.buf (Fifo.slot s.r) = c ∧ Shows { s with r := s.r + 1 } { t with queue := queue } := by
  have hlen : t.queue.length = queue.length + 1 := by rw [hqueue, length_cons]
  have hcontents := Fifo.contents_pop (f := s.ring) (by decide) (by rw [h.count]; omega)
  have hlines := Fifo.count_pop (f := s.lines) (by decide) (by rw [h.committed]; omega)
  rw [h.contents, hqueue, cons_append] at hcontents
  obtain ⟨hfront, hrest⟩ := List.cons.inj hcontents
  refine ⟨hfront.symm, hrest.symm, ?_, ?_, h.line⟩
  · have hcommitted := h.committed
    change s.lines.pop.count = queue.length
    omega
  · have hroom := h.room
    dsimp only
    omega

theorem full_iff {l : List UInt8} (hcontents : s.ring.contents = l) :
    s.e = s.r + BitVec.ofNat 32 INPUT_BUF ↔ l.length = INPUT_BUF := by
  rw [← hcontents, Fifo.contents_length, Fifo.count_eq_cap (by decide)]
  rfl

theorem commit (hcontents : s.ring.contents = t.queue ++ t.edit)
    (hroom : t.queue.length + t.edit.length ≤ INPUT_BUF) :
    Shows { s with w := s.e } ⟨t.queue ++ t.edit, []⟩ := by
  refine ⟨?_, ?_, ?_, not_mem_nil⟩
  · rw [append_nil]
    exact hcontents
  · change s.ring.count = _
    rw [← Fifo.contents_length, hcontents]
  · rw [length_append]
    exact hroom

/-- A key does to the buffer what it does to the line. -/
theorem key (h : Shows s t) (c : UInt8) : Shows (consoleintrChar s c) (t.key c) := by
  unfold consoleintrChar Line.key
  by_cases hp : c = C 'P'
  · rw [if_pos hp, if_pos hp]
    exact h
  rw [if_neg hp, if_neg hp]
  by_cases hu : c = C 'U'
  · rw [if_pos hu, if_pos hu]
    exact h.killLine _ h.edit_count.ge
  rw [if_neg hu, if_neg hu]
  by_cases hh : c = C 'H' ∨ c = 0x7f
  · rw [if_pos hh, if_pos hh]
    by_cases hedit : t.edit = []
    · obtain ⟨queue, edit⟩ := t
      obtain rfl : edit = [] := hedit
      rw [if_neg (not_not_intro (h.edit_iff.mpr rfl))]
      exact h
    · rw [if_pos (mt h.edit_iff.mp hedit)]
      exact (h.dropBack hedit).2
  rw [if_neg hh, if_neg hh]
  by_cases hdrop : c = 0 ∨ INPUT_BUF ≤ t.queue.length + t.edit.length
  · have hcount : (s.e - s.r).toNat = t.queue.length + t.edit.length := h.count
    rw [if_pos hdrop, if_neg]
    · exact h
    · rintro ⟨hc, hlt⟩
      obtain hzero | hfull := hdrop
      · exact hc hzero
      · omega
  · obtain ⟨hc, hroom⟩ := not_or.mp hdrop
    rw [if_neg hdrop, if_pos ⟨hc, h.count.trans_lt (not_le.mp hroom)⟩]
    dsimp only
    generalize (if c = carriageReturn then newline else c) = c'
    have hpush := h.push (c := c') (not_le.mp hroom)
    have hlen : (t.edit ++ [c']).length = t.edit.length + 1 := length_append
    have hfull : s.e + 1 = s.r + BitVec.ofNat 32 INPUT_BUF ↔
        t.queue.length + (t.edit ++ [c']).length = INPUT_BUF := by
      rw [← length_append]
      exact full_iff hpush
    by_cases hcommit : c' = newline ∨ c' = C 'D' ∨ t.queue.length + (t.edit ++ [c']).length = INPUT_BUF
    · rw [if_pos hcommit, if_pos (hcommit.imp_right (Or.imp_right hfull.mpr))]
      exact commit (t := ⟨t.queue, t.edit ++ [c']⟩) hpush (by dsimp only; omega)
    · rw [if_neg hcommit, if_neg fun hcond => hcommit (hcond.imp_right (Or.imp_right hfull.mp))]
      refine ⟨hpush, ?_, by dsimp only; omega, ?_⟩
      · exact h.committed
      · intro hmem
        obtain hmem | hmem := mem_append.mp hmem
        · exact h.line hmem
        · exact hcommit (.inl (mem_singleton.mp hmem).symm)

theorem keys (h : Shows s t) (cs : List UInt8) : Shows (consoleintr s cs) (t.keys cs) := by
  induction cs generalizing s t with
  | nil => exact h
  | cons c cs ih => exact ih (h.key c)

end Shows

/-- Two reads that were called for `target` bytes have come to the same point. -/
inductive SamePause (target : Nat) : Pause Input → Pause Line → Prop where
  | returned {s : Input} {t : Line} {result : Option (List UInt8)} (h : Shows s t) :
      SamePause target (.returned s result) (.returned t result)
  | asleep {s : Input} {t : Line} {n : Nat} {stored : List UInt8} (h : Shows s t)
      (hsum : n + stored.length = target) :
      SamePause target (.asleep s n stored) (.asleep t n stored)

/-- A read from the buffer is a read from the queue: `n < target` says that something has been
stored. -/
theorem Shows.read {killed : Bool} {target : Nat} (n : Nat) : ∀ {stored : List UInt8} {s : Input}
    {t : Line}, Shows s t → n + stored.length = target →
    SamePause target (consolereadLoop killed target n stored s) (t.read killed n stored) := by
  induction n with
  | zero =>
    intro stored s t h _
    exact .returned h
  | succ n ih =>
    intro stored s t h hsum
    obtain ⟨queue, edit⟩ := t
    rw [consolereadLoop]
    cases queue with
    | nil =>
      rw [if_pos (h.empty_iff.mpr rfl), Line.read]
      cases killed with
      | true => exact .returned h
      | false => exact .asleep h hsum
    | cons c queue =>
      obtain ⟨hc, hpop⟩ := h.pop rfl
      rw [if_neg fun heq => cons_ne_nil c queue (h.empty_iff.mp heq), Line.read, hc]
      dsimp only
      by_cases heof : c = C 'D'
      · rw [if_pos heof, if_pos heof]
        by_cases hstored : stored = []
        · subst hstored
          rw [length_nil] at hsum
          rw [if_pos rfl, if_neg (by omega)]
          exact .returned hpop
        · have hpos := length_pos_iff.mpr hstored
          rw [if_neg hstored, if_pos (by omega), add_sub_cancel_right]
          exact .returned h
      · rw [if_neg heof, if_neg heof]
        by_cases hline : c = newline
        · rw [if_pos hline, if_pos hline]
          exact .returned hpop
        · rw [if_neg hline, if_neg hline]
          apply ih hpop
          rw [length_append, length_singleton]
          omega

/-! ## Processes -/

/-- A `consoleread` that sleeps. -/
structure Reader where
  target : Nat
  n : Nat
  stored : List UInt8

/-- The console and the processes. -/
structure Sys (σ : Type) where
  input : σ
  reader : Nat → Option Reader
  killed : Nat → Bool

/-- What happens: an interrupt with some characters, a call `consoleread(ip, dst, off, n)` of a process,
a process that slept in such a call runs again, a process is killed. -/
inductive Label where
  | intr (cs : List UInt8)
  | read (p : Nat) (n : Int)
  | resume (p : Nat)
  | kill (p : Nat)

/-- The results of the calls so far: a process, and what it got; `none` is -1. -/
abbrev Results : Type := List (Nat × Option (List UInt8))

/-- A console: what it does with characters, and how a read goes on. -/
structure Driver (σ : Type) where
  intr : σ → List UInt8 → σ
  read : (killed : Bool) → (target n : Nat) → List UInt8 → σ → Pause σ

namespace Driver

variable {σ : Type} (dr : Driver σ)

/-- A process has the lock in `consoleread`. -/
def go (p : Nat) (rd : Reader) (x : Sys σ × Results) : Sys σ × Results :=
  match dr.read (x.1.killed p) rd.target rd.n rd.stored x.1.input with
  | .returned s result =>
    ({ x.1 with input := s, reader := update x.1.reader p none }, x.2 ++ [(p, result)])
  | .asleep s n stored =>
    ({ x.1 with
        input := s
        reader := update x.1.reader p (some ⟨rd.target, n, stored⟩) }, x.2)

/-- One step. A process that sleeps may run again at any time: it looks at the buffer again. -/
def step : Label → Sys σ × Results → Option (Sys σ × Results)
  | .intr cs, x => some ({ x.1 with input := dr.intr x.1.input cs }, x.2)
  | .read p n, x => match x.1.reader p with
    | none => some (dr.go p ⟨n.toNat, n.toNat, []⟩ x)
    | some _ => none
  | .resume p, x => (x.1.reader p).map fun rd => dr.go p rd x
  | .kill p, x => some ({ x.1 with killed := update x.1.killed p true }, x.2)

end Driver

/-- Nobody reads. -/
def Sys.start {σ : Type} (s : σ) : Sys σ × Results :=
  ({ input := s, reader := fun _ => none, killed := fun _ => false }, [])

/-- The console of `console.c`. -/
def console : Driver Input where
  intr := consoleintr
  read := consolereadLoop

/-- The queue and the line. -/
def reference : Driver Line where
  intr := Line.keys
  read := fun killed _ n stored t => t.read killed n stored

/-- The two systems have done the same so far. -/
structure Agrees (x : Sys Input × Results) (y : Sys Line × Results) : Prop where
  shows : Shows x.1.input y.1.input
  reader : x.1.reader = y.1.reader
  killed : x.1.killed = y.1.killed
  results : x.2 = y.2
  sums : ∀ p rd, x.1.reader p = some rd → rd.n + rd.stored.length = rd.target

namespace Agrees

variable {x : Sys Input × Results} {y : Sys Line × Results}

theorem sums_update (h : Agrees x y) {p : Nat} {o : Option Reader}
    (ho : ∀ rd ∈ o, rd.n + rd.stored.length = rd.target) (q : Nat) (rd : Reader)
    (hq : update x.1.reader p o q = some rd) : rd.n + rd.stored.length = rd.target := by
  by_cases hqp : q = p
  · rw [hqp, update_self] at hq
    exact ho rd hq
  · rw [update_of_ne hqp] at hq
    exact h.sums q rd hq

theorem go (h : Agrees x y) {p : Nat} {rd : Reader} (hsum : rd.n + rd.stored.length = rd.target) :
    Agrees (console.go p rd x) (reference.go p rd y) := by
  have hread : SamePause rd.target
      (console.read (x.1.killed p) rd.target rd.n rd.stored x.1.input)
      (reference.read (x.1.killed p) rd.target rd.n rd.stored y.1.input) := h.shows.read rd.n hsum
  unfold Driver.go
  rw [← h.killed]
  generalize console.read _ rd.target rd.n rd.stored x.1.input = i at hread ⊢
  generalize reference.read _ rd.target rd.n rd.stored y.1.input = j at hread ⊢
  cases hread with
  | returned hshows =>
    refine ⟨hshows, ?_, h.killed, ?_, ?_⟩
    · rw [h.reader]
    · rw [h.results]
    · exact h.sums_update fun rd hrd => nomatch hrd
  | asleep hshows hsum' =>
    refine ⟨hshows, ?_, h.killed, h.results, ?_⟩
    · rw [h.reader]
    · apply h.sums_update
      rintro _ ⟨⟩
      exact hsum'

theorem step (l : Label) (h : Agrees x y) :
    Option.Rel Agrees (console.step l x) (reference.step l y) := by
  cases l with
  | intr cs => exact .some { h with shows := h.shows.keys cs }
  | kill p => exact .some { h with killed := by rw [h.killed] }
  | read p n =>
    dsimp only [Driver.step]
    rw [← h.reader]
    cases x.1.reader p with
    | none => exact .some (h.go rfl)
    | some rd => exact .none
  | resume p =>
    dsimp only [Driver.step]
    rw [← h.reader]
    cases hrd : x.1.reader p with
    | none => exact .none
    | some rd => exact .some (h.go (h.sums p rd hrd))

theorem start (buf : Fin INPUT_BUF → UInt8) (i : BitVec 32) :
    Agrees (Sys.start ⟨buf, i, i, i⟩) (Sys.start ⟨[], []⟩) where
  shows := by
    refine ⟨?_, ?_, by decide, not_mem_nil⟩
    · exact Fifo.contents_eq_nil.mpr rfl
    · exact Fifo.count_eq_zero.mpr rfl
  reader := rfl
  killed := rfl
  results := rfl
  sums := by
    intro p rd hrd
    cases hrd

end Agrees

/-- The console is a queue and a line: for any characters and any calls in any order, wherever the
counters start, the processes get what they would get from these, and the counters stay in order. -/
theorem console_refines (buf : Fin INPUT_BUF → UInt8) (i : BitVec 32) (ls : List Label) :
    (runFrom console.step ls (Sys.start ⟨buf, i, i, i⟩)).map Prod.snd =
      (runFrom reference.step ls (Sys.start ⟨[], []⟩)).map Prod.snd ∧
    ∀ x, runFrom console.step ls (Sys.start ⟨buf, i, i, i⟩) = some x → x.1.input.Ordered := by
  have hrel := runFrom_rel (fun l _ _ => Agrees.step l) ls (Agrees.start buf i)
  generalize runFrom console.step ls _ = a at hrel ⊢
  generalize runFrom reference.step ls _ = b at hrel ⊢
  cases hrel with
  | none => exact ⟨rfl, fun x hx => nomatch hx⟩
  | some h =>
    refine ⟨congrArg some h.results, ?_⟩
    rintro x ⟨⟩
    exact h.shows.ordered

/-- A process waits for a line; "a", a backspace and "b" come, and later a newline and a ^D. The counters
wrap around. -/
def editing : List Label :=
  [.read 1 10, .intr [97, C 'H', 98], .resume 1, .intr [carriageReturn, C 'D'], .resume 1, .read 2 5]

theorem console_refines_editing : ∃ x,
    runFrom console.step editing (Sys.start ⟨fun _ => 0, 0xFFFFFFFF, 0xFFFFFFFF, 0xFFFFFFFF⟩) = some x ∧
      x.2 = [(1, some [98, newline]), (2, some [])] ∧ x.1.input.Ordered := by
  obtain ⟨hresults, hordered⟩ := console_refines (fun _ => 0) 0xFFFFFFFF editing
  have hline : (runFrom reference.step editing (Sys.start ⟨[], []⟩)).map Prod.snd =
      some [(1, some [98, newline]), (2, some [])] := by decide
  rw [hline] at hresults
  obtain ⟨x, hx, hsnd⟩ := Option.map_eq_some_iff.mp hresults
  exact ⟨x, hx, hsnd, hordered x hx⟩

end Xv6.Console
