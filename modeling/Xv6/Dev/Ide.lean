import Mathlib.Data.Fintype.Card
import Xv6.Bio
import Xv6.Lib.Chain
import Xv6.Lib.Trans

/-!
# The disk queue

`ide.c`: processes queue their buffers with `iderw` and sleep, the controller serves the buffer at
the head of the queue, and `ideintr` hands the result over and starts the next request. The
controller and the processes take turns in any order. All of this is the in-memory disk of
`memide.c`, whose `iderw` transfers a sector at once, at the moment the interrupt is handled.
-/

namespace Xv6.Ide

open Function Option List

open Lib

/-! ## The controller -/

/-- What `idestart` writes to the ports `0x1f3` to `0x1f6`, and the sector that `outsl` sends
behind a write command. -/
structure Command where
  low : Nat
  mid : Nat
  high : Nat
  select : Nat
  write : Option Block

namespace Command

/-- The drive that the controller takes the command for. -/
def drive (c : Command) : Nat := c.select / 2 ^ 4 % 2

/-- The sector of the drive, in 28 bits. -/
def lba (c : Command) : Nat :=
  c.low + 2 ^ 8 * c.mid + 2 ^ 16 * c.high + 2 ^ 24 * (c.select % 2 ^ 4)

end Command

/-- The controller waits for a command, works on one, or has finished one and raised its
interrupt; behind a read command it then has the sector for `insl`. -/
inductive Controller where
  | idle
  | busy (c : Command)
  | ready (sector : Option Block)

/-- A transfer of one sector between a drive and memory. -/
structure Move where
  drive : Nat
  sector : Nat
  write : Bool

/-- `b->dev & 1`; the `-1` of `binit` is odd. -/
def unit : Option Nat → Nat
  | none => 1
  | some dev => dev &&& 1

/-- The transfer that a buffer asks for. -/
def move (v : Buf) : Move := ⟨unit v.dev, v.sector, v.dirty⟩

/-- The ports and data of `idestart` (`ide.c:78-87`). -/
def command (v : Buf) : Command where
  low := v.sector &&& 0xff
  mid := (v.sector >>> 8) &&& 0xff
  high := (v.sector >>> 16) &&& 0xff
  select := 0xe0 ||| (unit v.dev <<< 4) ||| ((v.sector >>> 24) &&& 0x0f)
  write := if v.dirty then some v.data else none

/-! ## The driver -/

/-- What happens to the queue. No step of the driver reads its history. -/
inductive Event where
  | touched (b : Fin NBUF) (v : Buf)
  | queued (b : Fin NBUF)
  | started (b : Fin NBUF)
  | moved (m : Move)
  | completed (b : Fin NBUF) (v : Buf)
  | returned (b : Fin NBUF) (v : Buf) (sector : Block)

/-- The sectors of the drives. -/
abbrev Sectors : Type := Nat → Nat → Block

/-- `idequeue`, with the links `qnext`, the buffers, the controller and its drives. A buffer is
`inside` while a process is in `iderw` with it. -/
structure State where
  queue : Chain (Fin NBUF)
  buf : Fin NBUF → Buf
  disk : Sectors
  controller : Controller
  inside : Fin NBUF → Bool
  log : List Event

/-- The sector of a buffer. -/
def content (disk : Sectors) (v : Buf) : Block := disk (unit v.dev) v.sector

/-- Store a sector. -/
def store (disk : Sectors) (drive sector : Nat) (data : Block) : Sectors :=
  update disk drive (update (disk drive) sector data)

/-- The test of the loop at the end of `iderw`, `(flags & (B_VALID|B_DIRTY)) == B_VALID`. -/
def done (v : Buf) : Bool := v.valid && !v.dirty

/-- `idestart` (`ide.c:70-89`). A null pointer is a panic, and `idewait` does not come back when
the controller is not idle. -/
def idestart : Option (Fin NBUF) → State → Option State
  | none, _ => none
  | some b, s =>
    match s.controller with
    | .idle => some { s with
        controller := .busy (command (s.buf b))
        log := s.log ++ [.started b] }
    | _ => none

/-- `insl` for a buffer that is read (`ide.c:106-107`). -/
def insl (v : Buf) (controller : Controller) : Option Block :=
  if v.dirty then some v.data
  else
    match controller with
    | .ready sector => sector
    | _ => none

/-- `ideintr` (`ide.c:92-119`). Taking the interrupt leaves the controller idle. -/
def ideintr (s : State) : Option State :=
  match s.queue.head with
  | none => some s
  | some b =>
    (insl (s.buf b) s.controller).bind fun data =>
      let s := { s with
        queue := s.queue.pop b
        buf := update s.buf b { s.buf b with data := data, valid := true, dirty := false }
        controller := .idle
        log := s.log ++ [.completed b (s.buf b)] }
      if s.queue.head ≠ none then idestart s.queue.head s else some s

/-- One turn of the loop at the end of `iderw` (`ide.c:150-154`): a process that is woken up
looks at the flags again. -/
def wait (b : Fin NBUF) (s : State) : State :=
  if done (s.buf b) then { s with
    inside := update s.inside b false
    log := s.log ++ [.returned b (s.buf b) (content s.disk (s.buf b))] }
  else s

/-- `iderw` up to its first sleep (`ide.c:126-152`). -/
def iderw (havedisk1 : Bool) (b : Fin NBUF) (s : State) : Option State :=
  let v := s.buf b
  if ¬ v.busy then none
  else if done v then none
  else if v.dev ≠ some 0 ∧ ¬ havedisk1 then none
  else
    (s.queue.append (NBUF + 1) b).bind fun queue =>
      let s := { s with
        queue := queue
        inside := update s.inside b true
        log := s.log ++ [.queued b] }
      (if queue.head = some b then idestart (some b) s else some s).map (wait b)

/-! ## The controller and the processes together -/

/-- The drives: whether there is a second one, and how many sectors they have. A sector has an
address of 28 bits. -/
structure Drives where
  havedisk1 : Bool
  size : Nat
  lba28 : size ≤ 2 ^ 28

/-- The buffer is for a sector that a drive has. -/
def Drives.Has (d : Drives) (v : Buf) : Prop := (v.dev = some 0 ∨ v.dev = some 1) ∧ v.sector < d.size

instance (d : Drives) (v : Buf) : Decidable (d.Has v) := inferInstanceAs (Decidable (_ ∧ _))

/-- Two buffers are for the same sector. -/
def Same (v w : Buf) : Prop := v.dev = w.dev ∧ v.sector = w.sector

instance (v w : Buf) : Decidable (Same v w) := inferInstanceAs (Decidable (_ ∧ _))

/-- What the cache promises about a buffer that it gives to `iderw`: no process is there with it or
with another buffer for its sector, and the controller will not report an error. -/
def State.Offers (s : State) (d : Drives) (b : Fin NBUF) : Prop :=
  s.inside b = false ∧ d.Has (s.buf b) ∧ ∀ b', s.inside b' = true → ¬ Same (s.buf b') (s.buf b)

instance (s : State) (d : Drives) (b : Fin NBUF) : Decidable (s.Offers d b) :=
  inferInstanceAs (Decidable (_ ∧ _ ∧ _))

/-- The controller finishes its command. -/
def raise (s : State) : Option State :=
  match s.controller with
  | .busy c =>
    match c.write with
    | some data => some { s with
        disk := store s.disk c.drive c.lba data
        controller := .ready none
        log := s.log ++ [.moved ⟨c.drive, c.lba, true⟩] }
    | none => some { s with
        controller := .ready (some (s.disk c.drive c.lba))
        log := s.log ++ [.moved ⟨c.drive, c.lba, false⟩] }
  | _ => none

/-- What can happen next: a process changes a buffer it has, or calls `iderw` with it, or is woken
up there, for whatever reason; the controller finishes; its interrupt is handled. -/
inductive Label where
  | touch (b : Fin NBUF) (v : Buf)
  | call (b : Fin NBUF)
  | resume (b : Fin NBUF)
  | raise
  | interrupt

/-- Each finished command is good for one interrupt. -/
def step (d : Drives) : Label → State → Option State
  | .touch b v, s =>
    if s.inside b = false then some { s with
      buf := update s.buf b v
      log := s.log ++ [.touched b v] }
    else none
  | .call b, s => if s.Offers d b then iderw d.havedisk1 b s else none
  | .resume b, s => if s.inside b = true then some (wait b s) else none
  | .raise, s => raise s
  | .interrupt, s =>
    match s.controller with
    | .ready _ => ideintr s
    | _ => none

/-- `ideinit` is done, and no process has called. -/
def State.start (buf : Fin NBUF → Buf) (disk : Sectors) : State where
  queue := .empty
  buf := buf
  disk := disk
  controller := .idle
  inside := fun _ => false
  log := []

/-! ## The instantaneous disk -/

/-- Buffers and drives, with nothing under way. -/
structure Instant where
  buf : Fin NBUF → Buf
  disk : Sectors

namespace Instant

/-- The drive of buffer `b` as the disk of `memide.c`, which knows disk 1 only: a request for
another drive is put to it as one for disk 1. -/
def view (t : Instant) (size : Nat) (b : Fin NBUF) : Store where
  disk := t.disk (unit (t.buf b).dev)
  disksize := size
  bcache := { binit with buf := update t.buf b { t.buf b with dev := some ROOTDEV } }

/-- `iderw` of `memide.c`. -/
def transfer (size : Nat) (b : Fin NBUF) (t : Instant) : Option Instant :=
  match Xv6.iderw b (t.view size b) with
  | .ok _ st => some {
      buf := update st.bcache.buf b { st.bcache.buf b with dev := (t.buf b).dev }
      disk := update t.disk (unit (t.buf b).dev) st.disk }
  | .halt _ => none

/-- What an event is to the instantaneous disk. -/
def step (size : Nat) : Event → Instant → Option Instant
  | .touched b v, t => some { t with buf := update t.buf b v }
  | .completed b _, t => t.transfer size b
  | _, t => some t

end Instant

/-! ## Commands and the transfers they ask for -/

theorem unit_lt (dev : Option Nat) : unit dev < 2 := by
  cases dev with
  | none => decide
  | some d =>
    rw [unit, Nat.and_one_is_mod]
    exact Nat.mod_lt d (by decide)

/-- The drive and the top four bits of the address share a port. -/
theorem select_eq {drive high : Nat} (hdrive : drive < 2) (hhigh : high < 16) :
    0xe0 ||| (drive <<< 4) ||| high = 0xe0 + 2 ^ 4 * drive + high := by
  have hall : ∀ drive < 2, ∀ high < 16,
      0xe0 ||| (drive <<< 4) ||| high = 0xe0 + 2 ^ 4 * drive + high := by decide
  exact hall drive hdrive high hhigh

theorem command_select (v : Buf) :
    (command v).select = 0xe0 + 2 ^ 4 * unit v.dev + v.sector / 2 ^ 24 % 16 := by
  have hhigh : (v.sector >>> 24) &&& 0x0f = v.sector / 2 ^ 24 % 16 := by
    rw [Nat.shiftRight_eq_div_pow]
    exact Nat.and_two_pow_sub_one_eq_mod _ 4
  rw [← select_eq (unit_lt v.dev) (Nat.mod_lt _ (by decide)), ← hhigh]
  rfl

@[simp] theorem drive_command (v : Buf) : (command v).drive = unit v.dev := by
  have hunit := unit_lt v.dev
  rw [Command.drive, command_select]
  omega

theorem lba_command {v : Buf} (h : v.sector < 2 ^ 28) : (command v).lba = v.sector := by
  have hlow : (command v).low = v.sector % 2 ^ 8 := Nat.and_two_pow_sub_one_eq_mod _ 8
  have hmid : (command v).mid = v.sector / 2 ^ 8 % 2 ^ 8 := by
    rw [← Nat.shiftRight_eq_div_pow]
    exact Nat.and_two_pow_sub_one_eq_mod _ 8
  have hhigh : (command v).high = v.sector / 2 ^ 16 % 2 ^ 8 := by
    rw [← Nat.shiftRight_eq_div_pow]
    exact Nat.and_two_pow_sub_one_eq_mod _ 8
  have hunit := unit_lt v.dev
  rw [Command.lba, command_select, hlow, hmid, hhigh]
  omega

/-- The disk after the transfer that a buffer asks for. -/
def land (disk : Sectors) (v : Buf) : Sectors :=
  if v.dirty then store disk (unit v.dev) v.sector v.data else disk

/-- The data of the buffer after it. -/
def fetch (disk : Sectors) (v : Buf) : Block := if v.dirty then v.data else content disk v

/-- What the controller has for the processor after it. -/
def sectorFor (disk : Sectors) (v : Buf) : Option Block :=
  if v.dirty then none else some (content disk v)

theorem content_land {d : Drives} {disk : Sectors} {v w : Buf} (hne : ¬ Same v w) (hv : d.Has v)
    (hw : d.Has w) : content (land disk w) v = content disk v := by
  unfold land
  split
  · by_cases hunit : unit v.dev = unit w.dev
    · have hdev : v.dev = w.dev := by
        rcases hv.1 with hv | hv <;> rcases hw.1 with hw | hw <;> simp_all [unit]
      have hsector : v.sector ≠ w.sector := fun heq => hne ⟨hdev, heq⟩
      simp [content, store, hunit, update_of_ne hsector]
    · simp [content, store, update_of_ne hunit]
  · rfl

/-- After a transfer in either direction the buffer has its sector. -/
theorem fetch_eq (disk : Sectors) (v : Buf) : fetch disk v = content (land disk v) v := by
  unfold fetch land
  split
  · simp [content, store]
  · rfl

theorem insl_sectorFor (disk : Sectors) (v : Buf) :
    insl v (.ready (sectorFor disk v)) = some (fetch disk v) := by
  unfold insl sectorFor fetch
  split <;> rfl

theorem raise_command {s : State} {v : Buf} (hsector : v.sector < 2 ^ 28)
    (h : s.controller = .busy (command v)) :
    raise s = some { s with
      disk := land s.disk v
      controller := .ready (sectorFor s.disk v)
      log := s.log ++ [.moved (move v)] } := by
  cases hdirty : v.dirty with
  | false =>
    have hwrite : (command v).write = none := by simp [command, hdirty]
    simp only [raise, h, hwrite, drive_command, lba_command hsector]
    simp [land, sectorFor, content, move, hdirty]
  | true =>
    have hwrite : (command v).write = some v.data := by simp [command, hdirty]
    simp only [raise, h, hwrite, drive_command, lba_command hsector]
    simp [land, sectorFor, move, hdirty]

/-- `iderw` of `memide.c` does the same at once. -/
theorem transfer_eq {size : Nat} {t : Instant} {b : Fin NBUF} (hbusy : (t.buf b).busy = true)
    (hdone : done (t.buf b) = false) (hsize : (t.buf b).sector < size) :
    t.transfer size b = some {
      buf := update t.buf b
        { t.buf b with data := fetch t.disk (t.buf b), valid := true, dirty := false }
      disk := land t.disk (t.buf b) } := by
  have hwork : ¬ ((t.buf b).valid = true ∧ ¬ (t.buf b).dirty = true) := by
    simpa [done] using hdone
  have hview : (t.view size b).buf b = { t.buf b with dev := some ROOTDEV } := by
    simp [Instant.view, Store.buf]
  cases hdirty : (t.buf b).dirty with
  | false =>
    have hvalid : (t.buf b).valid = false := by simpa [hdirty] using hwork
    simp only [Instant.transfer, Xv6.iderw, hview, hbusy, hdirty, hvalid]
    simp [Instant.view, Store.setBuf, fetch, land, content, hdirty, Nat.not_le.mpr hsize, hbusy]
  | true =>
    simp only [Instant.transfer, Xv6.iderw, hview, hbusy, hdirty]
    simp [Instant.view, Store.setBuf, fetch, land, store, hdirty, Nat.not_le.mpr hsize, hbusy]

/-! ## Histories -/

/-- The buffers that have been put into the queue. -/
def queuedOf (log : List Event) : List (Fin NBUF) :=
  log.filterMap fun | .queued b => some b | _ => none

/-- Those that have been started. -/
def startedOf (log : List Event) : List (Fin NBUF) :=
  log.filterMap fun | .started b => some b | _ => none

/-- Those that have been taken out. -/
def completedOf (log : List Event) : List (Fin NBUF) :=
  log.filterMap fun | .completed b _ => some b | _ => none

/-- What they asked for. -/
def requestsOf (log : List Event) : List Buf :=
  log.filterMap fun | .completed _ v => some v | _ => none

/-- What the controller has transferred. -/
def movedOf (log : List Event) : List Move :=
  log.filterMap fun | .moved m => some m | _ => none

/-- The request whose interrupt has been raised and not handled. -/
def State.raised (s : State) : List Buf :=
  match s.controller, s.queue.head with
  | .ready _, some b => [s.buf b]
  | _, _ => []

/-! ## The queue -/

/-- The queue holds `l`, the buffers that processes in `iderw` wait for. -/
structure Queue (d : Drives) (s : State) (l : List (Fin NBUF)) : Prop where
  holds : s.queue.Holds l
  nodup : l.Nodup
  mem : ∀ b, b ∈ l ↔ s.inside b = true ∧ done (s.buf b) = false
  busy : ∀ b, s.inside b = true → (s.buf b).busy = true
  has : ∀ b, s.inside b = true → d.Has (s.buf b)
  apart : ∀ b b', s.inside b = true → s.inside b' = true → Same (s.buf b) (s.buf b') → b = b'
  agree : ∀ b, s.inside b = true → done (s.buf b) = true →
    (s.buf b).data = content s.disk (s.buf b)
  queued : queuedOf s.log = completedOf s.log ++ l
  returned : ∀ b v x, .returned b v x ∈ s.log → done v = true ∧ v.data = x

/-- The controller is idle, and all that was started has been completed. -/
structure Rests (size : Nat) (o : Instant) (s : State) : Prop where
  controller : s.controller = .idle
  started : startedOf s.log = completedOf s.log
  moved : movedOf s.log = (requestsOf s.log).map move
  instant : runFrom (Instant.step size) s.log o = some ⟨s.buf, s.disk⟩

/-- How far the controller is with the buffer `v`. -/
inductive Phase (size : Nat) (o : Instant) (s : State) (v : Buf) : Prop where
  | started (controller : s.controller = .busy (command v))
      (moved : movedOf s.log = (requestsOf s.log).map move)
      (instant : runFrom (Instant.step size) s.log o = some ⟨s.buf, s.disk⟩)
  | finished (disk : Sectors) (controller : s.controller = .ready (sectorFor disk v))
      (moved : movedOf s.log = (requestsOf s.log ++ [v]).map move)
      (instant : runFrom (Instant.step size) s.log o = some ⟨s.buf, disk⟩)
      (landed : s.disk = land disk v)

/-- Of the queue, the head and nothing else has been started. -/
def Attends (size : Nat) (o : Instant) (s : State) : List (Fin NBUF) → Prop
  | [] => Rests size o s
  | b :: _ => startedOf s.log = completedOf s.log ++ [b] ∧ Phase size o s (s.buf b)

variable {d : Drives} {o : Instant} {s s' : State} {l : List (Fin NBUF)} {b : Fin NBUF}

theorem start_queue (d : Drives) (buf : Fin NBUF → Buf) (disk : Sectors) :
    Queue d (.start buf disk) [] where
  holds := Chain.empty_holds
  nodup := nodup_nil
  mem := by simp [State.start]
  busy := by simp [State.start]
  has := by simp [State.start]
  apart := by simp [State.start]
  agree := by simp [State.start]
  queued := rfl
  returned := by simp [State.start]

theorem start_rests (size : Nat) (buf : Fin NBUF → Buf) (disk : Sectors) :
    Rests size ⟨buf, disk⟩ (.start buf disk) :=
  ⟨rfl, rfl, rfl, rfl⟩

namespace Queue

theorem length_le (h : Queue d s l) : l.length ≤ NBUF := by
  simpa using List.Nodup.length_le_card h.nodup

theorem sector_lt (h : Queue d s l) (hb : s.inside b = true) : (s.buf b).sector < 2 ^ 28 :=
  lt_of_lt_of_le (h.has b hb).2 d.lba28

theorem touch (h : Queue d s l) (hb : s.inside b = false) (v : Buf) :
    Queue d { s with buf := update s.buf b v, log := s.log ++ [.touched b v] } l := by
  have hkeep : ∀ b', s.inside b' = true → update s.buf b v b' = s.buf b' := by
    intro b' hb'
    apply update_of_ne
    rintro rfl
    rw [hb] at hb'
    cases hb'
  exact {
    holds := h.holds
    nodup := h.nodup
    mem := by
      intro b'
      rw [h.mem b']
      exact and_congr_right fun hb' => by simp only [hkeep b' hb']
    busy := by
      intro b' hb'
      simp only [hkeep b' hb']
      exact h.busy b' hb'
    has := by
      intro b' hb'
      simp only [hkeep b' hb']
      exact h.has b' hb'
    apart := by
      intro b₁ b₂ h₁ h₂
      simp only [hkeep b₁ h₁, hkeep b₂ h₂]
      exact h.apart b₁ b₂ h₁ h₂
    agree := by
      intro b' hb'
      simp only [hkeep b' hb']
      exact h.agree b' hb'
    queued := by simpa [queuedOf, completedOf] using h.queued
    returned := by
      intro b' w x hmem
      exact h.returned b' w x (by simpa using hmem) }

theorem wait (h : Queue d s l) (hb : s.inside b = true) : Queue d (wait b s) l := by
  unfold Ide.wait
  split
  · rename_i hdone
    have hout : ∀ b', update s.inside b false b' = true ↔
        b' ≠ b ∧ s.inside b' = true := by
      intro b'
      by_cases heq : b' = b
      · simp [heq]
      · simp [heq]
    exact {
      holds := h.holds
      nodup := h.nodup
      mem := by
        intro b'
        simp only [hout]
        rw [h.mem b']
        constructor
        · rintro ⟨hin, hnot⟩
          refine ⟨⟨?_, hin⟩, hnot⟩
          rintro rfl
          rw [hdone] at hnot
          cases hnot
        · rintro ⟨⟨-, hin⟩, hnot⟩
          exact ⟨hin, hnot⟩
      busy := fun b' hb' => h.busy b' ((hout b').mp hb').2
      has := fun b' hb' => h.has b' ((hout b').mp hb').2
      apart := fun b₁ b₂ h₁ h₂ => h.apart b₁ b₂ ((hout b₁).mp h₁).2 ((hout b₂).mp h₂).2
      agree := fun b' hb' => h.agree b' ((hout b').mp hb').2
      queued := by simpa [queuedOf, completedOf] using h.queued
      returned := by
        intro b' w x hmem
        rcases mem_append.mp hmem with hmem | hmem
        · exact h.returned b' w x hmem
        · obtain ⟨rfl, rfl, rfl⟩ : b' = b ∧ w = s.buf b ∧ x = content s.disk (s.buf b) := by
            simpa using hmem
          exact ⟨hdone, h.agree b' hb hdone⟩ }
  · exact h

theorem started (h : Queue d s l) (c : Controller) :
    Queue d { s with controller := c, log := s.log ++ [.started b] } l where
  holds := h.holds
  nodup := h.nodup
  mem := h.mem
  busy := h.busy
  has := h.has
  apart := h.apart
  agree := h.agree
  queued := by simpa [queuedOf, completedOf] using h.queued
  returned := fun b' w x hmem => h.returned b' w x (by simpa using hmem)

/-- It stores a sector of a buffer that is waited for: no buffer that has been completed is for
that sector. -/
theorem raised (h : Queue d s l) (hb : b ∈ l) (c : Controller) (m : Move) :
    Queue d { s with disk := land s.disk (s.buf b), controller := c, log := s.log ++ [.moved m] }
      l where
  holds := h.holds
  nodup := h.nodup
  mem := h.mem
  busy := h.busy
  has := h.has
  apart := h.apart
  agree := by
    intro b' hb' hdone
    obtain ⟨hin, hnot⟩ := (h.mem b).mp hb
    have hne : ¬ Same (s.buf b') (s.buf b) := by
      intro hsame
      obtain rfl := h.apart b' b hb' hin hsame
      rw [hdone] at hnot
      cases hnot
    rw [h.agree b' hb' hdone]
    exact (content_land hne (h.has b' hb') (h.has b hin)).symm
  queued := by simpa [queuedOf, completedOf] using h.queued
  returned := fun b' w x hmem => h.returned b' w x (by simpa using hmem)

theorem enqueue (h : Queue d s l) (hoffers : s.Offers d b) (hbusy : (s.buf b).busy = true)
    (hdone : done (s.buf b) = false) {queue : Chain (Fin NBUF)} (hqueue : queue.Holds (l ++ [b])) :
    Queue d { s with queue := queue, inside := update s.inside b true,
                     log := s.log ++ [.queued b] } (l ++ [b]) := by
  obtain ⟨hout, hhas, hapart⟩ := hoffers
  have hin : ∀ b', update s.inside b true b' = true ↔ b' = b ∨ s.inside b' = true := by
    intro b'
    by_cases heq : b' = b
    · simp [heq]
    · simp [heq]
  have hnew : b ∉ l := by
    intro hb
    rw [((h.mem b).mp hb).1] at hout
    cases hout
  exact {
    holds := hqueue
    nodup := by
      rw [nodup_append]
      exact ⟨h.nodup, nodup_singleton b, by
        simpa using fun _ hmem => ne_of_mem_of_not_mem hmem hnew⟩
    mem := by
      intro b'
      simp only [hin]
      rw [mem_append, mem_singleton, h.mem b']
      constructor
      · rintro (⟨hb', hnot⟩ | rfl)
        · exact ⟨.inr hb', hnot⟩
        · exact ⟨.inl rfl, hdone⟩
      · rintro ⟨rfl | hb', hnot⟩
        · exact .inr rfl
        · exact .inl ⟨hb', hnot⟩
    busy := by
      intro b' hb'
      rcases (hin b').mp hb' with rfl | hb'
      · exact hbusy
      · exact h.busy b' hb'
    has := by
      intro b' hb'
      rcases (hin b').mp hb' with rfl | hb'
      · exact hhas
      · exact h.has b' hb'
    apart := by
      intro b₁ b₂ h₁ h₂ hsame
      rcases (hin b₁).mp h₁ with rfl | hin₁
      · rcases (hin b₂).mp h₂ with rfl | hin₂
        · rfl
        · exact absurd ⟨hsame.1.symm, hsame.2.symm⟩ (hapart b₂ hin₂)
      · rcases (hin b₂).mp h₂ with rfl | hin₂
        · exact absurd hsame (hapart b₁ hin₁)
        · exact h.apart b₁ b₂ hin₁ hin₂ hsame
    agree := by
      intro b' hb' hd
      rcases (hin b').mp hb' with rfl | hb'
      · rw [hdone] at hd
        cases hd
      · exact h.agree b' hb' hd
    queued := by
      have hqueued := congrArg (· ++ [b]) h.queued
      simpa [queuedOf, completedOf] using hqueued
    returned := fun b' w x hmem => h.returned b' w x (by simpa using hmem) }

theorem dequeue (h : Queue d s (b :: l)) {old : Sectors} (hdisk : s.disk = land old (s.buf b))
    (c : Controller) :
    Queue d { s with
      queue := s.queue.pop b
      buf := update s.buf b
        { s.buf b with data := fetch old (s.buf b), valid := true, dirty := false }
      controller := c
      log := s.log ++ [.completed b (s.buf b)] } l := by
  generalize hv : { s.buf b with data := fetch old (s.buf b), valid := true, dirty := false } = v
  have hother : ∀ b', b' ≠ b → update s.buf b v b' = s.buf b' :=
    fun b' hne => update_of_ne hne v s.buf
  have hself : update s.buf b v b = v := update_self b v s.buf
  have hbl : b ∉ l := (nodup_cons.mp h.nodup).1
  have hdev : ∀ b', (update s.buf b v b').dev = (s.buf b').dev ∧
      (update s.buf b v b').sector = (s.buf b').sector ∧
      (update s.buf b v b').busy = (s.buf b').busy := by
    intro b'
    by_cases heq : b' = b
    · subst heq
      rw [hself, ← hv]
      exact ⟨rfl, rfl, rfl⟩
    · rw [hother b' heq]
      exact ⟨rfl, rfl, rfl⟩
  exact {
    holds := h.holds.pop
    nodup := (nodup_cons.mp h.nodup).2
    mem := by
      intro b'
      by_cases heq : b' = b
      · subst heq
        simp only [hself]
        simp [← hv, done, hbl]
      · simp only [hother b' heq]
        rw [← h.mem b', mem_cons]
        simp [heq]
    busy := by
      intro b' hb'
      simp only [(hdev b').2.2]
      exact h.busy b' hb'
    has := by
      intro b' hb'
      simp only [Drives.Has, (hdev b').1, (hdev b').2.1]
      exact h.has b' hb'
    apart := by
      intro b₁ b₂ h₁ h₂
      simp only [Same, (hdev b₁).1, (hdev b₁).2.1, (hdev b₂).1, (hdev b₂).2.1]
      exact h.apart b₁ b₂ h₁ h₂
    agree := by
      intro b' hb' hd
      by_cases heq : b' = b
      · subst heq
        simp only [hself, hdisk]
        rw [← hv]
        exact fetch_eq old (s.buf b')
      · simp only [hother b' heq] at hd ⊢
        exact h.agree b' hb' hd
    queued := by simpa [queuedOf, completedOf] using h.queued
    returned := fun b' w x hmem => h.returned b' w x (by simpa using hmem) }

end Queue

/-! ## The controller and the instantaneous disk -/

/-- Events that neither the controller nor the instantaneous disk takes part in. -/
def Event.Aside : Event → Prop
  | .queued _ => True
  | .returned _ _ _ => True
  | _ => False

theorem Event.Aside.histories {e : Event} (he : e.Aside) (log : List Event) :
    startedOf (log ++ [e]) = startedOf log ∧ completedOf (log ++ [e]) = completedOf log ∧
      requestsOf (log ++ [e]) = requestsOf log ∧ movedOf (log ++ [e]) = movedOf log := by
  cases e <;> simp_all [Event.Aside, startedOf, completedOf, requestsOf, movedOf]

theorem Event.Aside.instant {e : Event} (he : e.Aside) {size : Nat} {log : List Event}
    {o t : Instant} (h : runFrom (Instant.step size) log o = some t) :
    runFrom (Instant.step size) (log ++ [e]) o = some t := by
  apply runFrom_snoc.mpr
  refine ⟨t, h, ?_⟩
  cases e <;> first | rfl | exact he.elim

namespace Attends

variable {size : Nat}

theorem aside (h : Attends size o s l) {e : Event} (he : e.Aside) (queue : Chain (Fin NBUF))
    (inside : Fin NBUF → Bool) :
    Attends size o { s with queue := queue, inside := inside, log := s.log ++ [e] } l := by
  obtain ⟨hstarted, hcompleted, hrequests, hmoved⟩ := he.histories s.log
  cases l with
  | nil =>
    obtain ⟨hc, hs, hm, hi⟩ := h
    exact ⟨hc, by rw [hstarted, hcompleted, hs], by rw [hmoved, hrequests, hm], he.instant hi⟩
  | cons b l =>
    obtain ⟨hs, hphase⟩ := h
    refine ⟨by rw [hstarted, hcompleted, hs], ?_⟩
    cases hphase with
    | started hc hm hi => exact .started hc (by rw [hmoved, hrequests, hm]) (he.instant hi)
    | finished disk hc hm hi hland =>
      exact .finished disk hc (by rw [hmoved, hrequests, hm]) (he.instant hi) hland

theorem touch (h : Attends size o s l) (hb : b ∉ l) (v : Buf) :
    Attends size o { s with buf := update s.buf b v, log := s.log ++ [.touched b v] } l := by
  have hinstant : ∀ {disk : Sectors},
      runFrom (Instant.step size) s.log o = some ⟨s.buf, disk⟩ →
      runFrom (Instant.step size) (s.log ++ [.touched b v]) o =
        some ⟨update s.buf b v, disk⟩ :=
    fun hi => runFrom_snoc.mpr ⟨_, hi, rfl⟩
  cases l with
  | nil =>
    obtain ⟨hc, hs, hm, hi⟩ := h
    exact ⟨hc, by simpa [startedOf, completedOf] using hs,
      by simpa [movedOf, requestsOf] using hm, hinstant hi⟩
  | cons a l =>
    have hne : a ≠ b := fun heq => hb (heq ▸ mem_cons_self)
    obtain ⟨hs, hphase⟩ := h
    refine ⟨by simpa [startedOf, completedOf] using hs, ?_⟩
    simp only [update_of_ne hne]
    cases hphase with
    | started hc hm hi => exact .started hc (by simpa [movedOf, requestsOf] using hm) (hinstant hi)
    | finished disk hc hm hi hland =>
      exact .finished disk hc (by simpa [movedOf, requestsOf] using hm) (hinstant hi) hland

theorem raised {v : Buf} (hs : startedOf s.log = completedOf s.log ++ [b])
    (hm : movedOf s.log = (requestsOf s.log).map move)
    (hi : runFrom (Instant.step size) s.log o = some ⟨s.buf, s.disk⟩) (hv : s.buf b = v) :
    Attends size o { s with
      disk := land s.disk v
      controller := .ready (sectorFor s.disk v)
      log := s.log ++ [.moved (move v)] } (b :: l) := by
  subst hv
  refine ⟨by simpa [startedOf, completedOf] using hs, .finished s.disk rfl ?_ ?_ rfl⟩
  · simpa [movedOf, requestsOf] using hm
  · exact runFrom_snoc.mpr ⟨_, hi, rfl⟩

end Attends

namespace Rests

variable {size : Nat}

theorem idestart (h : Rests size o s) (b : Fin NBUF) (l : List (Fin NBUF)) :
    ∃ s', idestart (some b) s = some s' ∧
      s' = { s with controller := .busy (command (s.buf b)), log := s.log ++ [.started b] } ∧
      Attends size o s' (b :: l) := by
  obtain ⟨hc, hs, hm, hi⟩ := h
  refine ⟨_, by simp only [Ide.idestart, hc], rfl, ?_, .started rfl ?_ ?_⟩
  · simpa [startedOf, completedOf] using hs
  · simpa [movedOf, requestsOf] using hm
  · exact runFrom_snoc.mpr ⟨_, hi, rfl⟩

/-- The handler finds the transfer done that the instantaneous disk then makes. -/
theorem of_finished {disk : Sectors} (queue : Chain (Fin NBUF))
    (hs : startedOf s.log = completedOf s.log ++ [b])
    (hm : movedOf s.log = (requestsOf s.log ++ [s.buf b]).map move)
    (hi : runFrom (Instant.step size) s.log o = some ⟨s.buf, disk⟩)
    (hland : s.disk = land disk (s.buf b)) (hbusy : (s.buf b).busy = true)
    (hdone : done (s.buf b) = false) (hsize : (s.buf b).sector < size) :
    Rests size o { s with
      queue := queue
      buf := update s.buf b
        { s.buf b with data := fetch disk (s.buf b), valid := true, dirty := false }
      controller := .idle
      log := s.log ++ [.completed b (s.buf b)] } where
  controller := rfl
  started := by simpa [startedOf, completedOf] using hs
  moved := by simpa [movedOf, requestsOf] using hm
  instant := by
    apply runFrom_snoc.mpr
    refine ⟨_, hi, ?_⟩
    have htransfer : Instant.transfer size b ⟨s.buf, disk⟩ = _ := transfer_eq hbusy hdone hsize
    rw [Instant.step, htransfer, hland]

end Rests

/-! ## Steps -/

/-- What `iderw` checks. -/
def State.Passes (s : State) (havedisk1 : Bool) (b : Fin NBUF) : Prop :=
  (s.buf b).busy = true ∧ done (s.buf b) = false ∧ ((s.buf b).dev = some 0 ∨ havedisk1 = true)

/-- It panics on anything else. -/
theorem iderw_passes {havedisk1 : Bool} (h : iderw havedisk1 b s = some s') :
    s.Passes havedisk1 b := by
  unfold iderw at h
  by_cases hbusy : (s.buf b).busy = true
  · by_cases hdone : done (s.buf b) = true
    · simp [hbusy, hdone] at h
    · by_cases hdisk : (s.buf b).dev ≠ some 0 ∧ ¬ havedisk1 = true
      · simp [hbusy, hdone, hdisk] at h
      · refine ⟨hbusy, by simpa using hdone, ?_⟩
        by_contra hnot
        apply hdisk
        simpa [not_or] using hnot
  · simp [hbusy] at h

/-- The queue holds `l`, and the controller works on its head. -/
def Works (d : Drives) (o : Instant) (s : State) (l : List (Fin NBUF)) : Prop :=
  Queue d s l ∧ Attends d.size o s l

namespace Works

theorem touch (h : Works d o s l) (hb : s.inside b = false) (v : Buf) :
    Works d o { s with buf := update s.buf b v, log := s.log ++ [.touched b v] } l := by
  refine ⟨h.1.touch hb v, h.2.touch ?_ v⟩
  intro hmem
  rw [((h.1.mem b).mp hmem).1] at hb
  cases hb

theorem wait (h : Works d o s l) (hb : s.inside b = true) : Works d o (wait b s) l := by
  refine ⟨h.1.wait hb, ?_⟩
  unfold Ide.wait
  split
  · exact h.2.aside (by trivial) _ _
  · exact h.2

theorem idestart (hqueue : Queue d s (b :: l)) (h : Rests d.size o s) :
    ∃ s', idestart (some b) s = some s' ∧ s'.buf = s.buf ∧ Works d o s' (b :: l) := by
  obtain ⟨s', hs', heq, hattends⟩ := h.idestart b l
  refine ⟨s', hs', by rw [heq], ?_, hattends⟩
  rw [heq]
  exact hqueue.started _

theorem iderw (h : Works d o s l) (hoffers : s.Offers d b) (hpasses : s.Passes d.havedisk1 b) :
    ∃ s', iderw d.havedisk1 b s = some s' ∧ Works d o s' (l ++ [b]) := by
  obtain ⟨hbusy, hdone, hdisk⟩ := hpasses
  have hnew : b ∉ l := by
    intro hmem
    have hin := ((h.1.mem b).mp hmem).1
    rw [hoffers.1] at hin
    cases hin
  obtain ⟨queue, happend, hholds⟩ :=
    h.1.holds.append h.1.nodup hnew (Nat.lt_succ_of_le h.1.length_le)
  have hqueue := h.1.enqueue hoffers hbusy hdone hholds
  have hattends := h.2.aside (e := .queued b) trivial queue (update s.inside b true)
  generalize hs₁ : { s with
    queue := queue
    inside := update s.inside b true
    log := s.log ++ [Event.queued b] } = s₁ at hqueue hattends
  have hbuf : s₁.buf = s.buf := by rw [← hs₁]
  -- the process goes to sleep: nothing has set the flags
  have hsleep : ∀ s₂ : State, s₂.buf = s₁.buf → Ide.wait b s₂ = s₂ := by
    intro s₂ heq
    simp [Ide.wait, heq, hbuf, hdone]
  have hnodisk : ¬ ((s.buf b).dev ≠ some 0 ∧ ¬ d.havedisk1 = true) := by
    rintro ⟨hdev, hnone⟩
    rcases hdisk with hdisk | hdisk
    · exact hdev hdisk
    · exact hnone hdisk
  have hiderw : Ide.iderw d.havedisk1 b s =
      (if queue.head = some b then Ide.idestart (some b) s₁ else some s₁).map (Ide.wait b) := by
    simp only [Ide.iderw, hbusy, hdone, if_neg hnodisk, happend, bind_some, hs₁]
    simp
  rw [hiderw, hholds.head_eq]
  cases l with
  | nil =>
    obtain ⟨s₂, hstart, heq, hworks⟩ := Works.idestart hqueue hattends
    refine ⟨s₂, ?_, hworks⟩
    simp [hstart, hsleep s₂ heq]
  | cons a l =>
    have hne : a ≠ b := fun heq => hnew (heq ▸ mem_cons_self)
    refine ⟨s₁, ?_, hqueue, hattends⟩
    simp [hne, hsleep s₁ rfl]

/-- An interrupt completes the head and starts the next request. -/
theorem ideintr (h : Works d o s l) {sector : Option Block} (hc : s.controller = .ready sector) :
    ∃ b l' s', l = b :: l' ∧ ideintr s = some s' ∧ Works d o s' l' := by
  obtain ⟨hqueue, hattends⟩ := h
  cases l with
  | nil =>
    rw [hattends.controller] at hc
    cases hc
  | cons b l =>
    refine ⟨b, l, ?_⟩
    obtain ⟨hin, hdone⟩ := (hqueue.mem b).mp mem_cons_self
    obtain ⟨hs, hphase⟩ := hattends
    cases hphase with
    | started hstarted =>
      rw [hstarted] at hc
      cases hc
    | finished disk hfinished hm hi hland =>
      have hqueue₁ := hqueue.dequeue hland .idle
      have hrests := Rests.of_finished (s.queue.pop b) hs hm hi hland (hqueue.busy b hin)
        hdone (hqueue.has b hin).2
      generalize hs₁ : { s with
        queue := s.queue.pop b
        buf := update s.buf b
          { s.buf b with data := fetch disk (s.buf b), valid := true, dirty := false }
        controller := .idle
        log := s.log ++ [Event.completed b (s.buf b)] } = s₁ at hqueue₁ hrests
      have hideintr : Ide.ideintr s =
          if s₁.queue.head ≠ none then Ide.idestart s₁.queue.head s₁ else some s₁ := by
        have hhead : s.queue.head = some b := hqueue.holds.head_eq
        have hpop : s.queue.pop b = s₁.queue := by rw [← hs₁]
        simp only [Ide.ideintr, hhead, hfinished, insl_sectorFor, bind_some, hs₁]
        rw [hpop]
      rw [hideintr, hqueue₁.holds.head_eq]
      cases l with
      | nil => exact ⟨s₁, rfl, rfl, hqueue₁, hrests⟩
      | cons a l =>
        obtain ⟨s₂, hstart, -, hworks⟩ := Works.idestart hqueue₁ hrests
        exact ⟨s₂, rfl, by simpa using hstart, hworks⟩

/-- A controller that is busy is so with the head of the queue. -/
theorem raise (h : Works d o s l) {c : Command} (hc : s.controller = .busy c) :
    ∃ s', raise s = some s' ∧ Works d o s' l := by
  obtain ⟨hqueue, hattends⟩ := h
  cases l with
  | nil =>
    rw [hattends.controller] at hc
    cases hc
  | cons b l =>
    obtain ⟨hin, -⟩ := (hqueue.mem b).mp mem_cons_self
    obtain ⟨hs, hphase⟩ := hattends
    cases hphase with
    | started hstarted hm hi =>
      have hraise := raise_command (hqueue.sector_lt hin) hstarted
      exact ⟨_, hraise, hqueue.raised mem_cons_self _ _, Attends.raised hs hm hi rfl⟩
    | finished disk hfinished =>
      rw [hfinished] at hc
      cases hc

/-- A request that is waited for keeps the controller busy or its interrupt raised. -/
theorem controller_ne_idle (h : Works d o s (b :: l)) : s.controller ≠ .idle := by
  obtain ⟨-, -, hphase⟩ := h
  cases hphase with
  | started hc => simp [hc]
  | finished disk hc => simp [hc]

end Works

theorem step_works (x : Label) (h : ∃ l, Works d o s l) (hstep : step d x s = some s') :
    ∃ l, Works d o s' l := by
  obtain ⟨l, h⟩ := h
  cases x with
  | touch b v =>
    simp only [step, ite_none_right_eq_some] at hstep
    obtain ⟨hb, heq⟩ := hstep
    cases heq
    exact ⟨l, h.touch hb v⟩
  | call b =>
    simp only [step, ite_none_right_eq_some] at hstep
    obtain ⟨hoffers, hiderw⟩ := hstep
    obtain ⟨s₁, hs₁, hworks⟩ := h.iderw hoffers (iderw_passes hiderw)
    obtain rfl := some.inj (hs₁.symm.trans hiderw)
    exact ⟨l ++ [b], hworks⟩
  | resume b =>
    simp only [step, ite_none_right_eq_some] at hstep
    obtain ⟨hb, heq⟩ := hstep
    cases heq
    exact ⟨l, h.wait hb⟩
  | raise =>
    cases hc : s.controller with
    | busy c =>
      obtain ⟨s₁, hs₁, hworks⟩ := h.raise hc
      obtain rfl := some.inj (hs₁.symm.trans hstep)
      exact ⟨l, hworks⟩
    | idle | ready sector => simp [step, raise, hc] at hstep
  | interrupt =>
    simp only [step] at hstep
    cases hc : s.controller with
    | ready sector =>
      obtain ⟨b, l', s₁, -, hs₁, hworks⟩ := h.ideintr hc
      rw [hc] at hstep
      obtain rfl := some.inj (hs₁.symm.trans hstep)
      exact ⟨l', hworks⟩
    | idle | busy c => simp [hc] at hstep

theorem run_works {buf : Fin NBUF → Buf} {disk : Sectors} {xs : List Label}
    (hrun : runFrom (step d) xs (.start buf disk) = some s) :
    ∃ l, Works d ⟨buf, disk⟩ s l :=
  runFrom_invariant (fun x _ _ h hstep => step_works x h hstep)
    ⟨[], start_queue d buf disk, start_rests d.size buf disk⟩ hrun

/-! ## The driver is an instantaneous disk -/

/-- The driver in state `s` with the queue `l`, after a start from `o`. -/
structure Behaves (d : Drives) (o : Instant) (s : State) (l : List (Fin NBUF)) : Prop where
  /-- The queue holds each buffer that a process waits for once. -/
  holds : s.queue.Holds l
  once : l.Nodup
  pending : ∀ b, b ∈ l ↔ s.inside b = true ∧ done (s.buf b) = false
  /-- Only the head has been started, and the order is kept. -/
  started : startedOf s.log = completedOf s.log ++ l.take 1
  inOrder : queuedOf s.log = completedOf s.log ++ l
  /-- Each request has been transferred once, in the direction of its dirty flag. -/
  moved : movedOf s.log = (requestsOf s.log ++ s.raised).map move
  /-- A call of `iderw` returns with the flags set and the sector in the buffer. -/
  returned : ∀ b v sector, .returned b v sector ∈ s.log →
    v.valid = true ∧ v.dirty = false ∧ v.data = sector
  /-- The instantaneous disk, told of the completions in turn, has the same buffers, and the same
  sectors but for a transfer that has been made and not reported. -/
  instant : ∃ t, runFrom (Instant.step d.size) s.log o = some t ∧ t.buf = s.buf ∧
    s.disk = s.raised.foldl land t.disk
  /-- No call that passes the checks of `iderw` gets stuck: it is queued, the queue moves on, and
  the process finds its buffer done. -/
  called : ∀ b, s.Offers d b → s.Passes d.havedisk1 b → (step d (.call b) s).isSome = true
  served : l ≠ [] → (step d .raise s).isSome = true ∨ (step d .interrupt s).isSome = true
  resumed : ∀ b, s.inside b = true → b ∉ l →
    ∃ s', step d (.resume b) s = some s' ∧ s'.inside b = false

namespace Works

theorem started_take (h : Works d o s l) :
    startedOf s.log = completedOf s.log ++ l.take 1 := by
  cases l with
  | nil => simpa using h.2.started
  | cons b l => simpa using h.2.1

theorem instant_raised (h : Works d o s l) :
    movedOf s.log = (requestsOf s.log ++ s.raised).map move ∧
      ∃ t, runFrom (Instant.step d.size) s.log o = some t ∧ t.buf = s.buf ∧
        s.disk = s.raised.foldl land t.disk := by
  obtain ⟨hqueue, hattends⟩ := h
  cases l with
  | nil =>
    obtain ⟨hc, -, hm, hi⟩ := hattends
    have hraised : s.raised = [] := by simp [State.raised, hc]
    rw [hraised]
    exact ⟨by simpa using hm, _, hi, rfl, rfl⟩
  | cons b l =>
    have hhead : s.queue.head = some b := hqueue.holds.head_eq
    obtain ⟨-, hphase⟩ := hattends
    cases hphase with
    | started hc hm hi =>
      have hraised : s.raised = [] := by simp [State.raised, hc]
      rw [hraised]
      exact ⟨by simpa using hm, _, hi, rfl, rfl⟩
    | finished disk hc hm hi hland =>
      have hraised : s.raised = [s.buf b] := by simp [State.raised, hc, hhead]
      rw [hraised]
      exact ⟨hm, _, hi, rfl, hland⟩

theorem served (h : Works d o s (b :: l)) :
    (step d .raise s).isSome = true ∨ (step d .interrupt s).isSome = true := by
  cases hc : s.controller with
  | idle => exact absurd hc h.controller_ne_idle
  | busy c =>
    obtain ⟨s', hs', -⟩ := h.raise hc
    exact .inl (isSome_iff_exists.mpr ⟨s', hs'⟩)
  | ready sector =>
    obtain ⟨-, -, s', -, hs', -⟩ := h.ideintr hc
    refine .inr (isSome_iff_exists.mpr ⟨s', ?_⟩)
    simp only [step, hc, hs']

theorem behaves (h : Works d o s l) : Behaves d o s l where
  holds := h.1.holds
  once := h.1.nodup
  pending := h.1.mem
  started := h.started_take
  inOrder := h.1.queued
  moved := h.instant_raised.1
  returned := by
    intro b v sector hmem
    obtain ⟨hdone, hdata⟩ := h.1.returned b v sector hmem
    simp only [done, Bool.and_eq_true, Bool.not_eq_true'] at hdone
    exact ⟨hdone.1, hdone.2, hdata⟩
  instant := h.instant_raised.2
  called := by
    intro b hoffers hpasses
    obtain ⟨s', hs', -⟩ := h.iderw hoffers hpasses
    simp [step, hoffers, hs']
  served := by
    intro hne
    obtain ⟨b, l, rfl⟩ := exists_cons_of_ne_nil hne
    exact h.served
  resumed := by
    intro b hin hout
    have hdone : done (s.buf b) = true := by
      by_contra hnot
      exact hout ((h.1.mem b).mpr ⟨hin, by simpa using hnot⟩)
    refine ⟨Ide.wait b s, by simp [step, hin], ?_⟩
    simp [Ide.wait, hdone]

end Works

/-- Whatever the order in which processes call `iderw` and are woken up in it, the controller
finishes and its interrupts are handled, the driver is an instantaneous disk. -/
theorem ide_refines (d : Drives) (buf : Fin NBUF → Buf) (disk : Sectors) (xs : List Label)
    (s : State) (hrun : runFrom (step d) xs (.start buf disk) = some s) :
    ∃ l, Behaves d ⟨buf, disk⟩ s l := by
  obtain ⟨l, h⟩ := run_works hrun
  exact ⟨l, h.behaves⟩

/-- One process writes sector 5 while another one waits to read sector 6. -/
def twoCalls (a b : Fin NBUF) : List Label :=
  [.touch a ⟨some 1, 5, true, true, true, Bytes.zero BSIZE⟩, .call a,
   .touch b ⟨some 1, 6, true, false, false, Bytes.zero BSIZE⟩, .call b, .resume b, .raise,
   .resume a, .interrupt, .resume a, .raise, .interrupt, .resume b]

theorem ide_refines_twoCalls :
    ∃ s a b, runFrom (step ⟨true, 1000, by decide⟩) (twoCalls a b)
        (.start binit.buf fun _ _ => Bytes.zero BSIZE) = some s ∧
      completedOf s.log = [a, b] ∧ ∃ l, Behaves ⟨true, 1000, by decide⟩
        ⟨binit.buf, fun _ _ => Bytes.zero BSIZE⟩ s l := by
  have hrun : (runFrom (step ⟨true, 1000, by decide⟩)
      (twoCalls ⟨0, by decide⟩ ⟨1, by decide⟩)
      (.start binit.buf fun _ _ => Bytes.zero BSIZE)).map (fun s => completedOf s.log) =
        some [⟨0, by decide⟩, ⟨1, by decide⟩] := by
    decide +kernel
  obtain ⟨s, hs, hlog⟩ := map_eq_some_iff.mp hrun
  exact ⟨s, _, _, hs, hlog, ide_refines _ _ _ _ s hs⟩

end Xv6.Ide
