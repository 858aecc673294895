import Xv6.Log.Atomic

/-!
# What a `bread` returns

The machine of `Xv6.Log.Machine` without crashes, and with processes that may also write a buffer
out themselves with `bwrite`. Beside it runs a flat disk, `written`: `log_write` and `bwrite` put
the data of the buffer there, and `commit` writes the log blocks and the header from what the flat
disk has. `install_trans` writes nothing there: the logged sectors have their data already. The
cache refines the flat disk: whatever has been evicted and read again in between, a `bread` returns
what `written` has.

This holds for processes that do not `bwrite` a logged sector and leave the log area alone. Then a
logged sector also stays in its dirty buffer, and the disk keeps the old contents, until
`install_trans`.
-/

namespace Xv6

open Function Option

open Lib

/-- What happens next. -/
inductive BufEvent where
  | beginOp (p : Nat)
  | bread (p sector : Nat)
  /-- Process `p` stores into `b->data`. -/
  | modify (p : Nat) (b : Fin NBUF) (data : Block)
  /-- `p` calls `log_write(b)`; its tests. -/
  | logTests (p : Nat) (b : Fin NBUF)
  /-- The locked section of that `log_write`. -/
  | logWrite (p : Nat) (b : Fin NBUF)
  | bwrite (p : Nat) (b : Fin NBUF)
  | brelse (p : Nat) (b : Fin NBUF)
  | endOp (p : Nat)
  /-- The next sector write, or loop exit, of `commit`. -/
  | commit (p : Nat)

namespace Machine

/-- The machine once `recover_from_log` has found an empty log. -/
def up (g : Geometry) (disk : Nat → Block) : Machine := { powerOn g disk with phase := .up }

/-- One event; `none` when it cannot happen now. A process works on the buffers it holds, and does
not release one with changes that it has neither logged nor written. -/
def bufStep (g : Geometry) : BufEvent → Machine → Option Machine
  | .beginOp p, m => step g (.beginOp p) m
  | .bread p sector, m => step g (.bread p sector) m
  | .modify p b data, m =>
    if m.Serving ∧ m.AtLarge p ∧ m.holder b = some p then
      m.exec (setData b data) fun _ st =>
        { m with store := st, edited := update m.edited b true }
    else none
  | .logTests p b, m =>
    if m.Serving ∧ m.holder b = some p then
      (OpSys.step (.logTests p (m.store.buf b).sector) m.ops).map fun o => { m with ops := o }
    else none
  | .logWrite p b, m => step g (.logWrite p b) m
  | .bwrite p b, m =>
    if m.Serving ∧ m.AtLarge p ∧ m.holder b = some p then
      m.exec (bwrite b) fun _ st =>
        { m with store := st, edited := update m.edited b false }
    else none
  | .brelse p b, m => step g (.brelse p b) m
  | .endOp p, m => step g (.endOp p) m
  | .commit p, m => step g (.commit p) m

/-- The sectors that are logged and not yet installed. -/
def pins (m : Machine) : Set Nat := m.phase.pins m.ops.log.lh

/-- What the next step of `commit` writes to the flat disk. -/
def flatCommit (m : Machine) (written : Nat → Block) : Nat → Block :=
  let log := m.ops.log
  match m.phase with
  | .writeLog tail =>
    if tail < log.lh.length then
      update written (log.start + tail + 1) (written (log.lh.getD tail 0))
    else written
  | .writeHead | .erase => update written log.start (putHead log.lh (written log.start))
  | _ => written

end Machine

/-- What the event that led from `m` to `m'` writes to the flat disk. -/
def recordWrite (e : BufEvent) (m m' : Machine) (written : Nat → Block) : Nat → Block :=
  if m'.ops.panicked = none then
    match e with
    | .logWrite _ b | .bwrite _ b =>
      update written (m.store.buf b).sector (m.store.buf b).data
    | .commit _ => m.flatCommit written
    | _ => written
  else written

/-- The machine with its flat disk. -/
def writtenStep (g : Geometry) (e : BufEvent) (s : Machine × (Nat → Block)) :
    Option (Machine × (Nat → Block)) :=
  (Machine.bufStep g e s.1).map fun m' => (m', recordWrite e s.1 m' s.2)

/-- The process leaves the log area alone, and the logged sectors when it writes. -/
def Proper (e : BufEvent) (m : Machine) : Prop :=
  match e with
  | .logTests _ b => (m.store.buf b).sector < m.ops.log.start
  | .bwrite _ b => (m.store.buf b).sector < m.ops.log.start ∧ (m.store.buf b).sector ∉ m.pins
  | _ => True

/-- The event leaves the logged sectors logged, and their old contents on the disk; only
`install_trans` moves one of them on. -/
def KeepsHome (e : BufEvent) (m m' : Machine) : Prop :=
  ∀ s ∈ m.pins, (m'.store.disk s = m.store.disk s ∧ s ∈ m'.pins) ∨
    ∃ p tail, e = .commit p ∧ m.phase = .install tail ∧ m.ops.log.lh[tail]? = some s

/-! ## The invariant -/

/-- `write_log` has copied sector `i` of the header, and `install_trans` has not yet. -/
def Phase.Copied : Phase → Nat → Prop
  | .writeLog tail, i => i < tail
  | .writeHead, _ => True
  | .install tail, i => tail ≤ i
  | _, _ => False

/-- The cache stands for the flat disk, the logged sectors are those that the disk does not have
yet, and their log blocks have what `install_trans` is going to need. -/
structure Tracks (m : Machine) (written : Nat → Block) : Prop where
  counted : ∃ a, Counted m.ops a
  serving : m.phase.recovering = false
  phase : m.ops.log.committing = false → m.phase = .up
  done : m.phase = .erase ∨ m.phase = .committed → m.ops.log.lh = []
  flat : Flat m.store written m.pins { b | m.edited b = true }
  held : ∀ b p, m.holder b = some p → (m.store.buf b).busy = true ∧
    (m.store.buf b).dev = some ROOTDEV
  lh : ∀ s ∈ m.ops.log.lh, s < m.ops.log.start
  logging : ∀ p s, m.ops.pc p = .logging s → s < m.ops.log.start
  copied : ∀ i s, m.ops.log.lh[i]? = some s → m.phase.Copied i →
    written (m.ops.log.start + i + 1) = written s

/-- What an event does. -/
def Advances (e : BufEvent) (m m' : Machine) (written : Nat → Block) : Prop :=
  Tracks m' (recordWrite e m m' written) ∧ KeepsHome e m m'

theorem Tracks.up (g : Geometry) (disk : Nat → Block) : Tracks (.up g disk) disk where
  counted := ⟨∅, Counted.boot _ _⟩
  serving := rfl
  phase := fun _ => rfl
  done := fun _ => rfl
  flat := by
    have := flat_binit disk g.size
    simpa [Machine.pins, Machine.up, Machine.powerOn, OpSys.boot, Log.initlog, Phase.pins] using this
  held := by simp [Machine.up, Machine.powerOn]
  lh := by simp [Machine.up, Machine.powerOn, OpSys.boot, Log.initlog]
  logging := by simp [Machine.up, Machine.powerOn, OpSys.boot]
  copied := fun _ _ _ h => h.elim

namespace Tracks

variable {m m' : Machine} {written : Nat → Block} {p : Nat} {b : Fin NBUF} {e : BufEvent}

theorem advances_panic (h : Tracks m written) (msg : String) :
    Advances e m (m.panic msg) written := by
  obtain ⟨a, ha⟩ := h.counted
  refine ⟨?_, fun s hs => .inl ⟨rfl, hs⟩⟩
  rw [show recordWrite e m (m.panic msg) written = written from if_neg (by simp [Machine.panic])]
  exact ⟨⟨a, ha.panic _⟩, h.serving, h.phase, h.done, h.flat, h.held, h.lh, h.logging, h.copied⟩

/-- An event that moves buffers about and leaves the disk and the log alone. -/
theorem advances_cache (h : Tracks m written) (hrec : recordWrite e m m' written = written)
    (hops : m'.ops = m.ops) (hphase : m'.phase = m.phase) (hdisk : m'.store.disk = m.store.disk)
    (hflat : Flat m'.store written m.pins { b | m'.edited b = true })
    (hheld : ∀ b p, m'.holder b = some p → (m'.store.buf b).busy = true ∧
      (m'.store.buf b).dev = some ROOTDEV) : Advances e m m' written := by
  have hpins : m'.pins = m.pins := by unfold Machine.pins; rw [hops, hphase]
  refine ⟨?_, fun s hs => .inl ⟨by rw [hdisk], by rw [hpins]; exact hs⟩⟩
  rw [hrec]
  exact ⟨hops ▸ h.counted, hphase ▸ h.serving, by rw [hops, hphase]; exact h.phase,
    by rw [hops, hphase]; exact h.done, hpins ▸ hflat, hheld, hops ▸ h.lh, hops ▸ h.logging,
    by rw [hops, hphase]; exact h.copied⟩

variable {ops : OpSys} {st : Store} {ph : Phase} {g : Geometry}

/-- An event that only changes who runs an operation. -/
theorem advances_ops (h : Tracks m written)
    (hrec : recordWrite e m { m with ops := ops } written = written)
    (hcount : ∃ a, Counted ops a) (hcom : ops.log.committing = m.ops.log.committing)
    (hlh : ops.log.lh = m.ops.log.lh) (hstart : ops.log.start = m.ops.log.start)
    (hlogging : ∀ p s, ops.pc p = .logging s → s < m.ops.log.start) :
    Advances e m { m with ops := ops } written := by
  have hpins : Machine.pins { m with ops := ops } = m.pins := by
    unfold Machine.pins
    simp only [hlh]
  refine ⟨?_, fun s hs => .inl ⟨rfl, by rw [hpins]; exact hs⟩⟩
  rw [hrec]
  refine ⟨hcount, h.serving, by simp only [hcom]; exact h.phase, by simp only [hlh]; exact h.done,
    by rw [hpins]; exact h.flat, h.held, ?_, ?_, ?_⟩
  · simp only [hlh, hstart]
    exact h.lh
  · simp only [hstart]
    exact hlogging
  · simp only [hlh, hstart]
    exact h.copied

theorem caches (h : Tracks m written) (hb : m.holder b = some p) :
    Caches m.store b (m.store.buf b).sector := ⟨(h.held b p hb).2, rfl⟩

theorem pins_lt {s : Nat} (h : Tracks m written) (hs : s ∈ m.pins) : s < m.ops.log.start := by
  apply h.lh
  unfold Machine.pins Phase.pins at hs
  split at hs
  · exact List.mem_of_mem_drop hs
  · exact hs

theorem mem_pins {i s : Nat} (hs : m.ops.log.lh[i]? = some s) (hi : m.phase.Copied i) :
    s ∈ m.pins := by
  unfold Machine.pins
  cases hm : m.phase with
  | install tail =>
    rw [hm] at hi
    refine List.mem_of_getElem? (i := i - tail) ?_
    rw [List.getElem?_drop, Nat.add_sub_cancel' hi, hs]
  | _ => exact List.mem_of_getElem? hs

theorem bread {sector : Nat} (h : Tracks m written)
    (hok : bread ROOTDEV sector m.store = .ok b st) :
    Advances (.bread p sector) m
      { m with store := st, holder := update m.holder b (some p) } written := by
  obtain ⟨hg, hflat, -⟩ := bread_flat h.flat hok
  refine h.advances_cache (ite_self _) rfl rfl hg.disk hflat fun c q hq => ?_
  by_cases hc : c = b
  · subst hc
    exact ⟨hg.busy, hg.caches.1⟩
  · simp only [update_of_ne hc] at hq
    simp only [hg.others c hc]
    exact h.held c q hq

theorem modify {data : Block} (h : Tracks m written) (hb : m.holder b = some p)
    (hok : setData b data m.store = .ok () st) :
    Advances (.modify p b data) m
      { m with store := st, edited := update m.edited b true } written := by
  obtain ⟨ho, hflat, -, hbusy, hdisk⟩ := setData_flat h.flat (h.caches hb) (h.held b p hb).1 hok
  have hE : { c | update m.edited b true c = true } = insert b { c | m.edited c = true } := by
    ext c
    by_cases hc : c = b <;> simp [hc]
  refine h.advances_cache (ite_self _) rfl rfl hdisk (by rw [hE]; exact hflat) fun c q hq => ?_
  by_cases hc : c = b
  · subst hc
    exact ⟨hbusy, (ho.caches _ (h.caches hb)).1⟩
  · simp only [ho.others c hc]
    exact h.held c q hq

theorem brelse (h : Tracks m written) (hb : m.holder b = some p) (hE : m.edited b = false)
    (hok : brelse b m.store = .ok () st) :
    Advances (.brelse p b) m
      { m with store := st, holder := update m.holder b none } written := by
  obtain ⟨ho, hflat, hdisk, -⟩ := brelse_flat h.flat (h.caches hb) (by simp [hE]) hok
  refine h.advances_cache (ite_self _) rfl rfl hdisk hflat fun c q hq => ?_
  by_cases hc : c = b
  · simp [hc] at hq
  · simp only [update_of_ne hc] at hq
    simp only [ho.others c hc]
    exact h.held c q hq

theorem beginOp {l : Log} (h : Tracks m written) (hpc : m.ops.pc p = .out)
    (hl : m.ops.log.beginOp = some l) :
    Advances (.beginOp p) m
      { m with ops := { m.ops with log := l, pc := update m.ops.pc p .inOp } } written := by
  obtain ⟨a, ha⟩ := h.counted
  have hcount := ha.beginOp hpc hl
  obtain ⟨-, -, rfl⟩ := Log.beginOp_eq_some.mp hl
  refine h.advances_ops (ite_self _) ⟨_, hcount⟩ rfl rfl rfl fun q s hq => ?_
  exact h.logging q s (OpPc.logging_of_update rfl hq).2

theorem logTests (h : Tracks m written) (hproper : Proper (.logTests p b) m)
    (hpc : m.ops.pc p = .inOp) (htests : m.ops.log.logWriteTests = none) :
    Advances (.logTests p b) m
      { m with ops := { m.ops with
        pc := update m.ops.pc p (.logging (m.store.buf b).sector) } } written := by
  obtain ⟨a, ha⟩ := h.counted
  refine h.advances_ops (ite_self _) ⟨a, ha.logTests hpc htests⟩ rfl rfl rfl fun q s hq => ?_
  by_cases hqp : q = p
  · subst hqp
    simp only [update_self, OpPc.logging.injEq] at hq
    exact hq ▸ hproper
  · simp only [update_of_ne hqp] at hq
    exact h.logging q s hq

/-- A process inside an operation: no commit is running. -/
theorem phase_up (h : Tracks m written) (hp : (m.ops.pc p).running = true) : m.phase = .up := by
  obtain ⟨a, ha⟩ := h.counted
  exact h.phase (ha.not_committing hp)

theorem edited_clear (m : Machine) (b : Fin NBUF) :
    { c | update m.edited b false c = true } = { c | m.edited c = true } \ {b} := by
  ext c
  by_cases hc : c = b <;> simp [hc]

theorem logWrite (h : Tracks m written) (hrun : m.ops.panicked = none) (hb : m.holder b = some p)
    (hpc : m.ops.pc p = .logging (m.store.buf b).sector) :
    Advances (.logWrite p b) m
      { m with
        ops := { m.ops with
          log := m.ops.log.logWrite (m.store.buf b).sector
          pc := update m.ops.pc p .inOp }
        store := m.store.setBuf b { m.store.buf b with dirty := true }
        edited := update m.edited b false } written := by
  obtain ⟨a, ha⟩ := h.counted
  have hup := h.phase_up (p := p) (by simp [hpc])
  refine ⟨?_, fun s hs => .inl ⟨rfl, ?_⟩⟩
  · rw [recordWrite, if_pos hrun]
    refine ⟨⟨a, ha.logWrite hpc⟩, h.serving, h.phase, by simp [hup], ?_, fun c q hq => ?_,
      fun s hs => ?_, fun q s hq => ?_, by simp [hup, Phase.Copied]⟩
    · have hpin := pin_flat h.flat (h.caches hb)
      rw [← edited_clear] at hpin
      convert hpin using 1
      ext s
      simp [Machine.pins, Phase.pins, hup, Log.logWrite, Log.mem_absorb]
    · by_cases hc : c = b
      · subst hc
        simpa using h.held c q hq
      · simpa [hc] using h.held c q hq
    · rcases Log.mem_absorb.mp hs with rfl | hs
      · exact h.logging p _ hpc
      · exact h.lh s hs
    · exact h.logging q s (OpPc.logging_of_update rfl hq).2
  · simp only [Machine.pins, hup, Phase.pins, Set.mem_ofPred_eq] at hs ⊢
    exact Log.mem_absorb.mpr (.inr hs)

theorem bwrite (h : Tracks m written) (hrun : m.ops.panicked = none)
    (hproper : Proper (.bwrite p b) m) (hb : m.holder b = some p)
    (hok : bwrite b m.store = .ok () st) :
    Advances (.bwrite p b) m
      { m with store := st, edited := update m.edited b false } written := by
  obtain ⟨hlt, hnot⟩ := hproper
  obtain ⟨ho, hflat, hdisk, -, hbusy⟩ := bwrite_flat h.flat (h.caches hb) hok
  rw [← edited_clear, Set.sdiff_singleton_eq_self hnot] at hflat
  refine ⟨?_, fun s hs => .inl ⟨?_, hs⟩⟩
  · rw [recordWrite, if_pos hrun]
    refine ⟨h.counted, h.serving, h.phase, h.done, hflat, fun c q hq => ?_, h.lh, h.logging,
      fun i s hs hi => ?_⟩
    · by_cases hc : c = b
      · subst hc
        exact ⟨hbusy, (ho.caches _ (h.caches hb)).1⟩
      · simp only [ho.others c hc]
        exact h.held c q hq
    · -- neither the logged sector nor its log block was written
      have hne : s ≠ (m.store.buf b).sector := fun heq => hnot (heq ▸ mem_pins hs hi)
      simp only
      rw [update_of_ne hne, update_of_ne (by omega)]
      exact h.copied i s hs hi
  · have hne : s ≠ (m.store.buf b).sector := fun heq => hnot (heq ▸ hs)
    rw [hdisk, update_of_ne hne]

theorem endOp (h : Tracks m written) (hpc : m.ops.pc p = .inOp) (hops : ops = { m.ops with
      log := { m.ops.log with
        outstanding := m.ops.log.outstanding - 1
        committing := decide (m.ops.log.outstanding = 1) }
      pc := update m.ops.pc p
        (if decide (m.ops.log.outstanding = 1) = true then .committing else .out) }) :
    Advances (.endOp p) m
      { m with
        ops := ops
        phase := if ops.pc p = .committing then
            (if ops.log.lh.length > 0 then .writeLog 0 else .committed)
          else m.phase } written := by
  obtain ⟨a, ha⟩ := h.counted
  have hup := h.phase_up (p := p) (by simp [hpc])
  have hcount := ha.endOp hpc
  rw [← hops] at hcount
  have hlh : ops.log.lh = m.ops.log.lh := by rw [hops]
  have hstart : ops.log.start = m.ops.log.start := by rw [hops]
  have hcom : ops.log.committing = decide (m.ops.log.outstanding = 1) := by rw [hops]
  have hpcp : ops.pc p = if decide (m.ops.log.outstanding = 1) = true then .committing else .out := by
    rw [hops]
    exact update_self ..
  have hlogging : ∀ q s, ops.pc q = .logging s → m.ops.pc q = .logging s := by
    intro q s hq
    by_cases hqp : q = p
    · rw [hqp, hpcp] at hq
      split at hq <;> cases hq
    · rw [hops] at hq
      exact (update_of_ne hqp ..).symm.trans hq
  set ph := if ops.pc p = .committing then
      (if ops.log.lh.length > 0 then Phase.writeLog 0 else .committed) else m.phase with hph
  have hcases : ph = .up ∧ ops.log.committing = false ∨
      ops.log.committing = true ∧ (ph = .writeLog 0 ∨ ph = .committed ∧ ops.log.lh = []) := by
    by_cases hout : m.ops.log.outstanding = 1
    · refine .inr ⟨by rw [hcom]; simp [hout], ?_⟩
      rw [hph, hpcp]
      by_cases hlen : ops.log.lh.length > 0
      · simp [hout, hlen]
      · exact .inr ⟨by simp [hout, hlen], List.eq_nil_of_length_eq_zero (by omega)⟩
    · refine .inl ⟨?_, by rw [hcom]; simp [hout]⟩
      rw [hph, hpcp]
      simp [hout, hup]
  have hkind : ph = .up ∨ ph = .writeLog 0 ∨ ph = .committed := by
    rcases hcases with ⟨hu, -⟩ | ⟨-, hw | ⟨hc, -⟩⟩
    · exact .inl hu
    · exact .inr (.inl hw)
    · exact .inr (.inr hc)
  have hpins : ph.pins ops.log.lh = m.pins := by
    rw [hlh]
    rcases hkind with hk | hk | hk <;> simp only [hk, Machine.pins, hup, Phase.pins]
  refine ⟨?_, fun s hs => .inl ⟨rfl, ?_⟩⟩
  · rw [show recordWrite (.endOp p) m _ written = written from ite_self _]
    refine ⟨⟨_, hcount⟩, ?_, fun hno => ?_, fun hdone => ?_, ?_, h.held, by rw [hlh, hstart]; exact h.lh,
      fun q s hq => ?_, fun i s _ hi => ?_⟩
    · rcases hkind with hk | hk | hk <;> simp [hk, Phase.recovering]
    · rcases hcases with ⟨hu, -⟩ | ⟨hyes, -⟩
      · exact hu
      · simp only [hyes] at hno
        cases hno
    · rcases hcases with ⟨hu, -⟩ | ⟨-, hw | ⟨-, hnil⟩⟩
      · simp [hu] at hdone
      · simp [hw] at hdone
      · exact hnil
    · unfold Machine.pins
      simp only
      rw [hpins]
      exact h.flat
    · simp only [hstart]
      exact h.logging q s (hlogging q s hq)
    · rcases hkind with hk | hk | hk <;> simp [hk, Phase.Copied] at hi
  · change s ∈ ph.pins ops.log.lh
    rw [hpins]
    exact hs

/-! ### The steps of `commit` -/

/-- A sector write of `commit` to the log area. -/
theorem ofWrite {s : Nat} {d : Block} (h : Tracks m written) (hrun : m.ops.panicked = none)
    (hcommit : m.flatCommit written = update written s d) (hs : m.ops.log.start ≤ s)
    (hkept : Kept m.store st)
    (hflat : Flat st (update written s d) (m.pins \ {s}) { b | m.edited b = true })
    (hdisk : st.disk = update m.store.disk s d)
    (hserving : ph.recovering = false) (hcom : m.ops.log.committing = true)
    (hdone : ph = .erase ∨ ph = .committed → m.ops.log.lh = [])
    (hpins : ph.pins m.ops.log.lh = m.pins)
    (hcopied : ∀ i t, m.ops.log.lh[i]? = some t → ph.Copied i →
      update written s d (m.ops.log.start + i + 1) = written t) :
    Advances (.commit p) m { m with store := st, phase := ph } written := by
  have hnot : s ∉ m.pins := fun hmem => absurd (h.pins_lt hmem) (by omega)
  rw [Set.sdiff_singleton_eq_self hnot] at hflat
  refine ⟨?_, fun t ht => .inl ⟨?_, by rw [Machine.pins, hpins]; exact ht⟩⟩
  · rw [recordWrite, if_pos hrun]
    simp only [hcommit]
    refine ⟨h.counted, hserving, fun hno => ?_, hdone, ?_, fun c q hq => ?_, h.lh, h.logging,
      fun i t ht hi => ?_⟩
    · rw [hcom] at hno
      cases hno
    · rw [Machine.pins, hpins]
      exact hflat
    · simp only [hkept.held c (h.held c q hq).1]
      exact h.held c q hq
    · have hlt := h.lh t (List.mem_of_getElem? ht)
      exact (hcopied i t ht hi).trans (update_of_ne (by omega) ..).symm
  · have hlt := h.pins_lt ht
    rw [hdisk, update_of_ne (by omega)]

/-- A step of `commit` between two writes. -/
theorem ofPhase (lh : List Nat) (h : Tracks m written) (hcommit : m.flatCommit written = written)
    (hserving : ph.recovering = false)
    (hcom : m.ops.log.committing = true) (hdone : ph = .erase ∨ ph = .committed → lh = [])
    (hcount : ∃ a, Counted { m.ops with log := { m.ops.log with lh := lh } } a)
    (hlh : ∀ s ∈ lh, s ∈ m.ops.log.lh) (hpins : ph.pins lh = m.pins)
    (hcopied : ∀ i s, lh[i]? = some s → ph.Copied i →
      written (m.ops.log.start + i + 1) = written s) :
    Advances (.commit p) m { m.setLh lh with phase := ph } written := by
  have hrec : recordWrite (.commit p) m { m.setLh lh with phase := ph } written = written := by
    simp only [recordWrite, hcommit, ite_self]
  refine ⟨?_, fun s hs => .inl ⟨rfl, ?_⟩⟩
  · rw [hrec]
    refine ⟨hcount, hserving, fun hno => ?_, hdone, ?_, h.held, fun s hs => h.lh s (hlh s hs),
      h.logging, hcopied⟩
    · simp only [Machine.setLh, hcom] at hno
      cases hno
    · change Flat m.store written (ph.pins lh) _
      rw [hpins]
      exact h.flat
  · change s ∈ ph.pins lh
    rw [hpins]
    exact hs

/-- `install_trans` writes what the flat disk has. -/
theorem install {tail : Nat} (h : Tracks m written) (hrun : m.ops.panicked = none)
    (hm : m.phase = .install tail) (htail : tail < m.ops.log.lh.length)
    (hcom : m.ops.log.committing = true)
    (hok : installBody m.ops.log.start m.ops.log.lh tail m.store = .ok () st) :
    Advances (.commit p) m { m with store := st, phase := .install (tail + 1) } written := by
  obtain ⟨a, ha⟩ := h.counted
  obtain ⟨hflat, hdisk, hkept⟩ := installBody_flat h.flat hok
  have hget : m.ops.log.lh[tail]? = some (m.ops.log.lh.getD tail 0) := by
    rw [List.getD_eq_getElem?_getD, List.getElem?_eq_getElem htail, getD_some]
  have hdata := h.copied tail _ hget (by rw [hm]; exact le_rfl)
  rw [hdata, update_eq_self] at hflat
  -- the header has no sector twice
  have hpins : Phase.pins (.install (tail + 1)) m.ops.log.lh =
      m.pins \ {m.ops.log.lh.getD tail 0} := by
    have hdrop : m.ops.log.lh.drop tail =
        m.ops.log.lh.getD tail 0 :: m.ops.log.lh.drop (tail + 1) := by
      rw [List.getD_eq_getElem?_getD, List.getElem?_eq_getElem htail, getD_some]
      exact List.drop_eq_getElem_cons htail
    have hnodup := ha.nodup.sublist (List.drop_sublist tail _)
    rw [hdrop, List.nodup_cons] at hnodup
    ext t
    simp only [Machine.pins, hm, Phase.pins, hdrop, Set.mem_sdiff, Set.mem_ofPred_eq,
      List.mem_cons, Set.mem_singleton_iff]
    constructor
    · exact fun ht => ⟨.inr ht, fun heq => hnodup.1 (heq ▸ ht)⟩
    · rintro ⟨rfl | ht, hne⟩
      · exact absurd rfl hne
      · exact ht
  refine ⟨?_, fun t ht => ?_⟩
  · rw [recordWrite, if_pos hrun]
    simp only [Machine.flatCommit, hm]
    refine ⟨h.counted, rfl, fun hno => ?_, by simp, ?_, fun c q hq => ?_, h.lh, h.logging,
      fun i t ht hi => h.copied i t ht ?_⟩
    · rw [hcom] at hno
      cases hno
    · change Flat st written (Phase.pins (.install (tail + 1)) m.ops.log.lh) _
      rw [hpins]
      exact hflat
    · simp only [hkept.held c (h.held c q hq).1]
      exact h.held c q hq
    · rw [hm]
      exact Nat.le_of_succ_le hi
  · by_cases hts : t = m.ops.log.lh.getD tail 0
    · exact .inr ⟨p, tail, rfl, hm, hts ▸ hget⟩
    · refine .inl ⟨by rw [hdisk, update_of_ne hts], ?_⟩
      change t ∈ Phase.pins (.install (tail + 1)) m.ops.log.lh
      rw [hpins]
      exact ⟨ht, hts⟩

theorem commitStep (h : Tracks m written) (hrun : m.ops.panicked = none)
    (hpc : m.ops.pc p = .committing) (hstep : m.commitStep p = some m') :
    Advances (.commit p) m m' written := by
  obtain ⟨a, ha⟩ := h.counted
  have hcom := ha.committer p hpc
  unfold Machine.commitStep at hstep
  simp only at hstep
  split at hstep
  · rename_i tail hm
    have hcopied := h.copied
    rw [hm] at hcopied
    split at hstep
    · rename_i htail
      refine Machine.exec_meets hstep (fun _ st hok => ?_) h.advances_panic
      obtain ⟨hflat, hdisk, hkept⟩ := writeLogBody_flat h.flat hok
      refine h.ofWrite hrun (by simp [Machine.flatCommit, hm, htail]) (by omega) hkept hflat hdisk
        rfl hcom (by simp) (by simp only [Machine.pins, hm, Phase.pins]) fun i t ht hi => ?_
      rcases Nat.lt_succ_iff_lt_or_eq.mp hi with hlt | rfl
      · rw [update_of_ne (by omega)]
        exact hcopied i t ht hlt
      · rw [update_self, List.getD_eq_getElem?_getD, ht, getD_some]
    · rename_i htail
      cases hstep
      refine h.ofPhase m.ops.log.lh (by simp [Machine.flatCommit, hm, htail]) rfl hcom (by simp)
        ⟨a, ha⟩ (fun _ hs => hs) (by simp only [Machine.pins, hm, Phase.pins]) fun i t ht _ => ?_
      obtain ⟨hlt, -⟩ := List.getElem?_eq_some_iff.mp ht
      exact hcopied i t ht (hlt.trans_le (Nat.le_of_not_lt htail))
  · rename_i hm
    refine Machine.exec_meets hstep (fun _ st hok => ?_) h.advances_panic
    obtain ⟨hflat, hdisk, hkept⟩ := writeHead_flat h.flat hok
    refine h.ofWrite hrun (by simp [Machine.flatCommit, hm]) le_rfl hkept hflat hdisk rfl hcom
      (by simp) (by simp only [Machine.pins, hm, Phase.pins, List.drop_zero]) fun i t ht _ => ?_
    rw [update_of_ne (by omega)]
    exact h.copied i t ht (by rw [hm]; trivial)
  · rename_i tail hm
    split at hstep
    · rename_i htail
      exact Machine.exec_meets hstep (fun _ _ => h.install hrun hm htail hcom) h.advances_panic
    · rename_i htail
      cases hstep
      refine h.ofPhase [] (by simp [Machine.flatCommit, hm]) rfl hcom (fun _ => rfl) ⟨a, ?_⟩
        (by simp) ?_ (by simp)
      · have hroom := ha.room
        exact ⟨ha.running, ha.outstanding, ha.committer, ha.oneCommitter, ha.quiet, List.nodup_nil,
          ha.few, by simp only [List.length_nil]; omega⟩
      · simp only [Machine.pins, hm, Phase.pins, List.drop_of_length_le (Nat.le_of_not_lt htail)]
  · rename_i hm
    have hnil := h.done (.inl hm)
    refine Machine.exec_meets hstep (fun _ st hok => ?_) h.advances_panic
    obtain ⟨hflat, hdisk, hkept⟩ := writeHead_flat h.flat hok
    exact h.ofWrite hrun (by simp [Machine.flatCommit, hm]) le_rfl hkept hflat hdisk rfl hcom
      (fun _ => hnil) (by simp only [Machine.pins, hm, Phase.pins]) fun _ _ _ hi => hi.elim
  · rename_i hm
    obtain ⟨o, ho, rfl⟩ := map_eq_some_iff.mp hstep
    have hnil := h.done (.inr hm)
    have hcount := OpSys.step_counted ha ho
    obtain ⟨-, ⟨⟩⟩ := ite_none_right_eq_some.mp ho
    refine ⟨?_, fun s hs => ?_⟩
    · rw [recordWrite, if_pos hrun]
      simp only [Machine.flatCommit, hm]
      refine ⟨⟨_, hcount⟩, rfl, fun _ => rfl, fun _ => rfl, ?_, h.held, by simp [Log.endCommit],
        fun q s hq => ?_, fun _ _ _ hi => hi.elim⟩
      · have hflat := h.flat
        simp only [Machine.pins, hm, Phase.pins, hnil] at hflat
        exact hflat
      · exact h.logging q s (OpPc.logging_of_update rfl hq).2
    · simp [Machine.pins, hm, Phase.pins, hnil] at hs
  · cases hstep

theorem step (h : Tracks m written) (hproper : Proper e m)
    (hstep : Machine.bufStep g e m = some m') : Advances e m m' written := by
  cases e with
  | beginOp p =>
    obtain ⟨-, hpc, o, ho, rfl⟩ := guarded_map hstep
    obtain ⟨l, hl, rfl⟩ := map_eq_some_iff.mp ho
    exact h.beginOp hpc.2 hl
  | bread p sector =>
    obtain ⟨-, hstep⟩ := ite_none_right_eq_some.mp hstep
    exact Machine.exec_meets hstep (fun _ _ => h.bread) h.advances_panic
  | modify p b data =>
    obtain ⟨hs, hstep⟩ := ite_none_right_eq_some.mp hstep
    exact Machine.exec_meets hstep (fun _ _ => h.modify hs.2.2) h.advances_panic
  | logTests p b =>
    obtain ⟨-, hpc, o, ho, rfl⟩ := guarded_map hstep
    split at ho <;> rename_i htests <;> cases ho
    · exact h.advances_panic _
    · exact h.logTests hproper hpc.2 htests
  | logWrite p b =>
    obtain ⟨hs, hpc, o, ⟨⟩, rfl⟩ := guarded_map hstep
    exact h.logWrite hs.1.1 hs.2 hpc.2
  | bwrite p b =>
    obtain ⟨hs, hstep⟩ := ite_none_right_eq_some.mp hstep
    exact Machine.exec_meets hstep (fun _ _ => h.bwrite hs.1.1 hproper hs.2.2) h.advances_panic
  | brelse p b =>
    obtain ⟨hs, hstep⟩ := ite_none_right_eq_some.mp hstep
    exact Machine.exec_meets hstep (fun _ _ => h.brelse hs.2.2.1 hs.2.2.2) h.advances_panic
  | endOp p =>
    obtain ⟨-, hpc, o, ho, rfl⟩ := guarded_map hstep
    obtain ⟨a, ha⟩ := h.counted
    rw [Log.endOp_of_not_committing (ha.not_committing (p := p) (by simp [hpc.2]))] at ho
    exact h.endOp hpc.2 (some.inj ho).symm
  | commit p =>
    obtain ⟨hs, hstep⟩ := ite_none_right_eq_some.mp hstep
    exact h.commitStep hs.1.1 hs.2 hstep

theorem run {disk : Nat → Block} {es : List BufEvent} {s : Machine × (Nat → Block)}
    (hmeet : StepsMeet (writtenStep g) (fun e s => Proper e s.1) es (.up g disk, disk))
    (hrun : runFrom (writtenStep g) es (.up g disk, disk) = some s) : Tracks s.1 s.2 := by
  have hstep : ∀ e (s t : Machine × (Nat → Block)), Tracks s.1 s.2 → Proper e s.1 →
      writtenStep g e s = some t → Tracks t.1 t.2 := by
    intro e s t h hproper ht
    obtain ⟨m', hm', rfl⟩ := map_eq_some_iff.mp ht
    exact (h.step hproper hm').1
  exact runFrom_invariant_of hstep (Tracks.up g disk) hmeet hrun

end Tracks

/-! ## The cache refines the flat disk -/

/-- If nobody writes a logged sector or the log area with `bwrite`, or logs a sector of the log,
then, whatever the interleaving, a `bread` returns the data that `log_write` or `bwrite` last wrote
to the sector, or the disk had at the start. Every logged sector is in a dirty buffer, and every
next event leaves it there, with the old contents on the disk, except the one that installs it. -/
theorem bread_written (g : Geometry) (disk : Nat → Block) (es : List BufEvent) (m : Machine)
    (written : Nat → Block)
    (hrun : runFrom (writtenStep g) es (.up g disk, disk) = some (m, written))
    (hmeet : StepsMeet (writtenStep g) (fun e s => Proper e s.1) es (.up g disk, disk)) :
    (∀ sector b st, bread ROOTDEV sector m.store = .ok b st → (st.buf b).data = written sector) ∧
    (∀ s ∈ m.pins, ∃ b, Caches m.store b s ∧ (m.store.buf b).dirty = true) ∧
    ∀ e m', Machine.bufStep g e m = some m' → Proper e m → KeepsHome e m m' := by
  have h := Tracks.run hmeet hrun
  exact ⟨fun sector b st hok => (bread_flat h.flat hok).2.2.2, h.flat.pin,
    fun e m' hstep hproper => (h.step hproper hstep).2⟩

/-- One operation logs a sector, another process reads it, and `commit` copies it to the log. -/
def logAndRead : List BufEvent :=
  let b : Fin NBUF := ⟨0, NBUF_pos⟩
  [.beginOp 0, .bread 0 3, .modify 0 b (fun _ => 7), .logTests 0 b, .logWrite 0 b, .brelse 0 b,
    .bread 1 3, .brelse 1 b, .endOp 0, .commit 0, .commit 0]

/-- `Proper` as a check. -/
def isProper (e : BufEvent) (m : Machine) : Bool :=
  match e with
  | .logTests _ b => decide ((m.store.buf b).sector < m.ops.log.start)
  | .bwrite .. => false
  | _ => true

theorem proper_of_isProper {e : BufEvent} {m : Machine} (h : isProper e m = true) :
    Proper e m := by
  cases e with
  | logTests p b => simpa [isProper, Proper] using h
  | bwrite p b => cases h
  | _ => trivial

theorem bread_written_logAndRead :
    ∃ m written,
      runFrom (writtenStep smallDisk) logAndRead
        (.up smallDisk fun _ => Bytes.zero BSIZE, fun _ => Bytes.zero BSIZE) = some (m, written) ∧
      m.phase = .writeHead ∧ m.ops.log.lh = [3] ∧
      (∀ sector b st, bread ROOTDEV sector m.store = .ok b st →
        (st.buf b).data = written sector) ∧
      (∀ s ∈ m.pins, ∃ b, Caches m.store b s ∧ (m.store.buf b).dirty = true) ∧
      ∀ e m', Machine.bufStep smallDisk e m = some m' → Proper e m → KeepsHome e m m' := by
  have hmeet : StepsMeet (writtenStep smallDisk) (fun e s => Proper e s.1) logAndRead
      (.up smallDisk fun _ => Bytes.zero BSIZE, fun _ => Bytes.zero BSIZE) :=
    StepsMeet.of_meets (fun e s h => proper_of_isProper (m := s.1) h) (by decide +kernel)
  have hrun : (runFrom (writtenStep smallDisk) logAndRead
      (.up smallDisk fun _ => Bytes.zero BSIZE, fun _ => Bytes.zero BSIZE)).map
      (fun s => (s.1.phase, s.1.ops.log.lh)) = some (.writeHead, [3]) := by decide +kernel
  obtain ⟨s, hs, heq⟩ := map_eq_some_iff.mp hrun
  obtain ⟨hphase, hlh⟩ := Prod.mk.inj heq
  exact ⟨s.1, s.2, hs, hphase, hlh, bread_written smallDisk _ logAndRead s.1 s.2 hs hmeet⟩

/-- A second process writes the logged sector out after `write_log` has copied it. -/
def writeOver : List BufEvent :=
  let b : Fin NBUF := ⟨0, NBUF_pos⟩
  [.beginOp 0, .bread 0 3, .modify 0 b (fun _ => 7), .logTests 0 b, .logWrite 0 b, .brelse 0 b,
    .endOp 0, .commit 0, .bread 1 3, .modify 1 b (fun _ => 9), .bwrite 1 b, .brelse 1 b]

/-- The first byte that a `bread` of the sector returns. -/
def readByte (st : Store) (sector : Nat) : Option UInt8 :=
  match bread ROOTDEV sector st with
  | .ok b st' => some ((st'.buf b).data.u8 0)
  | .halt _ => none

/-- The sector is logged and not committed, but no buffer pins it any more and its home location has
the new contents. When `commit` has gone on to install it, a `bread` returns the old ones. -/
theorem writeOver_unpins :
    ∃ m written m' written' b st,
      runFrom (writtenStep smallDisk) writeOver
        (.up smallDisk fun _ => Bytes.zero BSIZE, fun _ => Bytes.zero BSIZE) = some (m, written) ∧
      m.phase = .writeLog 1 ∧ 3 ∈ m.pins ∧ (∀ b, (m.store.buf b).dirty = false) ∧
      (m.store.disk 3).u8 0 = 9 ∧
      runFrom (writtenStep smallDisk) [.commit 0, .commit 0, .commit 0] (m, written) =
        some (m', written') ∧
      bread ROOTDEV 3 m'.store = .ok b st ∧ (st.buf b).data.u8 0 = 7 ∧ (written' 3).u8 0 = 9 := by
  have hrun : ((runFrom (writtenStep smallDisk) writeOver
      (.up smallDisk fun _ => Bytes.zero BSIZE, fun _ => Bytes.zero BSIZE)).any fun s =>
        decide (s.1.phase = .writeLog 1) && decide (s.1.ops.log.lh = [3]) &&
        decide (∀ b, (s.1.store.buf b).dirty = false) && decide ((s.1.store.disk 3).u8 0 = 9) &&
        (runFrom (writtenStep smallDisk) [.commit 0, .commit 0, .commit 0] s).any
          fun t : Machine × (Nat → Block) =>
            decide (readByte t.1.store 3 = some 7) && decide ((t.2 3).u8 0 = 9)) = true := by
    decide +kernel
  obtain ⟨s, hs, hend⟩ := (any_eq_true ..).mp hrun
  simp only [Bool.and_eq_true, decide_eq_true_eq] at hend
  obtain ⟨⟨⟨⟨hphase, hlh⟩, hclean⟩, hdisk⟩, hend⟩ := hend
  obtain ⟨t, ht, hend⟩ := (any_eq_true ..).mp hend
  simp only [Bool.and_eq_true, decide_eq_true_eq] at hend
  obtain ⟨hread, hwritten⟩ := hend
  unfold readByte at hread
  split at hread
  · rename_i b st hok
    refine ⟨s.1, s.2, t.1, t.2, b, st, hs, hphase, ?_, hclean, hdisk, ht, hok,
      some.inj hread, hwritten⟩
    simp [Machine.pins, hphase, Phase.pins, hlh]
  · cases hread

end Xv6
