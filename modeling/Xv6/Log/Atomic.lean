import Xv6.Log.History

/-!
# Crash atomicity

`Redo` holds between the disk and the durable groups in every reachable state: installing what
the header on the disk lists gives the home sectors after those groups. A crash keeps the disk
and therefore keeps this; recovery is the installation. While the machine runs, the cache
stands for the updates of all groups, and the logged sectors are pinned until the commit has
installed them.
-/

namespace Xv6

open Function Option List Set

open Lib

/-! ## The log on the disk -/

/-- The writes that a header with the given sectors stands for. -/
def logEntries (g : Geometry) (disk : Nat → Block) (lh : List Nat) : List (Nat × Block) :=
  lh.mapIdx fun i n => (n, disk (g.start + i + 1))

/-- What `recover_from_log` would install. -/
def redoLog (g : Geometry) (disk : Nat → Block) : List (Nat × Block) :=
  logEntries g disk (headSectors (disk g.start))

section

variable {g : Geometry} {disk disk' : Nat → Block} {lh : List Nat} {w : Nat × Block}

theorem mem_logEntries : w ∈ logEntries g disk lh ↔
    ∃ i, ∃ hi : i < lh.length, w = (lh[i], disk (g.start + i + 1)) := by
  simp [logEntries, mem_mapIdx, eq_comm]

theorem logEntries_congr (h : ∀ i, disk' (g.start + i + 1) = disk (g.start + i + 1)) :
    logEntries g disk' lh = logEntries g disk lh := by
  unfold logEntries
  simp only [h]

theorem redoLog_congr (h : ∀ n, g.start ≤ n → disk' n = disk n) :
    redoLog g disk' = redoLog g disk := by
  unfold redoLog
  rw [h _ le_rfl]
  exact logEntries_congr fun i => h _ (by omega)

/-- `install_trans` copies one log block home: the log stands for the same as before. -/
theorem redo_install {goal : Nat → Block} {tail : Nat}
    (hredo : Redo { n | n < g.start } disk (redoLog g disk) goal)
    (hhead : headSectors (disk g.start) = lh) (htail : tail < lh.length) :
    lh[tail] < g.start ∧ goal lh[tail] = disk (g.start + tail + 1) ∧
    redoLog g (update disk lh[tail] (disk (g.start + tail + 1))) = redoLog g disk ∧
    Redo { n | n < g.start } (update disk lh[tail] (disk (g.start + tail + 1)))
      (redoLog g disk) goal := by
  have hmem : (lh[tail], disk (g.start + tail + 1)) ∈ redoLog g disk := by
    rw [redoLog, hhead]
    exact mem_logEntries.mpr ⟨tail, htail, rfl⟩
  have hlt : lh[tail] < g.start := hredo.home _ hmem
  refine ⟨hlt, hredo.logged _ hmem, redoLog_congr fun n hn => ?_, hredo.install hmem⟩
  rw [update_of_ne (by omega)]

theorem redoLog_of_nil (h : headSectors (disk g.start) = []) : redoLog g disk = [] := by
  unfold redoLog
  rw [h]
  rfl

end

/-! ## The invariant -/

/-- The sectors that only the cache has up to date. -/
def Phase.pins : Phase → List Nat → Set Nat
  | .install tail, lh => { n | n ∈ lh.drop tail }
  | _, lh => { n | n ∈ lh }

/-- The buffer cache while the processes run. -/
structure Live (g : Geometry) (base : Nat → Block) (m : Machine) (h : History) : Prop where
  counted : ∃ a, Counted m.ops a
  flat : ∃ view, Flat m.store view (m.phase.pins m.ops.log.lh) { b | m.edited b = true } ∧
    ∀ n < g.start, view n = h.latest base n
  held : ∀ b p, m.holder b = some p → (m.store.buf b).busy = true ∧
    (m.store.buf b).dev = some ROOTDEV

/-- The machine while it recovers: nothing runs beside it. -/
structure Recovering (g : Geometry) (m : Machine) : Prop where
  boot : ∃ lh msg, m.ops = { OpSys.boot g.size g.nlog with
    log := { Log.initlog g.size g.nlog with lh := lh }, panicked := msg }
  flat : Flat m.store m.store.disk ∅ ∅
  holder : m.holder = fun _ => none
  edited : m.edited = fun _ => false
  disksize : m.store.disksize = g.size

/-- Nothing of the current group is durable, and its first `tail` blocks are in the log. -/
structure Uncommitted (g : Geometry) (lh : List Nat) (disk : Nat → Block)
    (pending : List Update) (latest : Nat → Block) (tail : Nat) : Prop where
  pending : ∀ u ∈ pending, u.sector ∈ lh
  head : headSectors (disk g.start) = []
  copied : ∀ i < tail, ∀ hi : i < lh.length, disk (g.start + i + 1) = latest lh[i]

/-- What each phase knows of the log and the disk. -/
def PhaseInv (g : Geometry) (base : Nat → Block) (log : Log) (disk : Nat → Block)
    (h : History) : Phase → Prop
  | .up => log.committing = false ∧ Uncommitted g log.lh disk h.pending (h.latest base) 0
  | .writeLog tail => log.committing = true ∧ h.cur = [] ∧
    Uncommitted g log.lh disk h.pending (h.latest base) tail
  | .writeHead => log.committing = true ∧ h.cur = [] ∧
    Uncommitted g log.lh disk h.pending (h.latest base) log.lh.length
  | .install _ => log.committing = true ∧ h.pending = [] ∧ headSectors (disk g.start) = log.lh
  | .erase => log.committing = true ∧ h.pending = [] ∧ log.lh = []
  | .committed => log.committing = true ∧ log.lh = [] ∧ h.cur = [] ∧
    Uncommitted g log.lh disk h.pending (h.latest base) 0
  | .off => True
  | .recInstall tail => log.lh = headSectors (disk g.start) ∧
    ∀ i < tail, ∀ hi : i < log.lh.length, disk log.lh[i] = h.stable base log.lh[i]
  | .recErase => log.lh = [] ∧ ∀ n < g.start, disk n = h.stable base n

variable {g : Geometry} {base disk : Nat → Block} {h : History} {ph : Phase} {m : Machine}

theorem PhaseInv.eq_up {log : Log} (hph : PhaseInv g base log disk h ph)
    (hrec : ph.recovering = false)
    (hcom : log.committing = false) : ph = .up := by
  cases ph with
  | up => rfl
  | off | recInstall | recErase => simp [Phase.recovering] at hrec
  | writeLog | writeHead | install | erase | committed =>
    rw [hph.1] at hcom
    simp at hcom

/-- A sector write of `commit`: it touches no buffer that a process holds. -/
theorem Live.ofWrite {view : Nat → Block} {h' : History} {st : Store} (hl : Live g base m h)
    (hkept : Kept m.store st)
    (hflat : Flat st view (ph.pins m.ops.log.lh) { b | m.edited b = true })
    (hlatest : ∀ n < g.start, view n = h'.latest base n) :
    Live g base { m with store := st, phase := ph } h' := by
  refine ⟨hl.counted, ⟨view, hflat, hlatest⟩, fun b p hb => ?_⟩
  simp only [hkept.held b (hl.held b p hb).1]
  exact hl.held b p hb

/-- The invariant of the machine and its history. -/
structure Inv (g : Geometry) (base : Nat → Block) (m : Machine) (h : History) : Prop where
  start : m.ops.log.start = g.start
  durable : h.durable ≤ h.groups.length
  lhHome : ∀ n ∈ m.ops.log.lh, n < g.start
  logging : ∀ p n, m.ops.pc p = .logging n → n < g.start
  grouped : Grouped h m.ops.pc
  redo : Redo { n | n < g.start } m.store.disk (redoLog g m.store.disk) (h.stable base)
  live : m.phase.recovering = false → Live g base m h
  recovering : m.phase.recovering = true → Recovering g m
  phase : PhaseInv g base m.ops.log m.store.disk h m.phase

namespace Inv

variable {g : Geometry} {base : Nat → Block} {m m' : Machine} {h : History} {p : Nat}

theorem panic (hi : Inv g base m h) (msg : String) : Inv g base (m.panic msg) h := by
  refine ⟨hi.start, hi.durable, hi.lhHome, hi.logging, hi.grouped, hi.redo, ?_, ?_, hi.phase⟩
  · intro hrec
    obtain ⟨⟨a, ha⟩, hflat, hheld⟩ := hi.live hrec
    exact ⟨⟨a, ha.panic _⟩, hflat, hheld⟩
  · intro hrec
    obtain ⟨⟨lh, _, hops⟩, hflat, hholder, hedited, hsize⟩ := hi.recovering hrec
    refine ⟨⟨lh, some msg, ?_⟩, hflat, hholder, hedited, hsize⟩
    simp [Machine.panic, hops]

theorem crash (hi : Inv g base m h) : Inv g base (Machine.powerOn g m.store.disk) h where
  start := rfl
  durable := hi.durable
  lhHome := by simp [Machine.powerOn, OpSys.boot, Log.initlog]
  logging := by simp [Machine.powerOn, OpSys.boot]
  grouped := hi.grouped.mono (by simp [Machine.powerOn, OpSys.boot])
  redo := hi.redo
  live := by simp [Machine.powerOn, Phase.recovering]
  recovering := fun _ => ⟨⟨[], none, rfl⟩, flat_binit _ _, rfl, rfl, rfl⟩
  phase := trivial

theorem powerOn {disk : Nat → Block} (hclean : headSectors (disk g.start) = []) :
    Inv g disk (Machine.powerOn g disk) .empty where
  start := rfl
  durable := le_rfl
  lhHome := by simp [Machine.powerOn, OpSys.boot, Log.initlog]
  logging := by simp [Machine.powerOn, OpSys.boot]
  grouped := .empty (by simp [Machine.powerOn, OpSys.boot])
  redo := by
    have hnil : redoLog g (Machine.powerOn g disk).store.disk = [] := redoLog_of_nil hclean
    rw [hnil]
    exact Redo.of_home fun n _ => rfl
  live := by simp [Machine.powerOn, Phase.recovering]
  recovering := fun _ => ⟨⟨[], none, rfl⟩, flat_binit _ _, rfl, rfl, rfl⟩
  phase := trivial

/-- A process inside an operation: no commit is running. -/
theorem phase_up (hi : Inv g base m h) (hrec : m.phase.recovering = false)
    (hp : (m.ops.pc p).running = true) : m.phase = .up := by
  obtain ⟨a, ha⟩ := (hi.live hrec).counted
  exact hi.phase.eq_up hrec (ha.not_committing hp)

/-- An event that moves buffers about and leaves the disk and the log alone. -/
theorem ofCache (hi : Inv g base m h) (hrec : m.phase.recovering = false)
    (hops : m'.ops = m.ops) (hphase : m'.phase = m.phase) (hdisk : m'.store.disk = m.store.disk)
    (hflat : ∀ view pinned, Flat m.store view pinned { b | m.edited b = true } →
      Flat m'.store view pinned { b | m'.edited b = true })
    (hheld : ∀ b p, m'.holder b = some p → (m'.store.buf b).busy = true ∧
      (m'.store.buf b).dev = some ROOTDEV) : Inv g base m' h := by
  obtain ⟨hcount, ⟨view, hview, hlatest⟩, -⟩ := hi.live hrec
  refine ⟨by rw [hops]; exact hi.start, hi.durable, by rw [hops]; exact hi.lhHome,
    by rw [hops]; exact hi.logging, by rw [hops]; exact hi.grouped, by rw [hdisk]; exact hi.redo,
    fun _ => ⟨by rw [hops]; exact hcount, ⟨view, ?_, hlatest⟩, hheld⟩,
    fun h' => by rw [hphase, hrec] at h'; simp at h', by rw [hops, hdisk, hphase]; exact hi.phase⟩
  rw [hops, hphase]
  exact hflat view _ hview

variable {b : Fin NBUF} {st : Store} {tail : Nat}

theorem bread {sector : Nat} (hi : Inv g base m h) (hrec : m.phase.recovering = false)
    (hok : bread ROOTDEV sector m.store = .ok b st) :
    Inv g base { m with store := st, holder := update m.holder b (some p) } h := by
  obtain ⟨-, ⟨view, hview, -⟩, hheld⟩ := hi.live hrec
  obtain ⟨hg, -⟩ := bread_flat hview hok
  refine hi.ofCache hrec rfl rfl hg.disk (fun view pinned hv => (bread_flat hv hok).2.1) ?_
  intro c q hq
  by_cases hc : c = b
  · subst hc
    exact ⟨hg.busy, hg.caches.1⟩
  · simp only [update_of_ne hc] at hq
    simp only [hg.others c hc]
    exact hheld c q hq

theorem caches (hi : Inv g base m h) (hrec : m.phase.recovering = false)
    (hb : m.holder b = some p) : Caches m.store b (m.store.buf b).sector :=
  ⟨((hi.live hrec).held b p hb).2, rfl⟩

theorem modify {data : Block} (hi : Inv g base m h) (hrec : m.phase.recovering = false)
    (hb : m.holder b = some p)
    (hok : setData b data m.store = .ok () st) :
    Inv g base { m with store := st, edited := update m.edited b true } h := by
  obtain ⟨-, ⟨view, hview, -⟩, hheld⟩ := hi.live hrec
  have hbusy := (hheld b p hb).1
  obtain ⟨ho, -, -, hbusy', hdisk⟩ := setData_flat hview (hi.caches hrec hb) hbusy hok
  refine hi.ofCache hrec rfl rfl hdisk (fun view pinned hv => ?_) ?_
  · have hE : { c | update m.edited b true c = true } =
        insert b { c | m.edited c = true } := by
      ext c
      by_cases hc : c = b <;> simp [hc]
    rw [hE]
    exact (setData_flat hv (hi.caches hrec hb) hbusy hok).2.1
  · intro c q hq
    by_cases hc : c = b
    · subst hc
      exact ⟨hbusy', (ho.caches _ (hi.caches hrec hb)).1⟩
    · simp only [ho.others c hc]
      exact hheld c q hq

theorem brelse (hi : Inv g base m h) (hrec : m.phase.recovering = false)
    (hb : m.holder b = some p) (hE : m.edited b = false)
    (hok : brelse b m.store = .ok () st) :
    Inv g base { m with store := st, holder := update m.holder b none } h := by
  obtain ⟨-, ⟨view, hview, -⟩, hheld⟩ := hi.live hrec
  have hnE : b ∉ { c | m.edited c = true } := by simp [hE]
  obtain ⟨ho, -, hdisk, -⟩ := brelse_flat hview (hi.caches hrec hb) hnE hok
  refine hi.ofCache hrec rfl rfl hdisk
    (fun view pinned hv => (brelse_flat hv (hi.caches hrec hb) hnE hok).2.1) ?_
  intro c q hq
  by_cases hc : c = b
  · simp [hc] at hq
  · simp only [update_of_ne hc] at hq
    simp only [ho.others c hc]
    exact hheld c q hq

theorem beginOp {l : Log} (hi : Inv g base m h) (hrec : m.phase.recovering = false)
    (hpc : m.ops.pc p = .out) (hl : m.ops.log.beginOp = some l) :
    Inv g base
      { m with ops := { m.ops with log := l, pc := update m.ops.pc p .inOp } }
      { h with op := update h.op p h.next, next := h.next + 1 } := by
  obtain ⟨⟨a, ha⟩, hflat, hheld⟩ := hi.live hrec
  have hcount := ha.beginOp hpc hl
  obtain ⟨-, -, rfl⟩ := Log.beginOp_eq_some.mp hl
  refine ⟨hi.start, hi.durable, hi.lhHome, ?_, hi.grouped.beginOp, hi.redo,
    fun _ => ⟨⟨_, hcount⟩, hflat, hheld⟩, fun h' => by simp [hrec] at h', ?_⟩
  · exact fun q n hq => hi.logging q n (OpPc.logging_of_update rfl hq).2
  · have hph := hi.phase
    cases hm : m.phase <;> rw [hm] at hph <;> exact hph

theorem logTests (hi : Inv g base m h) (hrec : m.phase.recovering = false)
    (hpc : m.ops.pc p = .inOp) (htests : m.ops.log.logWriteTests = none)
    (hb : (m.store.buf b).sector < g.start) :
    Inv g base { m with ops := { m.ops with
      pc := update m.ops.pc p (.logging (m.store.buf b).sector) } } h := by
  obtain ⟨⟨a, ha⟩, hflat, hheld⟩ := hi.live hrec
  refine ⟨hi.start, hi.durable, hi.lhHome, ?_, hi.grouped.mono ?_, hi.redo,
    fun _ => ⟨⟨a, ha.logTests hpc htests⟩, hflat, hheld⟩, fun h' => by simp [hrec] at h',
    hi.phase⟩
  · intro q n hq
    by_cases hqp : q = p
    · subst hqp
      simp only [update_self, OpPc.logging.injEq] at hq
      exact hq ▸ hb
    · simp only [update_of_ne hqp] at hq
      exact hi.logging q n hq
  · intro q hq
    by_cases hqp : q = p
    · simp [hqp, hpc]
    · simpa [hqp] using hq

/-- The locked section of `log_write`: the cache moves on, the disk stays. -/
theorem logWrite (hi : Inv g base m h) (hrec : m.phase.recovering = false)
    (hb : m.holder b = some p) (hpc : m.ops.pc p = .logging (m.store.buf b).sector) :
    Inv g base
      { m with
        ops := { m.ops with
          log := m.ops.log.logWrite (m.store.buf b).sector
          pc := update m.ops.pc p .inOp }
        store := m.store.setBuf b { m.store.buf b with dirty := true }
        edited := update m.edited b false }
      { h with
        logged := h.logged ++ [⟨h.op p, (m.store.buf b).sector, (m.store.buf b).data⟩]
        cur := h.cur ++ [⟨h.op p, (m.store.buf b).sector, (m.store.buf b).data⟩] } := by
  obtain ⟨⟨a, ha⟩, ⟨view, hview, hlatest⟩, hheld⟩ := hi.live hrec
  have hrun : (m.ops.pc p).running = true := by simp [hpc]
  have hup := hi.phase_up hrec hrun
  have hph := hi.phase
  rw [hup] at hph hview
  obtain ⟨hcom, hun⟩ := hph
  have hpin := pin_flat hview (hi.caches hrec hb)
  refine ⟨hi.start, hi.durable, ?_, ?_, ?_, hi.redo, ?_, fun h' => by simp [hrec] at h', ?_⟩
  · intro n hn
    rcases Log.mem_absorb.mp hn with rfl | hn
    · exact hi.logging p _ hpc
    · exact hi.lhHome n hn
  · exact fun q n hq => hi.logging q n (OpPc.logging_of_update rfl hq).2
  · refine (hi.grouped.logWrite hrun rfl).mono fun q hq => ?_
    by_cases hqp : q = p
    · rw [hqp]; exact hrun
    · simpa [hqp] using hq
  · intro _
    refine ⟨⟨a, ha.logWrite hpc⟩,
      ⟨update view (m.store.buf b).sector (m.store.buf b).data, ?_, ?_⟩, ?_⟩
    · have hE : { c | update m.edited b false c = true } =
          { c | m.edited c = true } \ {b} := by
        ext c
        by_cases hc : c = b <;> simp [hc]
      have hP : Phase.pins .up (m.ops.log.logWrite (m.store.buf b).sector).lh =
          insert (m.store.buf b).sector (Phase.pins .up m.ops.log.lh) := by
        ext n
        simp [Phase.pins, Log.logWrite, Log.mem_absorb]
      simp only [hup, hE, hP]
      exact hpin
    · intro n hn
      rw [History.latest, ← append_assoc, History.contents_snoc]
      by_cases hns : n = (m.store.buf b).sector
      · simp [hns]
      · rw [update_of_ne hns, update_of_ne hns]
        exact hlatest n hn
    · intro c q hq
      by_cases hc : c = b
      · subst hc
        simpa using hheld c q hq
      · simpa [hc] using hheld c q hq
  · rw [hup]
    refine ⟨hcom, ?_, hun.head, by simp⟩
    intro u hu
    rw [History.pending, ← append_assoc] at hu
    apply Log.mem_absorb.mpr
    rcases mem_append.mp hu with hu | hu
    · exact .inr (hun.pending u hu)
    · rw [mem_singleton.mp hu]
      exact .inl rfl

/-- `end_op` by an operation that others are still beside. -/
theorem endOp_others (hi : Inv g base m h) (hrec : m.phase.recovering = false)
    (hpc : m.ops.pc p = .inOp) (hout : m.ops.log.outstanding ≠ 1) :
    Inv g base
      { m with ops := { m.ops with
          log := { m.ops.log with
            outstanding := m.ops.log.outstanding - 1
            committing := decide (m.ops.log.outstanding = 1) }
          pc := update m.ops.pc p
            (if decide (m.ops.log.outstanding = 1) = true then .committing else .out) } } h := by
  obtain ⟨⟨a, ha⟩, hflat, hheld⟩ := hi.live hrec
  have hup := hi.phase_up hrec (p := p) (by simp [hpc])
  have hph := hi.phase
  rw [hup] at hph
  refine ⟨hi.start, hi.durable, hi.lhHome, ?_, hi.grouped.mono ?_, hi.redo,
    fun _ => ⟨⟨_, ha.endOp hpc⟩, hflat, hheld⟩, fun h' => by simp [hrec] at h', ?_⟩
  · exact fun q n hq => hi.logging q n (OpPc.logging_of_update (by simp [hout]) hq).2
  · intro q hq
    by_cases hqp : q = p
    · simp [hqp, hpc]
    · simpa [hqp] using hq
  · rw [hup]
    exact ⟨by simp [hout], hph.2⟩

/-- `end_op` by the last operation closes the group. What is pending stays pending. -/
theorem endOp_last {ph : Phase} (hi : Inv g base m h) (hrec : m.phase.recovering = false)
    (hpc : m.ops.pc p = .inOp) (hout : m.ops.log.outstanding = 1)
    (hph : ph = if m.ops.log.lh.length > 0 then .writeLog 0 else .committed) :
    Inv g base
      { m with
        ops := { m.ops with
          log := { m.ops.log with
            outstanding := m.ops.log.outstanding - 1
            committing := decide (m.ops.log.outstanding = 1) }
          pc := update m.ops.pc p
            (if decide (m.ops.log.outstanding = 1) = true then .committing else .out) }
        phase := ph }
      { h with groups := h.groups ++ [h.cur], cur := [] } := by
  obtain ⟨⟨a, ha⟩, ⟨view, hview, hlatest⟩, hheld⟩ := hi.live hrec
  have hup := hi.phase_up hrec (p := p) (by simp [hpc])
  have hold := hi.phase
  rw [hup] at hold hview
  obtain ⟨-, hun⟩ := hold
  have hcount := ha.endOp hpc
  have hnone := hcount.not_running_of_committing (by simp [hout])
  have hpend : History.pending { h with groups := h.groups ++ [h.cur], cur := [] } =
      h.pending := by
    simp [History.pending, drop_append_of_le_length hi.durable]
  have hlat : History.latest { h with groups := h.groups ++ [h.cur], cur := [] } base =
      h.latest base := by
    simp [History.latest]
  have hstab : History.stable { h with groups := h.groups ++ [h.cur], cur := [] } base =
      h.stable base := by
    simp only [History.stable, take_append_of_le_length hi.durable]
  have hcases : ph = .writeLog 0 ∨ ph = .committed ∧ m.ops.log.lh = [] := by
    split at hph
    · exact .inl hph
    · rename_i hlen
      exact .inr ⟨hph, eq_nil_of_length_eq_zero (by omega)⟩
  have hpins : ph.pins m.ops.log.lh = Phase.pins .up m.ops.log.lh := by
    rcases hcases with rfl | ⟨rfl, -⟩ <;> rfl
  refine ⟨hi.start, ?_, hi.lhHome, ?_, hi.grouped.close hnone, hstab ▸ hi.redo,
    fun _ => ⟨⟨_, hcount⟩, ⟨view, hpins ▸ hview, hlat ▸ hlatest⟩, hheld⟩, ?_, ?_⟩
  · have := hi.durable
    simp only [length_append, length_singleton]
    omega
  · intro q n hq
    have hrun := hnone q
    simp only at hq hrun
    rw [hq] at hrun
    simp at hrun
  · intro h'
    rcases hcases with rfl | ⟨rfl, -⟩ <;> simp [Phase.recovering] at h'
  · rcases hcases with rfl | ⟨rfl, hnil⟩
    · exact ⟨by simp [hout], rfl, by rw [hpend, hlat]; exact hun⟩
    · exact ⟨by simp [hout], hnil, rfl, by rw [hpend, hlat]; exact hun⟩

/-! ### The steps of `commit` -/

/-- `write_log` copies one block; without a header the log area is free to change. -/
theorem writeLogBody (hi : Inv g base m h) (hm : m.phase = .writeLog tail)
    (htail : tail < m.ops.log.lh.length)
    (hok : writeLogBody m.ops.log.start m.ops.log.lh tail m.store = .ok () st) :
    Inv g base { m with store := st, phase := .writeLog (tail + 1) } h := by
  have hlive := hi.live (by rw [hm]; rfl)
  obtain ⟨view, hview, hlatest⟩ := hlive.flat
  have hph := hi.phase
  rw [hm] at hph hview
  obtain ⟨hcom, hcur, hun⟩ := hph
  rw [hi.start] at hok
  obtain ⟨hflat, hdisk, hkept⟩ := writeLogBody_flat hview hok
  have hhome : ∀ n < g.start, st.disk n = m.store.disk n := fun n hn => by
    rw [hdisk, update_of_ne (by omega)]
  have hhead : headSectors (st.disk g.start) = [] := by
    rw [hdisk, update_of_ne (by omega)]
    exact hun.head
  have hsrc : view (m.ops.log.lh.getD tail 0) = h.latest base m.ops.log.lh[tail] := by
    rw [show m.ops.log.lh.getD tail 0 = m.ops.log.lh[tail] by simp [htail]]
    exact hlatest _ (hi.lhHome _ (getElem_mem htail))
  have hpins : Phase.pins (.writeLog tail) m.ops.log.lh \ {g.start + tail + 1} =
      Phase.pins (.writeLog (tail + 1)) m.ops.log.lh := by
    ext n
    simp only [Phase.pins, mem_sdiff, mem_ofPred_eq, mem_singleton_iff]
    refine ⟨fun hn => hn.1, fun hn => ⟨hn, fun heq => ?_⟩⟩
    have := hi.lhHome n hn
    omega
  rw [hpins] at hflat
  refine ⟨hi.start, hi.durable, hi.lhHome, hi.logging, hi.grouped, ?_,
    fun _ => hlive.ofWrite hkept hflat fun n hn => ?_, fun h' => by simp [Phase.recovering] at h',
    ⟨hcom, hcur, hun.pending, hhead, ?_⟩⟩
  · have hredo := hi.redo
    rw [redoLog_of_nil hun.head] at hredo
    rw [redoLog_of_nil hhead]
    exact hredo.congr hhome
  · rw [update_of_ne (by omega)]
    exact hlatest n hn
  · intro i hlt hlen
    simp only [hdisk]
    rcases Nat.lt_succ_iff_lt_or_eq.mp hlt with hlt | rfl
    · rw [update_of_ne (by omega)]
      exact hun.copied i hlt hlen
    · rw [update_self]
      exact hsrc

theorem writeLog_done (hi : Inv g base m h) (hm : m.phase = .writeLog tail)
    (htail : ¬ tail < m.ops.log.lh.length) : Inv g base { m with phase := .writeHead } h := by
  obtain ⟨hcount, hflat, hheld⟩ := hi.live (by rw [hm]; rfl)
  have hph := hi.phase
  rw [hm] at hph hflat
  obtain ⟨hcom, hcur, hun⟩ := hph
  exact ⟨hi.start, hi.durable, hi.lhHome, hi.logging, hi.grouped, hi.redo,
    fun _ => ⟨hcount, hflat, hheld⟩, fun h' => by simp [Phase.recovering] at h',
    ⟨hcom, hcur, hun.pending, hun.head, fun i hlt => hun.copied i (hlt.trans_le (Nat.not_lt.mp htail))⟩⟩

/-- The first `write_head` makes the group durable: what was pending is now in the log. -/
theorem writeHead (hi : Inv g base m h) (hm : m.phase = .writeHead)
    (hok : writeHead m.ops.log.start m.ops.log.lh m.store = .ok () st) :
    Inv g base { m with store := st, phase := .install 0 }
      { h with durable := h.groups.length } := by
  have hlive := hi.live (by rw [hm]; rfl)
  obtain ⟨a, ha⟩ := hlive.counted
  obtain ⟨view, hview, hlatest⟩ := hlive.flat
  have hph := hi.phase
  rw [hm] at hph hview
  obtain ⟨hcom, hcur, hun⟩ := hph
  rw [hi.start] at hok
  obtain ⟨hflat, hdisk, hkept⟩ := writeHead_flat hview hok
  have hsmall := g.small
  have hstart : g.start ≤ g.size := Nat.sub_le _ _
  have hhead : headSectors (st.disk g.start) = m.ops.log.lh := by
    rw [hdisk, update_self]
    exact headSectors_putHead ha.length_lt fun n hn => by have := hi.lhHome n hn; omega
  have hpins : Phase.pins .writeHead m.ops.log.lh \ {g.start} =
      Phase.pins (.install 0) m.ops.log.lh := by
    ext n
    simp only [Phase.pins, mem_sdiff, mem_ofPred_eq, mem_singleton_iff, drop_zero]
    refine ⟨fun hn => hn.1, fun hn => ⟨hn, fun heq => ?_⟩⟩
    have := hi.lhHome n hn
    omega
  rw [hpins] at hflat
  have hpend : History.pending { h with durable := h.groups.length } = [] := by
    simp [History.pending, hcur]
  have hstab : History.stable { h with durable := h.groups.length } base = h.latest base := by
    rw [← History.latest_of_pending_nil hpend]
    rfl
  have hview' : ∀ n < g.start,
      update view g.start (putHead m.ops.log.lh (view g.start)) n = h.latest base n := by
    intro n hn
    rw [update_of_ne (by omega)]
    exact hlatest n hn
  refine ⟨hi.start, le_rfl, hi.lhHome, hi.logging,
    ⟨hi.grouped.known, hi.grouped.fresh, hi.grouped.freshOp, hi.grouped.whole,
      hi.grouped.curWhole, hi.grouped.inCur, hi.grouped.notClosed⟩, ?_,
    fun _ => hlive.ofWrite hkept hflat hview', fun h' => by simp [Phase.recovering] at h',
    ⟨hcom, hpend, hhead⟩⟩
  rw [hstab, redoLog, hhead]
  refine ⟨?_, ?_, ?_⟩
  · intro w hw
    obtain ⟨i, hlen, rfl⟩ := mem_logEntries.mp hw
    exact hi.lhHome _ (getElem_mem hlen)
  · intro w hw
    obtain ⟨i, hlen, rfl⟩ := mem_logEntries.mp hw
    rw [hdisk, update_of_ne (by omega)]
    exact (hun.copied i hlen hlen).symm
  · -- a sector that was not logged is the same on the disk and in the cache
    intro n hn hout
    rw [hflat.disk n ?_, hview' n hn]
    simp only [Phase.pins, drop_zero, mem_ofPred_eq]
    intro hmem
    obtain ⟨i, hlen, rfl⟩ := getElem_of_mem hmem
    exact hout _ (mem_logEntries.mpr ⟨i, hlen, rfl⟩) rfl

/-- `install_trans` brings one logged sector home and releases its pin. -/
theorem installBody (hi : Inv g base m h) (hm : m.phase = .install tail)
    (htail : tail < m.ops.log.lh.length)
    (hok : installBody m.ops.log.start m.ops.log.lh tail m.store = .ok () st) :
    Inv g base { m with store := st, phase := .install (tail + 1) } h := by
  have hlive := hi.live (by rw [hm]; rfl)
  obtain ⟨a, ha⟩ := hlive.counted
  obtain ⟨view, hview, hlatest⟩ := hlive.flat
  have hph := hi.phase
  rw [hm] at hph hview
  obtain ⟨hcom, hpend, hhead⟩ := hph
  rw [hi.start] at hok
  obtain ⟨hflat, hdisk, hkept⟩ := installBody_flat hview hok
  rw [show m.ops.log.lh.getD tail 0 = m.ops.log.lh[tail] by simp [htail]] at hflat hdisk
  obtain ⟨hlt, hgoal, hlog, hredo⟩ := redo_install hi.redo hhead htail
  -- the log block is on the disk, since only home sectors are pinned
  have hblock : view (g.start + tail + 1) = m.store.disk (g.start + tail + 1) := by
    refine (hview.disk _ fun hp => ?_).symm
    have := hi.lhHome _ (mem_of_mem_drop hp)
    omega
  rw [hblock] at hflat hdisk
  have hpins : Phase.pins (.install tail) m.ops.log.lh \ {m.ops.log.lh[tail]} =
      Phase.pins (.install (tail + 1)) m.ops.log.lh := by
    have hcons := drop_eq_getElem_cons htail
    have hnodup := List.Nodup.sublist (drop_sublist tail _) ha.nodup
    rw [hcons, nodup_cons] at hnodup
    ext n
    simp only [Phase.pins, mem_sdiff, mem_ofPred_eq, mem_singleton_iff]
    rw [hcons, mem_cons]
    constructor
    · rintro ⟨hn | hn, hne⟩
      · exact absurd hn hne
      · exact hn
    · intro hn
      exact ⟨.inr hn, fun heq => hnodup.1 (heq ▸ hn)⟩
  rw [hpins] at hflat
  refine ⟨hi.start, hi.durable, hi.lhHome, hi.logging, hi.grouped, ?_,
    fun _ => hlive.ofWrite hkept hflat fun n hn => ?_, fun h' => by simp [Phase.recovering] at h',
    ⟨hcom, hpend, ?_⟩⟩
  · simp only [hdisk]
    rw [hlog]
    exact hredo
  · by_cases hne : n = m.ops.log.lh[tail]
    · rw [hne, update_self, History.latest_of_pending_nil hpend, hgoal]
    · rw [update_of_ne hne]
      exact hlatest n hn
  · simp only [hdisk]
    rw [update_of_ne (by omega)]
    exact hhead

theorem install_done (hi : Inv g base m h) (hm : m.phase = .install tail)
    (htail : ¬ tail < m.ops.log.lh.length) :
    Inv g base { m.setLh [] with phase := .erase } h := by
  obtain ⟨⟨a, ha⟩, ⟨view, hview, hlatest⟩, hheld⟩ := hi.live (by rw [hm]; rfl)
  have hph := hi.phase
  rw [hm] at hph hview
  obtain ⟨hcom, hpend, -⟩ := hph
  have hcount : Counted (m.setLh []).ops a :=
    ⟨ha.running, ha.outstanding, ha.committer, ha.oneCommitter, ha.quiet, nodup_nil, ha.few,
      le_trans (Nat.add_le_add_right (Nat.zero_le _) _) ha.room⟩
  have hpins : Phase.pins (.install tail) m.ops.log.lh = Phase.pins .erase [] := by
    ext n
    simp [Phase.pins, drop_eq_nil_of_le (Nat.not_lt.mp htail)]
  rw [hpins] at hview
  exact ⟨hi.start, hi.durable, by simp [Machine.setLh], hi.logging, hi.grouped, hi.redo,
    fun _ => ⟨⟨a, hcount⟩, ⟨view, hview, hlatest⟩, hheld⟩,
    fun h' => by simp [Phase.recovering] at h', ⟨hcom, hpend, rfl⟩⟩

/-- The second `write_head` empties the log when everything in it is home. -/
theorem erase (hi : Inv g base m h) (hm : m.phase = .erase)
    (hok : Xv6.writeHead m.ops.log.start m.ops.log.lh m.store = .ok () st) :
    Inv g base { m with store := st, phase := .committed } h := by
  have hlive := hi.live (by rw [hm]; rfl)
  obtain ⟨view, hview, hlatest⟩ := hlive.flat
  have hph := hi.phase
  rw [hm] at hph hview
  obtain ⟨hcom, hpend, hlh⟩ := hph
  rw [hi.start, hlh] at hok
  obtain ⟨hflat, hdisk, hkept⟩ := writeHead_flat hview hok
  have hhead : headSectors (st.disk g.start) = [] := by
    rw [hdisk, update_self]
    exact headSectors_putHead_nil _
  have hview' : ∀ n < g.start,
      update view g.start (putHead [] (view g.start)) n = h.latest base n := by
    intro n hn
    rw [update_of_ne (by omega)]
    exact hlatest n hn
  have hpins : Phase.pins .erase m.ops.log.lh \ {g.start} = Phase.pins .committed m.ops.log.lh := by
    ext n
    simp [Phase.pins, hlh]
  rw [hpins] at hflat
  refine ⟨hi.start, hi.durable, hi.lhHome, hi.logging, hi.grouped, ?_,
    fun _ => hlive.ofWrite hkept hflat hview', fun h' => by simp [Phase.recovering] at h',
    ⟨hcom, hlh, (append_eq_nil_iff.mp hpend).2, by simp [hpend], hhead, by simp⟩⟩
  rw [redoLog_of_nil hhead]
  refine Redo.of_home fun n hn => ?_
  rw [hflat.disk n (by simp [Phase.pins, hlh]), hview' n hn,
    History.latest_of_pending_nil hpend]

theorem endCommit (hi : Inv g base m h) (hm : m.phase = .committed)
    (hpc : m.ops.pc p = .committing) :
    Inv g base
      { m with
        ops := { m.ops with log := m.ops.log.endCommit, pc := update m.ops.pc p .out }
        phase := .up } h := by
  obtain ⟨⟨a, ha⟩, ⟨view, hview, hlatest⟩, hheld⟩ := hi.live (by rw [hm]; rfl)
  have hph := hi.phase
  rw [hm] at hph hview
  obtain ⟨hcom, hlh, hcur, hun⟩ := hph
  have hlog : m.ops.log.endCommit.lh = m.ops.log.lh := hlh.symm
  refine ⟨hi.start, hi.durable, by simp [Log.endCommit], ?_, hi.grouped.mono ?_, hi.redo,
    fun _ => ⟨⟨a, ha.endCommit hpc⟩, ⟨view, ?_, hlatest⟩, hheld⟩,
    fun h' => by simp [Phase.recovering] at h', ⟨rfl, ?_⟩⟩
  · exact fun q n hq => hi.logging q n (OpPc.logging_of_update rfl hq).2
  · intro q hq
    by_cases hqp : q = p
    · simp [hqp] at hq
    · simpa [hqp] using hq
  · simp only [hlog]
    exact hview
  · simp only [hlog]
    exact hun

/-! ### The steps of `recover_from_log` -/

theorem readHead {lh : List Nat} (hi : Inv g base m h) (hm : m.phase = .off)
    (hok : readHead m.ops.log.start m.store = .ok lh st) :
    Inv g base { m.setLh lh with store := st, phase := .recInstall 0 } h := by
  have hrec := hi.recovering (by rw [hm]; rfl)
  rw [hi.start] at hok
  obtain ⟨rfl, hflat, hdisk, hkept⟩ := readHead_flat hrec.flat hok
  obtain ⟨lh, msg, hops⟩ := hrec.boot
  refine ⟨hi.start, hi.durable, ?_, hi.logging, hi.grouped, by rw [hdisk]; exact hi.redo,
    fun h' => by simp [Phase.recovering] at h', fun _ => ⟨⟨headSectors (m.store.disk g.start), msg, ?_⟩,
    ?_, hrec.holder, hrec.edited, by rw [← hrec.disksize]; exact hkept.disksize⟩, ⟨?_, by simp⟩⟩
  · intro n hn
    obtain ⟨i, hlen, rfl⟩ := getElem_of_mem hn
    exact hi.redo.home _ (mem_logEntries.mpr ⟨i, hlen, rfl⟩)
  · simp [Machine.setLh, hops]
  · simp only [hdisk]
    exact hflat
  · simp [Machine.setLh, hdisk]

theorem recInstall (hi : Inv g base m h) (hm : m.phase = .recInstall tail)
    (htail : tail < m.ops.log.lh.length)
    (hok : Xv6.installBody m.ops.log.start m.ops.log.lh tail m.store = .ok () st) :
    Inv g base { m with store := st, phase := .recInstall (tail + 1) } h := by
  have hrec := hi.recovering (by rw [hm]; rfl)
  have hph := hi.phase
  rw [hm] at hph
  obtain ⟨hhead, hdone⟩ := hph
  rw [hi.start] at hok
  obtain ⟨hflat, hdisk, hkept⟩ := installBody_flat hrec.flat hok
  rw [show m.ops.log.lh.getD tail 0 = m.ops.log.lh[tail] by simp [htail]] at hflat hdisk
  obtain ⟨hlt, hgoal, hlog, hredo⟩ := redo_install hi.redo hhead.symm htail
  rw [empty_sdiff, ← hdisk] at hflat
  refine ⟨hi.start, hi.durable, hi.lhHome, hi.logging, hi.grouped, ?_,
    fun h' => by simp [Phase.recovering] at h', fun _ => ⟨hrec.boot, hflat, hrec.holder,
    hrec.edited, by rw [← hrec.disksize]; exact hkept.disksize⟩, ⟨?_, ?_⟩⟩
  · simp only [hdisk]
    rw [hlog]
    exact hredo
  · simp only [hdisk]
    rw [update_of_ne (by omega)]
    exact hhead
  · intro i hle hlen
    simp only [hdisk]
    by_cases heq : m.ops.log.lh[i] = m.ops.log.lh[tail]
    · rw [heq, update_self, hgoal]
    · rw [update_of_ne heq]
      refine hdone i (Nat.lt_of_le_of_ne (Nat.lt_succ_iff.mp hle) fun hit => heq ?_) hlen
      simp only [hit]

theorem recInstall_done (hi : Inv g base m h) (hm : m.phase = .recInstall tail)
    (htail : ¬ tail < m.ops.log.lh.length) :
    Inv g base { m.setLh [] with phase := .recErase } h := by
  have hrec := hi.recovering (by rw [hm]; rfl)
  obtain ⟨lh, msg, hops⟩ := hrec.boot
  have hph := hi.phase
  rw [hm] at hph
  obtain ⟨hhead, hdone⟩ := hph
  refine ⟨hi.start, hi.durable, by simp [Machine.setLh], hi.logging, hi.grouped, hi.redo,
    fun h' => by simp [Phase.recovering] at h', fun _ => ⟨⟨[], msg, by simp [Machine.setLh, hops]⟩,
    hrec.flat, hrec.holder, hrec.edited, hrec.disksize⟩, ⟨rfl, ?_⟩⟩
  refine hi.redo.installed fun w hw => ?_
  have hw' := hi.redo.logged w hw
  rw [redoLog, ← hhead] at hw
  obtain ⟨i, hlen, rfl⟩ := mem_logEntries.mp hw
  rw [hdone i (hlen.trans_le (Nat.not_lt.mp htail)) hlen]
  exact hw'

/-- The `write_head` that ends the recovery. The groups that were not durable are gone. -/
theorem recErase (hi : Inv g base m h) (hm : m.phase = .recErase)
    (hok : Xv6.writeHead m.ops.log.start m.ops.log.lh m.store = .ok () st) :
    Inv g base { m with store := st, phase := .up }
      { h with groups := h.groups.take h.durable, cur := [] } := by
  have hrec := hi.recovering (by rw [hm]; rfl)
  obtain ⟨lh, msg, hops⟩ := hrec.boot
  have hph := hi.phase
  rw [hm] at hph
  obtain ⟨hlh, hhome⟩ := hph
  have hlen : (h.groups.take h.durable).length = h.durable := by
    rw [length_take]
    exact Nat.min_eq_left hi.durable
  rw [hi.start, hlh] at hok
  obtain ⟨hflat, hdisk, -⟩ := writeHead_flat hrec.flat hok
  rw [empty_sdiff] at hflat
  have hhead : headSectors (st.disk g.start) = [] := by
    rw [hdisk, update_self]
    exact headSectors_putHead_nil _
  have hstab : History.stable { h with groups := h.groups.take h.durable, cur := [] } base =
      h.stable base := by
    simp [History.stable, take_take]
  have hlat : History.latest { h with groups := h.groups.take h.durable, cur := [] } base =
      h.stable base := by
    simp [History.latest, History.stable]
  have hpend : History.pending { h with groups := h.groups.take h.durable, cur := [] } = [] := by
    simp [History.pending, drop_eq_nil_of_le hlen.le]
  have hhome' : ∀ n < g.start, st.disk n = h.stable base n := by
    intro n hn
    rw [hdisk, update_of_ne (by omega)]
    exact hhome n hn
  have hout : ∀ p, (m.ops.pc p).running = false := by simp [hops, OpSys.boot]
  have hcount : Counted m.ops ∅ := by
    have heq : m.ops = { OpSys.boot g.size g.nlog with panicked := msg } := by
      rw [hops] at hlh ⊢
      simp only at hlh
      simp [OpSys.boot, Log.initlog, hlh]
    rw [heq]
    exact (Counted.boot _ _).panic msg
  refine ⟨hi.start, hlen.ge, hi.lhHome, hi.logging, hi.grouped.truncate hout, ?_,
    fun _ => ⟨⟨∅, hcount⟩, ⟨st.disk, ?_, ?_⟩, by simp [hrec.holder]⟩,
    fun h' => by simp [Phase.recovering] at h',
    ⟨by simp [hops, Log.initlog], by simp [hpend], hhead, by simp⟩⟩
  · rw [redoLog_of_nil hhead, hstab]
    exact Redo.of_home hhome'
  · have hpins : Phase.pins .up m.ops.log.lh = ∅ := by
      ext n
      simp [Phase.pins, hlh]
    have hE : { b | m.edited b = true } = ∅ := by
      ext b
      simp [hrec.edited]
    simp only [hpins, hE, hdisk]
    exact hflat
  · rw [hlat]
    exact hhome'

/-! ### Every event -/

end Inv

/-- What a routine establishes, whether it returns or panics. -/
@[elab_as_elim]
theorem Machine.exec_meets {α : Type} {m' : Machine} {x : Prog Store α} {k : α → Store → Machine}
    {motive : Machine → Prop} (h : m.exec x k = some m')
    (hok : ∀ a st, x m.store = .ok a st → motive (k a st))
    (hpanic : ∀ msg, motive (m.panic msg)) : motive m' := by
  unfold Machine.exec at h
  split at h
  · rename_i a st hx
    exact some.inj h ▸ hok a st hx
  · exact some.inj h ▸ hpanic _
  · simp at h

theorem guarded_map {α β : Type} {P Q : Prop} [Decidable P] [Decidable Q] {x : Option α}
    {f : α → β} {b : β} (h : (if P then (if Q then x else none).map f else none) = some b) :
    P ∧ Q ∧ ∃ a, x = some a ∧ f a = b := by
  obtain ⟨hp, h⟩ := ite_none_right_eq_some.mp h
  obtain ⟨a, ha, hb⟩ := map_eq_some_iff.mp h
  obtain ⟨hq, ha⟩ := ite_none_right_eq_some.mp ha
  exact ⟨hp, hq, a, ha, hb⟩

namespace Inv

variable {g : Geometry} {base : Nat → Block} {m m' : Machine} {h : History} {p : Nat}

theorem commitStep (hi : Inv g base m h) (hpc : m.ops.pc p = .committing)
    (hstep : m.commitStep p = some m') : Inv g base m' (h.record (.commit p) m m') := by
  have hpanic : ∀ msg, Inv g base (m.panic msg) (h.record (.commit p) m (m.panic msg)) :=
    fun msg => by
      rw [History.record, if_neg fun hm => nomatch hm.1.symm.trans hm.2]
      exact hi.panic msg
  unfold Machine.commitStep at hstep
  simp only at hstep
  split at hstep
  · rename_i tail hm
    split at hstep
    · rename_i htail
      refine Machine.exec_meets hstep (fun _ _ hok => ?_) hpanic
      simpa [History.record, hm] using hi.writeLogBody hm htail hok
    · rename_i htail
      cases hstep
      simpa [History.record, hm] using hi.writeLog_done hm htail
  · rename_i hm
    refine Machine.exec_meets hstep (fun _ _ hok => ?_) hpanic
    simpa [History.record, hm] using hi.writeHead hm hok
  · rename_i tail hm
    split at hstep
    · rename_i htail
      refine Machine.exec_meets hstep (fun _ _ hok => ?_) hpanic
      simpa [History.record, hm] using hi.installBody hm htail hok
    · rename_i htail
      cases hstep
      simpa [History.record, hm] using hi.install_done hm htail
  · rename_i hm
    refine Machine.exec_meets hstep (fun _ _ hok => ?_) hpanic
    simpa [History.record, hm] using hi.erase hm hok
  · rename_i hm
    obtain ⟨a, ha⟩ := (hi.live (by rw [hm]; rfl)).counted
    obtain ⟨o, ho, rfl⟩ := map_eq_some_iff.mp hstep
    obtain ⟨-, ⟨⟩⟩ := ite_none_right_eq_some.mp ho
    simpa [History.record, hm] using hi.endCommit hm hpc
  · simp at hstep

theorem recoverStep (hi : Inv g base m h) (hstep : m.recoverStep = some m') :
    Inv g base m' (h.record .recover m m') := by
  have hpanic : ∀ msg, Inv g base (m.panic msg) (h.record .recover m (m.panic msg)) :=
    fun msg => by
      rw [History.record, if_neg fun hm => nomatch hm.1.symm.trans hm.2]
      exact hi.panic msg
  unfold Machine.recoverStep at hstep
  simp only at hstep
  split at hstep
  · rename_i hm
    refine Machine.exec_meets hstep (fun _ _ hok => ?_) hpanic
    simpa [History.record, hm] using hi.readHead hm hok
  · rename_i tail hm
    split at hstep
    · rename_i htail
      refine Machine.exec_meets hstep (fun _ _ hok => ?_) hpanic
      simpa [History.record, hm] using hi.recInstall hm htail hok
    · rename_i htail
      cases hstep
      simpa [History.record, hm] using hi.recInstall_done hm htail
  · rename_i hm
    refine Machine.exec_meets hstep (fun _ _ hok => ?_) hpanic
    simpa [History.record, hm] using hi.recErase hm hok
  · simp at hstep

theorem step {e : Event} (hi : Inv g base m h) (hstep : Machine.step g e m = some m') :
    Inv g base m' (h.record e m m') := by
  cases e with
  | beginOp p =>
    obtain ⟨hs, hpc, o, ho, rfl⟩ := guarded_map hstep
    obtain ⟨l, hl, rfl⟩ := map_eq_some_iff.mp ho
    exact hi.beginOp hs.2 hpc.2 hl
  | bread p sector =>
    obtain ⟨hs, hstep⟩ := ite_none_right_eq_some.mp hstep
    exact Machine.exec_meets hstep (fun _ _ => hi.bread hs.1.2) hi.panic
  | modify p b data =>
    obtain ⟨hs, hstep⟩ := ite_none_right_eq_some.mp hstep
    exact Machine.exec_meets hstep (fun _ _ => hi.modify hs.1.2 hs.2.2) hi.panic
  | logTests p b =>
    obtain ⟨hs, hpc, o, ho, rfl⟩ := guarded_map hstep
    split at ho <;> rename_i htests <;> cases ho
    · exact hi.panic _
    · exact hi.logTests hs.1.2 hpc.2 htests hs.2.2
  | logWrite p b =>
    obtain ⟨hs, hpc, o, ⟨⟩, rfl⟩ := guarded_map hstep
    exact hi.logWrite hs.1.2 hs.2 hpc.2
  | brelse p b =>
    obtain ⟨hs, hstep⟩ := ite_none_right_eq_some.mp hstep
    exact Machine.exec_meets hstep (fun _ _ => hi.brelse hs.1.2 hs.2.2.1 hs.2.2.2) hi.panic
  | endOp p =>
    obtain ⟨hs, hpc, o, ho, rfl⟩ := guarded_map hstep
    obtain ⟨a, ha⟩ := (hi.live hs.2).counted
    rw [Log.endOp_of_not_committing (ha.not_committing (p := p) (by simp [hpc.2]))] at ho
    cases ho
    by_cases hout : m.ops.log.outstanding = 1
    · simpa [History.record, hout] using hi.endOp_last hs.2 hpc.2 hout rfl
    · simpa [History.record, hout] using hi.endOp_others hs.2 hpc.2 hout
  | commit p =>
    obtain ⟨hs, hstep⟩ := ite_none_right_eq_some.mp hstep
    exact hi.commitStep hs.2 hstep
  | crash =>
    cases hstep
    exact hi.crash
  | recover =>
    obtain ⟨-, hstep⟩ := ite_none_right_eq_some.mp hstep
    exact hi.recoverStep hstep

theorem run {es : List Event} {disk : Nat → Block} {s : Machine × History}
    (hclean : headSectors (disk g.start) = [])
    (hrun : runFrom (tracedStep g) es (Machine.powerOn g disk, .empty) = some s) :
    Inv g disk s.1 s.2 := by
  have hkeep : ∀ e (s t : Machine × History), Inv g disk s.1 s.2 → tracedStep g e s = some t →
      Inv g disk t.1 t.2 := by
    intro e s t hi hstep
    obtain ⟨m', hm', rfl⟩ := map_eq_some_iff.mp hstep
    exact hi.step hm'
  exact runFrom_invariant hkeep (Inv.powerOn hclean) hrun

end Inv

/-! ## Crash atomicity -/

/-- Whatever the processes did and however often the power failed, when a recovery completes the
home sectors are those after a prefix of the groups. The prefix has every group whose first
`write_head` reached the disk, and each group has every update of the operations in it. The log
is empty again. -/
theorem recover_atomic {g : Geometry} {disk : Nat → Block} {es : List Event} {m m' : Machine}
    {h : History} (hclean : headSectors (disk g.start) = [])
    (hrun : runFrom (tracedStep g) es (Machine.powerOn g disk, .empty) = some (m, h))
    (hlast : m.phase = .recErase) (hstep : Machine.step g .recover m = some m')
    (hup : m'.phase = .up) :
    ∃ k, h.durable ≤ k ∧ k ≤ h.groups.length ∧
      (∀ n < g.size, ¬ g.InLog n →
        m'.store.disk n = History.contents disk (h.groups.take k).flatten n) ∧
      (∀ gr ∈ h.groups, ∀ u ∈ gr, ∀ v ∈ h.logged, v.op = u.op → v ∈ gr) ∧
      headSectors (m'.store.disk g.start) = [] := by
  have hi := Inv.run hclean hrun
  have hi' := hi.step hstep
  simp only [History.record, hlast, hup, and_self, if_true] at hi'
  have hph := hi'.phase
  rw [hup] at hph
  refine ⟨h.durable, le_rfl, hi.durable, fun n hn hout => ?_, hi.grouped.whole, hph.2.head⟩
  have hhome : n < g.start := by
    by_contra hge
    refine hout ⟨Nat.not_lt.mp hge, ?_⟩
    have := g.fits
    unfold Geometry.start
    omega
  have hredo := hi'.redo
  rw [redoLog_of_nil hph.2.head] at hredo
  rw [hredo.home_of_nil n hhome]
  simp [History.stable, take_take]

/-- A disk of eight sectors, the last four of them the log. -/
def smallDisk : Geometry := ⟨8, 4, by decide, by decide⟩

/-- One operation logs sector 2; the power fails after the first `write_head` of its commit, and
again in the middle of the recovery. -/
def crashInCommit : List Event :=
  let b : Fin NBUF := ⟨1, by decide⟩
  [.recover, .recover, .recover,
   .beginOp 0, .bread 0 2, .modify 0 b (fun _ => 7), .logTests 0 b, .logWrite 0 b, .brelse 0 b,
   .endOp 0, .commit 0, .commit 0, .commit 0, .crash,
   .recover, .recover, .crash, .recover, .recover, .recover]

/-- The run is possible, one more step completes its recovery, and so many groups are durable. -/
def completesRecovery (g : Geometry) (disk : Nat → Block) (es : List Event) (durable : Nat) :
    Bool :=
  match runFrom (tracedStep g) es (Machine.powerOn g disk, .empty) with
  | none => false
  | some (m, h) => m.phase == .recErase && h.durable == durable &&
    match Machine.step g .recover m with
    | none => false
    | some m' => m'.phase == .up

theorem completesRecovery_eq_true {es : List Event} {durable : Nat}
    (hc : completesRecovery g disk es durable = true) :
    ∃ m h m', runFrom (tracedStep g) es (Machine.powerOn g disk, .empty) = some (m, h) ∧
      m.phase = .recErase ∧ h.durable = durable ∧ Machine.step g .recover m = some m' ∧
      m'.phase = .up := by
  unfold completesRecovery at hc
  split at hc
  · simp at hc
  · rename_i m h hrun
    simp only [Bool.and_eq_true, beq_iff_eq] at hc
    obtain ⟨⟨hlast, hdur⟩, hc⟩ := hc
    split at hc
    · simp at hc
    · rename_i m' hstep
      exact ⟨m, h, m', hrun, hlast, hdur, hstep, eq_of_beq hc⟩

theorem recover_atomic_crashInCommit :
    ∃ (m m' : Machine) (h : History),
      runFrom (tracedStep smallDisk) crashInCommit
        (Machine.powerOn smallDisk (fun _ => Bytes.zero BSIZE), .empty) = some (m, h) ∧
      Machine.step smallDisk .recover m = some m' ∧
      ∃ k, 1 ≤ k ∧ k ≤ h.groups.length ∧ ∀ n < 8, ¬ smallDisk.InLog n →
        m'.store.disk n =
          History.contents (fun _ => Bytes.zero BSIZE) (h.groups.take k).flatten n := by
  have hc : completesRecovery smallDisk (fun _ => Bytes.zero BSIZE) crashInCommit 1 = true := by
    decide +kernel
  obtain ⟨m, h, m', hrun, hlast, hdur, hstep, hup⟩ := completesRecovery_eq_true hc
  obtain ⟨k, hk, hle, hdisk, -⟩ := recover_atomic (by decide +kernel) hrun hlast hstep hup
  exact ⟨m, m', h, hrun, hstep, k, hdur ▸ hk, hle, hdisk⟩

section

variable {g : Geometry} {disk : Nat → Block} {es : List Event} {m : Machine} {h : History}

variable (hclean : headSectors (disk g.start) = [])
    (hrun : runFrom (tracedStep g) es (Machine.powerOn g disk, .empty) = some (m, h))

include hclean hrun

/-- Write-ahead logging: at every moment, also in the middle of a commit or of a recovery, a home
sector that the header on the disk does not list is as the durable groups left it, and for a sector
that it lists the block in the log is. -/
theorem home_written_after_log :
    (∀ n < g.start, n ∉ headSectors (m.store.disk g.start) →
      m.store.disk n = History.contents disk (h.groups.take h.durable).flatten n) ∧
    ∀ i (hi : i < (headSectors (m.store.disk g.start)).length),
      m.store.disk (g.start + i + 1) = History.contents disk (h.groups.take h.durable).flatten
        (headSectors (m.store.disk g.start))[i] := by
  have hredo := (Inv.run hclean hrun).redo
  refine ⟨fun n hn hout => hredo.rest n hn ?_, fun i hi => ?_⟩
  · rintro w hw rfl
    obtain ⟨i, hi, rfl⟩ := mem_logEntries.mp hw
    exact hout (getElem_mem hi)
  · exact (hredo.logged _ (mem_logEntries.mpr ⟨i, hi, rfl⟩)).symm

/-- A commit runs alone: no process is in an operation, and one process commits. -/
theorem commit_alone (hrec : m.phase.recovering = false) (hph : m.phase ≠ .up) :
    (∀ p, (m.ops.pc p).running = false) ∧ m.ops.log.outstanding = 0 ∧
    ∀ p q, m.ops.pc p = .committing → m.ops.pc q = .committing → p = q := by
  have hi := Inv.run hclean hrun
  obtain ⟨a, ha⟩ := (hi.live hrec).counted
  have hcom : m.ops.log.committing = true := by
    by_contra hno
    exact hph (hi.phase.eq_up hrec (Bool.eq_false_iff.mpr hno))
  obtain rfl := ha.quiet hcom
  refine ⟨fun p => ?_, ha.outstanding, ha.oneCommitter⟩
  simpa using ha.running p

/-- Logged blocks stay in memory: while the processes run, a sector that was logged and not yet
installed has a dirty buffer, which `bget` does not recycle. Unless its holder is changing them, the
buffer has the data that were logged last. -/
theorem logged_stay_cached (hrec : m.phase.recovering = false) (n : Nat)
    (hn : n ∈ m.phase.pins m.ops.log.lh) :
    ∃ b, Caches m.store b n ∧ isRecyclable m.store.bcache b = false ∧ (m.edited b = false →
      (m.store.buf b).data = History.contents disk (h.groups.flatten ++ h.cur) n) := by
  have hi := Inv.run hclean hrun
  obtain ⟨view, hflat, hlatest⟩ := (hi.live hrec).flat
  obtain ⟨b, hb, hdirty⟩ := hflat.pin n hn
  have hlh : n ∈ m.ops.log.lh := by
    revert hn
    cases m.phase with
    | install tail => exact mem_of_mem_drop
    | _ => exact id
  refine ⟨b, hb, ?_, fun hedited => ?_⟩
  · rw [isRecyclable, show (m.store.bcache.buf b).dirty = true from hdirty]
    exact Bool.and_false _
  · rw [hflat.data b n hb (by simp [hedited]), hlatest n (hi.lhHome n hlh)]
    rfl

end

theorem home_written_after_log_crash : ∃ m h, runFrom (tracedStep smallDisk) crashInCommit
    (Machine.powerOn smallDisk (fun _ => Bytes.zero BSIZE), .empty) = some (m, h) ∧
    ∀ n < 4, n ∉ headSectors (m.store.disk 4) → m.store.disk n =
      History.contents (fun _ => Bytes.zero BSIZE) (h.groups.take h.durable).flatten n := by
  have hc : completesRecovery smallDisk (fun _ => Bytes.zero BSIZE) crashInCommit 1 = true := by
    decide +kernel
  obtain ⟨m, h, -, hrun, -⟩ := completesRecovery_eq_true hc
  exact ⟨m, h, hrun, (home_written_after_log (by decide +kernel) hrun).1⟩

theorem crashInCommit_writeHead : ∃ m h, runFrom (tracedStep smallDisk) (crashInCommit.take 12)
    (Machine.powerOn smallDisk (fun _ => Bytes.zero BSIZE), .empty) = some (m, h) ∧
    m.phase = .writeHead ∧ m.ops.log.lh = [2] := by
  have hrun : (runFrom (tracedStep smallDisk) (crashInCommit.take 12)
      (Machine.powerOn smallDisk (fun _ => Bytes.zero BSIZE), .empty)).map
      (fun x => (x.1.phase, x.1.ops.log.lh)) = some (.writeHead, [2]) := by decide +kernel
  obtain ⟨⟨m, h⟩, hm, heq⟩ := map_eq_some_iff.mp hrun
  exact ⟨m, h, hm, Prod.mk.inj heq⟩

theorem commit_alone_writeHead : ∃ m h, runFrom (tracedStep smallDisk) (crashInCommit.take 12)
    (Machine.powerOn smallDisk (fun _ => Bytes.zero BSIZE), .empty) = some (m, h) ∧
    m.phase = .writeHead ∧ m.ops.log.outstanding = 0 := by
  obtain ⟨m, h, hrun, hph, -⟩ := crashInCommit_writeHead
  exact ⟨m, h, hrun, hph,
    (commit_alone (by decide +kernel) hrun (by rw [hph]; rfl) (by simp [hph])).2.1⟩

theorem logged_stay_cached_writeHead : ∃ m h, runFrom (tracedStep smallDisk)
    (crashInCommit.take 12) (Machine.powerOn smallDisk (fun _ => Bytes.zero BSIZE), .empty) =
      some (m, h) ∧ ∃ b, Caches m.store b 2 ∧ isRecyclable m.store.bcache b = false := by
  obtain ⟨m, h, hrun, hph, hlh⟩ := crashInCommit_writeHead
  obtain ⟨b, hb, hno, -⟩ := logged_stay_cached (by decide +kernel) hrun (by rw [hph]; rfl) 2
    (by simp [hph, hlh, Phase.pins])
  exact ⟨m, h, hrun, b, hb, hno⟩

end Xv6
