import Xv6.Procfs.Format

/-!
# What `procfsread` stores and copies out

`procfsread` formats into a buffer on its stack and copies a slice of it out. The buffer is large
enough for every node but the directory of all processes, which needs one entry for each and four
more. What is copied out comes from the formatters, except that the directory of a process counts an
entry for its working directory even if it has none.
-/

namespace Xv6.Format

open Lib Fmt Cstring Kernel Option List

/-- `memmove(dst, buf + i, n)`. -/
def bytes (i n : Nat) : Fmt (List UInt8) := fun b =>
  (some ((List.range n).map fun j => b.byte (i + j)), b)

/-- `procfsread` (`procfs.c:214-263`) on its buffer. -/
def read (k : Kernel) (inum off n : Nat) : Fmt (List UInt8) := do
  let size ← content k inum
  if off < size then bytes off (min n (size - off)) else return []

section

variable {k : Kernel} {inum off n : Nat} {junk : Nat → UInt8} {t : Ptable}

/-! ## The end of the buffer -/

/-- The stores, and the size that was returned if any, are inside the buffer. -/
def Fits (r : Option Nat × Buffer) : Prop := r.2.top ≤ BUFFSIZE ∧ ∀ size ∈ r.1, size ≤ BUFFSIZE

variable {x : Fmt Nat} {b : Buffer} {ds : List Dirent} {icache : Fin NINODE → Inode}
    {currentInode : Nat}

theorem fits_of_ends
    (h : Ends x b (fun size c => c.top ≤ BUFFSIZE ∧ size ≤ BUFFSIZE) fun c => c.top ≤ BUFFSIZE) :
    Fits (x b) := by
  unfold Ends at h
  rcases hx : x b with ⟨_ | size, c⟩
  · rw [hx] at h
    exact ⟨h, by simp⟩
  · rw [hx] at h
    exact ⟨h.1, by simpa using h.2⟩

theorem Writes.fits {text : Option (List UInt8)} (h : Writes x text b) : Fits (x b) := by
  have hline : LINE + 3 ≤ BUFFSIZE := by decide
  refine fits_of_ends (Ends.mono h ?_ ?_)
  · rintro size c ⟨w, -, rfl, hw, hc⟩
    have := hc.top
    omega
  · rintro c ⟨-, htop⟩
    omega

/-- As many entries as there is room for. -/
theorem listed_fits (hb : b.top = 0) (h : ds.length ≤ 66) : (listed b ds).top ≤ BUFFSIZE := by
  rw [listed_top hb]
  exact Nat.mul_le_mul_left DIRENTSZ h

theorem Shows.fits {listing : Option (List Dirent)} (hb : b.top = 0) (h : Shows x listing n b)
    (hn : n ≤ 66) (hlen : ∀ ds ∈ listing, ds.length ≤ 66) :
    Fits (x b) := by
  refine fits_of_ends (Ends.mono h ?_ ?_)
  · rintro size c ⟨ds, hds, rfl, rfl⟩
    exact ⟨listed_fits hb (hlen ds hds), Nat.mul_le_mul_left DIRENTSZ (hlen ds hds)⟩
  · rintro c ⟨-, ds, hle, rfl⟩
    exact listed_fits hb (hle.trans hn)

theorem fdinfoLoop_length {p : Proc} : ∀ {is : List (Fin NOFILE)} {name : Bytes DIRSIZ}
    {ds : List Dirent}, Xv6.fdinfoLoop p inum is name = some ds → ds.length ≤ is.length
  | [], _, ds, h => by
    cases h
    simp
  | i :: is, name, ds, h => by
    rw [Xv6.fdinfoLoop] at h
    split at h
    · exact (fdinfoLoop_length h).trans (Nat.le_succ _)
    · simp only [Option.bind_eq_bind, bind_eq_some_iff, Option.pure_def,
        some.injEq] at h
      obtain ⟨name', -, rest, hrest, rfl⟩ := h
      exact Nat.succ_le_succ (fdinfoLoop_length hrest)

theorem fdinfo_length (h : Xv6.fdinfo t inum = some ds) : ds.length ≤ 18 := by
  simp only [Xv6.fdinfo, Option.bind_eq_bind, bind_eq_some_iff, Option.pure_def,
    some.injEq] at h
  obtain ⟨p, -, rest, hrest, rfl⟩ := h
  have hle : rest.length ≤ 16 := fdinfoLoop_length hrest
  exact Nat.add_le_add_right hle 2

/-- With proper pids every process gets its entry. -/
theorem initProcLoop_length : ∀ (ks : List (Fin NPROC)) (name : Bytes DIRSIZ),
    (∀ k, (t.proc k).state ≠ .unused → 0 ≤ (t.proc k).pid) →
    ∃ es, Xv6.initProcLoop t ks name = some es ∧
      es.length = ks.countP fun k => decide ((t.proc k).state ≠ .unused)
  | [], _, _ => ⟨[], rfl, rfl⟩
  | k :: ks, name, hpid => by
    rw [Xv6.initProcLoop]
    by_cases hk : (t.proc k).state = .unused
    · rw [if_pos hk, countP_cons_of_neg (by simp [hk])]
      exact initProcLoop_length ks name hpid
    · obtain ⟨name', hname⟩ : ∃ name', itoaName (t.proc k).pid name = some name' := by
        rw [itoaName, Xv6.itoa, if_neg (not_lt.mpr (hpid k hk))]
        exact ⟨_, rfl⟩
      obtain ⟨es, hes, hlen⟩ := initProcLoop_length ks name' hpid
      rw [if_neg hk, countP_cons_of_pos (by simp [hk]), hname]
      refine ⟨{ inum := BitVec.ofInt 16 (700 * (t.proc k).pid), name := name' } :: es, ?_, ?_⟩
      · simp [hes]
      · rw [length_cons, hlen]

theorem initProc_length (inum : Nat)
    (hpid : ∀ k, (t.proc k).state ≠ .unused → 0 ≤ (t.proc k).pid) :
    ∃ ds, Xv6.initProc t inum = some ds ∧ ds.length = 4 + inUse t := by
  obtain ⟨es, hes, hlen⟩ := initProcLoop_length (List.finRange NPROC)
    (strncpyName (cstr "inodestat")) hpid
  refine ⟨_, by simp only [Xv6.initProc, hes]; rfl, ?_⟩
  rw [length_append, hlen]
  rfl

/-- The directory of all processes fits if there are not too many. -/
theorem initProc_fits_iff (hb : b.top = 0)
    (hpid : ∀ k, (t.proc k).state ≠ .unused → 0 ≤ (t.proc k).pid) :
    Fits (initProc t inum b) ↔ inUse t ≤ 62 := by
  obtain ⟨ds, hds, hlen⟩ := initProc_length inum hpid
  have hshows : Shows (initProc t inum) (Xv6.initProc t inum) (4 + inUse t) b := initProc_shows
  constructor
  · intro hfits
    have htop : (initProc t inum b).2.top = DIRENTSZ * (4 + inUse t) := by
      unfold Shows Ends at hshows
      rcases hx : initProc t inum b with ⟨_ | size, c⟩
      · rw [hx] at hshows
        rw [hds] at hshows
        simp at hshows
      · rw [hx] at hshows
        obtain ⟨ds', hds', -, rfl⟩ := hshows
        obtain rfl := some.inj (hds.symm.trans hds')
        rw [listed_top hb, hlen]
    have hle := hfits.1
    rw [htop] at hle
    have : 4 + inUse t ≤ 66 := Nat.le_of_mul_le_mul_left hle (by decide)
    omega
  · intro hle
    refine hshows.fits hb (by omega) fun ds' hds' => ?_
    obtain rfl := some.inj (hds.symm.trans hds')
    omega

theorem initPID_fits (hb : b.top = 0) : Fits (initPID t icache currentInode inum b) := by
  refine fits_of_ends (Ends.mono initPID_shows ?_ ?_)
  · rintro size c ⟨ds, -, -, hlen, rfl, rfl⟩
    exact ⟨listed_fits hb (by omega), by decide⟩
  · rintro c ⟨-, ds, hlen, rfl⟩
    exact listed_fits hb (by omega)

/-- Every formatter stays inside the buffer of `procfsread`, except for the directory of all
processes when there are more than 62 of them. -/
theorem content_fits_iff {ls : List ProcStep} (hrun : runFrom Ptable.step ls .empty = some k.ptable)
    (inum : Nat) (junk : Nat → UInt8) :
    Fits (content k inum (.fresh junk)) ↔ (command inum = .proc → inUse k.ptable ≤ 62) := by
  have hpid : ∀ p, (k.ptable.proc p).state ≠ .unused → 0 ≤ (k.ptable.proc p).pid :=
    fun p hp => ((Ptable.Numbered.run hrun).inUse p hp).1.le
  unfold content
  cases command inum with
  | proc => exact (initProc_fits_iff rfl hpid).trans ⟨fun h _ => h, fun h => h rfl⟩
  | pid => exact iff_of_true (initPID_fits rfl) (by simp)
  | status => exact iff_of_true (status_writes rfl).fits (by simp)
  | blockstat => exact iff_of_true (blockstat_writes rfl).fits (by simp)
  | inodestat => exact iff_of_true (inodestat_writes rfl).fits (by simp)
  | fd => exact iff_of_true (filesContent_writes rfl).fits (by simp)
  | nothing =>
    refine iff_of_true ⟨Nat.zero_le _, fun size hsize => ?_⟩ (by simp)
    cases hsize
    exact Nat.zero_le _
  | fdinfo =>
    refine iff_of_true (fdinfo_shows.fits rfl (by decide) fun ds hds => ?_) (by simp)
    have := fdinfo_length hds
    omega

/-- A kernel with a given process table. -/
def tableKernel (t : Ptable) : Kernel :=
  { Kernel.loaded { disk := fun _ => Bytes.zero BSIZE, disksize := 0, bcache := binit }
      (.initlog 0 0) { junk := fun _ _ => 0, input := fun _ => none, memory := fun _ => false } with
    ptable := t }

/-- The first process and `n` children. -/
def family (n : Nat) : List ProcStep :=
  [.userinit none, .sched ⟨0, NPROC_pos⟩ .running false] ++
    List.replicate n (.fork ⟨0, NPROC_pos⟩ true true)

theorem content_fits_alone : ∃ t, runFrom Ptable.step (family 1) .empty = some t ∧
    Fits (content (tableKernel t) 19 (.fresh fun _ => 0)) := by
  obtain ⟨t, ht⟩ : ∃ t, runFrom Ptable.step (family 1) .empty = some t := ⟨_, rfl⟩
  refine ⟨t, ht, (content_fits_iff (k := tableKernel t) ht 19 _).mpr fun _ => ?_⟩
  have hle : ((runFrom Ptable.step (family 1) .empty).map inUse).getD 0 ≤ 62 := by decide +kernel
  rw [ht] at hle
  exact hle

/-- With 63 processes the last entry is stored behind the end of the buffer. -/
theorem content_overflows : ∃ t, runFrom Ptable.step (family 62) .empty = some t ∧
    inUse t = 63 ∧ (content (tableKernel t) 19 (.fresh fun _ => 0)).2.top = 1072 ∧
    BUFFSIZE = 1056 := by
  have hrun : ((runFrom Ptable.step (family 62) .empty).map fun t =>
      (inUse t, (content (tableKernel t) 19 (.fresh fun _ => 0)).2.top)) = some (63, 1072) := by
    decide +kernel
  obtain ⟨t, ht, heq⟩ := map_eq_some_iff.mp hrun
  obtain ⟨huse, htop⟩ := Prod.mk.inj heq
  exact ⟨t, ht, huse, htop, by decide⟩

/-! ## What was on the stack -/

theorem fillJunk_eq (junk : Nat → UInt8) (bs : List (Option UInt8)) :
    fillJunk junk bs = (List.range bs.length).map fun i => (bs.getD i none).getD (junk i) := by
  apply ext_getElem (by simp [fillJunk])
  intro i hi _
  have hlt : i < bs.length := by simpa [fillJunk] using hi
  simp [fillJunk, getElem?_eq_getElem hlt]

theorem read_run (k : Kernel) (inum off n : Nat) (junk : Nat → UInt8) :
    (read k inum off n (.fresh junk)).1 =
      (procfsContent k inum).map fun bs => ((fillJunk junk bs).drop off).take n := by
  have h := content_reads k inum junk
  unfold Ends at h
  rcases hrun : content k inum (.fresh junk) with ⟨_ | size, c⟩
  · rw [hrun] at h
    rw [read, bind_run_none hrun, h]
    rfl
  · rw [hrun] at h
    obtain ⟨bs, hbs, rfl, hbyte⟩ := h
    rw [read, bind_run hrun, hbs, map_some, fillJunk_eq]
    by_cases hoff : off < bs.length
    · rw [if_pos hoff]
      show some ((List.range _).map fun j => c.byte (off + j)) = _
      congr 1
      apply ext_getElem (by simp)
      intro j hj _
      simp only [length_map, length_range] at hj
      simp only [getElem_map, getElem_range, getElem_take, getElem_drop]
      exact hbyte (off + j) (by omega)
    · rw [if_neg hoff, drop_eq_nil_of_le (by simp; omega), take_nil]
      rfl

/-- A byte of the slice that nothing was stored to. -/
def Blank (bs : List (Option UInt8)) (off n : Nat) : Prop :=
  ∃ i, off ≤ i ∧ i < off + n ∧ i < bs.length ∧ bs.getD i none = none

theorem fillJunk_slice_iff {bs : List (Option UInt8)} :
    (∀ junk junk' : Nat → UInt8,
      ((fillJunk junk bs).drop off).take n = ((fillJunk junk' bs).drop off).take n) ↔
    ¬ Blank bs off n := by
  simp only [fillJunk_eq]
  constructor
  · rintro h ⟨i, hoff, hn, hlen, hnone⟩
    have heq := congrArg (List.getD · (i - off) 0) (h (fun _ => 0) fun _ => 1)
    rw [getD_eq_getElem _ _ (by simp; omega), getD_eq_getElem _ _ (by simp; omega)] at heq
    simp only [getElem_take, getElem_drop, getElem_map, getElem_range,
      show off + (i - off) = i by omega, hnone, getD_none] at heq
    exact absurd heq (by decide)
  · intro hblank junk junk'
    apply ext_getElem (by simp)
    intro j hj _
    simp only [length_take, length_drop, length_map, length_range] at hj
    simp only [getElem_take, getElem_drop, getElem_map, getElem_range]
    cases hbyte : bs.getD (off + j) none with
    | none => exact absurd ⟨off + j, by omega, by omega, by omega, hbyte⟩ hblank
    | some c => rfl

theorem not_blank_map {w : List UInt8} : ¬ Blank (w.map some) off n := by
  rintro ⟨i, -, -, hlen, hnone⟩
  rw [getD_eq_getElem _ _ hlen, getElem_map] at hnone
  cases hnone

/-- The slice of the directory of a process reaches the entry for its working directory, and it has
none. -/
def Leaks (k : Kernel) (inum off n : Nat) : Prop :=
  command inum = .pid ∧
    (∃ p, k.ptable.getProcByPID (inum / 700) = some p ∧ (k.ptable.proc p).cwd = none) ∧
    0 < n ∧ off < 5 * DIRENTSZ ∧ 4 * DIRENTSZ < off + n

/-- The entries of a process's directory and the room for one more. -/
theorem blank_pid_iff (h4 : 4 ≤ ds.length) (h5 : ds.length ≤ 5) :
    Blank ((direntBytes ds ++ List.replicate DIRENTSZ none).take (5 * DIRENTSZ)) off n ↔
      ds.length = 4 ∧ 0 < n ∧ off < 5 * DIRENTSZ ∧ 4 * DIRENTSZ < off + n := by
  have hlen : (direntBytes ds).length = 16 * ds.length := by
    rw [direntBytes_eq, length_map, Dirent.length_flatMap_bytes]
    rfl
  have hsz : DIRENTSZ = 16 := rfl
  have hbyte : ∀ i < 80, ((direntBytes ds ++ List.replicate DIRENTSZ none).take
      (5 * DIRENTSZ)).getD i none = none ↔ 16 * ds.length ≤ i := by
    intro i hi
    rw [getD_eq_getElem?_getD, getElem?_take_of_lt (by omega),
      ← getD_eq_getElem?_getD]
    by_cases hlt : i < 16 * ds.length
    · rw [getD_append _ _ _ _ (by omega), direntBytes_eq,
        getD_eq_getElem _ _ (by rw [← direntBytes_eq]; omega), getElem_map]
      simp [hlt]
    · rw [getD_append_right _ _ _ _ (by omega), getD_replicate]
      · exact iff_of_true rfl (by omega)
      · omega
  constructor
  · rintro ⟨i, hoff, hn, hi, hnone⟩
    simp only [length_take, length_append, length_replicate] at hi
    have := (hbyte i (by omega)).mp hnone
    omega
  · rintro ⟨h, hn, hoff, hend⟩
    refine ⟨max off 64, by omega, by omega, ?_, (hbyte _ (by omega)).mpr (by omega)⟩
    simp only [length_take, length_append, length_replicate]
    omega

theorem initPID_length (h : Xv6.initPID t icache currentInode inum = some ds) :
    ∃ p, t.getProcByPID (inum / 700) = some p ∧
      ds.length = if (t.proc p).cwd = none then 4 else 5 := by
  simp only [Xv6.initPID, Option.bind_eq_bind, bind_eq_some_iff, Option.pure_def,
    some.injEq] at h
  obtain ⟨p, hp, rfl⟩ := h
  refine ⟨p, hp, ?_⟩
  cases (t.proc p).cwd <;> rfl

/-- The contents of a node have blank bytes where the working directory is missing, and no others. -/
theorem blank_content_iff {bs : List (Option UInt8)} (h : procfsContent k inum = some bs) :
    Blank bs off n ↔ Leaks k inum off n := by
  have hother : ∀ {o : Option (List UInt8)}, o.map (List.map some) = some bs → ¬ Blank bs off n := by
    intro o ho
    obtain ⟨w, -, rfl⟩ := map_eq_some_iff.mp ho
    exact not_blank_map
  have hdir : ∀ {o : Option (List Dirent)}, o.map direntBytes = some bs → ¬ Blank bs off n := by
    intro o ho
    obtain ⟨ds, -, rfl⟩ := map_eq_some_iff.mp ho
    rw [direntBytes_eq]
    exact not_blank_map
  unfold procfsContent at h
  unfold Leaks
  cases hc : command inum with
  | proc | fdinfo => rw [hc] at h; exact iff_of_false (hdir h) (by simp)
  | status | blockstat | inodestat | fd => rw [hc] at h; exact iff_of_false (hother h) (by simp)
  | nothing =>
    rw [hc] at h
    cases h
    exact iff_of_false (by rintro ⟨i, -, -, hi, -⟩; simp at hi) (by simp)
  | pid =>
    rw [hc] at h
    obtain ⟨ds, hds, rfl⟩ := map_eq_some_iff.mp h
    obtain ⟨p, hp, hlen⟩ := initPID_length hds
    rw [blank_pid_iff (by rw [hlen]; split <;> omega) (by rw [hlen]; split <;> omega), hlen]
    simp [hp]

/-- What is copied out does not depend on what was on the stack, unless the slice reaches the entry
for the working directory of a process without one. -/
theorem read_independent_iff (k : Kernel) (inum off n : Nat) :
    (∀ junk junk' : Nat → UInt8,
      (read k inum off n (.fresh junk)).1 = (read k inum off n (.fresh junk')).1) ↔
    ¬ Leaks k inum off n := by
  simp only [read_run]
  cases hbs : procfsContent k inum with
  | none =>
    apply iff_of_true (fun _ _ => rfl)
    rintro ⟨hc, ⟨p, hp, -⟩, -⟩
    simp [procfsContent, hc, Xv6.initPID, hp] at hbs
  | some bs =>
    rw [← blank_content_iff hbs, ← fillJunk_slice_iff]
    simp only [map_some, some.injEq]

/-- A child that has exited and not been waited for. -/
def orphan : List ProcStep :=
  [.userinit (some ⟨0, NINODE_pos⟩), .sched ⟨0, NPROC_pos⟩ .running false,
    .fork ⟨0, NPROC_pos⟩ true true, .sched ⟨1, one_lt_NPROC⟩ .running false,
    .exit ⟨1, one_lt_NPROC⟩]

/-- The last entry in the directory of a zombie is what was on the stack. -/
theorem read_leaks : ∃ t, runFrom Ptable.step orphan .empty = some t ∧
    (t.proc ⟨1, by decide⟩).state = .zombie ∧ (t.proc ⟨1, by decide⟩).pid = 2 ∧
    (read (tableKernel t) 1400 64 16 (.fresh fun _ => 7)).1 = some (List.replicate 16 7) ∧
    (read (tableKernel t) 1400 64 16 (.fresh fun _ => 8)).1 = some (List.replicate 16 8) := by
  have hrun : ((runFrom Ptable.step orphan .empty).map fun t =>
      decide ((t.proc ⟨1, by decide⟩).state = .zombie ∧ (t.proc ⟨1, by decide⟩).pid = 2 ∧
        (read (tableKernel t) 1400 64 16 (.fresh fun _ => 7)).1 = some (List.replicate 16 7) ∧
        (read (tableKernel t) 1400 64 16 (.fresh fun _ => 8)).1 = some (List.replicate 16 8))) =
      some true := by
    decide +kernel
  obtain ⟨t, ht, heq⟩ := map_eq_some_iff.mp hrun
  exact ⟨t, ht, of_decide_eq_true heq⟩

end

end Xv6.Format
