import Xv6.Fs.Refs

/-!
# Leaving a removed directory

A process drops its working directory, whose last link is gone, while others look up
`/proc/<pid>/cwd`. `initPID` reads the number of the directory through `p->cwd`, a pointer that the
leaving process clears only after `iput` has returned, and takes no reference with it. The lookup's
`iget` may therefore come after the test of `iput`, and then the inode is freed under it.

The inode cache is the one of `Xv6.Fs.Refs`; here the inodes on the disk stand beside it.
-/

namespace Xv6

open Function Option List

open Lib

/-- The inode cache, the inodes on the disk, and the process that leaves. -/
structure LeaveSys where
  sys : RefSys
  disk : Nat → Dinode
  /-- `p->cwd`. -/
  cwd : Option (Fin NINODE)
  /-- The number that a lookup has found in the listing of `/proc/<pid>`. -/
  listed : Nat → Option Nat
  /-- In the free path of `iput`, after `iupdate`. -/
  erased : Nat → Bool

/-- One step of one process. -/
inductive LeaveStep where
  /-- `initPID` (`procfs.c:83-87`). -/
  | list (q : Nat)
  /-- `dirlookup`'s `iget` of the number listed. -/
  | iget (q : Nat)
  /-- `dirlookup`'s test of `I_VALID`. -/
  | test (q : Nat)
  | procfsiread (q : Nat)
  /-- The locked section of `ilock`. -/
  | ilock (q : Nat) (e : Fin NINODE)
  /-- The rest of `ilock`. -/
  | load (q : Nat)
  | iunlock (q : Nat) (e : Fin NINODE)
  /-- The first locked section of `iput`. -/
  | iput (q : Nat) (e : Fin NINODE)
  /-- `itrunc`, and `iupdate` with type 0. -/
  | erase (q : Nat)
  /-- The second locked section of `iput`. -/
  | free (q : Nat)
  /-- The leaving process assigns `p->cwd`. -/
  | leave (p : Nat)

namespace LeaveSys

/-- What the free path of `iput` writes to the disk (`fs.c:398-422`, `fs.c:330-331`). -/
def erasedInode (d : Dinode) : Dinode := { d with type := 0, size := 0, addrs := fun _ => 0 }

/-- One step; `none` when it cannot happen. -/
def step : LeaveStep → LeaveSys → Option LeaveSys
  | .list q, s =>
    if s.sys.panicked = none ∧ s.sys.pc q = .idle then
      s.cwd.map fun e =>
        { s with listed := update s.listed q (some (s.sys.icache e).inum) }
    else none
  | .iget q, s =>
    match s.listed q with
    | some n => (RefSys.step (.iget q ROOTDEV n true) s.sys).map fun t =>
        { s with sys := t, listed := update s.listed q none }
    | none => none
  | .test q, s => (RefSys.step (.test q) s.sys).map fun t => { s with sys := t }
  | .procfsiread q, s => (RefSys.step (.procfsiread q) s.sys).map fun t => { s with sys := t }
  | .ilock q e, s => (RefSys.step (.ilock q e) s.sys).map fun t => { s with sys := t }
  | .load q, s =>
    match s.sys.pc q with
    | .loading e =>
      (RefSys.step (.load q (s.disk (s.sys.icache e).inum)) s.sys).map fun t => { s with sys := t }
    | _ => none
  | .iunlock q e, s => (RefSys.step (.iunlock q e) s.sys).map fun t => { s with sys := t }
  | .iput q e, s =>
    (RefSys.step (.iput q e) s.sys).map fun t =>
      { s with sys := t, erased := update s.erased q false }
  | .erase q, s =>
    match s.sys.pc q with
    | .freeing e =>
      if s.sys.panicked = none ∧ s.erased q = false then
        some { s with
          sys := s.sys.setEntry e { s.sys.icache e with d := erasedInode (s.sys.icache e).d }
          disk := update s.disk (s.sys.icache e).inum (erasedInode (s.sys.icache e).d)
          erased := update s.erased q true }
      else none
    | _ => none
  | .free q, s =>
    if s.erased q = true then (RefSys.step (.free q) s.sys).map fun t => { s with sys := t }
    else none
  | .leave p, s =>
    match s.cwd with
    | some e =>
      if s.sys.panicked = none ∧ s.sys.pc p = .idle ∧ (.proc p, e) ∉ s.sys.refs then
        some { s with cwd := none }
      else none
    | none => none

/-- The start: `p`'s working directory `e` is inode `n`, which has no link left. Others may have
references to it. -/
structure Start (p n : Nat) (e : Fin NINODE) (s : LeaveSys) : Prop where
  accounted : s.sys.Accounted
  idle : ∀ q, s.sys.pc q = .idle
  only : ∀ r ∈ s.sys.refs, r.2 = e
  mem : (.proc p, e) ∈ s.sys.refs
  dev : (s.sys.icache e).dev = ROOTDEV
  inum : (s.sys.icache e).inum = n
  valid : (s.sys.icache e).valid = true
  nlink : (s.sys.icache e).d.nlink = 0
  type : (s.disk n).type ≠ 0
  cwd : s.cwd = some e
  listed : ∀ q, s.listed q = none
  running : s.sys.panicked = none

/-- A lookup's `iget` comes before an `iput` of the inode has passed its test: nobody is freeing
the inode, and it has not been freed. -/
def InTime (l : LeaveStep) (s : LeaveSys) : Prop :=
  ∀ q n, l = .iget q → s.listed q = some n →
    (s.disk n).type ≠ 0 ∧ ∀ r x, s.sys.pc r = .freeing x → (s.sys.icache x).inum ≠ n

/-- Nobody has a reference to a freed inode, but the process that is freeing it. -/
def Safe (s : LeaveSys) : Prop :=
  (∀ r ∈ s.sys.refs, (s.disk (s.sys.icache r.2).inum).type = 0 →
    ∃ q, r.1 = .proc q ∧ s.sys.pc q = .freeing r.2) ∧
  s.sys.panicked ≠ some "ilock: no type"

/-! ## The invariant -/

/-- How far the inode is. -/
inductive Stage (n : Nat) (e : Fin NINODE) (s : LeaveSys) : Prop where
  /-- In use. -/
  | alive (valid : (s.sys.icache e).valid = true) (nlink : (s.sys.icache e).d.nlink = 0)
      (ref : 0 < (s.sys.icache e).ref) (type : (s.disk n).type ≠ 0)
      (nobody : ∀ q x, s.sys.pc q ≠ .freeing x)
  /-- `q` is freeing it, and has the only reference. -/
  | dying (q : Nat) (pc : s.sys.pc q = .freeing e) (refs : s.sys.refs = [(.proc q, e)])
      (erased : s.erased q = true → (s.disk n).type = 0)
  /-- Gone. -/
  | dead (refs : s.sys.refs = []) (type : (s.disk n).type = 0)
      (nobody : ∀ q x, s.sys.pc q ≠ .freeing x)

theorem Stage.congr {n : Nat} {e : Fin NINODE} {s t : LeaveSys} (h : Stage n e s)
    (hic : t.sys.icache e = s.sys.icache e) (hrefs : t.sys.refs = s.sys.refs)
    (hpc : t.sys.pc = s.sys.pc) (hdisk : t.disk = s.disk) (herased : t.erased = s.erased) :
    Stage n e t := by
  rcases h with ⟨a, b, c, d, f⟩ | ⟨q, a, b, c⟩ | ⟨a, b, c⟩
  · exact .alive (by rw [hic]; exact a) (by rw [hic]; exact b) (by rw [hic]; exact c)
      (by rw [hdisk]; exact d) (by rw [hpc]; exact f)
  · exact .dying q (by rw [hpc]; exact a) (by rw [hrefs]; exact b)
      (by rw [hdisk, herased]; exact c)
  · exact .dead (by rw [hrefs]; exact a) (by rw [hdisk]; exact b) (by rw [hpc]; exact c)

/-- What holds while the lookups are in time. -/
structure Watched (n : Nat) (e : Fin NINODE) (s : LeaveSys) : Prop where
  accounted : s.sys.Accounted
  only : ∀ r ∈ s.sys.refs, r.2 = e
  dev : (s.sys.icache e).dev = ROOTDEV
  inum : (s.sys.icache e).inum = n
  cwd : ∀ x, s.cwd = some x → x = e
  listed : ∀ q m, s.listed q = some m → m = n
  quiet : ∀ q x, s.sys.pc q ≠ .reading x ∧ s.sys.pc q ≠ .loading x
  looked : ∀ q x, s.sys.pc q = .looked x → (.proc q, x) ∈ s.sys.refs
  stage : Stage n e s
  typed : s.sys.panicked ≠ some "ilock: no type"

namespace Watched

variable {n q : Nat} {e x : Fin NINODE} {s t : LeaveSys}

theorem of_start {p : Nat} (h : Start p n e s) : Watched n e s where
  accounted := h.accounted
  only := h.only
  dev := h.dev
  inum := h.inum
  cwd := fun x hx => some.inj (hx.symm.trans h.cwd)
  listed := fun q m hm => by simp [h.listed q] at hm
  quiet := fun q x => by simp [h.idle q]
  looked := fun q x hx => by simp [h.idle q] at hx
  stage := by
    refine .alive h.valid h.nlink ?_ h.type fun q x => by simp [h.idle q]
    have hpos : 0 < s.sys.held e := countP_pos_iff.mpr ⟨_, h.mem, by simp⟩
    rw [h.accounted.ref e]
    omega
  typed := by simp [h.running]

theorem safe (h : Watched n e s) : Safe s := by
  refine ⟨fun r hr htype => ?_, h.typed⟩
  rw [h.only r hr, h.inum] at htype
  rcases h.stage with ⟨-, -, -, halive, -⟩ | ⟨q, hpc, hrefs, -⟩ | ⟨hrefs, -, -⟩
  · exact absurd htype halive
  · rw [hrefs, mem_singleton] at hr
    exact ⟨q, by rw [hr], by rw [hr]; exact hpc⟩
  · simp [hrefs] at hr

theorem panic (h : Watched n e s) (msg : String) (hmsg : msg ≠ "ilock: no type") :
    Watched n e { s with sys := { s.sys with panicked := some msg } } :=
  { h with
    accounted := h.accounted.panic _
    stage := h.stage.congr rfl rfl rfl rfl rfl
    typed := by simpa using hmsg }

/-- While the inode is in use its entry is the one that `iget` finds. -/
theorem iget_eq {ic : Icache} (h : Watched n e s) (href : 0 < (s.sys.icache e).ref)
    (hget : iget s.sys.icache ROOTDEV n = some (x, ic)) :
    x = e ∧ ic = update s.sys.icache e
      { s.sys.icache e with ref := (s.sys.icache e).ref + 1 } := by
  have hone : ∀ y, 0 < (s.sys.icache y).ref → y = e := by
    intro y hy
    rw [h.accounted.ref y] at hy
    obtain ⟨r, hr, hry⟩ := countP_pos_iff.mp (Int.natCast_pos.mp hy)
    rw [← h.only r hr]
    exact (of_decide_eq_true hry).symm
  rcases iget_eq_some hget with ⟨hx, -, -, hic⟩ | ⟨hnone, -, -⟩
  · obtain rfl := hone x hx
    exact ⟨rfl, hic⟩
  · exact absurd ⟨href, h.dev, h.inum⟩ (hnone e)

/-- A process with a reference that is not freeing anything: the inode is in use. -/
theorem alive_of_mem (h : Watched n e s) (hmem : (.proc q, x) ∈ s.sys.refs)
    (hpc : ∀ y, s.sys.pc q ≠ .freeing y) :
    x = e ∧ (s.sys.icache e).valid = true ∧ (s.sys.icache e).d.nlink = 0 ∧
      0 < (s.sys.icache e).ref ∧ (s.disk n).type ≠ 0 ∧ ∀ r y, s.sys.pc r ≠ .freeing y := by
  refine ⟨h.only _ hmem, ?_⟩
  rcases h.stage with ⟨a, b, c, d, f⟩ | ⟨r, hr, hrefs, -⟩ | ⟨hrefs, -, -⟩
  · exact ⟨a, b, c, d, f⟩
  · rw [hrefs, mem_singleton] at hmem
    obtain rfl := Owner.proc.inj (Prod.mk.inj hmem).1
    exact absurd hr (hpc e)
  · simp [hrefs] at hmem

theorem dying_of_freeing (h : Watched n e s) (hpc : s.sys.pc q = .freeing x) :
    x = e ∧ s.sys.refs = [(.proc q, e)] ∧ (s.erased q = true → (s.disk n).type = 0) := by
  have hmem := h.accounted.holder x q (h.accounted.inside q x (.inr hpc))
  rcases h.stage with ⟨-, -, -, -, hno⟩ | ⟨r, -, hrefs, her⟩ | ⟨hrefs, -, -⟩
  · exact absurd hpc (hno q x)
  · have hsame := hmem
    rw [hrefs, mem_singleton] at hsame
    obtain rfl := Owner.proc.inj (Prod.mk.inj hsame).1
    exact ⟨h.only _ hmem, hrefs, her⟩
  · simp [hrefs] at hmem

theorem sole (h : Watched n e s) (hmem : (.proc q, e) ∈ s.sys.refs)
    (href : (s.sys.icache e).ref = 1) : s.sys.refs = [(.proc q, e)] := by
  have hlen : s.sys.refs.length = 1 := by
    have hall : s.sys.held e = s.sys.refs.length :=
      countP_eq_length.mpr fun r hr => by simp [h.only r hr]
    have := h.accounted.ref e
    omega
  obtain ⟨r, hr⟩ := length_eq_one_iff.mp hlen
  rw [hr, mem_singleton] at hmem
  rw [hr, hmem]

/-- A step after which the inode is still in use: `q` has moved to `pc'`, and the entry has changed
in its count and lock only. -/
theorem alive {sys : RefSys} {erased : Nat → Bool} {listed : Nat → Option Nat}
    (h : Watched n e s) (pc' : RefPc) (hacc : sys.Accounted) (hrefs : ∀ r ∈ sys.refs, r.2 = e)
    (hkeep : ∀ r y, s.sys.pc r = .looked y → r ≠ q → (.proc r, y) ∈ sys.refs)
    (hentry : (sys.icache e).dev = (s.sys.icache e).dev ∧
      (sys.icache e).inum = (s.sys.icache e).inum ∧ (sys.icache e).d = (s.sys.icache e).d ∧
      (sys.icache e).valid = (s.sys.icache e).valid ∧ 0 < (sys.icache e).ref)
    (hnow : (s.sys.icache e).valid = true ∧ (s.sys.icache e).d.nlink = 0 ∧
      (s.disk n).type ≠ 0 ∧ ∀ r y, s.sys.pc r ≠ .freeing y)
    (hpc : sys.pc = update s.sys.pc q pc')
    (hpc' : pc' = .idle ∨ pc' = .looked e ∧ (.proc q, e) ∈ sys.refs)
    (hlisted : ∀ r m, listed r = some m → s.listed r = some m)
    (hp : sys.panicked = s.sys.panicked) :
    Watched n e { s with sys := sys, erased := erased, listed := listed } := by
  obtain ⟨hdev, hinum, hd, hvalid, href⟩ := hentry
  have hother : ∀ {P : RefPc → Prop}, P pc' → (∀ r, P (s.sys.pc r)) → ∀ r, P (sys.pc r) := by
    intro P hq hall r
    rw [hpc]
    by_cases hr : r = q
    · rw [hr, update_self]
      exact hq
    · rw [update_of_ne hr]
      exact hall r
  have hshape : (∀ y, pc' ≠ .reading y ∧ pc' ≠ .loading y) ∧ ∀ y, pc' ≠ .freeing y := by
    rcases hpc' with rfl | ⟨rfl, -⟩ <;> simp
  refine ⟨hacc, hrefs, by rw [hdev]; exact h.dev, by rw [hinum]; exact h.inum, h.cwd,
    fun r m hm => h.listed r m (hlisted r m hm),
    hother (P := fun c => ∀ y, c ≠ .reading y ∧ c ≠ .loading y) hshape.1 h.quiet, ?_,
    .alive (by rw [hvalid]; exact hnow.1) (by rw [hd]; exact hnow.2.1) href hnow.2.2.1
      (hother (P := fun c => ∀ y, c ≠ .freeing y) hshape.2 hnow.2.2.2), ?_⟩
  · intro r y hy
    simp only [hpc] at hy
    by_cases hr : r = q
    · subst hr
      rw [update_self] at hy
      rcases hpc' with rfl | ⟨rfl, hmem⟩
      · cases hy
      · exact RefPc.looked.inj hy ▸ hmem
    · rw [update_of_ne hr] at hy
      exact hkeep r y hy hr
  · intro hno
    exact h.typed (hp.symm.trans hno)

end Watched

variable {n : Nat} {e : Fin NINODE} {s t : LeaveSys}

theorem Watched.counts {l : RefStep} {sys : RefSys} (h : Watched n e s)
    (hl : ∀ q, l ≠ .procfsiread q) (hstep : RefSys.step l s.sys = some sys) : sys.Accounted :=
  h.accounted.step (fun q _ heq => absurd heq (hl q)) hstep

/-- Every step keeps the invariant, a lookup's `iget` only when it is in time. -/
theorem Watched.step {l : LeaveStep} (h : Watched n e s) (hcond : InTime l s)
    (hstep : LeaveSys.step l s = some t) : Watched n e t := by
  cases l with
  | list q =>
    obtain ⟨-, hstep⟩ := ite_none_right_eq_some.mp hstep
    obtain ⟨x, hx, rfl⟩ := map_eq_some_iff.mp hstep
    obtain rfl := h.cwd x hx
    refine { h with
      listed := fun r m hm => ?_
      stage := h.stage.congr rfl rfl rfl rfl rfl }
    by_cases hr : r = q
    · subst hr
      simp only [update_self, some.injEq] at hm
      rw [← hm, h.inum]
    · simp only [update_of_ne hr] at hm
      exact h.listed r m hm
  | iget q =>
    simp only [LeaveSys.step] at hstep
    split at hstep
    · rename_i m hm
      obtain ⟨sys, hsys, rfl⟩ := map_eq_some_iff.mp hstep
      obtain rfl := h.listed q m hm
      obtain ⟨htype, hnobody⟩ := hcond q m rfl hm
      have hacc := h.counts (by simp) hsys
      obtain ⟨hidle, hsys⟩ := ite_none_right_eq_some.mp hsys
      have hlisted : ∀ r k, update s.listed q none r = some k →
          s.listed r = some k := by
        intro r k hk
        by_cases hr : r = q
        · simp [hr] at hk
        · rwa [update_of_ne hr] at hk
      split at hsys
      · cases hsys
        exact { h.panic "iget: no inodes" (by simp) with
          listed := fun r k hk => h.listed r k (hlisted r k hk)
          stage := h.stage.congr rfl rfl rfl rfl rfl }
      · rename_i x ic hget
        cases hsys
        rcases h.stage with ⟨hvalid, hnlink, href, htype, hno⟩ | ⟨r, hr, -, -⟩ | ⟨-, hdead, -⟩
        · obtain ⟨rfl, rfl⟩ := h.iget_eq href hget
          refine h.alive (.looked _) hacc ?_ (fun r y hy _ => mem_cons_of_mem _ (h.looked r y hy))
            ⟨by simp, by simp, by simp, by simp, ?_⟩ ⟨hvalid, hnlink, htype, hno⟩ rfl
            (.inr ⟨rfl, mem_cons_self ..⟩) hlisted rfl
          · intro r hr
            rcases mem_cons.mp hr with rfl | hr
            · rfl
            · exact h.only r hr
          · simp only [update_self]
            omega
        · exact absurd h.inum (hnobody r e hr)
        · exact absurd hdead htype
    · cases hstep
  | test q =>
    obtain ⟨sys, hsys, rfl⟩ := map_eq_some_iff.mp hstep
    have hacc := h.counts (by simp) hsys
    simp only [RefSys.step] at hsys
    split at hsys
    · rename_i x hpc
      obtain ⟨-, ⟨⟩⟩ := ite_none_right_eq_some.mp hsys
      obtain ⟨rfl, hvalid, hnlink, href, htype, hno⟩ :=
        h.alive_of_mem (h.looked q x hpc) (by simp [hpc])
      exact h.alive (q := q) .idle hacc h.only (fun r y hy _ => h.looked r y hy)
        ⟨rfl, rfl, rfl, rfl, href⟩ ⟨hvalid, hnlink, htype, hno⟩ (by simp [hvalid]) (.inl rfl)
          (fun _ _ hm => hm) rfl
    · cases hsys
  | procfsiread q =>
    obtain ⟨sys, hsys, rfl⟩ := map_eq_some_iff.mp hstep
    simp only [RefSys.step] at hsys
    split at hsys
    · rename_i x hpc
      exact absurd hpc (h.quiet q x).1
    · cases hsys
  | ilock q x =>
    obtain ⟨sys, hsys, rfl⟩ := map_eq_some_iff.mp hstep
    have hacc := h.counts (by simp) hsys
    obtain ⟨hg, hsys⟩ := ite_none_right_eq_some.mp hsys
    obtain ⟨rfl, hvalid, hnlink, href, htype, hno⟩ :=
      h.alive_of_mem hg.2.2 (by simp [hg.2.1])
    split at hsys
    · cases hsys
      exact h.panic _ (by simp)
    · split at hsys
      · cases hsys
      · cases hsys
        exact h.alive (q := q) .idle hacc h.only (fun r y hy _ => h.looked r y hy)
          (by simpa [RefSys.setEntry] using href) ⟨hvalid, hnlink, htype, hno⟩ (by simp) (.inl rfl) (fun _ _ hm => hm) rfl
  | load q =>
    simp only [LeaveSys.step] at hstep
    split at hstep
    · rename_i x hpc
      exact absurd hpc (h.quiet q x).2
    · cases hstep
  | iunlock q x =>
    obtain ⟨sys, hsys, rfl⟩ := map_eq_some_iff.mp hstep
    have hacc := h.counts (by simp) hsys
    obtain ⟨hg, hsys⟩ := ite_none_right_eq_some.mp hsys
    obtain ⟨rfl, hvalid, hnlink, href, htype, hno⟩ :=
      h.alive_of_mem (h.accounted.holder x q hg.2.2) (by simp [hg.2.1])
    split at hsys
    · cases hsys
      exact h.panic _ (by simp)
    · cases hsys
      exact h.alive (q := q) .idle hacc h.only (fun r y hy _ => h.looked r y hy)
        (by simpa [RefSys.setEntry] using href) ⟨hvalid, hnlink, htype, hno⟩ (by simp [RefSys.setEntry, ← hg.2.1]) (.inl rfl)
        (fun _ _ hm => hm) rfl
  | iput q x =>
    obtain ⟨sys, hsys, rfl⟩ := map_eq_some_iff.mp hstep
    have hacc := h.counts (by simp) hsys
    obtain ⟨hg, hsys⟩ := ite_none_right_eq_some.mp hsys
    obtain ⟨rfl, hvalid, hnlink, href, htype, hno⟩ :=
      h.alive_of_mem hg.2.2.1 (by simp [hg.2.1])
    split at hsys
    · rename_i hlast
      split at hsys
      · cases hsys
        exact { h.panic "iput busy" (by simp) with
          stage := .alive hvalid hnlink href htype hno }
      · cases hsys
        have hpcs : ∀ r (c : RefPc), c ≠ .freeing x →
            update s.sys.pc q (.freeing x) r = c → s.sys.pc r = c ∧ r ≠ q := by
          intro r c hc hr
          by_cases hrq : r = q
          · rw [hrq, update_self] at hr
            exact absurd hr.symm hc
          · exact ⟨(update_of_ne hrq ..).symm.trans hr, hrq⟩
        have hsole := h.sole hg.2.2.1 hlast.1
        refine ⟨hacc, h.only, by simpa [RefSys.setEntry] using h.dev,
          by simpa [RefSys.setEntry] using h.inum, h.cwd, h.listed, fun r y => ⟨fun hr => ?_,
          fun hr => ?_⟩, fun r y hr => h.looked r y (hpcs r _ (by simp) hr).1,
          .dying q (update_self ..) hsole (by simp), h.typed⟩
        · exact (h.quiet r y).1 (hpcs r _ (by simp) hr).1
        · exact (h.quiet r y).2 (hpcs r _ (by simp) hr).1
    · rename_i hnot
      cases hsys
      refine h.alive (q := q) .idle hacc (fun r hr => h.only r (mem_of_mem_erase hr))
        (fun r y hy hr => ?_)
        ⟨by simp [RefSys.setEntry], by simp [RefSys.setEntry], by simp [RefSys.setEntry],
          by simp [RefSys.setEntry], ?_⟩
        ⟨hvalid, hnlink, htype, hno⟩ (by simp [RefSys.setEntry, ← hg.2.1]) (.inl rfl)
        (fun _ _ hm => hm) rfl
      · exact (mem_erase_of_ne fun heq => hr (Owner.proc.inj (Prod.mk.inj heq).1)).mpr
          (h.looked r y hy)
      · have : (s.sys.icache x).ref ≠ 1 := fun h1 => hnot ⟨h1, hvalid, hnlink⟩
        simp only [RefSys.setEntry, update_self]
        omega
  | erase q =>
    simp only [LeaveSys.step] at hstep
    split at hstep
    · rename_i x hpc
      obtain ⟨rfl, hrefs, -⟩ := h.dying_of_freeing hpc
      obtain ⟨-, ⟨⟩⟩ := ite_none_right_eq_some.mp hstep
      refine ⟨?_, h.only, by simpa [RefSys.setEntry] using h.dev,
        by simpa [RefSys.setEntry] using h.inum, h.cwd, h.listed, h.quiet, h.looked,
        .dying q hpc hrefs fun _ => ?_, h.typed⟩
      · refine h.accounted.ofRefs _ s.sys.refs s.sys.pc (fun y => ?_) (h.accounted.busy x)
          h.accounted.holder h.accounted.inside
        rw [← h.accounted.ref y]
        by_cases hy : y = x
        · simp [hy]
        · simp [hy]
      · rw [← h.inum]
        simp [erasedInode]
    · cases hstep
  | free q =>
    obtain ⟨herased, hstep⟩ := ite_none_right_eq_some.mp hstep
    obtain ⟨sys, hsys, rfl⟩ := map_eq_some_iff.mp hstep
    have hacc := h.counts (by simp) hsys
    simp only [RefSys.step] at hsys
    split at hsys
    · rename_i x hpc
      obtain ⟨rfl, hrefs, htype⟩ := h.dying_of_freeing hpc
      obtain ⟨-, ⟨⟩⟩ := ite_none_right_eq_some.mp hsys
      have hnil : s.sys.refs.erase (.proc q, x) = [] := by simp [hrefs]
      have hpcs : ∀ r (c : RefPc), c ≠ .idle →
          update s.sys.pc q .idle r = c → s.sys.pc r = c ∧ r ≠ q := by
        intro r c hc hr
        by_cases hrq : r = q
        · rw [hrq, update_self] at hr
          exact absurd hr.symm hc
        · exact ⟨(update_of_ne hrq ..).symm.trans hr, hrq⟩
      refine ⟨hacc, by simp [hnil], by simpa [RefSys.setEntry] using h.dev,
        by simpa [RefSys.setEntry] using h.inum, h.cwd, h.listed, fun r y => ⟨fun hr => ?_,
        fun hr => ?_⟩, fun r y hr => ?_,
        .dead hnil (htype herased) fun r y hr => ?_, h.typed⟩
      · exact (h.quiet r y).1 (hpcs r _ (by simp) hr).1
      · exact (h.quiet r y).2 (hpcs r _ (by simp) hr).1
      · obtain ⟨hr, hrq⟩ := hpcs r _ (by simp) hr
        have hmem := h.looked r y hr
        rw [hrefs, mem_singleton] at hmem
        exact absurd (Owner.proc.inj (Prod.mk.inj hmem).1) hrq
      · obtain ⟨hr, hrq⟩ := hpcs r _ (by simp) hr
        obtain ⟨-, hrefs', -⟩ := h.dying_of_freeing hr
        rw [hrefs] at hrefs'
        simp only [List.cons.injEq, Prod.mk.injEq, Owner.proc.injEq, and_true] at hrefs'
        exact hrq hrefs'.symm
    · cases hsys
  | leave q =>
    simp only [LeaveSys.step] at hstep
    split at hstep
    · split at hstep
      · cases hstep
        exact { h with cwd := by simp, stage := h.stage.congr rfl rfl rfl rfl rfl }
      · cases hstep
    · cases hstep

/-- While every lookup's `iget` is in time, nobody but the process that is freeing the inode has a
reference to it once it is erased, and `ilock` finds a type. -/
theorem leave_safe (p n : Nat) (e : Fin NINODE) (s t : LeaveSys) (ls : List LeaveStep)
    (hstart : Start p n e s) (hmeet : StepsMeet LeaveSys.step InTime ls s)
    (hrun : runFrom LeaveSys.step ls s = some t) : Safe t :=
  (runFrom_invariant_of (fun _ _ _ h hc hs => Watched.step h hc hs) (.of_start hstart) hmeet
    hrun).safe

/-- Process 0 is in inode 25, which has been removed; nobody else uses it. -/
def removedCwd : LeaveSys where
  sys := { RefSys.boot with
    icache := update Icache.empty ⟨0, NINODE_pos⟩
      { dev := ROOTDEV, inum := 25, ref := 1, busy := false, valid := true,
        d := { Dinode.zero with type := T_DIR } }
    refs := [(.proc 0, ⟨0, NINODE_pos⟩)] }
  disk := update (fun _ => .zero) 25 { Dinode.zero with type := T_DIR }
  cwd := some ⟨0, NINODE_pos⟩
  listed := fun _ => none
  erased := fun _ => false

theorem removedCwd_start : Start 0 25 ⟨0, by decide⟩ removedCwd where
  accounted := by
    refine ⟨fun x => ?_, fun x => ?_, by simp [removedCwd, RefSys.boot],
      by simp [removedCwd, RefSys.boot]⟩
    · revert x; decide
    · simp only [removedCwd, RefSys.boot, reduceCtorEq, exists_false, iff_false]
      revert x; decide
  idle := fun _ => rfl
  only := by simp [removedCwd]
  mem := by simp [removedCwd]
  dev := rfl
  inum := rfl
  valid := rfl
  nlink := rfl
  type := by decide
  cwd := rfl
  listed := fun _ => rfl
  running := rfl

/-- The lookup has its reference before process 0 leaves, and frees the inode itself. -/
def lookFirst : List LeaveStep :=
  let e : Fin NINODE := ⟨0, NINODE_pos⟩
  [.list 1, .iget 1, .test 1, .iput 0 e, .leave 0, .ilock 1 e, .iunlock 1 e, .iput 1 e, .erase 1,
    .free 1]

theorem leave_safe_lookFirst :
    Start 0 25 ⟨0, by decide⟩ removedCwd ∧
    StepsMeet LeaveSys.step InTime lookFirst removedCwd ∧
    ∃ t, runFrom LeaveSys.step lookFirst removedCwd = some t ∧ (t.disk 25).type = 0 ∧ Safe t := by
  have hmeet : StepsMeet LeaveSys.step InTime lookFirst removedCwd := by
    refine ⟨by rintro q n ⟨⟩, fun s1 h1 => ⟨?_, fun s2 _ => StepsMeet.of_forall fun l hl s => ?_⟩⟩
    · cases h1
      rintro q n ⟨⟩ hn
      simp only [update_self, some.injEq] at hn
      subst hn
      exact ⟨by decide, fun r x hr => by simp [removedCwd, RefSys.boot] at hr⟩
    · rintro q n rfl
      simp at hl
  have hrun : (runFrom LeaveSys.step lookFirst removedCwd).any
      (fun t => decide ((t.disk 25).type = 0)) = true := by decide +kernel
  refine ⟨removedCwd_start, hmeet, ?_⟩
  cases ht : runFrom LeaveSys.step lookFirst removedCwd with
  | none => simp [ht] at hrun
  | some t =>
    exact ⟨t, rfl, by simpa [ht] using hrun,
      leave_safe 0 25 _ removedCwd t lookFirst removedCwd_start hmeet ht⟩

/-- The lookup's `iget` comes between the test of `iput` and the end of it. -/
def lookLate : List LeaveStep :=
  let e : Fin NINODE := ⟨0, NINODE_pos⟩
  [.list 1, .iput 0 e, .iget 1, .test 1, .erase 0, .free 0, .ilock 1 e, .load 1]

theorem lookLate_noType :
    Start 0 25 ⟨0, by decide⟩ removedCwd ∧
    (∃ t, runFrom LeaveSys.step (lookLate.take 6) removedCwd = some t ∧
      (.proc 1, ⟨0, by decide⟩) ∈ t.sys.refs ∧ (t.sys.icache ⟨0, by decide⟩).inum = 25 ∧
      (t.disk 25).type = 0 ∧ t.sys.pc 1 = .idle) ∧
    ∃ t, runFrom LeaveSys.step lookLate removedCwd = some t ∧
      t.sys.panicked = some "ilock: no type" := by
  have hheld : (runFrom LeaveSys.step (lookLate.take 6) removedCwd).any
      (fun t => decide ((.proc 1, ⟨0, by decide⟩) ∈ t.sys.refs) &&
        decide ((t.sys.icache ⟨0, by decide⟩).inum = 25) && decide ((t.disk 25).type = 0) &&
        decide (t.sys.pc 1 = .idle)) = true := by decide +kernel
  have hpanic : (runFrom LeaveSys.step lookLate removedCwd).any
      (fun t => decide (t.sys.panicked = some "ilock: no type")) = true := by decide +kernel
  refine ⟨removedCwd_start, ?_, ?_⟩
  · cases ht : runFrom LeaveSys.step (lookLate.take 6) removedCwd with
    | none => simp [ht] at hheld
    | some t => exact ⟨t, rfl, by simpa [ht, and_assoc] using hheld⟩
  · cases ht : runFrom LeaveSys.step lookLate removedCwd with
    | none => simp [ht] at hpanic
    | some t => exact ⟨t, rfl, by simpa [ht] using hpanic⟩

end LeaveSys

end Xv6
