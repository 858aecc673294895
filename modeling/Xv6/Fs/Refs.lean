import Mathlib.Data.List.Count
import Xv6.Lib.Trans
import Xv6.Fs.Icache

/-!
# References and locks under concurrency

Any number of processes look up inodes, lock, unlock, duplicate and put them. A section under
`icache.lock` is one step, and so is `procfsiread`; `dirlookup`'s `iget`, its test of `I_VALID` and
its call of `procfsiread` are three steps of one process. `refs` lists who holds a reference to
which entry and `lock` says who holds an entry's lock; both are bookkeeping of the model, to
be compared with the `ref` and `I_BUSY` that the code keeps.
-/

namespace Xv6

open Function Option

open Lib

/-- Who holds a reference. -/
inductive Owner where
  | proc (p : Nat)
  /-- An entry of `ftable`. -/
  | file
  /-- A process's working directory. -/
  | cwd
  deriving DecidableEq, Repr

instance : LawfulBEq (Owner × Fin NINODE) := inferInstance

/-- Where a process stands inside the functions that take more than one step. -/
inductive RefPc where
  | idle
  /-- In `dirlookup` on a device directory, after `iget` and before the test of `I_VALID`. -/
  | looked (e : Fin NINODE)
  /-- About to call `procfsiread`. -/
  | reading (e : Fin NINODE)
  /-- In `ilock`, with the lock, before the entry is read from the disk. -/
  | loading (e : Fin NINODE)
  /-- In `iput`, truncating an inode without links. -/
  | freeing (e : Fin NINODE)
  deriving DecidableEq, Repr

/-- The inode cache and the processes around it. -/
structure RefSys where
  icache : Icache
  refs : List (Owner × Fin NINODE)
  lock : Fin NINODE → Option Nat
  pc : Nat → RefPc
  panicked : Option String

/-- One step of one process. -/
inductive RefStep where
  /-- `iget`, in `namex`, `ialloc`, or `dirlookup` on a directory that is a device or not. -/
  | iget (p dev inum : Nat) (isDev : Bool)
  /-- `dirlookup`'s test of `I_VALID` (`fs.c:533`). -/
  | test (p : Nat)
  | procfsiread (p : Nat)
  | idup (p : Nat) (e : Fin NINODE)
  /-- The locked section of `ilock`, or its panic. -/
  | ilock (p : Nat) (e : Fin NINODE)
  /-- The rest of `ilock`, with what the disk has for the inode. -/
  | load (p : Nat) (d : Dinode)
  | iunlock (p : Nat) (e : Fin NINODE)
  /-- The first locked section of `iput`. -/
  | iput (p : Nat) (e : Fin NINODE)
  /-- The second one, after the inode has been freed on the disk. -/
  | free (p : Nat)
  /-- A reference goes from a process to an open file or a working directory. -/
  | give (p : Nat) (o : Owner) (e : Fin NINODE)
  /-- A process takes one back, to put it or to use it during a system call. -/
  | take (p : Nat) (o : Owner) (e : Fin NINODE)

namespace RefSys

/-- The machine as the kernel is loaded. -/
def boot : RefSys where
  icache := .empty
  refs := []
  lock := fun _ => none
  pc := fun _ => .idle
  panicked := none

/-- Change one entry. -/
def setEntry (s : RefSys) (e : Fin NINODE) (ip : Inode) : RefSys :=
  { s with icache := update s.icache e ip }

/-- One step; `none` when it cannot happen. A process locks, duplicates and puts what it has a
reference to, and it unlocks what it has locked. -/
def step : RefStep → RefSys → Option RefSys
  | .iget p dev inum isDev, s =>
    if s.panicked = none ∧ s.pc p = .idle then
      match Xv6.iget s.icache dev inum with
      | none => some { s with panicked := some "iget: no inodes" }
      | some (e, ic) => some { s with
          icache := ic
          refs := (.proc p, e) :: s.refs
          pc := update s.pc p (if isDev then .looked e else .idle) }
    else none
  | .test p, s =>
    match s.pc p with
    | .looked e =>
      if s.panicked = none then
        some { s with
          pc := update s.pc p (if (s.icache e).valid then .idle else .reading e) }
      else none
    | _ => none
  | .procfsiread p, s =>
    match s.pc p with
    | .reading e =>
      if s.panicked = none then
        some { s.setEntry e (Xv6.procfsiread (s.icache e)) with
          pc := update s.pc p .idle }
      else none
    | _ => none
  | .idup p e, s =>
    if s.panicked = none ∧ s.pc p = .idle ∧ ∃ r ∈ s.refs, r.2 = e then
      some { s.setEntry e { s.icache e with ref := (s.icache e).ref + 1 } with
        refs := (.proc p, e) :: s.refs }
    else none
  | .ilock p e, s =>
    if s.panicked = none ∧ s.pc p = .idle ∧ (.proc p, e) ∈ s.refs then
      if (s.icache e).ref < 1 then some { s with panicked := some "ilock" }
      else if (s.icache e).busy then none
      else some { s.setEntry e { s.icache e with busy := true } with
        lock := update s.lock e (some p)
        pc := update s.pc p (if (s.icache e).valid then .idle else .loading e) }
    else none
  | .load p d, s =>
    match s.pc p with
    | .loading e =>
      if s.panicked = none then
        if d.type = 0 then some { s with panicked := some "ilock: no type" }
        else some { s.setEntry e { s.icache e with d := d, valid := true } with
          pc := update s.pc p .idle }
      else none
    | _ => none
  | .iunlock p e, s =>
    if s.panicked = none ∧ s.pc p = .idle ∧ s.lock e = some p then
      if (s.icache e).busy = false ∨ (s.icache e).ref < 1 then
        some { s with panicked := some "iunlock" }
      else some { s.setEntry e { s.icache e with busy := false } with
        lock := update s.lock e none }
    else none
  | .iput p e, s =>
    if s.panicked = none ∧ s.pc p = .idle ∧ (.proc p, e) ∈ s.refs ∧
        (s.lock e = some p → 2 ≤ s.refs.count (.proc p, e)) then
      if (s.icache e).ref = 1 ∧ (s.icache e).valid = true ∧ (s.icache e).d.nlink = 0 then
        if (s.icache e).busy then some { s with panicked := some "iput busy" }
        else some { s.setEntry e { s.icache e with busy := true } with
          lock := update s.lock e (some p)
          pc := update s.pc p (.freeing e) }
      else some { s.setEntry e { s.icache e with ref := (s.icache e).ref - 1 } with
        refs := s.refs.erase (.proc p, e) }
    else none
  | .free p, s =>
    match s.pc p with
    | .freeing e =>
      if s.panicked = none then
        some { s.setEntry e { s.icache e with
            d := { s.icache e |>.d with type := 0, size := 0, addrs := fun _ => 0 }
            busy := false
            valid := false
            ref := (s.icache e).ref - 1 } with
          refs := s.refs.erase (.proc p, e)
          lock := update s.lock e none
          pc := update s.pc p .idle }
      else none
    | _ => none
  | .give p o e, s =>
    if s.panicked = none ∧ s.pc p = .idle ∧ (.proc p, e) ∈ s.refs ∧ (o = .file ∨ o = .cwd) ∧
        (s.lock e = some p → 2 ≤ s.refs.count (.proc p, e)) then
      some { s with refs := (o, e) :: s.refs.erase (.proc p, e) }
    else none
  | .take p o e, s =>
    if s.panicked = none ∧ s.pc p = .idle ∧ (o, e) ∈ s.refs ∧ (o = .file ∨ o = .cwd) then
      some { s with refs := (.proc p, e) :: s.refs.erase (o, e) }
    else none

/-- The references to an entry. -/
def held (s : RefSys) (e : Fin NINODE) : Nat := s.refs.countP fun r => decide (r.2 = e)

/-- The counts and flags of the cache are right. -/
def Exact (s : RefSys) : Prop :=
  ∀ e, (s.icache e).ref = s.held e ∧ 0 ≤ (s.icache e).ref ∧
    ((s.icache e).busy = true ↔ ∃ p, s.lock e = some p)

/-- `procfsiread` runs while its caller has the only reference to the entry and nobody has it
locked. -/
def SoleReader (l : RefStep) (s : RefSys) : Prop :=
  ∀ p e, l = .procfsiread p → s.pc p = .reading e →
    (s.icache e).ref = 1 ∧ (s.icache e).busy = false

/-- The invariant: exact counts, and the holder of a lock has a reference. -/
structure Accounted (s : RefSys) : Prop where
  ref : ∀ e, (s.icache e).ref = s.held e
  busy : ∀ e, (s.icache e).busy = true ↔ ∃ p, s.lock e = some p
  holder : ∀ e p, s.lock e = some p → (.proc p, e) ∈ s.refs
  inside : ∀ p e, s.pc p = .loading e ∨ s.pc p = .freeing e → s.lock e = some p

namespace Accounted

variable {s t : RefSys} {p : Nat} {e : Fin NINODE}

theorem exact (h : s.Accounted) : s.Exact := fun e =>
  ⟨h.ref e, by rw [h.ref e]; exact Int.natCast_nonneg _, h.busy e⟩

theorem boot : RefSys.boot.Accounted where
  ref := by simp [RefSys.boot, Icache.empty, Inode.empty, held]
  busy := by simp [RefSys.boot, Icache.empty, Inode.empty]
  holder := by simp [RefSys.boot]
  inside := by simp [RefSys.boot]

theorem panic (h : s.Accounted) (msg : Option String) :
    RefSys.Accounted { s with panicked := msg } := ⟨h.ref, h.busy, h.holder, h.inside⟩

theorem held_cons (s : RefSys) (o : Owner) (e x : Fin NINODE) :
    (({ s with refs := (o, e) :: s.refs } : RefSys).held x : Int) =
      s.held x + if e = x then 1 else 0 := by
  by_cases h : e = x <;> simp [held, h]

theorem held_erase {o : Owner} (hmem : (o, e) ∈ s.refs) (x : Fin NINODE) :
    (({ s with refs := s.refs.erase (o, e) } : RefSys).held x : Int) =
      s.held x - if e = x then 1 else 0 := by
  have hperm := (List.perm_cons_erase hmem).countP_eq fun r : Owner × Fin NINODE => decide (r.2 = x)
  rw [List.countP_cons] at hperm
  by_cases h : e = x
  · simp only [held, h, decide_true, if_true] at hperm ⊢
    omega
  · simp only [held, h, decide_false, if_false, Bool.false_eq_true] at hperm ⊢
    omega

theorem unlocked_of_ref (h : s.Accounted) (href : (s.icache e).ref = 0) : s.lock e = none := by
  cases hl : s.lock e with
  | none => rfl
  | some q =>
    have hmem := h.holder e q hl
    have hpos : 0 < s.held e := List.countP_pos_iff.mpr ⟨_, hmem, by simp⟩
    have := h.ref e
    omega

theorem inside_update {pc' : RefPc} (h : s.Accounted) (hpc : ∀ x, pc' ≠ .loading x)
    (hpc' : ∀ x, pc' ≠ .freeing x) (q : Nat) (x : Fin NINODE)
    (hq : update s.pc p pc' q = .loading x ∨ update s.pc p pc' q = .freeing x) :
    q ≠ p ∧ s.lock x = some q := by
  by_cases hqp : q = p
  · subst hqp
    simp only [update_self] at hq
    rcases hq with hq | hq
    · exact (hpc x hq).elim
    · exact (hpc' x hq).elim
  · simp only [update_of_ne hqp] at hq
    exact ⟨hqp, h.inside q x hq⟩

/-- One entry changes its reference count together with `refs`, and not its lock. -/
theorem ofRefs (h : s.Accounted) (ip : Inode) (refs : List (Owner × Fin NINODE))
    (pcs : Nat → RefPc)
    (hheld : ∀ x, (({ s with refs := refs } : RefSys).held x : Int) =
      if x = e then ip.ref else s.held x)
    (hbusy : ip.busy = true ↔ ∃ p, s.lock e = some p)
    (hholder : ∀ x q, s.lock x = some q → (.proc q, x) ∈ refs)
    (hinside : ∀ q x, pcs q = .loading x ∨ pcs q = .freeing x → s.lock x = some q) :
    RefSys.Accounted { s.setEntry e ip with refs := refs, pc := pcs } := by
  refine ⟨fun x => ?_, fun x => ?_, hholder, hinside⟩
  · rw [show ((({ s.setEntry e ip with refs := refs, pc := pcs } : RefSys).held x : Nat) : Int) =
      if x = e then ip.ref else s.held x from hheld x]
    by_cases hx : x = e
    · subst hx; simp [setEntry]
    · simp [setEntry, hx, h.ref x]
  · by_cases hx : x = e
    · subst hx; simpa [setEntry] using hbusy
    · simpa [setEntry, hx] using h.busy x

theorem iget {dev inum : Nat} {ic : Icache} {pc' : RefPc} (h : s.Accounted)
    (hget : Xv6.iget s.icache dev inum = some (e, ic)) (hpc : ∀ x, pc' ≠ .loading x)
    (hpc' : ∀ x, pc' ≠ .freeing x) :
    RefSys.Accounted { s with
      icache := ic, refs := (.proc p, e) :: s.refs, pc := update s.pc p pc' } := by
  have hinside := fun q x hq => (h.inside_update (p := p) hpc hpc' q x hq).2
  have hholder : ∀ x q, s.lock x = some q → (Owner.proc q, x) ∈ (Owner.proc p, e) :: s.refs :=
    fun x q hl => List.mem_cons_of_mem _ (h.holder x q hl)
  rcases iget_eq_some hget with ⟨-, -, -, rfl⟩ | ⟨-, hfree, rfl⟩
  · refine h.ofRefs _ _ _ (fun x => ?_) (h.busy e) hholder hinside
    rw [held_cons, ← h.ref x]
    by_cases hx : x = e
    · subst hx; simp
    · simp [hx, Ne.symm hx]
  · -- a recycled entry had no reference, and therefore no lock
    refine h.ofRefs _ _ _ (fun x => ?_) (by simp [h.unlocked_of_ref hfree]) hholder hinside
    rw [held_cons, ← h.ref x]
    by_cases hx : x = e
    · subst hx; simp [hfree]
    · simp [hx, Ne.symm hx]

theorem procfsiread (h : s.Accounted) (href : (s.icache e).ref = 1)
    (hbusy : (s.icache e).busy = false) :
    RefSys.Accounted { s.setEntry e (Xv6.procfsiread (s.icache e)) with
      pc := update s.pc p .idle } := by
  have hb := h.busy e
  rw [hbusy] at hb
  refine h.ofRefs _ s.refs _ (fun x => ?_) (by simpa [Xv6.procfsiread] using hb) h.holder
    fun q x hq => (h.inside_update (p := p) (by simp) (by simp) q x hq).2
  rw [← h.ref x]
  by_cases hx : x = e
  · subst hx; simp [Xv6.procfsiread, href]
  · simp [hx]

theorem idup (h : s.Accounted) :
    RefSys.Accounted { s.setEntry e { s.icache e with ref := (s.icache e).ref + 1 } with
      refs := (.proc p, e) :: s.refs } := by
  refine h.ofRefs _ _ s.pc (fun x => ?_) (h.busy e)
    (fun x q hl => List.mem_cons_of_mem _ (h.holder x q hl)) h.inside
  rw [held_cons, ← h.ref x]
  by_cases hx : x = e
  · subst hx; simp
  · simp [hx, Ne.symm hx]

theorem lockEntry {pc' : RefPc} (h : s.Accounted) (hmem : (.proc p, e) ∈ s.refs)
    (hidle : s.pc p = .idle) (hfree : (s.icache e).busy = false)
    (hpc : ∀ x, pc' = .loading x ∨ pc' = .freeing x → x = e) :
    RefSys.Accounted { s.setEntry e { s.icache e with busy := true } with
      lock := update s.lock e (some p), pc := update s.pc p pc' } := by
  have hnone : s.lock e = none := by
    cases hl : s.lock e with
    | none => rfl
    | some q =>
      have := (h.busy e).mpr ⟨q, hl⟩
      rw [hfree] at this
      simp at this
  refine ⟨fun x => ?_, fun x => ?_, fun x q hl => ?_, fun q x hq => ?_⟩
  · refine Eq.trans ?_ (h.ref x)
    by_cases hx : x = e
    · subst hx; simp [setEntry]
    · simp [setEntry, hx]
  · by_cases hx : x = e
    · subst hx; simp [setEntry]
    · simpa [setEntry, hx] using h.busy x
  · by_cases hx : x = e
    · subst hx
      simp only [update_self, some.injEq] at hl
      exact hl ▸ hmem
    · simp only [update_of_ne hx] at hl
      exact h.holder x q hl
  · by_cases hqp : q = p
    · subst hqp
      simp only [update_self] at hq
      obtain rfl := hpc x hq
      simp
    · simp only [update_of_ne hqp] at hq
      have hl := h.inside q x hq
      have hx : x ≠ e := fun heq => by rw [heq, hnone] at hl; simp at hl
      simpa [hx] using hl

theorem load {d : Dinode} (h : s.Accounted) :
    RefSys.Accounted { s.setEntry e { s.icache e with d := d, valid := true } with
      pc := update s.pc p .idle } := by
  refine h.ofRefs _ s.refs _ (fun x => ?_) (h.busy e) h.holder
    fun q x hq => (h.inside_update (p := p) (by simp) (by simp) q x hq).2
  rw [← h.ref x]
  by_cases hx : x = e
  · subst hx; simp
  · simp [hx]

/-- The holder gives the lock back; the count changes together with `refs`. -/
theorem unlockEntry (h : s.Accounted) (ip : Inode) (refs : List (Owner × Fin NINODE))
    (hlock : s.lock e = some p) (hbusy : ip.busy = false)
    (hheld : ∀ x, (({ s with refs := refs } : RefSys).held x : Int) =
      if x = e then ip.ref else s.held x)
    (hholder : ∀ x q, x ≠ e → s.lock x = some q → (.proc q, x) ∈ refs) :
    RefSys.Accounted { s.setEntry e ip with
      refs := refs
      lock := update s.lock e none
      pc := update s.pc p .idle } := by
  refine ⟨fun x => ?_, fun x => ?_, fun x q hl => ?_, fun q x hq => ?_⟩
  · refine Eq.trans ?_ (hheld x).symm
    by_cases hx : x = e
    · subst hx; simp [setEntry]
    · simp [setEntry, hx, h.ref x]
  · by_cases hx : x = e
    · subst hx; simp [setEntry, hbusy]
    · simpa [setEntry, hx] using h.busy x
  · by_cases hx : x = e
    · subst hx; simp at hl
    · simp only [update_of_ne hx] at hl
      exact hholder x q hx hl
  · obtain ⟨hqp, hl⟩ := h.inside_update (by simp) (by simp) q x hq
    have hx : x ≠ e := fun heq => by
      rw [heq, hlock] at hl
      exact hqp (some.inj hl).symm
    simpa [hx] using hl

theorem iunlock (h : s.Accounted) (hlock : s.lock e = some p) (hidle : s.pc p = .idle) :
    RefSys.Accounted { s.setEntry e { s.icache e with busy := false } with
      lock := update s.lock e none } := by
  have hun := h.unlockEntry { s.icache e with busy := false } s.refs hlock rfl (fun x => ?_)
    fun x q _ hl => h.holder x q hl
  · rwa [← hidle, update_eq_self] at hun
  · rw [← h.ref x]
    by_cases hx : x = e
    · subst hx; simp
    · simp [hx]

theorem mem_erase_of_count (hcount : s.lock e = some p → 2 ≤ s.refs.count (.proc p, e))
    (h : s.Accounted) (x : Fin NINODE) (q : Nat) (hl : s.lock x = some q) :
    (.proc q, x) ∈ s.refs.erase (.proc p, e) := by
  by_cases heq : (Owner.proc q, x) = (.proc p, e)
  · obtain ⟨hq, rfl⟩ := Prod.mk.inj heq
    obtain rfl := Owner.proc.inj hq
    have := hcount hl
    exact List.count_pos_iff.mp (by rw [List.count_erase_self]; omega)
  · exact (List.mem_erase_of_ne heq).mpr (h.holder x q hl)

theorem iput (h : s.Accounted) (hmem : (.proc p, e) ∈ s.refs)
    (hcount : s.lock e = some p → 2 ≤ s.refs.count (.proc p, e)) :
    RefSys.Accounted { s.setEntry e { s.icache e with ref := (s.icache e).ref - 1 } with
      refs := s.refs.erase (.proc p, e) } := by
  refine h.ofRefs _ _ s.pc (fun x => ?_) (h.busy e) (mem_erase_of_count hcount h) h.inside
  rw [held_erase hmem, ← h.ref x]
  by_cases hx : x = e
  · subst hx; simp
  · simp [hx, Ne.symm hx]

theorem move {a b : Owner} (h : s.Accounted) (hmem : (a, e) ∈ s.refs)
    (hholder : ∀ x q, s.lock x = some q → (.proc q, x) ∈ s.refs.erase (a, e)) :
    RefSys.Accounted { s with refs := (b, e) :: s.refs.erase (a, e) } := by
  refine ⟨fun x => ?_, h.busy, fun x q hl => List.mem_cons_of_mem _ (hholder x q hl), h.inside⟩
  have hcons := held_cons { s with refs := s.refs.erase (a, e) } b e x
  refine Eq.trans ?_ hcons.symm
  rw [held_erase hmem, h.ref x]
  omega

/-- The second section of `iput`: the lock and the last reference go together. -/
theorem free {ip : Inode} (h : s.Accounted) (hpc : s.pc p = .freeing e) (hbusy : ip.busy = false)
    (href : ip.ref = (s.icache e).ref - 1) :
    RefSys.Accounted { s.setEntry e ip with
      refs := s.refs.erase (.proc p, e)
      lock := update s.lock e none
      pc := update s.pc p .idle } := by
  have hlock := h.inside p e (.inr hpc)
  have hmem := h.holder e p hlock
  refine h.unlockEntry ip _ hlock hbusy (fun x => ?_) fun x q hx hl => ?_
  · rw [held_erase hmem, ← h.ref x]
    by_cases hx : x = e
    · subst hx; simp [href]
    · simp [hx, Ne.symm hx]
  · exact (List.mem_erase_of_ne fun heq => hx (Prod.mk.inj heq).2).mpr (h.holder x q hl)

/-- Every step keeps the invariant, `procfsiread` only when it meets the condition. -/
theorem step {l : RefStep} (h : s.Accounted) (hcond : SoleReader l s)
    (hstep : RefSys.step l s = some t) : t.Accounted := by
  cases l with
  | iget p dev inum isDev =>
    obtain ⟨-, hstep⟩ := ite_none_right_eq_some.mp hstep
    split at hstep
    · cases hstep
      exact h.panic _
    · rename_i hget
      cases hstep
      exact h.iget hget (by intro x; split <;> simp) (by intro x; split <;> simp)
  | test p =>
    simp only [RefSys.step] at hstep
    split at hstep
    · split at hstep
      · cases hstep
        exact ⟨h.ref, h.busy, h.holder, fun q x hq =>
          (h.inside_update (by intro x; split <;> simp) (by intro x; split <;> simp) q x hq).2⟩
      · simp at hstep
    · simp at hstep
  | procfsiread p =>
    simp only [RefSys.step] at hstep
    split at hstep
    · rename_i e hpc
      obtain ⟨-, ⟨⟩⟩ := ite_none_right_eq_some.mp hstep
      obtain ⟨href, hbusy⟩ := hcond p e rfl hpc
      exact h.procfsiread href hbusy
    · simp at hstep
  | idup p e =>
    obtain ⟨-, ⟨⟩⟩ := ite_none_right_eq_some.mp hstep
    exact h.idup
  | ilock p e =>
    obtain ⟨hg, hstep⟩ := ite_none_right_eq_some.mp hstep
    split at hstep
    · cases hstep
      exact h.panic _
    · split at hstep
      · simp at hstep
      · rename_i hfree
        cases hstep
        refine h.lockEntry hg.2.2 hg.2.1 (by simpa using hfree) fun x hx => ?_
        split at hx <;> simp at hx
        exact hx.symm
  | load p d =>
    simp only [RefSys.step] at hstep
    split at hstep
    · split at hstep
      · split at hstep
        · cases hstep
          exact h.panic _
        · cases hstep
          exact h.load
      · simp at hstep
    · simp at hstep
  | iunlock p e =>
    obtain ⟨hg, hstep⟩ := ite_none_right_eq_some.mp hstep
    split at hstep
    · cases hstep
      exact h.panic _
    · cases hstep
      exact h.iunlock hg.2.2 hg.2.1
  | iput p e =>
    obtain ⟨hg, hstep⟩ := ite_none_right_eq_some.mp hstep
    split at hstep
    · split at hstep
      · cases hstep
        exact h.panic _
      · rename_i hfree
        cases hstep
        exact h.lockEntry hg.2.2.1 hg.2.1 (by simpa using hfree) fun x hx => by
          simpa [eq_comm] using hx
    · cases hstep
      exact h.iput hg.2.2.1 hg.2.2.2
  | free p =>
    simp only [RefSys.step] at hstep
    split at hstep
    · rename_i e hpc
      obtain ⟨-, ⟨⟩⟩ := ite_none_right_eq_some.mp hstep
      exact h.free hpc rfl rfl
    · simp at hstep
  | give p o e =>
    obtain ⟨hg, ⟨⟩⟩ := ite_none_right_eq_some.mp hstep
    exact h.move hg.2.2.1 (mem_erase_of_count hg.2.2.2.2 h)
  | take p o e =>
    obtain ⟨hg, ⟨⟩⟩ := ite_none_right_eq_some.mp hstep
    refine h.move hg.2.2.1 fun x q hl => (List.mem_erase_of_ne fun heq => ?_).mpr (h.holder x q hl)
    obtain rfl := (Prod.mk.inj heq).1
    rcases hg.2.2.2 with ho | ho <;> cases ho

end Accounted

/-- As long as every `procfsiread` runs on an entry that has one reference and is not locked, the
counts and the locks of the inode cache are exact in every state of every interleaving. -/
theorem refs_exact {ls : List RefStep} {s : RefSys}
    (hmeet : StepsMeet step SoleReader ls boot) (hrun : runFrom step ls boot = some s) :
    s.Exact :=
  (runFrom_invariant_of (fun _ _ _ h hcond hstep => Accounted.step h hcond hstep) Accounted.boot
    hmeet hrun).exact

/-- One process looks up a procfs inode, locks it, unlocks it and puts it. -/
def lookupAlone : List RefStep :=
  let e : Fin NINODE := ⟨0, NINODE_pos⟩
  [.iget 0 1 700 true, .test 0, .procfsiread 0, .ilock 0 e, .iunlock 0 e, .iput 0 e]

/-- The condition as a check, for concrete runs. -/
def soleReader (l : RefStep) (s : RefSys) : Bool :=
  match l with
  | .procfsiread p =>
    match s.pc p with
    | .reading e => (s.icache e).ref == 1 && !(s.icache e).busy
    | _ => true
  | _ => true

theorem soleReader_of_check (l : RefStep) (s : RefSys) (h : soleReader l s = true) :
    SoleReader l s := by
  rintro p e rfl hpc
  simpa [soleReader, hpc] using h

theorem refs_exact_lookupAlone :
    ∃ s, runFrom step lookupAlone boot = some s ∧ s.panicked = none ∧ s.Exact := by
  have hmeet : StepsMeet step SoleReader lookupAlone boot :=
    StepsMeet.of_meets soleReader_of_check (by decide +kernel)
  have hrun : (runFrom step lookupAlone boot).any (fun s => s.panicked.isNone) = true := by
    decide +kernel
  cases hs : runFrom step lookupAlone boot with
  | none => simp [hs] at hrun
  | some s => exact ⟨s, rfl, by simpa [hs] using hrun, refs_exact hmeet hs⟩

/-- Two processes look up the same procfs inode; both find it not valid. -/
def lookupTwice : List RefStep :=
  [.iget 0 1 700 true, .test 0, .iget 1 1 700 true, .test 1, .procfsiread 0]

/-- The first one's `procfsiread` resets the count: two references, and a count of one. -/
theorem lookupTwice_not_exact :
    ∃ s, runFrom step lookupTwice boot = some s ∧ s.held ⟨0, by decide⟩ = 2 ∧
      (s.icache ⟨0, by decide⟩).ref = 1 ∧ ¬ s.Exact := by
  have hrun : (runFrom step lookupTwice boot).any (fun s =>
      s.held ⟨0, by decide⟩ == 2 && (s.icache ⟨0, by decide⟩).ref == 1) = true := by
    decide +kernel
  cases hs : runFrom step lookupTwice boot with
  | none => simp [hs] at hrun
  | some s =>
    have hcount : s.held ⟨0, by decide⟩ = 2 ∧ (s.icache ⟨0, by decide⟩).ref = 1 := by
      simpa [hs] using hrun
    refine ⟨s, rfl, hcount.1, hcount.2, fun hex => ?_⟩
    have := (hex ⟨0, by decide⟩).1
    rw [hcount.1, hcount.2] at this
    simp at this

end RefSys

end Xv6
