import Xv6.Sys.Chunks
import Xv6.Sys.Mount

/-!
# What a write answers

`filewrite` expects of `writei` all the bytes or an error, and panics on anything else. Files and the
console keep to that; `procfswrite` takes nothing.
-/

namespace Xv6.Kernel

open Lib Act

/-- `filewrite` (`file.c:117-155`) for any count. A negative one takes no turn of a loop, in
`pipewrite` either. -/
def filewriteInt (f : Fin NFILE) (src : Nat → UInt8) (n : Int) : K Int :=
  if 0 ≤ n then filewrite f src n.toNat
  else do
    let v ← file f
    if v.writable = false then
      return -1
    else
      match v.type with
      | .none => Act.panic "filewrite"
      | .pipe => return n
      | .inode => return -1

/-- `sys_write` (`sysfile.c:78-88`) for any count. -/
def sysWriteInt (fd n : Option Int) (p : Option (Nat → UInt8)) : K Int := do
  let a ← argfd fd
  match a, n, p with
  | some (_, f), some n, some src => filewriteInt f src n
  | _, _, _ => return -1

/-! ## Files stay files -/

section

variable {α β : Type} {e : Fin NINODE} {k k' : Kernel} {x : K α} {g : α → K β}

/-- Entry `e` is valid and not for a device. -/
def Plain (e : Fin NINODE) (k : Kernel) : Prop :=
  (k.icache e).valid = true ∧ (k.icache e).d.type ≠ T_DEV

theorem Plain.congr (h : Plain e k) (hic : k'.icache = k.icache) : Plain e k' := by
  unfold Plain
  rw [hic]
  exact h

/-- `x` does not turn a file into a device. -/
def Steady (e : Fin NINODE) (x : K α) : Prop :=
  ∀ k, Plain e k → Ends x k (fun _ k' _ => Plain e k') fun _ => True

theorem Steady.bind (hx : Steady e x) (hg : ∀ a, Steady e (g a)) : Steady e (x >>= g) :=
  fun k h => (hx k h).bind fun a t _ ht => hg a t ht

theorem steady_pure {a : α} : Steady e (pure a : K α) := fun _ h => ends_pure h

theorem steady_panic {msg : String} : Steady e (panic msg : K α) := fun _ _ => ends_panic trivial

theorem steady_get {g : Kernel → K β} (h : ∀ k, Steady e (g k)) : Steady e (get >>= g) :=
  fun k hk => ends_get_bind (h k k hk)

theorem steady_emit {v : FsEvent} : Steady e (emit v) := fun _ h => ends_emit h

theorem steady_modify {f : Kernel → Kernel} (h : ∀ k, (f k).icache = k.icache) :
    Steady e (modify f) := fun k hk => ends_modify (hk.congr (h k))

theorem steady_onStore {x : Prog Store α} : Steady e (onStore x) := fun _ h =>
  ends_lift (fun _ _ _ => h.congr rfl) fun _ _ => trivial

theorem Steady.ite {c : Prop} [Decidable c] {y : K α} (hx : Steady e x) (hy : Steady e y) :
    Steady e (if c then x else y) := by
  split
  · exact hx
  · exact hy

theorem steady_data (b : Fin NBUF) : Steady e (data b) := steady_get fun _ => steady_pure

theorem steady_logWrite (b : Fin NBUF) : Steady e (logWrite b) := by
  refine steady_get fun k => ?_
  split
  · exact steady_panic
  · exact steady_emit.bind fun _ => steady_modify fun _ => rfl

theorem steady_writeBack (b : Fin NBUF) (d : Block) : Steady e (writeBack b d) :=
  steady_onStore.bind fun _ => (steady_logWrite b).bind fun _ => steady_onStore

theorem steady_ballocLoop (dev : Nat) (sb : Superblock) (bs : List Nat) :
    Steady e (ballocLoop dev sb bs) := by
  induction bs with
  | nil => exact steady_panic
  | cons b bs ih =>
    refine Steady.bind (steady_onStore.bind fun _ => (steady_data _).bind fun _ => ?_) fun r => ?_
    · split
      · exact (steady_writeBack _ _).bind fun _ => (steady_onStore.bind fun _ =>
          steady_writeBack _ _).bind fun _ => steady_pure
      · exact steady_onStore.bind fun _ => steady_pure
    · cases r with
      | some b => exact steady_pure
      | none => exact ih

theorem steady_balloc (dev : Nat) : Steady e (balloc dev) :=
  steady_get fun _ => Steady.bind (steady_onStore.bind fun _ => (steady_data _).bind fun _ =>
    steady_onStore.bind fun _ => steady_pure) fun _ => (steady_ballocLoop _ _ _).bind fun _ =>
    steady_emit.bind fun _ => steady_pure

theorem steady_inode (i : Fin NINODE) : Steady e (inode i) := steady_get fun _ => steady_pure

theorem steady_setDinode {f : Dinode → Dinode} (hf : ∀ d, (f d).type = d.type) :
    Steady e (setDinode e f) := fun k h => by
  refine ends_modify ⟨?_, ?_⟩
  · simpa using h.1
  · simpa [hf] using h.2

theorem steady_bmapAddr (i : Fin (NDIRECT + 1)) : Steady e (bmapAddr e i) :=
  (steady_inode _).bind fun _ => Steady.ite ((steady_balloc _).bind fun _ =>
    (steady_setDinode (by intro; rfl)).bind fun _ => steady_pure) steady_pure

theorem steady_bmap (bn : Nat) : Steady e (bmap e bn) := by
  unfold bmap
  split
  · exact steady_bmapAddr _
  · split
    · refine (steady_bmapAddr _).bind fun _ => (steady_inode _).bind fun _ =>
        steady_onStore.bind fun _ => (steady_data _).bind fun _ => Steady.ite ?_ ?_
      · exact (steady_balloc _).bind fun _ => (steady_data _).bind fun _ =>
          (steady_writeBack _ _).bind fun _ => steady_pure
      · exact steady_onStore.bind fun _ => steady_pure
    · exact steady_panic

theorem steady_writeiLoop : ∀ turns src off left, Steady e (writeiLoop e turns src off left)
  | 0, _, _, _ => steady_pure
  | turns + 1, _, _, _ => Steady.ite steady_pure ((steady_bmap _).bind fun _ =>
      (steady_inode _).bind fun _ => steady_onStore.bind fun _ => (steady_data _).bind fun _ =>
      (steady_writeBack _ _).bind fun _ => steady_writeiLoop turns _ _ _)

theorem steady_writeiGrow (off n : Nat) : Steady e (writeiGrow e off n) :=
  (steady_inode _).bind fun _ => Steady.ite ((steady_setDinode (by intro; rfl)).bind fun _ =>
    (steady_inode _).bind fun _ => steady_emit.bind fun _ => steady_onStore.bind fun _ =>
    (steady_data _).bind fun _ => steady_writeBack _ _) steady_pure

/-- What `writei` answers for a file: all of it, or an error. -/
theorem writei_plain {src : Nat → UInt8} {off n : Nat} (h : Plain e k) :
    Ends (writei e src off n) k (fun x k' _ => Plain e k' ∧ (x = none ∨ x = some n)) Quietly := by
  have hstill : Ends (writei e src off n) k (fun _ _ _ => True) Quietly :=
    Does.mono (stillOn_writei (D := Set.univ) e src off n (Set.mem_univ e) k h.1)
      (fun _ _ _ _ => trivial) fun _ _ hw => hw.1
  suffices hplain : Ends (writei e src off n) k
      (fun x k' _ => Plain e k' ∧ (x = none ∨ x = some n)) fun _ => True from
    (Ends.and hstill hplain).mono fun _ _ _ hx => hx.2
  apply ends_inode_bind
  rw [if_neg h.2]
  split
  · exact ends_pure ⟨h, .inl rfl⟩
  · split
    · exact ends_pure ⟨h, .inl rfl⟩
    · refine (steady_writeiLoop _ _ _ _ k h).bind fun _ k1 _ h1 => ?_
      exact (steady_writeiGrow _ _ k1 h1).bind fun _ k2 _ h2 => ends_pure ⟨h2, .inr rfl⟩

theorem Steady.quietly (hx : Steady e x) (hs : Still Set.univ x) (h : Plain e k) :
    Ends x k (fun _ k' _ => Plain e k') Quietly :=
  Ends.mono (Ends.and (Does.mono (hs k) (fun _ _ _ _ => trivial) fun _ _ hw => hw.1 :
    Ends x k (fun _ _ _ => True) Quietly) (hx k h)) fun _ _ _ h' => h'.2

theorem steady_forEach {f : β → K Unit} (h : ∀ b, Steady e (f b)) :
    ∀ bs, Steady e (forEach f bs)
  | [] => steady_pure
  | b :: bs => (h b).bind fun _ => steady_forEach h bs

theorem steady_beginOp : Steady e beginOp := by
  refine steady_get fun k => ?_
  split
  · exact fun _ _ => ends_sleep trivial
  · exact steady_modify fun _ => rfl

theorem steady_commit : Steady e commit :=
  steady_get fun _ => Steady.ite ((steady_forEach (fun _ => steady_onStore) _).bind fun _ =>
    steady_onStore.bind fun _ => (steady_forEach (fun _ => steady_onStore) _).bind fun _ =>
    (steady_modify (by intro; rfl)).bind fun _ => steady_onStore) steady_pure

theorem steady_endOp : Steady e endOp := by
  refine steady_get fun k => ?_
  split
  · exact steady_panic
  · exact steady_modify fun _ => rfl
  · exact (steady_modify (by intro; rfl)).bind fun _ => steady_commit.bind fun _ =>
      steady_modify (by intro; rfl)

/-! ## Transactions on a file -/

theorem filewriteChunk_plain {f : Fin NFILE} {src : Nat → UInt8} {n : Nat} (h : Plain e k) :
    Ends (filewriteChunk f e src n) k
      (fun x k' _ => Plain e k' ∧ (x = none ∨ x = some n)) Quietly := by
  refine (steady_beginOp.quietly still_beginOp h).bind fun _ k1 _ h1 => ?_
  apply (ilock_valid h1.1).bind
  rintro _ _ _ ⟨rfl, rfl⟩
  refine Ends.bind (R := fun _ k' _ => Plain e k') (ends_get_bind (ends_pure ?_)) fun v k2 _ h2 => ?_
  · exact ⟨by simpa using h1.1, by simpa using h1.2⟩
  refine (writei_plain h2).bind fun x k3 _ h3 => ?_
  obtain ⟨h3, hx⟩ := h3
  refine Ends.bind (ends_modify (Q := fun _ k' _ => Plain e k') (h3.congr rfl)) fun _ k4 _ h4 => ?_
  refine Ends.bind (R := fun _ k' _ => Plain e k') ?_ fun _ k5 _ h5 => ?_
  · refine Does.mono (iunlock_does (Q := fun _ k' _ => Plain e k') (E := fun why _ => Quietly why)
      (by decide) fun _ => ?_) (fun _ _ _ => id) fun _ _ => id
    exact ⟨by simpa [unlocked] using h4.1, by simpa [unlocked] using h4.2⟩
  · exact (steady_endOp.quietly still_endOp h5).bind fun _ k6 _ h6 => ends_pure ⟨h6, hx⟩

/-- No turn of the loop gets a part of its bytes written. -/
theorem filewriteLoop_plain {f : Fin NFILE} : ∀ {turns : Nat} {src : Nat → UInt8} {i left : Nat}
    {k : Kernel}, Plain e k →
    Ends (filewriteLoop f e turns src i left) k (fun _ _ _ => True) Quietly
  | 0, _, _, _, _, _ => ends_pure trivial
  | turns + 1, src, i, left, k, h => by
    refine ends_ite (fun _ => ends_pure trivial) fun _ => ?_
    refine (filewriteChunk_plain h).bind fun x k1 _ h1 => ?_
    obtain ⟨h1, rfl | rfl⟩ := h1
    · exact ends_pure trivial
    · exact ends_ite (fun _ => filewriteLoop_plain h1) fun hne => absurd rfl hne

end

/-! ## Devices -/

/-- Descriptor `fd` of the running process is for the file `f`, which is open on the inode `e`; the
inode is valid and not locked. -/
structure Descriptor (fd : Int) (f : Fin NFILE) (e : Fin NINODE) (k : Kernel) : Prop where
  nonneg : 0 ≤ fd
  ofile : ∃ h : fd.toNat < NOFILE, (k.ptable.proc k.cur).ofile ⟨fd.toNat, h⟩ = some f
  type : (k.ftable f).type = .inode
  ip : (k.ftable f).ip = some e
  ref : 0 < (k.icache e).ref
  valid : (k.icache e).valid = true
  unlocked : (k.icache e).busy = false

/-- The descriptor is for writing. Between system calls the log is idle. -/
structure WritesTo (fd : Int) (f : Fin NFILE) (e : Fin NINODE) (k : Kernel) : Prop
    extends Descriptor fd f e k where
  writable : (k.ftable f).writable = true
  idle : k.log.committing = false
  outstanding : k.log.outstanding = 0
  empty : k.log.lh = []

/-- What the write function of a device answers. -/
def deviceAnswer (d : Dinode) (n : Nat) : Option Nat :=
  if d.major.toInt = CONSOLE then some n else if d.major.toInt = PROCFS then some 0 else none

section

variable {fd : Int} {f : Fin NFILE} {e : Fin NINODE} {k k' : Kernel} {src : Nat → UInt8} {n : Nat}

theorem ilock_returns (href : 0 < (k.icache e).ref) (hv : (k.icache e).valid = true)
    (hbusy : (k.icache e).busy = false) :
    Ends (ilock e) k (fun _ k' _ => k' = { k with
      icache := Function.update k.icache e { k.icache e with busy := true } }) Never := by
  apply ends_inode_bind
  rw [if_neg (by omega), hbusy, if_neg Bool.false_ne_true]
  apply ends_modify_bind
  rw [if_pos hv]
  exact ends_pure rfl

theorem iunlock_returns (hbusy : (k.icache e).busy = true) (href : 0 < (k.icache e).ref) :
    Ends (iunlock e) k (fun _ k' _ => k' = k.unlocked e) Never := by
  apply ends_inode_bind
  rw [if_neg (by simp [hbusy]; omega)]
  exact ends_modify rfl

theorem devWrite_returns (href : 0 < (k.icache e).ref) (hv : (k.icache e).valid = true)
    (hbusy : (k.icache e).busy = true) :
    Ends (devWrite e n) k (fun x k' _ => x = deviceAnswer (k.icache e).d n ∧ k' = k) Never := by
  apply ends_inode_bind
  unfold deviceAnswer
  split
  · apply (iunlock_returns hbusy href).bind
    rintro _ _ _ rfl
    refine (ilock_returns (k := k.unlocked e) ?_ ?_ ?_).bind ?_
    · simpa [unlocked] using href
    · simpa [unlocked] using hv
    · simp [unlocked]
    · rintro _ _ _ rfl
      refine ends_pure ⟨rfl, ?_⟩
      have hsame : ({ k.icache e with busy := true } : Inode) = k.icache e := by rw [← hbusy]
      simp [unlocked, hsame]
  · split
    · exact ends_pure ⟨rfl, rfl⟩
    · exact ends_pure ⟨rfl, rfl⟩

theorem beginOp_idle (hidle : k.log.committing = false) (hout : k.log.outstanding = 0)
    (hlh : k.log.lh = []) :
    Ends beginOp k (fun _ k' _ => k' = setLog { k.log with outstanding := 1 } k) Never := by
  apply ends_get_bind
  have hbegin : k.log.beginOp = some { k.log with outstanding := 1 } := by
    rw [Log.beginOp_eq_some]
    refine ⟨hidle, ?_, by rw [hout]; rfl⟩
    rw [hlh, hout]
    decide
  rw [hbegin]
  exact ends_modify rfl

theorem endOp_empty (hidle : k.log.committing = false) (hout : k.log.outstanding = 1)
    (hlh : k.log.lh = []) :
    Ends endOp k (fun _ k' _ => k' = setLog { k.log with outstanding := 0 } k) Never := by
  apply ends_get_bind
  rw [Log.endOp_of_not_committing hidle, hout]
  refine ends_modify_bind (Ends.bind (R := fun _ k' _ =>
    k' = setLog { k.log with outstanding := 0, committing := true } k) (ends_get_bind ?_) ?_)
  · rw [if_neg (by simp [setLog, hlh])]
    exact ends_pure rfl
  · rintro _ _ _ rfl
    apply ends_modify
    simp [setLog, hidle]

theorem filewriteChunk_device (h : WritesTo fd f e k) (hdev : (k.icache e).d.type = T_DEV) :
    Ends (filewriteChunk f e src n) k (fun x k' _ => x = deviceAnswer (k.icache e).d n ∧
      WritesTo fd f e k' ∧ (k'.icache e).d = (k.icache e).d) Never := by
  apply (beginOp_idle h.idle h.outstanding h.empty).bind
  rintro _ _ _ rfl
  apply (ilock_returns (k := setLog { k.log with outstanding := 1 } k) h.ref h.valid
    h.unlocked).bind
  rintro _ k1 _ hk1
  have he1 : k1.icache e = { k.icache e with busy := true } := by simp [hk1, setLog]
  apply Ends.bind (R := fun _ k' _ => k1 = k') (ends_get_bind (ends_pure rfl))
  rintro v _ _ rfl
  refine Ends.bind (R := fun x k' _ => x = deviceAnswer (k.icache e).d n ∧ k1 = k') ?_ ?_
  · apply ends_inode_bind
    rw [if_pos (by rw [he1]; exact hdev)]
    apply Ends.mono (devWrite_returns (by rw [he1]; exact h.ref) (by rw [he1]; exact h.valid)
      (by rw [he1]))
    rintro _ _ _ ⟨rfl, rfl⟩
    exact ⟨by rw [he1], rfl⟩
  rintro x _ _ ⟨rfl, rfl⟩
  apply ends_modify_bind
  apply (iunlock_returns (by rw [he1]) (by rw [he1]; exact h.ref)).bind
  rintro _ _ _ rfl
  refine (endOp_empty ?_ ?_ ?_).bind ?_
  · simpa [hk1, unlocked, setLog] using h.idle
  · simp [hk1, unlocked, setLog]
  · simpa [hk1, unlocked, setLog] using h.empty
  rintro _ _ _ rfl
  refine ends_pure ⟨rfl, ?_, ?_⟩
  · subst hk1
    refine ⟨⟨h.nonneg, h.ofile, ?_, ?_, ?_, ?_, ?_⟩, ?_, h.idle, rfl, h.empty⟩
    · simpa [setLog, Kernel.unlocked] using h.type
    · simpa [setLog, Kernel.unlocked] using h.ip
    · simpa [setLog, Kernel.unlocked] using h.ref
    · simpa [setLog, Kernel.unlocked] using h.valid
    · simp [setLog, Kernel.unlocked]
    · simpa [setLog, Kernel.unlocked] using h.writable
  · simp [hk1, unlocked, setLog]

theorem filewriteLoop_device (hmajor : (k.icache e).d.major.toInt ≠ PROCFS)
    (hdev : (k.icache e).d.type = T_DEV) (h : WritesTo fd f e k) (turns i left : Nat)
    (src : Nat → UInt8) :
    Ends (filewriteLoop f e turns src i left) k (fun _ _ _ => True) Never := by
  induction turns generalizing k src i left with
  | zero => exact ends_pure trivial
  | succ turns ih =>
    refine ends_ite (fun _ => ends_pure trivial) fun _ => ?_
    apply (filewriteChunk_device h hdev).bind
    rintro _ k1 _ ⟨rfl, h1, hd⟩
    unfold deviceAnswer
    rw [if_neg hmajor]
    split
    · exact ends_pure trivial
    · rename_i m hm
      obtain ⟨-, ⟨⟩⟩ := Option.ite_none_right_eq_some.mp hm
      rw [if_pos rfl]
      exact ih (by rw [hd]; exact hmajor) (by rw [hd]; exact hdev) h1 _ _ _

/-- `procfswrite` takes nothing, and `filewrite` panics. -/
theorem filewriteLoop_procfs (hmajor : (k.icache e).d.major.toInt = PROCFS)
    (hdev : (k.icache e).d.type = T_DEV) (h : WritesTo fd f e k) {turns i left : Nat}
    (hleft : 0 < left) :
    Ends (filewriteLoop f e (turns + 1) src i left) k (fun _ _ _ => False)
      fun why => why = .panic "short filewrite" := by
  refine ends_ite (fun hzero => absurd hzero (by omega)) fun _ => ?_
  refine ((filewriteChunk_device h hdev).weaken fun _ => False.elim).bind ?_
  rintro _ k1 _ ⟨rfl, -, -⟩
  have hanswer : ∀ n, deviceAnswer (k.icache e).d n = some 0 := by
    intro n
    unfold deviceAnswer
    rw [if_neg (by rw [hmajor]; decide), if_pos hmajor]
  rw [hanswer]
  refine ends_ite (fun hzero => ?_) fun _ => ends_panic rfl
  have hmax : 0 < filewriteMax := by decide
  omega

/-! ## The system call -/

theorem sysWriteInt_run (h : WritesTo fd f e k) (n : Int) (src : Nat → UInt8) :
    sysWriteInt (some fd) (some n) (some src) k = filewriteInt f src n k := by
  obtain ⟨hlt, hofile⟩ := h.ofile
  have hargfd : argfd (some fd) k = .ok (some (⟨fd.toNat, hlt⟩, f)) k [] := by
    have hget : (Act.get : K Kernel) k = .ok k k [] := rfl
    apply (bind_of_ok hget).trans
    simp only
    rw [dif_pos ⟨h.nonneg, hlt⟩, hofile]
    rfl
  exact bind_of_ok hargfd

theorem filewrite_run (h : WritesTo fd f e k) (n : Nat) (src : Nat → UInt8) :
    filewrite f src n k = (do
      let i ← filewriteLoop f e n src 0 n
      return if i = n then (n : Int) else -1 : K Int) k := by
  have hfile : file f k = .ok (k.ftable f) k [] := rfl
  apply (bind_of_ok hfile).trans
  rw [h.writable, h.type, h.ip]
  rfl

/-- The count, or -1. -/
def Answers (n x : Int) : Prop := x = n ∧ 0 ≤ n ∨ x = -1

/-- A device always has room. For a file there are free blocks for the write and nothing else uses
the log or the buffers. -/
def HasRoom (f : Fin NFILE) (e : Fin NINODE) (n : Nat) (k : Kernel) : Prop :=
  (k.icache e).d.type = T_DEV ∨ ∃ r start j v ino, Opens r start f e j v ino k ∧
    Space r start e v (16 * transactions n) k

/-- What a write comes to, from what its loop does. -/
theorem filewrite_answers {E : Halt → Prop} {P : Prop} (h : WritesTo fd f e k)
    (hloop : Ends (filewriteLoop f e n src 0 n) k (fun _ _ _ => P) E) :
    Ends (filewrite f src n) k (fun x _ _ => P ∧ Answers n x) E := by
  unfold Ends Does
  rw [filewrite_run h]
  refine hloop.bind fun i k' _ hp => ends_pure ⟨hp, ?_⟩
  split
  · exact .inl ⟨rfl, Int.natCast_nonneg n⟩
  · exact .inr rfl

/-- The loop does not end in one of the panics, unless it writes to a node of procfs. -/
theorem filewriteLoop_answers (h : WritesTo fd f e k)
    (hno : ¬ ((k.icache e).d.type = T_DEV ∧ (k.icache e).d.major.toInt = PROCFS ∧ 0 < n)) :
    Ends (filewriteLoop f e n src 0 n) k (fun _ _ _ => True)
      fun why => why ≠ .panic "short filewrite" ∧ why ≠ .panic "filewrite" := by
  cases n with
  | zero => exact ends_pure trivial
  | succ n =>
    by_cases hdev : (k.icache e).d.type = T_DEV
    · have hmajor : (k.icache e).d.major.toInt ≠ PROCFS := fun hp => hno ⟨hdev, hp, n.succ_pos⟩
      exact (filewriteLoop_device hmajor hdev h _ _ _ _).weaken fun _ => False.elim
    · refine (filewriteLoop_plain ⟨h.valid, hdev⟩).weaken fun why hq => ?_
      exact ⟨hq.2 _ (by simp), hq.2 _ (by simp)⟩

/-- With room the write returns. -/
theorem filewrite_returns (h : WritesTo fd f e k) (hroom : HasRoom f e n k)
    (hno : ¬ ((k.icache e).d.type = T_DEV ∧ (k.icache e).d.major.toInt = PROCFS ∧ 0 < n)) :
    ∃ x k' es, filewrite f src n k = .ok x k' es := by
  have hnever : ∃ Q, Ends (filewrite f src n) k Q Never := by
    rcases hroom with hdev | ⟨r, start, j, v, ino, hopens, hspace⟩
    · cases n with
      | zero => exact ⟨_, filewrite_answers h (ends_pure trivial)⟩
      | succ n =>
        have hmajor : (k.icache e).d.major.toInt ≠ PROCFS := fun hp => hno ⟨hdev, hp, n.succ_pos⟩
        exact ⟨_, filewrite_answers h (filewriteLoop_device hmajor hdev h _ _ _ _)⟩
    · exact ⟨_, (filewrite_ends hopens src n).weaken fun _ hbad => hbad hspace⟩
  obtain ⟨Q, hends⟩ := hnever
  cases hx : filewrite f src n k with
  | ok a k' es => exact ⟨a, k', es, rfl⟩
  | halt why es => exact (hends.of_halt hx).elim

/-- A write through a descriptor of `sys_open` returns its count or -1, and stops with neither of the
panics of `filewrite`, unless it is one of some bytes to a node of procfs. -/
theorem sysWrite_answers_iff (h : WritesTo fd f e k) (n : Int) (src : Nat → UInt8) :
    (Ends (sysWriteInt (some fd) (some n) (some src)) k (fun x _ _ => Answers n x)
        (fun why => why ≠ .panic "short filewrite" ∧ why ≠ .panic "filewrite") ∧
      (HasRoom f e n.toNat k →
        ∃ x k' es, sysWriteInt (some fd) (some n) (some src) k = .ok x k' es)) ↔
    ¬ ((k.icache e).d.type = T_DEV ∧ (k.icache e).d.major.toInt = PROCFS ∧ 0 < n) := by
  have hrun := sysWriteInt_run h n src
  unfold Ends Does
  rw [hrun]
  by_cases hn : 0 ≤ n
  · obtain ⟨m, rfl⟩ := Int.eq_ofNat_of_zero_le hn
    have hpos : (0 : Int) < m ↔ 0 < m := Int.natCast_pos
    rw [hpos, filewriteInt, if_pos hn, Int.toNat_natCast]
    constructor
    · rintro ⟨hends, -⟩ ⟨hdev, hmajor, hm⟩
      obtain ⟨t, rfl⟩ := Nat.exists_eq_succ_of_ne_zero hm.ne'
      have hpanic : Ends (filewrite f src (t + 1)) k (fun x _ _ => False ∧ _) _ :=
        filewrite_answers h (filewriteLoop_procfs hmajor hdev h hm)
      cases hx : filewrite f src (t + 1) k with
      | ok a k' es => exact (hpanic.of_ok hx).1
      | halt why es =>
        rw [hx] at hends
        exact hends.1 (hpanic.of_halt hx)
    · intro hno
      refine ⟨?_, fun hroom => filewrite_returns h hroom hno⟩
      exact Ends.mono (filewrite_answers h (filewriteLoop_answers h hno)) fun _ _ _ hx => hx.2
  · have hneg : filewriteInt f src n k = .ok (-1) k [] := by
      have hfile : file f k = .ok (k.ftable f) k [] := rfl
      rw [filewriteInt, if_neg hn]
      apply (bind_of_ok hfile).trans
      rw [h.writable, h.type]
      rfl
    rw [hneg]
    refine iff_of_true ⟨.inr rfl, fun _ => ⟨_, _, _, rfl⟩⟩ ?_
    rintro ⟨-, -, hpos⟩
    exact hn hpos.le

/-- The console is opened for writing. -/
def openConsole : List (Fin NPROC × Call) :=
  consoleNode ++ [(proc0, .open (some (cstr "console")) (some O_RDWR))]

theorem sysWrite_answers_console : ∃ k es f e x k' fs, rootRun openConsole = some (k, es) ∧
    WritesTo 0 f e k ∧ sysWriteInt (some 0) (some 5) (some fun _ => 7) k = .ok x k' fs ∧
    Answers 5 x := by
  have hcheck : (match rootRun openConsole with
    | some s => decide (((s.1.ptable.proc s.1.cur).ofile ⟨0, by decide⟩ = some file0 ∧
        (s.1.ftable file0).type = .inode ∧ (s.1.ftable file0).ip = some ⟨1, by decide⟩ ∧
        0 < (s.1.icache ⟨1, by decide⟩).ref ∧ (s.1.icache ⟨1, by decide⟩).valid = true ∧
        (s.1.icache ⟨1, by decide⟩).busy = false) ∧ (s.1.ftable file0).writable = true ∧
        s.1.log.committing = false ∧ s.1.log.outstanding = 0 ∧ s.1.log.lh = [] ∧
        (s.1.icache ⟨1, by decide⟩).d.type = T_DEV ∧
        (s.1.icache ⟨1, by decide⟩).d.major.toInt = CONSOLE)
    | none => false) = true := by decide +kernel
  split at hcheck
  swap
  · cases hcheck
  rename_i s hrun
  obtain ⟨⟨hofile, htype, hip, href, hvalid, hbusy⟩, hwritable, hidle, hout, hempty, hdev, hmajor⟩ :=
    of_decide_eq_true hcheck
  have h : WritesTo 0 file0 ⟨1, by decide⟩ s.1 :=
    ⟨⟨le_refl _, ⟨by decide, hofile⟩, htype, hip, href, hvalid, hbusy⟩, hwritable, hidle, hout, hempty⟩
  obtain ⟨hends, hreturns⟩ := (sysWrite_answers_iff h 5 fun _ => 7).mpr fun ⟨_, hprocfs, _⟩ => by
    rw [hmajor] at hprocfs
    exact absurd hprocfs (by decide)
  obtain ⟨x, k', fs, hx⟩ := hreturns (.inl hdev)
  exact ⟨s.1, s.2, file0, _, x, k', fs, hrun, h, hx, hends.of_ok hx⟩

/-- `/proc/1/status` can be opened for writing, and writing a byte to it panics. -/
theorem sysWrite_procfs_panics : ∃ k es fs,
    procRun [(proc0, .open (some (cstr "proc/1/status")) (some O_RDWR))] = some (k, es) ∧
    sysStep proc0 (.write (some 0) (some [7])) k = .halt (.panic "short filewrite") fs := by
  have hcheck : (match procRun [(proc0, .open (some (cstr "proc/1/status")) (some O_RDWR))] with
    | some s => match sysStep proc0 (.write (some 0) (some [7])) s.1 with
      | .halt why _ => decide (why = .panic "short filewrite")
      | .ok _ _ _ => false
    | none => false) = true := by decide +kernel
  split at hcheck
  · rename_i s hrun
    split at hcheck
    · rename_i why fs hhalt
      obtain rfl := of_decide_eq_true hcheck
      exact ⟨s.1, s.2, fs, hrun, hhalt⟩
    · cases hcheck
  · cases hcheck

end

end Xv6.Kernel
