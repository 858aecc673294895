import Xv6.Sys.Mount
import Xv6.Sys.Writes

/-!
# The header that exec looks at

`exec` compares the result of `readi` with the size of the header. The size is unsigned, and so a
result -1 passes: what the stack had in the place of the header is then taken for it. Whether that
can happen is a matter of the inode alone, and for the console of whether its reader gets killed.
-/

namespace Xv6.Kernel

open Lib Act

/-! ## The check -/

/-- The header, if it passes the checks (`exec.c:30-34`): `r` is the result of `readi`, and `stack`
is what `elf` held before. -/
def execElf (r : Option (List UInt8)) (stack : List UInt8) : Option (List UInt8) :=
  let elf := r.getD stack
  if elf.length < ELFHDRSZ then none else if le elf 0 4 ≠ ELF_MAGIC then none else some elf

/-- What `exec` does with a header. -/
def execImage (e : Fin NINODE) : Option (List UInt8) → K (Option Nat)
  | none => return none
  | some elf => do
    let pgdir ← allocated
    if pgdir then
      execHeaders e (le elf 44 2) (le elf 28 4) 0
    else
      return none

theorem execImage_checked (e : Fin NINODE) (elf : List UInt8) :
    execImage e (if elf.length < ELFHDRSZ then none
      else if le elf 0 4 ≠ ELF_MAGIC then none else some elf) =
    if elf.length < ELFHDRSZ then return none
    else if le elf 0 4 ≠ ELF_MAGIC then return none
    else do
      let pgdir ← allocated
      if pgdir then execHeaders e (le elf 44 2) (le elf 28 4) 0 else return none := by
  split_ifs <;> rfl

theorem execLoad_eq (e : Fin NINODE) : execLoad e = (do
    let r ← readi e 0 ELFHDRSZ
    let tick ← tickOnce
    let k ← Act.get
    execImage e (execElf r ((List.range ELFHDRSZ).map (k.env.junk tick)))) := by
  unfold execLoad
  refine congrArg (readi e 0 ELFHDRSZ >>= ·) (funext fun r => ?_)
  refine congrArg (tickOnce >>= ·) (funext fun tick => ?_)
  refine congrArg (Act.get >>= ·) (funext fun k => ?_)
  exact (execImage_checked e _).symm

theorem execElf_some (bs stack : List UInt8) : execElf (some bs) stack = execElf (some bs) [] := rfl

theorem length_of_execElf {bs stack : List UInt8} (h : execElf (some bs) stack ≠ none) :
    ELFHDRSZ ≤ bs.length := by
  by_contra hlt
  exact h (if_pos (Nat.lt_of_not_le hlt))

/-- A header that passes was read, the whole of it, and what the stack had does not matter. -/
def Trusts (r : Option (List UInt8)) : Prop :=
  ∀ stack stack' : List UInt8, stack.length = ELFHDRSZ → stack'.length = ELFHDRSZ →
    (execElf r stack ≠ none → ∃ bs, r = some bs ∧ bs.length = ELFHDRSZ) ∧
    execElf r stack = execElf r stack'

theorem trusts_some {bs : List UInt8} (h : bs.length ≤ ELFHDRSZ) : Trusts (some bs) := by
  intro stack stack' _ _
  constructor
  · intro hpass
    exact ⟨bs, rfl, le_antisymm h (length_of_execElf hpass)⟩
  · rw [execElf_some, execElf_some bs stack']

/-- A header with the magic number and no program. -/
def forged : List UInt8 := [0x7F, 0x45, 0x4C, 0x46] ++ List.replicate 48 0

theorem not_trusts_none : ¬ Trusts none := by
  intro h
  obtain ⟨bs, hbs, -⟩ := (h forged forged (by decide) (by decide)).1 (by decide)
  cases hbs

/-! ## What `readi` returns -/

/-- `devsw[ip->major].read` is missing, or it is the console's and its reader is killed. -/
def Unread (k : Kernel) (e : Fin NINODE) : Prop :=
  (k.icache e).d.type = T_DEV ∧
    if (k.icache e).d.major.toInt = CONSOLE then k.env.input k.tick = none
    else (k.icache e).d.major.toInt ≠ PROCFS

section

variable {e : Fin NINODE} {k k' : Kernel}

theorem unread_iff (hdev : (k.icache e).d.type = T_DEV) : Unread k e =
    if (k.icache e).d.major.toInt = CONSOLE then k.env.input k.tick = none
    else (k.icache e).d.major.toInt ≠ PROCFS :=
  propext (and_iff_right hdev)

/-- The answer is -1 on the condition `c`, and no more than `n` bytes otherwise. -/
def Delivers (n : Nat) (c : Prop) (r : Option (List UInt8)) : Prop :=
  (r = none ↔ c) ∧ ∀ bs, r = some bs → bs.length ≤ n

theorem Delivers.trusts_iff {c : Prop} {r : Option (List UInt8)} (h : Delivers ELFHDRSZ c r) :
    Trusts r ↔ ¬ c := by
  obtain ⟨hnone, hlen⟩ := h
  cases r with
  | none => exact iff_of_false not_trusts_none (not_not_intro (hnone.mp rfl))
  | some bs =>
    apply iff_of_true (trusts_some (hlen bs rfl))
    intro hc
    cases hnone.mpr hc

theorem delivers_some {n : Nat} {c : Prop} {bs : List UInt8} (hlen : bs.length ≤ n) (hc : ¬ c) :
    Delivers n c (some bs) := by
  constructor
  · exact iff_of_false (Option.some_ne_none bs) hc
  · rintro _ ⟨⟩
    exact hlen

theorem ilock_leaves_valid :
    Ends (ilock e) k (fun _ k' _ => (k'.icache e).valid = true) fun _ => True := by
  apply ends_inode_bind
  refine ends_ite (fun _ => ends_panic trivial) fun _ => ?_
  refine ends_ite (fun _ => ends_sleep trivial) fun _ => ends_modify_bind ?_
  refine ends_ite (fun hv => ends_pure (by simpa using hv)) fun _ => ?_
  unfold iload
  refine ends_true.bind fun ip _ _ _ => ends_true.bind fun bp _ _ _ => ?_
  refine ends_true.bind fun d _ _ _ => ends_true.bind fun _ _ _ _ => ?_
  refine ends_true.bind fun _ k1 _ _ => ends_modify_bind ?_
  apply ends_inode_bind
  refine ends_ite (fun _ => ends_panic trivial) fun _ => ends_pure ?_
  simp

theorem readiLoop_length (turns : Nat) : ∀ (off left : Nat) (k : Kernel),
    Ends (readiLoop e turns off left) k (fun bs _ _ => bs.length ≤ left) fun _ => True := by
  induction turns with
  | zero =>
    intro off left k
    exact ends_pure (Nat.zero_le _)
  | succ turns ih =>
    intro off left k
    unfold readiLoop
    refine ends_ite (fun _ => ends_pure (Nat.zero_le _)) fun _ => ?_
    refine ends_true.bind fun _ _ _ _ => ends_true.bind fun _ _ _ _ => ?_
    refine ends_true.bind fun _ _ _ _ => ends_true.bind fun _ _ _ _ => ?_
    refine ends_true.bind fun _ k1 _ _ => (ih _ _ k1).bind fun rest _ _ hrest => ends_pure ?_
    simp only [List.length_append, List.length_map, List.length_range]
    omega

/-- The console answers -1 to a reader that is killed, and only to such a one. -/
theorem consoleread_delivers {n : Nat} (hv : (k.icache e).valid = true) :
    Ends (consoleread e n) k (fun r _ _ => Delivers n (k.env.input k.tick = none) r)
      fun _ => True := by
  unfold consoleread
  refine Ends.bind (R := fun _ k1 _ => k1 = k.unlocked e) ?_ ?_
  · apply ends_inode_bind
    exact ends_ite (fun _ => ends_panic trivial) fun _ => ends_modify rfl
  rintro _ _ _ rfl
  refine Ends.bind (R := fun tick k1 _ => tick = k.tick ∧ k1.env = k.env ∧
    (k1.icache e).valid = true) ?_ ?_
  · refine ends_get_bind (ends_modify_bind (ends_pure ⟨rfl, rfl, ?_⟩))
    simpa [unlocked] using hv
  rintro _ k1 _ ⟨rfl, henv, hv1⟩
  refine ((ilock_valid hv1).weaken fun _ _ => trivial).bind ?_
  rintro _ _ _ ⟨rfl, rfl⟩
  refine ends_get_bind (ends_pure ?_)
  rw [show ({ k1 with icache := _ } : Kernel).env = k.env from henv]
  cases hin : k.env.input k.tick with
  | none => exact ⟨iff_of_true rfl rfl, by simp⟩
  | some bs => exact delivers_some (by simp) (Option.some_ne_none bs)

theorem procfsread_delivers {inum off n : Nat} :
    Ends (procfsread inum off n) k (fun r _ _ => Delivers n False r) fun _ => True := by
  refine ends_true.bind fun _ k1 _ _ => ends_get_bind ?_
  cases procfsContent k1 inum with
  | none => exact trivial
  | some content =>
    refine ends_ite (fun _ => trivial) fun _ => ends_true.bind fun tick _ _ _ => ends_pure ?_
    refine delivers_some ?_ id
    rw [List.length_take]
    exact min_le_left ..

theorem readi_delivers (hv : (k.icache e).valid = true) :
    Ends (readi e 0 ELFHDRSZ) k (fun r _ _ => Delivers ELFHDRSZ (Unread k e) r) fun _ => True := by
  apply ends_inode_bind
  refine ends_ite (fun hdev => ?_) fun hfile => ?_
  · apply ends_inode_bind
    refine ends_ite (fun hcons => ?_) fun hcons => ends_ite (fun hproc => ?_) fun hproc => ?_
    · refine (consoleread_delivers hv).mono fun r _ _ hr => ?_
      rwa [unread_iff hdev, if_pos hcons]
    · refine procfsread_delivers.mono fun r _ _ hr => ?_
      have hread : ((k.icache e).d.major.toInt ≠ PROCFS) = False := eq_false fun h => h hproc
      rwa [unread_iff hdev, if_neg hcons, hread]
    · refine ends_pure ⟨iff_of_true rfl ?_, by simp⟩
      rwa [unread_iff hdev, if_neg hcons]
  · rw [if_neg (by simp [ELFHDRSZ])]
    refine (readiLoop_length _ _ _ _).bind fun bs _ _ hbs => ends_pure (delivers_some ?_ ?_)
    · exact hbs.trans (min_le_left ..)
    · exact fun h => hfile h.1

/-- `exec` trusts only what it has read, unless its file is a device without a read function, or the
console and the process is killed while it waits for a line. -/
theorem exec_trusts_iff (e : Fin NINODE) :
    execLoad e = (do
      let r ← readi e 0 ELFHDRSZ
      let tick ← tickOnce
      let k ← Act.get
      execImage e (execElf r ((List.range ELFHDRSZ).map (k.env.junk tick)))) ∧
    ∀ k0 k r k', Gives (ilock e) k0 () k → Gives (readi e 0 ELFHDRSZ) k r k' →
      (Trusts r ↔ ¬ Unread k e) := by
  refine ⟨execLoad_eq e, ?_⟩
  intro k0 k r k' hlock hread
  obtain ⟨es, hlock⟩ := hlock
  obtain ⟨fs, hread⟩ := hread
  have hv : (k.icache e).valid = true := ilock_leaves_valid.of_ok hlock
  exact ((readi_delivers hv).of_ok hread).trusts_iff

end

/-- The root directory is no program, and nothing but its 32 bytes is looked at. -/
theorem exec_trusts_root : ∃ k0 k r k', Gives (ilock ⟨0, by decide⟩) k0 () k ∧
    Gives (readi ⟨0, by decide⟩ 0 ELFHDRSZ) k r k' ∧ Trusts r := by
  have hcheck : (match rootRun [] with
    | none => false
    | some (k0, _) => match ilock ⟨0, by decide⟩ k0 with
      | .halt .. => false
      | .ok _ k _ => (k.icache ⟨0, by decide⟩).d.type ≠ T_DEV &&
        match readi ⟨0, by decide⟩ 0 ELFHDRSZ k with
        | .halt .. => false
        | .ok .. => true) = true := by decide +kernel
  split at hcheck
  · cases hcheck
  · rename_i k0 _ _
    split at hcheck
    · cases hcheck
    · rename_i k es hlock
      obtain ⟨hfile, hcheck⟩ := Bool.and_eq_true_iff.mp hcheck
      split at hcheck
      · cases hcheck
      · rename_i r k' fs hread
        refine ⟨k0, k, r, k', ⟨es, hlock⟩, ⟨fs, hread⟩, ?_⟩
        apply ((exec_trusts_iff _).2 k0 k r k' ⟨es, hlock⟩ ⟨fs, hread⟩).mpr
        exact fun h => of_decide_eq_true hfile h.1

/-! ## A device without a read function -/

/-- The kernel on the new disk, with a device 5 in it; the stacks are full of `byte`s. -/
def deviceRun (byte : Nat → UInt8) : Option (Kernel × List FsEvent) :=
  bootRun (freshStore rootDisk 70) rootMount.log { rootEnv with junk := fun _ => byte }
    [(proc0, .mknod (some (cstr "dev")) (some 5) (some 0))]

/-- The result of `exec("dev")`. -/
def deviceExec (byte : Nat → UInt8) : Option Int :=
  match deviceRun byte with
  | none => none
  | some (k, _) => match sysStep proc0 (.exec (some (cstr "dev"))) k with
    | .ok r _ _ => some r
    | .halt .. => none

/-- Nothing has been read in either case; what the stack had decides. -/
theorem exec_takes_stack : Bootable rootMount rootDisk ∧
    deviceExec (fun i => forged.getD i 0) = some 0 ∧ deviceExec (fun _ => 0) = some (-1) := by
  refine ⟨rootDisk_bootable, ?_, ?_⟩
  · decide +kernel
  · decide +kernel

end Xv6.Kernel
