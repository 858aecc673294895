import Xv6.Sys.Args

/-!
# Where a read puts its bytes

`sys_read` checks the buffer with the count as an `int`. `readi` takes the same count as a `uint`,
`procfsread` and `piperead` take it as an `int` again, and `memmove` as a `uint`. Only the places
where bytes go are modelled here, not the bytes.
-/

namespace Xv6

/-- A call of `memmove`, or a single byte. -/
structure UserStore where
  dst : BitVec 32
  len : Nat
  deriving DecidableEq

/-- What a file gives its bytes from. -/
inductive Source where
  /-- A pipe with these bytes in it when the copy begins. -/
  | pipe (queue : List UInt8)
  /-- A regular file or a directory. -/
  | inode (size : BitVec 32)
  /-- The console, and what is typed. -/
  | console (input : List UInt8)
  /-- A procfs node, with the size that its formatter returned. -/
  | procfs (size : BitVec 32)
  /-- A device that cannot be read. -/
  | none
  deriving DecidableEq

/-- An open file (`file.h:1-9`). -/
structure OpenFile where
  readable : Bool
  off : BitVec 32
  source : Source
  deriving DecidableEq

/-- The copy loop of `piperead` (`pipe.c:112-116`). -/
def pipereadStores (addr n : BitVec 32) : Nat → List UInt8 → List UserStore
  | _, [] => []
  | i, _ :: queue =>
    if (i : Int) < n.toInt then
      ⟨addr + BitVec.ofNat 32 i, 1⟩ :: pipereadStores addr n (i + 1) queue
    else []

/-- The loop of `consoleread` (`console.c:236-258`); the input ends where the process is killed. -/
def consolereadStores (dst : BitVec 32) (n : Int) : List UInt8 → List UserStore
  | [] => []
  | c :: input =>
    if 0 < n then
      if c = 4 then []
      else ⟨dst, 1⟩ :: if c = 10 then [] else consolereadStores (dst + 1) (n - 1) input
    else []

/-- The loop of `readi` (`fs.c:453-459`) with `left` bytes to go. -/
def readiLoop (off dst : BitVec 32) (left : Nat) : List UserStore :=
  if _h : left = 0 then []
  else
    let m := min left (BSIZE - off.toNat % BSIZE)
    ⟨dst, m⟩ :: readiLoop (off + BitVec.ofNat 32 m) (dst + BitVec.ofNat 32 m) (left - m)
termination_by left
decreasing_by
  have : off.toNat % BSIZE < BSIZE := Nat.mod_lt _ (by decide)
  omega

/-- `readi` on a file (`fs.c:448-460`). -/
def readiStores (size dst off n : BitVec 32) : List UserStore :=
  if size < off ∨ off + n < off then []
  else readiLoop off dst (if size < off + n then size - off else n).toNat

/-- The end of `procfsread` (`procfs.c:254-261`). -/
def procfsreadStores (size dst off n : BitVec 32) : List UserStore :=
  if off.slt size then
    let nr := size - off
    let nr := if n.slt nr then n else nr
    [⟨dst, nr.toNat⟩]
  else []

/-- `fileread` (`file.c:96-113`). -/
def filereadStores (f : OpenFile) (addr n : BitVec 32) : List UserStore :=
  if f.readable = false then []
  else
    match f.source with
    | .pipe queue => pipereadStores addr n 0 queue
    | .inode size => readiStores size addr f.off n
    | .console input => consolereadStores addr n.toInt input
    | .procfs size => procfsreadStores size addr f.off n
    | .none => []

/-- The addresses that are stored to. -/
def StoresTo (ss : List UserStore) (a : BitVec 32) : Prop :=
  ∃ s ∈ ss, ∃ j < s.len, a = s.dst + BitVec.ofNat 32 j

/-- The bytes go to `[p, p + max(n, 0))`, and that range is part of the process. -/
def Confined (u : User) (p n : BitVec 32) (ss : List UserStore) : Prop :=
  (∀ a, StoresTo ss a → p.toNat ≤ a.toNat ∧ (a.toNat : Int) < p.toNat + max n.toInt 0) ∧
    ∀ a : Nat, p.toNat ≤ a → (a : Int) < p.toNat + max n.toInt 0 → a < u.sz.toNat

/-- The bytes go to the `len` addresses from `p` on. -/
def Fills (ss : List UserStore) (p : BitVec 32) (len : Nat) : Prop :=
  ∀ a, StoresTo ss a ↔ ∃ j < len, a = p + BitVec.ofNat 32 j

theorem fills_nil (p : BitVec 32) : Fills [] p 0 := by
  intro a
  simp [StoresTo]

variable {ss : List UserStore} {p n : BitVec 32} {len : Nat} {u : User}

theorem fills_cons {m : Nat} (h : Fills ss (p + BitVec.ofNat 32 m) len) :
    Fills (⟨p, m⟩ :: ss) p (m + len) := by
  intro a
  constructor
  · rintro ⟨s, hs, j, hj, rfl⟩
    rcases List.mem_cons.mp hs with rfl | hs
    · exact ⟨j, Nat.lt_add_right len hj, rfl⟩
    · obtain ⟨i, hi, heq⟩ := (h _).mp ⟨s, hs, j, hj, rfl⟩
      refine ⟨m + i, by omega, ?_⟩
      rw [heq, BitVec.ofNat_add, BitVec.add_assoc]
  · rintro ⟨j, hj, rfl⟩
    by_cases hjm : j < m
    · exact ⟨_, List.mem_cons_self, j, hjm, rfl⟩
    · have heq : p + BitVec.ofNat 32 j = p + BitVec.ofNat 32 m + BitVec.ofNat 32 (j - m) := by
        rw [BitVec.add_assoc, ← BitVec.ofNat_add, Nat.add_sub_cancel' (by omega)]
      obtain ⟨s, hs, i, hi, hai⟩ := (h _).mpr ⟨j - m, by omega, heq⟩
      exact ⟨s, List.mem_cons_of_mem _ hs, i, hi, hai⟩

/-- `readi` copies block after block, without a gap. -/
theorem readiLoop_fills (off dst : BitVec 32) (left : Nat) :
    Fills (readiLoop off dst left) dst left := by
  fun_induction readiLoop off dst left with
  | case1 => exact fills_nil _
  | case2 off dst left h m ih =>
    have hm : m + (left - m) = left := Nat.add_sub_cancel' (Nat.min_le_left ..)
    have := fills_cons ih
    rwa [hm] at this

theorem pipereadStores_fills (addr n : BitVec 32) (i : Nat) (queue : List UInt8) :
    ∃ len : Nat, (len : Int) ≤ max (n.toInt - i) 0 ∧
      Fills (pipereadStores addr n i queue) (addr + BitVec.ofNat 32 i) len := by
  induction queue generalizing i with
  | nil => exact ⟨0, by simp, fills_nil _⟩
  | cons x queue ih =>
    unfold pipereadStores
    split
    · rename_i hi
      obtain ⟨len, hlen, hfills⟩ := ih (i + 1)
      refine ⟨1 + len, by push_cast at hlen ⊢; omega, ?_⟩
      apply fills_cons
      rwa [BitVec.add_assoc, ← BitVec.ofNat_add]
    · exact ⟨0, by simp, fills_nil _⟩

theorem consolereadStores_fills (dst : BitVec 32) (n : Int) (input : List UInt8) :
    ∃ len : Nat, (len : Int) ≤ max n 0 ∧ Fills (consolereadStores dst n input) dst len := by
  induction input generalizing dst n with
  | nil => exact ⟨0, by simp, fills_nil _⟩
  | cons c input ih =>
    unfold consolereadStores
    split
    · rename_i hn
      split
      · exact ⟨0, by simp, fills_nil _⟩
      · split
        · exact ⟨1, by omega, fills_cons (fills_nil _)⟩
        · obtain ⟨len, hlen, hfills⟩ := ih (dst + 1) (n - 1)
          exact ⟨1 + len, by push_cast; omega, fills_cons hfills⟩
    · exact ⟨0, by simp, fills_nil _⟩

/-- Whether the file keeps to a count that may be negative: pipes and the console do; a file does
if there is nothing to read or the end overflows, and a procfs node if there is nothing to read or
the rest of its text is no negative number. -/
def OpenFile.Keeps (f : OpenFile) (n : BitVec 32) : Prop :=
  f.readable = true →
    match f.source with
    | .inode size => 0 ≤ n.toInt ∨ size ≤ f.off ∨ f.off + n < f.off
    | .procfs size => f.off.slt size = false ∨ 0 ≤ n.toInt ∧ 0 ≤ (size - f.off).toInt
    | _ => True

theorem readiStores_fills (size dst off n : BitVec 32) :
    ∃ len : Nat, Fills (readiStores size dst off n) dst len ∧
      ((len : Int) ≤ max n.toInt 0 ↔ 0 ≤ n.toInt ∨ size ≤ off ∨ off + n < off) := by
  unfold readiStores
  split
  · rename_i hbad
    refine ⟨0, fills_nil _, iff_of_true (by simp) ?_⟩
    rcases hbad with hbad | hbad
    · exact .inr (.inl (BitVec.le_of_lt hbad))
    · exact .inr (.inr hbad)
  · rename_i hgood
    refine ⟨_, readiLoop_fills _ _ _, ?_⟩
    rw [not_or] at hgood
    have hsize := size.isLt
    have hoff := off.isLt
    have hn := n.isLt
    simp only [BitVec.lt_def, BitVec.le_def, BitVec.toNat_add] at hgood ⊢
    rw [BitVec.toInt_eq_toNat_cond]
    split
    · rw [BitVec.toNat_sub]
      omega
    · omega

theorem procfsreadStores_fills (size dst off n : BitVec 32) :
    ∃ len : Nat, Fills (procfsreadStores size dst off n) dst len ∧
      ((len : Int) ≤ max n.toInt 0 ↔
        off.slt size = false ∨ 0 ≤ n.toInt ∧ 0 ≤ (size - off).toInt) := by
  unfold procfsreadStores
  split
  · rename_i hlt
    refine ⟨_, fills_cons (fills_nil _), ?_⟩
    have hn := n.isLt
    have hd := (size - off).isLt
    rw [hlt]
    have hnint := BitVec.toInt_eq_toNat_cond n
    have hdint := BitVec.toInt_eq_toNat_cond (size - off)
    simp only [BitVec.slt, decide_eq_true_eq, Bool.true_eq_false, false_or, Nat.add_zero]
    split
    all_goals omega
  · rename_i hge
    exact ⟨0, fills_nil _, iff_of_true (by simp) (.inl (by simpa using hge))⟩

/-- How far `fileread` gets. -/
theorem filereadStores_fills (f : OpenFile) (p n : BitVec 32) :
    ∃ len : Nat, Fills (filereadStores f p n) p len ∧
      ((len : Int) ≤ max n.toInt 0 ↔ f.Keeps n) := by
  unfold filereadStores OpenFile.Keeps
  split
  · rename_i hread
    exact ⟨0, fills_nil _, iff_of_true (by simp) fun h => by simp [hread] at h⟩
  · rename_i hread
    have hread : f.readable = true := by simpa using hread
    simp only [hread, true_implies]
    cases f.source with
    | pipe queue =>
      obtain ⟨len, hlen, hfills⟩ := pipereadStores_fills p n 0 queue
      exact ⟨len, by simpa using hfills, iff_of_true (by simpa using hlen) trivial⟩
    | inode size => exact readiStores_fills size p f.off n
    | console input =>
      obtain ⟨len, hlen, hfills⟩ := consolereadStores_fills p n.toInt input
      exact ⟨len, hfills, iff_of_true hlen trivial⟩
    | procfs size => exact procfsreadStores_fills size p f.off n
    | none => exact ⟨0, fills_nil _, iff_of_true (by simp) trivial⟩

/-- A block of memory from `p` on that does not wrap around is confined if it is not too long. -/
theorem Fills.confined_iff (h : Fills ss p len) (hp : p < u.sz ∧ p + n ≤ u.sz) : Confined u p n ss ↔
      (0 ≤ n.toInt → p.toNat + n.toNat < 2 ^ 32) ∧ (len : Int) ≤ max n.toInt 0 := by
  have hn := n.isLt
  have hsz := u.sz.isLt
  obtain ⟨hp, hend⟩ := hp
  rw [BitVec.lt_def] at hp
  rw [BitVec.le_def, BitVec.toNat_add] at hend
  have hint := BitVec.toInt_eq_toNat_cond n
  constructor
  · rintro ⟨hstores, hrange⟩
    have hwrap : 0 ≤ n.toInt → p.toNat + n.toNat < 2 ^ 32 := by
      intro hpos
      by_contra hge
      have := hrange u.sz.toNat (by omega) (by omega)
      omega
    refine ⟨hwrap, ?_⟩
    by_contra hlen
    -- the byte behind the range is stored, too
    have hbyte := hstores (p + BitVec.ofNat 32 (max n.toInt 0).toNat)
      ((h _).mpr ⟨_, by omega, rfl⟩)
    rw [BitVec.toNat_add, BitVec.toNat_ofNat] at hbyte
    omega
  · rintro ⟨hwrap, hlen⟩
    refine ⟨?_, ?_⟩
    · intro a ha
      obtain ⟨j, hj, rfl⟩ := (h a).mp ha
      rw [BitVec.toNat_add, BitVec.toNat_ofNat]
      omega
    · intro a hpa ha
      omega

/-- What `sys_read` passes to `fileread` (`sysfile.c:66-76`): the file, the buffer and the count. -/
def sysRead (u : User) (ofile : Fin NOFILE → Option OpenFile) :
    Option (OpenFile × BitVec 32 × BitVec 32) :=
  match u.argfd ofile 0 with
  | none => none
  | some f =>
    match u.argint 2 with
    | none => none
    | some n => (u.argptr 1 n).map fun p => (f, p, n)

theorem argptr_of_sysRead {ofile : Fin NOFILE → Option OpenFile} {f : OpenFile}
    (h : sysRead u ofile = some (f, p, n)) : u.argptr 1 n = some p := by
  unfold sysRead at h
  split at h
  · simp at h
  · split at h
    · simp at h
    · obtain ⟨q, hq, heq⟩ := Option.map_eq_some_iff.mp h
      simp only [Prod.mk.injEq] at heq
      obtain ⟨-, rfl, rfl⟩ := heq
      exact hq

/-- If `sys_read` accepts its arguments, what `fileread` stores stays in the buffer, and the buffer
in the process, if and only if the buffer does not reach the end of the address space and the file
keeps to the count. -/
theorem sysRead_confined_iff (u : User) (ofile : Fin NOFILE → Option OpenFile) {f : OpenFile}
    {p n : BitVec 32} (h : sysRead u ofile = some (f, p, n)) :
    Confined u p n (filereadStores f p n) ↔
      (0 ≤ n.toInt → p.toNat + n.toNat < 2 ^ 32) ∧ f.Keeps n := by
  obtain ⟨len, hfills, hlen⟩ := filereadStores_fills f p n
  rw [hfills.confined_iff (User.argptr_eq_some (argptr_of_sysRead h)), hlen]

/-- A process of one page whose call has the arguments `fd`, 2048 and `n`. -/
def caller (fd : UInt8) (n : BitVec 32) : User where
  sz := 4096
  esp := 0
  mem := fun a =>
    if a = 4 then fd
    else if a = 9 then 8
    else if a = 12 then (n.setWidth 8).toNat.toUInt8
    else if a = 13 then ((n >>> 8).setWidth 8).toNat.toUInt8
    else if a = 14 then ((n >>> 16).setWidth 8).toNat.toUInt8
    else if a = 15 then ((n >>> 24).setWidth 8).toNat.toUInt8
    else 0

/-- A regular file of 4000 bytes, and a procfs node with a text of 100 bytes, read from the start. -/
def bothFiles (i : Fin NOFILE) : Option OpenFile :=
  if i.val = 0 then some ⟨true, 0, .inode 4000⟩
  else if i.val = 1 then some ⟨true, 0, .procfs 100⟩
  else none

theorem sysRead_confined_short :
    sysRead (caller 0 100) bothFiles = some (⟨true, 0, .inode 4000⟩, 2048, 100) ∧
      Confined (caller 0 100) 2048 100 (filereadStores ⟨true, 0, .inode 4000⟩ 2048 100) := by
  have h : sysRead (caller 0 100) bothFiles = some (⟨true, 0, .inode 4000⟩, 2048, 100) := by
    decide
  refine ⟨h, ?_⟩
  apply (sysRead_confined_iff _ _ h).mpr
  refine ⟨by decide, ?_⟩
  intro _
  exact .inl (by decide)

/-- With the count -1 the rest of the file goes past the end of the process, and a procfs node calls
`memmove` with the count `2 ^ 32 - 1`. -/
theorem sysRead_not_confined :
    (sysRead (caller 0 (-1)) bothFiles = some (⟨true, 0, .inode 4000⟩, 2048, -1) ∧
      StoresTo (filereadStores ⟨true, 0, .inode 4000⟩ 2048 (-1)) 5000 ∧
      (caller 0 (-1)).sz < 5000) ∧
    sysRead (caller 1 (-1)) bothFiles = some (⟨true, 0, .procfs 100⟩, 2048, -1) ∧
      filereadStores ⟨true, 0, .procfs 100⟩ 2048 (-1) = [⟨2048, 2 ^ 32 - 1⟩] := by
  refine ⟨⟨by decide, ?_, by decide⟩, by decide, by decide⟩
  have hloop : filereadStores ⟨true, 0, .inode 4000⟩ 2048 (-1) = readiLoop 0 2048 4000 := by
    simp [filereadStores, readiStores]
  rw [hloop]
  apply (readiLoop_fills 0 2048 4000 5000).mpr
  exact ⟨2952, by decide, by decide⟩

end Xv6
