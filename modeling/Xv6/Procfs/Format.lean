import Xv6.Fs.Inode
import Xv6.Procfs.Strings

/-!
# The formatters of procfs at work

The functions of `procfs.c` that `procfsread` calls, store by store in its local buffer. What they
leave there, and the size they return, is what `procfsContent` says; the bytes it has no value for
are those that were on the stack.
-/

namespace Xv6.Format

open Lib Fmt Cstring Kernel List

/-! ## The functions -/

/-- `memmove(buf + DIRENTSZ * index, &de, DIRENTSZ)`. -/
def entry (index : Nat) (de : Dirent) : Fmt Unit := memmove (DIRENTSZ * index) de.bytes

/-- The loop of `initProc` (`procfs.c:46-55`). -/
def initProcLoop (t : Ptable) : List (Fin NPROC) → Bytes DIRSIZ → Nat → Fmt Nat
  | [], _, index => return index
  | k :: ks, name, index =>
    if (t.proc k).state = .unused then initProcLoop t ks name index
    else do
      let name ← ofOption (itoaName (t.proc k).pid name)
      entry index { inum := BitVec.ofInt 16 (700 * (t.proc k).pid), name := name }
      initProcLoop t ks name (index + 1)

/-- `initProc` (`procfs.c:24-59`). -/
def initProc (t : Ptable) (inum : Nat) : Fmt Nat := do
  entry 0 { inum := BitVec.ofNat 16 inum, name := strncpyName (cstr ".") }
  entry 1 { inum := BitVec.ofNat 16 ROOTINO, name := strncpyName (cstr "..") }
  entry 2 { inum := 660, name := strncpyName (cstr "blockstat") }
  entry 3 { inum := 670, name := strncpyName (cstr "inodestat") }
  let index ← initProcLoop t (List.finRange NPROC) (strncpyName (cstr "inodestat")) 4
  return index * DIRENTSZ

/-- `initPID` (`procfs.c:61-90`). -/
def initPID (t : Ptable) (icache : Fin NINODE → Inode) (currentInode inum : Nat) : Fmt Nat := do
  entry 0 { inum := BitVec.ofNat 16 inum, name := strncpyName (cstr ".") }
  entry 1 { inum := BitVec.ofNat 16 currentInode, name := strncpyName (cstr "..") }
  let p ← ofOption (t.getProcByPID (inum / 700))
  entry 2 { inum := BitVec.ofNat 16 (10 + inum), name := strncpyName (cstr "status") }
  entry 3 { inum := BitVec.ofNat 16 (20 + inum), name := strncpyName (cstr "fdinfo") }
  match (t.proc p).cwd with
  | none => return 5 * DIRENTSZ
  | some ip =>
    entry 4 { inum := BitVec.ofNat 16 (icache ip).inum, name := strncpyName (cstr "cwd") }
    return 5 * DIRENTSZ

/-- The loop of `fdinfo` (`procfs.c:118-126`). -/
def fdinfoLoop (p : Proc) (inum : Nat) : List (Fin NOFILE) → Bytes DIRSIZ → Nat → Fmt Nat
  | [], _, index => return index
  | i :: is, name, index =>
    if p.ofile i = none then fdinfoLoop p inum is name index
    else do
      let name ← ofOption (itoaName i name)
      entry index { inum := BitVec.ofNat 16 (inum + i + 1), name := name }
      fdinfoLoop p inum is name (index + 1)

/-- `fdinfo` (`procfs.c:106-128`). -/
def fdinfo (t : Ptable) (inum : Nat) : Fmt Nat := do
  entry 0 { inum := BitVec.ofNat 16 inum, name := strncpyName (cstr ".") }
  entry 1 { inum := BitVec.ofInt 16 (inum - 20), name := strncpyName (cstr "..") }
  let p ← ofOption (Ptable.getProc (inum / 700))
  let index ← fdinfoLoop (t.proc p) inum (List.finRange NOFILE) (strncpyName (cstr "..")) 2
  return index * DIRENTSZ

/-- `status` (`procfs.c:92-104`). The size of the process is formatted in a buffer of its own. -/
def status (t : Ptable) (inum : Nat) : Fmt Nat := do
  let p ← ofOption (Ptable.getProc (inum / 700))
  let procstat := cstr (Ptable.getProcState (t.proc p))
  let sz ← ofOption (Xv6.itoa (t.proc p).sz.toInt)
  strncpy 0 (cstr "Status: ") 9
  append BUFFSIZE procstat (procstat.length + 1)
  append BUFFSIZE (cstr " Size: ") 8
  append BUFFSIZE sz (sz.length + 1)
  append BUFFSIZE (cstr "\n") 2
  strlen BUFFSIZE 0

/-- The line of `filesContent` about the access mode (`procfs.c:140-147`). -/
def appendFlags (f : File) : Fmt Unit :=
  if f.readable = true ∧ f.writable = true then append BUFFSIZE (cstr "RDWR") 5
  else if f.readable = false ∧ f.writable = true then append BUFFSIZE (cstr "RDONLY") 7
  else if f.readable = true ∧ f.writable = false then append BUFFSIZE (cstr "WRONLY") 7
  else append BUFFSIZE (cstr "no flags , sad so sad") 22

/-- The line about the inode number (`procfs.c:148-151`). -/
def appendInum (f : File) (icache : Fin NINODE → Inode) : Fmt Unit := do
  if f.type = .inode then
    append BUFFSIZE (cstr "\nINODE NUMBER: ") 16
    let ip ← ofOption f.ip
    appendItoa BUFFSIZE (BitVec.ofNat 32 (icache ip).inum).toInt
  else
    return ()

/-- The part of `filesContent` behind the first label (`procfs.c:136-155`). -/
def fileLines (f : File) (icache : Fin NINODE → Inode) : Fmt Nat := do
  append BUFFSIZE (cstr (fileType f)) ((cstr (fileType f)).length + 1)
  append BUFFSIZE (cstr "\nPOSITION: ") 12
  appendItoa BUFFSIZE (BitVec.ofNat 32 f.off).toInt
  append BUFFSIZE (cstr "\nflags: ") 9
  appendFlags f
  appendInum f icache
  append BUFFSIZE (cstr "\nREFERENCE COUNT: ") 19
  let ip ← ofOption f.ip
  appendItoa BUFFSIZE (icache ip).ref
  append BUFFSIZE (cstr "\n") 3
  strlen BUFFSIZE 0

/-- `filesContent` (`procfs.c:130-156`). -/
def filesContent (t : Ptable) (ftable : Fin NFILE → File) (icache : Fin NINODE → Inode)
    (inum : Nat) : Fmt Nat := do
  let p ← ofOption (Ptable.getProc (inum / 700))
  strncpy 0 (cstr "TYPE: ") 7
  let slot ← ofOption (ofileAt (t.proc p) inum)
  fileLines (ftable slot) icache

/-- Four numbers, three of them with a label, as `blockstat` and `inodestat` write them. Every copy is
one byte longer than its label. -/
def counters (first second third : List UInt8) (w x y z : Int) : Fmt Nat := do
  strncpy 0 first (first.length + 1)
  appendItoa BUFFSIZE w
  append BUFFSIZE second (second.length + 1)
  appendItoa BUFFSIZE x
  append BUFFSIZE third (third.length + 1)
  appendItoa BUFFSIZE y
  append BUFFSIZE (cstr "/") 2
  appendItoa BUFFSIZE z
  append BUFFSIZE (cstr "\n") 3
  strlen BUFFSIZE 0

/-- `blockstat` (`procfs.c:168-179`). -/
def blockstat (c : Bcache) : Fmt Nat :=
  counters (cstr "Free blocks: ") (cstr "\nTotal blocks: ") (cstr "\nHits ratio: ")
    c.freeBlockNumber NBUF c.numberOfHits c.numberOfBlockAcsses

/-- `inodestat` (`procfs.c:181-192`). -/
def inodestat (icache : Fin NINODE → Inode) : Fmt Nat :=
  counters (cstr "Free inodes: ") (cstr "\nValid inode: ") (cstr "\nRefs per inode: ")
    (getNumberOfFreeInode icache) (numberOfValidInode icache) (getNumberOfRef icache)
    (getNumberOfActiveInode icache)

/-- The `switch` of `procfsread` (`procfs.c:223-253`), with the size it leaves. -/
def content (k : Kernel) (inum : Nat) : Fmt Nat :=
  match command inum with
  | .proc => initProc k.ptable inum
  | .pid => initPID k.ptable k.icache k.currentInode inum
  | .status => status k.ptable inum
  | .fdinfo => fdinfo k.ptable inum
  | .blockstat => blockstat k.store.bcache
  | .inodestat => inodestat k.icache
  | .fd => filesContent k.ptable k.ftable k.icache inum
  | .nothing => return 0

/-! ## Texts -/

/-- The longest text. -/
def LINE : Nat := 130

section

variable {b : Buffer} {t : Ptable} {inum : Nat} {ftable : Fin NFILE → File}
  {icache : Fin NINODE → Inode} {f : File} {s : List UInt8} {n l : Nat}

/-- `x` leaves the text, or stops where the source is undefined; either way it stays at the start of
the buffer. -/
def Writes (x : Fmt Nat) (text : Option (List UInt8)) (b : Buffer) : Prop :=
  Ends x b (fun n c => ∃ w, text = some w ∧ n = w.length ∧ w.length ≤ LINE ∧ Holds w c)
    fun c => text = none ∧ c.top ≤ LINE + 3

theorem adds_literal (hs : (0 : UInt8) ∉ s) (hn : s.length < n ∧ n ≤ s.length + 3)
    (hk : s.length ≤ l) : Adds LINE (append BUFFSIZE s n) (some s) l :=
  (adds_append hs (by decide) hn).mono hk

theorem adds_number {x : Int} : Adds LINE (appendItoa BUFFSIZE x) (Xv6.itoa x) 10 :=
  adds_itoa (by decide)

theorem prints_strlen : Prints LINE (strlen BUFFSIZE 0) (some []) 0 := by
  intro w b hw hb
  have hroom : LINE < BUFFSIZE := by decide
  have hrun : strlen BUFFSIZE 0 b = (some w.length, b) := strlen_run hb.text (by omega)
  refine ends_of_run hrun (fun k hk => ⟨[], rfl, le_rfl, ?_⟩) (by simp)
  rw [append_nil]
  exact ⟨(Option.some.inj hk).symm, hb⟩

variable {x : Fmt Nat} {text : Option (List UInt8)} {ds : List Dirent} {d : Dirent} {i : Nat}
    {α : Type} {Q : α → Buffer → Prop} {E : Buffer → Prop} {w : List UInt8}

theorem writes_first {u : Option (List UInt8)} (hs : (0 : UInt8) ∉ s)
    (hn : s.length < n ∧ n ≤ s.length + 3) (hb : b.top = 0) (hx : Prints LINE x u l)
    (hl : s.length + l ≤ LINE) (htext : u.map (s ++ ·) = text) :
    Writes (strncpy 0 s n >>= fun _ => x) text b := by
  subst htext
  refine Ends.bind (Ends.mono (strncpy_holds hs hn hb) (fun _ _ h => h) fun _ h => h.elim) ?_
  intro _ c hc
  refine Ends.mono (hx s c hl hc) ?_ ?_
  · rintro k d ⟨w, rfl, hw, hk, hd⟩
    refine ⟨s ++ w, rfl, hk, ?_, hd⟩
    simp only [length_append]
    omega
  · rintro d ⟨rfl, htop⟩
    exact ⟨rfl, by omega⟩

theorem getProcState_plain (p : Proc) : (0 : UInt8) ∉ cstr (Ptable.getProcState p) ∧
    (cstr (Ptable.getProcState p)).length ≤ 8 := by
  unfold Ptable.getProcState
  cases p.state <;> decide

theorem fileType_plain (f : File) :
    (0 : UInt8) ∉ cstr (fileType f) ∧ (cstr (fileType f)).length ≤ 8 := by
  unfold fileType
  cases f.type <;> decide

theorem status_writes (hb : b.top = 0) : Writes (status t inum) (Xv6.status t inum) b := by
  unfold status
  refine ends_ofOption_bind (fun p hp => ?_) fun hnone => ⟨by simp [Xv6.status, hnone], by omega⟩
  refine ends_ofOption_bind (fun sz hsz => ?_)
    fun hnone => ⟨by simp [Xv6.status, hp, hnone], by omega⟩
  obtain ⟨hsplain, hslen⟩ := getProcState_plain (t.proc p)
  obtain ⟨hzplain, hzlen⟩ := itoa_plain hsz
  refine writes_first (l := 26) (by decide) (by decide) hb
    ((adds_literal hsplain (by omega) hslen).prints <|
      (adds_literal (l := 7) (by decide) (by decide) (by decide)).prints <|
      (adds_literal hzplain (by omega) hzlen).prints <|
      (adds_literal (l := 1) (by decide) (by decide) (by decide)).prints prints_strlen) (by decide) ?_
  simp [Xv6.status, hp, hsz]

theorem adds_flags (f : File) : Adds LINE (appendFlags f) (some (flagsText f)) 21 := by
  unfold appendFlags flagsText
  split
  · exact adds_literal (by decide) (by decide) (by decide)
  · split
    · exact adds_literal (by decide) (by decide) (by decide)
    · split
      · exact adds_literal (by decide) (by decide) (by decide)
      · exact adds_literal (by decide) (by decide) (by decide)

theorem adds_inum (f : File) (icache : Fin NINODE → Inode) :
    Adds LINE (appendInum f icache) (inumText f icache) 25 := by
  unfold appendInum inumText
  split
  · have hnumber := adds_ofOption_bind (o := f.ip)
      fun ip _ => adds_number (x := (BitVec.ofNat 32 (icache ip).inum).toInt)
    have hline := (adds_literal (s := cstr "\nINODE NUMBER: ") (n := 16) (l := 15) (by decide)
      (by decide) (by decide)).bind hnumber
    refine Eq.mp ?_ hline
    cases f.ip <;> rfl
  · exact adds_pure

theorem fileLines_prints : Prints LINE (fileLines f icache) (linesText f icache) 112 := by
  have htype := fileType_plain f
  have hprints :=
    (adds_literal htype.1 (n := (cstr (fileType f)).length + 1) (by omega) htype.2).prints <|
    (adds_literal (s := cstr "\nPOSITION: ") (n := 12) (l := 11) (by decide) (by decide)
      (by decide)).prints <|
    (adds_number (x := (BitVec.ofNat 32 f.off).toInt)).prints <|
    (adds_literal (s := cstr "\nflags: ") (n := 9) (l := 8) (by decide) (by decide)
      (by decide)).prints <|
    (adds_flags f).prints <| (adds_inum f icache).prints <|
    (adds_literal (s := cstr "\nREFERENCE COUNT: ") (n := 19) (l := 18) (by decide) (by decide)
      (by decide)).prints <|
    prints_ofOption_bind (o := f.ip) fun ip _ => (adds_number (x := (icache ip).ref)).prints <|
    (adds_literal (s := cstr "\n") (n := 3) (l := 1) (by decide) (by decide)
      (by decide)).prints prints_strlen
  refine Eq.mp (congrArg (fun u => Prints LINE (fileLines f icache) u 112) ?_) hprints
  unfold linesText
  cases Xv6.itoa (BitVec.ofNat 32 f.off).toInt <;> cases f.ip <;> cases inumText f icache <;> simp

theorem filesContent_writes (hb : b.top = 0) : Writes (filesContent t ftable icache inum)
    (Xv6.filesContent t ftable icache inum) b := by
  unfold filesContent
  refine ends_ofOption_bind (fun p hp => ?_)
    fun hnone => ⟨by simp [filesContent_eq, openSlot, hnone], by omega⟩
  apply writes_first (l := 112) (by decide) (by decide) hb
    (prints_ofOption_bind fun slot _ => fileLines_prints) (by decide)
  rw [filesContent_eq, openSlot, hp, Option.bind_some]
  cases ofileAt (t.proc p) inum <;> rfl

/-- A label of `counters`. -/
abbrev Label (s : List UInt8) : Prop := (0 : UInt8) ∉ s ∧ s.length ≤ 17

theorem counters_writes {first second third : List UInt8} {w x y z : Int} (hb : b.top = 0)
    (h1 : Label first) (h2 : Label second)
    (h3 : Label third)
    (htext : text = (do
      let w ← Xv6.itoa w
      let x ← Xv6.itoa x
      let y ← Xv6.itoa y
      let z ← Xv6.itoa z
      return first ++ w ++ second ++ x ++ third ++ y ++ cstr "/" ++ z ++ cstr "\n")) :
    Writes (counters first second third w x y z) text b := by
  have hlen := h1.2
  refine writes_first (l := 76) h1.1 (by omega) hb
    (adds_number.prints <|
      (adds_literal h2.1 (by omega) h2.2).prints <|
      adds_number.prints <|
      (adds_literal h3.1 (by omega) h3.2).prints <|
      adds_number.prints <|
      (adds_literal (l := 1) (by decide) (by decide) (by decide)).prints <|
      adds_number.prints <|
      (adds_literal (l := 1) (by decide) (by decide) (by decide)).prints prints_strlen)
    (by unfold LINE; omega) ?_
  rw [htext]
  cases Xv6.itoa w <;> cases Xv6.itoa x <;> cases Xv6.itoa y <;> cases Xv6.itoa z <;> simp

theorem blockstat_writes {c : Bcache} (hb : b.top = 0) :
    Writes (blockstat c) (Xv6.blockstat c) b :=
  counters_writes hb (by decide) (by decide) (by decide) rfl

theorem inodestat_writes (hb : b.top = 0) : Writes (inodestat icache) (Xv6.inodestat icache) b :=
  counters_writes hb (by decide) (by decide) (by decide) rfl

/-! ## Directories -/

/-- The buffer with entries from its start on. -/
def listed (b : Buffer) (ds : List Dirent) : Buffer := b.store 0 (ds.flatMap Dirent.bytes)

theorem listed_top (hb : b.top = 0) : (listed b ds).top = DIRENTSZ * ds.length := by
  cases ds with
  | nil => exact hb
  | cons d ds =>
    have hne : (d :: ds).flatMap Dirent.bytes ≠ [] := by
      apply ne_nil_of_length_pos
      rw [Dirent.length_flatMap_bytes, length_cons]
      unfold DIRENTSZ
      omega
    rw [listed, Buffer.store_top hne, Dirent.length_flatMap_bytes, hb]
    omega

theorem entry_run (hi : i = ds.length) :
    entry i d (listed b ds) = (some (), listed b (ds ++ [d])) := by
  unfold entry memmove listed
  rw [flatMap_append, Buffer.store_append, Dirent.length_flatMap_bytes, flatMap_singleton,
    Nat.zero_add, hi]

theorem ends_entry {x : Fmt α} (hi : i = ds.length) (hx : Ends x (listed b (ds ++ [d])) Q E) :
    Ends (entry i d >>= fun _ => x) (listed b ds) Q E := by
  unfold Ends at hx ⊢
  rwa [bind_run (entry_run hi)]

theorem ends_first {x : Fmt α} (hx : Ends x (listed b [d]) Q E) : Ends
    (entry 0 d >>= fun _ => x) b Q E :=
  show Ends _ (listed b []) Q E from ends_entry rfl hx

/-- `x` puts the entries into the buffer behind those that are there, and returns the number of all.
If it stops it has put at most `n` there. -/
def Lists (x : Fmt Nat) (ds : List Dirent) (listing : Option (List Dirent)) (n : Nat) (b : Buffer) :
    Prop :=
  Ends x (listed b ds)
    (fun k c => ∃ es, listing = some es ∧ k = (ds ++ es).length ∧ c = listed b (ds ++ es))
    fun c => listing = none ∧ ∃ es, es.length ≤ n ∧ c = listed b (ds ++ es)

theorem lists_nil : Lists (pure ds.length) ds (some []) n b := by
  refine ends_pure ⟨[], rfl, ?_⟩
  rw [append_nil]
  exact ⟨rfl, rfl⟩

/-- One more entry, with a name that `itoa` makes. -/
theorem lists_cons {x : Bytes DIRSIZ → Fmt Nat} {o : Option (Bytes DIRSIZ)}
    {mk : Bytes DIRSIZ → Dirent} {rest : Bytes DIRSIZ → Option (List Dirent)} (hi : i = ds.length)
    (hx : ∀ name, o = some name → Lists (x name) (ds ++ [mk name]) (rest name) n b) :
    Lists (do let name ← ofOption o; entry i (mk name); x name) ds
      (do let name ← o; let es ← rest name; return mk name :: es) (n + 1) b := by
  refine ends_ofOption_bind (fun name hname => ends_entry hi ?_) fun hnone => ?_
  · refine Ends.mono (hx name hname) ?_ ?_
    · rintro k c ⟨es, hes, hk, hc⟩
      refine ⟨mk name :: es, by simp [hname, hes], ?_⟩
      rw [append_assoc] at hk hc
      exact ⟨hk, hc⟩
    · rintro c ⟨hnone, es, hes, hc⟩
      refine ⟨by simp [hname, hnone], mk name :: es, Nat.succ_le_succ hes, ?_⟩
      rwa [append_assoc] at hc
  · exact ⟨by rw [hnone]; rfl, [], Nat.zero_le _, by rw [append_nil]⟩

theorem initProcLoop_lists : ∀ (ks : List (Fin NPROC)) (name : Bytes DIRSIZ) (ds : List Dirent)
    (i : Nat), i = ds.length → Lists (initProcLoop t ks name i) ds (Xv6.initProcLoop t ks name)
      (ks.countP fun k => decide ((t.proc k).state ≠ .unused)) b
  | [], _, _, _, hi => hi ▸ lists_nil
  | k :: ks, name, ds, i, hi => by
    unfold initProcLoop Xv6.initProcLoop
    by_cases hk : (t.proc k).state = .unused
    · rw [if_pos hk, if_pos hk, countP_cons_of_neg (by simp [hk])]
      exact initProcLoop_lists ks name ds i hi
    · rw [if_neg hk, if_neg hk, countP_cons_of_pos (by simp [hk])]
      exact lists_cons hi fun name' _ => initProcLoop_lists ks name' _ _ (by simp [hi])

theorem fdinfoLoop_lists {p : Proc} : ∀ (is : List (Fin NOFILE)) (name : Bytes DIRSIZ)
    (ds : List Dirent) (j : Nat), j = ds.length → Lists (fdinfoLoop p inum is name j) ds
      (Xv6.fdinfoLoop p inum is name) is.length b
  | [], _, _, _, hj => hj ▸ lists_nil
  | i :: is, name, ds, j, hj => by
    unfold fdinfoLoop Xv6.fdinfoLoop
    by_cases hi : p.ofile i = none
    · rw [if_pos hi, if_pos hi]
      apply Ends.mono (fdinfoLoop_lists is name ds j hj) (fun _ _ h => h)
      rintro c ⟨hnone, es, hes, hc⟩
      exact ⟨hnone, es, Nat.le_succ_of_le hes, hc⟩
    · rw [if_neg hi, if_neg hi]
      exact lists_cons hj fun name' _ => fdinfoLoop_lists is name' _ _ (by simp [hj])

/-- The slots in use. -/
def inUse (t : Ptable) : Nat :=
  (List.finRange NPROC).countP fun k => decide ((t.proc k).state ≠ .unused)

/-- What a directory leaves in the buffer. -/
def Shows (x : Fmt Nat) (listing : Option (List Dirent)) (n : Nat) (b : Buffer) : Prop :=
  Ends x b (fun k c => ∃ ds, listing = some ds ∧ k = DIRENTSZ * ds.length ∧ c = listed b ds)
    fun c => listing = none ∧ ∃ ds, ds.length ≤ n ∧ c = listed b ds

theorem initProc_shows : Shows (initProc t inum) (Xv6.initProc t inum) (4 + inUse t) b := by
  unfold initProc
  refine ends_first <| ends_entry rfl <| ends_entry rfl <| ends_entry rfl ?_
  refine Ends.bind (Ends.mono (initProcLoop_lists _ _ _ 4 rfl) (fun _ _ h => h) ?_) ?_
  · rintro c ⟨hnone, es, hes, hc⟩
    refine ⟨by simp [Xv6.initProc, hnone], _, ?_, hc⟩
    simp only [length_append, length_singleton, inUse]
    omega
  · rintro k c ⟨es, hes, hk, hc⟩
    exact ends_pure ⟨_, by simp [Xv6.initProc, hes], by rw [hk, Nat.mul_comm], hc⟩

theorem fdinfo_shows : Shows (fdinfo t inum) (Xv6.fdinfo t inum) 18 b := by
  unfold fdinfo
  refine ends_first <| ends_entry rfl ?_
  refine ends_ofOption_bind (fun p hp => ?_) fun hnone =>
    ⟨by simp [Xv6.fdinfo, hnone], _, by simp, rfl⟩
  refine Ends.bind (Ends.mono (fdinfoLoop_lists _ _ _ 2 rfl) (fun _ _ h => h) ?_) ?_
  · rintro c ⟨hnone, es, hes, hc⟩
    refine ⟨by simp [Xv6.fdinfo, hp, hnone], _, ?_, hc⟩
    simp only [length_finRange, NOFILE] at hes
    simp
    omega
  · rintro k c ⟨es, hes, hk, hc⟩
    exact ends_pure ⟨_, by simp [Xv6.fdinfo, hp, hes], by rw [hk, Nat.mul_comm], hc⟩

theorem initPID_shows {currentInode : Nat} :
    Ends (initPID t icache currentInode inum) b
      (fun k c => ∃ ds, Xv6.initPID t icache currentInode inum = some ds ∧ 4 ≤ ds.length ∧
        ds.length ≤ 5 ∧ k = 5 * DIRENTSZ ∧ c = listed b ds)
      fun c => Xv6.initPID t icache currentInode inum = none ∧ ∃ ds, ds.length ≤ 2 ∧
        c = listed b ds := by
  unfold initPID
  refine ends_first <| ends_entry rfl ?_
  refine ends_ofOption_bind (fun p hp => ?_) fun hnone =>
    ⟨by simp [Xv6.initPID, hnone], _, by simp, rfl⟩
  refine ends_entry rfl <| ends_entry rfl ?_
  cases hcwd : (t.proc p).cwd with
  | none => exact ends_pure ⟨_, by simp [Xv6.initPID, hp, hcwd], by simp, by simp, rfl, rfl⟩
  | some ip =>
    exact ends_entry rfl
      (ends_pure ⟨_, by simp [Xv6.initPID, hp, hcwd], by simp, by simp, rfl, rfl⟩)

/-! ## All of them -/

theorem direntBytes_eq (ds : List Dirent) :
    direntBytes ds = (ds.flatMap Dirent.bytes).map some := by
  rw [direntBytes, map_flatMap]

/-- The first bytes of the buffer are those of the contents, and what was there where they have no
value. -/
def Reads (junk : Nat → UInt8) (bs : List (Option UInt8)) (size : Nat) (b : Buffer) : Prop :=
  size = bs.length ∧ ∀ i < size, b.byte i = (bs.getD i none).getD (junk i)

variable {junk : Nat → UInt8}

theorem reads_map (h : ∀ i < w.length, b.byte i = w.getD i 0) :
    Reads junk (w.map some) w.length b := by
  refine ⟨by simp, fun i hi => ?_⟩
  rw [h i hi, getD_eq_getElem _ _ hi, getD_eq_getElem _ _ (by simpa using hi)]
  simp

theorem reads_append {n : Nat} (h : ∀ i < w.length, b.byte i = w.getD i 0)
    (hrest : ∀ i, w.length ≤ i → b.byte i = junk i) :
    Reads junk (w.map some ++ List.replicate n none) (w.length + n) b := by
  refine ⟨by simp, fun i hi => ?_⟩
  by_cases hlt : i < w.length
  · rw [getD_append _ _ _ _ (by simpa using hlt)]
    exact (reads_map h).2 i hlt
  · rw [hrest i (by omega), getD_append_right _ _ _ _ (by simp; omega)]
    rw [getD_eq_getElem _ _ (by simp; omega), getElem_replicate]
    rfl

theorem Reads.take {bs : List (Option UInt8)} {size n : Nat} (h : Reads junk bs size b)
    (hn : n ≤ size) : Reads junk (bs.take n) n b := by
  refine ⟨by rw [length_take, ← h.1, min_eq_left hn], fun i hi => ?_⟩
  rw [h.2 i (by omega), getD_eq_getElem?_getD, getD_eq_getElem?_getD,
    getElem?_take_of_lt hi]

theorem Writes.reads (h : Writes x text b) :
    Ends x b (fun size c => ∃ bs, text.map (List.map some) = some bs ∧ Reads junk bs size c)
      fun _ => text.map (List.map some) = none := by
  refine Ends.mono h ?_ ?_
  · rintro size c ⟨w, rfl, rfl, -, hw⟩
    refine ⟨w.map some, rfl, reads_map fun i hi => ?_⟩
    have := hw.text.chars i hi.le
    rwa [Nat.zero_add] at this
  · rintro c ⟨rfl, -⟩
    rfl

theorem listed_byte (hi : i < (ds.flatMap Dirent.bytes).length) :
    (listed b ds).byte i = (ds.flatMap Dirent.bytes).getD i 0 := by
  have := Buffer.store_byte_add (b := b) (i := 0) hi
  rwa [Nat.zero_add] at this

theorem listed_byte_of_le (hi : (ds.flatMap Dirent.bytes).length ≤ i) :
    (listed b ds).byte i = b.byte i := by
  rw [listed, Buffer.store_byte, if_neg (by omega)]

theorem Shows.reads {listing : Option (List Dirent)} (h : Shows x listing n b) :
    Ends x b (fun size c => ∃ bs, listing.map direntBytes = some bs ∧ Reads junk bs size c)
      fun _ => listing.map direntBytes = none := by
  refine Ends.mono h ?_ ?_
  · rintro size c ⟨ds, rfl, rfl, rfl⟩
    refine ⟨_, rfl, ?_⟩
    rw [direntBytes_eq, ← Dirent.length_flatMap_bytes]
    exact reads_map fun i hi => listed_byte hi
  · rintro c ⟨rfl, -⟩
    rfl

/-- What the formatters leave in the buffer is what `procfsContent` says. -/
theorem content_reads (k : Kernel) (inum : Nat) (junk : Nat → UInt8) :
    Ends (content k inum) (.fresh junk)
      (fun size c => ∃ bs, procfsContent k inum = some bs ∧ Reads junk bs size c)
      fun _ => procfsContent k inum = none := by
  unfold content procfsContent
  cases command inum with
  | proc => exact initProc_shows.reads
  | status => exact (status_writes rfl).reads
  | fdinfo => exact fdinfo_shows.reads
  | blockstat => exact (blockstat_writes rfl).reads
  | inodestat => exact (inodestat_writes rfl).reads
  | fd => exact (filesContent_writes rfl).reads
  | nothing => exact ends_pure ⟨[], rfl, rfl, by simp⟩
  | pid =>
    refine Ends.mono initPID_shows ?_ ?_
    · rintro size c ⟨ds, hds, h4, h5, rfl, rfl⟩
      rw [hds]
      refine ⟨_, rfl, ?_⟩
      beta_reduce
      rw [direntBytes_eq]
      refine Reads.take (reads_append (fun i hi => listed_byte hi) fun i hi => ?_) ?_
      · exact listed_byte_of_le hi
      · rw [Dirent.length_flatMap_bytes]
        unfold DIRENTSZ
        omega
    · rintro c ⟨hnone, -⟩
      rw [hnone]
      rfl

end

end Xv6.Format
