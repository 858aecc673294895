import Mathlib.Data.List.TakeWhile
import Xv6.User.Ulib

/-!
# Listing the open files

`main` of `lsof.c:39-66`. The files below `/proc` are a function from paths to texts, which does not
change while `lsof` runs. What is printed is the list of the outputs of `printf`.
-/

namespace Xv6.Lsof

open Lib Cstring Fmt List

/-- The five calls that put the path together (`lsof.c:47-51`). The last one copies
`strlen("\0 ")`, no bytes. -/
def makePath (i j : Nat) : Fmt Unit := do
  strncpy 0 (cstr "/proc/") 7
  appendItoa 100 i
  append 100 (cstr "/fdinfo/") 9
  appendItoa 100 j
  append 100 [] 0

/-- The string in `path` after these calls, and the bytes of `path`. -/
def nextPath (path : Nat → UInt8) (i j : Nat) : Option (List UInt8 × (Nat → UInt8)) :=
  match (makePath i j >>= fun _ => strlen 100 0) (.fresh path) with
  | (some n, b) => some ((List.range n).map b.byte, b.byte)
  | (none, _) => none

/-- The text that `%s` prints; `none` if no zero is found in the buffer. -/
def printed (buffer : List UInt8) : Option (List UInt8) :=
  if 0 ∈ buffer then some (buffer.takeWhile (· ≠ 0)) else none

/-- `read(fd, buffer, 200)` of the bytes `t`. -/
def readInto (buffer t : List UInt8) : List UInt8 := t ++ buffer.drop t.length

abbrev Files := List UInt8 → Option (List UInt8)

/-- The bytes that are read from a file. -/
def Files.read (fs : Files) (p : List UInt8) : Option (List UInt8) := (fs p).map (List.take 200)

/-- The loops (`lsof.c:45-63`) over the pairs that are left. A file that `stat` has found can be
opened. -/
def loop (fs : Files) : List (Nat × Nat) → (Nat → UInt8) → List UInt8 → Option (List (List UInt8))
  | [], _, _ => some []
  | (i, j) :: rest, path, buffer => do
    let (p, path) ← nextPath path i j
    let head := cstr "the path is: " ++ p ++ cstr "\n"
    match fs.read p with
    | none => (loop fs rest path buffer).map (head :: ·)
    | some t =>
      let line ← printed (readInto buffer t)
      (loop fs rest path (readInto buffer t)).map (head :: (line ++ cstr "\n") :: ·)

/-- The pairs of the two loops. -/
def visited : List (Nat × Nat) :=
  (List.range 64).flatMap fun i => (List.range 16).map fun j => (i + 1, j)

def main (fs : Files) (path : Nat → UInt8) (buffer : List UInt8) : Option (List (List UInt8)) :=
  loop fs visited path buffer

/-! ## The paths -/

/-- `/proc/<pid>/fdinfo/<fd>` -/
def name (pid fd : Nat) : List UInt8 :=
  cstr "/proc/" ++ (decimal pid ++ (cstr "/fdinfo/" ++ decimal fd))

/-- The bytes read for a pair. -/
def Files.text (fs : Files) (x : Nat × Nat) : Option (List UInt8) := fs.read (name x.1 x.2)

section

variable {fs : Files} {path : Nat → UInt8} {i j : Nat} {t u buffer : List UInt8}
  {ts : List (List UInt8)} {rest : List (Nat × Nat)}

theorem makePath_ends (path : Nat → UInt8) (hi : i < 10 ^ 10) (hj : j < 10 ^ 10) :
    Ends (makePath i j) (.fresh path) (fun _ c => Holds (name i j) c) fun _ => False := by
  have hadds : Adds 99 (appendItoa 100 i >>= fun _ => append 100 (cstr "/fdinfo/") 9 >>= fun _ =>
      appendItoa 100 j >>= fun _ => append 100 [] 0) _ 28 :=
    (adds_itoa (by decide)).bind <| (adds_append (by decide) (by decide) (by decide)).bind <|
      (adds_itoa (by decide)).bind (k := 0) (v := some []) ?_
  · refine Ends.bind (strncpy_holds (by decide) (by decide) rfl) fun _ b hb => ?_
    refine Ends.mono (hadds.2 _ b (by decide) hb) ?_ ?_
    · rintro _ c ⟨w, hw, hc⟩
      rw [itoa_eq_decimal hi, itoa_eq_decimal hj] at hw
      cases hw
      simpa only [name, append_nil] using hc
    · rintro c ⟨hw, -⟩
      rw [itoa_eq_decimal hi, itoa_eq_decimal hj] at hw
      cases hw
  · refine ⟨by simp, fun t b hroom hb => ?_⟩
    have hrun : append 100 [] 0 b = (some (), b) := by
      unfold append
      rw [bind_run (strlen_run hb.text (by omega))]
      exact strncpy_run [] 0
    exact ends_of_run hrun (fun _ _ => ⟨[], rfl, by rwa [append_nil]⟩) (by simp)

theorem nextPath_eq (path : Nat → UInt8) (hi : i < 10 ^ 10) (hj : j < 10 ^ 10) :
    ∃ path', nextPath path i j = some (name i j, path') := by
  have hmake := makePath_ends path hi hj
  unfold Ends at hmake
  rcases hrun : makePath i j (.fresh path) with ⟨_ | _, b⟩
  · rw [hrun] at hmake
    exact hmake.elim
  · rw [hrun] at hmake
    have hshort : (name i j).length < 100 := by
      have h1 := (itoa_plain (itoa_eq_decimal hi)).2
      have h2 := (itoa_plain (itoa_eq_decimal hj)).2
      have h3 : (cstr "/proc/").length = 6 ∧ (cstr "/fdinfo/").length = 8 := by decide
      simp only [name, length_append]
      omega
    rw [nextPath, bind_run hrun, strlen_run hmake.text (by omega)]
    refine ⟨b.byte, congrArg (fun n => some (n, b.byte)) ?_⟩
    apply ext_getElem (by simp)
    intro k hk hk'
    have hbyte := hmake.text.chars k hk'.le
    rw [Nat.zero_add, getD_eq_getElem _ _ hk'] at hbyte
    simpa using hbyte

/-! ## The texts -/

theorem takeWhile_plain (h : (0 : UInt8) ∉ t) (r : List UInt8) :
    (t ++ r).takeWhile (· ≠ 0) = t ++ r.takeWhile (· ≠ 0) := by
  apply takeWhile_append_of_pos
  intro c hc
  have hne : c ≠ 0 := fun h0 => h (h0 ▸ hc)
  simpa using hne

theorem printed_readInto :
    printed (readInto buffer t) = some t ↔ (0 : UInt8) ∉ t ∧ buffer[t.length]? = some 0 := by
  rw [← head?_drop, readInto, printed]
  generalize buffer.drop t.length = r
  constructor
  · intro h
    rw [Option.ite_none_right_eq_some] at h
    have htake := Option.some.inj h.2
    have hplain : (0 : UInt8) ∉ t := by
      intro hmem
      rw [← htake] at hmem
      simpa using mem_takeWhile_imp hmem
    rw [takeWhile_plain hplain, append_right_eq_self] at htake
    refine ⟨hplain, ?_⟩
    cases r with
    | nil => simp [hplain] at h
    | cons c r =>
      rw [takeWhile_cons] at htake
      by_contra hc
      simp_all
  · rintro ⟨hplain, hr⟩
    obtain ⟨r', rfl⟩ := head?_eq_some_iff.mp hr
    rw [if_pos (by simp), takeWhile_plain hplain]
    simp

/-- Every text is without zeros and no shorter than those before it, and behind its end the buffer
held a zero when `lsof` began. -/
def Shown (buffer : List UInt8) (ts : List (List UInt8)) : Prop :=
  ts.Pairwise (fun t u => t.length ≤ u.length) ∧
    ∀ t ∈ ts, (0 : UInt8) ∉ t ∧ buffer[t.length]? = some 0

/-- A text that has been read is what later ones are printed over. -/
theorem shown_cons : Shown buffer (t :: ts) ↔
    ((0 : UInt8) ∉ t ∧ buffer[t.length]? = some 0) ∧ Shown (readInto buffer t) ts := by
  have hafter : (0 : UInt8) ∉ t → ∀ u : List UInt8, (readInto buffer t)[u.length]? = some 0 ↔
      t.length ≤ u.length ∧ buffer[u.length]? = some 0 := by
    intro hplain u
    rw [readInto, getElem?_append]
    split
    · rename_i hlt
      rw [getElem?_eq_getElem hlt, Option.some.injEq]
      refine iff_of_false (fun h0 => hplain (h0 ▸ getElem_mem hlt)) fun h => ?_
      omega
    · rename_i hle
      rw [getElem?_drop, Nat.add_sub_cancel' (Nat.le_of_not_lt hle), and_iff_right (by omega)]
  simp only [Shown, pairwise_cons, forall_mem_cons]
  constructor
  · rintro ⟨⟨hfirst, hpair⟩, ht, hall⟩
    exact ⟨ht, hpair, fun u hu => ⟨(hall u hu).1, (hafter ht.1 u).mpr ⟨hfirst u hu, (hall u hu).2⟩⟩⟩
  · rintro ⟨ht, hpair, hall⟩
    refine ⟨⟨fun u hu => ((hafter ht.1 u).mp (hall u hu).2).1, hpair⟩, ht, fun u hu => ?_⟩
    exact ⟨(hall u hu).1, ((hafter ht.1 u).mp (hall u hu).2).2⟩

/-- What is to be printed for a pair: the path, and the bytes read if the file exists. -/
def lines (fs : Files) (x : Nat × Nat) : List (List UInt8) :=
  (cstr "the path is: " ++ name x.1 x.2 ++ cstr "\n") ::
    ((fs.text x).map (· ++ cstr "\n")).toList

theorem loop_eq_iff (hsmall : ∀ x ∈ rest, x.1 < 10 ^ 10 ∧ x.2 < 10 ^ 10) :
    loop fs rest path buffer = some (rest.flatMap (lines fs)) ↔
      Shown buffer (rest.filterMap fs.text) := by
  induction rest generalizing path buffer with
  | nil => exact iff_of_true rfl ⟨.nil, by simp⟩
  | cons x rest ih =>
    obtain ⟨hx, hrest⟩ := forall_mem_cons.mp hsmall
    obtain ⟨path', hpath⟩ := nextPath_eq path hx.1 hx.2
    rw [loop, hpath, flatMap_cons, lines]
    simp only [Option.bind_eq_bind, Option.bind_some]
    cases htext : fs.text x with
    | none =>
      rw [show fs.read (name x.1 x.2) = none from htext, filterMap_cons_none htext,
        ← @ih path' buffer hrest]
      simp
    | some t =>
      rw [show fs.read (name x.1 x.2) = some t from htext, filterMap_cons_some htext, shown_cons,
        ← printed_readInto, ← @ih path' _ hrest]
      simp only
      cases printed (readInto buffer t) with
      | none => simp
      | some line => simp [and_comm]

theorem mem_visited : (i, j) ∈ visited ↔ (1 ≤ i ∧ i ≤ 64) ∧ j < 16 := by
  simp only [visited, mem_flatMap, mem_range, mem_map, Prod.mk.injEq]
  constructor
  · rintro ⟨k, hk, l, hl, rfl, rfl⟩
    omega
  · rintro ⟨hi, hj⟩
    exact ⟨i - 1, by omega, j, hj, by omega, rfl⟩

theorem visited_small : ∀ x ∈ visited, x.1 < 10 ^ 10 ∧ x.2 < 10 ^ 10 := by
  rintro ⟨i, j⟩ h
  have := mem_visited.mp h
  simp only
  omega

end

/-- `lsof` prints the bytes of each file that it opens and visits all open files just if the texts
it reads can be shown over one another and no process has a number above 64. -/
theorem main_prints_iff (fs : Files) (path : Nat → UInt8) (buffer : List UInt8) :
    (main fs path buffer = some (visited.flatMap (lines fs)) ∧
      ∀ pid fd, fd < NOFILE → fs (name pid fd) ≠ none → (pid, fd) ∈ visited) ↔
    Shown buffer (visited.filterMap fs.text) ∧
      ∀ pid fd, fd < NOFILE → fs (name pid fd) ≠ none → 1 ≤ pid ∧ pid ≤ 64 := by
  apply and_congr (loop_eq_iff visited_small)
  constructor
  · intro h pid fd hfd hopen
    exact (mem_visited.mp (h pid fd hfd hopen)).1
  · intro h pid fd hfd hopen
    exact mem_visited.mpr ⟨h pid fd hfd hopen, hfd⟩

/-- A process with two open files; the second text is shorter. -/
def twoFiles : Files := fun p =>
  if p = name 1 0 then some (cstr "ab") else if p = name 1 1 then some (cstr "c") else none

/-- With a buffer of zeros the second text is not printed as it was read. -/
theorem main_stale : main twoFiles (fun _ => 0) (List.replicate 200 0) ≠
    some (visited.flatMap (lines twoFiles)) := by
  intro h
  obtain ⟨hpair, -⟩ := (loop_eq_iff visited_small).mp h
  have hvisited : visited = (1, 0) :: (1, 1) :: visited.drop 2 := by rfl
  have hfirst : twoFiles.text (1, 0) = some (cstr "ab") := by
    simp [Files.text, Files.read, twoFiles]
    decide
  have hne : name 1 1 ≠ name 1 0 := by decide
  have hsecond : twoFiles.text (1, 1) = some (cstr "c") := by
    simp [Files.text, Files.read, twoFiles, hne]
    decide
  rw [hvisited, filterMap_cons_some hfirst, filterMap_cons_some hsecond] at hpair
  have hle := rel_of_pairwise_cons hpair (mem_cons_self ..)
  exact absurd hle (by decide)

end Xv6.Lsof
