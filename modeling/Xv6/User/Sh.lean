import Mathlib.Data.List.GetD
import Mathlib.Data.Nat.Basic

/-!
# The parser of the shell

The parser of `sh.c`, over a line whose terminating zero is at `es = line.length`. A pointer into the
line is the index of a byte. The functions that call each other have fuel; `Fault.fuel` is that it ran
out, which is no behaviour of the source.
-/

namespace Xv6.Sh

open List

def whitespace : List UInt8 := [' ', '\t', '\r', '\n', '\x0b'].map Char.toUInt8

def symbols : List UInt8 := ['<', '|', '>', '&', ';', '(', ')'].map Char.toUInt8

/-- What `gettoken` returns: `0`, a symbol, `'+'` for `>>`, or `'a'`. -/
inductive Tok
  | nul | bar | lpar | rpar | semi | amp | lt | gt | append | word
deriving DecidableEq, Repr

/-- The word from `q` up to `eq`. -/
structure Span where
  q : Nat
  eq : Nat
deriving DecidableEq, Repr

/-- `struct cmd` (`sh.c:14-50`); `argv` and `eargv` are one list, up to the null pointer. -/
inductive Cmd
  | exec (argv : List Span)
  | redir (cmd : Cmd) (file : Span) (mode fd : Nat)
  | pipe (left right : Cmd)
  | list (left right : Cmd)
  | back (cmd : Cmd)
deriving DecidableEq, Repr

inductive Fault
  | fuel
  | panic (msg : String)
deriving DecidableEq, Repr

def MAXARGS : Nat := 10

-- `fcntl.h`
def O_RDONLY : Nat := 0
def O_WRONLY : Nat := 1
def O_CREATE : Nat := 0x200

section

variable (line : List UInt8)

def byte (s : Nat) : UInt8 := line.getD s 0

/-- `while(s < es && p(*s)) s++` -/
def advance (p : UInt8 → Bool) (s : Nat) : Nat := s + ((line.drop s).takeWhile p).length

def skip (s : Nat) : Nat := advance line (· ∈ whitespace) s

/-- The cases of the `switch` that only take the symbol (`sh.c:280-287`). -/
def symbol (c : UInt8) : Option Tok :=
  if c = '|'.toUInt8 then some .bar
  else if c = '('.toUInt8 then some .lpar
  else if c = ')'.toUInt8 then some .rpar
  else if c = ';'.toUInt8 then some .semi
  else if c = '&'.toUInt8 then some .amp
  else if c = '<'.toUInt8 then some .lt
  else none

/-- `gettoken` (`sh.c:266-309`): the token, its span, and the cursor. -/
def gettoken (s : Nat) : Tok × Span × Nat :=
  let q := skip line s
  let (ret, eq) : Tok × Nat :=
    if byte line q = 0 then (.nul, q)
    else
      match symbol (byte line q) with
      | some tok => (tok, q + 1)
      | none =>
        if byte line q = '>'.toUInt8 then
          if byte line (q + 1) = '>'.toUInt8 then (.append, q + 2) else (.gt, q + 1)
        else (.word, advance line (fun c => c ∉ whitespace ∧ c ∉ symbols) q)
  (ret, ⟨q, eq⟩, skip line eq)

/-- `peek` (`sh.c:311-321`). -/
def peek (toks : List Char) (s : Nat) : Bool × Nat :=
  let s := skip line s
  (byte line s ≠ 0 ∧ byte line s ∈ toks.map Char.toUInt8, s)

/-- The `switch` of `parseredirs` (`sh.c:385-395`). -/
def redirect (cmd : Cmd) (file : Span) : Tok → Cmd
  | .lt => .redir cmd file O_RDONLY 0
  | .gt => .redir cmd file (O_WRONLY ||| O_CREATE) 1
  | .append => .redir cmd file (O_WRONLY ||| O_CREATE) 1
  | _ => cmd

def parseredirs : Nat → Cmd → Nat → Except Fault (Cmd × Nat)
  | 0, _, _ => .error .fuel
  | fuel + 1, cmd, s =>
    let (found, s) := peek line ['<', '>'] s
    if found then
      let (tok, _, s) := gettoken line s
      let (ret, file, s) := gettoken line s
      if ret ≠ .word then .error (.panic "missing file for redirection")
      else parseredirs fuel (redirect cmd file tok) s
    else .ok (cmd, s)

/-- `cmd->argv[argc] = q` of the `execcmd` that is below the redirections of `ret`. -/
def Cmd.addArg (word : Span) : Cmd → Cmd
  | .exec argv => .exec (argv ++ [word])
  | .redir cmd file mode fd => .redir (cmd.addArg word) file mode fd
  | cmd => cmd

/-- The loop of `parseexec` (`sh.c:431-443`). -/
def argLoop : Nat → Nat → Cmd → Nat → Except Fault (Cmd × Nat)
  | 0, _, _, _ => .error .fuel
  | fuel + 1, argc, ret, s =>
    let (found, s) := peek line ['|', ')', '&', ';'] s
    if found then .ok (ret, s)
    else
      let (tok, word, s) := gettoken line s
      if tok = .nul then .ok (ret, s)
      else if tok ≠ .word then .error (.panic "syntax")
      else if argc + 1 ≥ MAXARGS then .error (.panic "too many args")
      else do
        let (ret, s) ← parseredirs line fuel (ret.addArg word) s
        argLoop fuel (argc + 1) ret s

/-- The loop of `parseline` (`sh.c:351-354`). -/
def backLoop : Nat → Cmd → Nat → Except Fault (Cmd × Nat)
  | 0, _, _ => .error .fuel
  | fuel + 1, cmd, s =>
    let (found, s) := peek line ['&'] s
    if found then
      let (_, _, s) := gettoken line s
      backLoop fuel (.back cmd) s
    else .ok (cmd, s)

mutual

def parseline : Nat → Nat → Except Fault (Cmd × Nat)
  | 0, _ => .error .fuel
  | fuel + 1, s => do
    let (cmd, s) ← parsepipe fuel s
    let (cmd, s) ← backLoop line fuel cmd s
    let (found, s) := peek line [';'] s
    if found then
      let (_, _, s) := gettoken line s
      let (right, s) ← parseline fuel s
      return (.list cmd right, s)
    else return (cmd, s)

def parsepipe : Nat → Nat → Except Fault (Cmd × Nat)
  | 0, _ => .error .fuel
  | fuel + 1, s => do
    let (cmd, s) ← parseexec fuel s
    let (found, s) := peek line ['|'] s
    if found then
      let (_, _, s) := gettoken line s
      let (right, s) ← parsepipe fuel s
      return (.pipe cmd right, s)
    else return (cmd, s)

def parseexec : Nat → Nat → Except Fault (Cmd × Nat)
  | 0, _ => .error .fuel
  | fuel + 1, s => do
    let (found, s) := peek line ['('] s
    if found then parseblock fuel s
    else
      let (ret, s) ← parseredirs line fuel (.exec []) s
      argLoop line fuel 0 ret s

def parseblock : Nat → Nat → Except Fault (Cmd × Nat)
  | 0, _ => .error .fuel
  | fuel + 1, s => do
    let (found, s) := peek line ['('] s
    if !found then .error (.panic "parseblock")
    else
      let (_, _, s) := gettoken line s
      let (cmd, s) ← parseline fuel s
      let (found, s) := peek line [')'] s
      if !found then .error (.panic "syntax - missing )")
      else
        let (_, _, s) := gettoken line s
        parseredirs line fuel cmd s

end

/-- `nulterminate` (`sh.c:450-494`). -/
def nulterminate : Cmd → List UInt8 → List UInt8
  | .exec argv, buf => argv.foldl (fun buf word => buf.set word.eq 0) buf
  | .redir cmd file _ _, buf => (nulterminate cmd buf).set file.eq 0
  | .pipe left right, buf => nulterminate right (nulterminate left buf)
  | .list left right, buf => nulterminate right (nulterminate left buf)
  | .back cmd, buf => nulterminate cmd buf

/-- `parsecmd` (`sh.c:328-343`), with the buffer that the line is in. -/
def parsecmd (fuel : Nat) : Except Fault (Cmd × List UInt8) := do
  let (cmd, s) ← parseline line fuel 0
  let (_, s) := peek line [] s
  if s ≠ line.length then .error (.panic "syntax")
  else return (cmd, nulterminate cmd (line ++ [0]))

end

example : (parsecmd "(a>b)&".toUTF8.toList 30).map (·.1) =
    .ok (.back (.redir (.exec [⟨1, 2⟩]) ⟨3, 4⟩ 0x201 1)) := by decide +kernel

/-! ## Tokens -/

def WordByte (c : UInt8) : Prop := c ≠ 0 ∧ c ∉ whitespace ∧ c ∉ symbols

abbrev Token := Tok × Span

/-- The tokens of the line from `s` on, without regard to how `gettoken` finds them. -/
inductive Lexes (line : List UInt8) : Nat → List Token → Prop
  | stop : Lexes line line.length []
  | blank {s ts} : byte line s ∈ whitespace → Lexes line (s + 1) ts → Lexes line s ts
  | sym {s tok ts} : symbol (byte line s) = some tok → Lexes line (s + 1) ts →
      Lexes line s ((tok, ⟨s, s + 1⟩) :: ts)
  | gt {s ts} : byte line s = '>'.toUInt8 → byte line (s + 1) ≠ '>'.toUInt8 → Lexes line (s + 1) ts →
      Lexes line s ((.gt, ⟨s, s + 1⟩) :: ts)
  | append {s ts} : byte line s = '>'.toUInt8 → byte line (s + 1) = '>'.toUInt8 →
      Lexes line (s + 2) ts → Lexes line s ((.append, ⟨s, s + 2⟩) :: ts)
  | word {s e ts} : s < e → (∀ i, s ≤ i → i < e → WordByte (byte line i)) →
      ¬ WordByte (byte line e) → Lexes line e ts → Lexes line s ((.word, ⟨s, e⟩) :: ts)

/-- The byte that a symbol begins with. -/
def Tok.first : Tok → UInt8
  | .bar => '|'.toUInt8
  | .lpar => '('.toUInt8
  | .rpar => ')'.toUInt8
  | .semi => ';'.toUInt8
  | .amp => '&'.toUInt8
  | .lt => '<'.toUInt8
  | .gt => '>'.toUInt8
  | .append => '>'.toUInt8
  | .nul => 0
  | .word => 0

/-- Whether the next token is a symbol that begins with one of `toks`. -/
def startsWith (toks : List Char) : List Token → Bool
  | [] => false
  | (tok, _) :: _ => tok.first ∈ toks.map Char.toUInt8

section

variable {line : List UInt8} {s e : Nat} {ts : List Token}

theorem lt_length_of_byte (h : byte line s ≠ 0) : s < line.length := by
  by_contra hle
  exact h (getD_eq_default _ _ (by omega))

theorem byte_ne_zero (h0 : 0 ∉ line) (h : s < line.length) : byte line s ≠ 0 := by
  rw [byte, getD_eq_getElem _ _ h]
  exact fun heq => h0 (heq ▸ getElem_mem h)

theorem advance_of_true {p : UInt8 → Bool} (hs : s < line.length) (h : p (byte line s) = true) :
    advance line p s = advance line p (s + 1) := by
  rw [byte, getD_eq_getElem _ _ hs] at h
  rw [advance, advance, drop_eq_getElem_cons hs, takeWhile_cons_of_pos h, length_cons]
  omega

theorem advance_of_false {p : UInt8 → Bool} (h : s < line.length → p (byte line s) = false) :
    advance line p s = s := by
  by_cases hs : s < line.length
  · have hp := h hs
    rw [byte, getD_eq_getElem _ _ hs] at hp
    rw [advance, drop_eq_getElem_cons hs, takeWhile_cons_of_neg (by simp [hp])]
    rfl
  · rw [advance, drop_eq_nil_of_le (by omega)]
    rfl

theorem advance_word (hle : s ≤ e) (h : ∀ i, s ≤ i → i < e → WordByte (byte line i))
    (hend : ¬ WordByte (byte line e)) (h0 : 0 ∉ line) :
    advance line (fun c => c ∉ whitespace ∧ c ∉ symbols) s = e := by
  induction hle using Nat.decreasingInduction with
  | self =>
    apply advance_of_false
    intro he
    exact decide_eq_false fun hc => hend ⟨byte_ne_zero h0 he, hc⟩
  | of_succ s hs ih =>
    have hw := h s le_rfl hs
    rw [advance_of_true (lt_length_of_byte hw.1) (decide_eq_true hw.2)]
    exact ih fun i hi => h i (by omega)

theorem ne_zero_of_white {c : UInt8} (h : c ∈ whitespace) : c ≠ 0 := by
  rintro rfl
  revert h
  decide

theorem symbol_spec {c : UInt8} {tok : Tok} (h : symbol c = some tok) :
    c = tok.first ∧ c ∈ symbols ∧ tok ≠ .nul := by
  unfold symbol at h
  split_ifs at h with h1 h2 h3 h4 h5 h6
  all_goals
    cases h
    subst c
    decide

theorem forall_mem_of_all {P : UInt8 → Prop} [DecidablePred P] {cs : List UInt8}
    (h : cs.all (fun c => decide (P c)) = true) : ∀ c ∈ cs, P c := by
  simpa using h

theorem not_white_of_symbol : ∀ c ∈ symbols, c ∉ whitespace ∧ c ≠ 0 :=
  forall_mem_of_all (by decide)

theorem gt_ne_zero : '>'.toUInt8 ≠ 0 := by decide

theorem gt_not_white : '>'.toUInt8 ∉ whitespace := by decide

theorem skip_of_white (h : byte line s ∈ whitespace) : skip line s = skip line (s + 1) :=
  advance_of_true (lt_length_of_byte (ne_zero_of_white h)) (decide_eq_true h)

theorem skip_of_not_white (h : byte line s ∉ whitespace) : skip line s = s :=
  advance_of_false fun _ => decide_eq_false h

theorem Lexes.skip (h : Lexes line s ts) :
    Lexes line (skip line s) ts ∧ byte line (skip line s) ∉ whitespace := by
  induction h with
  | stop =>
    have hend : byte line line.length ∉ whitespace := by
      rw [byte, getD_eq_default _ _ le_rfl]
      decide
    rw [skip_of_not_white hend]
    exact ⟨.stop, hend⟩
  | blank hs _ ih => rwa [skip_of_white hs]
  | sym hs h =>
    have hw := (not_white_of_symbol _ (symbol_spec hs).2.1).1
    rw [skip_of_not_white hw]
    exact ⟨.sym hs h, hw⟩
  | gt hs hnext h =>
    have hw := hs ▸ gt_not_white
    rw [skip_of_not_white hw]
    exact ⟨.gt hs hnext h, hw⟩
  | append hs hnext h =>
    have hw := hs ▸ gt_not_white
    rw [skip_of_not_white hw]
    exact ⟨.append hs hnext h, hw⟩
  | word hlt hall hend h =>
    have hw := (hall _ le_rfl hlt).2.1
    rw [skip_of_not_white hw]
    exact ⟨.word hlt hall hend h, hw⟩

/-- `gettoken` returns the tokens one by one. -/
theorem Lexes.gettoken {tok : Tok} {span : Span} (h0 : 0 ∉ line)
    (h : Lexes line s ((tok, span) :: ts)) :
    tok ≠ .nul ∧ ∃ s', gettoken line s = (tok, span, s') ∧ Lexes line s' ts := by
  obtain ⟨hq, hw⟩ := h.skip
  unfold Sh.gettoken
  generalize Sh.skip line s = q at hq hw
  cases hq with
  | blank hs => exact absurd hs hw
  | sym hs h =>
    obtain ⟨_, hmem, hnul⟩ := symbol_spec hs
    simp only [if_neg (not_white_of_symbol _ hmem).2, hs]
    exact ⟨hnul, _, rfl, h.skip.1⟩
  | gt hs hnext h =>
    have hsym : symbol '>'.toUInt8 = none := by decide
    simp only [hs, if_neg gt_ne_zero, hsym, if_true, if_neg hnext]
    exact ⟨by decide, _, rfl, h.skip.1⟩
  | append hs hnext h =>
    have hsym : symbol '>'.toUInt8 = none := by decide
    simp only [hs, if_neg gt_ne_zero, hsym, if_true, if_pos hnext]
    exact ⟨by decide, _, rfl, h.skip.1⟩
  | word hlt hall hend h =>
    obtain ⟨hne, hwhite, hsymbols⟩ := hall q le_rfl hlt
    have hsym : symbol (byte line q) = none := by
      cases hc : symbol (byte line q) with
      | none => rfl
      | some tok => exact absurd (symbol_spec hc).2.1 hsymbols
    have hgt : byte line q ≠ '>'.toUInt8 := fun heq => hsymbols (heq ▸ by decide)
    simp only [if_neg hne, hsym, if_neg hgt, advance_word (Nat.le_of_lt hlt) hall hend h0]
    exact ⟨by decide, _, rfl, h.skip.1⟩

theorem byte_length (line : List UInt8) : byte line line.length = 0 :=
  getD_eq_default _ _ le_rfl

theorem Lexes.gettoken_nil (h : Lexes line s []) :
    ∃ span s', Sh.gettoken line s = (.nul, span, s') ∧ Lexes line s' [] := by
  obtain ⟨hq, hw⟩ := h.skip
  unfold Sh.gettoken
  generalize Sh.skip line s = q at hq hw
  cases hq with
  | blank hs => exact absurd hs hw
  | stop =>
    simp only [byte_length, if_true]
    exact ⟨_, _, rfl, Lexes.stop.skip.1⟩

/-- `peek` looks at the next token. -/
theorem Lexes.peek (h : Lexes line s ts) (toks : List Char)
    (htoks : toks.map Char.toUInt8 ⊆ symbols) :
    ∃ s', peek line toks s = (startsWith toks ts, s') ∧ Lexes line s' ts := by
  obtain ⟨hq, hw⟩ := h.skip
  refine ⟨_, Prod.ext ?_ rfl, hq⟩
  unfold Sh.peek
  generalize Sh.skip line s = q at hq hw
  cases hq with
  | blank hs => exact absurd hs hw
  | stop => simp [byte_length, startsWith]
  | sym hs _ =>
    obtain ⟨hfirst, hmem, _⟩ := symbol_spec hs
    simp [startsWith, (not_white_of_symbol _ hmem).2, ← hfirst]
  | gt hs _ _ | append hs _ _ => simp [startsWith, hs, Tok.first, gt_ne_zero]
  | word hlt hall _ _ =>
    have hmem : byte line q ∉ toks.map Char.toUInt8 := fun hc => (hall q le_rfl hlt).2.2 (htoks hc)
    have hzero : (0 : UInt8) ∉ toks.map Char.toUInt8 := fun hc => absurd (htoks hc) (by decide)
    simp only [startsWith, Tok.first, hmem, hzero, and_false]

theorem Lexes.skip_eq_iff (h : Lexes line s ts) : Sh.skip line s = line.length ↔ ts = [] := by
  obtain ⟨hq, hw⟩ := h.skip
  generalize Sh.skip line s = q at hq hw
  have hlt : byte line q ≠ 0 → q ≠ line.length := fun hne => Nat.ne_of_lt (lt_length_of_byte hne)
  cases hq with
  | blank hs => exact absurd hs hw
  | stop => simp
  | sym hs _ => simpa using hlt (not_white_of_symbol _ (symbol_spec hs).2.1).2
  | gt hs _ _ | append hs _ _ => simpa using hlt (hs ▸ gt_ne_zero)
  | word hle hall _ _ => simpa using hlt (hall q le_rfl hle).1

theorem exists_wordEnd (hs : s ≤ line.length) : ∃ e, s ≤ e ∧ e ≤ line.length ∧
    (∀ i, s ≤ i → i < e → WordByte (byte line i)) ∧ ¬ WordByte (byte line e) := by
  induction hs using Nat.decreasingInduction with
  | self => exact ⟨_, le_rfl, le_rfl, fun i h h' => by omega, fun h => h.1 (byte_length line)⟩
  | of_succ s hs ih =>
    by_cases hw : WordByte (byte line s)
    · obtain ⟨e, hse, he, hall, hend⟩ := ih
      refine ⟨e, by omega, he, fun i hi hie => ?_, hend⟩
      rcases Nat.eq_or_lt_of_le hi with rfl | hi
      · exact hw
      · exact hall i hi hie
    · exact ⟨s, le_rfl, Nat.le_of_lt hs, fun i h h' => by omega, hw⟩

theorem exists_lexes (h0 : 0 ∉ line) (hs : s ≤ line.length) : ∃ ts, Lexes line s ts := by
  induction hn : line.length - s using Nat.strongRecOn generalizing s with
  | ind n ih =>
    rcases Nat.eq_or_lt_of_le hs with rfl | hs
    · exact ⟨[], .stop⟩
    have hne := byte_ne_zero h0 hs
    obtain ⟨ts, h⟩ := ih _ (by omega) (show s + 1 ≤ line.length by omega) rfl
    by_cases hw : byte line s ∈ whitespace
    · exact ⟨ts, .blank hw h⟩
    cases hsym : symbol (byte line s) with
    | some tok => exact ⟨_, .sym hsym h⟩
    | none =>
      by_cases hgt : byte line s = '>'.toUInt8
      · by_cases hnext : byte line (s + 1) = '>'.toUInt8
        · have hlt := lt_length_of_byte (hnext ▸ gt_ne_zero)
          obtain ⟨ts, h⟩ := ih _ (by omega) (show s + 2 ≤ line.length by omega) rfl
          exact ⟨_, .append hgt hnext h⟩
        · exact ⟨_, .gt hgt hnext h⟩
      · have hrest : ∀ c ∈ symbols, symbol c = none → c = '>'.toUInt8 :=
          forall_mem_of_all (by decide)
        have hword : WordByte (byte line s) := ⟨hne, hw, fun hc => hgt (hrest _ hc hsym)⟩
        obtain ⟨e, hse, he, hall, hend⟩ := exists_wordEnd (Nat.le_of_lt hs)
        have hlt : s < e := by
          rcases Nat.eq_or_lt_of_le hse with rfl | hlt
          · exact absurd hword hend
          · exact hlt
        obtain ⟨ts, h⟩ := ih _ (by omega) he rfl
        exact ⟨_, .word hlt hall hend h⟩

theorem Lexes.length_le (h : Lexes line s ts) : s + ts.length ≤ line.length := by
  induction h with
  | stop => simp
  | blank => omega
  | sym | gt | append | word =>
    rw [length_cons]
    omega

end

end Xv6.Sh
