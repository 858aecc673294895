import Xv6.User.Sh

/-!
# The grammar of command lines

```
line  ::= pipe {"&"} [";" line]
pipe  ::= exec ["|" pipe]
exec  ::= "(" line ")" {redir} | {redir} {word {redir}}
redir ::= ("<" | ">" | ">>") word
```
-/

namespace Xv6.Sh

open List

/-- The file of a redirection, how it is opened and as which descriptor. -/
structure Redir where
  file : Span
  mode : Nat
  fd : Nat

/-- `{redir}` -/
inductive Redirs : List Token → List Redir → Prop
  | nil : Redirs [] []
  | lt {op file ts rs} : Redirs ts rs →
      Redirs ((.lt, op) :: (.word, file) :: ts) (⟨file, O_RDONLY, 0⟩ :: rs)
  | gt {op file ts rs} : Redirs ts rs →
      Redirs ((.gt, op) :: (.word, file) :: ts) (⟨file, O_WRONLY ||| O_CREATE, 1⟩ :: rs)
  | append {op file ts rs} : Redirs ts rs →
      Redirs ((.append, op) :: (.word, file) :: ts) (⟨file, O_WRONLY ||| O_CREATE, 1⟩ :: rs)

/-- `{word {redir}}`, with the words in order and the redirections in order. -/
inductive Args : List Token → List Span → List Redir → Prop
  | nil : Args [] [] []
  | cons {word ts us rs argv rs'} : Redirs ts rs → Args us argv rs' →
      Args ((.word, word) :: ts ++ us) (word :: argv) (rs ++ rs')

/-- One node for each redirection; the last one is the outermost. -/
def Cmd.under (cmd : Cmd) : List Redir → Cmd
  | [] => cmd
  | r :: rs => under (.redir cmd r.file r.mode r.fd) rs

/-- `{"&"}` behind a command. -/
inductive Backs : Cmd → List Token → Cmd → Prop
  | nil {cmd} : Backs cmd [] cmd
  | cons {cmd cmd' op ts} : Backs (.back cmd) ts cmd' → Backs cmd ((.amp, op) :: ts) cmd'

inductive Nonterminal
  | line | pipe | exec

/-- The derivations, with the command that each denotes. -/
inductive Derives : Nonterminal → List Token → Cmd → Prop
  | line {ts us left cmd} : Derives .pipe ts left → Backs left us cmd → Derives .line (ts ++ us) cmd
  | list {ts us vs left cmd right op} : Derives .pipe ts left → Backs left us cmd →
      Derives .line vs right → Derives .line (ts ++ us ++ (.semi, op) :: vs) (.list cmd right)
  | single {ts cmd} : Derives .exec ts cmd → Derives .pipe ts cmd
  | pipe {ts us left right op} : Derives .exec ts left → Derives .pipe us right →
      Derives .pipe (ts ++ (.bar, op) :: us) (.pipe left right)
  | block {ts us cmd rs l r} : Derives .line ts cmd → Redirs us rs →
      Derives .exec ((.lpar, l) :: ts ++ (.rpar, r) :: us) (cmd.under rs)
  | exec {ts us rs argv rs'} : Redirs ts rs → Args us argv rs' → argv.length < MAXARGS →
      Derives .exec (ts ++ us) ((Cmd.exec argv).under (rs ++ rs'))

theorem Cmd.under_append (cmd : Cmd) (rs rs' : List Redir) :
    cmd.under (rs ++ rs') = (cmd.under rs).under rs' := by
  induction rs generalizing cmd with
  | nil => rfl
  | cons r rs ih => exact ih _

/-- An argument is added below the redirections that have been parsed. -/
theorem Cmd.addArg_under (cmd : Cmd) (rs : List Redir) (word : Span) :
    (cmd.under rs).addArg word = (cmd.addArg word).under rs := by
  induction rs generalizing cmd with
  | nil => rfl
  | cons r rs ih => exact ih _

/-! ## What is accepted is derived -/

section

variable {line : List UInt8} {s fuel : Nat} {cmd : Cmd} {ts us rest : List Token}
  {argv argv' : List Span} {rs rs' : List Redir}

/-- A cursor is behind what has been derived; the fuel runs out only when it is `short`. -/
def Parsed (line : List UInt8) (ts : List Token) (G : List Token → Cmd → Prop) (short : Prop) :
    Except Fault (Cmd × Nat) → Prop
  | .ok (cmd, s) => ∃ us rest, ts = us ++ rest ∧ G us cmd ∧ Lexes line s rest
  | .error .fuel => short
  | .error (.panic _) => True

section

variable {G G' : List Token → Cmd → Prop} {short short' : Prop}

/-- The tokens `us` have been taken before the rest is parsed. -/
theorem Parsed.step {r : Except Fault (Cmd × Nat)} (us : List Token) (h : Parsed line rest G short r)
    (hG : ∀ vs cmd, G vs cmd → G' (us ++ vs) cmd) (hshort : short → short') :
    Parsed line (us ++ rest) G' short' r := by
  match r with
  | .ok (cmd, s) =>
    obtain ⟨vs, rest, rfl, hg, hs⟩ := h
    exact ⟨us ++ vs, rest, (append_assoc ..).symm, hG vs cmd hg, hs⟩
  | .error .fuel => exact hshort h
  | .error (.panic _) => trivial

theorem Parsed.bind {x : Except Fault (Cmd × Nat)} {f : Cmd × Nat → Except Fault (Cmd × Nat)}
    (hx : Parsed line ts G short x) (hshort : short → short')
    (hf : ∀ us rest cmd s, ts = us ++ rest → G us cmd → Lexes line s rest →
      Parsed line rest (fun vs => G' (us ++ vs)) short' (f (cmd, s))) :
    Parsed line ts G' short' (x >>= f) := by
  match x with
  | .ok (cmd, s) =>
    obtain ⟨us, rest, rfl, hg, hs⟩ := hx
    exact (hf us rest cmd s rfl hg hs).step us (fun _ _ h => h) id
  | .error .fuel => exact hshort hx
  | .error (.panic _) => trivial

end

/-- What `peek` and the `gettoken` behind it see. -/
theorem Lexes.look (h0 : 0 ∉ line) (h : Lexes line s ts) (toks : List Char)
    (htoks : toks.map Char.toUInt8 ⊆ symbols) :
    (∃ s', Sh.peek line toks s = (false, s') ∧ Lexes line s' ts) ∨
      ∃ tok op rest s' s'', ts = (tok, op) :: rest ∧ tok.first ∈ toks.map Char.toUInt8 ∧
        Sh.peek line toks s = (true, s') ∧ Sh.gettoken line s' = (tok, op, s'') ∧
        Lexes line s'' rest := by
  obtain ⟨s', hpeek, h'⟩ := h.peek toks htoks
  cases ts with
  | nil => exact .inl ⟨s', hpeek, h'⟩
  | cons t rest =>
    obtain ⟨tok, op⟩ := t
    by_cases hfirst : tok.first ∈ toks.map Char.toUInt8
    · obtain ⟨_, s'', hget, h''⟩ := h'.gettoken h0
      rw [startsWith, decide_eq_true hfirst] at hpeek
      exact .inr ⟨tok, op, rest, s', s'', rfl, hfirst, hpeek, hget, h''⟩
    · rw [startsWith, decide_eq_false hfirst] at hpeek
      exact .inl ⟨s', hpeek, h'⟩

/-- What the grammar has behind `cmd`. -/
def Redirected (cmd : Cmd) (ts : List Token) (cmd' : Cmd) : Prop :=
  ∃ rs, Redirs ts rs ∧ cmd' = cmd.under rs

theorem Redirected.redirect {tok : Tok} {op file : Span} {cmd' : Cmd}
    (hfirst : tok.first ∈ ['<', '>'].map Char.toUInt8) (h : Redirected (redirect cmd file tok) ts cmd') :
    Redirected cmd ((tok, op) :: (.word, file) :: ts) cmd' := by
  obtain ⟨rs, hrs, rfl⟩ := h
  cases tok
  case lt => exact ⟨_, hrs.lt, rfl⟩
  case gt => exact ⟨_, hrs.gt, rfl⟩
  case append => exact ⟨_, hrs.append, rfl⟩
  all_goals exact absurd hfirst (by decide)

theorem parseredirs_parsed (h0 : 0 ∉ line) (h : Lexes line s ts) :
    Parsed line ts (Redirected cmd) (fuel < ts.length + 1) (parseredirs line fuel cmd s) := by
  induction fuel generalizing cmd s ts with
  | zero => exact Nat.succ_pos _
  | succ fuel ih =>
    rw [parseredirs]
    rcases h.look h0 ['<', '>'] (by decide) with
      ⟨s1, hpeek, h1⟩ | ⟨tok, op, rest, s1, s2, rfl, hfirst, hpeek, hget, h2⟩
    · rw [hpeek]
      exact ⟨[], ts, rfl, ⟨[], .nil, rfl⟩, h1⟩
    · rw [hpeek]
      simp only [hget, if_true]
      cases rest with
      | nil =>
        obtain ⟨_, _, hnul, _⟩ := h2.gettoken_nil
        rw [hnul]
        trivial
      | cons t rest =>
        obtain ⟨ret, file⟩ := t
        obtain ⟨_, s3, hget, h3⟩ := h2.gettoken h0
        rw [hget]
        by_cases hret : ret = .word
        · subst hret
          rw [if_neg (by simp)]
          apply (ih h3).step [(tok, op), (.word, file)] (fun _ _ hr => hr.redirect hfirst)
          simp only [length_cons]
          omega
        · rw [if_pos hret]
          trivial

theorem backLoop_parsed (h0 : 0 ∉ line) (h : Lexes line s ts) :
    Parsed line ts (Backs cmd) (fuel < ts.length + 1) (backLoop line fuel cmd s) := by
  induction fuel generalizing cmd s ts with
  | zero => exact Nat.succ_pos _
  | succ fuel ih =>
    rw [backLoop]
    rcases h.look h0 ['&'] (by decide) with
      ⟨s1, hpeek, h1⟩ | ⟨tok, op, rest, s1, s2, rfl, hfirst, hpeek, hget, h2⟩
    · rw [hpeek]
      exact ⟨[], ts, rfl, .nil, h1⟩
    · rw [hpeek]
      simp only [hget, if_true]
      obtain rfl : tok = .amp := by
        revert hfirst
        cases tok <;> decide
      apply (ih h2).step [(.amp, op)] (fun _ _ hb => .cons hb)
      rw [length_cons]
      omega

/-- What the grammar has behind a command whose words are `argv` and whose redirections are `rs`. -/
def Extended (argv : List Span) (rs : List Redir) (ts : List Token) (cmd : Cmd) : Prop :=
  ∃ argv' rs', Args ts argv' rs' ∧ (argv ++ argv').length < MAXARGS ∧
    cmd = (Cmd.exec (argv ++ argv')).under (rs ++ rs')

theorem Extended.nil (hargc : argv.length < MAXARGS) :
    Extended argv rs [] ((Cmd.exec argv).under rs) :=
  ⟨[], [], .nil, by simpa using hargc, by simp⟩

theorem Extended.cons {word : Span} (hr : Redirs us rs')
    (h : Extended (argv ++ [word]) (rs ++ rs') ts cmd) :
    Extended argv rs ((.word, word) :: us ++ ts) cmd := by
  obtain ⟨argv', rs'', ha, hargc, rfl⟩ := h
  simp only [append_assoc, singleton_append] at hargc ⊢
  exact ⟨_, _, .cons hr ha, hargc, rfl⟩

theorem argLoop_parsed (argv : List Span) (rs : List Redir) (hargc : argv.length < MAXARGS)
    (h0 : 0 ∉ line) (h : Lexes line s ts) :
    Parsed line ts (Extended argv rs) (fuel < ts.length + 1)
      (argLoop line fuel argv.length ((Cmd.exec argv).under rs) s) := by
  induction fuel generalizing argv rs s ts with
  | zero => exact Nat.succ_pos _
  | succ fuel ih =>
    rw [argLoop]
    obtain ⟨s1, hpeek, h1⟩ := h.peek ['|', ')', '&', ';'] (by decide)
    simp only [hpeek]
    split
    · exact ⟨[], ts, rfl, .nil hargc, h1⟩
    cases ts with
    | nil =>
      obtain ⟨_, s2, hnul, h2⟩ := h1.gettoken_nil
      simp only [hnul, if_true]
      exact ⟨[], [], rfl, .nil hargc, h2⟩
    | cons t rest =>
      obtain ⟨tok, word⟩ := t
      obtain ⟨hne, s2, hget, h2⟩ := h1.gettoken h0
      simp only [hget, if_neg hne]
      by_cases htok : tok = .word
      · subst htok
        by_cases hmax : argv.length + 1 ≥ MAXARGS
        · simp only [if_pos hmax]
          trivial
        · simp only [if_neg hmax, ne_eq, not_true_eq_false, if_false]
          rw [length_cons, Cmd.addArg_under, Cmd.addArg]
          apply Parsed.step [(.word, word)] ((parseredirs_parsed h0 h2).bind id ?_) (fun _ _ ha => ha)
            (by omega)
          rintro us rest cmd s3 rfl ⟨rs', hr, rfl⟩ h3
          have hlength : (argv ++ [word]).length = argv.length + 1 := length_append
          rw [length_append, ← Cmd.under_append, ← hlength]
          exact (ih _ _ (by omega) h3).step [] (fun _ _ ha => by simpa using ha.cons hr) (by omega)
      · simp only [ne_eq, htok, not_false_eq_true, if_true]
        trivial

structure Sound (line : List UInt8) (fuel : Nat) : Prop where
  onLine : ∀ {s ts}, Lexes line s ts →
    Parsed line ts (Derives .line) (fuel < 4 * ts.length + 4) (parseline line fuel s)
  onPipe : ∀ {s ts}, Lexes line s ts →
    Parsed line ts (Derives .pipe) (fuel < 4 * ts.length + 3) (parsepipe line fuel s)
  onExec : ∀ {s ts}, Lexes line s ts →
    Parsed line ts (Derives .exec) (fuel < 4 * ts.length + 2) (parseexec line fuel s)
  onBlock : ∀ {s ts}, Lexes line s ts →
    Parsed line ts (Derives .exec) (fuel < 4 * ts.length + 1) (parseblock line fuel s)

theorem Sound.parseline (hsound : Sound line fuel) (h0 : 0 ∉ line) (h : Lexes line s ts) :
    Parsed line ts (Derives .line) (fuel + 1 < 4 * ts.length + 4) (parseline line (fuel + 1) s) := by
  rw [Sh.parseline]
  apply (hsound.onPipe h).bind (by omega)
  rintro us rest left s1 rfl hpipe h1
  rw [length_append]
  apply (backLoop_parsed h0 h1).bind (by omega)
  rintro vs rest cmd s2 rfl hback h2
  rw [length_append]
  rcases h2.look h0 [';'] (by decide) with
    ⟨s3, hpeek, h3⟩ | ⟨tok, op, rest, s3, s4, rfl, hfirst, hpeek, hget, h4⟩
  · simp only [hpeek]
    exact ⟨[], rest, rfl, by simpa using Derives.line hpipe hback, h3⟩
  · obtain rfl : tok = .semi := by
      revert hfirst
      cases tok <;> decide
    simp only [hpeek, hget, if_true, length_cons]
    apply Parsed.step [(.semi, op)] ((hsound.onLine h4).bind id ?_) (fun _ _ ha => ha) (by omega)
    rintro ws rest right s5 rfl hright h5
    exact ⟨[], rest, rfl, by simpa using Derives.list hpipe hback hright, h5⟩

theorem Sound.parsepipe (hsound : Sound line fuel) (h0 : 0 ∉ line) (h : Lexes line s ts) :
    Parsed line ts (Derives .pipe) (fuel + 1 < 4 * ts.length + 3) (parsepipe line (fuel + 1) s) := by
  rw [Sh.parsepipe]
  apply (hsound.onExec h).bind (by omega)
  rintro us rest left s1 rfl hexec h1
  rw [length_append]
  rcases h1.look h0 ['|'] (by decide) with
    ⟨s2, hpeek, h2⟩ | ⟨tok, op, rest, s2, s3, rfl, hfirst, hpeek, hget, h3⟩
  · simp only [hpeek]
    exact ⟨[], rest, rfl, by simpa using Derives.single hexec, h2⟩
  · obtain rfl : tok = .bar := by
      revert hfirst
      cases tok <;> decide
    simp only [hpeek, hget, if_true, length_cons]
    apply Parsed.step [(.bar, op)] ((hsound.onPipe h3).bind id ?_) (fun _ _ ha => ha) (by omega)
    rintro vs rest right s4 rfl hright h4
    exact ⟨[], rest, rfl, by simpa using Derives.pipe hexec hright, h4⟩

theorem Sound.parseexec (hsound : Sound line fuel) (h0 : 0 ∉ line) (h : Lexes line s ts) :
    Parsed line ts (Derives .exec) (fuel + 1 < 4 * ts.length + 2) (parseexec line (fuel + 1) s) := by
  rw [Sh.parseexec]
  obtain ⟨s1, hpeek, h1⟩ := h.peek ['('] (by decide)
  simp only [hpeek]
  split
  · exact (hsound.onBlock h1).step [] (fun _ _ hb => hb) (by omega)
  · apply (parseredirs_parsed h0 h1).bind (by omega)
    rintro us rest cmd s2 rfl ⟨rs, hr, rfl⟩ h2
    rw [length_append]
    apply (argLoop_parsed [] rs (by decide) h0 h2).step [] ?_ (by omega)
    rintro vs cmd ⟨argv, rs', ha, hargc, rfl⟩
    exact .exec hr ha hargc

theorem Sound.parseblock (hsound : Sound line fuel) (h0 : 0 ∉ line) (h : Lexes line s ts) :
    Parsed line ts (Derives .exec) (fuel + 1 < 4 * ts.length + 1) (parseblock line (fuel + 1) s) := by
  rw [Sh.parseblock]
  rcases h.look h0 ['('] (by decide) with
    ⟨s1, hpeek, h1⟩ | ⟨tok, l, rest, s1, s2, rfl, hfirst, hpeek, hget, h2⟩
  · simp only [hpeek]
    trivial
  obtain rfl : tok = .lpar := by
    revert hfirst
    cases tok <;> decide
  simp only [hpeek, hget, length_cons]
  apply Parsed.step [(.lpar, l)] ((hsound.onLine h2).bind id ?_) (fun _ _ ha => ha) (by omega)
  rintro us rest cmd s3 rfl hline h3
  rcases h3.look h0 [')'] (by decide) with
    ⟨s4, hpeek, h4⟩ | ⟨tok, r, rest, s4, s5, rfl, hfirst, hpeek, hget, h5⟩
  · simp only [hpeek]
    trivial
  obtain rfl : tok = .rpar := by
    revert hfirst
    cases tok <;> decide
  simp only [hpeek, hget, length_append, length_cons]
  apply (parseredirs_parsed h0 h5).step [(.rpar, r)] ?_ (by omega)
  rintro vs cmd' ⟨rs, hr, rfl⟩
  simpa using Derives.block hline hr

theorem sound (h0 : 0 ∉ line) (fuel : Nat) : Sound line fuel := by
  induction fuel with
  | zero =>
    constructor
    all_goals
      intro s ts _
      simp only [Sh.parseline, Sh.parsepipe, Sh.parseexec, Sh.parseblock]
      exact Nat.succ_pos _
  | succ fuel ih => exact ⟨ih.parseline h0, ih.parsepipe h0, ih.parseexec h0, ih.parseblock h0⟩

/-! ## What is derived is accepted -/

/-- Nothing is left, or a symbol that begins with one of `toks`. -/
def Follows (toks : List Char) (ts : List Token) : Prop := ts = [] ∨ startsWith toks ts = true

variable {toks : List Char} {cmd' : Cmd}

theorem Follows.mono {toks' : List Char} (h : Follows toks ts)
    (hsub : toks.map Char.toUInt8 ⊆ toks'.map Char.toUInt8) : Follows toks' ts := by
  rcases h with h | h
  · exact .inl h
  · cases ts with
    | nil => exact .inl rfl
    | cons t ts => exact .inr (decide_eq_true (hsub (of_decide_eq_true h)))

theorem Follows.not_startsWith (h : Follows toks ts) (toks' : List Char)
    (hdisj : (toks.map Char.toUInt8).all (fun c => decide (c ∉ toks'.map Char.toUInt8)) = true) :
    startsWith toks' ts = false := by
  rcases h with rfl | h
  · rfl
  · cases ts with
    | nil => rfl
    | cons t ts => exact decide_eq_false (forall_mem_of_all hdisj _ (of_decide_eq_true h))

theorem parseredirs_step {tok : Tok} {op file : Span} (h0 : 0 ∉ line)
    (h : Lexes line s ((tok, op) :: (.word, file) :: ts))
    (htok : tok.first ∈ ['<', '>'].map Char.toUInt8) :
    ∃ s', parseredirs line (fuel + 1) cmd s = parseredirs line fuel (redirect cmd file tok) s' ∧
      Lexes line s' ts := by
  obtain ⟨s1, hpeek, h1⟩ := h.peek ['<', '>'] (by decide)
  obtain ⟨_, s2, hget, h2⟩ := h1.gettoken h0
  obtain ⟨_, s3, hfile, h3⟩ := h2.gettoken h0
  have hop : startsWith ['<', '>'] ((tok, op) :: (.word, file) :: ts) = true := decide_eq_true htok
  rw [parseredirs, hpeek, hop]
  simp only [hget, hfile, if_true]
  exact ⟨s3, rfl, h3⟩

theorem Redirs.parse (cmd : Cmd) (hr : Redirs us rs) (h0 : 0 ∉ line) (h : Lexes line s (us ++ rest))
    (hrest : startsWith ['<', '>'] rest = false)
    (hfuel : us.length < fuel) :
    ∃ s', parseredirs line fuel cmd s = .ok (cmd.under rs, s') ∧ Lexes line s' rest := by
  obtain _ | fuel := fuel
  · omega
  induction hr generalizing cmd s fuel with
  | nil =>
    obtain ⟨s1, hpeek, h1⟩ := h.peek ['<', '>'] (by decide)
    rw [nil_append, hrest] at hpeek
    rw [parseredirs, hpeek]
    exact ⟨s1, rfl, h1⟩
  | lt _ ih | gt _ ih | append _ ih =>
    simp only [length_cons] at hfuel
    obtain _ | fuel := fuel
    · omega
    obtain ⟨s1, hstep, h1⟩ := parseredirs_step h0 h (by decide)
    rw [hstep]
    exact ih _ h1 fuel (by omega)

theorem Backs.parse (hb : Backs cmd us cmd') (h0 : 0 ∉ line) (h : Lexes line s (us ++ rest))
    (hrest : startsWith ['&'] rest = false)
    (hfuel : us.length < fuel) :
    ∃ s', backLoop line fuel cmd s = .ok (cmd', s') ∧ Lexes line s' rest := by
  induction hb generalizing s fuel with
  | nil =>
    obtain _ | fuel := fuel
    · omega
    obtain ⟨s1, hpeek, h1⟩ := h.peek ['&'] (by decide)
    rw [nil_append, hrest] at hpeek
    rw [backLoop, hpeek]
    exact ⟨s1, rfl, h1⟩
  | @cons cmd cmd' op ts _ ih =>
    rw [length_cons] at hfuel
    obtain _ | fuel := fuel
    · omega
    obtain ⟨s1, hpeek, h1⟩ := h.peek ['&'] (by decide)
    obtain ⟨_, s2, hget, h2⟩ := h1.gettoken h0
    obtain ⟨s', hrun, h'⟩ := ih h2 (show ts.length < fuel by omega)
    rw [backLoop, hpeek]
    simp only [hget, show startsWith ['&'] ((.amp, op) :: ts ++ rest) = true from rfl, if_true]
    exact ⟨s', hrun, h'⟩

theorem Args.not_startsWith (ha : Args us argv rs) (hrest : startsWith toks rest = false)
    (hzero : 0 ∉ toks.map Char.toUInt8) :
    startsWith toks (us ++ rest) = false := by
  cases ha with
  | nil => exact hrest
  | cons => exact decide_eq_false hzero

theorem Args.parse (argv : List Span) (rs : List Redir) (ha : Args us argv' rs') (h0 : 0 ∉ line)
    (h : Lexes line s (us ++ rest))
    (hrest : Follows ['|', ')', '&', ';'] rest) (hargc : (argv ++ argv').length < MAXARGS)
    (hfuel : us.length < fuel) :
    ∃ s', argLoop line fuel argv.length ((Cmd.exec argv).under rs) s =
      .ok ((Cmd.exec (argv ++ argv')).under (rs ++ rs'), s') ∧ Lexes line s' rest := by
  have hredir := hrest.not_startsWith ['<', '>'] (by decide)
  induction ha generalizing argv rs s fuel with
  | nil =>
    obtain _ | fuel := fuel
    · omega
    obtain ⟨s1, hpeek, h1⟩ := h.peek ['|', ')', '&', ';'] (by decide)
    rw [argLoop, hpeek, append_nil, append_nil]
    rcases hrest with rfl | hrest
    · obtain ⟨_, s2, hnul, h2⟩ := h1.gettoken_nil
      simp only [hnul, startsWith, nil_append]
      exact ⟨s2, rfl, h2⟩
    · rw [nil_append, hrest]
      exact ⟨s1, rfl, h1⟩
  | @cons word ts us rs₁ argv' rs' hr ha ih =>
    simp only [length_append, length_cons] at hfuel hargc
    simp only [cons_append, append_assoc] at h
    obtain _ | fuel := fuel
    · omega
    obtain ⟨s1, hpeek, h1⟩ := h.peek ['|', ')', '&', ';'] (by decide)
    obtain ⟨_, s2, hget, h2⟩ := h1.gettoken h0
    obtain ⟨s3, hredirs, h3⟩ := hr.parse ((Cmd.exec (argv ++ [word])).under rs) h0 h2
      (ha.not_startsWith hredir (by decide)) (show ts.length < fuel by omega)
    obtain ⟨s', hrun, h'⟩ := ih (argv ++ [word]) (rs ++ rs₁) h3
      (by simp only [length_append, length_singleton]; omega) (show us.length < fuel by omega)
    rw [length_append, length_singleton, Cmd.under_append] at hrun
    simp only [append_assoc, singleton_append] at hrun
    have hword : startsWith ['|', ')', '&', ';'] ((.word, word) :: (ts ++ (us ++ rest))) = false := rfl
    have hmax : ¬ argv.length + 1 ≥ MAXARGS := by omega
    rw [argLoop, hpeek, hword]
    simp only [hget, if_neg hmax, ne_eq, not_true_eq_false, if_false, reduceCtorEq, Cmd.addArg_under,
      Cmd.addArg, hredirs]
    exact ⟨s', hrun, h'⟩

def Nonterminal.parse (line : List UInt8) : Nonterminal → Nat → Nat → Except Fault (Cmd × Nat)
  | .line => parseline line
  | .pipe => parsepipe line
  | .exec => parseexec line

/-- The fuel for no tokens. -/
def Nonterminal.rank : Nonterminal → Nat
  | .line => 4
  | .pipe => 3
  | .exec => 2

def Nonterminal.follow : Nonterminal → List Char
  | .line => [')']
  | .pipe => [')', '&', ';']
  | .exec => ['|', ')', '&', ';']

theorem Backs.follows (hb : Backs cmd us cmd') (hrest : Follows toks rest)
    (hamp : '&'.toUInt8 ∈ toks.map Char.toUInt8) :
    Follows toks (us ++ rest) := by
  cases hb with
  | nil => exact hrest
  | cons => exact .inr (decide_eq_true hamp)

theorem ok_bind {α β : Type} (a : α) (f : α → Except Fault β) : (Except.ok a >>= f) = f a := rfl

theorem Derives.parse {nt : Nonterminal} (hd : Derives nt us cmd) (h0 : 0 ∉ line)
    (h : Lexes line s (us ++ rest)) (hrest : Follows nt.follow rest)
    (hfuel : 4 * us.length + nt.rank ≤ fuel) :
    ∃ s', nt.parse line fuel s = .ok (cmd, s') ∧ Lexes line s' rest := by
  induction hd generalizing s fuel rest with
  | @line ts us left cmd _ hb ih =>
    simp only [length_append, Nonterminal.rank] at hfuel
    obtain _ | fuel := fuel
    · omega
    rw [append_assoc] at h
    obtain ⟨s1, hpipe, h1⟩ := ih h (hb.follows (hrest.mono (by decide)) (by decide))
      (show 4 * ts.length + 3 ≤ fuel by omega)
    obtain ⟨s2, hback, h2⟩ := hb.parse h0 h1 (hrest.not_startsWith _ (by decide))
      (show us.length < fuel by omega)
    obtain ⟨s3, hpeek, h3⟩ := h2.peek [';'] (by decide)
    refine ⟨s3, ?_, h3⟩
    rw [hrest.not_startsWith _ (by decide)] at hpeek
    rw [Nonterminal.parse, parseline]
    simp only [Nonterminal.parse] at hpipe
    simp only [hpipe, ok_bind, hback, hpeek]
    rfl
  | @list ts us vs left cmd right op _ hb _ ih ih' =>
    simp only [length_append, length_cons, Nonterminal.rank] at hfuel
    simp only [cons_append, append_assoc] at h
    obtain _ | fuel := fuel
    · omega
    obtain ⟨s1, hpipe, h1⟩ := ih h (hb.follows (.inr rfl) (by decide))
      (show 4 * ts.length + 3 ≤ fuel by omega)
    obtain ⟨s2, hback, h2⟩ := hb.parse h0 h1 rfl (show us.length < fuel by omega)
    obtain ⟨s3, hpeek, h3⟩ := h2.peek [';'] (by decide)
    obtain ⟨_, s4, hget, h4⟩ := h3.gettoken h0
    obtain ⟨s5, hline, h5⟩ := ih' h4 hrest (show 4 * vs.length + 4 ≤ fuel by omega)
    refine ⟨s5, ?_, h5⟩
    have hsemi : startsWith [';'] ((.semi, op) :: (vs ++ rest)) = true := rfl
    simp only [Nonterminal.parse] at hpipe hline
    rw [Nonterminal.parse, parseline]
    simp only [hpipe, ok_bind, hback, hpeek, hsemi, hget, hline, if_true]
    rfl
  | @single ts cmd _ ih =>
    simp only [Nonterminal.rank] at hfuel
    obtain _ | fuel := fuel
    · omega
    obtain ⟨s1, hexec, h1⟩ := ih h (hrest.mono (by decide)) (show 4 * ts.length + 2 ≤ fuel by omega)
    obtain ⟨s2, hpeek, h2⟩ := h1.peek ['|'] (by decide)
    refine ⟨s2, ?_, h2⟩
    rw [hrest.not_startsWith _ (by decide)] at hpeek
    simp only [Nonterminal.parse] at hexec
    rw [Nonterminal.parse, parsepipe]
    simp only [hexec, ok_bind, hpeek]
    rfl
  | @pipe ts us left right op _ _ ih ih' =>
    simp only [length_append, length_cons, Nonterminal.rank] at hfuel
    simp only [cons_append, append_assoc] at h
    obtain _ | fuel := fuel
    · omega
    obtain ⟨s1, hexec, h1⟩ := ih h (.inr rfl) (show 4 * ts.length + 2 ≤ fuel by omega)
    obtain ⟨s2, hpeek, h2⟩ := h1.peek ['|'] (by decide)
    obtain ⟨_, s3, hget, h3⟩ := h2.gettoken h0
    obtain ⟨s4, hpipe, h4⟩ := ih' h3 hrest (show 4 * us.length + 3 ≤ fuel by omega)
    refine ⟨s4, ?_, h4⟩
    have hbar : startsWith ['|'] ((.bar, op) :: (us ++ rest)) = true := rfl
    simp only [Nonterminal.parse] at hexec hpipe
    rw [Nonterminal.parse, parsepipe]
    simp only [hexec, ok_bind, hpeek, hbar, hget, hpipe, if_true]
    rfl
  | @block ts us cmd rs l r _ hr ih =>
    simp only [length_append, length_cons, Nonterminal.rank] at hfuel
    simp only [cons_append, append_assoc] at h
    obtain ⟨fuel, rfl⟩ : ∃ n, fuel = n + 1 + 1 := ⟨fuel - 2, by omega⟩
    obtain ⟨s1, hpeek, h1⟩ := h.peek ['('] (by decide)
    obtain ⟨s2, hpeek', h2⟩ := h1.peek ['('] (by decide)
    obtain ⟨_, s3, hget, h3⟩ := h2.gettoken h0
    obtain ⟨s4, hline, h4⟩ := ih h3 (.inr rfl) (show 4 * ts.length + 4 ≤ fuel by omega)
    obtain ⟨s5, hclose, h5⟩ := h4.peek [')'] (by decide)
    obtain ⟨_, s6, hget', h6⟩ := h5.gettoken h0
    obtain ⟨s7, hredirs, h7⟩ := hr.parse cmd h0 h6 (hrest.not_startsWith _ (by decide))
      (show us.length < fuel by omega)
    refine ⟨s7, ?_, h7⟩
    have hopen : startsWith ['('] ((.lpar, l) :: (ts ++ (.rpar, r) :: (us ++ rest))) = true := rfl
    have hrpar : startsWith [')'] ((.rpar, r) :: (us ++ rest)) = true := rfl
    simp only [Nonterminal.parse] at hline
    rw [Nonterminal.parse, parseexec, hpeek, hopen]
    simp only [if_true]
    rw [parseblock, hpeek', hopen]
    simp only [hget, hline, ok_bind, hclose, hrpar, hget']
    exact hredirs
  | @exec ts us rs argv rs' hr ha hargc =>
    simp only [length_append, Nonterminal.rank] at hfuel
    rw [append_assoc] at h
    obtain _ | fuel := fuel
    · omega
    obtain ⟨s1, hpeek, h1⟩ := h.peek ['('] (by decide)
    obtain ⟨s2, hredirs, h2⟩ := hr.parse (.exec []) h0 h1
      (ha.not_startsWith (hrest.not_startsWith _ (by decide)) (by decide))
      (show ts.length < fuel by omega)
    obtain ⟨s3, hargs, h3⟩ := ha.parse [] rs h0 h2 hrest hargc (show us.length < fuel by omega)
    refine ⟨s3, ?_, h3⟩
    have hopen : startsWith ['('] (ts ++ (us ++ rest)) = false := by
      cases hr with
      | nil => exact ha.not_startsWith (hrest.not_startsWith _ (by decide)) (by decide)
      | lt | gt | append => rfl
    rw [Nonterminal.parse, parseexec, hpeek, hopen]
    simp only [hredirs, ok_bind]
    exact hargs

theorem parsecmd_of_parseline (hrun : parseline line fuel 0 = .ok (cmd, s)) (h : Lexes line s ts) :
    parsecmd line fuel = if ts = [] then .ok (cmd, nulterminate cmd (line ++ [0]))
      else .error (.panic "syntax") := by
  rw [parsecmd, hrun, ok_bind]
  by_cases hts : ts = []
  · rw [if_pos hts]
    exact if_neg (not_not.mpr (h.skip_eq_iff.mpr hts))
  · rw [if_neg hts]
    exact if_pos (h.skip_eq_iff.not.mpr hts)

/-- A run of the parser derives the whole line, or is short of fuel, or fails with a panic. -/
theorem parsecmd_sound (h0 : 0 ∉ line) (fuel : Nat) : ∃ ts, Lexes line 0 ts ∧
    (parsecmd line fuel = .error .fuel → fuel < 4 * ts.length + 4) ∧
    ∀ {cmd buf}, parsecmd line fuel = .ok (cmd, buf) →
      Derives .line ts cmd ∧ buf = nulterminate cmd (line ++ [0]) := by
  obtain ⟨ts, hts⟩ := exists_lexes h0 (Nat.zero_le line.length)
  refine ⟨ts, hts, ?_⟩
  have hsound := (sound h0 fuel).onLine hts
  cases hline : parseline line fuel 0 with
  | error fault =>
    rw [hline] at hsound
    rw [parsecmd, hline]
    exact ⟨fun hrun => by cases hrun; exact hsound, nofun⟩
  | ok r =>
    rw [hline] at hsound
    obtain ⟨us, rest, rfl, hd, hs⟩ := hsound
    rw [parsecmd_of_parseline hline hs]
    split
    case isTrue hnil =>
      subst hnil
      refine ⟨nofun, fun hrun => ?_⟩
      cases hrun
      exact ⟨by simpa using hd, rfl⟩
    case isFalse => exact ⟨nofun, nofun⟩

end

/-- Every line is parsed to an end, and the lines that are accepted are those that the grammar
derives, each with the command that its derivation denotes. -/
theorem parsecmd_accepts_iff (line : List UInt8) (h0 : 0 ∉ line) (fuel : Nat)
    (hfuel : 4 * line.length + 4 ≤ fuel) :
    parsecmd line fuel ≠ .error .fuel ∧
      ∀ cmd, (∃ buf, parsecmd line fuel = .ok (cmd, buf)) ↔
        ∃ ts, Lexes line 0 ts ∧ Derives .line ts cmd := by
  obtain ⟨ts, hts, hfail, hok⟩ := parsecmd_sound h0 fuel
  constructor
  · intro hrun
    have := hfail hrun
    have := hts.length_le
    omega
  · intro cmd
    constructor
    · rintro ⟨buf, hrun⟩
      exact ⟨ts, hts, (hok hrun).1⟩
    · rintro ⟨ts, hts, hd⟩
      have hle := hts.length_le
      obtain ⟨s, hline, hs⟩ := hd.parse h0 (by rwa [append_nil]) (.inl rfl)
        (show 4 * ts.length + 4 ≤ fuel by omega)
      exact ⟨_, parsecmd_of_parseline hline hs⟩

/-- Two words with a redirection between them, a pipe, a block with two redirections, in the
background. -/
theorem parsecmd_accepts_block :
    let line := "(a <b c | d) >e >>f &".toUTF8.toList
    let left := Cmd.redir (.exec [⟨1, 2⟩, ⟨6, 7⟩]) ⟨4, 5⟩ 0 0
    let block := Cmd.pipe left (.exec [⟨10, 11⟩])
    let cmd := Cmd.back (.redir (.redir block ⟨14, 15⟩ 0x201 1) ⟨18, 19⟩ 0x201 1)
    0 ∉ line ∧ 4 * line.length + 4 ≤ 88 ∧ ∃ ts, Lexes line 0 ts ∧ Derives .line ts cmd := by
  intro line left block cmd
  have h0 : 0 ∉ line := by decide +kernel
  have hfuel : 4 * line.length + 4 ≤ 88 := by decide +kernel
  have h := (parsecmd_accepts_iff line h0 88 hfuel).2 cmd
  exact ⟨h0, hfuel, h.mp ⟨nulterminate cmd (line ++ [0]), by decide +kernel⟩⟩

/-! ## Words -/

/-- The words of a command: arguments and the names of files. -/
def Cmd.words : Cmd → List Span
  | .exec argv => argv
  | .redir cmd file _ _ => file :: cmd.words
  | .pipe left right => left.words ++ right.words
  | .list left right => left.words ++ right.words
  | .back cmd => cmd.words

/-- The C string at `q`. -/
def cstring (buf : List UInt8) (q : Nat) : List UInt8 := (buf.drop q).takeWhile (· ≠ 0)

section

variable {line : List UInt8} {s fuel : Nat} {cmd cmd' : Cmd} {ts : List Token} {w : Span}

theorem Cmd.mem_words_under {rs : List Redir} (hw : w ∈ (cmd.under rs).words) :
    w ∈ cmd.words ∨ w ∈ rs.map Redir.file := by
  induction rs generalizing cmd with
  | nil => exact .inl hw
  | cons r rs ih =>
    rcases ih hw with hw | hw
    · rcases mem_cons.mp hw with rfl | hw
      · exact .inr mem_cons_self
      · exact .inl hw
    · exact .inr (mem_cons_of_mem _ hw)

theorem Redirs.words {rs : List Redir} (hr : Redirs ts rs) (hw : w ∈ rs.map Redir.file) :
    (.word, w) ∈ ts := by
  induction hr with
  | nil => cases hw
  | lt _ ih | gt _ ih | append _ ih =>
    rcases mem_cons.mp hw with rfl | hw
    · simp
    · simp [ih hw]

theorem Args.words {argv : List Span} {rs : List Redir} (ha : Args ts argv rs)
    (hw : w ∈ argv ∨ w ∈ rs.map Redir.file) : (.word, w) ∈ ts := by
  induction ha with
  | nil => simp at hw
  | cons hr _ ih =>
    rw [mem_cons, map_append, mem_append] at hw
    rcases hw with (rfl | hw) | hw | hw
    · simp
    · simp [ih (.inl hw)]
    · simp [hr.words hw]
    · simp [ih (.inr hw)]

theorem Backs.words (hb : Backs cmd ts cmd') : cmd'.words = cmd.words := by
  induction hb with
  | nil => rfl
  | cons _ ih => exact ih

theorem Derives.words {nt : Nonterminal} (hd : Derives nt ts cmd) (hw : w ∈ cmd.words) :
    (.word, w) ∈ ts := by
  induction hd with
  | line _ hb ih => exact mem_append_left _ (ih (hb.words ▸ hw))
  | list _ hb _ ih ih' =>
    rcases mem_append.mp hw with hw | hw
    · have := ih (hb.words ▸ hw)
      simp [this]
    · have := ih' hw
      simp [this]
  | single _ ih => exact ih hw
  | pipe _ _ ih ih' =>
    rcases mem_append.mp hw with hw | hw
    · exact mem_append_left _ (ih hw)
    · exact mem_append_right _ (mem_cons_of_mem _ (ih' hw))
  | block _ hr ih =>
    rcases Cmd.mem_words_under hw with hw | hw
    · simp [ih hw]
    · simp [hr.words hw]
  | exec hr ha =>
    rcases Cmd.mem_words_under hw with hw | hw
    · exact mem_append_right _ (ha.words (.inl hw))
    · rw [map_append, mem_append] at hw
      rcases hw with hw | hw
      · exact mem_append_left _ (hr.words hw)
      · exact mem_append_right _ (ha.words (.inr hw))

/-- A word that is as long as it can be. -/
structure Delimited (line : List UInt8) (w : Span) : Prop where
  found : ∃ s s', gettoken line s = (.word, w, s')
  le : w.q ≤ w.eq
  inside : ∀ i, w.q ≤ i → i < w.eq → WordByte (byte line i)
  stop : ¬ WordByte (byte line w.eq)

theorem Lexes.delimited (h0 : 0 ∉ line) (h : Lexes line s ts) (hw : (.word, w) ∈ ts) :
    Delimited line w := by
  induction h with
  | stop => cases hw
  | blank _ _ ih => exact ih hw
  | sym hs _ ih =>
    rcases mem_cons.mp hw with heq | hw
    · cases heq
      obtain ⟨hfirst, hmem, _⟩ := symbol_spec hs
      exact absurd hfirst (not_white_of_symbol _ hmem).2
    · exact ih hw
  | gt _ _ _ ih | append _ _ _ ih =>
    rcases mem_cons.mp hw with heq | hw
    · cases heq
    · exact ih hw
  | word hlt hall hend h ih =>
    rcases mem_cons.mp hw with heq | hw
    · cases heq
      obtain ⟨_, s', hget, _⟩ := (Lexes.word hlt hall hend h).gettoken h0
      exact ⟨⟨_, s', hget⟩, Nat.le_of_lt hlt, hall, hend⟩
    · exact ih hw

theorem getD_set_zero (buf : List UInt8) (i j : Nat) :
    (buf.set i 0).getD j 0 = if j = i then 0 else buf.getD j 0 := by
  rw [getD_eq_getElem?_getD, getElem?_set, getD_eq_getElem?_getD]
  by_cases hij : i = j
  · subst hij
    by_cases hlt : i < buf.length <;> simp [hlt]
  · simp [hij, Ne.symm hij]

theorem getD_nulterminate (cmd : Cmd) (buf : List UInt8) (i : Nat) :
    (nulterminate cmd buf).getD i 0 = if i ∈ cmd.words.map Span.eq then 0 else buf.getD i 0 := by
  induction cmd generalizing buf with
  | exec argv =>
    rw [nulterminate, Cmd.words]
    induction argv generalizing buf with
    | nil => rfl
    | cons w argv ih =>
      rw [foldl_cons, ih, getD_set_zero]
      by_cases hi : i = w.eq <;> simp [hi]
  | redir cmd file mode fd ih =>
    rw [nulterminate, getD_set_zero, ih]
    by_cases hi : i = file.eq <;> simp [Cmd.words, hi]
  | pipe left right ihl ihr | list left right ihl ihr =>
    rw [nulterminate, ihr, ihl, Cmd.words, map_append]
    simp only [mem_append]
    by_cases hr : i ∈ right.words.map Span.eq
    · simp only [hr, or_true, if_true]
    · simp only [hr, or_false, if_false]
  | back cmd ih => exact ih buf

theorem cstring_eq {buf : List UInt8} {q e : Nat} (hqe : q ≤ e)
    (hsame : ∀ i, q ≤ i → i < e → byte buf i = byte line i)
    (hne : ∀ i, q ≤ i → i < e → byte line i ≠ 0) (hend : byte buf e = 0) :
    cstring buf q = (line.drop q).take (e - q) := by
  induction hqe using Nat.decreasingInduction with
  | self =>
    rw [Nat.sub_self, take_zero, cstring]
    by_cases he : e < buf.length
    · rw [byte, getD_eq_getElem _ _ he] at hend
      rw [drop_eq_getElem_cons he, takeWhile_cons_of_neg (by simp [hend])]
    · rw [drop_eq_nil_of_le (by omega), takeWhile_nil]
  | of_succ q hq ih =>
    have hline := hne q le_rfl hq
    have hbuf := hsame q le_rfl hq
    have hlt := lt_length_of_byte hline
    have hlt' := lt_length_of_byte (hbuf ▸ hline)
    rw [byte, byte, getD_eq_getElem _ _ hlt', getD_eq_getElem _ _ hlt] at hbuf
    rw [byte, getD_eq_getElem _ _ hlt, ← hbuf] at hline
    have hsub : e - q = e - (q + 1) + 1 := by omega
    rw [cstring, drop_eq_getElem_cons hlt', takeWhile_cons_of_pos (by simpa using hline),
      drop_eq_getElem_cons hlt, hsub, take_succ_cons, hbuf]
    congr 1
    exact ih (fun i hi => hsame i (by omega)) (fun i hi => hne i (by omega))

end

/-- The words of a command are C strings when `nulterminate` has run, and no zero has been written
inside of one. -/
theorem nulterminate_words (line : List UInt8) (h0 : 0 ∉ line) (fuel : Nat) (cmd : Cmd)
    (buf : List UInt8) (hrun : parsecmd line fuel = .ok (cmd, buf)) (w : Span) (hw : w ∈ cmd.words) :
    (∃ s s', gettoken line s = (.word, w, s')) ∧
      cstring buf w.q = (line.drop w.q).take (w.eq - w.q) ∧
      ∀ v ∈ cmd.words, ¬ (w.q ≤ v.eq ∧ v.eq < w.eq) := by
  obtain ⟨ts, hts, -, hok⟩ := parsecmd_sound h0 fuel
  obtain ⟨hd, rfl⟩ := hok hrun
  have hdel : ∀ v ∈ cmd.words, Delimited line v := fun v hv => hts.delimited h0 (hd.words hv)
  obtain ⟨hfound, hle, hinside, _⟩ := hdel w hw
  have hapart : ∀ v ∈ cmd.words, ¬ (w.q ≤ v.eq ∧ v.eq < w.eq) := fun v hv h =>
    (hdel v hv).stop (hinside v.eq h.1 h.2)
  refine ⟨hfound, ?_, hapart⟩
  apply cstring_eq hle
  · intro i hq hi
    have hnot : i ∉ cmd.words.map Span.eq := by
      intro hmem
      obtain ⟨v, hv, rfl⟩ := mem_map.mp hmem
      exact hapart v hv ⟨hq, hi⟩
    rw [byte, getD_nulterminate, if_neg hnot]
    exact getD_append _ _ _ _ (lt_length_of_byte (hinside i hq hi).1)
  · exact fun i hq hi => (hinside i hq hi).1
  · rw [byte, getD_nulterminate, if_pos (mem_map_of_mem hw)]

/-- Without blanks the zero behind a word is written over a symbol. -/
theorem nulterminate_words_block :
    let line := "(ab<c|d)>>ef".toUTF8.toList
    let cmd := Cmd.redir (.pipe (.redir (.exec [⟨1, 3⟩]) ⟨4, 5⟩ 0 0) (.exec [⟨6, 7⟩])) ⟨10, 12⟩ 0x201 1
    let buf := nulterminate cmd (line ++ [0])
    0 ∉ line ∧ parsecmd line 80 = .ok (cmd, buf) ∧
      cstring buf 1 = "ab".toUTF8.toList ∧ ∀ v ∈ cmd.words, ¬ (1 ≤ v.eq ∧ v.eq < 3) := by
  intro line cmd buf
  have h0 : 0 ∉ line := by decide +kernel
  have hrun : parsecmd line 80 = .ok (cmd, buf) := by decide +kernel
  have h := nulterminate_words line h0 80 cmd buf hrun ⟨1, 3⟩ (by decide)
  refine ⟨h0, hrun, h.2.1.trans (by decide +kernel), h.2.2⟩

end Xv6.Sh
