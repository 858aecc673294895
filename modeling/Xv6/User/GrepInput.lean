import Mathlib.Data.List.DropRight
import Mathlib.Data.List.Forall2
import Xv6.User.Grep

/-!
# The input of grep

The loop of `grep` (`grep.c:10-35`) over what `read` returns. `buf` is a list of 1024 bytes; a search
that comes to its end without a zero or a newline goes on outside of it, and the model has no value.
While lines are processed `buf` is cut at `p` in two.
-/

namespace Xv6.Grep

open Option List

def nl : UInt8 := '\n'.toUInt8

/-- `strchr(p, '\n')` for the bytes from `p` on (`ulib.c:43-50`): the offset of the newline, if it
comes before a zero. -/
def strchr : List UInt8 → Option (Option Nat)
  | [] => none
  | c :: s =>
    if c = 0 then some none
    else if c = nl then some (some 0)
    else (strchr s).map fun k => k.map (· + 1)

/-- The inner loop (`grep.c:19-26`): the bytes before and from `p` on at its end, and the output. -/
def scanLines (pattern : List UInt8) :
    Nat → List UInt8 → List UInt8 → Option (List UInt8 × List UInt8 × List UInt8)
  | 0, _, _ => none
  | turns + 1, pre, u =>
    match strchr u with
    | none => none
    | some none => some (pre, u, [])
    | some (some k) =>
      if matchText pattern (u.take k) then
        (scanLines pattern turns (pre ++ u.take k ++ [nl]) (u.drop (k + 1))).map fun x =>
          (x.1, x.2.1, u.take k ++ [nl] ++ x.2.2)
      else scanLines pattern turns (pre ++ u.take k ++ [0]) (u.drop (k + 1))

/-- The outer loop (`grep.c:16-34`), where `read` returns the chunks in turn. -/
def grepLoop (pattern : List UInt8) : List (List UInt8) → List UInt8 → Int → Option (List UInt8)
  | [], _, _ => some []
  | c :: cs, buf, m =>
    if 0 ≤ m ∧ m + c.length ≤ 1024 then do
      let (pre, u, out) ← scanLines pattern 1025 []
        (buf.take m.toNat ++ c ++ buf.drop (m.toNat + c.length))
      let rest ←
        if pre = [] then grepLoop pattern cs u 0
        else
          -- `m -= p - buf; memmove(buf, p, m)`
          let m := m + c.length - pre.length
          grepLoop pattern cs (u.take m.toNat ++ (pre ++ u).drop m.toNat) m
      return out ++ rest
    else none

def grep (pattern : List UInt8) (chunks : List (List UInt8)) : Option (List UInt8) :=
  grepLoop pattern chunks (List.replicate 1024 0) 0

/-! ## Lines -/

/-- The lines that match, in order; `line` is what is before `s` in its first line. -/
def selected (pattern line : List UInt8) : List UInt8 → List UInt8
  | [] => []
  | c :: s =>
    if c = nl then (if matchText pattern line then line ++ [nl] else []) ++ selected pattern [] s
    else selected pattern (line ++ [c]) s

/-- What is in place of the lines when they have been processed. -/
def processed (pattern line : List UInt8) : List UInt8 → List UInt8
  | [] => []
  | c :: s =>
    if c = nl then
      line ++ (if matchText pattern line then nl else 0) :: processed pattern [] s
    else processed pattern (line ++ [c]) s

/-- The bytes behind the last newline. -/
def lastLine (d : List UInt8) : List UInt8 := d.rtakeWhile (· ≠ nl)

/-- The bytes up to the last newline. -/
def fullLines (d : List UInt8) : List UInt8 := d.rdropWhile (· ≠ nl)

section

variable {pattern line pre d s t u : List UInt8} {turns : Nat}

theorem line_induction {P : List UInt8 → Prop} (hlast : ∀ d, nl ∉ d → P d)
    (hline : ∀ line d, nl ∉ line → P d → P (line ++ nl :: d)) (d : List UInt8) : P d := by
  induction h : d.length using Nat.strongRecOn generalizing d with
  | ind n ih =>
    by_cases hnl : nl ∈ d
    · obtain ⟨line, rest, rfl, hfirst⟩ := eq_append_cons_of_mem hnl
      refine hline line rest hfirst (ih _ ?_ rest rfl)
      subst h
      simp
      omega
    · exact hlast d hnl

theorem fullLines_append_lastLine (d : List UInt8) : fullLines d ++ lastLine d = d :=
  rdropWhile_append_rtakeWhile ..

theorem lastLine_of_notMem (h : nl ∉ d) : lastLine d = d := by
  rw [lastLine, rtakeWhile_eq_self_iff]
  intro c hc
  simpa using fun heq : c = nl => h (heq ▸ hc)

theorem lastLine_line (line d : List UInt8) : lastLine (line ++ nl :: d) = lastLine d := by
  unfold lastLine
  induction d using List.reverseRecOn with
  | nil => rw [rtakeWhile_concat_neg _ _ _ (by simp)]; rfl
  | append_singleton d c ih =>
    rw [← cons_append, ← append_assoc, rtakeWhile_concat, rtakeWhile_concat, ih]

theorem fullLines_of_notMem (h : nl ∉ d) : fullLines d = [] := by
  have := fullLines_append_lastLine d
  rwa [lastLine_of_notMem h, append_left_eq_self] at this

theorem fullLines_line (line d : List UInt8) :
    fullLines (line ++ nl :: d) = line ++ nl :: fullLines d := by
  have h := fullLines_append_lastLine (line ++ nl :: d)
  rw [lastLine_line] at h
  rw [← append_left_inj (lastLine d), h, append_assoc, cons_append,
    fullLines_append_lastLine]

theorem notMem_lastLine (d : List UInt8) : nl ∉ lastLine d := by
  intro h
  simpa using mem_rtakeWhile_imp h

theorem fullLines_ne_nil (h : nl ∈ d) : fullLines d ≠ [] := by
  intro hnil
  have hfull := fullLines_append_lastLine d
  rw [hnil, nil_append] at hfull
  rw [← hfull] at h
  exact notMem_lastLine d h

theorem selected_line (h : nl ∉ d) : selected pattern line (d ++ nl :: s) =
    (if matchText pattern (line ++ d) then line ++ d ++ [nl] else []) ++ selected pattern [] s := by
  induction d generalizing line with
  | nil => simp [selected]
  | cons c d ih =>
    rw [mem_cons, not_or] at h
    rw [cons_append, selected, if_neg (Ne.symm h.1), ih h.2]
    simp

theorem selected_of_notMem (h : nl ∉ d) : selected pattern line d = [] := by
  induction d generalizing line with
  | nil => rfl
  | cons c d ih =>
    rw [mem_cons, not_or] at h
    rw [selected, if_neg (Ne.symm h.1), ih h.2]

theorem processed_line (h : nl ∉ d) : processed pattern line (d ++ nl :: s) =
    line ++ d ++ (if matchText pattern (line ++ d) then nl else 0) :: processed pattern [] s := by
  induction d generalizing line with
  | nil => simp [processed]
  | cons c d ih =>
    rw [mem_cons, not_or] at h
    rw [cons_append, processed, if_neg (Ne.symm h.1), ih h.2]
    simp

theorem processed_of_notMem (h : nl ∉ d) : processed pattern line d = [] := by
  induction d generalizing line with
  | nil => rfl
  | cons c d ih =>
    rw [mem_cons, not_or] at h
    rw [processed, if_neg (Ne.symm h.1), ih h.2]

theorem selected_append (d s : List UInt8) :
    selected pattern [] (d ++ s) = selected pattern [] d ++ selected pattern [] (lastLine d ++ s) := by
  induction d using line_induction with
  | hlast d h => rw [selected_of_notMem h, lastLine_of_notMem h, nil_append]
  | hline line d h ih =>
    rw [append_assoc, cons_append, selected_line h, selected_line h, lastLine_line, ih]
    simp only [append_assoc]

/-- A zero may be in place of a newline. -/
def Blanks (l l' : List UInt8) : Prop := List.Forall₂ (fun a b => b = a ∨ a = nl ∧ b = 0) l l'

theorem Blanks.refl (l : List UInt8) : Blanks l l := List.forall₂_same.mpr fun _ _ => .inl rfl

theorem Blanks.append {l l' m m' : List UInt8} (hl : Blanks l l') (hm : Blanks m m') :
    Blanks (l ++ m) (l' ++ m') := rel_append hl hm

theorem Blanks.drop {l l' : List UInt8} (h : Blanks l l') (n : Nat) :
    Blanks (l.drop n) (l'.drop n) := List.forall₂_drop n h

theorem blanks_processed (d : List UInt8) : Blanks (fullLines d) (processed pattern [] d) := by
  induction d using line_induction with
  | hlast d h =>
    rw [fullLines_of_notMem h, processed_of_notMem h]
    exact .nil
  | hline line d h ih =>
    rw [fullLines_line, processed_line h, nil_append]
    refine (Blanks.refl line).append (.cons ?_ ih)
    split
    · exact .inl rfl
    · exact .inr ⟨rfl, rfl⟩

theorem Blanks.strchr {l l' : List UInt8} (h : Blanks l l') (hl : strchr l = some none) :
    strchr l' = some none := by
  induction h with
  | nil => cases hl
  | @cons a b l l' hab _ ih =>
    rw [Grep.strchr] at hl ⊢
    by_cases hb : b = 0
    · rw [if_pos hb]
    · obtain rfl : b = a := hab.resolve_right fun h => hb h.2
      rw [if_neg hb] at hl ⊢
      by_cases hnl : b = nl
      · rw [if_pos hnl] at hl
        cases hl
      · rw [if_neg hnl] at hl ⊢
        obtain ⟨k, hk, hnone⟩ := map_eq_some_iff.mp hl
        obtain rfl := map_eq_none_iff.mp hnone
        rw [ih hk]
        rfl

/-! ## The inner loop -/

theorem strchr_append (h0 : 0 ∉ d) (hnl : nl ∉ d) :
    strchr (d ++ t) = (strchr t).map fun k => k.map (· + d.length) := by
  induction d with
  | nil => simp
  | cons c d ih =>
    rw [mem_cons, not_or] at h0 hnl
    rw [cons_append, strchr, if_neg (Ne.symm h0.1), if_neg (Ne.symm hnl.1), ih h0.2 hnl.2]
    cases strchr t with
    | none => rfl
    | some k => cases k <;> simp [Nat.add_assoc]

/-- The data in the buffer is processed line by line. -/
theorem scanLines_data (h0 : 0 ∉ d) : scanLines pattern (turns + d.count nl) pre (d ++ t) =
    (scanLines pattern turns (pre ++ processed pattern [] d) (lastLine d ++ t)).map fun x =>
      (x.1, x.2.1, selected pattern [] d ++ x.2.2) := by
  induction d using line_induction generalizing pre with
  | hlast d h =>
    rw [count_eq_zero.mpr h, processed_of_notMem h, lastLine_of_notMem h, selected_of_notMem h]
    simp
  | hline line d h ih =>
    simp only [mem_append, mem_cons, not_or] at h0
    have hfind : strchr (line ++ nl :: d ++ t) = some (some line.length) := by
      rw [append_assoc, strchr_append h0.1 h]
      simp [strchr, Ne.symm h0.2.1]
    have htake : (line ++ nl :: d ++ t).take line.length = line := by simp
    have hdrop : (line ++ nl :: d ++ t).drop (line.length + 1) = d ++ t := by simp
    have hcount : turns + (line ++ nl :: d).count nl = turns + d.count nl + 1 := by
      rw [count_append, count_eq_zero.mpr h, count_cons_self]
      omega
    rw [hcount, scanLines, hfind]
    simp only [htake, hdrop, lastLine_line, processed_line h, selected_line h, nil_append]
    by_cases hmatch : matchText pattern line = true
    · rw [if_pos hmatch, if_pos hmatch, if_pos hmatch, ih h0.2.2]
      simp [Function.comp_def]
    · rw [if_neg hmatch, if_neg hmatch, if_neg hmatch, ih h0.2.2]
      simp

/-- The inner loop with as many turns as it can make. -/
theorem scanLines_eq (h0 : 0 ∉ d) (hd : d.length ≤ 1024) : scanLines pattern 1025 [] (d ++ t) =
    (scanLines pattern (1024 - d.count nl + 1) (processed pattern [] d) (lastLine d ++ t)).map fun x =>
      (x.1, x.2.1, selected pattern [] d ++ x.2.2) := by
  have hcount := count_le_length (a := nl) (l := d)
  have hturns : 1025 = 1024 - d.count nl + 1 + d.count nl := by omega
  rw [← nil_append (processed pattern [] d), ← scanLines_data h0, ← hturns]

theorem zero_notMem_lastLine (h0 : 0 ∉ d) : 0 ∉ lastLine d :=
  fun h => h0 ((rtakeWhile_suffix ..).subset h)

theorem scanLines_stop (h0 : 0 ∉ d) (ht : strchr t = some none) :
    scanLines pattern (turns + 1) pre (lastLine d ++ t) = some (pre, lastLine d ++ t, []) := by
  rw [scanLines, strchr_append (zero_notMem_lastLine h0) (notMem_lastLine d), ht]
  rfl

end

/-! ## Input that is printed as it should be -/

/-- Whether the chunks can be read one after the other behind `r`, which begins a line and has `stale`
behind it in `buf`: each time a newline has been read, and behind the data there is a zero in `buf`
before any newline. -/
def Clean (r stale : List UInt8) : List (List UInt8) → Prop
  | [] => True
  | c :: cs =>
    nl ∈ r ++ c ∧ strchr (stale.drop c.length) = some none ∧
      Clean (lastLine (r ++ c))
        ((r ++ c ++ stale.drop c.length).drop (lastLine (r ++ c)).length) cs

section

variable {pattern r stale stale' : List UInt8} {cs : List (List UInt8)}

theorem grepLoop_cons (c : List UInt8) : grepLoop pattern (c :: cs) (r ++ stale) r.length =
    if r.length + c.length ≤ 1024 then
      (scanLines pattern 1025 [] (r ++ c ++ stale.drop c.length)).bind fun x =>
        (if x.1 = [] then grepLoop pattern cs x.2.1 0
        else
          let m : Int := r.length + c.length - x.1.length
          grepLoop pattern cs (x.2.1.take m.toNat ++ (x.1 ++ x.2.1).drop m.toNat) m).map (x.2.2 ++ ·)
    else none := by
  rw [grepLoop]
  by_cases hlen : r.length + c.length ≤ 1024
  · rw [if_pos (by omega), if_pos hlen]
    have hbuf : (r ++ stale).take (r.length : Int).toNat ++ c ++
        (r ++ stale).drop ((r.length : Int).toNat + c.length) = r ++ c ++ stale.drop c.length := by
      simp [drop_append]
    rw [hbuf]
    simp only [Option.bind_eq_bind, Option.pure_def]
    congr 1
    funext x
    by_cases hx : x.1 = []
    · simp only [if_pos hx, Option.map_eq_bind]
      rfl
    · simp only [if_neg hx, Option.map_eq_bind]
      rfl
  · rw [if_neg (by omega), if_neg hlen]

theorem length_processed (pattern d : List UInt8) :
    (processed pattern [] d).length + (lastLine d).length = d.length := by
  rw [← (blanks_processed d).length_eq, ← length_append, fullLines_append_lastLine]

theorem grepLoop_of_clean (hclean : Clean r stale cs) (hb : Blanks stale stale')
    (hlen : r.length + stale.length = 1024) (h0 : 0 ∉ r ++ cs.flatten) (hr : nl ∉ r) :
    grepLoop pattern cs (r ++ stale') r.length = some (selected pattern [] (r ++ cs.flatten)) := by
  induction cs generalizing r stale stale' with
  | nil => rw [flatten_nil, append_nil, selected_of_notMem hr]; rfl
  | cons c cs ih =>
    obtain ⟨hnl, hzero, hrest⟩ := hclean
    rw [flatten_cons, ← append_assoc] at h0 ⊢
    have h0d : 0 ∉ r ++ c := fun h => h0 (mem_append_left _ h)
    have hroom : c.length < stale.length := by
      by_contra hle
      rw [drop_eq_nil_of_le (by omega)] at hzero
      cases hzero
    have hd : (r ++ c).length ≤ 1024 := by
      rw [length_append]
      omega
    have hproc := length_processed pattern (r ++ c)
    have hne : processed pattern [] (r ++ c) ≠ [] := by
      rw [← length_pos_iff, ← (blanks_processed _).length_eq, length_pos_iff]
      exact fullLines_ne_nil hnl
    rw [grepLoop_cons, if_pos (by simpa using hd), scanLines_eq h0d hd,
      scanLines_stop h0d ((hb.drop _).strchr hzero)]
    simp only [map_some, bind_some, append_nil, if_neg hne]
    have hm : ((r.length + c.length : Int) - (processed pattern [] (r ++ c)).length) =
        (lastLine (r ++ c)).length := by
      rw [length_append] at hproc
      omega
    have hblank : Blanks ((r ++ c ++ stale.drop c.length).drop (lastLine (r ++ c)).length)
        ((processed pattern [] (r ++ c) ++ (lastLine (r ++ c) ++ stale'.drop c.length)).drop
          (lastLine (r ++ c)).length) := by
      refine Blanks.drop ?_ _
      nth_rewrite 1 [← fullLines_append_lastLine (r ++ c)]
      rw [append_assoc]
      exact (blanks_processed _).append ((Blanks.refl _).append (hb.drop _))
    rw [hm, Int.toNat_natCast, take_left, ih hrest hblank ?_ ?_ (notMem_lastLine _)]
    · rw [selected_append (r ++ c) cs.flatten]
      rfl
    · have hle : (lastLine (r ++ c)).length ≤ (r ++ c).length := (rtakeWhile_suffix ..).length_le
      simp only [length_drop, length_append] at hle ⊢
      omega
    · intro hmem
      rcases mem_append.mp hmem with hmem | hmem
      · exact zero_notMem_lastLine h0d hmem
      · exact h0 (mem_append_right _ hmem)

/-! ## Input that is not -/

theorem matchText_nil (text : List UInt8) : matchText [] text = true := by
  rw [matchText, if_neg (by decide)]
  unfold matchLoop
  rw [if_pos matchhere_nil]

theorem selected_nil (d : List UInt8) : selected [] [] d = fullLines d := by
  induction d using line_induction with
  | hlast d h => rw [selected_of_notMem h, fullLines_of_notMem h]
  | hline line d h ih => rw [selected_line h, matchText_nil, if_pos rfl, fullLines_line, ih]; simp

theorem processed_nil (d : List UInt8) : processed [] [] d = fullLines d := by
  induction d using line_induction with
  | hlast d h => rw [processed_of_notMem h, fullLines_of_notMem h]
  | hline line d h ih => rw [processed_line h, matchText_nil, if_pos rfl, fullLines_line, ih]; simp

variable {pre buf out : List UInt8} {turns : Nat} {x : List UInt8 × List UInt8 × List UInt8}

theorem length_le_scanLines {u : List UInt8} (h : scanLines [] turns pre u = some x) :
    pre.length ≤ x.1.length := by
  induction turns generalizing pre u x with
  | zero => cases h
  | succ turns ih =>
    rw [scanLines] at h
    split at h
    · cases h
    · cases h
      exact le_rfl
    · rw [matchText_nil, if_pos rfl] at h
      obtain ⟨y, hy, rfl⟩ := map_eq_some_iff.mp h
      have := ih hy
      simp only [length_append] at this ⊢
      omega

/-- A search that goes on behind the data finds a line that ends there. -/
theorem scanLines_stale {d t : List UInt8} {k : Nat} (h0 : 0 ∉ d) (ht : strchr t = some (some k))
    (hscan : scanLines [] turns pre (lastLine d ++ t) = some x) :
    pre.length + (lastLine d).length < x.1.length ∧ (lastLine d).length < x.2.2.length := by
  cases turns with
  | zero => cases hscan
  | succ turns =>
    rw [scanLines, strchr_append (zero_notMem_lastLine h0) (notMem_lastLine d), ht] at hscan
    simp only [map_some, matchText_nil, if_true] at hscan
    obtain ⟨y, hy, rfl⟩ := map_eq_some_iff.mp hscan
    have := length_le_scanLines hy
    simp only [length_append, length_take, length_singleton] at this ⊢
    omega

theorem grepLoop_neg {m : Int} (hm : m < 0) (h : grepLoop pattern cs buf m = some out) :
    cs = [] ∧ out = [] := by
  cases cs with
  | nil => exact ⟨rfl, (some.inj h).symm⟩
  | cons c cs =>
    rw [grepLoop, if_neg (by omega)] at h
    cases h

/-- What a turn of the outer loop does with the empty pattern, which matches all lines: the lines in
the buffer are printed, and the loop goes on behind them unless there is a newline behind the data. -/
theorem grepLoop_turn {c : List UInt8} (h0 : 0 ∉ r ++ c)
    (h : grepLoop [] (c :: cs) (r ++ stale) r.length = some out) :
    ∃ x, out = fullLines (r ++ c) ++ x ∧
      ((strchr (stale.drop c.length) = some none ∧
        (if nl ∈ r ++ c then
          grepLoop [] cs (lastLine (r ++ c) ++
            (r ++ c ++ stale.drop c.length).drop (lastLine (r ++ c)).length) (lastLine (r ++ c)).length
        else grepLoop [] cs (r ++ c ++ stale.drop c.length) 0) = some x) ∨
      cs = [] ∧ (lastLine (r ++ c)).length < x.length) := by
  rw [grepLoop_cons] at h
  split at h
  case isFalse => cases h
  case isTrue hd =>
    rw [← length_append] at hd
    rw [scanLines_eq h0 hd, processed_nil, selected_nil] at h
    obtain ⟨_, hscan, hrest⟩ := bind_eq_some_iff.mp h
    obtain ⟨x, hx, rfl⟩ := map_eq_some_iff.mp hscan
    obtain ⟨rest, hgo, rfl⟩ := map_eq_some_iff.mp hrest
    refine ⟨x.2.2 ++ rest, append_assoc .., ?_⟩
    have hfull := fullLines_append_lastLine (r ++ c)
    have hlen := congrArg List.length hfull
    simp only [length_append] at hlen
    match hs : strchr (stale.drop c.length) with
    | none =>
      rw [scanLines, strchr_append (zero_notMem_lastLine h0) (notMem_lastLine _), hs] at hx
      cases hx
    | some none =>
      rw [scanLines_stop h0 hs] at hx
      cases hx
      refine .inl ⟨rfl, ?_⟩
      simp only [← hgo, nil_append]
      by_cases hnl : nl ∈ r ++ c
      · have hne := fullLines_ne_nil hnl
        have hm : (r.length + c.length - (fullLines (r ++ c)).length : Int) =
            (lastLine (r ++ c)).length := by omega
        rw [if_pos hnl, if_neg hne, hm, Int.toNat_natCast, take_left, ← append_assoc, hfull]
      · rw [if_neg hnl, if_pos (fullLines_of_notMem hnl), lastLine_of_notMem hnl]
    | some (some k) =>
      have hstale := scanLines_stale h0 hs hx
      have hne : x.1 ≠ [] := ne_nil_of_length_pos (by omega)
      rw [if_neg hne] at hgo
      have hm : (r.length + c.length - x.1.length : Int) < 0 := by omega
      refine .inr ⟨(grepLoop_neg hm hgo).1, ?_⟩
      rw [length_append]
      omega

/-- Data without a newline is lost, so that the first line that is printed is no longer than what
comes after the data. -/
theorem grepLoop_dropped (h : grepLoop [] cs buf 0 = some out) (hnl : nl ∈ cs.flatten)
    (h0 : 0 ∉ cs.flatten) : out.idxOf nl ≤ cs.flatten.idxOf nl := by
  induction cs generalizing buf out with
  | nil => cases hnl
  | cons c cs ih =>
    rw [flatten_cons] at hnl h0 ⊢
    have h0c : 0 ∉ c := fun hc => h0 (mem_append_left _ hc)
    obtain ⟨x, rfl, hturn⟩ := grepLoop_turn (r := []) h0c h
    rw [nil_append] at hturn ⊢
    by_cases hc : nl ∈ c
    · obtain ⟨f, c', rfl, hf⟩ := eq_append_cons_of_mem hc
      rw [fullLines_line, append_assoc, append_assoc, idxOf_append_of_notMem hf,
        idxOf_append_of_notMem hf, cons_append, cons_append, idxOf_cons_self,
        idxOf_cons_self]
    · have hnl := (mem_append.mp hnl).resolve_left hc
      rw [fullLines_of_notMem hc, nil_append, idxOf_append_of_notMem hc]
      rcases hturn with ⟨_, hrest⟩ | ⟨rfl, _⟩
      · rw [if_neg hc] at hrest
        have := ih hrest hnl fun hz => h0 (mem_append_right _ hz)
        omega
      · cases hnl

theorem lastLine_append (d s : List UInt8) : lastLine (lastLine d ++ s) = lastLine (d ++ s) := by
  induction d using line_induction with
  | hlast d h => rw [lastLine_of_notMem h]
  | hline line d h ih => rw [lastLine_line, ih, append_assoc, cons_append, lastLine_line]

theorem clean_of_grepLoop (h : grepLoop [] cs (r ++ stale) r.length = some (r ++ cs.flatten))
    (hne : ∀ c ∈ cs, c ≠ []) (h0 : 0 ∉ r ++ cs.flatten)
    (hend : lastLine (r ++ cs.flatten) = []) : Clean r stale cs := by
  induction cs generalizing r stale with
  | nil => trivial
  | cons c cs ih =>
    rw [flatten_cons, ← append_assoc] at h h0 hend
    have h0d : 0 ∉ r ++ c := fun hc => h0 (mem_append_left _ hc)
    have h0s : 0 ∉ cs.flatten := fun hc => h0 (mem_append_right _ hc)
    obtain ⟨x, hout, hturn⟩ := grepLoop_turn h0d h
    have hx : x = lastLine (r ++ c) ++ cs.flatten := by
      have hsplit := hout
      nth_rewrite 1 [← fullLines_append_lastLine (r ++ c)] at hsplit
      rw [append_assoc] at hsplit
      exact (append_cancel_left hsplit).symm
    subst hx
    rcases hturn with ⟨hs, hrest⟩ | ⟨rfl, hlong⟩
    · by_cases hnl : nl ∈ r ++ c
      · rw [if_pos hnl] at hrest
        refine ⟨hnl, hs, ih hrest (fun c hc => hne c (mem_cons_of_mem _ hc)) ?_ ?_⟩
        · rw [mem_append]
          exact not_or.mpr ⟨zero_notMem_lastLine h0d, h0s⟩
        · rw [lastLine_append, hend]
      · -- the data is lost, so the first line that is printed cannot be the whole line
        rw [if_neg hnl, lastLine_of_notMem hnl] at hrest
        have hc : 0 < c.length := length_pos_of_ne_nil (hne c mem_cons_self)
        have hmem : nl ∈ cs.flatten := by
          by_contra hno
          rw [lastLine_of_notMem fun hall => (mem_append.mp hall).elim hnl hno] at hend
          have := congrArg List.length hend
          simp only [length_append, length_nil] at this
          omega
        have hfirst := grepLoop_dropped hrest hmem h0s
        rw [idxOf_append_of_notMem hnl, length_append] at hfirst
        omega
    · rw [flatten_nil, append_nil] at hlong
      omega

end

/-- Whatever the pattern is, `grep` prints the lines of its input that match just if what `read`
returns is clean. -/
theorem grep_selects_iff (chunks : List (List UInt8)) (hne : ∀ c ∈ chunks, c ≠ [])
    (h0 : 0 ∉ chunks.flatten) (hend : lastLine chunks.flatten = []) :
    (∀ pattern, grep pattern chunks = some (selected pattern [] chunks.flatten)) ↔
      Clean [] (List.replicate 1024 0) chunks := by
  constructor
  · intro h
    have hfull := fullLines_append_lastLine chunks.flatten
    rw [hend, append_nil] at hfull
    have hall := h []
    rw [selected_nil, hfull] at hall
    exact clean_of_grepLoop hall hne h0 hend
  · intro hclean pattern
    have hlen : ([] : List UInt8).length + (List.replicate 1024 (0 : UInt8)).length = 1024 := by
      rw [length_replicate, length_nil]
    exact grepLoop_of_clean hclean (Blanks.refl _) hlen h0 not_mem_nil

/-- The line `bc` comes in two chunks, and the second one covers the newline that the first one left
behind it. -/
theorem grep_selects_split : (∀ c ∈ [[97, nl, 98], [99, nl]], c ≠ []) ∧
    0 ∉ [[97, nl, 98], [99, nl]].flatten ∧ lastLine [[97, nl, 98], [99, nl]].flatten = [] ∧
    ∀ pattern, grep pattern [[97, nl, 98], [99, nl]] =
      some (selected pattern [] [97, nl, 98, 99, nl]) := by
  have hzero : strchr ((List.replicate 1024 (0 : UInt8)).drop 3) = some none := by
    rw [drop_replicate]
    rfl
  have hlast : lastLine ([] ++ [97, nl, 98]) = [98] := by decide
  have hclean : Clean [] (List.replicate 1024 0) [[97, nl, 98], [99, nl]] := by
    refine ⟨by decide, hzero, ?_⟩
    rw [hlast]
    exact ⟨by decide, hzero, trivial⟩
  exact ⟨by decide, by decide, by decide,
    (grep_selects_iff [[97, nl, 98], [99, nl]] (by decide) (by decide) (by decide)).mpr hclean⟩

/-- When the line `ab` comes in two chunks `grep` loses its `a`. -/
theorem grep_drops : grep [] [[97], [98, nl]] ≠ some (selected [] [] [97, 98, nl]) := by
  intro h
  have hall : selected [] [] [97, 98, nl] = [97, 98, nl] := by
    rw [selected_nil]
    decide
  rw [hall] at h
  have hclean : Clean [] (List.replicate 1024 0) [[97], [98, nl]] :=
    clean_of_grepLoop h (by decide) (by decide) (by decide)
  exact absurd hclean.1 (by decide)

end Xv6.Grep
