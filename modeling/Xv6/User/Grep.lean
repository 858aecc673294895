import Mathlib.Computability.Language

/-!
# The matcher of grep

`match`, `matchhere` and `matchstar` (`grep.c:71-105`), and the language of a pattern. A string of C
is a list of bytes: reading behind its end gives the zero byte that terminates it.
-/

namespace Xv6.Grep

open scoped Computability

/-! ## The matcher -/

def caret : UInt8 := '^'.toUInt8
def star : UInt8 := '*'.toUInt8
def dollar : UInt8 := '$'.toUInt8
def dot : UInt8 := '.'.toUInt8

mutual

/-- `matchhere` (`grep.c:83-94`). -/
def matchhere (re text : List UInt8) : Bool :=
  if _hre : re.getD 0 0 = 0 then
    true
  else if re.getD 1 0 = star then
    matchstar (re.getD 0 0) (re.drop 2) text
  else if re.getD 0 0 = dollar ∧ re.getD 1 0 = 0 then
    decide (text.getD 0 0 = 0)
  else if text.getD 0 0 ≠ 0 ∧ (re.getD 0 0 = dot ∨ re.getD 0 0 = text.getD 0 0) then
    matchhere (re.drop 1) (text.drop 1)
  else
    false
termination_by (re.length, 0)
decreasing_by all_goals
  have hpos : 0 < re.length := by
    rw [List.length_pos_iff]
    rintro rfl
    exact _hre rfl
  apply Prod.Lex.left
  rw [List.length_drop]
  omega

/-- `matchstar` (`grep.c:97-104`). -/
def matchstar (c : UInt8) (re text : List UInt8) : Bool :=
  if matchhere re text then
    true
  else if _htext : text.getD 0 0 ≠ 0 ∧ (text.getD 0 0 = c ∨ c = dot) then
    matchstar c re (text.drop 1)
  else
    false
termination_by (re.length, text.length + 1)
decreasing_by
  · exact Prod.Lex.right _ (Nat.succ_pos _)
  · have hpos : 0 < text.length := by
      rw [List.length_pos_iff]
      rintro rfl
      exact _htext.1 rfl
    apply Prod.Lex.right
    rw [List.length_drop]
    omega

end

/-- The loop of `match` over the places where a match may begin (`grep.c:76-79`). -/
def matchLoop (re text : List UInt8) : Bool :=
  if matchhere re text then
    true
  else if _htext : text.getD 0 0 ≠ 0 then
    matchLoop re (text.drop 1)
  else
    false
termination_by text.length
decreasing_by
  have hpos : 0 < text.length := by
    rw [List.length_pos_iff]
    rintro rfl
    exact _htext rfl
  rw [List.length_drop]
  omega

/-- `match` (`grep.c:71-80`). -/
def matchText (re text : List UInt8) : Bool :=
  if re.getD 0 0 = caret then matchhere (re.drop 1) text else matchLoop re text

/-! ## The language of a pattern -/

/-- What one item stands for: a byte, or any. -/
def Fits (c a : UInt8) : Prop := c = dot ∨ c = a

instance (c a : UInt8) : Decidable (Fits c a) := inferInstanceAs (Decidable (_ ∨ _))

/-- A byte or a dot, and whether it may be repeated. -/
structure Item where
  char : UInt8
  repeated : Bool

/-- The words of one byte that fit. -/
def letter (c : UInt8) : Language UInt8 := {w | ∃ a, w = [a] ∧ Fits c a}

/-- The words of an item. -/
def Item.lang (i : Item) : Language UInt8 := if i.repeated then (letter i.char)∗ else letter i.char

/-- The words of a sequence of items. -/
def lang : List Item → Language UInt8
  | [] => 1
  | i :: is => i.lang * lang is

/-- The items of a pattern, and whether a bare dollar is the last one. A star stands for itself where
there is nothing that it could repeat. -/
def parse : List UInt8 → List Item × Bool
  | [] => ([], false)
  | [c] => if c = dollar then ([], true) else ([⟨c, false⟩], false)
  | c :: d :: re =>
    if d = star then (⟨c, true⟩ :: (parse re).1, (parse re).2)
    else (⟨c, false⟩ :: (parse (d :: re)).1, (parse (d :: re)).2)

/-- A pattern as it is understood: where a match may begin and end, and the items between. -/
structure Pattern where
  fromStart : Bool
  items : List Item
  toEnd : Bool

/-- The pattern that a string stands for. -/
def pattern (re : List UInt8) : Pattern :=
  if re.getD 0 0 = caret then ⟨true, (parse (re.drop 1)).1, (parse (re.drop 1)).2⟩
  else ⟨false, (parse re).1, (parse re).2⟩

/-- Some part of `text` is a word of the pattern. -/
def Pattern.Matches (p : Pattern) (text : List UInt8) : Prop :=
  ∃ before w after, text = before ++ w ++ after ∧ w ∈ lang p.items ∧
    (p.fromStart = true → before = []) ∧ (p.toEnd = true → after = [])

/-! ## Words -/

variable {c : UInt8} {w text re : List UInt8} {toEnd : Bool} {items : List Item}

theorem mem_letter : w ∈ letter c ↔ ∃ a, w = [a] ∧ Fits c a := Iff.rfl

theorem mem_kstar_letter : w ∈ (letter c)∗ ↔ ∀ a ∈ w, Fits c a := by
  rw [Language.mem_kstar]
  constructor
  · rintro ⟨ws, rfl, hws⟩ a ha
    obtain ⟨v, hv, hav⟩ := List.mem_flatten.mp ha
    obtain ⟨b, rfl, hb⟩ := mem_letter.mp (hws v hv)
    rw [List.mem_singleton.mp hav]
    exact hb
  · intro h
    refine ⟨w.map fun a => [a], ?_, ?_⟩
    · rw [← List.flatMap_def, List.flatMap_singleton']
    · intro v hv
      obtain ⟨a, ha, rfl⟩ := List.mem_map.mp hv
      exact mem_letter.mpr ⟨a, rfl, h a ha⟩

/-- `text` begins with a word of the items, and is one if nothing may follow. -/
def Begins (items : List Item) (toEnd : Bool) (text : List UInt8) : Prop :=
  ∃ w after, text = w ++ after ∧ w ∈ lang items ∧ (toEnd = true → after = [])

theorem begins_nil : Begins [] toEnd text ↔ (toEnd = true → text = []) := by
  constructor
  · rintro ⟨w, after, rfl, hw, hend⟩ ht
    rw [(Language.mem_one ..).mp hw, hend ht]
    rfl
  · intro h
    exact ⟨[], text, rfl, Language.nil_mem_one, h⟩

theorem begins_cons {i : Item} : Begins (i :: items) toEnd text ↔
      ∃ u rest, text = u ++ rest ∧ u ∈ i.lang ∧ Begins items toEnd rest := by
  constructor
  · rintro ⟨w, after, rfl, hw, hend⟩
    obtain ⟨u, hu, v, hv, rfl⟩ := Language.mem_mul.mp hw
    exact ⟨u, v ++ after, List.append_assoc .., hu, v, after, rfl, hv, hend⟩
  · rintro ⟨u, rest, rfl, hu, v, after, rfl, hv, hend⟩
    exact ⟨u ++ v, after, (List.append_assoc ..).symm, Language.mem_mul.mpr ⟨u, hu, v, hv, rfl⟩, hend⟩

/-! ## The matcher finds words -/

theorem fits_iff {a : UInt8} : (a = c ∨ c = dot) ↔ Fits c a := by
  rw [Fits, or_comm, @eq_comm _ a]

/-! The equations of the matcher on strings that contain no zero byte. -/

section

variable {a c : UInt8} {re text : List UInt8}

theorem matchhere_nil : matchhere [] text = true := by
  rw [matchhere]
  rfl

theorem matchhere_star (hc : c ≠ 0) :
    matchhere (c :: star :: re) text = matchstar c re text := by
  rw [matchhere]
  simp [hc]

theorem matchhere_dollar : matchhere [dollar] text = decide (text.getD 0 0 = 0) := by
  rw [matchhere, dif_neg (by decide), if_neg (by decide), if_pos ⟨rfl, rfl⟩]

theorem matchhere_item (hc : c ≠ 0) (hstar : re.getD 0 0 ≠ star)
    (hdollar : ¬ (c = dollar ∧ re.getD 0 0 = 0)) : matchhere (c :: re) text =
      if text.getD 0 0 ≠ 0 ∧ Fits c (text.getD 0 0) then matchhere re (text.drop 1) else false := by
  have hc' : (c :: re).getD 0 0 ≠ 0 := hc
  have hstar' : (c :: re).getD 1 0 ≠ star := hstar
  have hdollar' : ¬ ((c :: re).getD 0 0 = dollar ∧ (c :: re).getD 1 0 = 0) := hdollar
  rw [matchhere, dif_neg hc', if_neg hstar', if_neg hdollar']
  rfl

theorem matchstar_nil : matchstar c re [] = matchhere re [] := by
  rw [matchstar]
  simp

theorem matchstar_cons (ha : a ≠ 0) : matchstar c re (a :: text) = true ↔
    matchhere re (a :: text) = true ∨ Fits c a ∧ matchstar c re text = true := by
  rw [matchstar]
  by_cases hm : matchhere re (a :: text) = true
  · simp [hm]
  · by_cases hfit : a = c ∨ c = dot
    · simp [hm, ha, hfit, fits_iff.mp hfit]
    · simp [hm, hfit, mt fits_iff.mpr hfit]

theorem matchLoop_nil : matchLoop re [] = matchhere re [] := by
  rw [matchLoop]
  simp

theorem matchLoop_cons (ha : a ≠ 0) : matchLoop re (a :: text) = true ↔
    matchhere re (a :: text) = true ∨ matchLoop re text = true := by
  rw [matchLoop]
  simp [ha]

end

/-- `matchstar` tries every way to repeat the item. -/
theorem matchstar_iff (h : 0 ∉ text) : matchstar c re text = true ↔
      ∃ u rest, text = u ++ rest ∧ (∀ a ∈ u, Fits c a) ∧ matchhere re rest = true := by
  induction text with
  | nil =>
    rw [matchstar_nil]
    constructor
    · intro hm
      exact ⟨[], [], rfl, fun a ha => absurd ha List.not_mem_nil, hm⟩
    · rintro ⟨u, rest, heq, -, hm⟩
      obtain ⟨-, rfl⟩ := List.append_eq_nil_iff.mp heq.symm
      exact hm
  | cons a text ih =>
    obtain ⟨ha, htext⟩ := not_or.mp (mt List.mem_cons.mpr h)
    rw [matchstar_cons (Ne.symm ha), ih htext]
    constructor
    · rintro (hm | ⟨hfit, u, rest, rfl, hu, hm⟩)
      · exact ⟨[], a :: text, rfl, fun b hb => absurd hb List.not_mem_nil, hm⟩
      · exact ⟨a :: u, rest, rfl, List.forall_mem_cons.mpr ⟨hfit, hu⟩, hm⟩
    · rintro ⟨u, rest, heq, hu, hm⟩
      cases u with
      | nil =>
        rw [heq]
        exact .inl hm
      | cons b u =>
        obtain ⟨rfl, rfl⟩ := List.cons_eq_cons.mp heq
        obtain ⟨hfit, hu⟩ := List.forall_mem_cons.mp hu
        exact .inr ⟨hfit, u, rest, rfl, hu, hm⟩

theorem matchhere_one (hc : c ≠ 0) (hstar : re.getD 0 0 ≠ star)
    (hdollar : ¬ (c = dollar ∧ re.getD 0 0 = 0))
    (htext : 0 ∉ text)
    (ih : ∀ {rest}, 0 ∉ rest → (matchhere re rest = true ↔ Begins items toEnd rest)) :
    matchhere (c :: re) text = true ↔ Begins (⟨c, false⟩ :: items) toEnd text := by
  rw [begins_cons]
  cases text with
  | nil =>
    rw [matchhere_item hc hstar hdollar, if_neg fun h => h.1 rfl]
    constructor
    · intro hfalse
      exact absurd hfalse Bool.false_ne_true
    · rintro ⟨u, rest, heq, ⟨a, rfl, -⟩, -⟩
      exact absurd heq (List.cons_ne_nil _ _).symm
  | cons a text =>
    obtain ⟨ha, htext⟩ := not_or.mp (mt List.mem_cons.mpr htext)
    rw [matchhere_item hc hstar hdollar]
    constructor
    · intro hm
      split at hm
      · rename_i hfit
        exact ⟨[a], text, rfl, ⟨a, rfl, hfit.2⟩, (ih htext).mp hm⟩
      · exact absurd hm Bool.false_ne_true
    · rintro ⟨u, rest, heq, ⟨b, rfl, hfit⟩, hb⟩
      obtain ⟨rfl, rfl⟩ := List.cons_eq_cons.mp heq
      rw [if_pos ⟨Ne.symm ha, hfit⟩]
      exact (ih htext).mpr hb

/-- `matchhere` finds the words of the pattern at the beginning of the text. -/
theorem matchhere_iff (hre : 0 ∉ re) : ∀ {text : List UInt8}, 0 ∉ text →
    (matchhere re text = true ↔ Begins (parse re).1 (parse re).2 text) := by
  induction re using parse.induct with
  | case1 =>
    intro text _
    rw [matchhere_nil, parse, begins_nil]
    simp
  | case2 =>
    intro text htext
    rw [matchhere_dollar, parse, if_pos rfl, begins_nil]
    cases text with
    | nil => simp
    | cons a text => simp_all [eq_comm]
  | case3 c hc =>
    intro text htext
    rw [parse, if_neg hc]
    apply matchhere_one (Ne.symm (by simpa using hre)) (by decide) (fun h => hc h.1) htext
    intro rest _
    rw [matchhere_nil, begins_nil]
    simp
  | case4 c re ih =>
    intro text htext
    obtain ⟨hc, -, hre⟩ : ¬ 0 = c ∧ ¬ 0 = star ∧ 0 ∉ re := by simpa using hre
    rw [matchhere_star (Ne.symm hc), parse, if_pos rfl, matchstar_iff htext, begins_cons]
    constructor
    · rintro ⟨u, rest, rfl, hu, hm⟩
      have hrest : 0 ∉ rest := fun h => htext (List.mem_append_right u h)
      exact ⟨u, rest, rfl, mem_kstar_letter.mpr hu, (ih hre hrest).mp hm⟩
    · rintro ⟨u, rest, rfl, hu, hb⟩
      have hrest : 0 ∉ rest := fun h => htext (List.mem_append_right u h)
      exact ⟨u, rest, rfl, mem_kstar_letter.mp hu, (ih hre hrest).mpr hb⟩
  | case5 c d re hd ih =>
    intro text htext
    obtain ⟨hc, hd0, hre⟩ : ¬ 0 = c ∧ ¬ 0 = d ∧ 0 ∉ re := by simpa using hre
    rw [parse, if_neg hd]
    exact matchhere_one (Ne.symm hc) hd (fun h => hd0 h.2.symm) htext (ih (by simp [hd0, hre]))

/-- The loop of `match` tries every place. -/
theorem matchLoop_iff (h : 0 ∉ text) : matchLoop re text = true ↔
    ∃ before rest, text = before ++ rest ∧ matchhere re rest = true := by
  induction text with
  | nil =>
    rw [matchLoop_nil]
    constructor
    · intro hm
      exact ⟨[], [], rfl, hm⟩
    · rintro ⟨before, rest, heq, hm⟩
      obtain ⟨-, rfl⟩ := List.append_eq_nil_iff.mp heq.symm
      exact hm
  | cons a text ih =>
    obtain ⟨ha, htext⟩ := not_or.mp (mt List.mem_cons.mpr h)
    rw [matchLoop_cons (Ne.symm ha), ih htext]
    constructor
    · rintro (hm | ⟨before, rest, rfl, hm⟩)
      · exact ⟨[], a :: text, rfl, hm⟩
      · exact ⟨a :: before, rest, rfl, hm⟩
    · rintro ⟨before, rest, heq, hm⟩
      cases before with
      | nil =>
        rw [heq]
        exact .inl hm
      | cons b before =>
        obtain ⟨-, rfl⟩ := List.cons_eq_cons.mp heq
        exact .inr ⟨before, rest, rfl, hm⟩

/-- `match` finds the texts that have a part in the language of the pattern. -/
theorem matchText_iff {re text : List UInt8} (hre : 0 ∉ re) (htext : 0 ∉ text) :
    matchText re text = true ↔ (pattern re).Matches text := by
  unfold matchText pattern
  split
  · have hdrop : 0 ∉ re.drop 1 := fun h => hre (List.mem_of_mem_drop h)
    rw [matchhere_iff hdrop htext]
    constructor
    · rintro ⟨w, after, rfl, hw, hend⟩
      exact ⟨[], w, after, rfl, hw, fun _ => rfl, hend⟩
    · rintro ⟨before, w, after, rfl, hw, hstart, hend⟩
      rw [hstart rfl] at htext ⊢
      exact ⟨w, after, rfl, hw, hend⟩
  · rw [matchLoop_iff htext]
    constructor
    · rintro ⟨before, rest, rfl, hm⟩
      have hrest : 0 ∉ rest := fun h => htext (List.mem_append_right before h)
      obtain ⟨w, after, rfl, hw, hend⟩ := (matchhere_iff hre hrest).mp hm
      exact ⟨before, w, after, (List.append_assoc ..).symm, hw,
        fun h => absurd h Bool.false_ne_true, hend⟩
    · rintro ⟨before, w, after, rfl, hw, -, hend⟩
      rw [List.append_assoc] at htext ⊢
      have hrest : 0 ∉ w ++ after := fun h => htext (List.mem_append_right before h)
      exact ⟨before, w ++ after, rfl, (matchhere_iff hre hrest).mpr ⟨w, after, rfl, hw, hend⟩⟩

/-- The pattern `b*$` in the text `ab`. -/
theorem matchText_iff_ab : (pattern [98, star, dollar]).Matches [97, 98] := by
  have hend : matchhere [dollar] [] = true := by
    rw [matchhere_dollar]
    rfl
  have hstar : matchstar 98 [dollar] [98] = true :=
    (matchstar_cons (by decide)).mpr (.inr ⟨by decide, by rw [matchstar_nil, hend]⟩)
  have hhere : matchhere [98, star, dollar] [98] = true := by
    rw [matchhere_star (by decide), hstar]
  have hloop : matchLoop [98, star, dollar] [97, 98] = true :=
    (matchLoop_iff (by decide)).mpr ⟨[97], [98], rfl, hhere⟩
  apply (matchText_iff (by decide) (by decide)).mp
  rw [matchText, if_neg (by decide), hloop]

end Xv6.Grep
