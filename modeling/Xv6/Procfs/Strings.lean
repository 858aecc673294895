import Mathlib.Data.Nat.Digits.Lemmas
import Xv6.Lib.Buffer
import Xv6.Procfs.Listing

/-!
# The string functions of `string.c`

`strlen`, `strncpy` and `itoa` as they load and store bytes of a buffer. Each has one equation that
says what it leaves there. An append of `procfs.c` is one of them at `buf + strlen(buf)`, and the
rules at the end say what it adds to a text.
-/

namespace Xv6

open Lib Fmt List

namespace Cstring

/-- `strlen(buf + s)` (`string.c:95-103`), for a buffer of `size` bytes. -/
def strlen (size s : Nat) : Fmt Nat := fun b =>
  ((List.range (size - s)).find? fun i => decide (b.byte (s + i) = 0), b)

/-- `strncpy(buf + s, t, n)` (`string.c:68-78`): behind the end of `t` there are zeros. -/
def strncpy : Nat → List UInt8 → Nat → Fmt Unit
  | _, _, 0 => pure ()
  | s, [], n + 1 => do
    put s 0
    strncpy (s + 1) [] n
  | s, c :: t, n + 1 => do
    put s c
    strncpy (s + 1) t n

/-- The first loop of `itoa` (`string.c:111-113`), which stores the last digit first; the index
behind the digits is returned. -/
def itoaDigits : Nat → Nat → Nat → Fmt Nat
  | 0, _, i => return i
  | fuel + 1, x, i => do
    put i (UInt8.ofNat (48 + x % 10))
    if x / 10 = 0 then return i + 1 else itoaDigits fuel (x / 10) (i + 1)

/-- The second loop of `itoa` (`string.c:116-120`), which turns the string at `s` around. -/
def itoaSwap (size s : Nat) : Nat → Nat → Fmt Unit
  | 0, _ => stop
  | turns + 1, i => do
    let n ← strlen size s
    if i < n / 2 then
      let tmp ← load (s + i)
      let c ← load (s + (n - i - 1))
      put (s + i) c
      put (s + (n - i - 1)) tmp
      itoaSwap size s turns (i + 1)
    else
      return ()

/-- `itoa(x, buf + s)` (`string.c:106-121`). A negative number is an index outside of `digits`. -/
def itoa (size : Nat) (x : Int) (s : Nat) : Fmt Unit := do
  if x < 0 then
    stop
  else
    let i ← itoaDigits 10 x.toNat s
    put i 0
    itoaSwap size s 6 0

/-- `strncpy(buf + strlen(buf), t, n)`. -/
def append (size : Nat) (t : List UInt8) (n : Nat) : Fmt Unit := do
  let s ← strlen size 0
  strncpy s t n

/-- `itoa(x, buf + strlen(buf))`. -/
def appendItoa (size : Nat) (x : Int) : Fmt Unit := do
  let s ← strlen size 0
  itoa size x s

section

variable {b : Buffer} {size s x i n fuel room : Nat} {t u : List UInt8}

/-! ## What they leave in the buffer -/

theorem strlen_run (h : b.Text s t) (hsize : s + t.length < size) :
    strlen size s b = (some t.length, b) := by
  have hfind : (List.range (size - s)).find? (fun i => decide (b.byte (s + i) = 0)) =
      some t.length := by
    rw [find?_range_eq_some]
    refine ⟨?_, by simp; omega, fun j hj => ?_⟩
    · rw [h.chars _ le_rfl, getD_eq_default _ _ le_rfl]
      rfl
    · rw [h.chars j hj.le]
      simpa using Buffer.getD_ne_zero h.plain hj
  rw [strlen, hfind]

theorem strncpy_run (t : List UInt8) (m : Nat) :
    strncpy s t (t.length + m) b = (some (), b.store s (t ++ List.replicate m 0)) := by
  induction t generalizing s b with
  | nil =>
    induction m generalizing s b with
    | zero => rfl
    | succ m ih =>
      rw [length_nil, Nat.zero_add] at ih ⊢
      exact ih
  | cons c t ih =>
    rw [length_cons, Nat.add_right_comm]
    exact ih

theorem itoaDigits_run (fuel x i : Nat) (b : Buffer) :
    itoaDigits fuel x i b =
      (some (i + (itoaLoop fuel x).length), b.store i (itoaLoop fuel x)) := by
  induction fuel generalizing x i b with
  | zero => rfl
  | succ fuel ih =>
    show (if x / 10 = 0 then pure (i + 1) else itoaDigits fuel (x / 10) (i + 1) : Fmt Nat)
      (b.set i (UInt8.ofNat (48 + x % 10))) = _
    by_cases hx : x / 10 = 0
    · rw [if_pos hx, itoaLoop, if_pos hx]
      rfl
    · rw [if_neg hx, itoaLoop, if_neg hx, ih, length_cons]
      rw [Nat.add_right_comm, Nat.add_assoc]
      rfl

theorem itoaLoop_plain : (0 : UInt8) ∉ itoaLoop fuel x := by
  induction fuel generalizing x with
  | zero => simp [itoaLoop]
  | succ fuel ih =>
    have hdigit : (0 : UInt8) ≠ UInt8.ofNat (48 + x % 10) := by
      have hlt : x % 10 < 10 := Nat.mod_lt _ (by omega)
      intro h
      have := congrArg UInt8.toNat h
      simp at this
      omega
    rw [itoaLoop, mem_cons]
    rintro (h | h)
    · exact hdigit h
    · split at h
      · cases h
      · exact ih h

theorem itoaLoop_length (fuel x : Nat) : (itoaLoop fuel x).length ≤ fuel := by
  induction fuel generalizing x with
  | zero => simp [itoaLoop]
  | succ fuel ih =>
    rw [itoaLoop, length_cons]
    split
    · simp
    · exact Nat.succ_le_succ (ih _)

/-- `ds` with `i` bytes at either end exchanged. -/
def mirror (ds : List UInt8) (i : Nat) : List UInt8 :=
  (List.range ds.length).map fun j =>
    if j < i ∨ ds.length - i ≤ j then ds.getD (ds.length - j - 1) 0 else ds.getD j 0

@[simp] theorem mirror_length (ds : List UInt8) (i : Nat) : (mirror ds i).length = ds.length := by
  simp [mirror]

theorem mirror_getD {ds : List UInt8} {j : Nat} (h : j < ds.length) :
    (mirror ds i).getD j 0 =
      if j < i ∨ ds.length - i ≤ j then ds.getD (ds.length - j - 1) 0 else ds.getD j 0 := by
  rw [getD_eq_getElem _ _ (by simpa using h)]
  simp [mirror]

theorem mirror_zero (ds : List UInt8) : mirror ds 0 = ds := by
  apply ext_getElem (by simp)
  intro j _ hj
  rw [← getD_eq_getElem _ 0, mirror_getD hj, if_neg (by omega), getD_eq_getElem _ _ hj]

theorem mirror_half (ds : List UInt8) : mirror ds (ds.length / 2) = ds.reverse := by
  apply ext_getElem (by simp)
  intro j _ hj
  rw [length_reverse] at hj
  rw [← getD_eq_getElem _ 0, mirror_getD hj, getElem_reverse]
  split
  · rw [getD_eq_getElem _ _ (by omega)]
    congr 1
    omega
  · rw [getD_eq_getElem _ _ hj]
    congr 1
    omega

theorem mirror_plain {ds : List UInt8} (h : (0 : UInt8) ∉ ds) : (0 : UInt8) ∉ mirror ds i := by
  unfold mirror
  rw [mem_map]
  rintro ⟨j, hj, h0⟩
  rw [mem_range] at hj
  split at h0
  · exact Buffer.getD_ne_zero h (by omega) h0
  · exact Buffer.getD_ne_zero h hj h0

theorem mirror_succ {ds : List UInt8} (h : i < ds.length / 2) :
    (((mirror ds i).set i (ds.getD (ds.length - i - 1) 0)).set (ds.length - i - 1)
      (ds.getD i 0)) = mirror ds (i + 1) := by
  apply ext_getElem (by simp)
  intro j hj _
  simp only [length_set, mirror_length] at hj
  rw [getElem_set, getElem_set]
  have hnew := mirror_getD (i := i + 1) hj
  have hold := mirror_getD (i := i) hj
  rw [getD_eq_getElem _ _ (by simpa using hj)] at hnew hold
  rw [hnew, hold]
  split
  · subst j
    rw [if_pos (by omega), show ds.length - (ds.length - i - 1) - 1 = i by omega]
  · split
    · subst j
      rw [if_pos (by omega)]
    · split
      · rw [if_pos (by omega)]
      · rw [if_neg (by omega)]

theorem itoaSwap_run {ds : List UInt8} (h : (0 : UInt8) ∉ ds) (hsize : s + ds.length < size) :
    ∀ turns i, ds.length / 2 < i + turns → i ≤ ds.length / 2 →
    itoaSwap size s turns i (b.store s (mirror ds i ++ [0])) =
      (some (), b.store s (ds.reverse ++ [0]))
  | 0, i, hturns, hi => by omega
  | turns + 1, i, hturns, hi => by
    have htext : (b.store s (mirror ds i ++ [0])).Text s (mirror ds i) :=
      Buffer.text_store (m := 1) (mirror_plain h) (by omega)
    have hlen : strlen size s (b.store s (mirror ds i ++ [0])) =
        (some ds.length, b.store s (mirror ds i ++ [0])) := by
      rw [strlen_run htext (by simpa using hsize), mirror_length]
    rw [itoaSwap, bind_run hlen]
    by_cases hlt : i < ds.length / 2
    · rw [if_pos hlt]
      have hfirst : (b.store s (mirror ds i ++ [0])).byte (s + i) = ds.getD i 0 := by
        rw [htext.chars i (by simp; omega), mirror_getD (by omega), if_neg (by omega)]
      have hsecond : (b.store s (mirror ds i ++ [0])).byte (s + (ds.length - i - 1)) =
          ds.getD (ds.length - i - 1) 0 := by
        rw [htext.chars _ (by simp; omega), mirror_getD (by omega), if_neg (by omega)]
      show itoaSwap size s turns (i + 1)
        (((b.store s (mirror ds i ++ [0])).set (s + i) _).set (s + (ds.length - i - 1)) _) = _
      rw [hfirst, hsecond, Buffer.set_store (by simp; omega), Buffer.set_store (by simp; omega),
        set_append_left _ _ (by simp; omega), set_append_left _ _ (by simp; omega),
        mirror_succ hlt]
      exact itoaSwap_run h hsize turns (i + 1) (by omega) hlt
    · rw [if_neg hlt, show i = ds.length / 2 by omega, mirror_half]
      rfl

/-- `itoa` leaves the digits and a zero. -/
theorem itoa_run {x : Int} (hsize : s + 10 < size) :
    itoa size x s b = match Xv6.itoa x with
      | some t => (some (), b.store s (t ++ [0]))
      | none => (none, b) := by
  by_cases hx : x < 0
  · rw [itoa, if_pos hx, Xv6.itoa, if_pos hx]
    rfl
  · have hdigits := itoaDigits_run 10 x.toNat s b
    have hlen := itoaLoop_length 10 x.toNat
    have hput : (b.store s (itoaLoop 10 x.toNat)).set (s + (itoaLoop 10 x.toNat).length) 0 =
        b.store s (mirror (itoaLoop 10 x.toNat) 0 ++ [0]) := by
      rw [mirror_zero, Buffer.store_append]
      rfl
    rw [itoa, if_neg hx, Xv6.itoa, if_neg hx]
    rw [bind_run hdigits]
    show itoaSwap size s 6 0 ((b.store s (itoaLoop 10 x.toNat)).set _ 0) = _
    rw [hput]
    exact itoaSwap_run itoaLoop_plain (by omega) 6 0 (by omega) (by omega)

theorem itoa_plain {x : Int} {t : List UInt8} (h : Xv6.itoa x = some t) :
    (0 : UInt8) ∉ t ∧ t.length ≤ 10 := by
  unfold Xv6.itoa at h
  split at h
  · cases h
  · cases h
    rw [mem_reverse, length_reverse]
    exact ⟨itoaLoop_plain, itoaLoop_length _ _⟩

/-! ## Decimal numbers -/

/-- A number in decimal. -/
def decimal (n : Nat) : List UInt8 :=
  if n = 0 then [48] else ((Nat.digits 10 n).map fun d => UInt8.ofNat (48 + d)).reverse

theorem itoaLoop_eq (hfuel : 0 < fuel) (hx : x < 10 ^ fuel) :
    (itoaLoop fuel x).reverse = decimal x := by
  have hdigits : ∀ {fuel x}, 0 < x → x < 10 ^ fuel →
      itoaLoop fuel x = (Nat.digits 10 x).map fun d => UInt8.ofNat (48 + d) := by
    intro fuel
    induction fuel with
    | zero => intro x h0 hx; simp at hx; omega
    | succ fuel ih =>
      intro x h0 hx
      rw [itoaLoop, Nat.digits_def' (by omega) h0, map_cons]
      by_cases hdiv : x / 10 = 0
      · rw [if_pos hdiv, hdiv, Nat.digits_zero, map_nil]
      · rw [if_neg hdiv, ih (by omega) (by rw [pow_succ] at hx; omega)]
  unfold decimal
  by_cases h0 : x = 0
  · subst h0
    cases fuel with
    | zero => omega
    | succ fuel => simp [itoaLoop]
  · rw [if_neg h0, hdigits (by omega) hx]

/-- What `itoa` makes of an `int`. -/
theorem itoa_eq_decimal {n : Nat} (h : n < 10 ^ 10) : Xv6.itoa n = some (decimal n) := by
  rw [Xv6.itoa, if_neg (by omega), Int.toNat_natCast, itoaLoop_eq (by omega) h]

theorem digit_mem {c : UInt8} {n : Nat} (h : c ∈ decimal n) : 48 ≤ c.toNat ∧ c.toNat < 58 := by
  unfold decimal at h
  split at h
  · rw [mem_singleton] at h
    subst h
    decide
  · rw [mem_reverse, mem_map] at h
    obtain ⟨d, hd, rfl⟩ := h
    have := Nat.digits_lt_base (by omega) hd
    simp
    omega

theorem decimal_injective : Function.Injective decimal := by
  have hdigit : ∀ {n d}, d ∈ Nat.digits 10 n → (UInt8.ofNat (48 + d)).toNat = 48 + d := by
    intro n d hd
    have := Nat.digits_lt_base (by omega) hd
    simp
    omega
  have hback : ∀ n, ((Nat.digits 10 n).map fun d => UInt8.ofNat (48 + d)).map
      (fun c => c.toNat - 48) = Nat.digits 10 n := by
    intro n
    rw [map_map]
    refine (map_congr_left fun d hd => ?_).trans (map_id _)
    rw [Function.comp_apply, hdigit hd, Nat.add_sub_cancel_left, id]
  have hzero : ∀ n, n ≠ 0 → decimal n ≠ decimal 0 := by
    intro n hn h
    rw [decimal, if_neg hn, decimal, if_pos rfl, reverse_eq_iff] at h
    have := congrArg (List.map fun c => c.toNat - 48) h
    rw [hback] at this
    have hlast := Nat.getLast_digit_ne_zero 10 hn
    simp only [this] at hlast
    exact hlast rfl
  intro m n h
  by_cases hm : m = 0
  · subst hm
    by_contra hne
    exact hzero n (Ne.symm hne) h.symm
  · by_cases hn : n = 0
    · subst hn
      exact absurd h (hzero m hm)
    · rw [decimal, if_neg hm, decimal, if_neg hn, reverse_inj] at h
      have := congrArg (List.map fun c => c.toNat - 48) h
      rw [hback, hback] at this
      exact Nat.digits_inj_iff.mp this

/-! ## Appending -/

theorem adds_append (hu : (0 : UInt8) ∉ u) (hroom : room < size)
    (hn : u.length < n ∧ n ≤ u.length + 3) : Adds room (append size u n) (some u) u.length := by
  obtain ⟨m, rfl⟩ := Nat.exists_eq_add_of_lt hn.1
  refine ⟨fun w hw => (Option.some.inj hw ▸ le_rfl), fun t b hlen hb => ?_⟩
  have hrun : append size u (u.length + m + 1) b =
      (some (), b.store t.length (u ++ List.replicate (m + 1) 0)) := by
    rw [append, bind_run (strlen_run hb.text (by omega))]
    exact strncpy_run u (m + 1)
  refine ends_of_run hrun (fun _ _ => ⟨u, rfl, ?_, ?_⟩) (by simp)
  · have := hb.text.append hu (Nat.succ_pos m)
    rwa [Nat.zero_add] at this
  · have htop := Buffer.store_top_le b t.length (u ++ List.replicate (m + 1) 0)
    have := hb.top
    simp only [length_append, length_replicate] at htop ⊢
    omega

theorem adds_itoa {x : Int} (hroom : room < size) :
    Adds room (appendItoa size x) (Xv6.itoa x) 10 := by
  refine ⟨fun w hw => (itoa_plain hw).2, fun t b hlen hb => ?_⟩
  have hrun : appendItoa size x b = itoa size x t.length b := by
    rw [appendItoa, bind_run (strlen_run hb.text (by omega))]
  rw [itoa_run (by omega)] at hrun
  cases hx : Xv6.itoa x with
  | none =>
    rw [hx] at hrun
    refine ends_of_run hrun (by simp) fun _ => ⟨rfl, ?_⟩
    have := hb.top
    omega
  | some w =>
    rw [hx] at hrun
    obtain ⟨hplain, hw⟩ := itoa_plain hx
    refine ends_of_run hrun (fun _ _ => ⟨w, rfl, ?_, ?_⟩) (by simp)
    · have := hb.text.append hplain (m := 1) (by omega)
      rwa [Nat.zero_add] at this
    · have htop := Buffer.store_top_le b t.length (w ++ [0])
      have := hb.top
      simp only [length_append, length_singleton] at htop ⊢
      omega

/-- The first store, over whatever is in the buffer. -/
theorem strncpy_holds (hu : (0 : UInt8) ∉ u) (hn : u.length < n ∧ n ≤ u.length + 3)
    (hb : b.top = 0) : Ends (strncpy 0 u n) b (fun _ c => Holds u c) fun _ => False := by
  obtain ⟨m, rfl⟩ := Nat.exists_eq_add_of_lt hn.1
  refine ends_of_run (strncpy_run u (m + 1)) (fun _ _ => ⟨Buffer.text_store hu (Nat.succ_pos m), ?_⟩)
    (by simp)
  have htop := Buffer.store_top_le b 0 (u ++ List.replicate (m + 1) 0)
  simp only [length_append, length_replicate] at htop
  omega

end

attribute [irreducible] strlen strncpy itoa append appendItoa

end Cstring

end Xv6
