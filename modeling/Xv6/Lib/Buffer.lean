import Mathlib.Data.List.GetD
import Mathlib.Logic.Function.Basic
import Mathlib.Order.Lattice

/-!
# Text in a buffer

A buffer is memory that a program stores to by index. It starts with arbitrary contents, and `top`
says how far the stores have come. `Fmt α` is a computation on a buffer; one that stops leaves
behind what it has stored.

`Ends x b Q E` describes what `x` does to `b`: if it returns then `Q` holds of the result and the
buffer, and if it stops then `E` holds of the buffer. For text there are rules of their own:
`Adds room x u n` says that `x` puts `u` behind the text of any buffer and comes no further than `n`
bytes, and `Prints room x u n` that it also returns the length of the whole text. Such computations
compose.
-/

namespace Xv6.Lib

open List

/-- Memory that is stored to by index; nothing from `top` on has been stored to. -/
@[ext] structure Buffer where
  byte : Nat → UInt8
  top : Nat

namespace Buffer

variable {b : Buffer} {i j : Nat} {c : UInt8} {cs ds t u : List UInt8}

/-- Contents that are there before anything is stored. -/
def fresh (byte : Nat → UInt8) : Buffer := ⟨byte, 0⟩

/-- Store one byte. -/
def set (b : Buffer) (i : Nat) (c : UInt8) : Buffer :=
  ⟨Function.update b.byte i c, max b.top (i + 1)⟩

/-- Store bytes in turn. -/
def store (b : Buffer) (i : Nat) : List UInt8 → Buffer
  | [] => b
  | c :: cs => (b.set i c).store (i + 1) cs

@[simp] theorem store_nil (b : Buffer) (i : Nat) : b.store i [] = b := rfl

theorem store_append (b : Buffer) (i : Nat) (cs ds : List UInt8) :
    b.store i (cs ++ ds) = (b.store i cs).store (i + cs.length) ds := by
  induction cs generalizing b i with
  | nil => simp
  | cons c cs ih =>
    simp only [cons_append, store, ih, length_cons]
    rw [Nat.add_right_comm, Nat.add_assoc]

theorem store_byte (b : Buffer) (i : Nat) (cs : List UInt8) (j : Nat) :
    (b.store i cs).byte j = if i ≤ j ∧ j < i + cs.length then cs.getD (j - i) 0 else b.byte j := by
  induction cs generalizing b i with
  | nil => simp
  | cons c cs ih =>
    rw [store, ih]
    by_cases hji : j = i
    · subst hji
      rw [if_neg (by omega), if_pos (by simp)]
      simp [set]
    · by_cases hin : i + 1 ≤ j ∧ j < i + 1 + cs.length
      · rw [if_pos hin, if_pos (by simp only [length_cons]; omega),
          show j - i = j - (i + 1) + 1 by omega, getD_cons_succ]
      · rw [if_neg hin, if_neg (by simp only [length_cons]; omega)]
        simp [set, hji]

theorem store_byte_of_lt (h : j < i) : (b.store i cs).byte j = b.byte j := by
  rw [store_byte, if_neg (by omega)]

theorem store_byte_add (h : j < cs.length) : (b.store i cs).byte (i + j) = cs.getD j 0 := by
  rw [store_byte, if_pos (by omega), Nat.add_sub_cancel_left]

theorem store_top (h : cs ≠ []) : (b.store i cs).top = max b.top (i + cs.length) := by
  induction cs generalizing b i with
  | nil => exact absurd rfl h
  | cons c cs ih =>
    cases cs with
    | nil => rfl
    | cons d ds =>
      rw [store, ih (by simp)]
      simp only [set, length_cons]
      omega

theorem store_top_le (b : Buffer) (i : Nat) (cs : List UInt8) :
    (b.store i cs).top ≤ max b.top (i + cs.length) := by
  by_cases h : cs = []
  · simp [h]
  · rw [store_top h]

theorem set_store (h : j < cs.length) :
    (b.store i cs).set (i + j) c = b.store i (cs.set j c) := by
  have hne : cs ≠ [] := ne_nil_of_length_pos (by omega)
  apply Buffer.ext
  · funext k
    simp only [set, store_byte, length_set, Function.update_apply]
    by_cases hk : k = i + j
    · subst hk
      rw [if_pos rfl, if_pos (by omega), Nat.add_sub_cancel_left,
        getD_eq_getElem _ _ (by simpa using h), getElem_set_self]
    · rw [if_neg hk]
      split
      · rw [getD_eq_getElem _ _ (by omega), getD_eq_getElem _ _ (by simp; omega),
          getElem_set_ne (by omega)]
      · rfl
  · simp only [set]
    rw [store_top hne, store_top (by simpa using hne), length_set]
    omega

/-- A string at `s`, with the zero behind it. -/
structure Text (b : Buffer) (s : Nat) (t : List UInt8) : Prop where
  chars : ∀ i ≤ t.length, b.byte (s + i) = t.getD i 0
  plain : (0 : UInt8) ∉ t

theorem getD_ne_zero (h : (0 : UInt8) ∉ t) (hi : i < t.length) : t.getD i 0 ≠ 0 := by
  rw [getD_eq_getElem _ _ hi]
  intro h0
  exact h (h0 ▸ getElem_mem hi)

/-- Storing a string with zeros behind it. -/
theorem text_store {m : Nat} (h : (0 : UInt8) ∉ t) (hm : 0 < m) :
    (b.store i (t ++ List.replicate m 0)).Text i t where
  chars := fun j hj => by
    rw [store_byte_add (by simp; omega)]
    rcases Nat.lt_or_eq_of_le hj with hlt | rfl
    · rw [getD_append _ _ _ _ hlt]
    · rw [getD_append_right _ _ _ _ le_rfl, getD_eq_default _ _ le_rfl, Nat.sub_self]
      cases m with
      | zero => omega
      | succ m => rfl
  plain := h

/-- Storing a string over the zero of another appends it. -/
theorem Text.append {s m : Nat} (h : b.Text s t) (hu : (0 : UInt8) ∉ u) (hm : 0 < m) :
    (b.store (s + t.length) (u ++ List.replicate m 0)).Text s (t ++ u) where
  chars := fun j hj => by
    by_cases hlt : j < t.length
    · rw [store_byte_of_lt (by omega), h.chars j hlt.le, getD_append _ _ _ _ hlt]
    · have hnew := (text_store (b := b) (i := s + t.length) hu hm).chars (j - t.length)
        (by simp only [length_append] at hj; omega)
      rw [show s + j = s + t.length + (j - t.length) by omega, hnew,
        getD_append_right _ _ _ _ (by omega)]
  plain := by
    rw [mem_append]
    rintro (ht | hu')
    · exact h.plain ht
    · exact hu hu'

theorem Text.length_le {s : Nat} (ht : b.Text s t) (hu : b.Text s u) : t.length ≤ u.length := by
  by_contra hlt
  have hzero := hu.chars u.length le_rfl
  rw [getD_eq_default _ _ le_rfl, ht.chars _ (by omega)] at hzero
  exact getD_ne_zero ht.plain (by omega) hzero

theorem Text.unique {s : Nat} (ht : b.Text s t) (hu : b.Text s u) : t = u := by
  have hlen : t.length = u.length := le_antisymm (ht.length_le hu) (hu.length_le ht)
  apply ext_getElem hlen
  intro i hi hi'
  rw [← getD_eq_getElem t 0, ← getD_eq_getElem u 0, ← ht.chars i hi.le, hu.chars i hi'.le]

end Buffer

/-! ## Computations -/

/-- A computation on a buffer. -/
def Fmt (α : Type) : Type := Buffer → Option α × Buffer

namespace Fmt

variable {α β : Type}

instance : Monad Fmt where
  pure a := fun b => (some a, b)
  bind x f := fun b => match x b with
    | (some a, b) => f a b
    | (none, b) => (none, b)

/-- Stop where the source is undefined. -/
def stop : Fmt α := fun b => (none, b)

/-- Continue with a value if there is one. -/
def ofOption : Option α → Fmt α
  | some a => pure a
  | none => stop

/-- Load a byte. -/
def load (i : Nat) : Fmt UInt8 := fun b => (some (b.byte i), b)

/-- Store a byte. -/
def put (i : Nat) (c : UInt8) : Fmt Unit := fun b => (some (), b.set i c)

/-- Store bytes. -/
def memmove (i : Nat) (cs : List UInt8) : Fmt Unit := fun b => (some (), b.store i cs)

theorem bind_run {x : Fmt α} {f : α → Fmt β} {b c : Buffer} {a : α} (h : x b = (some a, c)) :
    (x >>= f) b = f a c := by
  show (match x b with
    | (some a, c) => f a c
    | (none, c) => (none, c)) = _
  rw [h]

theorem bind_run_none {x : Fmt α} {f : α → Fmt β} {b c : Buffer} (h : x b = (none, c)) :
    (x >>= f) b = (none, c) := by
  show (match x b with
    | (some a, c) => f a c
    | (none, c) => (none, c)) = _
  rw [h]

/-- What `x` does to `b`. -/
def Ends (x : Fmt α) (b : Buffer) (Q : α → Buffer → Prop) (E : Buffer → Prop) : Prop :=
  match x b with
  | (some a, b) => Q a b
  | (none, b) => E b

section Ends

variable {x : Fmt α} {f : α → Fmt β} {b : Buffer} {Q R : α → Buffer → Prop} {E : Buffer → Prop}

theorem Ends.mono {F : Buffer → Prop} (h : Ends x b R F) (hQ : ∀ a c, R a c → Q a c)
    (hE : ∀ c, F c → E c) : Ends x b Q E := by
  unfold Ends at *
  split
  · rename_i a c hx
    rw [hx] at h
    exact hQ a c h
  · rename_i c hx
    rw [hx] at h
    exact hE c h

theorem Ends.bind {Q : β → Buffer → Prop} (hx : Ends x b R E)
    (hf : ∀ a c, R a c → Ends (f a) c Q E) : Ends (x >>= f) b Q E := by
  show match (match x b with
    | (some a, c) => f a c
    | (none, c) => (none, c)) with
    | (some a, c) => Q a c
    | (none, c) => E c
  unfold Ends at hx
  rcases hrun : x b with ⟨_ | a, c⟩
  · rw [hrun] at hx
    exact hx
  · rw [hrun] at hx
    exact hf a c hx

theorem ends_pure {a : α} (h : Q a b) : Ends (pure a) b Q E := h

theorem ends_stop (h : E b) : Ends stop b Q E := h

theorem ends_ofOption_bind {o : Option α} {Q : β → Buffer → Prop}
    (hsome : ∀ a, o = some a → Ends (f a) b Q E) (hnone : o = none → E b) :
    Ends (ofOption o >>= f) b Q E := by
  cases o with
  | none => exact hnone rfl
  | some a => exact hsome a rfl

theorem ends_of_run {o : Option α} {c : Buffer} (hx : x b = (o, c))
    (hsome : ∀ a, o = some a → Q a c) (hnone : o = none → E c) : Ends x b Q E := by
  unfold Ends
  rw [hx]
  cases o with
  | none => exact hnone rfl
  | some a => exact hsome a rfl

end Ends

/-! ## Text behind text -/

/-- The buffer holds the text `t`, and at most two bytes behind its zero have been stored to. -/
structure Holds (t : List UInt8) (b : Buffer) : Prop where
  text : b.Text 0 t
  top : b.top ≤ t.length + 3

/-- `x` puts `u` behind any text, or stops if `u` is `none`. It stores nothing further than `n + 3`
bytes behind the text, which has to leave that much of `room`. -/
def Adds (room : Nat) (x : Fmt Unit) (u : Option (List UInt8)) (n : Nat) : Prop :=
  (∀ w, u = some w → w.length ≤ n) ∧
  ∀ t b, t.length + n ≤ room → Holds t b → Ends x b (fun _ c => ∃ w, u = some w ∧ Holds (t ++ w) c)
    fun c => u = none ∧ c.top ≤ t.length + n + 3

/-- `x` puts `u` behind any text and returns the length of the whole. -/
def Prints (room : Nat) (x : Fmt Nat) (u : Option (List UInt8)) (n : Nat) : Prop :=
  ∀ t b, t.length + n ≤ room → Holds t b →
    Ends x b (fun k c => ∃ w, u = some w ∧ w.length ≤ n ∧ k = (t ++ w).length ∧ Holds (t ++ w) c)
      fun c => u = none ∧ c.top ≤ t.length + n + 3

section Adds

variable {room n k : Nat} {x y : Fmt Unit} {z : Fmt Nat} {u v : Option (List UInt8)}

theorem Adds.mono (hx : Adds room x u n) (h : n ≤ k) : Adds room x u k := by
  refine ⟨fun w hw => (hx.1 w hw).trans h, fun t b hroom hb => ?_⟩
  apply Ends.mono (hx.2 t b (by omega) hb) (fun _ _ hc => hc)
  rintro c ⟨hu, htop⟩
  exact ⟨hu, by omega⟩

theorem adds_pure : Adds room (pure ()) (some []) n := by
  refine ⟨by simp, fun t b _ hb => ends_pure ⟨[], rfl, ?_⟩⟩
  rwa [append_nil]

theorem adds_ofOption_bind {o : Option α} {f : α → Fmt Unit} {g : α → Option (List UInt8)}
    (h : ∀ a, o = some a → Adds room (f a) (g a) n) : Adds room (ofOption o >>= f) (o.bind g) n := by
  cases o with
  | none =>
    refine ⟨by simp, fun t b hroom hb => ends_stop ⟨rfl, ?_⟩⟩
    have := hb.top
    omega
  | some a => exact h a rfl

theorem Adds.bind (hx : Adds room x u n) (hy : Adds room y v k) :
    Adds room (x >>= fun _ => y) (u.bind fun u => v.map (u ++ ·)) (n + k) := by
  obtain ⟨hn, hx⟩ := hx
  obtain ⟨hk, hy⟩ := hy
  refine ⟨fun w hw => ?_, fun t b hroom hb => ?_⟩
  · obtain ⟨u', hu, hw⟩ := Option.bind_eq_some_iff.mp hw
    obtain ⟨v', hv, rfl⟩ := Option.map_eq_some_iff.mp hw
    have := hn u' hu
    have := hk v' hv
    simp only [length_append]
    omega
  · refine Ends.bind (Ends.mono (hx t b (by omega) hb) (fun _ _ h => h) ?_) ?_
    · rintro c ⟨hu, htop⟩
      exact ⟨by rw [hu]; rfl, by omega⟩
    · rintro _ c ⟨u', hu, hc⟩
      have hlen := hn u' hu
      refine Ends.mono (hy (t ++ u') c (by simp only [length_append]; omega) hc) ?_ ?_
      · rintro _ d ⟨v', hv, hd⟩
        refine ⟨u' ++ v', by rw [hu, hv]; rfl, ?_⟩
        rwa [← append_assoc]
      · rintro d ⟨hv, htop⟩
        refine ⟨by rw [hu, hv]; rfl, ?_⟩
        simp only [length_append] at htop
        omega

theorem Adds.prints (hx : Adds room x u n) (hz : Prints room z v k) :
    Prints room (x >>= fun _ => z) (u.bind fun u => v.map (u ++ ·)) (n + k) := by
  obtain ⟨hn, hx⟩ := hx
  intro t b hroom hb
  refine Ends.bind (Ends.mono (hx t b (by omega) hb) (fun _ _ h => h) ?_) ?_
  · rintro c ⟨hu, htop⟩
    exact ⟨by rw [hu]; rfl, by omega⟩
  · rintro _ c ⟨u', hu, hc⟩
    have hlen := hn u' hu
    refine Ends.mono (hz (t ++ u') c (by simp only [length_append]; omega) hc) ?_ ?_
    · rintro l d ⟨v', hv, hv', hl, hd⟩
      rw [append_assoc] at hl hd
      refine ⟨u' ++ v', by rw [hu, hv]; rfl, ?_, hl, hd⟩
      simp only [length_append]
      omega
    · rintro d ⟨hv, htop⟩
      refine ⟨by rw [hu, hv]; rfl, ?_⟩
      simp only [length_append] at htop
      omega

theorem prints_ofOption_bind {o : Option α} {f : α → Fmt Nat} {g : α → Option (List UInt8)}
    (h : ∀ a, o = some a → Prints room (f a) (g a) n) :
    Prints room (ofOption o >>= f) (o.bind g) n := by
  intro t b hroom hb
  cases o with
  | none =>
    refine ends_stop ⟨rfl, ?_⟩
    have := hb.top
    omega
  | some a => exact h a rfl t b hroom hb

end Adds

end Fmt

end Xv6.Lib
