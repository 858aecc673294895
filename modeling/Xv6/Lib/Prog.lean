import Mathlib.Logic.Basic

/-!
# Imperative programs over an explicit state

`Prog σ α` is a computation on a state `σ` that returns an `α` or stops the machine. The ways to
stop are a panic with its message, a wait that nothing will end, and undefined behaviour of the
source language, of which an index outside of a table is told apart. The lemmas take a computation
that returned, or stopped, apart into its steps.
-/

namespace Xv6.Lib

/-- Why a computation does not return. -/
inductive Halt where
  | panic (msg : String)
  | sleep
  /-- An index outside of a table. -/
  | outside
  | undefined
  deriving DecidableEq, Repr

/-- The result of running a computation. -/
inductive Res (σ α : Type) where
  | ok (a : α) (s : σ)
  | halt (why : Halt)

/-- A computation on the state `σ` with result `α`. -/
def Prog (σ α : Type) : Type := σ → Res σ α

namespace Prog

variable {σ α β : Type}

instance : Monad (Prog σ) where
  pure a := fun s => .ok a s
  bind x f := fun s => match x s with
    | .ok a t => f a t
    | .halt why => .halt why

/-- Stop with a panic message. -/
def panic (msg : String) : Prog σ α := fun _ => .halt (.panic msg)

/-- Read the state. -/
def get : Prog σ σ := fun s => .ok s s

/-- Update the state. -/
def modify (f : σ → σ) : Prog σ Unit := fun s => .ok () (f s)

variable {x : Prog σ α} {f : α → Prog σ β} {s t : σ} {why : Halt} {a : α} {msg : String}

theorem bind_eq_ok {b : β} : (x >>= f) s = .ok b t ↔ ∃ a m, x s = .ok a m ∧ f a m = .ok b t := by
  change (match x s with | .ok a t => f a t | .halt why => .halt why) = Res.ok b t ↔ _
  cases hx : x s with
  | ok a m =>
    constructor
    · intro h; exact ⟨a, m, rfl, h⟩
    · rintro ⟨a', m', hxa, h⟩
      cases hxa
      exact h
  | halt why => simp

theorem bind_eq_halt : (x >>= f) s = .halt why ↔
      x s = .halt why ∨ ∃ a m, x s = .ok a m ∧ f a m = .halt why := by
  change (match x s with | .ok a t => f a t | .halt why => .halt why) = Res.halt why ↔ _
  cases hx : x s with
  | ok a m =>
    constructor
    · intro h; exact .inr ⟨a, m, rfl, h⟩
    · rintro (h | ⟨a', m', hxa, h⟩)
      · cases h
      · cases hxa
        exact h
  | halt why => simp

@[simp] theorem pure_ne_halt : (pure a : Prog σ α) s = .halt why ↔ False := by
  change Res.ok a s = Res.halt why ↔ _
  simp

@[simp] theorem panic_eq_halt :
    (panic msg : Prog σ α) s = .halt why ↔ .panic msg = why := by simp [panic]

@[simp] theorem get_ne_halt : (get : Prog σ σ) s = .halt why ↔ False := by
  simp [get]

@[simp] theorem modify_ne_halt {f : σ → σ} :
    (modify f : Prog σ Unit) s = .halt why ↔ False := by simp [modify]

@[simp] theorem pure_eq_ok {b : α} : (pure a : Prog σ α) s = .ok b t ↔ a = b ∧ s = t := by
  change Res.ok a s = Res.ok b t ↔ _
  simp

@[simp] theorem panic_ne_ok : (panic msg : Prog σ α) s = .ok a t ↔ False := by simp [panic]

@[simp] theorem get_eq_ok {a : σ} : (get : Prog σ σ) s = .ok a t ↔ s = a ∧ s = t := by
  simp [get]

@[simp] theorem modify_eq_ok {f : σ → σ} {a : Unit} :
    (modify f : Prog σ Unit) s = .ok a t ↔ f s = t := by simp [modify]

/-- Whatever the state, `x` returns or stops for a reason that meets `E`. -/
def Stops (E : Halt → Prop) (x : Prog σ α) : Prop := ∀ s why, x s = .halt why → E why

section Stops

variable {E : Halt → Prop} {x : Prog σ α} {f : α → Prog σ β}

theorem Stops.bind (hx : Stops E x) (hf : ∀ a, Stops E (f a)) : Stops E (x >>= f) := by
  intro s why h
  rcases bind_eq_halt.mp h with h | ⟨a, m, -, h⟩
  · exact hx s why h
  · exact hf a m why h

theorem stops_pure {a : α} : Stops E (pure a : Prog σ α) := fun s why h => by simp at h

theorem stops_get : Stops E (get : Prog σ σ) := fun s why h => by simp at h

theorem stops_modify {f : σ → σ} : Stops E (modify f) := fun s why h => by simp at h

theorem stops_panic {msg : String} (h : E (.panic msg)) : Stops E (panic msg : Prog σ α) :=
  fun _ _ hs => panic_eq_halt.mp hs ▸ h

theorem Stops.ite {c : Prop} [Decidable c] {y : Prog σ α} (hx : Stops E x) (hy : Stops E y) :
    Stops E (if c then x else y) := by
  split
  · exact hx
  · exact hy

end Stops

/-- What `x` does from `s`: it returns with `Q`, or stops for a reason that meets `E`. -/
def Ends (x : Prog σ α) (s : σ) (Q : α → σ → Prop) (E : Halt → Prop) : Prop :=
  (∀ a t, x s = .ok a t → Q a t) ∧ ∀ why, x s = .halt why → E why

section Ends

variable {x : Prog σ α} {f : α → Prog σ β} {s : σ} {Q R : α → σ → Prop} {E : Halt → Prop}

theorem Ends.mono (h : Ends x s R E) (hQ : ∀ a t, R a t → Q a t) : Ends x s Q E :=
  ⟨fun a t hx => hQ a t (h.1 a t hx), h.2⟩

theorem Ends.weaken {F : Halt → Prop} (h : Ends x s Q E) (hE : ∀ why, E why → F why) :
    Ends x s Q F := ⟨h.1, fun why hx => hE why (h.2 why hx)⟩

theorem Ends.bind {Q : β → σ → Prop} (hx : Ends x s R E)
    (hf : ∀ a t, R a t → Ends (f a) t Q E) : Ends (x >>= f) s Q E := by
  constructor
  · intro b u h
    obtain ⟨a, t, ha, hb⟩ := bind_eq_ok.mp h
    exact (hf a t (hx.1 a t ha)).1 b u hb
  · intro why h
    rcases bind_eq_halt.mp h with h | ⟨a, t, ha, hb⟩
    · exact hx.2 why h
    · exact (hf a t (hx.1 a t ha)).2 why hb

theorem ends_pure {a : α} (h : Q a s) : Ends (pure a) s Q E := by
  constructor
  · intro b t hx
    obtain ⟨rfl, rfl⟩ := pure_eq_ok.mp hx
    exact h
  · intro why hx
    exact (pure_ne_halt.mp hx).elim

theorem ends_panic {msg : String} (h : E (.panic msg)) : Ends (panic msg) s Q E := by
  constructor
  · intro a t hx
    exact (panic_ne_ok.mp hx).elim
  · intro why hx
    exact panic_eq_halt.mp hx ▸ h

theorem ends_get {Q : σ → σ → Prop} (h : Q s s) : Ends get s Q E := by
  constructor
  · intro a t hx
    obtain ⟨rfl, rfl⟩ := get_eq_ok.mp hx
    exact h
  · intro why hx
    exact (get_ne_halt.mp hx).elim

theorem ends_modify {g : σ → σ} {Q : Unit → σ → Prop} (h : Q () (g s)) :
    Ends (modify g) s Q E := by
  constructor
  · intro a t hx
    obtain rfl := modify_eq_ok.mp hx
    exact h
  · intro why hx
    exact (modify_ne_halt.mp hx).elim

/-- A computation with no reason to stop returns. -/
theorem Ends.returns (h : Ends x s Q fun _ => False) : ∃ a t, x s = .ok a t ∧ Q a t := by
  cases hx : x s with
  | ok a t => exact ⟨a, t, rfl, h.1 a t hx⟩
  | halt why => exact (h.2 why hx).elim

end Ends

end Prog

end Xv6.Lib
