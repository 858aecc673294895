import Mathlib.Data.List.Basic
import Xv6.Lib.Prog

/-!
# Programs with observable events

`Act ε σ α` is a computation on a state `σ` that also emits a list of events. Events are what a
run can be observed to have done: no computation reads them back.

`Does x s Q E` describes everything that `x` does from `s`: if it returns then `Q` holds of the
result, the new state and the events, and if it stops then `E` holds of the reason and the events so
far. The other ways of reasoning are special cases. `Ends x s Q E` leaves out the events of a
computation that stops. `Hush x s Q E` says that there are none, also if it stops.
-/

namespace Xv6.Lib

/-- The result of running a computation, with the events emitted on the way. -/
inductive Out (ε σ α : Type) where
  | ok (a : α) (s : σ) (evs : List ε)
  | halt (why : Halt) (evs : List ε)

/-- Put the events of an earlier computation in front. -/
def Out.after {ε σ α : Type} (evs : List ε) : Out ε σ α → Out ε σ α
  | .ok a s es => .ok a s (evs ++ es)
  | .halt why es => .halt why (evs ++ es)

/-- A computation on `σ` with events `ε`. -/
def Act (ε σ α : Type) : Type := σ → Out ε σ α

namespace Act

variable {ε σ τ α β : Type}

instance : Monad (Act ε σ) where
  pure a := fun s => .ok a s []
  bind x f := fun s => match x s with
    | .ok a t es => (f a t).after es
    | .halt why es => .halt why es

/-- Stop with a panic message. -/
def panic (msg : String) : Act ε σ α := fun _ => .halt (.panic msg) []

/-- Wait for something that no other step of the machine brings about. -/
def sleep : Act ε σ α := fun _ => .halt .sleep []

/-- An index outside of a table. -/
def outside : Act ε σ α := fun _ => .halt .outside []

/-- Other undefined behaviour of the source. -/
def undefined : Act ε σ α := fun _ => .halt .undefined []

/-- Read the state. -/
def get : Act ε σ σ := fun s => .ok s s []

/-- Update the state. -/
def modify (f : σ → σ) : Act ε σ Unit := fun s => .ok () (f s) []

/-- Emit one event. -/
def emit (v : ε) : Act ε σ Unit := fun s => .ok () s [v]

/-- Run a computation on a part of the state. -/
def lift (part : σ → τ) (put : τ → σ → σ) (x : Prog τ α) : Act ε σ α := fun s =>
  match x (part s) with
  | .ok a t => .ok a (put t s) []
  | .halt why => .halt why []

/-- Do `f` for each element in turn. -/
def forEach (f : β → Act ε σ Unit) : List β → Act ε σ Unit
  | [] => pure ()
  | b :: bs => do
    f b
    forEach f bs

theorem bind_run (x : Act ε σ α) (f : α → Act ε σ β) (s : σ) :
    (x >>= f) s = match x s with
      | .ok a t es => (f a t).after es
      | .halt why es => .halt why es := rfl

/-- A first computation that returns without an event. -/
theorem bind_of_ok {x : Act ε σ α} {f : α → Act ε σ β} {s t : σ} {a : α} (h : x s = .ok a t []) :
    (x >>= f) s = f a t := by
  rw [bind_run, h]
  cases hf : f a t with
  | ok b u es | halt why es => simp [Out.after, hf]

theorem bind_assoc {γ : Type} (x : Act ε σ α) (f : α → Act ε σ β) (g : β → Act ε σ γ) :
    x >>= f >>= g = x >>= fun a => f a >>= g := by
  funext s
  simp only [bind_run]
  cases x s with
  | halt why es => rfl
  | ok a t es =>
    simp only
    cases f a t with
    | halt why fs => rfl
    | ok b u fs =>
      cases hg : g b u with
      | halt why hs | ok c w hs => simp [Out.after, hg]

theorem pure_bind (a : α) (f : α → Act ε σ β) : (pure a >>= f : Act ε σ β) = f a := by
  funext s
  exact bind_of_ok rfl

theorem bind_pure (x : Act ε σ α) : (x >>= fun a => pure a) = x := by
  funext s
  rw [bind_run]
  cases x s with
  | halt why es => rfl
  | ok a t es => exact congrArg (Out.ok a t) (List.append_nil es)

instance : LawfulMonad (Act ε σ) := .mk' _ bind_pure pure_bind bind_assoc

/-! ## Everything a computation does -/

/-- What `x` does from `s`, events included. -/
def Does (x : Act ε σ α) (s : σ) (Q : α → σ → List ε → Prop) (E : Halt → List ε → Prop) : Prop :=
  match x s with
  | .ok a t es => Q a t es
  | .halt why es => E why es

section Does

variable {x : Act ε σ α} {f : α → Act ε σ β} {s : σ} {Q R : α → σ → List ε → Prop}
  {E F : Halt → List ε → Prop}

theorem Does.mono (h : Does x s R F) (hQ : ∀ a t es, R a t es → Q a t es)
    (hE : ∀ why es, F why es → E why es) : Does x s Q E := by
  unfold Does at *
  cases hx : x s with
  | ok a t es => rw [hx] at h; exact hQ a t es h
  | halt why es => rw [hx] at h; exact hE why es h

theorem Does.and (h : Does x s Q E) (h' : Does x s R F) :
    Does x s (fun a t es => Q a t es ∧ R a t es) (fun why es => E why es ∧ F why es) := by
  unfold Does at *
  cases hx : x s with
  | ok a t es | halt why es => rw [hx] at h h'; exact ⟨h, h'⟩

theorem Does.bind {Q : β → σ → List ε → Prop} (hx : Does x s R E)
    (hf : ∀ a t es, R a t es →
      Does (f a) t (fun b u fs => Q b u (es ++ fs)) fun why fs => E why (es ++ fs)) :
    Does (x >>= f) s Q E := by
  unfold Does at *
  rw [bind_run]
  cases hxs : x s with
  | halt why es => rw [hxs] at hx; exact hx
  | ok a t es =>
    rw [hxs] at hx
    have hrest := hf a t es hx
    simp only
    cases hfa : f a t with
    | ok b u fs | halt why fs => rw [hfa] at hrest; exact hrest

theorem does_ite {c : Prop} [Decidable c] {y : Act ε σ α} (hx : c → Does x s Q E)
    (hy : ¬ c → Does y s Q E) : Does (if c then x else y) s Q E := by
  split
  · exact hx ‹_›
  · exact hy ‹_›

theorem Does.of_ok {a : α} {t : σ} {es : List ε} (h : Does x s Q E) (hx : x s = .ok a t es) :
    Q a t es := by
  unfold Does at h
  rw [hx] at h
  exact h

theorem Does.of_halt {why : Halt} {es : List ε} (h : Does x s Q E) (hx : x s = .halt why es) :
    E why es := by
  unfold Does at h
  rw [hx] at h
  exact h

theorem does_lift {part : σ → τ} {put : τ → σ → σ} {y : Prog τ α}
    (hok : ∀ a t, y (part s) = .ok a t → Q a (put t s) [])
    (hhalt : ∀ why, y (part s) = .halt why → E why []) : Does (lift part put y) s Q E := by
  unfold Does lift
  cases hy : y (part s) with
  | ok a t => exact hok a t hy
  | halt why => exact hhalt why hy

end Does

/-- What `x` does from `s`, without the events of the case that it stops. -/
def Ends (x : Act ε σ α) (s : σ) (Q : α → σ → List ε → Prop) (E : Halt → Prop) : Prop :=
  Does x s Q fun why _ => E why

section Ends

variable {x : Act ε σ α} {f : α → Act ε σ β} {s : σ} {Q R : α → σ → List ε → Prop}
  {E : Halt → Prop}

theorem Ends.mono (h : Ends x s R E) (hQ : ∀ a t es, R a t es → Q a t es) : Ends x s Q E :=
  Does.mono h hQ fun _ _ => id

variable {E' : Halt → Prop} {a : α} {h : σ → σ} {t : σ} {es : List ε} {P : Prop}

theorem Ends.weaken (h : Ends x s Q E) (hE : ∀ why, E why → E' why) :
    Ends x s Q E' := Does.mono h (fun _ _ _ => id) fun why _ => hE why

theorem Ends.and (h : Ends x s Q E) (h' : Ends x s R E') :
    Ends x s (fun a t es => Q a t es ∧ R a t es) E :=
  Does.mono (Does.and h h') (fun _ _ _ => id) fun _ _ => And.left

theorem ends_true : Ends x s (fun _ _ _ => True) fun _ => True := by
  unfold Ends Does
  cases x s <;> trivial

theorem Ends.bind {Q : β → σ → List ε → Prop} (hx : Ends x s R E)
    (hf : ∀ a t es, R a t es → Ends (f a) t (fun b u fs => Q b u (es ++ fs)) E) :
    Ends (x >>= f) s Q E := Does.bind hx hf

theorem ends_pure (h : Q a s []) : Ends (pure a) s Q E := h

theorem ends_ite {c : Prop} [Decidable c] {y : Act ε σ α} (hx : c → Ends x s Q E)
    (hy : ¬ c → Ends y s Q E) : Ends (if c then x else y) s Q E := does_ite hx hy

theorem ends_panic {msg : String} (h : E (.panic msg)) : Ends (panic msg) s Q E := h

theorem ends_sleep (h : E .sleep) : Ends sleep s Q E := h

theorem ends_get {Q : σ → σ → List ε → Prop} (h : Q s s []) : Ends get s Q E := h

theorem ends_modify {Q : Unit → σ → List ε → Prop} (hQ : Q () (h s) []) :
    Ends (modify h) s Q E := hQ

theorem ends_emit {v : ε} {Q : Unit → σ → List ε → Prop} (h : Q () s [v]) :
    Ends (emit v) s Q E := h

theorem ends_get_bind {f : σ → Act ε σ β} {Q : β → σ → List ε → Prop} (h : Ends (f s) s Q E) :
    Ends (get >>= f) s Q E :=
  Ends.bind (R := fun a t es => s = a ∧ s = t ∧ es = []) (ends_get ⟨rfl, rfl, rfl⟩)
    (by rintro _ _ _ ⟨rfl, rfl, rfl⟩; exact h)

theorem ends_modify_bind {f : Unit → Act ε σ β} {Q : β → σ → List ε → Prop}
    (hf : Ends (f ()) (h s) Q E) : Ends (modify h >>= f) s Q E :=
  Ends.bind (R := fun _ t es => h s = t ∧ es = []) (ends_modify ⟨rfl, rfl⟩)
    (by rintro _ _ _ ⟨rfl, rfl⟩; exact hf)

theorem ends_lift {part : σ → τ} {put : τ → σ → σ} {y : Prog τ α}
    (hok : ∀ a t, y (part s) = .ok a t → Q a (put t s) [])
    (hhalt : ∀ why, y (part s) = .halt why → E why) : Ends (lift part put y) s Q E :=
  does_lift hok hhalt

theorem Ends.run_eq (h : Ends x s (fun b u fs => b = a ∧ u = t ∧ fs = es) E) (hE : ∀ why, ¬ E why) :
    x s = .ok a t es := by
  unfold Ends Does at h
  cases hx : x s with
  | ok b u fs =>
    rw [hx] at h
    obtain ⟨rfl, rfl, rfl⟩ := h
    rfl
  | halt why fs =>
    rw [hx] at h
    exact absurd h (hE why)

theorem Ends.when (h : Ends x s Q E) (hP : P → Ends x s R E') (hE : ∀ why, ¬ E' why) :
    Ends x s (fun a t es => Q a t es ∧ (P → R a t es)) fun _ => ¬ P := by
  unfold Ends Does at *
  cases hx : x s with
  | ok a t es =>
    rw [hx] at h
    refine ⟨h, fun hp => ?_⟩
    have := hP hp
    rwa [hx] at this
  | halt why es =>
    intro hp
    have := hP hp
    rw [hx] at this
    exact hE why this

theorem Ends.unless (h : Ends x s Q E) (hP : P → Ends x s R E') (hE : ∀ why, ¬ E' why) :
    Ends x s Q fun _ => ¬ P :=
  (h.when hP hE).mono fun _ _ _ => And.left

/-- The loop rule: `I bs` holds when the elements `bs` are still to be done, and every event on
the way meets `P`. -/
theorem ends_forEach {f : β → Act ε σ Unit} {I : List β → σ → Prop} {P : ε → Prop}
    (hstep : ∀ b bs s, I (b :: bs) s →
      Ends (f b) s (fun _ t es => I bs t ∧ ∀ v ∈ es, P v) E) :
    ∀ bs s, I bs s → Ends (forEach f bs) s (fun _ t es => I [] t ∧ ∀ v ∈ es, P v) E
  | [], _, h => ends_pure ⟨h, by simp⟩
  | b :: bs, s, h => (hstep b bs s h).bind fun _ t es ht =>
    (ends_forEach hstep bs t ht.1).mono fun _ _ fs hu =>
      ⟨hu.1, fun v hv => (List.mem_append.mp hv).elim (ht.2 v) (hu.2 v)⟩

theorem Ends.of_ok (h : Ends x s Q E) (hx : x s = .ok a t es) : Q a t es := Does.of_ok h hx

theorem Ends.of_halt {why : Halt} (h : Ends x s Q E) (hx : x s = .halt why es) :
    E why := Does.of_halt h hx

end Ends

/-! ## Silent computations -/

/-- What `x` does from `s`; it emits nothing, whether it returns or stops. -/
def Hush (x : Act ε σ α) (s : σ) (Q : α → σ → Prop) (E : Halt → Prop) : Prop :=
  Does x s (fun a t es => Q a t ∧ es = []) fun why es => E why ∧ es = []

section Hush

variable {x : Act ε σ α} {f : α → Act ε σ β} {s : σ} {Q R : α → σ → Prop} {E : Halt → Prop}

theorem Hush.mono {E' : Halt → Prop} (h : Hush x s R E) (hQ : ∀ a t, R a t → Q a t)
    (hE : ∀ why, E why → E' why) : Hush x s Q E' :=
  Does.mono h (fun a t _ hr => ⟨hQ a t hr.1, hr.2⟩) fun why _ he => ⟨hE why he.1, he.2⟩

theorem Hush.bind {Q : β → σ → Prop} (hx : Hush x s R E)
    (hf : ∀ a t, R a t → Hush (f a) t Q E) : Hush (x >>= f) s Q E := by
  apply Does.bind hx
  rintro a t _ ⟨hr, rfl⟩
  exact hf a t hr

theorem Hush.ends (h : Hush x s Q E) : Ends x s (fun a t es => Q a t ∧ es = []) E :=
  Does.mono h (fun _ _ _ => id) fun _ _ he => he.1

theorem hush_pure {a : α} (h : Q a s) : Hush (pure a : Act ε σ α) s Q E := ⟨h, rfl⟩

theorem hush_get_bind {f : σ → Act ε σ β} {Q : β → σ → Prop} (h : Hush (f s) s Q E) :
    Hush (get >>= f) s Q E := by
  refine Hush.bind (R := fun a t => a = s ∧ t = s) ⟨⟨rfl, rfl⟩, rfl⟩ ?_
  rintro _ _ ⟨rfl, rfl⟩
  exact h

theorem hush_lift {part : σ → τ} {put : τ → σ → σ} {y : Prog τ α}
    (hok : ∀ a t, y (part s) = .ok a t → Q a (put t s))
    (hhalt : ∀ why, y (part s) = .halt why → E why) :
    Hush (lift part put y : Act ε σ α) s Q E :=
  does_lift (fun a t h => ⟨hok a t h, rfl⟩) fun why h => ⟨hhalt why h, rfl⟩

end Hush

/-- `x` returns `a` from `s` and leaves `t`, whatever it tells on the way. -/
def Gives (x : Act ε σ α) (s : σ) (a : α) (t : σ) : Prop := ∃ es, x s = .ok a t es

section Gives

variable {x : Act ε σ α} {f : α → Act ε σ β} {s t u : σ} {a : α} {b : β}

theorem Gives.bind (hx : Gives x s a t) (hf : Gives (f a) t b u) : Gives (x >>= f) s b u := by
  obtain ⟨es, hes⟩ := hx
  obtain ⟨fs, hfs⟩ := hf
  exact ⟨es ++ fs, by rw [bind_run, hes]; simp only [hfs]; rfl⟩

/-- A computation that returns comes through its first step. -/
theorem Gives.of_bind (h : Gives (x >>= f) s b u) : ∃ a t, Gives x s a t ∧ Gives (f a) t b u := by
  obtain ⟨es, hes⟩ := h
  rw [bind_run] at hes
  cases hx : x s with
  | halt why fs =>
    rw [hx] at hes
    cases hes
  | ok a t fs =>
    rw [hx] at hes
    refine ⟨a, t, ⟨fs, hx⟩, ?_⟩
    cases hf : f a t with
    | halt why gs =>
      simp only [hf] at hes
      cases hes
    | ok b' u' gs =>
      simp only [hf, Out.after, Out.ok.injEq] at hes
      obtain ⟨rfl, rfl, -⟩ := hes
      exact ⟨gs, hf⟩

end Gives

end Act

end Xv6.Lib
