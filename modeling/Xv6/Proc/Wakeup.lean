import Xv6.Proc.Current

/-!
# No wakeup is lost

What the history says about the calls of `sleep` agrees with where the threads stand. From the
moment a process has called `sleep` until it is `SLEEPING` its CPU has `ptable.lock`, so that no
wakeup is done in between, and a wakeup that is done later finds it in the table.
-/

namespace Xv6

open Function Option List

open Lib

/-- The call of `sleep` that a thread is in. -/
def Pc.call : Pc → Option (Chan × Lk)
  | .sleep chan l => some (chan, .addr l)
  | .drowsy chan lk | .asleep chan lk => some (chan, lk)
  | _ => none

/-- What an event says about the call of `sleep` that `p` is in: what it waits for, and whether a
wakeup for that has been done. -/
def ProcEvent.note (p : Fin NPROC) (s : Option ((Chan × Lk) × Bool)) :
    ProcEvent → Option ((Chan × Lk) × Bool)
  | .sleep q chan lk => if q = p then some ((chan, lk), false) else s
  | .returned q => if q = p then none else s
  | .woke _ chan => s.map fun x => (x.1, x.2 || decide (x.1.1 = chan))
  | _ => s

/-- The call of `sleep` that `p` is in after these events. -/
def pending (p : Fin NPROC) (h : List ProcEvent) : Option ((Chan × Lk) × Bool) :=
  h.foldl (ProcEvent.note p) none

/-- Process `p` does not leave its call of `sleep`. -/
def Stays (p : Fin NPROC) (h : List ProcEvent) : Prop :=
  .returned p ∉ h ∧ ∀ chan lk, .sleep p chan lk ∉ h

/-- Process `p` is in a call of `sleep(chan, lk)`, and `w` has acquired `lk` since it was made. -/
def Since (h : List ProcEvent) (p : Fin NPROC) (chan : Chan) (lk : Lk) (w : Who) : Prop :=
  ∃ h1 h2, h = h1 ++ .sleep p chan lk :: h2 ∧ Stays p h2 ∧ .acquired w lk ∈ h2

section

variable {p : Fin NPROC} {h h1 h2 : List ProcEvent} {chan : Chan} {lk : Lk}

theorem pending_append (es : List ProcEvent) :
    pending p (h ++ es) = es.foldl (ProcEvent.note p) (pending p h) := foldl_append ..

theorem Stays.append (h : Stays p h1) (h' : Stays p h2) : Stays p (h1 ++ h2) :=
  ⟨fun he => (mem_append.mp he).elim h.1 h'.1,
    fun ch l he => (mem_append.mp he).elim (h.2 ch l) (h'.2 ch l)⟩

/-- Whoever stays in a call is in it already. -/
theorem pending_map_of_stays (hstay : Stays p h2) :
    (pending p (h ++ h2)).map Prod.fst = (pending p h).map Prod.fst := by
  induction h2 using List.reverseRecOn with
  | nil => rw [append_nil]
  | append_singleton h2 e ih =>
    rw [← ih ⟨fun he => hstay.1 (mem_append_left _ he),
      fun ch l he => hstay.2 ch l (mem_append_left _ he)⟩, ← append_assoc, pending_append]
    cases e with
    | sleep q ch l =>
      have hq : q ≠ p := fun heq => hstay.2 ch l (by simp [heq])
      simp [ProcEvent.note, hq]
    | returned q =>
      have hq : q ≠ p := fun heq => hstay.1 (by simp [heq])
      simp [ProcEvent.note, hq]
    | woke w ch =>
      simp only [foldl_cons, foldl_nil, ProcEvent.note, Option.map_map]
      rfl
    | _ => rfl

/-- A call that has not returned is pending. -/
theorem pending_of_stays (h1 : List ProcEvent) (chan : Chan) (lk : Lk) (hstay : Stays p h2) :
    ∃ b, pending p (h1 ++ .sleep p chan lk :: h2) = some ((chan, lk), b) ∧
      (b = true ↔ ∃ w, .woke w chan ∈ h2) := by
  induction h2 using List.reverseRecOn with
  | nil => exact ⟨false, by simp [pending, ProcEvent.note], by simp⟩
  | append_singleton h2 e ih =>
    obtain ⟨b, hb, hiff⟩ := ih ⟨fun he => hstay.1 (mem_append_left _ he),
      fun ch l he => hstay.2 ch l (mem_append_left _ he)⟩
    have hlast : pending p (h1 ++ .sleep p chan lk :: (h2 ++ [e])) =
        (some ((chan, lk), b) : Option _).elim none fun x => e.note p (some x) := by
      rw [← cons_append, ← append_assoc, pending_append, hb]
      rfl
    rw [hlast]
    cases e with
    | sleep q ch l =>
      have hq : q ≠ p := fun heq => hstay.2 ch l (by simp [heq])
      exact ⟨b, by simp [ProcEvent.note, hq], by simpa using hiff⟩
    | returned q =>
      have hq : q ≠ p := fun heq => hstay.1 (by simp [heq])
      exact ⟨b, by simp [ProcEvent.note, hq], by simpa using hiff⟩
    | woke w ch =>
      refine ⟨b || decide (chan = ch), by simp [ProcEvent.note], ?_⟩
      simp only [Bool.or_eq_true, decide_eq_true_eq, hiff, mem_append, mem_singleton,
        ProcEvent.woke.injEq]
      constructor
      · rintro (⟨v, hv⟩ | heq)
        · exact ⟨v, .inl hv⟩
        · exact ⟨w, .inr ⟨rfl, heq⟩⟩
      · rintro ⟨v, hv | ⟨-, heq⟩⟩
        · exact .inl ⟨v, hv⟩
        · exact .inr heq
    | _ => exact ⟨b, by simp [ProcEvent.note], by simpa using hiff⟩

theorem pending_woke (w : Who) (chans : List Chan) :
    pending p (h ++ chans.map (.woke w)) =
      (pending p h).map fun x => (x.1, x.2 || decide (x.1.1 ∈ chans)) := by
  induction chans using List.reverseRecOn with
  | nil => simp
  | append_singleton chans ch ih =>
    rw [map_append, ← append_assoc, pending_append, ih]
    cases pending p h with
    | none => rfl
    | some x => simp [ProcEvent.note, Bool.or_assoc]

end

namespace Smp

variable {m m' : Smp} {c : Nat} {op : Op} {p q k : Fin NPROC} {chan : Chan} {lk : Lk}

/-- The history agrees with the threads. -/
structure Heard (m : Smp) : Prop where
  call : ∀ p, (pending p m.hist).map Prod.fst = (m.pc p).call
  woken : ∀ p x, pending p m.hist = some (x, true) →
    m.pc p = .asleep x.1 x.2 ∧ m.state p ≠ .sleeping

/-- A thread without `ptable.lock` is not in `sleep`. -/
theorem call_of_unlocked {pc : Pc} (h : pc.locked = false) : pc.call = none := by
  cases pc <;> simp_all [Pc.locked, Pc.call]

namespace Heard

/-- Nothing is said about calls of `sleep`, and no thread enters or leaves one. -/
theorem frame (h : Heard m) (hpend : ∀ q, pending q m'.hist = pending q m.hist)
    (hcall : ∀ q, (m'.pc q).call = (m.pc q).call)
    (hasleep : ∀ q chan lk, m.pc q = .asleep chan lk → m.state q ≠ .sleeping →
      m'.pc q = .asleep chan lk ∧ m'.state q ≠ .sleeping) : Heard m' := by
  refine ⟨fun q => ?_, fun q x hx => ?_⟩
  · rw [hpend, hcall]
    exact h.call q
  · rw [hpend] at hx
    obtain ⟨hpc, hs⟩ := h.woken q x hx
    exact hasleep q x.1 x.2 hpc hs

/-- A thread moves, but not in or out of `sleep`. -/
theorem move {pc : Pc} (h : Heard m) (hpend : ∀ q, pending q m'.hist = pending q m.hist)
    (hpc : m'.pc = update m.pc p pc) (hcall : pc.call = (m.pc p).call)
    (hout : ∀ chan lk, m.pc p ≠ .asleep chan lk)
    (hstate : ∀ q, q ≠ p → m.state q ≠ .sleeping → m'.state q ≠ .sleeping) : Heard m' := by
  refine h.frame hpend (fun q => ?_) fun q chan lk hq hs => ?_
  · by_cases hq : q = p
    · rw [hpc, hq, update_self, hcall]
    · rw [hpc, update_of_ne hq]
  · have hne : q ≠ p := fun heq => hout chan lk (heq ▸ hq)
    rw [hpc, update_of_ne hne]
    exact ⟨hq, hstate q hne hs⟩

/-- A thread calls `sleep` or leaves it. -/
theorem turn {pc : Pc} {s : Option (Chan × Lk)} (h : Heard m)
    (hself : pending p m'.hist = s.map fun x => (x, false))
    (hpend : ∀ q, q ≠ p → pending q m'.hist = pending q m.hist)
    (hpc : m'.pc = update m.pc p pc) (hcall : pc.call = s)
    (hstate : m'.state = m.state) : Heard m' := by
  refine ⟨fun q => ?_, fun q x hx => ?_⟩
  · by_cases hq : q = p
    · rw [hq, hself, hpc, update_self, hcall]
      cases s <;> rfl
    · rw [hpend q hq, hpc, update_of_ne hq]
      exact h.call q
  · by_cases hq : q = p
    · rw [hq, hself] at hx
      cases s <;> simp at hx
    · rw [hpend q hq] at hx
      rw [hpc, update_of_ne hq, hstate]
      exact h.woken q x hx

/-- A thread in `sleep` that does not run is in `sched`. -/
theorem asleep_of_unlocked (h : Heard m) (hok : Ok m) (hlock : m.lock = none) {x : Chan × Lk}
    {b : Bool} (hp : pending p m.hist = some (x, b)) :
    m.pc p = .asleep x.1 x.2 ∧
      (m.state p = .sleeping ∧ m.chan p = some x.1 ∨ m.state p = .runnable) := by
  have hcall := h.call p
  rw [hp] at hcall
  have hfits := hok.fits p
  have hrun : m.state p ≠ .running := fun hs => by
    obtain ⟨d, hd⟩ := (hok.run p).mp hs
    have hun := hok.unlocked hd hlock
    cases hpc : m.pc p <;> rw [hpc] at hun hcall <;> simp [Pc.locked, Pc.call] at hun hcall
  cases hs : m.state p with
  | running => exact absurd hs hrun
  | sleeping =>
    rw [hs] at hfits
    obtain ⟨ch, l, hpc, hch⟩ := hfits
    rw [hpc] at hcall
    obtain rfl : x = (ch, l) := some.inj hcall
    exact ⟨hpc, .inl ⟨rfl, hch⟩⟩
  | runnable =>
    rw [hs] at hfits
    rcases hfits with ⟨-, _, hpc⟩ | ⟨ch, l, hpc⟩
    · rw [hpc] at hcall
      simp [Pc.call] at hcall
    · rw [hpc] at hcall
      obtain rfl : x = (ch, l) := some.inj hcall
      exact ⟨hpc, .inr rfl⟩
  | unused | embryo | zombie =>
    rw [hs] at hfits
    have hpc : m.pc p = .dead := hfits
    rw [hpc] at hcall
    simp [Pc.call] at hcall

/-- Wakeups while `ptable.lock` is held by the one who wakes. -/
theorem wakeAll (h : Heard m) (chans : List Chan) (hok : Ok m) (hlock : m.lock = none)
    (hpend : ∀ q, pending q m'.hist =
      (pending q m.hist).map fun x => (x.1, x.2 || decide (x.1.1 ∈ chans)))
    (hcall : ∀ q, (m'.pc q).call = (m.pc q).call)
    (hpc : ∀ q chan lk, m.pc q = .asleep chan lk → m'.pc q = .asleep chan lk)
    (hstate : ∀ q chan lk, m.pc q = .asleep chan lk →
      m'.state q = ((m.wakeAll chans).proc q).state) : Heard m' := by
  refine ⟨fun q => ?_, fun q x hx => ?_⟩
  · rw [hpend, hcall, ← h.call q, Option.map_map]
    rfl
  · rw [hpend] at hx
    obtain ⟨⟨y, b⟩, hy, heq⟩ := map_eq_some_iff.mp hx
    obtain ⟨rfl, hb⟩ := Prod.mk.inj heq
    obtain ⟨hasleep, hs⟩ := h.asleep_of_unlocked hok hlock hy
    refine ⟨hpc q _ _ hasleep, ?_⟩
    rw [hstate q _ _ hasleep, wakeAll_proc]
    split
    · simp
    · rename_i hno
      rcases hs with ⟨hs, hch⟩ | hs
      · -- still asleep, so the wakeup was an earlier one
        have hb' : b = true := by
          simp only [Bool.or_eq_true, decide_eq_true_eq] at hb
          exact hb.resolve_right fun hmem => hno ⟨hs, y.1, hmem, hch⟩
        rw [hb'] at hy
        exact absurd hs (h.woken q y hy).2
      · have hs' : (m.ptable.proc q).state = .runnable := hs
        rw [hs']
        simp

/-- A process is given a state other than `SLEEPING`. -/
theorem awake_update {s : ProcState} (hs : s ≠ .sleeping) (hq : m.state q ≠ .sleeping) :
    update m.state k s q ≠ .sleeping := by
  by_cases hqk : q = k
  · rw [hqk, update_self]
    exact hs
  · rw [update_of_ne hqk]
    exact hq

theorem pending_quiet {es : List ProcEvent} (hes : ∀ e ∈ es, ∀ s, e.note q s = s)
    (h : List ProcEvent) : pending q (h ++ es) = pending q h := by
  induction es using List.reverseRecOn with
  | nil => rw [append_nil]
  | append_singleton es e ih =>
    rw [← append_assoc, pending_append, ih fun e he => hes e (mem_append_left _ he)]
    exact hes e (by simp) _

/-- Every step keeps history and threads together. -/
theorem does (h : Heard m) (hok : Ok m) (hd : Does m c op m') : Heard m' := by
  cases hd with
  | scan hlock hstack | skip hlock hstack | done hlock hstack | release l hidle hheld =>
    exact h.frame (fun _ => rfl) (fun _ => rfl) fun _ _ _ hq hs => ⟨hq, hs⟩
  | dispatch k hlock hstack hstate =>
    refine h.frame (fun _ => rfl) (fun _ => rfl) fun q _ _ hq hs => ⟨hq, ?_⟩
    rw [show (m.dispatch c k).state = _ from state_set (m := m) (k := k) (s := .running) rfl]
    exact awake_update (by simp) hs
  | back p pc hstack hpc =>
    have hlive := hok.live hstack
    rw [hpc] at hlive
    exact h.move (fun _ => rfl) rfl (by rw [hpc, call_of_unlocked hlive.1]; rfl) (by simp [hpc])
      fun _ _ => id
  | rescan p chan hstack hpc | resume p chan l hstack hpc =>
    refine h.turn (p := p) (s := none) ?_ (fun q hq => ?_) rfl rfl rfl
    · simp [Smp.log, setPc, pending_append, ProcEvent.note]
    · simp [Smp.log, setPc, pending_append, ProcEvent.note, Ne.symm hq]
  | yield p hstack hpc hlock =>
    refine h.move (p := p) (fun _ => rfl) rfl (call_of_unlocked hpc).symm
      (fun _ _ heq => by simp [heq, Pc.locked] at hpc) fun q hq hs => ?_
    rw [sched_state, setPc_state, state_set (m := m) (k := p) (s := .runnable) rfl,
      update_of_ne hq]
    exact hs
  | acquire l hidle hfree =>
    exact h.frame (fun _ => pending_quiet (by simp [ProcEvent.note]) _) (fun _ => rfl)
      fun _ _ _ hq hs => ⟨hq, hs⟩
  | sleep p chan l hstack hpc hlock hheld =>
    refine h.turn (p := p) (s := some (chan, .addr l)) ?_ (fun q hq => ?_) rfl rfl rfl
    · simp [Smp.log, setPc, pending_append, ProcEvent.note]
    · simp [Smp.log, setPc, pending_append, ProcEvent.note, Ne.symm hq]
  | unlock p chan l hstack hpc | kalloc p k hstack hpc =>
    exact h.move (fun _ => rfl) rfl (by rw [hpc]; rfl) (by simp [hpc]) fun _ _ => id
  | doze p chan lk hstack hpc =>
    refine h.move (p := p) (fun _ => rfl) rfl (by rw [hpc]; rfl) (by simp [hpc]) fun q hq hs => ?_
    rw [sched_state, setPc_state, state_set (m := m) (k := p) (s := .sleeping) rfl,
      update_of_ne hq]
    exact hs
  | relock p l hstack hpc hfree | wait p hstack hpc hlock =>
    exact h.move (fun _ => pending_quiet (by simp [ProcEvent.note]) _) rfl (by rw [hpc]; rfl)
      (by simp [hpc]) fun _ _ => id
  | wakeup chan hidle hlock =>
    refine h.wakeAll [chan] hok hlock (fun q => ?_) (fun _ => rfl) (fun _ _ _ => id)
      fun _ _ _ _ => rfl
    simp [Smp.log, pending_append, ProcEvent.note]
  | kill pid hidle hlock =>
    refine h.frame (fun _ => rfl) (fun _ => rfl) fun q _ _ hq hs => ⟨hq, ?_⟩
    rcases Ok.state_kill m.ptable pid q with hk | ⟨-, hk⟩
    · show ((m.ptable.kill pid).1.proc q).state ≠ .sleeping
      rw [hk]
      exact hs
    · show ((m.ptable.kill pid).1.proc q).state ≠ .sleeping
      rw [hk]
      simp
  | full => exact h
  | fork p k t hstack hpc hlock halloc =>
    obtain ⟨-, hunused, rfl⟩ := Ptable.allocproc_some halloc
    refine h.move (p := p) (fun _ => rfl) rfl (by rw [hpc]; rfl) (by simp [hpc]) fun q _ hs => ?_
    rw [setPc_state, state_set (m := m) (k := k) (s := .embryo) rfl]
    exact awake_update (by simp) hs
  | noStack p k hstack hpc | noCopy p k hstack hpc =>
    refine h.move (p := p) (fun _ => rfl) rfl (by rw [hpc]; rfl) (by simp [hpc]) fun q _ hs => ?_
    rw [setPc_state, state_set (m := m) (k := k) (s := .unused) rfl]
    exact awake_update (by simp) hs
  | copyuvm p k hstack hpc =>
    refine h.move (p := p) (fun _ => rfl) rfl (by rw [hpc]; rfl) (by simp [hpc]) fun q _ hs => ?_
    rw [setPc_state, state_keep (m := m) (k := k) rfl]
    exact hs
  | ready p k hstack hpc hlock =>
    have hk := hok.fits k
    rw [hok.child p k (by rw [hpc]; rfl)] at hk
    have hdead : m.pc k = .dead := hk
    have hkp : k ≠ p := fun heq => by rw [heq, hpc] at hdead; simp at hdead
    refine h.frame (fun _ => pending_quiet (by simp [ProcEvent.note]) _) (fun q => ?_)
      fun q ch l hq hs => ?_
    · by_cases hqp : q = p
      · simp [Smp.log, setPc, hqp, hpc, Pc.call]
      · by_cases hqk : q = k
        · simp [Smp.log, setPc, hqk, hkp, hdead, Pc.call]
        · simp [Smp.log, setPc, hqp, hqk]
    · have hqp : q ≠ p := fun heq => by rw [heq, hpc] at hq; simp at hq
      have hqk : q ≠ k := fun heq => by rw [heq, hdead] at hq; simp at hq
      refine ⟨by simp [Smp.log, setPc, hqp, hqk, hq], ?_⟩
      rw [log_state, setPc_state, setPc_state, state_set (m := m) (k := k) (s := .runnable) rfl]
      exact awake_update (by simp) hs
  | exit p m' hstack hpc hlock hexit =>
    obtain ⟨t, ht, rfl⟩ := map_eq_some_iff.mp hexit
    have hne : ∀ q ch l, m.pc q = .asleep ch l → q ≠ p := fun q ch l hq heq => by
      rw [heq, hpc] at hq
      simp at hq
    refine h.wakeAll (m.exitChans p) hok hlock (fun q => ?_) (fun q => ?_)
      (fun q ch l hq => ?_) fun q ch l hq => ?_
    · show pending q (m.hist ++ (.acquired (m.who c) .ptable :: (m.exitChans p).map _ ++ _)) = _
      rw [← append_assoc, pending_quiet (by simp [ProcEvent.note]), ← singleton_append,
        ← append_assoc, pending_woke, pending_quiet (by simp [ProcEvent.note])]
    · by_cases hqp : q = p
      · simp [Smp.log, setPc, sched, hqp, hpc, Pc.call]
      · simp [Smp.log, setPc, sched, hqp]
    · simp [Smp.log, setPc, sched, hne q ch l hq, hq]
    · have hq' := Ok.state_exit ht q
      rwa [if_neg (hne q ch l hq)] at hq'
  | reap p hstack hpc =>
    unfold scanWait
    split
    · rename_i k hk
      refine h.move (p := p) (fun _ => pending_quiet (by simp [ProcEvent.note]) _) rfl
        (by rw [hpc]; rfl) (by simp [hpc]) fun q _ hs => ?_
      rw [log_state, setPc_state, state_set (m := m) (k := k) (s := .unused) rfl]
      exact awake_update (by simp) hs
    · split
      · exact h.move (p := p) (fun _ => pending_quiet (by simp [ProcEvent.note]) _) rfl
          (by rw [hpc]; rfl) (by simp [hpc]) fun _ _ => id
      · refine h.turn (p := p) (s := some (.proc p, .ptable)) ?_ (fun q hq => ?_) rfl rfl rfl
        · simp [Smp.log, setPc, pending_append, ProcEvent.note]
        · simp [Smp.log, setPc, pending_append, ProcEvent.note, Ne.symm hq]

theorem boot (cwd : Option (Fin NINODE)) : Heard (boot cwd) := by
  refine ⟨fun p => ?_, fun p x hx => by simp [Smp.boot, pending] at hx⟩
  by_cases hp : p.val = 0 <;> simp [Smp.boot, pending, hp, Pc.call]

theorem reachable (h : Reachable m) : Ok m ∧ Heard m := by
  obtain ⟨cwd, ls, hrun⟩ := h
  have hstep : ∀ l m m', Ok m ∧ Heard m → Smp.step l m = some m' → Ok m' ∧ Heard m' :=
    fun l m m' h hstep => ⟨h.1.step hstep, h.2.does h.1 (does_of_step hstep)⟩
  exact runFrom_invariant hstep ⟨Ok.boot cwd, boot cwd⟩ hrun

end Heard

/-- The steps that wake processes up are `wakeup` and `exit`. -/
theorem Does.woke {w : Who} {pre post : List ProcEvent} (hd : Does m c op m')
    (hm' : m'.hist = m.hist ++ (pre ++ .woke w chan :: post)) :
    m.lock = none ∧ (∀ p, Stays p pre) ∧ ∃ chans, chan ∈ chans ∧
      ∀ q ch l, m.pc q = .asleep ch l → m'.state q = ((m.wakeAll chans).proc q).state := by
  -- the events of the step, whatever it is
  have hmem : ∀ {es : List ProcEvent}, m'.hist = m.hist ++ es → .woke w chan ∈ es := fun hes => by
    rw [hm'] at hes
    rw [← append_cancel_left hes]
    simp
  cases hd with
  | wakeup ch hidle hlock =>
    have hes := append_cancel_left hm'
    have hch : chan = ch := by
      have := hmem rfl
      simp at this
      exact this.2
    refine ⟨hlock, fun p => ?_, [ch], by simp [hch], fun _ _ _ _ => rfl⟩
    have hsub : ∀ e ∈ pre, e ∈ [ProcEvent.acquired (m.who c) .ptable, .woke (m.who c) ch] :=
      fun e he => by rw [hes]; exact mem_append_left _ he
    exact ⟨fun he => by simpa using hsub _ he, fun x l he => by simpa using hsub _ he⟩
  | exit p m' hstack hpc hlock hexit =>
    obtain ⟨t, ht, rfl⟩ := map_eq_some_iff.mp hexit
    have hes := append_cancel_left hm'
    have hmem' := hmem rfl
    have hch : chan ∈ m.exitChans p := by
      simp at hmem'
      exact hmem'.1
    refine ⟨hlock, fun q => ?_, m.exitChans p, hch, fun q ch l hq => ?_⟩
    · have hsub : ∀ e ∈ pre, e ∈ ProcEvent.acquired (m.who c) .ptable ::
          (m.exitChans p).map (ProcEvent.woke (m.who c)) ++
            [ProcEvent.exited (m.ptable.proc p).pid] :=
        fun e he => by rw [hes]; exact mem_append_left _ he
      exact ⟨fun he => by simpa using hsub _ he, fun x l he => by simpa using hsub _ he⟩
    · have hqp : q ≠ p := fun heq => by
        rw [heq, hpc] at hq
        simp at hq
      have hq' := Ok.state_exit ht q
      rwa [if_neg hqp] at hq'
  | reap p hstack hpc =>
    unfold scanWait at hmem
    split at hmem
    · simpa using hmem rfl
    · split at hmem <;> simpa using hmem rfl
  | rescan | resume | acquire | sleep | relock | ready | wait => simpa using hmem rfl
  | _ => simpa using hmem (append_nil _).symm

/-- If a process calls `sleep(chan, lk)`, then a `wakeup(chan)` by someone who has acquired `lk`
since finds it `SLEEPING` on `chan`, or runnable already, and leaves it runnable; and after such a
wakeup it is not `SLEEPING` as long as it is in that call. -/
theorem wakeup_not_lost (h : Reachable m) :
    (∀ l m' pre post w p chan lk, step l m = some m' →
      m'.hist = m.hist ++ (pre ++ .woke w chan :: post) → Since (m.hist ++ pre) p chan lk w →
      (m.state p = .sleeping ∧ m.chan p = some chan ∨ m.state p = .runnable) ∧
        m'.state p = .runnable) ∧
    ∀ h1 h2 w p chan lk, m.hist = h1 ++ .woke w chan :: h2 → Since h1 p chan lk w → Stays p h2 →
      m.state p ≠ .sleeping := by
  obtain ⟨hok, hheard⟩ := Heard.reachable h
  refine ⟨fun l m' pre post w p chan lk hstep hm' hsince => ?_,
    fun h1 h2 w p chan lk hhist hsince hstay => ?_⟩
  · obtain ⟨hlock, hpre, chans, hmem, hstate⟩ := (does_of_step hstep).woke hm'
    obtain ⟨g1, g2, heq, hstay, -⟩ := hsince
    -- the call was made before this step
    have hpend : ∃ b, pending p m.hist = some ((chan, lk), b) := by
      obtain ⟨b, hb, -⟩ := pending_of_stays g1 chan lk hstay
      have hmap := pending_map_of_stays (h := m.hist) (hpre p)
      rw [heq, hb] at hmap
      obtain ⟨⟨x, b'⟩, hx, hxeq⟩ := map_eq_some_iff.mp hmap.symm
      exact ⟨b', by rw [hx, show x = (chan, lk) from hxeq]⟩
    obtain ⟨b, hb⟩ := hpend
    obtain ⟨hpc, hfound⟩ := hheard.asleep_of_unlocked hok hlock hb
    refine ⟨hfound, ?_⟩
    rw [hstate p _ _ hpc, wakeAll_proc]
    rcases hfound with ⟨hs, hch⟩ | hs
    · rw [if_pos ⟨hs, chan, hmem, hch⟩]
    · rw [if_neg fun hno => by rw [hs] at hno; simp at hno]
      exact hs
  · obtain ⟨g1, g2, rfl, hg, -⟩ := hsince
    have hall : m.hist = g1 ++ .sleep p chan lk :: (g2 ++ .woke w chan :: h2) := by
      rw [hhist]
      simp
    have hstays : Stays p (g2 ++ .woke w chan :: h2) :=
      Stays.append hg (Stays.append (show Stays p [.woke w chan] by simp [Stays]) hstay)
    obtain ⟨b, hb, hiff⟩ := pending_of_stays g1 chan lk hstays
    rw [hiff.mpr ⟨w, by simp⟩, ← hall] at hb
    exact (hheard.woken p _ hb).2

/-- The first process goes to sleep, and CPU 1 takes the lock in between. -/
def napRun : List (Nat × Op) :=
  [(0, .scan), (0, .look), (0, .resume), (0, .acquire 7), (0, .sleep (.addr 9) 7), (0, .unlock),
    (1, .acquire 7), (0, .doze)] ++ List.replicate NPROC (0, .look)

/-- The wakeup of CPU 1 finds it. -/
theorem nap_is_over : ∃ m m', runFrom step napRun (boot none) = some m ∧
    step (1, .wakeup (.addr 9)) m = some m' ∧ m'.state first = .runnable := by
  have hrun : ((runFrom step napRun (boot none)).bind fun m =>
      (step (1, .wakeup (.addr 9)) m).map fun m' => (m.hist, m'.hist)) =
      some ([.acquired (.proc first) (.addr 7), .sleep first (.addr 9) (.addr 7),
        .acquired (.cpu 1) (.addr 7)],
        [.acquired (.proc first) (.addr 7), .sleep first (.addr 9) (.addr 7),
        .acquired (.cpu 1) (.addr 7), .acquired (.cpu 1) .ptable, .woke (.cpu 1) (.addr 9)]) := by
    decide +kernel
  obtain ⟨m, hm, hstep⟩ := bind_eq_some_iff.mp hrun
  obtain ⟨m', hstep, heq⟩ := map_eq_some_iff.mp hstep
  obtain ⟨hhist, hhist'⟩ := Prod.mk.inj heq
  have hsince : Since (m.hist ++ [.acquired (.cpu 1) .ptable]) first (.addr 9) (.addr 7)
      (.cpu 1) := by
    refine ⟨[.acquired (.proc first) (.addr 7)],
      [.acquired (.cpu 1) (.addr 7), .acquired (.cpu 1) .ptable], by rw [hhist]; rfl, ?_, by simp⟩
    exact ⟨by simp, by simp⟩
  exact ⟨m, m', hm, hstep, ((wakeup_not_lost ⟨none, _, hm⟩).1 _ m' [.acquired (.cpu 1) .ptable] []
    (.cpu 1) first (.addr 9) (.addr 7) hstep (by rw [hhist, hhist']; rfl) hsince).2⟩

end Smp

end Xv6
