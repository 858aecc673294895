import Xv6.Pipe.Calls

/-!
# Wakeups of readers and writers

A process sleeps on a pipe only as long as there is nothing for it to do, unless the process that
has the lock is going to wake it up. The one call that does not keep to this is a `pipewrite` that
finds the pipe full and returns because the process was killed: what it stored before is announced
to nobody.
-/

namespace Xv6

open Function Option

open Lib

/-- A place where a process that is not in `pipe.c` can be. -/
def Pc.Foreign : Pc → Prop
  | .sleep chan l => l ≠ 0 ∧ ∀ nread, chan ≠ pipeChan nread
  | .drowsy chan lk | .asleep chan lk => lk ≠ .addr 0 ∧ ∀ nread, chan ≠ pipeChan nread
  | .relock l => l ≠ 0
  | .back pc => pc.Foreign
  | _ => True

/-- A place where a process that is in `pipe.c` can be. -/
def Pc.InPipe : Pc → Prop
  | .out => True
  | .sleep chan l => l = 0 ∧ ∃ nread, chan = pipeChan nread
  | .drowsy chan lk | .asleep chan lk => lk = .addr 0 ∧ ∃ nread, chan = pipeChan nread
  | .relock l => l = 0
  | .back pc => pc ≠ .out ∧ pc.InPipe
  | _ => False

/-- Whether a process that is in `pipe.c` has the lock of the pipe there. -/
def Pc.HasPipe : Pc → Prop
  | .out | .sleep .. => True
  | _ => False

/-- What the process has found out under the lock: it has to wait on `&p->nread` (true) or on
`&p->nwrite` (false). -/
def PipePc.found : PipePc → Option Bool
  | .writeFull .. | .writeSleep .. => some false
  | .readSleep _ => some true
  | _ => none

/-- Whether the process is going to call `wakeup(&p->nread)` (true) or `wakeup(&p->nwrite)` (false)
before it releases the lock, if all goes well. -/
def PipePc.owes (nread : Bool) : PipePc → Bool
  | .write .. | .writeFull .. => nread
  | .copy .. => !nread
  | .wake x _ => x == nread
  | _ => false

/-- There is nothing for a reader (true) or a writer (false) to do. -/
def PipeBuf.Blocked (b : PipeBuf) : Bool → Prop
  | true => b.empty = true ∧ b.writeopen = true
  | false => b.full = true ∧ b.readopen = true

/-- The process is asleep on the channel, or about to be. -/
def Smp.Waits (m : Smp) (p : Fin NPROC) (chan : Chan) : Prop :=
  (∃ l, m.pc p = .sleep chan l) ∨ (∃ lk, m.pc p = .drowsy chan lk) ∨
    (∃ lk, m.pc p = .asleep chan lk) ∧ m.state p = .sleeping

namespace Pc

theorem not_foreign_of_waits {m : Smp} {p : Fin NPROC} {nread : Bool}
    (h : m.Waits p (pipeChan nread)) : ¬ (m.pc p).Foreign := by
  rcases h with ⟨l, hpc⟩ | ⟨lk, hpc⟩ | ⟨⟨lk, hpc⟩, -⟩
  all_goals
    rw [hpc]
    exact fun hf => hf.2 nread rfl

/-- Where a process in `pipe.c` can be preempted. -/
theorem relock_of_inPipe {pc : Pc} (h : pc.InPipe) (hlocked : pc.locked = false)
    (hne : pc ≠ .out) : pc = .relock 0 := by
  cases pc <;> simp_all [Pc.InPipe, Pc.locked]

end Pc

namespace PipeSys

variable {s : PipeSys} {m' : Smp} {c : Nat} {p : Fin NPROC}

/-- Who has the lock, and who knows what. -/
structure Told (s : PipeSys) : Prop where
  ok : Smp.Ok s.sys
  away : ∀ p, s.pos p = .out → (s.sys.pc p).Foreign
  inside : ∀ p, s.pos p ≠ .out → (s.sys.pc p).InPipe
  lock : ∀ c p, (s.sys.cpu c).stack = some p → s.pos p ≠ .out → (s.sys.pc p).HasPipe →
    s.sys.holder 0 = some c
  test : ∀ p nread, (s.pos p).found = some nread → s.sys.pc p = .out ∧ s.pipe.Blocked nread
  told : ∀ p nread, s.sys.Waits p (pipeChan nread) → s.pipe.Blocked nread ∨
    ∃ q, s.sys.pc q = .out ∧ (s.pos q).owes nread = true

namespace Told

theorem out_of (h : Told s) (hp : ¬ (s.sys.pc p).InPipe) : s.pos p = .out := by
  by_contra hne
  exact hp (h.inside p hne)

/-- A process that is on a CPU, or that its scheduler switches to, and that has the lock. -/
theorem held (h : Told s) (hstack : (s.sys.cpu c).stack = some p ∨ s.sys.state p = .runnable)
    (hp : s.pos p ≠ .out) (hhas : (s.sys.pc p).HasPipe) : s.sys.holder 0 = some c := by
  rcases hstack with hstack | hrun
  · exact h.lock c p hstack hp hhas
  · -- a runnable process does not have the lock
    have hfits := h.ok.fits p
    rw [hrun] at hfits
    rcases hfits with ⟨-, _, hback⟩ | ⟨chan, lk, hasleep⟩
    · rw [hback] at hhas
      exact hhas.elim
    · rw [hasleep] at hhas
      exact hhas.elim

/-- A step outside `pipe.c` that only moves threads outside `pipe.c`, or that puts nobody to sleep
and leaves those where they are that have the lock. -/
theorem calm (h : Told s) (hok : Smp.Ok m')
    (haway : ∀ q, s.pos q = .out → (m'.pc q).Foreign)
    (hinside : ∀ q, s.pos q ≠ .out → (m'.pc q).InPipe)
    (hlock : ∀ d q, (m'.cpu d).stack = some q → s.pos q ≠ .out → (m'.pc q).HasPipe →
      m'.holder 0 = some d)
    (hout : ∀ q, s.pos q ≠ .out → s.sys.pc q = .out → m'.pc q = .out)
    (hwaits : ∀ q nread, s.pos q ≠ .out → m'.Waits q (pipeChan nread) →
      s.sys.Waits q (pipeChan nread)) : Told { s with sys := m' } := by
  refine ⟨hok, haway, hinside, hlock, fun q nread hq => ?_, fun q nread hq => ?_⟩
  · have hne : s.pos q ≠ .out := fun heq => by
      rw [heq] at hq
      simp [PipePc.found] at hq
    obtain ⟨hpc, hb⟩ := h.test q nread hq
    exact ⟨hout q hne hpc, hb⟩
  · have hne : s.pos q ≠ .out := fun heq => Pc.not_foreign_of_waits hq (haway q heq)
    apply (h.told q nread (hwaits q nread hne hq)).imp id
    rintro ⟨r, hr, howes⟩
    have hrne : s.pos r ≠ .out := fun heq => by
      rw [heq] at howes
      simp [PipePc.owes] at howes
    exact ⟨r, hout r hrne hr, howes⟩

theorem plain (h : Told s) (hok : Smp.Ok m')
    (hpc : ∀ q, m'.pc q = s.sys.pc q ∨ s.pos q = .out ∧ (m'.pc q).Foreign)
    (hstate : ∀ q, m'.state q = .sleeping → s.sys.state q = .sleeping ∨ s.pos q = .out)
    (hstack : ∀ d q, (m'.cpu d).stack = some q →
      (s.sys.cpu d).stack = some q ∨ s.sys.state q = .runnable)
    (hholder : m'.holder 0 = s.sys.holder 0) : Told { s with sys := m' } := by
  have hsame : ∀ q, s.pos q ≠ .out → m'.pc q = s.sys.pc q := fun q hq =>
    (hpc q).resolve_right fun hout => hq hout.1
  refine h.calm hok (fun q hq => ?_) (fun q hq => ?_) (fun d q hd hq hhas => ?_)
    (fun q hq hout => ?_) (fun q nread hq hwaits => ?_)
  · rcases hpc q with heq | hf
    · rw [heq]
      exact h.away q hq
    · exact hf.2
  · rw [hsame q hq]
    exact h.inside q hq
  · rw [hsame q hq] at hhas
    rw [hholder]
    exact h.held (hstack d q hd) hq hhas
  · rw [hsame q hq, hout]
  · unfold Smp.Waits at hwaits ⊢
    rw [hsame q hq] at hwaits
    exact hwaits.imp id (Or.imp id fun ⟨hpc, hs⟩ => ⟨hpc, (hstate q hs).resolve_right hq⟩)

variable {pc : Pc} {m : Smp} {q : Fin NPROC} {s' : PipeSys} {a b : PipePc} {nread : Bool}

theorem moved (hp : s.pos p = .out) (hpc : pc.Foreign) (q : Fin NPROC) :
    update s.sys.pc p pc q = s.sys.pc q ∨
      s.pos q = .out ∧ (update s.sys.pc p pc q).Foreign := by
  by_cases hq : q = p
  · subst hq
    rw [update_self]
    exact .inr ⟨hp, hpc⟩
  · exact .inl (update_of_ne hq ..)

theorem stacked {x : Cpu} (hx : x.stack = (m.cpu c).stack ∨ x.stack = none) (d : Nat)
    (q : Fin NPROC) (h : (update m.cpu c x d).stack = some q) :
    (m.cpu d).stack = some q ∨ m.state q = .runnable := by
  by_cases hd : d = c
  · subst hd
    rw [update_self] at h
    rcases hx with hx | hx
    · exact .inl (hx ▸ h)
    · rw [hx] at h
      simp at h
  · rw [update_of_ne hd] at h
    exact .inl h

theorem awake_set {k : Fin NPROC} {x : Proc} (h : m'.ptable.proc = update m.ptable.proc k x)
    (hx : x.state ≠ .sleeping ∨ x.state = m.state k) (q : Fin NPROC) (hq : m'.state q = .sleeping) :
    m.state q = .sleeping ∨ s.pos q = .out := by
  rw [Smp.state, h] at hq
  by_cases hqk : q = k
  · subst hqk
    rw [update_self] at hq
    exact .inl ((hx.resolve_left fun hne => hne hq) ▸ hq)
  · rw [update_of_ne hqk] at hq
    exact .inl hq

theorem awake_wake {x : ProcState} (h : x = m.state q ∨ m.state q = .sleeping ∧ x = .runnable)
    (hx : x = .sleeping) :
    m.state q = .sleeping ∨ s.pos q = .out := by
  rcases h with rfl | ⟨hs, -⟩
  · exact .inl hx
  · exact .inl hs

/-- A thread in `pipe.c` goes on in `sleep`. -/
theorem asleep (h : Told s) (hok : Smp.Ok m') (hp : s.pos p ≠ .out) (hne : s.sys.pc p ≠ .out)
    (hpc : m'.pc = update s.sys.pc p pc) (hin : pc.InPipe)
    (hstate : ∀ q ≠ p, m'.state q = s.sys.state q)
    (hlock : ∀ d q, (m'.cpu d).stack = some q → s.pos q ≠ .out → (m'.pc q).HasPipe →
      m'.holder 0 = some d)
    (hwaits : ∀ nread, m'.Waits p (pipeChan nread) → s.sys.Waits p (pipeChan nread)) :
    Told { s with sys := m' } := by
  have hself : m'.pc p = pc := by rw [hpc, update_self]
  have hsame : ∀ q ≠ p, m'.pc q = s.sys.pc q := fun q hq => by
    rw [hpc, update_of_ne hq]
  refine h.calm hok (fun q hq => ?_) (fun q hq => ?_) hlock (fun q hq hout => ?_)
    (fun q nread hq hw => ?_)
  · rw [hsame q fun heq => hp (heq ▸ hq)]
    exact h.away q hq
  · by_cases hqp : q = p
    · rw [hqp, hself]
      exact hin
    · rw [hsame q hqp]
      exact h.inside q hq
  · rw [hsame q fun heq => hne (heq ▸ hout), hout]
  · by_cases hqp : q = p
    · rw [hqp] at hw ⊢
      exact hwaits nread hw
    · unfold Smp.Waits at hw ⊢
      rwa [hsame q hqp, hstate q hqp] at hw

/-- A thread in `pipe.c` that has given up the lock goes on in `sleep`. -/
theorem settle (h : Told s) (hok : Smp.Ok m') (hp : s.pos p ≠ .out) (hne : s.sys.pc p ≠ .out)
    (hpc : m'.pc = update s.sys.pc p pc) (hin : pc.InPipe) (hhas : ¬ pc.HasPipe)
    (hstate : ∀ q ≠ p, m'.state q = s.sys.state q)
    (hstack : ∀ d q, (m'.cpu d).stack = some q →
      (s.sys.cpu d).stack = some q ∨ s.sys.state q = .runnable)
    (hholder : m'.holder 0 = s.sys.holder 0)
    (hwaits : ∀ nread, m'.Waits p (pipeChan nread) → s.sys.Waits p (pipeChan nread)) :
    Told { s with sys := m' } := by
  refine h.asleep hok hp hne hpc hin hstate (fun d q hd hq hq' => ?_) hwaits
  rw [hpc] at hq'
  by_cases hqp : q = p
  · rw [hqp, update_self] at hq'
    exact absurd hq' hhas
  · rw [update_of_ne hqp] at hq'
    rw [hholder]
    exact h.held (hstack d q hd) hq hq'

/-- Steps outside `pipe.c`. -/
theorem sys {op : Smp.Op} (h : Told s) (hd : Smp.Does s.sys c op m') (hforeign : op.foreign = true)
    (hout : ∀ p, s.sys.thread c = some p → s.pos p = .out) : Told { s with sys := m' } := by
  have hok := h.ok.does hd
  have hthread : ∀ {p}, (s.sys.cpu c).stack = some p → s.sys.pc p = .out → s.pos p = .out :=
    fun hstack hpc => hout _ (Smp.thread_eq_some.mpr ⟨hstack, hpc⟩)
  cases hd with
  | scan hlock hstack | skip hlock hstack =>
    exact h.plain hok (fun _ => .inl rfl) (fun _ => .inl) (stacked (.inl rfl)) rfl
  | done hlock hstack =>
    exact h.plain hok (fun _ => .inl rfl) (fun _ => .inl) (fun _ _ => .inl) rfl
  | dispatch k hlock hstack hstate =>
    refine h.plain hok (fun _ => .inl rfl) (awake_set rfl (.inl (by simp))) (fun d q hq => ?_) rfl
    simp only [Smp.dispatch] at hq
    by_cases hdc : d = c
    · subst hdc
      obtain rfl : k = q := by simpa using hq
      exact .inr hstate
    · rw [update_of_ne hdc] at hq
      exact .inl hq
  | back p pc hstack hpc =>
    by_cases hp : s.pos p = .out
    · have hf := h.away p hp
      rw [hpc] at hf
      exact h.plain hok (moved hp hf) (fun _ => .inl) (fun _ _ => .inl) rfl
    · have hin := h.inside p hp
      rw [hpc] at hin
      have hlive := h.ok.live hstack
      rw [hpc] at hlive
      obtain rfl := Pc.relock_of_inPipe hin.2 hlive.1 hin.1
      exact h.settle hok hp (by rw [hpc]; simp) rfl hin.2 id (fun _ _ => rfl) (fun _ _ => .inl) rfl
        fun nread hw => by simp [Smp.Waits, Smp.setPc] at hw
  | rescan p chan hstack hpc =>
    exact h.plain hok (moved (h.out_of (by rw [hpc]; simp [Pc.InPipe])) trivial) (fun _ => .inl)
      (fun _ _ => .inl) rfl
  | resume p chan l hstack hpc =>
    by_cases hp : s.pos p = .out
    · have hf := h.away p hp
      rw [hpc] at hf
      exact h.plain hok (moved hp fun hl => hf.1 (by rw [hl])) (fun _ => .inl)
        (fun _ _ => .inl) rfl
    · have hin := h.inside p hp
      rw [hpc] at hin
      exact h.settle hok hp (by rw [hpc]; simp) rfl (by simpa [Pc.InPipe] using hin.1) id
        (fun _ _ => rfl) (fun _ _ => .inl) rfl
        fun nread hw => by simp [Smp.Waits, Smp.setPc, Smp.log] at hw
  | yield p hstack hpc hlock =>
    by_cases hp : s.pos p = .out
    · exact h.plain hok (moved hp (h.away p hp)) (awake_set rfl (.inl (by simp)))
        (fun d q hq => stacked (.inr rfl) d q hq) rfl
    · have hin := h.inside p hp
      have hne : s.sys.pc p ≠ .out := fun heq => hp (hthread hstack heq)
      obtain heq := Pc.relock_of_inPipe hin hpc hne
      refine h.settle hok hp hne rfl ⟨hne, hin⟩ id (fun q hq => ?_)
        (fun d q hq => stacked (.inr rfl) d q hq) rfl fun nread hw => ?_
      · simp [Smp.state, Smp.sched, Smp.setPc, Ptable.setState, hq]
      · simp [Smp.Waits, Smp.sched, Smp.setPc] at hw
  | acquire l hidle hfree | release l hidle hheld =>
    apply h.plain hok (fun _ => Or.inl rfl) (fun _ => Or.inl) (stacked (Or.inl rfl))
    exact update_of_ne (fun heq => by simp [Smp.Op.foreign, ← heq] at hforeign) ..
  | sleep p chan l hstack hpc hlock hheld =>
    refine h.plain hok (moved (hthread hstack hpc) ?_) (fun _ => .inl) (fun _ _ => .inl) rfl
    have hf : l ≠ 0 ∧ chan ≠ pipeChan true ∧ chan ≠ pipeChan false := by
      simpa [Smp.Op.foreign] using hforeign
    refine ⟨hf.1, fun nread => ?_⟩
    cases nread
    · exact hf.2.2
    · exact hf.2.1
  | unlock p chan l hstack hpc =>
    by_cases hp : s.pos p = .out
    · have hf := h.away p hp
      rw [hpc] at hf
      exact h.plain hok (moved hp ⟨by simpa using hf.1, hf.2⟩) (fun _ => .inl)
        (stacked (.inl rfl)) (update_of_ne hf.1.symm ..)
    · have hin := h.inside p hp
      rw [hpc] at hin
      obtain ⟨rfl, x, rfl⟩ := hin
      refine h.asleep hok hp (by rw [hpc]; simp) rfl ⟨rfl, x, rfl⟩
        (fun _ _ => rfl) (fun d q hd hq hhas => ?_) (fun nread hw => ?_)
      · -- nobody else can have the lock
        have hd : (s.sys.cpu d).stack = some q := by
          by_cases hdc : d = c <;> simpa [Smp.dropLock, Smp.setPc, hdc] using hd
        by_cases hqp : q = p
        · subst hqp
          simp [Smp.setPc, Pc.HasPipe] at hhas
        · simp only [Smp.setPc, Smp.dropLock, update_of_ne hqp] at hhas
          have hc := h.lock c p hstack hp (by rw [hpc]; trivial)
          rw [h.lock d q hd hq hhas, some.injEq] at hc
          rw [hc, hstack, some.injEq] at hd
          exact absurd hd.symm hqp
      · have hchan : pipeChan x = pipeChan nread := by simpa [Smp.Waits, Smp.setPc] using hw
        exact .inl ⟨0, by rw [hpc, hchan]⟩
  | doze p chan lk hstack hpc =>
    by_cases hp : s.pos p = .out
    · have hf := h.away p hp
      rw [hpc] at hf
      refine h.plain hok (moved hp hf) (fun q hq => ?_) (fun d q hq => stacked (.inr rfl) d q hq)
        rfl
      by_cases hqp : q = p
      · exact .inr (hqp ▸ hp)
      · left
        simpa [Smp.state, Smp.sched, Smp.setPc, Ptable.setState, hqp] using hq
    · have hin := h.inside p hp
      rw [hpc] at hin
      refine h.settle hok hp (by rw [hpc]; simp) rfl hin id (fun q hq => ?_)
        (fun d q hq => stacked (.inr rfl) d q hq) rfl (fun nread hw => ?_)
      · simp [Smp.state, Smp.sched, Smp.setPc, Ptable.setState, hq]
      · have hchan : chan = pipeChan nread := by
          simpa [Smp.Waits, Smp.setPc, Smp.sched, Smp.state, Ptable.setState] using hw
        exact .inr (.inl ⟨lk, by rw [hpc, hchan]⟩)
  | relock p l hstack hpc hfree =>
    by_cases hp : s.pos p = .out
    · have hf := h.away p hp
      rw [hpc] at hf
      exact h.plain hok (moved hp trivial) (fun _ => .inl) (stacked (.inl rfl))
        (update_of_ne (fun heq => hf heq.symm) ..)
    · have hin := h.inside p hp
      rw [hpc] at hin
      obtain rfl : l = 0 := hin
      refine h.asleep hok hp (by rw [hpc]; simp) rfl trivial
        (fun _ _ => rfl) (fun d q hd hq hhas => ?_) (fun nread hw => ?_)
      · have hdq : (s.sys.cpu d).stack = some q := by
          by_cases hdc : d = c <;> simpa [Smp.takeLock, Smp.setPc, Smp.log, hdc] using hd
        by_cases hqp : q = p
        · subst hqp
          simp [Smp.takeLock, Smp.setPc, Smp.log, h.ok.one d c q hdq hstack]
        · simp only [Smp.setPc, Smp.takeLock, Smp.log, update_of_ne hqp] at hhas
          have := h.lock d q hdq hq hhas
          rw [hfree] at this
          simp at this
      · simp [Smp.Waits, Smp.setPc, Smp.log] at hw
  | wakeup chan hidle hlock =>
    exact h.plain hok (fun _ => .inl rfl)
      (fun q => awake_wake (Smp.Ok.state_wakeup1 s.sys.ptable s.sys.chan (some chan) q))
      (fun _ _ => .inl) rfl
  | kill pid hidle hlock =>
    exact h.plain hok (fun _ => .inl rfl)
      (fun q => awake_wake (Smp.Ok.state_kill s.sys.ptable pid q)) (fun _ _ => .inl) rfl
  | full => exact h
  | fork p k t hstack hpc hlock halloc =>
    obtain ⟨-, -, rfl⟩ := Ptable.allocproc_some halloc
    exact h.plain hok (moved (hthread hstack hpc) trivial) (awake_set rfl (.inl (by simp)))
      (fun _ _ => .inl) rfl
  | kalloc p k hstack hpc =>
    exact h.plain hok (moved (h.out_of (by rw [hpc]; exact id)) trivial) (fun _ => .inl)
      (fun _ _ => .inl) rfl
  | noStack p k hstack hpc | noCopy p k hstack hpc =>
    exact h.plain hok (moved (h.out_of (by rw [hpc]; exact id)) trivial)
      (awake_set rfl (.inl (by simp))) (fun _ _ => .inl) rfl
  | copyuvm p k hstack hpc =>
    exact h.plain hok (moved (h.out_of (by rw [hpc]; exact id)) trivial)
      (awake_set rfl (.inr rfl)) (fun _ _ => .inl) rfl
  | ready p k hstack hpc hlock =>
    have hdead : s.sys.pc k = .dead := by
      rw [← h.ok.dead_of_child (p := p) (k := k) (by rw [hpc]; rfl), update_self]
    refine h.plain hok (fun q => ?_) (awake_set rfl (.inl (by simp))) (fun _ _ => .inl) rfl
    simp only [Smp.setPc, Smp.log]
    by_cases hqp : q = p
    · rw [hqp, update_self]
      exact .inr ⟨h.out_of (by rw [hpc]; exact id), trivial⟩
    · rw [update_of_ne hqp]
      exact moved (h.out_of (by rw [hdead]; exact id)) (show Pc.Foreign (.back .out) from trivial) q
  | exit p m' hstack hpc hlock hexit =>
    obtain ⟨t, ht, rfl⟩ := map_eq_some_iff.mp hexit
    refine h.plain hok (moved (hthread hstack hpc) trivial) (fun q hq => ?_)
      (fun d q hq => stacked (.inr rfl) d q hq) rfl
    have hstate := Smp.Ok.state_exit ht q
    by_cases hqp : q = p
    · exact .inr (hqp ▸ hthread hstack hpc)
    · rw [if_neg hqp] at hstate
      exact awake_wake (Smp.Ok.state_wakeAll s.sys (s.sys.exitChans p) q) (hstate ▸ hq)
  | wait p hstack hpc hlock =>
    exact h.plain hok (moved (hthread hstack hpc) trivial) (fun _ => .inl) (fun _ _ => .inl) rfl
  | reap p hstack hpc =>
    have hp : s.pos p = .out := h.out_of (by rw [hpc]; exact id)
    revert hok
    unfold Smp.scanWait
    split
    · intro hok
      exact h.plain hok (moved hp trivial) (awake_set rfl (.inl (by simp))) (fun _ _ => .inl) rfl
    · split
      · intro hok
        exact h.plain hok (moved hp trivial) (fun _ => .inl) (fun _ _ => .inl) rfl
      · intro hok
        refine h.plain hok (moved hp ⟨by simp, fun nread => ?_⟩) (fun _ => .inl)
          (fun _ _ => .inl) rfl
        cases nread <;> simp [pipeChan]

theorem on_cpu (h : Told s) (hp : (s.sys.pc p).HasPipe) : ∃ d, (s.sys.cpu d).stack = some p := by
  apply (h.ok.run p).mp
  have hfits := h.ok.fits p
  revert hfits hp
  cases s.sys.state p
  case running => exact fun _ _ => rfl
  case runnable =>
    rintro hp (⟨-, _, hpc⟩ | ⟨chan, lk, hpc⟩)
    all_goals
      rw [hpc] at hp
      exact hp.elim
  case sleeping =>
    rintro hp ⟨chan, lk, hpc, -⟩
    rw [hpc] at hp
    exact hp.elim
  all_goals
    intro hp hpc
    rw [show s.sys.pc p = _ from hpc] at hp
    exact hp.elim

theorem alone (h : Told s) (hstack : (s.sys.cpu c).stack = some p)
    (hheld : s.sys.holder 0 = none ∨ s.sys.holder 0 = some c) (q : Fin NPROC) (hqp : q ≠ p)
    (hq : s.pos q ≠ .out) : ¬ (s.sys.pc q).HasPipe := fun hhas => by
  obtain ⟨d, hd⟩ := h.on_cpu hhas
  have hlock := h.lock d q hd hq hhas
  rcases hheld with hfree | hheld
  · rw [hfree] at hlock
    simp at hlock
  · rw [hheld, some.injEq] at hlock
    rw [← hlock, hstack, some.injEq] at hd
    exact hqp hd.symm

/-- A process that has the lock, or takes it, does something. -/
theorem act (h : Told s) (hok : Smp.Ok s'.sys) (hpos : s'.pos = update s.pos p a)
    (halone : ∀ q ≠ p, s.pos q ≠ .out → ¬ (s.sys.pc q).HasPipe)
    (hothers : ∀ q ≠ p, s'.sys.pc q = s.sys.pc q)
    (haway : a = .out → (s'.sys.pc p).Foreign) (hinside : a ≠ .out → (s'.sys.pc p).InPipe)
    (hlock : a ≠ .out → (s'.sys.pc p).HasPipe → ∀ d, (s'.sys.cpu d).stack = some p →
      s'.sys.holder 0 = some d)
    (hfound : ∀ nread, a.found = some nread → s'.sys.pc p = .out ∧ s'.pipe.Blocked nread)
    (htold : ∀ q nread, s'.sys.Waits q (pipeChan nread) → s'.pipe.Blocked nread ∨
      s'.sys.pc p = .out ∧ a.owes nread = true) : Told s' := by
  have hself : s'.pos p = a := by rw [hpos, update_self]
  have hsame : ∀ q ≠ p, s'.pos q = s.pos q := fun q hq => by rw [hpos, update_of_ne hq]
  refine ⟨hok, fun q hq => ?_, fun q hq => ?_, fun d q hd hq hhas => ?_, fun q nread hq => ?_,
    fun q nread hq => ?_⟩
  · by_cases hqp : q = p
    · subst hqp
      exact haway (hself ▸ hq)
    · rw [hothers q hqp]
      exact h.away q (hsame q hqp ▸ hq)
  · by_cases hqp : q = p
    · subst hqp
      exact hinside (hself ▸ hq)
    · rw [hothers q hqp]
      exact h.inside q (hsame q hqp ▸ hq)
  · by_cases hqp : q = p
    · subst hqp
      exact hlock (hself ▸ hq) hhas d hd
    · rw [hothers q hqp] at hhas
      exact absurd hhas (halone q hqp (hsame q hqp ▸ hq))
  · by_cases hqp : q = p
    · subst hqp
      exact hfound nread (hself ▸ hq)
    · -- it would have the lock
      rw [hsame q hqp] at hq
      have hne : s.pos q ≠ .out := fun heq => by
        rw [heq] at hq
        simp [PipePc.found] at hq
      exact absurd (by rw [(h.test q nread hq).1]; trivial) (halone q hqp hne)
  · refine (htold q nread hq).imp id fun howes => ⟨p, howes.1, ?_⟩
    rw [hself]
    exact howes.2

/-- What the process that has the lock knows of those who wait. -/
theorem waits_iff (h : Told s) (hthread : s.sys.thread c = some p) (hp : s.pos p ≠ .out)
    (hq : s.sys.Waits q (pipeChan nread)) :
    s.pipe.Blocked nread ∨ (s.pos p).owes nread = true := by
  obtain ⟨hstack, hpc⟩ := Smp.thread_eq_some.mp hthread
  have hheld := h.lock c p hstack hp (by rw [hpc]; trivial)
  apply (h.told q nread hq).imp id
  rintro ⟨r, hr, howes⟩
  by_cases hrp : r = p
  · exact hrp ▸ howes
  · have hne : s.pos r ≠ .out := fun heq => by
      rw [heq] at howes
      simp [PipePc.owes] at howes
    exact absurd (by rw [hr]; trivial) (h.alone hstack (.inr hheld) r hrp hne)

/-- A step of the process that has the lock that does not call anything. -/
theorem think (h : Told s) (hthread : s.sys.thread c = some p) (hpos : s.pos p = b)
    (hb : b ≠ .out) (hsys : s'.sys = s.sys) (hpos' : s'.pos = update s.pos p a)
    (ha : a ≠ .out) (hfound : ∀ nread, a.found = some nread → s'.pipe.Blocked nread)
    (htold : ∀ q nread, s.sys.Waits q (pipeChan nread) → s.pipe.Blocked nread ∨
      b.owes nread = true → s'.pipe.Blocked nread ∨ a.owes nread = true) : Told s' := by
  subst hpos
  obtain ⟨hstack, hpc⟩ := Smp.thread_eq_some.mp hthread
  have hheld := h.lock c p hstack hb (by rw [hpc]; trivial)
  refine h.act (hsys ▸ h.ok) hpos' (h.alone hstack (.inr hheld)) (fun _ _ => by rw [hsys])
    (fun heq => absurd heq ha) (fun _ => ?_) (fun _ hhas d hd => ?_) (fun nread hf => ?_)
    (fun q nread hq => ?_)
  · rw [hsys, hpc]
    trivial
  · rw [hsys] at hd ⊢
    rw [h.ok.one d c p hd hstack, hheld]
  · exact ⟨by rw [hsys, hpc], hfound nread hf⟩
  · rw [hsys] at hq ⊢
    exact (htold q nread hq (h.waits_iff hthread hb hq)).imp id fun howes => ⟨hpc, howes⟩

/-- Nobody waits on a channel any more after a `wakeup` by the process that has the lock. -/
theorem not_waits (h : Told s) (hthread : s.sys.thread c = some p) (hp : s.pos p ≠ .out)
    (hlock : s.sys.lock = none)
    (hpc' : m'.pc = s.sys.pc)
    (htable : m'.ptable = s.sys.ptable.wakeup1 s.sys.chan (some (pipeChan nread)))
    (q : Fin NPROC) : ¬ m'.Waits q (pipeChan nread) := by
  obtain ⟨hstack, hpc⟩ := Smp.thread_eq_some.mp hthread
  have hheld := h.lock c p hstack hp (by rw [hpc]; trivial)
  rintro (⟨l, hq⟩ | ⟨lk, hq⟩ | ⟨⟨lk, hq⟩, hs⟩)
  all_goals rw [hpc'] at hq
  · -- it would have the lock of the pipe
    have hne : q ≠ p := fun heq => by
      rw [heq, hpc] at hq
      simp at hq
    refine h.alone hstack (.inr hheld) q hne (fun hout => ?_) (by rw [hq]; trivial)
    have hf := h.away q hout
    rw [hq] at hf
    exact hf.2 nread rfl
  · -- it would have `ptable.lock`
    have hrun : s.sys.state q = .running := by
      have hfits := h.ok.fits q
      rw [hq] at hfits
      revert hfits
      cases s.sys.state q <;> simp [Smp.Fits]
    obtain ⟨d, hd⟩ := (h.ok.run q).mp hrun
    have := h.ok.unlocked hd hlock
    rw [hq] at this
    simp [Pc.locked] at this
  · -- it would have been woken up
    have hsleep : s.sys.state q = .sleeping := by
      rw [Smp.state, htable] at hs
      rcases Smp.Ok.state_wakeup1 s.sys.ptable s.sys.chan (some (pipeChan nread)) q with heq | hrun
      · rw [heq] at hs
        exact hs
      · exact hrun.1
    have hfits := h.ok.fits q
    rw [hsleep] at hfits
    obtain ⟨ch, lk', hq', hchan⟩ := hfits
    rw [hq] at hq'
    obtain rfl : pipeChan nread = ch := by simpa using And.left (by simpa using hq')
    rw [Smp.state, htable] at hs
    simp [Ptable.wakeup1, hchan, show (s.sys.ptable.proc q).state = _ from hsleep] at hs

/-- The process that has the lock calls `wakeup`. -/
theorem wakes (h : Told s) (hthread : s.sys.thread c = some p) (hpos : s.pos p = b)
    (hp : b ≠ .out) (hstep : Smp.step (c, .wakeup (pipeChan nread)) s.sys = some m')
    (ha : a ≠ .out) (hfound : ∀ x, a.found = some x → s.pipe.Blocked x)
    (htold : ∀ x, x ≠ nread → s.pipe.Blocked x ∨ b.owes x = true →
      s.pipe.Blocked x ∨ a.owes x = true) : Told (({ s with sys := m' }).move p a) := by
  subst hpos
  obtain ⟨hstack, hpc⟩ := Smp.thread_eq_some.mp hthread
  have hheld := h.lock c p hstack hp (by rw [hpc]; trivial)
  have hok := h.ok.does (Smp.does_of_step hstep)
  cases Smp.does_of_step hstep with
  | wakeup _ hidle hlock =>
    refine h.act hok rfl (h.alone hstack (.inr hheld)) (fun _ _ => rfl)
      (fun heq => absurd heq ha) (fun _ => ?_) (fun _ hhas d hd => ?_) (fun x hf => ?_)
      (fun q x hq => ?_)
    · change (s.sys.pc p).InPipe
      rw [hpc]
      trivial
    · rw [h.ok.one d c p hd hstack]
      exact hheld
    · exact ⟨hpc, hfound x hf⟩
    · by_cases hx : x = nread
      · subst hx
        refine absurd hq (h.not_waits hthread hp hlock ?_ ?_ q)
        · rfl
        · rfl
      · refine (htold x hx (h.waits_iff hthread hp (q := q) ?_)).imp id fun howes => ⟨hpc, howes⟩
        refine hq.imp id (Or.imp id fun ⟨hasleep, hs⟩ => ⟨hasleep, ?_⟩)
        exact (awake_wake (s := s) (Smp.Ok.state_wakeup1 s.sys.ptable s.sys.chan _ q) hs).elim id
          fun hout => absurd (h.away q hout) (by
            obtain ⟨lk, hq⟩ := hasleep
            rw [show s.sys.pc q = _ from hq]
            exact fun hf => hf.2 x rfl)

/-- The process that has the lock, and has found nothing to do, calls `sleep`. -/
theorem dozes (h : Told s) (hthread : s.sys.thread c = some p) (hp : (s.pos p).found = some nread)
    (howes : ∀ x, (s.pos p).owes x = false)
    (hstep : Smp.step (c, .sleep (pipeChan nread) 0) s.sys = some m')
    (ha : a ≠ .out) (hfound : a.found = none) : Told (({ s with sys := m' }).move p a) := by
  obtain ⟨hstack, hpc⟩ := Smp.thread_eq_some.mp hthread
  have hne : s.pos p ≠ .out := fun heq => by
    rw [heq] at hp
    simp [PipePc.found] at hp
  have hheld := h.lock c p hstack hne (by rw [hpc]; trivial)
  have hok := h.ok.does (Smp.does_of_step hstep)
  cases Smp.does_of_step hstep with
  | sleep p' _ _ hstack' hpc' hlock hheld' =>
    obtain rfl : p = p' := by simpa [hstack] using hstack'
    have hself : update s.sys.pc p (.sleep (pipeChan nread) 0) p =
        .sleep (pipeChan nread) 0 := update_self ..
    refine h.act hok rfl (h.alone hstack (.inr hheld))
      (fun q hq => update_of_ne hq ..) (fun heq => absurd heq ha) (fun _ => ?_)
      (fun _ hhas d hd => ?_) (fun x hf => ?_) (fun q x hq => .inl ?_)
    · change (update s.sys.pc p (.sleep (pipeChan nread) 0) p).InPipe
      rw [hself]
      exact ⟨rfl, nread, rfl⟩
    · rw [h.ok.one d c p hd hstack]
      exact hheld
    · rw [hfound] at hf
      simp at hf
    · by_cases hqp : q = p
      · subst hqp
        have hchan : pipeChan nread = pipeChan x := by
          simpa [Smp.Waits, move, Smp.setPc, Smp.log] using hq
        obtain rfl : nread = x := by cases nread <;> cases x <;> simp [pipeChan] at hchan ⊢
        exact (h.test q nread hp).2
      · have hq : s.sys.Waits q (pipeChan x) := by
          simpa [Smp.Waits, move, Smp.setPc, Smp.log, Smp.state, hqp] using hq
        exact (h.waits_iff hthread hne hq).resolve_right (by simp [howes x])

theorem call (h : Told s) (hthread : s.sys.thread c = some p) (hout : s.pos p = .out)
    (hstep : Smp.step (c, .acquire 0) s.sys = some s'.sys)
    (hpos : s'.pos = update s.pos p a) (hpipe : s'.pipe = s.pipe) (ha : a ≠ .out)
    (hfound : a.found = none) : Told s' := by
  obtain ⟨hstack, hpc⟩ := Smp.thread_eq_some.mp hthread
  have hok := h.ok.does (Smp.does_of_step hstep)
  have hd := Smp.does_of_step hstep
  generalize hm : s'.sys = m at hd hok
  cases hd with
  | acquire _ hidle hfree =>
    have halone := h.alone hstack (.inl hfree)
    refine h.act (hm ▸ hok) hpos halone (fun q _ => by rw [hm]; rfl) (fun heq => absurd heq ha)
      (fun _ => ?_) (fun _ hhas d hd => ?_) (fun x hf => ?_) (fun q x hq => ?_)
    · rw [hm]
      change (s.sys.pc p).InPipe
      rw [hpc]
      trivial
    · rw [hm] at hd ⊢
      have hd : (s.sys.cpu d).stack = some p := by
        by_cases hdc : d = c <;> simpa [Smp.takeLock, Smp.log, hdc] using hd
      simp [Smp.takeLock, Smp.log, h.ok.one d c p hd hstack]
    · rw [hfound] at hf
      simp at hf
    · rw [hm] at hq
      rw [hpipe]
      apply (h.told q x hq).imp id
      rintro ⟨r, hr, howes⟩
      have hne : s.pos r ≠ .out := fun heq => by
        rw [heq] at howes
        simp [PipePc.owes] at howes
      exact absurd (by rw [hr]; trivial) (halone r (fun heq => hne (heq ▸ hout)) hne)

theorem leave (h : Told s) (hthread : s.sys.thread c = some p) (hp : s.pos p ≠ .out)
    (howes : ∀ x, (s.pos p).owes x = false)
    (hstep : Smp.step (c, .release 0) s.sys = some s'.sys)
    (hpos : s'.pos = update s.pos p .out) (hpipe : s'.pipe = s.pipe) : Told s' := by
  obtain ⟨hstack, hpc⟩ := Smp.thread_eq_some.mp hthread
  have hheld := h.lock c p hstack hp (by rw [hpc]; trivial)
  have hok := h.ok.does (Smp.does_of_step hstep)
  have hd := Smp.does_of_step hstep
  generalize hm : s'.sys = m at hd hok
  cases hd with
  | release _ hidle _ =>
    refine h.act (hm ▸ hok) hpos (h.alone hstack (.inr hheld)) (fun q _ => by rw [hm]; rfl)
      (fun _ => ?_) (fun hne => absurd rfl hne) (fun hne => absurd rfl hne)
      (fun x hf => by simp [PipePc.found] at hf) (fun q x hq => .inl ?_)
    · rw [hm]
      change (s.sys.pc p).Foreign
      rw [hpc]
      trivial
    · rw [hm] at hq
      rw [hpipe]
      exact (h.waits_iff hthread hp hq).resolve_right (by simp [howes x])

/-- Every step keeps this up, if no `pipewrite` gives up while somebody waits for what it wrote. -/
theorem does (h : Told s) (hd : Does s c s')
    (hquit : ∀ p n addr i, s.sys.thread c = some p → s.pos p = .write n addr i → (i : Int) < n →
      s.pipe.full = true → s.pipe.readopen = false ∨ (s.sys.ptable.proc p).killed = true →
      ∀ q, ¬ s.sys.Waits q (pipeChan true)) : Told s' := by
  cases hd with
  | call p m pos ref fd hthread hout hpos hstep =>
    refine h.call hthread hout hstep rfl rfl ?_ ?_
    · rcases hpos with ⟨n, addr, rfl⟩ | ⟨n, rfl⟩ | ⟨w, rfl⟩ <;> simp
    · rcases hpos with ⟨n, addr, rfl⟩ | ⟨n, rfl⟩ | ⟨w, rfl⟩ <;> rfl
  | quit p n addr i hthread hpos hlt hfull hq =>
    refine h.think hthread hpos (by simp) rfl rfl (by simp) (by simp [PipePc.found])
      (fun q nread hw hb => .inl ?_)
    cases nread
    · exact hb.resolve_right (by simp [PipePc.owes])
    · exact absurd hw (hquit p n addr i hthread hpos hlt hfull hq q)
  | fill p n addr i hthread hpos hfull hopen =>
    refine h.think hthread hpos (by simp) rfl rfl (by simp) (fun x hx => ?_) fun _ _ _ => id
    obtain rfl : false = x := by simpa [PipePc.found] using hx
    exact ⟨hfull, hopen⟩
  | store p n addr i hthread hpos hfull =>
    refine h.think hthread hpos (by simp) rfl rfl (by simp) (by simp [PipePc.found])
      (fun q nread hw hb => ?_)
    cases nread
    · exact absurd (hb.resolve_right (by simp [PipePc.owes])).1 (by simp [hfull])
    · exact .inr rfl
  | wrote p n addr i hthread hpos | copied p n i hthread hpos =>
    refine h.think hthread hpos (by simp) rfl rfl (by simp) (by simp [PipePc.found])
      fun q nread hw => Or.imp id fun howes => ?_
    cases nread <;> simp [PipePc.owes] at howes ⊢
  | wakeFull p n addr i m hthread hpos hstep =>
    exact h.wakes hthread hpos (by simp) hstep (by simp)
      (fun x hx => (h.test p x (by rw [hpos]; exact hx)).2)
      fun x hx hb => .inl (hb.resolve_right (by simpa [PipePc.owes] using hx))
  | sleepFull p n addr i m hthread hpos hstep | readSleep p n m hthread hpos hstep =>
    exact h.dozes hthread (by rw [hpos]; rfl) (fun _ => by rw [hpos]; rfl) hstep (by simp) rfl
  | readQuit p n hthread hpos | readFound p n hthread hpos =>
    exact h.think hthread hpos (by simp) rfl rfl (by simp) (by simp [PipePc.found])
      fun q nread hw hb => .inl (hb.resolve_right (by simp [PipePc.owes]))
  | readEmpty p n hthread hpos hempty hopen =>
    refine h.think hthread hpos (by simp) rfl rfl (by simp) (fun x hx => ?_)
      fun q nread hw hb => .inl (hb.resolve_right (by simp [PipePc.owes]))
    obtain rfl : true = x := by simpa [PipePc.found] using hx
    exact ⟨hempty, hopen⟩
  | deliver p n i hthread hpos hempty =>
    refine h.think hthread hpos (by simp) rfl rfl (by simp) (by simp [PipePc.found])
      (fun q nread hw hb => ?_)
    cases nread
    · exact .inr rfl
    · exact absurd (hb.resolve_right (by simp [PipePc.owes])).1 (by simp [hempty])
  | close p w hthread hpos =>
    refine h.think hthread hpos (by simp) rfl rfl (by simp) (by simp [PipePc.found])
      (fun q nread hw hb => ?_)
    replace hb := hb.resolve_right (by simp [PipePc.owes])
    cases w <;> cases nread
    · exact .inr rfl
    · exact .inl hb
    · exact .inl hb
    · exact .inr rfl
  | wake p nread r m hthread hpos hstep =>
    exact h.wakes hthread hpos (by simp) hstep (by simp) (by simp [PipePc.found])
      fun x hx hb => .inl (hb.resolve_right fun howes => hx (beq_iff_eq.mp howes).symm)
  | leave p r m fd ret hthread hpos hstep =>
    exact h.leave hthread (by rw [hpos]; simp) (fun _ => by rw [hpos]; rfl) hstep rfl rfl
  | sys op m hforeign hout hstep => exact h.sys (Smp.does_of_step hstep) hforeign hout

theorem boot (cwd : Option (Fin NINODE)) (data : Fin PIPESIZE → UInt8) : Told (boot cwd data) := by
  have hpc : ∀ p, ((PipeSys.boot cwd data).sys.pc p).Foreign ∧
      ∀ chan, ¬ (PipeSys.boot cwd data).sys.Waits p chan := fun p => by
    by_cases hp : p.val = 0
    · simp [PipeSys.boot, Smp.boot, Smp.Waits, hp, Pc.Foreign]
    · simp [PipeSys.boot, Smp.boot, Smp.Waits, hp, Pc.Foreign]
  exact ⟨Smp.Ok.boot cwd, fun p _ => (hpc p).1, fun _ hp => absurd rfl hp,
    fun _ _ _ hp => absurd rfl hp, fun p x hx => by simp [PipeSys.boot, PipePc.found] at hx,
    fun p x hw => absurd hw ((hpc p).2 _)⟩

end Told

/-- When the process on the CPU is about to return from `pipewrite` because the pipe is full and
nobody reads it any more or the process was killed, nobody waits for bytes. -/
def NobodyLeft (l : Nat × PipeOp) (s : PipeSys) : Prop :=
  ∀ p n addr i, s.sys.thread l.1 = some p → s.pos p = .write n addr i → (i : Int) < n →
    s.pipe.full = true → s.pipe.readopen = false ∨ (s.sys.ptable.proc p).killed = true →
    ∀ q, ¬ s.sys.Waits q (pipeChan true)

/-- In every run in which that is so, whenever the lock is free, a process sleeps on `&p->nread`
only while the pipe is empty and can be written to, and on `&p->nwrite` only while it is full and
can be read. -/
theorem pipe_wakeup_not_missed {cwd : Option (Fin NINODE)} {data : Fin PIPESIZE → UInt8}
    {ls : List (Nat × PipeOp)} {s : PipeSys} (hrun : runFrom step ls (PipeSys.boot cwd data) = some s)
    (hmeet : StepsMeet step NobodyLeft ls (PipeSys.boot cwd data))
    (hfree : s.sys.holder 0 = none) (p : Fin NPROC) (hp : s.sys.state p = .sleeping) :
    (s.sys.chan p = some (pipeChan true) →
      s.pipe.nread = s.pipe.nwrite ∧ s.pipe.writeopen = true) ∧
    (s.sys.chan p = some (pipeChan false) →
      s.pipe.nwrite = s.pipe.nread + BitVec.ofNat 32 PIPESIZE ∧ s.pipe.readopen = true) := by
  have htold : Told s := runFrom_invariant_of
    (fun _ _ _ h hcond hstep => Told.does h (does_of_step hstep) hcond) (Told.boot cwd data) hmeet
    hrun
  obtain ⟨ch, lk, hpc, hchan⟩ : ∃ ch lk, s.sys.pc p = .asleep ch lk ∧ s.sys.chan p = some ch := by
    have hfits := htold.ok.fits p
    rwa [hp] at hfits
  -- nobody owes anything, because nobody has the lock
  have hblocked : ∀ nread, s.sys.chan p = some (pipeChan nread) → s.pipe.Blocked nread := by
    intro nread hx
    obtain rfl : ch = pipeChan nread := by simpa [hchan] using hx
    apply (htold.told p nread (Or.inr (Or.inr ⟨⟨lk, hpc⟩, hp⟩))).resolve_right
    rintro ⟨q, hq, howes⟩
    have hne : s.pos q ≠ .out := fun heq => by
      rw [heq] at howes
      simp [PipePc.owes] at howes
    obtain ⟨d, hd⟩ := htold.on_cpu (p := q) (by rw [hq]; trivial)
    have := htold.lock d q hd hne (by rw [hq]; trivial)
    rw [hfree] at this
    simp at this
  refine ⟨fun hx => ?_, fun hx => ?_⟩
  · exact ⟨by simpa [PipeBuf.empty] using (hblocked true hx).1, (hblocked true hx).2⟩
  · exact ⟨by simpa [PipeBuf.full] using (hblocked false hx).1, (hblocked false hx).2⟩

/-- The first process forks a reader, in slot 1, and a writer, in slot 2; the reader finds the pipe
empty and goes to sleep. -/
def napRun : List (Nat × PipeOp) :=
  [(0, .sys .scan), (0, .sys .look), (0, .sys .resume),
    (0, .sys .fork), (0, .sys (.kalloc true)), (0, .sys (.copyuvm true)), (0, .sys .ready),
    (0, .sys .fork), (0, .sys (.kalloc true)), (0, .sys (.copyuvm true)), (0, .sys .ready),
    (1, .sys .scan), (1, .sys .look), (1, .sys .look), (1, .sys .resume),
    (1, .piperead 1), (1, .go), (1, .go), (1, .sys .unlock), (1, .sys .doze)]

/-- Whether the process on the CPU is not in the loop of `pipewrite`. -/
def noWrite (l : Nat × PipeOp) (s : PipeSys) : Bool :=
  (s.sys.thread l.1).all fun p => match s.pos p with
    | .write .. => false
    | _ => true

theorem nobodyLeft_of_noWrite (l : Nat × PipeOp) (s : PipeSys) (h : noWrite l s = true) :
    NobodyLeft l s := fun p n addr i hp hpos => by
  rw [noWrite, hp] at h
  simp [hpos] at h

theorem nap_on_empty : ∃ s, runFrom step napRun (PipeSys.boot none fun _ => 0) = some s ∧
    s.sys.state ⟨1, by decide⟩ = .sleeping ∧ s.pipe.nread = s.pipe.nwrite := by
  have hrun : (runFrom step napRun (PipeSys.boot none fun _ => 0)).map (fun s =>
      (s.sys.holder 0, s.sys.state ⟨1, by decide⟩, s.sys.chan ⟨1, by decide⟩)) =
      some (none, .sleeping, some (pipeChan true)) := by
    decide +kernel
  obtain ⟨s, hs, heq⟩ := map_eq_some_iff.mp hrun
  simp only [Prod.mk.injEq] at heq
  obtain ⟨hfree, hsleep, hchan⟩ := heq
  have hmeet : StepsMeet step NobodyLeft napRun (PipeSys.boot none fun _ => 0) :=
    StepsMeet.of_meets nobodyLeft_of_noWrite (by decide +kernel)
  exact ⟨s, hs, hsleep, ((pipe_wakeup_not_missed hs hmeet hfree _ hsleep).1 hchan).1⟩

/-- Then the writer fills the pipe; it is killed before it comes to wake up the reader. -/
def lostRun : List (Nat × PipeOp) :=
  napRun ++ [(1, .sys .look), (1, .sys .resume), (1, .pipewrite 513 fun _ => 1),
    (0, .sys (.kill 3))] ++ List.replicate 514 (1, .go)

set_option maxRecDepth 10000 in
theorem reader_not_woken : ∃ s, runFrom step lostRun (PipeSys.boot none fun _ => 0) = some s ∧
    s.sys.holder 0 = none ∧ s.sys.state ⟨1, by decide⟩ = .sleeping ∧
    s.sys.chan ⟨1, by decide⟩ = some (pipeChan true) ∧ s.pipe.nread ≠ s.pipe.nwrite := by
  have hrun : (runFrom step lostRun (PipeSys.boot none fun _ => 0)).map (fun s =>
      (s.sys.holder 0, s.sys.state ⟨1, by decide⟩, s.sys.chan ⟨1, by decide⟩, s.pipe.nread,
        s.pipe.nwrite)) = some (none, .sleeping, some (pipeChan true), 0, 512) := by
    decide +kernel
  obtain ⟨s, hs, heq⟩ := map_eq_some_iff.mp hrun
  simp only [Prod.mk.injEq] at heq
  obtain ⟨hfree, hsleep, hchan, hnread, hnwrite⟩ := heq
  exact ⟨s, hs, hfree, hsleep, hchan, by rw [hnread, hnwrite]; decide⟩

end PipeSys

end Xv6
