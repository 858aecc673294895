import Xv6.Proc.Smp

/-!
# Who runs where

`Smp.Ok` ties together the states of the processes, the stacks that the CPUs are on and the places
where the threads stand. A thread that runs has `ptable.lock` exactly in the places where `proc.c`
expects it to, although another thread may have acquired it.
-/

namespace Xv6

open Function Option

open Lib

/-- A place where a thread that runs or can run may stand. One that was preempted goes on without
`ptable.lock`. -/
def Pc.Live : Pc → Prop
  | .back pc => pc.locked = false ∧ pc ≠ .dead
  | .dead => False
  | _ => True

theorem Pc.live_of_unlocked {pc : Pc} (h : pc.locked = false) (hdead : pc ≠ .dead) : pc.Live := by
  cases pc <;> simp_all [Pc.locked, Pc.Live]

/-- What `allocproc` finds. -/
theorem Ptable.allocproc_some {t u : Ptable} {k : Fin NPROC}
    (h : t.allocproc true = (u, some k)) : t.findUnused = some k ∧ (t.proc k).state = .unused ∧
      u = { t.set k { t.proc k with state := .embryo, pid := t.nextpid } with
        nextpid := t.nextpid + 1 } := by
  unfold Ptable.allocproc at h
  split at h
  · simp at h
  · rename_i j hj
    simp only [if_true, Prod.mk.injEq, some.injEq] at h
    obtain ⟨rfl, rfl⟩ := h
    exact ⟨hj, (Ptable.Numbered.findUnused_eq_some hj).1, rfl⟩

/-- A process that `wait` finds. -/
theorem Ptable.zombie_eq_some {t : Ptable} {q k : Fin NPROC} (h : t.zombie q = some k) :
    (t.proc k).parent = some q ∧ (t.proc k).state = .zombie := by
  have := List.find?_some h
  simpa using this

namespace Smp

variable {m m' : Smp} {c : Nat} {op : Op} {p q k : Fin NPROC}

@[simp] theorem setPc_state (pc : Pc) : (m.setPc p pc).state = m.state := rfl
@[simp] theorem log_state (es : List ProcEvent) : (m.log es).state = m.state := rfl
@[simp] theorem sched_state : (m.sched c p).state = m.state := rfl
@[simp] theorem takeLock_state (l : Nat) : (m.takeLock c l).state = m.state := rfl
@[simp] theorem dropLock_state (l : Nat) : (m.dropLock c l).state = m.state := rfl

theorem state_set {x : Proc} {s : ProcState}
    (h : m'.ptable.proc = update m.ptable.proc k x) (hs : x.state = s := by rfl) :
    m'.state = update m.state k s := by
  funext q
  by_cases hq : q = k
  · subst hq
    simp [state, h, hs]
  · simp [state, h, hq]

theorem state_keep {x : Proc} (h : m'.ptable.proc = update m.ptable.proc k x)
    (hx : x.state = m.state k := by rfl) : m'.state = m.state := by
  rw [state_set h hx, update_eq_self]

/-- The slot of the first process. -/
def first : Fin NPROC := ⟨0, NPROC_pos⟩

theorem findUnused_empty : Ptable.empty.findUnused = some first := by
  unfold Ptable.findUnused NPROC
  rw [List.finRange_succ]
  rfl

theorem userinit_empty (cwd : Option (Fin NINODE)) :
    Ptable.empty.userinit cwd = some (.booted cwd) := by
  simp only [Ptable.booted, Ptable.userinit, Ptable.allocproc, findUnused_empty, if_true,
    getD_some]

theorem booted_eq (cwd : Option (Fin NINODE)) :
    Ptable.booted cwd = { Ptable.empty.set first { Ptable.empty.proc first with
      sz := 4096, pid := 1, cwd := cwd, state := .runnable } with
      nextpid := 2, initproc := some first } := by
  simp only [Ptable.booted, Ptable.userinit, Ptable.allocproc, findUnused_empty, if_true,
    getD_some, Ptable.set, update_self, update_idem]
  rfl

theorem state_boot (cwd : Option (Fin NINODE)) (k : Fin NPROC) :
    (boot cwd).state k = if k.val = 0 then .runnable else .unused := by
  simp only [state, boot, booted_eq, Ptable.set_proc]
  by_cases hk : k = first
  · subst hk
    simp [first]
  · have hk0 : ¬ k.val = 0 := fun h => hk (Fin.ext h)
    rw [update_of_ne hk, if_neg hk0]
    rfl

/-- Where a process in some state can stand. -/
def Fits : ProcState → Pc → Option Chan → Prop
  | .unused, pc, _ | .embryo, pc, _ | .zombie, pc, _ => pc = .dead
  | .runnable, pc, _ => (pc.Live ∧ ∃ pc', pc = .back pc') ∨ ∃ chan lk, pc = .asleep chan lk
  | .sleeping, pc, chan => ∃ ch lk, pc = .asleep ch lk ∧ chan = some ch
  | .running, pc, _ => pc.Live

theorem wakeAll_proc (m : Smp) (chans : List Chan) (q : Fin NPROC) :
    (m.wakeAll chans).proc q =
      if m.state q = .sleeping ∧ ∃ chan ∈ chans, m.chan q = some chan then
        { m.ptable.proc q with state := .runnable }
      else m.ptable.proc q := by
  induction chans using List.reverseRecOn with
  | nil => simp [wakeAll]
  | append_singleton chans ch ih =>
    have hlast : m.wakeAll (chans ++ [ch]) = (m.wakeAll chans).wakeup1 m.chan (some ch) := by
      simp [wakeAll]
    rw [hlast]
    simp only [Ptable.wakeup1, ih]
    by_cases hs : m.state q = .sleeping
    · by_cases hold : ∃ chan ∈ chans, m.chan q = some chan
      · have hnew : ∃ chan ∈ chans ++ [ch], m.chan q = some chan := by
          obtain ⟨x, hx, hq⟩ := hold
          exact ⟨x, List.mem_append_left _ hx, hq⟩
        simp only [hs, hold, hnew, and_self, if_true, reduceCtorEq, false_and, if_false]
      · have hiff : (∃ chan ∈ chans ++ [ch], m.chan q = some chan) ↔ m.chan q = some ch := by
          simp only [List.mem_append, List.mem_singleton]
          refine ⟨?_, fun hq => ⟨ch, .inr rfl, hq⟩⟩
          rintro ⟨x, hx | rfl, hq⟩
          · exact absurd ⟨x, hx, hq⟩ hold
          · exact hq
        have hs' : (m.ptable.proc q).state = .sleeping := hs
        simp only [hs, hold, hiff, and_false, if_false, hs', true_and]
    · have hs' : ¬ (m.ptable.proc q).state = .sleeping := hs
      simp only [hs, false_and, if_false, hs']

/-- How states, stacks, threads and the lock go together. -/
structure Ok (m : Smp) : Prop where
  cpu : ∀ c, (m.cpu c).proc = (m.cpu c).stack ∧ (m.cpu c).cr3 = (m.cpu c).stack
  one : ∀ c d p, (m.cpu c).stack = some p → (m.cpu d).stack = some p → c = d
  run : ∀ p, m.state p = .running ↔ ∃ c, (m.cpu c).stack = some p
  lock : ∀ c p, (m.cpu c).stack = some p → (m.lock = some c ↔ (m.pc p).locked = true)
  fits : ∀ p, Fits (m.state p) (m.pc p) (m.chan p)
  child : ∀ p k, (m.pc p).child = some k → m.state k = .embryo
  forker : ∀ p q k, (m.pc p).child = some k → (m.pc q).child = some k → p = q
  embryo : ∀ k, m.state k = .embryo → ∃ p, (m.pc p).child = some k

namespace Ok

theorem running (h : Ok m) (hstack : (m.cpu c).stack = some p) : m.state p = .running :=
  (h.run p).mpr ⟨c, hstack⟩

/-- A process that is being created has no thread yet. -/
theorem dead_of_child (h : Ok m) (hk : (m.pc p).child = some k) :
    update m.pc k .dead = m.pc := by
  have hf := h.fits k
  rw [h.child p k hk] at hf
  have hdead : m.pc k = .dead := hf
  rw [← hdead, update_eq_self]

/-- Where a thread on a CPU stands. -/
theorem live (h : Ok m) (hstack : (m.cpu c).stack = some p) : (m.pc p).Live := by
  have hf := h.fits p
  rwa [h.running hstack] at hf

/-- What a CPU without `ptable.lock` finds when it is free. -/
theorem unlocked (h : Ok m) (hstack : (m.cpu c).stack = some p) (hlock : m.lock = none) :
    (m.pc p).locked = false := by
  have := h.lock c p hstack
  rw [hlock] at this
  simpa using this

theorem congr (h : Ok m) (hstate : m'.state = m.state) (hpc : m'.pc = m.pc)
    (hchan : m'.chan = m.chan) (hlock : ∀ c p, (m.cpu c).stack = some p →
      (m'.lock = some c ↔ m.lock = some c))
    (hcpu : ∀ c, (m'.cpu c).proc = (m.cpu c).proc ∧ (m'.cpu c).stack = (m.cpu c).stack ∧
      (m'.cpu c).cr3 = (m.cpu c).cr3) : Ok m' := by
  refine ⟨fun c => ?_, fun c d p => ?_, fun p => ?_, fun c p hs => ?_, ?_, ?_, ?_, ?_⟩
  · rw [(hcpu c).1, (hcpu c).2.1, (hcpu c).2.2]
    exact h.cpu c
  · rw [(hcpu c).2.1, (hcpu d).2.1]
    exact h.one c d p
  · simp only [hstate, (hcpu _).2.1]
    exact h.run p
  · rw [(hcpu c).2.1] at hs
    rw [hlock c p hs, hpc]
    exact h.lock c p hs
  all_goals rw [hpc]
  · rw [hstate, hchan]
    exact h.fits
  · rw [hstate]
    exact h.child
  · exact h.forker
  · rw [hstate]
    exact h.embryo

/-- The thread on CPU `c` moves, and takes `ptable.lock` or gives it up as it should. -/
theorem move {pc : Pc} (h : Ok m) (hstack : (m.cpu c).stack = some p)
    (hstate : m'.state = m.state) (hpc : m'.pc = update m.pc p pc)
    (hchan : ∀ q, q ≠ p → m'.chan q = m.chan q)
    (hcpu : ∀ d, (m'.cpu d).proc = (m.cpu d).proc ∧ (m'.cpu d).stack = (m.cpu d).stack ∧
      (m'.cpu d).cr3 = (m.cpu d).cr3)
    (hlock : m'.lock = some c ↔ pc.locked = true)
    (hothers : ∀ d, d ≠ c → (m'.lock = some d ↔ m.lock = some d)) (hlive : pc.Live)
    (hchild : pc.child = (m.pc p).child) : Ok m' := by
  have hself : m'.pc p = pc := by rw [hpc, update_self]
  have hne : ∀ q, q ≠ p → m'.pc q = m.pc q := fun q hq => by rw [hpc, update_of_ne hq]
  have hchilds : ∀ q, (m'.pc q).child = (m.pc q).child := fun q => by
    by_cases hq : q = p
    · rw [hq, hself, hchild]
    · rw [hne q hq]
  refine ⟨fun d => ?_, fun d e q => ?_, fun q => ?_, fun d q hs => ?_, fun q => ?_,
    fun q k => ?_, fun q r k => ?_, fun k hk => ?_⟩
  · rw [(hcpu d).1, (hcpu d).2.1, (hcpu d).2.2]
    exact h.cpu d
  · rw [(hcpu d).2.1, (hcpu e).2.1]
    exact h.one d e q
  · simp only [hstate, (hcpu _).2.1]
    exact h.run q
  · rw [(hcpu d).2.1] at hs
    by_cases hd : d = c
    · subst hd
      obtain rfl := some.inj (hs.symm.trans hstack)
      rw [hlock, hself]
    · have hq : q ≠ p := fun heq => hd (h.one d c p (heq ▸ hs) hstack)
      rw [hothers d hd, hne q hq]
      exact h.lock d q hs
  · rw [hstate]
    by_cases hq : q = p
    · rw [hq, hself, h.running hstack]
      exact hlive
    · rw [hne q hq, hchan q hq]
      exact h.fits q
  · rw [hchilds, hstate]
    exact h.child q k
  · rw [hchilds, hchilds]
    exact h.forker q r k
  · rw [hstate] at hk
    obtain ⟨q, hq⟩ := h.embryo k hk
    exact ⟨q, by rw [hchilds, hq]⟩

/-- The thread on CPU `c` gives the CPU back to the scheduler. -/
theorem leave {s : ProcState} {pc : Pc} (h : Ok m) (hstack : (m.cpu c).stack = some p)
    (hlock : m.lock = none ∨ m.lock = some c)
    (hstate : m'.state = update m.state p s) (hpc : m'.pc = update m.pc p pc)
    (hchan : ∀ q, q ≠ p → m'.chan q = m.chan q) (hlock' : m'.lock = some c)
    (hc : (m'.cpu c).proc = none ∧ (m'.cpu c).stack = none ∧ (m'.cpu c).cr3 = none)
    (hcpu : ∀ d, d ≠ c → m'.cpu d = m.cpu d) (hs : s ≠ .running ∧ s ≠ .embryo)
    (hchild : pc.child = (m.pc p).child) (hfits : Fits s pc (m'.chan p)) : Ok m' := by
  have hrun := h.running hstack
  have hself : m'.pc p = pc := by rw [hpc, update_self]
  have hne : ∀ q, q ≠ p → m'.pc q = m.pc q := fun q hq => by rw [hpc, update_of_ne hq]
  have hsself : m'.state p = s := by rw [hstate, update_self]
  have hsne : ∀ q, q ≠ p → m'.state q = m.state q := fun q hq => by
    rw [hstate, update_of_ne hq]
  have hchilds : ∀ q, (m'.pc q).child = (m.pc q).child := fun q => by
    by_cases hq : q = p
    · rw [hq, hself, hchild]
    · rw [hne q hq]
  have hembryo : ∀ k, m'.state k = .embryo ↔ m.state k = .embryo := fun k => by
    by_cases hk : k = p
    · rw [hk, hsself, hrun]
      simp [hs.2]
    · rw [hsne k hk]
  -- the other stacks are as before, and none of them is that of `p`
  have hstacks : ∀ d q, (m'.cpu d).stack = some q ↔ d ≠ c ∧ (m.cpu d).stack = some q :=
    fun d q => by
      by_cases hd : d = c
      · rw [hd, hc.2.1]
        simp
      · rw [hcpu d hd]
        simp [hd]
  have hother : ∀ {d q}, d ≠ c → (m.cpu d).stack = some q → q ≠ p := fun hd hq heq =>
    hd (h.one _ _ p (heq ▸ hq) hstack)
  refine ⟨fun d => ?_, fun d e q hd he => ?_, fun q => ?_, fun d q hd => ?_, fun q => ?_,
    fun q k => ?_, fun q r k => ?_, fun k hk => ?_⟩
  · by_cases hd : d = c
    · rw [hd, hc.1, hc.2.1, hc.2.2]
      exact ⟨rfl, rfl⟩
    · rw [hcpu d hd]
      exact h.cpu d
  · exact h.one d e q ((hstacks d q).mp hd).2 ((hstacks e q).mp he).2
  · by_cases hq : q = p
    · rw [hq, hsself]
      apply iff_of_false hs.1
      rintro ⟨d, hd⟩
      obtain ⟨hdc, hd⟩ := (hstacks d p).mp hd
      exact hother hdc hd rfl
    · rw [hsne q hq, h.run q]
      refine exists_congr fun d => ?_
      rw [hstacks]
      refine (and_iff_right_of_imp fun hd heq => hq ?_).symm
      subst heq
      exact some.inj (hd.symm.trans hstack)
  · obtain ⟨hdc, hd⟩ := (hstacks d q).mp hd
    have hold := h.lock d q hd
    rw [hlock', hne q (hother hdc hd), ← hold]
    refine iff_of_false (fun heq => hdc (some.inj heq).symm) ?_
    rcases hlock with hl | hl <;> rw [hl]
    · simp
    · exact fun heq => hdc (some.inj heq).symm
  · by_cases hq : q = p
    · rw [hq, hself, hsself]
      exact hfits
    · rw [hne q hq, hsne q hq, hchan q hq]
      exact h.fits q
  · rw [hchilds, hembryo]
    exact h.child q k
  · rw [hchilds, hchilds]
    exact h.forker q r k
  · obtain ⟨q, hq⟩ := h.embryo k ((hembryo k).mp hk)
    exact ⟨q, by rw [hchilds, hq]⟩

/-- The scheduler on CPU `c` switches to a runnable process. -/
theorem dispatch (h : Ok m) (hlock : m.lock = some c) (hstack : (m.cpu c).stack = none)
    (hk : m.state k = .runnable) : Ok (m.dispatch c k) := by
  have hstate : (m.dispatch c k).state = update m.state k .running := by
    funext q
    by_cases hq : q = k
    · subst hq
      simp [Smp.dispatch, Smp.state, Ptable.setState]
    · simp [Smp.dispatch, Smp.state, Ptable.setState, hq]
  have hsne : ∀ q, q ≠ k → (m.dispatch c k).state q = m.state q := fun q hq => by
    rw [hstate, update_of_ne hq]
  have hoff : ∀ d, (m.cpu d).stack ≠ some k := fun d hd => by
    rw [h.running hd] at hk
    simp at hk
  have hstacks : ∀ d q, ((m.dispatch c k).cpu d).stack = some q ↔
      d = c ∧ q = k ∨ d ≠ c ∧ (m.cpu d).stack = some q := fun d q => by
    by_cases hd : d = c
    · subst hd
      simp [Smp.dispatch, eq_comm]
    · simp [Smp.dispatch, hd]
  have hpc : (m.dispatch c k).pc = m.pc := rfl
  have hembryo : ∀ q, (m.dispatch c k).state q = .embryo ↔ m.state q = .embryo := fun q => by
    by_cases hq : q = k
    · rw [hq, hstate, update_self, hk]
      simp
    · rw [hsne q hq]
  have hfits := h.fits k
  rw [hk] at hfits
  refine ⟨fun d => ?_, fun d e q hd he => ?_, fun q => ?_, fun d q hd => ?_, fun q => ?_,
    fun q i => ?_, h.forker, fun i hi => ?_⟩
  · by_cases hd : d = c
    · subst hd
      simp [Smp.dispatch]
    · simpa [Smp.dispatch, hd] using h.cpu d
  · rcases (hstacks d q).mp hd with ⟨hdc, hqk⟩ | ⟨-, hd⟩ <;>
      rcases (hstacks e q).mp he with ⟨hec, hqk'⟩ | ⟨-, he⟩
    · rw [hdc, hec]
    · rw [hqk] at he
      exact absurd he (hoff e)
    · rw [hqk'] at hd
      exact absurd hd (hoff d)
    · exact h.one d e q hd he
  · by_cases hq : q = k
    · rw [hq, hstate, update_self]
      exact iff_of_true rfl ⟨c, (hstacks c k).mpr (.inl ⟨rfl, rfl⟩)⟩
    · rw [hsne q hq, h.run q]
      refine exists_congr fun d => ?_
      rw [hstacks]
      refine ⟨fun hd => .inr ⟨fun heq => ?_, hd⟩, fun hd => ?_⟩
      · rw [heq, hstack] at hd
        simp at hd
      · exact hd.elim (fun hd => absurd hd.2 hq) And.right
  · have hl : (m.dispatch c k).lock = some c := hlock
    rw [hl, hpc]
    rcases (hstacks d q).mp hd with ⟨rfl, rfl⟩ | ⟨hdc, hd⟩
    · apply iff_of_true rfl
      rcases hfits with ⟨-, _, hf⟩ | ⟨_, _, hf⟩ <;> rw [hf] <;> rfl
    · have := h.lock d q hd
      rwa [hlock] at this
  · rw [hpc]
    by_cases hq : q = k
    · rw [hq, hstate, update_self]
      rcases hfits with ⟨hlive, -⟩ | ⟨_, _, hf⟩
      · exact hlive
      · rw [hf]
        trivial
    · rw [hsne q hq]
      exact h.fits q
  · rw [hembryo]
    exact h.child q i
  · exact h.embryo i ((hembryo i).mp hi)

/-- Sleeping processes become runnable, and zombies free slots. -/
theorem restate (h : Ok m) (hstate : ∀ q, m'.state q = m.state q ∨
      m.state q = .sleeping ∧ m'.state q = .runnable ∨ m.state q = .zombie ∧ m'.state q = .unused)
    (hm : m' = { m with
      ptable := m'.ptable, kstack := m'.kstack, pgdir := m'.pgdir, hist := m'.hist }) : Ok m' := by
  have hiff : ∀ q s, s = .running ∨ s = .embryo → (m'.state q = s ↔ m.state q = s) := by
    rintro q s hs
    rcases hstate q with hq | ⟨hq, hq'⟩ | ⟨hq, hq'⟩
    · rw [hq]
    all_goals rcases hs with rfl | rfl <;> simp [hq, hq']
  have hpc : m'.pc = m.pc := by rw [hm]
  have hcpu : m'.cpu = m.cpu := by rw [hm]
  have hlock : m'.lock = m.lock := by rw [hm]
  have hchan : m'.chan = m.chan := by rw [hm]
  refine ⟨hcpu ▸ h.cpu, hcpu ▸ h.one, fun q => ?_, ?_, fun q => ?_, fun q k hk => ?_,
    hpc ▸ h.forker, fun k hk => ?_⟩
  · rw [hiff q .running (.inl rfl), hcpu]
    exact h.run q
  · rw [hcpu, hlock, hpc]
    exact h.lock
  · rw [hpc, hchan]
    have hf := h.fits q
    rcases hstate q with hq | ⟨hq, hq'⟩ | ⟨hq, hq'⟩
    · rwa [hq]
    · rw [hq] at hf
      obtain ⟨ch, lk, hf, -⟩ := hf
      rw [hq', hf]
      exact .inr ⟨ch, lk, rfl⟩
    · rw [hq] at hf
      rw [hq']
      exact hf
  · rw [hpc] at hk
    exact (hiff k .embryo (.inr rfl)).mpr (h.child q k hk)
  · rw [hpc]
    exact h.embryo k ((hiff k .embryo (.inr rfl)).mp hk)

/-- A thread begins to create a process in a free slot. -/
theorem conceive {pc : Pc} (h : Ok m) (hstack : (m.cpu c).stack = some p)
    (hout : (m.pc p).child = none) (hlocked : (m.pc p).locked = pc.locked)
    (hk : m.state k = .unused) (hpc : pc.child = some k) (hlive : pc.Live)
    (hstate : m'.state = update m.state k .embryo)
    (hm : m' = { m with ptable := m'.ptable, pc := update m.pc p pc }) : Ok m' := by
  have hcpu : m'.cpu = m.cpu := by rw [hm]
  have hlock : m'.lock = m.lock := by rw [hm]
  have hchan : m'.chan = m.chan := by rw [hm]
  have hpc' : m'.pc = update m.pc p pc := by rw [hm]
  have hself : m'.pc p = pc := by rw [hpc', update_self]
  have hne : ∀ q, q ≠ p → m'.pc q = m.pc q := fun q hq => by rw [hpc', update_of_ne hq]
  have hsne : ∀ q, q ≠ k → m'.state q = m.state q := fun q hq => by
    rw [hstate, update_of_ne hq]
  have hsself : m'.state k = .embryo := by rw [hstate, update_self]
  have hrun := h.running hstack
  have hpk : p ≠ k := fun heq => by rw [heq, hk] at hrun; simp at hrun
  have hold : ∀ {q i}, (m.pc q).child = some i → q ≠ p ∧ i ≠ k := fun {q i} hq =>
    ⟨fun heq => by rw [heq, hout] at hq; simp at hq,
      fun heq => by have := h.child q i hq; rw [heq, hk] at this; simp at this⟩
  refine ⟨hcpu ▸ h.cpu, hcpu ▸ h.one, fun q => ?_, fun d q hd => ?_, fun q => ?_, fun q i hq => ?_,
    fun q r i hq hr => ?_, fun i hi => ?_⟩
  · rw [hcpu]
    by_cases hq : q = k
    · have := h.run k
      rw [hk] at this
      rw [hq, hsself]
      exact iff_of_false (by simp) fun hd => by simpa using this.mpr hd
    · rw [hsne q hq]
      exact h.run q
  · rw [hcpu] at hd
    rw [hlock]
    by_cases hq : q = p
    · rw [hq, hself, ← hlocked]
      exact h.lock d p (hq ▸ hd)
    · rw [hne q hq]
      exact h.lock d q hd
  · rw [hchan]
    by_cases hq : q = p
    · rw [hq, hself, hsne p hpk, hrun]
      exact hlive
    · rw [hne q hq]
      by_cases hqk : q = k
      · have := h.fits k
        rw [hk] at this
        rw [hqk, hsself]
        exact this
      · rw [hsne q hqk]
        exact h.fits q
  · by_cases hq' : q = p
    · rw [hq', hself, hpc] at hq
      rw [← some.inj hq]
      exact hsself
    · rw [hne q hq'] at hq
      rw [hsne i (hold hq).2]
      exact h.child q i hq
  · by_cases hq' : q = p <;> by_cases hr' : r = p
    · rw [hq', hr']
    · rw [hq', hself, hpc] at hq
      rw [hne r hr'] at hr
      exact absurd (some.inj hq).symm (hold hr).2
    · rw [hr', hself, hpc] at hr
      rw [hne q hq'] at hq
      exact absurd (some.inj hr).symm (hold hq).2
    · rw [hne q hq'] at hq
      rw [hne r hr'] at hr
      exact h.forker q r i hq hr
  · by_cases hik : i = k
    · exact ⟨p, by rw [hself, hpc, hik]⟩
    · rw [hsne i hik] at hi
      obtain ⟨q, hq⟩ := h.embryo i hi
      exact ⟨q, by rw [hne q (hold hq).1, hq]⟩

/-- A thread is done with the process it creates: the slot is free again, or the process can run. -/
theorem deliver {s : ProcState} {pc : Pc} (h : Ok m) (hstack : (m.cpu c).stack = some p)
    (hchild : (m.pc p).child = some k) (hunlocked : (m.pc p).locked = false)
    (hs : s = .unused ∧ pc = .dead ∨ s = .runnable ∧ pc = .back .out)
    (hstate : m'.state = update m.state k s)
    (hpc : m'.pc = update (update m.pc k pc) p .out)
    (hm : m' = { m with
      ptable := m'.ptable, pc := m'.pc, kstack := m'.kstack, hist := m'.hist }) : Ok m' := by
  have hcpu : m'.cpu = m.cpu := by rw [hm]
  have hlock : m'.lock = m.lock := by rw [hm]
  have hchan : m'.chan = m.chan := by rw [hm]
  have hrun := h.running hstack
  have hk := h.child p k hchild
  have hkp : k ≠ p := fun heq => by rw [← heq, hk] at hrun; simp at hrun
  have hself : m'.pc p = .out := by rw [hpc, update_self]
  have hkpc : m'.pc k = pc := by rw [hpc, update_of_ne hkp, update_self]
  have hne : ∀ q, q ≠ p → q ≠ k → m'.pc q = m.pc q := fun q hq hqk => by
    rw [hpc, update_of_ne hq, update_of_ne hqk]
  have hsne : ∀ q, q ≠ k → m'.state q = m.state q := fun q hq => by
    rw [hstate, update_of_ne hq]
  have hsself : m'.state k = s := by rw [hstate, update_self]
  have hnotk : ∀ d q, (m.cpu d).stack = some q → q ≠ k := fun d q hd heq => by
    have := h.running hd
    rw [heq, hk] at this
    simp at this
  have hnone : pc.child = none := by rcases hs with ⟨-, rfl⟩ | ⟨-, rfl⟩ <;> rfl
  have hkdead : m.pc k = .dead := by
    have := h.fits k
    rwa [hk] at this
  -- the threads that create processes are the others
  have hchilds : ∀ q i, (m'.pc q).child = some i ↔ q ≠ p ∧ (m.pc q).child = some i :=
    fun q i => by
      by_cases hq : q = p
      · rw [hq, hself]
        simp [Pc.child, Pc.task]
      · by_cases hqk : q = k
        · rw [hqk, hkpc, hnone, hkdead]
          simp [Pc.child, Pc.task]
        · rw [hne q hq hqk]
          simp [hq]
  have hik : ∀ {q i}, q ≠ p → (m.pc q).child = some i → i ≠ k := fun hq hi heq =>
    hq (h.forker _ _ _ (heq ▸ hi) hchild)
  refine ⟨hcpu ▸ h.cpu, hcpu ▸ h.one, fun q => ?_, fun d q hd => ?_, fun q => ?_, fun q i hq => ?_,
    fun q r i hq hr => ?_, fun i hi => ?_⟩
  · rw [hcpu]
    by_cases hq : q = k
    · rw [hq, hsself]
      apply iff_of_false (by rcases hs with ⟨rfl, -⟩ | ⟨rfl, -⟩ <;> simp)
      rintro ⟨d, hd⟩
      exact hnotk d k hd rfl
    · rw [hsne q hq]
      exact h.run q
  · rw [hcpu] at hd
    rw [hlock]
    have hold := h.lock d q hd
    by_cases hq : q = p
    · rw [hq] at hold
      rw [hq, hself, hold, hunlocked]
      rfl
    · rw [hne q hq (hnotk d q hd)]
      exact hold
  · rw [hchan]
    by_cases hq : q = p
    · rw [hq, hself, hsne p (Ne.symm hkp), hrun]
      trivial
    · by_cases hqk : q = k
      · rw [hqk, hkpc, hsself]
        rcases hs with ⟨rfl, rfl⟩ | ⟨rfl, rfl⟩
        · rfl
        · exact .inl ⟨⟨rfl, by simp⟩, .out, rfl⟩
      · rw [hne q hq hqk, hsne q hqk]
        exact h.fits q
  · obtain ⟨hqp, hq⟩ := (hchilds q i).mp hq
    rw [hsne i (hik hqp hq)]
    exact h.child q i hq
  · exact h.forker q r i ((hchilds q i).mp hq).2 ((hchilds r i).mp hr).2
  · have hne' : i ≠ k := fun heq => by
      rw [heq, hsself] at hi
      rcases hs with ⟨rfl, -⟩ | ⟨rfl, -⟩ <;> simp at hi
    rw [hsne i hne'] at hi
    obtain ⟨q, hq⟩ := h.embryo i hi
    refine ⟨q, (hchilds q i).mpr ⟨fun heq => hne' ?_, hq⟩⟩
    rw [heq, hchild] at hq
    exact (some.inj hq).symm

theorem state_wakeup1 (t : Ptable) (chans : Fin NPROC → Option Chan) (chan : Option Chan)
    (q : Fin NPROC) : ((t.wakeup1 chans chan).proc q).state = (t.proc q).state ∨
      (t.proc q).state = .sleeping ∧ ((t.wakeup1 chans chan).proc q).state = .runnable := by
  simp only [Ptable.wakeup1]
  split
  · rename_i hq
    exact .inr ⟨hq.1, rfl⟩
  · exact .inl rfl

theorem state_kill (t : Ptable) (pid : Int) (q : Fin NPROC) :
    ((t.kill pid).1.proc q).state = (t.proc q).state ∨
      (t.proc q).state = .sleeping ∧ ((t.kill pid).1.proc q).state = .runnable := by
  unfold Ptable.kill
  split
  · exact .inl rfl
  · rename_i k hk
    by_cases hq : q = k
    · subst hq
      by_cases hs : (t.proc q).state = .sleeping
      · exact .inr ⟨hs, by simp [hs]⟩
      · exact .inl (by simp [hs])
    · exact .inl (by simp [hq])

theorem state_wakeAll (m : Smp) (chans : List Chan) (q : Fin NPROC) :
    ((m.wakeAll chans).proc q).state = m.state q ∨
      m.state q = .sleeping ∧ ((m.wakeAll chans).proc q).state = .runnable := by
  rw [wakeAll_proc]
  split
  · rename_i hq
    exact .inr ⟨hq.1, rfl⟩
  · exact .inl rfl

/-- `exit` makes the process a zombie and leaves the other states alone. -/
theorem state_exit {t u : Ptable} (h : t.exit p = some u) (q : Fin NPROC) :
    (u.proc q).state = if q = p then .zombie else (t.proc q).state := by
  unfold Ptable.exit at h
  split at h
  · simp at h
  · cases h
    by_cases hq : q = p
    · subst hq
      simp
    · simp only [Ptable.set_proc, update_of_ne hq, if_neg hq]
      split <;> rfl

theorem exit (h : Ok m) (hstack : (m.cpu c).stack = some p) (hpc : m.pc p = .out)
    (hlock : m.lock = none) (hexit : m.exit c p = some m') : Ok m' := by
  obtain ⟨t, ht, rfl⟩ := map_eq_some_iff.mp hexit
  have hwake : Ok { m with ptable := m.wakeAll (m.exitChans p) } :=
    h.restate (fun q => (state_wakeAll m _ q).imp_right .inl) rfl
  refine hwake.leave hstack (.inl hlock) (funext fun q => ?_) rfl (fun _ _ => rfl) rfl
    (by simp [sched, Smp.log]) (fun d hd => by simp [sched, setPc, Smp.log, hd])
    (s := .zombie) (by simp) (by rw [hpc]; rfl) rfl
  have hq := state_exit ht q
  by_cases hqp : q = p
  · subst hqp
    rw [if_pos rfl] at hq
    rw [update_self]
    exact hq
  · rw [if_neg hqp] at hq
    rw [update_of_ne hqp]
    exact hq

/-- Every step keeps states, stacks and threads together. -/
theorem does (h : Ok m) (hd : Does m c op m') : Ok m' := by
  cases hd with
  | scan hlock hstack =>
    refine h.congr rfl rfl rfl (fun d p hd => ?_) fun d => ?_
    · simp only [hlock, some.injEq, reduceCtorEq, iff_false]
      rintro rfl
      rw [hstack] at hd
      simp at hd
    · by_cases hd : d = c
      · subst hd
        simp
      · simp [hd]
  | skip hlock hstack =>
    refine h.congr rfl rfl rfl (fun _ _ _ => Iff.rfl) fun d => ?_
    by_cases hd : d = c
    · subst hd
      simp
    · simp [hd]
  | done hlock hstack =>
    refine h.congr rfl rfl rfl (fun d p hd => ?_) fun _ => ⟨rfl, rfl, rfl⟩
    simp only [hlock, some.injEq, reduceCtorEq, false_iff]
    rintro rfl
    rw [hstack] at hd
    simp at hd
  | dispatch k hlock hstack hstate => exact h.dispatch hlock hstack hstate
  | back p pc hstack hpc =>
    have hl := (h.lock c p hstack).mpr (by rw [hpc]; rfl)
    have hlive := h.live hstack
    rw [hpc] at hlive
    refine h.move hstack rfl rfl (fun _ _ => rfl) (fun _ => ⟨rfl, rfl, rfl⟩)
      (by simp [setPc, hlive.1]) (fun d hd => ?_) (Pc.live_of_unlocked hlive.1 hlive.2)
      (by rw [hpc]; rfl)
    simp [setPc, hl, Ne.symm hd]
  | rescan p chan hstack hpc =>
    have hl := (h.lock c p hstack).mpr (by rw [hpc]; rfl)
    refine h.move hstack rfl rfl (fun q hq => update_of_ne hq ..)
      (fun _ => ⟨rfl, rfl, rfl⟩) (by simpa [setPc, Smp.log, Pc.locked] using hl)
      (fun _ _ => Iff.rfl) trivial (by rw [hpc]; rfl)
  | resume p chan l hstack hpc =>
    have hl := (h.lock c p hstack).mpr (by rw [hpc]; rfl)
    refine h.move hstack rfl rfl (fun q hq => update_of_ne hq ..)
      (fun _ => ⟨rfl, rfl, rfl⟩) (by simp [setPc, Smp.log, Pc.locked]) (fun d hd => ?_) trivial
      (by rw [hpc]; rfl)
    simp [setPc, Smp.log, hl, Ne.symm hd]
  | yield p hstack hpc hlock =>
    have hdead : m.pc p ≠ .dead := fun heq => by
      have hlive := h.live hstack
      rw [heq] at hlive
      exact hlive
    exact h.leave (s := .runnable) hstack (.inl hlock) (state_set rfl) rfl
      (fun _ _ => rfl) rfl (by simp [sched]) (fun d hd => by simp [sched, setPc, hd]) (by simp) rfl
      (.inl ⟨⟨hpc, hdead⟩, _, rfl⟩)
  | acquire l hidle hfree =>
    refine h.congr rfl rfl rfl (fun _ _ _ => Iff.rfl) fun d => ?_
    by_cases hd : d = c
    · subst hd
      simp [takeLock, Smp.log]
    · simp [takeLock, Smp.log, hd]
  | release l hidle hheld =>
    refine h.congr rfl rfl rfl (fun _ _ _ => Iff.rfl) fun d => ?_
    by_cases hd : d = c
    · subst hd
      simp [dropLock]
    · simp [dropLock, hd]
  | sleep p chan l hstack hpc hlock hheld | wait p hstack hpc hlock =>
    refine h.move hstack rfl rfl (fun _ _ => rfl) (fun _ => ⟨rfl, rfl, rfl⟩)
      (by simp [setPc, Smp.log, Pc.locked]) (fun d hd => ?_) trivial (by rw [hpc]; rfl)
    simp [setPc, Smp.log, hlock, Ne.symm hd]
  | unlock p chan l hstack hpc =>
    have hl := (h.lock c p hstack).mpr (by rw [hpc]; rfl)
    refine h.move hstack rfl rfl (fun _ _ => rfl) (fun d => ?_)
      (by simpa [setPc, dropLock, Pc.locked] using hl) (fun _ _ => Iff.rfl) trivial
      (by rw [hpc]; rfl)
    by_cases hd : d = c
    · subst hd
      simp [setPc, dropLock]
    · simp [setPc, dropLock, hd]
  | doze p chan lk hstack hpc =>
    have hl := (h.lock c p hstack).mpr (by rw [hpc]; rfl)
    refine h.leave (s := .sleeping) hstack (.inr hl) (state_set rfl) rfl
      (fun q hq => update_of_ne hq ..) rfl (by simp [sched])
      (fun d hd => by simp [sched, setPc, hd]) (by simp) (by rw [hpc]; rfl) ⟨chan, lk, rfl, ?_⟩
    simp [sched, setPc]
  | relock p l hstack hpc hfree =>
    have hl : ¬ m.lock = some c := by
      rw [h.lock c p hstack, hpc]
      simp [Pc.locked]
    refine h.move hstack rfl rfl (fun _ _ => rfl) (fun d => ?_)
      (by simpa [setPc, takeLock, Smp.log, Pc.locked] using hl) (fun _ _ => Iff.rfl) trivial
      (by rw [hpc]; rfl)
    by_cases hd : d = c
    · subst hd
      simp [setPc, takeLock, Smp.log]
    · simp [setPc, takeLock, Smp.log, hd]
  | wakeup chan hidle hlock => exact h.restate (fun q => (state_wakeup1 ..).imp_right .inl) rfl
  | kill pid hidle hlock => exact h.restate (fun q => (state_kill ..).imp_right .inl) rfl
  | full => exact h
  | fork p k t hstack hpc hlock halloc =>
    obtain ⟨-, hunused, rfl⟩ := Ptable.allocproc_some halloc
    exact h.conceive hstack (by rw [hpc]; rfl) (by rw [hpc]; rfl) hunused rfl
      (show Pc.Live (.embryo k) from trivial) (state_set rfl) rfl
  | kalloc p k hstack hpc =>
    have hl := h.lock c p hstack
    rw [hpc] at hl
    exact h.move hstack rfl rfl (fun _ _ => rfl) (fun _ => ⟨rfl, rfl, rfl⟩) hl
      (fun _ _ => Iff.rfl) trivial (by rw [hpc]; rfl)
  | noStack p k hstack hpc | noCopy p k hstack hpc =>
    refine h.deliver hstack (by rw [hpc]; rfl) (by rw [hpc]; rfl) (.inl ⟨rfl, rfl⟩) (state_set rfl)
      ?_ rfl
    simp only [setPc, h.dead_of_child (show (m.pc p).child = some k by rw [hpc]; rfl)]
  | copyuvm p k hstack hpc =>
    have hl := h.lock c p hstack
    rw [hpc] at hl
    refine h.move hstack (state_keep rfl) rfl (fun _ _ => rfl) (fun _ => ⟨rfl, rfl, rfl⟩) hl
      (fun _ _ => Iff.rfl) trivial (by rw [hpc]; rfl)
  | ready p k hstack hpc hlock =>
    exact h.deliver hstack (by rw [hpc]; rfl) (by rw [hpc]; rfl) (.inr ⟨rfl, rfl⟩) (state_set rfl)
      rfl rfl
  | exit p m' hstack hpc hlock hexit => exact h.exit hstack hpc hlock hexit
  | reap p hstack hpc =>
    have hl := (h.lock c p hstack).mpr (by rw [hpc]; rfl)
    unfold scanWait
    split
    · rename_i k hk
      obtain ⟨-, hzombie⟩ := Ptable.zombie_eq_some hk
      have hbury : Ok { m with
          ptable := m.ptable.reap k
          kstack := update m.kstack k false
          pgdir := update m.pgdir k false } := by
        refine h.restate (fun q => ?_) rfl
        rw [state_set (m := m) (k := k) rfl]
        by_cases hq : q = k
        · rw [hq, update_self]
          exact .inr (.inr ⟨hzombie, rfl⟩)
        · exact .inl (update_of_ne hq ..)
      refine hbury.move hstack rfl rfl (fun _ _ => rfl) (fun _ => ⟨rfl, rfl, rfl⟩)
        (by simp [setPc, Smp.log, Pc.locked]) (fun d hd => ?_) trivial (by rw [hpc]; rfl)
      simp [setPc, Smp.log, hl, Ne.symm hd]
    · split
      · refine h.move hstack rfl rfl (fun _ _ => rfl) (fun _ => ⟨rfl, rfl, rfl⟩)
          (by simp [setPc, Smp.log, Pc.locked]) (fun d hd => ?_) trivial (by rw [hpc]; rfl)
        simp [setPc, Smp.log, hl, Ne.symm hd]
      · refine h.move hstack rfl rfl (fun _ _ => rfl) (fun _ => ⟨rfl, rfl, rfl⟩)
          (by simpa [setPc, Smp.log, Pc.locked] using hl) (fun _ _ => Iff.rfl) trivial
          (by rw [hpc]; rfl)

theorem boot (cwd : Option (Fin NINODE)) : Ok (boot cwd) := by
  have hstate : ∀ k, (Smp.boot cwd).state k = if k.val = 0 then .runnable else .unused :=
    state_boot cwd
  refine ⟨fun _ => ⟨rfl, rfl⟩, fun _ _ _ h => by simp [Smp.boot] at h, fun p => ?_,
    fun _ _ h => by simp [Smp.boot] at h, fun p => ?_, fun p k hk => ?_, fun p q k hp => ?_,
    fun k hk => ?_⟩
  · rw [hstate]
    refine iff_of_false ?_ (by simp [Smp.boot])
    split <;> simp
  · rw [hstate]
    by_cases hp : p.val = 0
    · rw [if_pos hp]
      exact .inl ⟨by simp [Smp.boot, hp, Pc.Live, Pc.locked], .out, by simp [Smp.boot, hp]⟩
    · rw [if_neg hp]
      simp [Fits, Smp.boot, hp]
  · by_cases hp : p.val = 0 <;> simp [Smp.boot, hp, Pc.child, Pc.task] at hk
  · by_cases hp' : p.val = 0 <;> simp [Smp.boot, hp', Pc.child, Pc.task] at hp
  · rw [hstate] at hk
    by_cases hk' : k.val = 0 <;> simp [hk'] at hk

theorem step {l : Nat × Op} (h : Ok m) (hstep : Smp.step l m = some m') : Ok m' :=
  h.does (does_of_step hstep)

theorem reachable (h : Reachable m) : Ok m := by
  obtain ⟨cwd, ls, hrun⟩ := h
  exact runFrom_invariant (fun _ _ _ => Ok.step) (Ok.boot cwd) hrun

end Ok

/-! ## The scheduler -/

/-- The stack or the page table of slot `k` is freed. -/
def Frees (m m' : Smp) (k : Fin NPROC) : Prop :=
  m.kstack k = true ∧ m'.kstack k = false ∨ m.pgdir k = true ∧ m'.pgdir k = false

/-- Only the stacks of processes that are being created, and the stacks and page tables of zombies,
are freed. -/
theorem Ok.state_of_frees (h : Ok m) (hd : Does m c op m') (hk : Frees m m' k) :
    m.state k = .embryo ∨ m.state k = .zombie := by
  have hupdate : ∀ {f : Fin NPROC → Bool} {j : Fin NPROC} {b : Bool}, f k = true →
      update f j b k = false → k = j := fun {f j b} hf hfj => by
    by_contra hne
    rw [update_of_ne hne, hf] at hfj
    simp at hfj
  cases hd with
  | kalloc p j hstack hpc =>
    simp only [Frees, setPc, Bool.eq_true_and_eq_false_self, or_false] at hk
    obtain rfl := hupdate hk.1 hk.2
    simp at hk
  | copyuvm p j hstack hpc =>
    simp only [Frees, setPc, Bool.eq_true_and_eq_false_self, false_or] at hk
    obtain rfl := hupdate hk.1 hk.2
    simp at hk
  | noCopy p j hstack hpc =>
    simp only [Frees, setPc, Bool.eq_true_and_eq_false_self, or_false] at hk
    obtain rfl := hupdate hk.1 hk.2
    exact .inl (h.child p k (by rw [hpc]; rfl))
  | reap p hstack hpc =>
    unfold scanWait at hk
    split at hk
    · rename_i j hj
      have hkj : k = j := by
        rcases hk with hk | hk
        · exact hupdate hk.1 hk.2
        · exact hupdate hk.1 hk.2
      rw [hkj]
      exact .inr (Ptable.zombie_eq_some hj).2
    · split at hk <;> simp [Frees, setPc, Smp.log] at hk
  | exit p m' hstack hpc hlock hexit =>
    obtain ⟨t, -, rfl⟩ := map_eq_some_iff.mp hexit
    simp [Frees, setPc, Smp.log, sched] at hk
  | _ => simp [Frees, setPc, Smp.log, sched, Smp.dispatch, takeLock, dropLock] at hk

/-- While `ptable.lock` is free, the processes that are `RUNNING` are those that are current, each
on one CPU; and stacks and page tables are freed when no CPU uses them. -/
theorem running_iff_current (h : Reachable m) :
    (m.lock = none → (∀ p, m.state p = .running ↔ ∃! c, (m.cpu c).proc = some p) ∧
      (∀ p c d, (m.cpu c).proc = some p → (m.cpu d).proc = some p → c = d) ∧
      ∀ p c, m.state p = .unused ∨ m.state p = .embryo ∨ m.state p = .zombie →
        (m.cpu c).proc ≠ some p) ∧
    ∀ l m', step l m = some m' → ∀ k, Frees m m' k →
      ∀ c, (m.cpu c).stack ≠ some k ∧ (m.cpu c).cr3 ≠ some k := by
  have hok := Ok.reachable h
  have hone : ∀ p c d, (m.cpu c).proc = some p → (m.cpu d).proc = some p → c = d :=
    fun p c d hc hd => by
      rw [(hok.cpu c).1] at hc
      rw [(hok.cpu d).1] at hd
      exact hok.one c d p hc hd
  have hrun : ∀ p c, (m.cpu c).proc = some p → m.state p = .running := fun p c hc =>
    hok.running ((hok.cpu c).1 ▸ hc)
  refine ⟨fun _ => ⟨fun p => ⟨fun hp => ?_, ?_⟩, hone, fun p c hs hc => ?_⟩,
    fun l m' hstep k hk c => ?_⟩
  · obtain ⟨c, hc⟩ := (hok.run p).mp hp
    rw [← (hok.cpu c).1] at hc
    exact ⟨c, hc, fun d hd => hone p d c hd hc⟩
  · rintro ⟨c, hc, -⟩
    exact hrun p c hc
  · rw [hrun p c hc] at hs
    simp at hs
  · have hs := hok.state_of_frees (does_of_step hstep) hk
    have hoff : (m.cpu c).stack ≠ some k := fun hc => by
      rw [hok.running hc] at hs
      simp at hs
    exact ⟨hoff, (hok.cpu c).2 ▸ hoff⟩

/-- The first process is preempted on CPU 3 in the middle of `fork`, and goes on there on CPU 1. -/
def preemptedRun : List (Nat × Op) :=
  [(3, .scan), (3, .look), (3, .resume), (3, .fork), (3, .yield)] ++
    List.replicate NPROC (3, .look) ++ [(1, .scan), (1, .look), (1, .resume), (1, .kalloc true)]

theorem preempted_is_current : ∃ m, runFrom step preemptedRun (boot none) = some m ∧
    m.lock = none ∧ m.state first = .running ∧ ∃! c, (m.cpu c).proc = some first := by
  have hrun : ((runFrom step preemptedRun (boot none)).map fun m => (m.lock, m.state first)) =
      some (none, .running) := by decide +kernel
  obtain ⟨m, hm, heq⟩ := map_eq_some_iff.mp hrun
  obtain ⟨hlock, hstate⟩ := Prod.mk.inj heq
  exact ⟨m, hm, hlock, hstate,
    (((running_iff_current ⟨none, _, hm⟩).1 hlock).1 first).mp hstate⟩

/-- `ptable.lock` excludes: of all processes on all CPUs at most one runs in a section under it.
And an `EMBRYO` slot belongs to one call of `fork`, whatever the other CPUs do. -/
theorem table_exclusive (h : Reachable m) :
    (∀ c d p q, (m.cpu c).stack = some p → (m.cpu d).stack = some q → (m.pc p).locked = true →
      (m.pc q).locked = true → c = d ∧ p = q) ∧
    ∀ k, m.state k = .embryo → ∃! p, (m.pc p).child = some k := by
  have hok := Ok.reachable h
  refine ⟨fun c d p q hp hq hlp hlq => ?_, fun k hk => ?_⟩
  · have hc := (hok.lock c p hp).mpr hlp
    have hd := (hok.lock d q hq).mpr hlq
    obtain rfl : c = d := some.inj (hc.symm.trans hd)
    exact ⟨rfl, some.inj (hp.symm.trans hq)⟩
  · obtain ⟨p, hp⟩ := hok.embryo k hk
    exact ⟨p, hp, fun q hq => hok.forker q p k hq hp⟩

/-- The first process, on CPU 3, is in the middle of `fork`. -/
theorem table_exclusive_fork : ∃ m, Reachable m ∧ m.state ⟨1, one_lt_NPROC⟩ = .embryo ∧
    ∃! p, (m.pc p).child = some ⟨1, one_lt_NPROC⟩ := by
  have hrun : ((runFrom step [(3, .scan), (3, .look), (3, .resume), (3, .fork)] (boot none)).map
      fun m => m.state ⟨1, one_lt_NPROC⟩) = some .embryo := by decide +kernel
  obtain ⟨m, hm, hstate⟩ := map_eq_some_iff.mp hrun
  have hreach : Reachable m := ⟨none, _, hm⟩
  exact ⟨m, hreach, hstate, (table_exclusive hreach).2 _ hstate⟩

end Smp

end Xv6
