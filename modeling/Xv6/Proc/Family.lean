import Xv6.Proc.Current

/-!
# Parents and children

Every process but the first has a living parent, and the history says who made it. A process that
exits leaves its children to the first process, so that each child is reaped once, by the process
that forked it or by the first process after that.
-/

namespace Xv6

open Function Option

open Lib

/-- What the history has to say before `wait` in process `w` returns `c`: no `wait` has returned
`c`, it has exited, and it was forked by `w`, or by a process that has exited if `w` is the first
process. -/
def Reaped (h : List ProcEvent) (w c : Int) : Prop :=
  (∀ v, .waited v (some c) ∉ h) ∧ .exited c ∈ h ∧
    ∃ f, .forked f c ∈ h ∧ (w = f ∨ w = 1 ∧ .exited f ∈ h)

/-- Events that are not about the life of a process. -/
def ProcEvent.Plain : ProcEvent → Prop
  | .forked .. | .exited _ | .waited _ (some _) => False
  | _ => True

/-- The states are the same, or both are those of living processes. -/
def ProcState.Alike (s s' : ProcState) : Prop := s' = s ∨ s.living = true ∧ s'.living = true

namespace ProcState.Alike

variable {s s' : ProcState}

theorem living (h : s.Alike s') : s'.living = s.living := by
  rcases h with rfl | ⟨h, h'⟩
  · rfl
  · rw [h, h']

theorem eq_iff {t : ProcState} (h : s.Alike s') (ht : t.living = false) : s' = t ↔ s = t := by
  rcases h with rfl | ⟨h, h'⟩
  · rfl
  · refine iff_of_false ?_ ?_
    · rintro rfl
      rw [ht] at h'
      simp at h'
    · rintro rfl
      rw [ht] at h
      simp at h

end ProcState.Alike

namespace Smp

variable {m m' : Smp} {c : Nat} {op : Op} {p q k : Fin NPROC}

/-- Parents, children and what the history says of them. -/
structure Family (m : Smp) : Prop where
  numbered : m.ptable.Numbered
  init : m.ptable.initproc = some first ∧ (m.state first).living = true ∧
    (m.ptable.proc first).pid = 1
  free : ∀ k, m.state k = .unused → (m.ptable.proc k).parent = none
  early : ∀ p k, (m.pc p).task = some (k, false) → (m.ptable.proc k).parent = none
  born : ∀ p k, (m.pc p).task = some (k, true) → (m.ptable.proc k).parent = some p
  tree : ∀ k, m.state k ≠ .unused → m.state k ≠ .embryo → k ≠ first → ∃ q f,
    (m.ptable.proc k).parent = some q ∧ (m.state q).living = true ∧
    .forked f (m.ptable.proc k).pid ∈ m.hist ∧
    ((m.ptable.proc q).pid = f ∨ q = first ∧ .exited f ∈ m.hist)
  exited : ∀ k, m.state k = .zombie → .exited (m.ptable.proc k).pid ∈ m.hist
  forked : ∀ f c, .forked f c ∈ m.hist → c < m.ptable.nextpid ∧
    ∀ k, m.state k = .embryo → (m.ptable.proc k).pid ≠ c
  once : ∀ f f' c, .forked f c ∈ m.hist → .forked f' c ∈ m.hist → f = f'
  waited : ∀ w c, .waited w (some c) ∈ m.hist → c < m.ptable.nextpid ∧
    ∀ k, m.state k ≠ .unused → (m.ptable.proc k).pid ≠ c
  log : ∀ pre w c post, m.hist = pre ++ .waited w (some c) :: post → Reaped pre w c

theorem reaped_append {h es : List ProcEvent}
    (hlog : ∀ pre w c post, h = pre ++ .waited w (some c) :: post → Reaped pre w c)
    (hes : ∀ pre w c post, es = pre ++ .waited w (some c) :: post → Reaped (h ++ pre) w c)
    (pre : List ProcEvent) (w c : Int) (post : List ProcEvent)
    (heq : h ++ es = pre ++ .waited w (some c) :: post) : Reaped pre w c := by
  rcases List.append_eq_append_iff.mp heq with ⟨as, rfl, has⟩ | ⟨bs, rfl, hbs⟩
  · exact hes as w c post has
  · cases bs with
    | nil =>
      simp only [List.append_nil, List.nil_append] at hbs hlog hes ⊢
      exact (List.append_nil pre) ▸ hes [] w c post hbs.symm
    | cons b bs =>
      rw [List.cons_append, List.cons.injEq] at hbs
      obtain ⟨rfl, -⟩ := hbs
      exact hlog pre w c bs rfl

namespace Family

/-- Nobody is born, dies or is reaped. -/
theorem frame {l : List ProcEvent} (h : Family m)
    (hpid : ∀ k, (m'.ptable.proc k).pid = (m.ptable.proc k).pid)
    (hparent : ∀ k, (m'.ptable.proc k).parent = (m.ptable.proc k).parent)
    (hnext : m'.ptable.nextpid = m.ptable.nextpid)
    (hinit : m'.ptable.initproc = m.ptable.initproc)
    (hstate : ∀ k, (m.state k).Alike (m'.state k))
    (hpc : ∀ p x, (m'.pc p).task = some x → (m.pc p).task = some x)
    (hhist : m'.hist = m.hist ++ l) (hes : ∀ e ∈ l, e.Plain) : Family m' := by
  have hold : ∀ e, ¬ e.Plain → (e ∈ m'.hist ↔ e ∈ m.hist) := fun e he => by
    rw [hhist, List.mem_append]
    exact or_iff_left fun hmem => he (hes e hmem)
  have hforked : ∀ f c, .forked f c ∈ m'.hist ↔ .forked f c ∈ m.hist := fun f c =>
    hold _ (by simp [ProcEvent.Plain])
  have hexited : ∀ c, .exited c ∈ m'.hist ↔ .exited c ∈ m.hist := fun c =>
    hold _ (by simp [ProcEvent.Plain])
  have hwaited : ∀ w c, .waited w (some c) ∈ m'.hist ↔ .waited w (some c) ∈ m.hist := fun w c =>
    hold _ (by simp [ProcEvent.Plain])
  have hunused : ∀ k, m'.state k = .unused ↔ m.state k = .unused := fun k =>
    (hstate k).eq_iff rfl
  have hembryo : ∀ k, m'.state k = .embryo ↔ m.state k = .embryo := fun k =>
    (hstate k).eq_iff rfl
  refine ⟨?_, ?_, fun k hk => ?_, fun p k hp => ?_, fun p k hp => ?_, fun k hu he hk => ?_,
    fun k hk => ?_, fun f c hf => ?_, fun f f' c => ?_, fun w c hw => ?_, ?_⟩
  · exact h.numbered.keep hnext fun k => ⟨.inl (hpid k), fun hk => mt (hunused k).mpr hk⟩
  · rw [hinit, hpid, (hstate first).living]
    exact h.init
  · rw [hparent]
    exact h.free k ((hunused k).mp hk)
  · rw [hparent]
    exact h.early p k (hpc p _ hp)
  · rw [hparent]
    exact h.born p k (hpc p _ hp)
  · obtain ⟨q, f, hq, hl, hf, hor⟩ :=
      h.tree k (mt (hunused k).mpr hu) (mt (hembryo k).mpr he) hk
    refine ⟨q, f, by rw [hparent, hq], by rw [(hstate q).living, hl], ?_, ?_⟩
    · rw [hforked, hpid]
      exact hf
    · rw [hpid, hexited]
      exact hor
  · rw [hexited, hpid]
    exact h.exited k (((hstate k).eq_iff rfl).mp hk)
  · rw [hforked] at hf
    rw [hnext]
    refine ⟨(h.forked f c hf).1, fun k hk => ?_⟩
    rw [hpid]
    exact (h.forked f c hf).2 k ((hembryo k).mp hk)
  · rw [hforked, hforked]
    exact h.once f f' c
  · rw [hwaited] at hw
    rw [hnext]
    refine ⟨(h.waited w c hw).1, fun k hk => ?_⟩
    rw [hpid]
    exact (h.waited w c hw).2 k (mt (hunused k).mpr hk)
  · rw [hhist]
    refine reaped_append h.log fun pre w c post heq => ?_
    exact absurd (hes (.waited w (some c)) (by rw [heq]; simp)) (by simp [ProcEvent.Plain])

/-- Threads move, but none of them begins to create a process, and the table changes at most in
living states. -/
theorem move {l : List ProcEvent} (h : Family m)
    (htable : ∀ k, ∃ s b, m'.ptable.proc k =
      { m.ptable.proc k with state := s, killed := b } ∧ (m.state k).Alike s)
    (hnext : m'.ptable.nextpid = m.ptable.nextpid)
    (hinit : m'.ptable.initproc = m.ptable.initproc)
    (hpc : ∀ p x, (m'.pc p).task = some x → (m.pc p).task = some x)
    (hhist : m'.hist = m.hist ++ l) (hes : ∀ e ∈ l, e.Plain) : Family m' := by
  refine h.frame (fun k => ?_) (fun k => ?_) hnext hinit (fun k => ?_) hpc hhist hes
  · obtain ⟨s, b, hk, -⟩ := htable k
    rw [hk]
  · obtain ⟨s, b, hk, -⟩ := htable k
    rw [hk]
  · obtain ⟨s, b, hk, hs⟩ := htable k
    simp only [state, hk]
    exact hs

theorem still {l : List ProcEvent} (h : Family m) (htable : m'.ptable = m.ptable)
    (hpc : ∀ p x, (m'.pc p).task = some x → (m.pc p).task = some x)
    (hhist : m'.hist = m.hist ++ l) (hes : ∀ e ∈ l, e.Plain) : Family m' :=
  h.move (fun k => ⟨m.state k, (m.ptable.proc k).killed, by rw [htable]; rfl, .inl rfl⟩)
    (by rw [htable]) (by rw [htable]) hpc hhist hes

theorem setState {s : ProcState} (h : Family m) (hs : (m.state p).Alike s)
    (htable : m'.ptable = m.ptable.setState p s)
    (hpc : ∀ p x, (m'.pc p).task = some x → (m.pc p).task = some x) (hhist : m'.hist = m.hist) :
    Family m' := by
  refine h.move (l := []) (fun k => ?_) (by rw [htable]; rfl) (by rw [htable]; rfl) hpc
    (by rw [hhist, List.append_nil]) (by simp)
  rw [htable]
  by_cases hk : k = p
  · subst hk
    exact ⟨s, (m.ptable.proc k).killed, by simp [Ptable.setState], hs⟩
  · exact ⟨m.state k, (m.ptable.proc k).killed, by simp [Ptable.setState, hk, state], .inl rfl⟩

theorem update_pc {pc : Pc} (hpc : m'.pc = update m.pc p pc)
    (htask : pc.task = none ∨ pc.task = (m.pc p).task) (q : Fin NPROC) (x : Fin NPROC × Bool)
    (hx : (m'.pc q).task = some x) : (m.pc q).task = some x := by
  rw [hpc] at hx
  by_cases hq : q = p
  · rw [hq, update_self] at hx
    rw [hq, ← hx]
    refine (htask.resolve_left fun hnone => ?_).symm
    rw [hnone] at hx
    simp at hx
  · rwa [update_of_ne hq] at hx

theorem wakeAll_alike (m : Smp) (chans : List Chan) (k : Fin NPROC) : ∃ s b,
    (m.wakeAll chans).proc k = { m.ptable.proc k with state := s, killed := b } ∧
      (m.state k).Alike s := by
  rw [wakeAll_proc]
  split
  · rename_i hk
    exact ⟨.runnable, _, rfl, .inr ⟨by rw [hk.1]; rfl, rfl⟩⟩
  · exact ⟨m.state k, _, rfl, .inl rfl⟩

theorem kill_alike (m : Smp) (pid : Int) (k : Fin NPROC) : ∃ s b,
    (m.ptable.kill pid).1.proc k = { m.ptable.proc k with state := s, killed := b } ∧
      (m.state k).Alike s := by
  unfold Ptable.kill
  split
  · exact ⟨m.state k, _, rfl, .inl rfl⟩
  · rename_i j hj
    by_cases hk : k = j
    · subst hk
      refine ⟨_, true, by rw [Ptable.set_proc, update_self], ?_⟩
      by_cases hs : (m.ptable.proc k).state = .sleeping
      · rw [if_pos hs]
        exact .inr ⟨by rw [state, hs]; rfl, rfl⟩
      · rw [if_neg hs]
        exact .inl rfl
    · exact ⟨m.state k, _, by rw [Ptable.set_proc, update_of_ne hk]; rfl, .inl rfl⟩

/-- A slot that holds no process yet, and that has no parent, goes between `UNUSED` and
`EMBRYO`; an embryo gets a process number not used before. -/
theorem slot (h : Family m) (hk : m.state k = .unused ∨ m.state k = .embryo)
    (hk' : m'.state k = .unused ∨ m'.state k = .embryo) (hnone : (m.ptable.proc k).parent = none)
    (hnumbered : m'.ptable.Numbered) (hinit : m'.ptable.initproc = m.ptable.initproc)
    (hnext : m.ptable.nextpid ≤ m'.ptable.nextpid)
    (hne : ∀ j ≠ k, m'.ptable.proc j = m.ptable.proc j)
    (hnone' : (m'.ptable.proc k).parent = none)
    (hpid : m'.state k = .embryo → m.ptable.nextpid ≤ (m'.ptable.proc k).pid)
    (hpc : ∀ q x, (m'.pc q).task = some x → (m.pc q).task = some x ∨ x = (k, false))
    (hhist : m'.hist = m.hist) : Family m' := by
  have hsame : ∀ {j}, j ≠ k → m'.state j = m.state j := fun {j} hj => by
    simp only [state, hne j hj]
  have hliving : ∀ {j}, (m.state j).living = true → j ≠ k := fun hj heq => by
    subst heq
    rcases hk with hs | hs <;> rw [hs] at hj <;> simp [ProcState.living] at hj
  have hparent : ∀ j, (m'.ptable.proc j).parent = (m.ptable.proc j).parent := fun j => by
    by_cases hj : j = k
    · rw [hj, hnone, hnone']
    · rw [hne j hj]
  -- a process number given out before is not the one slot `k` has now
  have hold : ∀ {c j}, c < m.ptable.nextpid → m'.state j ≠ .unused →
      (j ≠ k → (m.ptable.proc j).pid ≠ c) → (m'.ptable.proc j).pid ≠ c := fun {c j} hc hu hj => by
    by_cases hjk : j = k
    · subst hjk
      have := hpid (hk'.resolve_left hu)
      omega
    · rw [hne j hjk]
      exact hj hjk
  refine ⟨hnumbered, ?_, fun j hj => ?_, fun q j hq => ?_, fun q j hq => ?_, fun j hu he hj => ?_,
    fun j hj => ?_, fun f c hf => ?_, hhist ▸ h.once, fun w c hw => ?_, hhist ▸ h.log⟩
  · have hf := hliving h.init.2.1
    rw [hne _ hf, hsame hf, hinit]
    exact h.init
  · by_cases hjk : j = k
    · exact hjk ▸ hnone'
    · rw [hparent]
      exact h.free j (hsame hjk ▸ hj)
  · rw [hparent]
    rcases hpc q _ hq with hq | heq
    · exact h.early q j hq
    · rw [(Prod.mk.inj heq).1, hnone]
  · rw [hparent]
    exact h.born q j ((hpc q _ hq).resolve_right (by simp))
  · have hjk : j ≠ k := fun heq => by
      subst heq
      exact hk'.elim hu he
    obtain ⟨q, f, hq, hl, hf, hor⟩ := h.tree j (hsame hjk ▸ hu) (hsame hjk ▸ he) hj
    have hqk := hliving hl
    rw [hne j hjk, hhist]
    exact ⟨q, f, hq, by rw [hsame hqk]; exact hl, hf, by rw [hne q hqk]; exact hor⟩
  · have hjk : j ≠ k := fun heq => by
      subst heq
      rcases hk' with hs | hs <;> rw [hs] at hj <;> simp at hj
    rw [hne j hjk, hhist]
    exact h.exited j (hsame hjk ▸ hj)
  · rw [hhist] at hf
    obtain ⟨hc, hno⟩ := h.forked f c hf
    exact ⟨hc.trans_le hnext, fun j hj => hold hc (by rw [hj]; simp) fun hjk =>
      hno j (hsame hjk ▸ hj)⟩
  · rw [hhist] at hw
    obtain ⟨hc, hno⟩ := h.waited w c hw
    exact ⟨hc.trans_le hnext, fun j hj => hold hc hj fun hjk => hno j (hsame hjk ▸ hj)⟩

/-- `allocproc` takes a slot for the new process. -/
theorem conceive (h : Family m) (hk : m.ptable.findUnused = some k)
    (htable : m'.ptable = { m.ptable.set k { m.ptable.proc k with
      state := .embryo, pid := m.ptable.nextpid } with nextpid := m.ptable.nextpid + 1 })
    (hpc : m'.pc = update m.pc p (.embryo k)) (hhist : m'.hist = m.hist) : Family m' := by
  have hunused : m.state k = .unused := (Ptable.Numbered.findUnused_eq_some hk).1
  have hself : m'.ptable.proc k = { m.ptable.proc k with
      state := .embryo, pid := m.ptable.nextpid } := by
    rw [htable]
    simp
  have hnone := h.free k hunused
  refine h.slot (.inl hunused) (.inr (by rw [state, hself])) hnone ?_ (by rw [htable]; rfl)
    (by rw [htable]; exact Int.le.intro 1 rfl) (fun j hj => by rw [htable]; simp [hj])
    (by rw [hself]; exact hnone) (fun _ => by rw [hself]) (fun q x hx => ?_) hhist
  · rw [htable]
    exact h.numbered.fill hk rfl
  · rw [hpc] at hx
    by_cases hq : q = p
    · rw [hq, update_self] at hx
      exact .inr (some.inj hx).symm
    · rw [update_of_ne hq] at hx
      exact .inl hx

/-- `fork` gives the slot back when a page is missing. -/
theorem drop (h : Family m) (hok : Ok m) (htask : (m.pc p).task = some (k, false))
    (htable : m'.ptable = m.ptable.setState k .unused)
    (hpc : m'.pc = update m.pc p .out) (hhist : m'.hist = m.hist) : Family m' := by
  have hembryo : m.state k = .embryo := hok.child p k (by rw [Pc.child, htask]; rfl)
  have hself : m'.ptable.proc k = { m.ptable.proc k with state := .unused } := by
    rw [htable]
    simp [Ptable.setState]
  have hne : ∀ j ≠ k, m'.ptable.proc j = m.ptable.proc j := fun j hj => by
    rw [htable]
    simp [Ptable.setState, hj]
  have hunused : m'.state k = .unused := by rw [state, hself]
  have hnone := h.early p k htask
  refine h.slot (.inr hembryo) (.inl hunused) hnone ?_ (by rw [htable]; rfl)
    (by rw [htable]; exact le_rfl) hne (by rw [hself]; exact hnone)
    (fun he => by rw [hunused] at he; simp at he)
    (fun q x hx => .inl (update_pc hpc (.inl rfl) q x hx)) hhist
  · refine h.numbered.keep (by rw [htable]; rfl) fun j => ?_
    by_cases hj : j = k
    · rw [hj, hself]
      exact ⟨.inl rfl, fun hs => absurd rfl hs⟩
    · rw [hne j hj]
      exact ⟨.inl rfl, id⟩

/-- `fork` makes the embryo a child of the process. -/
theorem adopt (h : Family m) (hok : Ok m) (hp : m.pc p = .copy k)
    (htable : m'.ptable = m.ptable.set k (m.ptable.inherit p k))
    (hpc : m'.pc = update m.pc p (.born k)) (hhist : m'.hist = m.hist) : Family m' := by
  have hembryo : m.state k = .embryo := hok.child p k (by rw [hp]; rfl)
  have hself : m'.ptable.proc k = m.ptable.inherit p k := by
    rw [htable]
    simp
  have hne : ∀ j ≠ k, m'.ptable.proc j = m.ptable.proc j := fun j hj => by
    rw [htable]
    simp [hj]
  have hpid : ∀ j, (m'.ptable.proc j).pid = (m.ptable.proc j).pid := fun j => by
    by_cases hj : j = k
    · rw [hj, hself]
      rfl
    · rw [hne j hj]
  have hstate : ∀ j, m'.state j = m.state j := fun j => by
    by_cases hj : j = k
    · rw [hj, state, hself]
      rfl
    · rw [state, hne j hj]
      rfl
  -- another process that is in `fork` has another child
  have hother : ∀ {q j b}, q ≠ p → (m.pc q).task = some (j, b) → j ≠ k := fun hq hj heq =>
    hq (hok.forker _ _ k (by rw [Pc.child, hj, ← heq]; rfl) (by rw [hp]; rfl))
  refine ⟨?_, ?_, fun j hj => ?_, fun q j hq => ?_, fun q j hq => ?_, fun j hu he hj => ?_,
    fun j hj => ?_, fun f c hf => ?_, hhist ▸ h.once, fun w c hw => ?_, hhist ▸ h.log⟩
  · refine h.numbered.keep (by rw [htable]; rfl) fun j => ⟨.inl (hpid j), fun hj => ?_⟩
    have := hstate j
    simp only [state] at this
    rwa [← this]
  · rw [hstate, hpid, htable]
    exact h.init
  · rw [hstate] at hj
    rw [hne j fun heq => by rw [heq, hembryo] at hj; simp at hj]
    exact h.free j hj
  · rw [hpc] at hq
    by_cases hqp : q = p
    · simp [hqp, Pc.task] at hq
    · rw [update_of_ne hqp] at hq
      rw [hne j (hother hqp hq)]
      exact h.early q j hq
  · rw [hpc] at hq
    by_cases hqp : q = p
    · rw [hqp, update_self] at hq
      obtain rfl : k = j := by simpa [Pc.task] using hq
      rw [hself, hqp]
      rfl
    · rw [update_of_ne hqp] at hq
      rw [hne j (hother hqp hq)]
      exact h.born q j hq
  · rw [hstate] at hu he
    rw [hne j fun heq => he (heq ▸ hembryo), hhist]
    obtain ⟨q, f, hq, hl, hf, hor⟩ := h.tree j hu he hj
    exact ⟨q, f, hq, by rw [hstate]; exact hl, hf, by rw [hpid]; exact hor⟩
  · rw [hstate] at hj
    rw [hpid, hhist]
    exact h.exited j hj
  · rw [hhist] at hf
    refine ⟨by rw [htable]; exact (h.forked f c hf).1, fun j hj => ?_⟩
    rw [hpid]
    exact (h.forked f c hf).2 j (hstate j ▸ hj)
  · rw [hhist] at hw
    refine ⟨by rw [htable]; exact (h.waited w c hw).1, fun j hj => ?_⟩
    rw [hpid]
    exact (h.waited w c hw).2 j (hstate j ▸ hj)

/-- `fork` ends: the embryo is a process. -/
theorem deliver (h : Family m) (hok : Ok m) (hp : m.pc p = .born k)
    (hliving : (m.state p).living = true)
    (htable : m'.ptable = m.ptable.setState k .runnable)
    (hpc : ∀ q x, (m'.pc q).task = some x → (m.pc q).task = some x)
    (hhist : m'.hist = m.hist ++ [.forked (m.ptable.proc p).pid (m.ptable.proc k).pid]) :
    Family m' := by
  have hembryo : m.state k = .embryo := hok.child p k (by rw [hp]; rfl)
  have hpid : ∀ j, (m'.ptable.proc j).pid = (m.ptable.proc j).pid := fun j => by
    rw [htable]
    by_cases hj : j = k <;> simp [Ptable.setState, hj]
  have hparent : ∀ j, (m'.ptable.proc j).parent = (m.ptable.proc j).parent := fun j => by
    rw [htable]
    by_cases hj : j = k <;> simp [Ptable.setState, hj]
  have hself : m'.state k = .runnable := by simp [state, htable, Ptable.setState]
  have hne : ∀ j ≠ k, m'.state j = m.state j := fun j hj => by
    simp [state, htable, Ptable.setState, hj]
  have hnot : ∀ {j s}, m'.state j = s → s ≠ .runnable → m.state j = s := fun {j s} hj hs => by
    rw [← hne j fun heq => hs (by rw [← hj, heq, hself]), hj]
  have hlives : ∀ {j}, (m.state j).living = true → (m'.state j).living = true := fun {j} hj => by
    by_cases hjk : j = k
    · rw [hjk, hself]
      rfl
    · rwa [hne j hjk]
  have hunused : ∀ {j}, m'.state j ≠ .unused → m.state j ≠ .unused := fun {j} hj heq => by
    by_cases hjk : j = k
    · rw [hjk, hembryo] at heq
      simp at heq
    · exact hj (by rw [hne j hjk, heq])
  have hmem : ∀ {e}, e ∈ m.hist → e ∈ m'.hist := fun he => by
    rw [hhist]
    exact List.mem_append_left _ he
  have hmem_iff : ∀ {e}, e ∈ m'.hist ↔
      e ∈ m.hist ∨ e = .forked (m.ptable.proc p).pid (m.ptable.proc k).pid := by simp [hhist]
  refine ⟨?_, ?_, fun j hj => ?_, fun q j hq => ?_, fun q j hq => ?_, fun j hu he hj => ?_,
    fun j hj => ?_, fun f c hf => ?_, fun f f' c hf hf' => ?_, fun w c hw => ?_, ?_⟩
  · exact h.numbered.keep (by rw [htable]; rfl) fun j => ⟨.inl (hpid j), fun hj => hunused hj⟩
  · rw [hpid, htable]
    exact ⟨h.init.1, hlives h.init.2.1, h.init.2.2⟩
  · rw [hparent]
    exact h.free j (hnot hj (by simp))
  · rw [hparent]
    exact h.early q j (hpc q _ hq)
  · rw [hparent]
    exact h.born q j (hpc q _ hq)
  · rw [hparent, hpid]
    by_cases hjk : j = k
    · subst hjk
      exact ⟨p, _, h.born p j (by rw [hp]; rfl), hlives hliving, by rw [hhist]; simp, .inl (hpid p)⟩
    · obtain ⟨q, f, hq, hl, hf, hor⟩ := h.tree j (hunused hu) (hne j hjk ▸ he) hj
      exact ⟨q, f, hq, hlives hl, hmem hf, hor.imp (by rw [hpid]; exact id) fun h => ⟨h.1, hmem h.2⟩⟩
  · rw [hpid]
    exact hmem (h.exited j (hnot hj (by simp)))
  · rw [hmem_iff] at hf
    refine ⟨?_, fun j hj => ?_⟩
    · rw [htable]
      rcases hf with hf | hf
      · exact (h.forked f c hf).1
      · obtain ⟨-, rfl⟩ : _ ∧ c = _ := by simpa using hf
        exact (h.numbered.inUse k (by rw [← state, hembryo]; simp)).2
    · rw [hpid]
      rcases hf with hf | hf
      · exact (h.forked f c hf).2 j (hnot hj (by simp))
      · obtain ⟨-, rfl⟩ : _ ∧ c = _ := by simpa using hf
        intro heq
        have hjk : j = k := h.numbered.distinct j k (by rw [← state, hnot hj (by simp)]; simp)
          (by rw [← state, hembryo]; simp) heq
        rw [hjk, hself] at hj
        simp at hj
  · rw [hmem_iff] at hf hf'
    have hnew : ∀ {g}, .forked g (m.ptable.proc k).pid ∉ m.hist := fun hg =>
      (h.forked _ _ hg).2 k hembryo rfl
    rcases hf with hf | hf <;> rcases hf' with hf' | hf'
    · exact h.once f f' c hf hf'
    · obtain ⟨-, rfl⟩ : _ ∧ c = _ := by simpa using hf'
      exact absurd hf hnew
    · obtain ⟨-, rfl⟩ : _ ∧ c = _ := by simpa using hf
      exact absurd hf' hnew
    · simp only [ProcEvent.forked.injEq] at hf hf'
      rw [hf.1, hf'.1]
  · have hw : .waited w (some c) ∈ m.hist := by simpa using hmem_iff.mp hw
    refine ⟨by rw [htable]; exact (h.waited w c hw).1, fun j hj => ?_⟩
    rw [hpid]
    exact (h.waited w c hw).2 j (hunused hj)
  · rw [hhist]
    refine reaped_append h.log fun pre w c post heq => ?_
    have : .waited w (some c) ∈ [ProcEvent.forked (m.ptable.proc p).pid (m.ptable.proc k).pid] := by
      rw [heq]
      simp
    simp at this

/-- `exit` leaves the children to the first process. -/
theorem exit_proc {t u : Ptable} (hexit : t.exit p = some u) :
    t.initproc ≠ some p ∧ u.initproc = t.initproc ∧ u.nextpid = t.nextpid ∧
      (∀ j, (u.proc j).pid = (t.proc j).pid) ∧
      ∀ j, (u.proc j).parent =
        if (t.proc j).parent = some p then t.initproc else (t.proc j).parent := by
  unfold Ptable.exit at hexit
  split at hexit
  · simp at hexit
  · rename_i hinit
    cases hexit
    refine ⟨hinit, rfl, rfl, fun j => ?_, fun j => ?_⟩
    · by_cases hj : j = p
      · subst hj
        simp only [Ptable.set_proc, update_self]
        split <;> rfl
      · simp only [Ptable.set_proc, update_of_ne hj]
        split <;> rfl
    · by_cases hj : j = p
      · subst hj
        simp only [Ptable.set_proc, update_self]
        split <;> rfl
      · simp only [Ptable.set_proc, update_of_ne hj]
        split <;> rfl

/-- A process exits. -/
theorem leave {es : List ProcEvent} (h : Family m)
    (hliving : (m.state p).living = true) (hexit : m.ptable.exit p = some m'.ptable)
    (hpc : m'.pc = update m.pc p .dead) (hhist : m'.hist = m.hist ++ es)
    (hes : ∀ e ∈ es, e.Plain ∨ e = .exited (m.ptable.proc p).pid)
    (hmem : .exited (m.ptable.proc p).pid ∈ es) : Family m' := by
  obtain ⟨hinit, hinit', hnext, hpid, hparent⟩ := exit_proc hexit
  rw [h.init.1] at hinit hparent
  have hfirst : first ≠ p := fun heq => hinit (by rw [heq])
  have hself : m'.state p = .zombie := by
    have := Ok.state_exit hexit p
    rwa [if_pos rfl] at this
  have hne : ∀ j ≠ p, m'.state j = m.state j := fun j hj => by
    have := Ok.state_exit hexit j
    rwa [if_neg hj] at this
  have hnot : ∀ {j s}, m'.state j = s → s ≠ .zombie → m.state j = s := fun {j s} hj hs => by
    rw [← hne j fun heq => hs (by rw [← hj, heq, hself]), hj]
  have hunused : ∀ {j}, m'.state j ≠ .unused → m.state j ≠ .unused := fun {j} hj heq => by
    by_cases hjp : j = p
    · rw [← hjp, heq] at hliving
      simp [ProcState.living] at hliving
    · exact hj (by rw [hne j hjp, heq])
  have hold : ∀ {e}, e ∈ m.hist → e ∈ m'.hist := fun he => by
    rw [hhist]
    exact List.mem_append_left _ he
  have hlast : .exited (m.ptable.proc p).pid ∈ m'.hist := by
    rw [hhist]
    exact List.mem_append_right _ hmem
  have hback : ∀ {e}, e ∈ m'.hist → ¬ e.Plain → (∀ c, e ≠ .exited c) → e ∈ m.hist :=
    fun {e} he hplain hne => by
      rw [hhist, List.mem_append] at he
      refine he.resolve_right fun he => ?_
      rcases hes e he with hp | rfl
      · exact hplain hp
      · exact hne _ rfl
  have htask : ∀ {q x}, (m'.pc q).task = some x → (m.pc q).task = some x :=
    update_pc hpc (.inl rfl) _ _
  have horphan : ∀ {j}, (m.ptable.proc j).parent = none → (m'.ptable.proc j).parent = none :=
    fun {j} hj => by
      rw [hparent, hj]
      rfl
  refine ⟨?_, ?_, fun j hj => ?_, fun q j hq => ?_, fun q j hq => ?_, fun j hu he hj => ?_,
    fun j hj => ?_, fun f c hf => ?_, fun f f' c hf hf' => ?_, fun w c hw => ?_, ?_⟩
  · exact h.numbered.keep hnext fun j => ⟨.inl (hpid j), fun hj => hunused hj⟩
  · rw [hinit', hpid, hne _ hfirst]
    exact h.init
  · exact horphan (h.free j (hnot hj (by simp)))
  · exact horphan (h.early q j (htask hq))
  · have hqp : q ≠ p := fun heq => by
      rw [heq, hpc, update_self] at hq
      simp [Pc.task] at hq
    rw [hparent, h.born q j (htask hq), if_neg fun heq => hqp (some.inj heq)]
  · have he' : m.state j ≠ .embryo := fun heq => by
      by_cases hjp : j = p
      · rw [← hjp, heq] at hliving
        simp [ProcState.living] at hliving
      · exact he (by rw [hne j hjp, heq])
    obtain ⟨q, f, hq, hl, hf, hor⟩ := h.tree j (hunused hu) he' hj
    rw [hparent, hq, hpid]
    by_cases hqp : q = p
    · -- the parent is the process that exits
      subst hqp
      rw [if_pos rfl]
      have hf' : (m.ptable.proc q).pid = f := hor.resolve_right fun h => hfirst h.1.symm
      exact ⟨first, f, rfl, by rw [hne _ hfirst]; exact h.init.2.1, hold hf,
        .inr ⟨rfl, hf' ▸ hlast⟩⟩
    · rw [if_neg fun heq => hqp (some.inj heq)]
      exact ⟨q, f, rfl, by rw [hne q hqp]; exact hl, hold hf,
        hor.imp (by rw [hpid]; exact id) fun h => ⟨h.1, hold h.2⟩⟩
  · rw [hpid]
    by_cases hjp : j = p
    · exact hjp ▸ hlast
    · exact hold (h.exited j (hne j hjp ▸ hj))
  · have hf := hback hf (by simp [ProcEvent.Plain]) (by simp)
    rw [hnext]
    refine ⟨(h.forked f c hf).1, fun j hj => ?_⟩
    rw [hpid]
    exact (h.forked f c hf).2 j (hnot hj (by simp))
  · exact h.once f f' c (hback hf (by simp [ProcEvent.Plain]) (by simp))
      (hback hf' (by simp [ProcEvent.Plain]) (by simp))
  · have hw := hback hw (by simp [ProcEvent.Plain]) (by simp)
    rw [hnext]
    refine ⟨(h.waited w c hw).1, fun j hj => ?_⟩
    rw [hpid]
    exact (h.waited w c hw).2 j (hunused hj)
  · rw [hhist]
    refine reaped_append h.log fun pre w c post heq => ?_
    have := hes (.waited w (some c)) (by rw [heq]; simp)
    simp [ProcEvent.Plain] at this

theorem wakeAll_fixed (m : Smp) (chans : List Chan) :
    (m.wakeAll chans).initproc = m.ptable.initproc ∧
      (m.wakeAll chans).nextpid = m.ptable.nextpid := by
  induction chans using List.reverseRecOn with
  | nil => exact ⟨rfl, rfl⟩
  | append_singleton chans ch ih =>
    have hlast : m.wakeAll (chans ++ [ch]) = (m.wakeAll chans).wakeup1 m.chan (some ch) := by
      simp [wakeAll]
    rw [hlast]
    exact ih

/-- `exit` wakes up the parents before. -/
theorem exit (h : Family m) (hok : Ok m) (hstack : (m.cpu c).stack = some p)
    (hexit : m.exit c p = some m') : Family m' := by
  obtain ⟨t, ht, rfl⟩ := map_eq_some_iff.mp hexit
  have hwake : Family { m with ptable := m.wakeAll (m.exitChans p) } :=
    h.move (l := []) (wakeAll_alike m _) (wakeAll_fixed m _).2 (wakeAll_fixed m _).1
      (fun _ _ => id) (List.append_nil _).symm (by simp)
  have hpid : ((m.wakeAll (m.exitChans p)).proc p).pid = (m.ptable.proc p).pid := by
    obtain ⟨s, b, hs, -⟩ := wakeAll_alike m (m.exitChans p) p
    rw [hs]
  have hliving : (state { m with ptable := m.wakeAll (m.exitChans p) } p).living = true := by
    obtain ⟨s, b, hs, halike⟩ := wakeAll_alike m (m.exitChans p) p
    simp only [state, hs]
    rw [halike.living, hok.running hstack]
    rfl
  refine hwake.leave hliving ht rfl rfl (fun e he => ?_) ?_
  · simp only [List.cons_append, List.mem_cons, List.mem_append, List.mem_map,
      List.not_mem_nil, or_false] at he
    rcases he with rfl | ⟨chan, -, rfl⟩ | rfl
    · exact .inl trivial
    · exact .inl trivial
    · exact .inr (by rw [hpid])
  · rw [hpid]
    simp

/-- `wait` finds a child that has exited. -/
theorem bury (h : Family m) (hok : Ok m) (hzombie : m.ptable.zombie p = some k)
    (htable : m'.ptable = m.ptable.reap k)
    (hpc : ∀ q x, (m'.pc q).task = some x → (m.pc q).task = some x)
    (hhist : m'.hist = m.hist ++
      [.waited (m.ptable.proc p).pid (some (m.ptable.proc k).pid)]) : Family m' := by
  obtain ⟨hchild, hk⟩ := Ptable.zombie_eq_some hzombie
  have hself : m'.ptable.proc k = { m.ptable.proc k with
      state := .unused, pid := 0, parent := none, killed := false } := by
    rw [htable]
    simp [Ptable.reap]
  have hne : ∀ j ≠ k, m'.ptable.proc j = m.ptable.proc j := fun j hj => by
    rw [htable]
    simp [Ptable.reap, hj]
  have hunused : m'.state k = .unused := by rw [state, hself]
  have hne_of : ∀ {j s}, m'.state j = s → s ≠ .unused → j ≠ k := fun hj hs heq => by
    rw [heq, hunused] at hj
    exact hs hj.symm
  have hsame : ∀ {j}, j ≠ k → m'.state j = m.state j := fun {j} hj => by
    simp only [state, hne j hj]
  have hliving : ∀ {j}, (m.state j).living = true → j ≠ k := fun hj heq => by
    subst heq
    simp only [state, hk] at hj
    simp [ProcState.living] at hj
  have hfirst : first ≠ k := hliving h.init.2.1
  have hold : ∀ {e}, e ∈ m.hist → e ∈ m'.hist := fun he => by
    rw [hhist]
    exact List.mem_append_left _ he
  have hmem_iff : ∀ {e}, e ∈ m'.hist ↔ e ∈ m.hist ∨
      e = .waited (m.ptable.proc p).pid (some (m.ptable.proc k).pid) := by simp [hhist]
  have hparent : ∀ {j}, (m.ptable.proc j).parent = none → (m'.ptable.proc j).parent = none :=
    fun {j} hj => by
      by_cases hjk : j = k
      · rw [hjk, hself]
      · rw [hne j hjk, hj]
  refine ⟨?_, ?_, fun j hj => ?_, fun q j hq => ?_, fun q j hq => ?_, fun j hu he hj => ?_,
    fun j hj => ?_, fun f c hf => ?_, fun f f' c hf hf' => ?_, fun w c hw => ?_, ?_⟩
  · refine h.numbered.keep (by rw [htable]; rfl) fun j => ?_
    by_cases hjk : j = k
    · rw [hjk, hself]
      exact ⟨.inr ⟨rfl, rfl⟩, fun hu => absurd rfl hu⟩
    · rw [hne j hjk]
      exact ⟨.inl rfl, id⟩
  · rw [hne _ hfirst, hsame hfirst, htable]
    exact h.init
  · by_cases hjk : j = k
    · rw [hjk, hself]
    · exact hparent (h.free j (hsame hjk ▸ hj))
  · exact hparent (h.early q j (hpc q _ hq))
  · have hq := hpc q _ hq
    have hjk : j ≠ k := fun heq => by
      have := hok.child q j (by rw [Pc.child, hq]; rfl)
      rw [heq, state, hk] at this
      simp at this
    rw [hne j hjk]
    exact h.born q j hq
  · have hjk := hne_of rfl hu
    obtain ⟨q, f, hq, hl, hf, hor⟩ := h.tree j (hsame hjk ▸ hu) (hsame hjk ▸ he) hj
    have hqk := hliving hl
    rw [hne j hjk]
    exact ⟨q, f, hq, by rw [hsame hqk]; exact hl, hold hf,
      hor.imp (by rw [hne q hqk]; exact id) fun h => ⟨h.1, hold h.2⟩⟩
  · have hjk := hne_of hj (by simp)
    rw [hne j hjk]
    exact hold (h.exited j (hsame hjk ▸ hj))
  · have hf : .forked f c ∈ m.hist := by simpa using hmem_iff.mp hf
    refine ⟨by rw [htable]; exact (h.forked f c hf).1, fun j hj => ?_⟩
    have hjk := hne_of hj (by simp)
    rw [hne j hjk]
    exact (h.forked f c hf).2 j (hsame hjk ▸ hj)
  · exact h.once f f' c (by simpa using hmem_iff.mp hf) (by simpa using hmem_iff.mp hf')
  · rw [hmem_iff] at hw
    refine ⟨?_, fun j hj => ?_⟩
    · rw [htable]
      rcases hw with hw | hw
      · exact (h.waited w c hw).1
      · obtain ⟨-, rfl⟩ : _ ∧ c = _ := by simpa using hw
        exact (h.numbered.inUse k (by rw [hk]; simp)).2
    · have hjk := hne_of rfl hj
      rw [hne j hjk]
      rcases hw with hw | hw
      · exact (h.waited w c hw).2 j (hsame hjk ▸ hj)
      · obtain ⟨-, rfl⟩ : _ ∧ c = _ := by simpa using hw
        exact fun heq => hjk (h.numbered.distinct j k (by rw [← state, ← hsame hjk]; exact hj)
          (by rw [hk]; simp) heq)
  · rw [hhist]
    refine reaped_append h.log fun pre w c post heq => ?_
    obtain ⟨rfl, hev, -⟩ : pre = [] ∧ _ ∧ post = [] := by
      cases pre with
      | nil => simpa using heq
      | cons e pre => simp at heq
    obtain ⟨rfl, rfl⟩ : w = _ ∧ c = _ := by simpa [eq_comm] using hev
    rw [List.append_nil]
    obtain ⟨q, f, hq, -, hf, hor⟩ := h.tree k (by rw [state, hk]; simp) (by rw [state, hk]; simp)
      hfirst.symm
    obtain rfl : p = q := by simpa [hchild] using hq
    refine ⟨fun v hv => (h.waited v _ hv).2 k (by rw [state, hk]; simp) rfl, h.exited k hk, f, hf,
      hor.imp id fun hi => ⟨by rw [hi.1]; exact h.init.2.2, hi.2⟩⟩

theorem does (h : Family m) (hok : Ok m) (hd : Does m c op m') : Family m' := by
  cases hd with
  | scan hlock hstack | skip hlock hstack | done hlock hstack | release l hidle hheld =>
    exact h.still (l := []) rfl (fun _ _ => id) (List.append_nil _).symm (by simp)
  | dispatch k hlock hstack hstate =>
    exact h.setState (p := k) (s := .running) (.inr ⟨by rw [hstate]; rfl, rfl⟩) rfl
      (fun _ _ => id) rfl
  | back p pc hstack hpc | kalloc p k hstack hpc =>
    exact h.still (l := []) rfl (update_pc rfl (.inr (by rw [hpc]; rfl))) (List.append_nil _).symm
      (by simp)
  | rescan p chan hstack hpc | resume p chan l hstack hpc | sleep p chan l hstack hpc hlock hheld
  | relock p l hstack hpc hfree | wait p hstack hpc hlock =>
    exact h.still rfl (update_pc rfl (.inl rfl)) rfl (by simp [ProcEvent.Plain])
  | yield p hstack hpc hlock =>
    exact h.setState (p := p) (s := .runnable) (.inr ⟨by rw [hok.running hstack]; rfl, rfl⟩) rfl
      (update_pc rfl (.inr rfl)) rfl
  | acquire l hidle hfree =>
    exact h.still rfl (fun _ _ => id) rfl (by simp [ProcEvent.Plain])
  | unlock p chan l hstack hpc =>
    exact h.still (l := []) rfl (update_pc rfl (.inl rfl)) (List.append_nil _).symm (by simp)
  | doze p chan lk hstack hpc =>
    exact h.setState (p := p) (s := .sleeping) (.inr ⟨by rw [hok.running hstack]; rfl, rfl⟩) rfl
      (update_pc rfl (.inl rfl)) rfl
  | wakeup chan hidle hlock =>
    exact h.move (wakeAll_alike m [chan]) rfl rfl (fun _ _ => id) rfl
      (by simp [ProcEvent.Plain])
  | kill pid hidle hlock =>
    refine h.move (l := []) (kill_alike m pid) ?_ ?_ (fun _ _ => id)
      (List.append_nil _).symm (by simp)
    · simp only [Ptable.kill]
      split <;> rfl
    · simp only [Ptable.kill]
      split <;> rfl
  | full => exact h
  | fork p k t hstack hpc hlock halloc =>
    obtain ⟨hk, -, rfl⟩ := Ptable.allocproc_some halloc
    exact h.conceive hk rfl rfl rfl
  | noStack p k hstack hpc | noCopy p k hstack hpc =>
    exact h.drop hok (by rw [hpc]; rfl) rfl rfl rfl
  | copyuvm p k hstack hpc => exact h.adopt hok hpc rfl rfl rfl
  | ready p k hstack hpc hlock =>
    refine h.deliver hok hpc (by rw [hok.running hstack]; rfl) rfl (fun q x hx => ?_) rfl
    have hx : ((m.setPc k (.back .out)).pc q).task = some x := update_pc rfl (.inl rfl) q x hx
    exact update_pc rfl (.inl rfl) q x hx
  | exit p m' hstack hpc hlock hexit => exact h.exit hok hstack hexit
  | reap p hstack hpc =>
    unfold scanWait
    split
    · rename_i k hzombie
      exact h.bury hok hzombie rfl (update_pc rfl (.inl rfl)) rfl
    · split
      · exact h.still rfl (update_pc rfl (.inl rfl)) rfl (by simp [ProcEvent.Plain])
      · exact h.still rfl (update_pc rfl (.inl rfl)) rfl (by simp [ProcEvent.Plain])

theorem boot (cwd : Option (Fin NINODE)) : Family (boot cwd) := by
  have hfirst : (Smp.boot cwd).ptable.proc first = { Ptable.empty.proc first with
      sz := 4096, pid := 1, cwd := cwd, state := .runnable } := by
    simp [Smp.boot, booted_eq]
  have hpc : ∀ p, ((Smp.boot cwd).pc p).task = none := fun p => by
    by_cases hp : p.val = 0 <;> simp [Smp.boot, hp, Pc.task]
  have hparent : ∀ k, ((Smp.boot cwd).ptable.proc k).parent = none := fun k => by
    by_cases hk : k = first
    · rw [hk, hfirst]
      rfl
    · simp only [Smp.boot, booted_eq, Ptable.set_proc, update_of_ne hk]
      rfl
  refine ⟨Ptable.Numbered.empty.userinit (userinit_empty cwd), ⟨?_, ?_, by rw [hfirst]⟩,
    fun k _ => hparent k, fun _ k _ => hparent k, fun p k hp => ?_, fun k hu he hk => ?_, fun k hk => ?_,
    by simp [Smp.boot], by simp [Smp.boot], by simp [Smp.boot], by simp [Smp.boot]⟩
  · simp [Smp.boot, booted_eq]
  · rw [state, hfirst]
    rfl
  · rw [hpc] at hp
    simp at hp
  · have hk0 : ¬ k.val = 0 := fun h => hk (Fin.ext h)
    rw [state_boot, if_neg hk0] at hu
    simp at hu
  · rw [state_boot] at hk
    split at hk <;> simp at hk

theorem reachable (h : Reachable m) : Ok m ∧ Family m := by
  obtain ⟨cwd, ls, hrun⟩ := h
  have hstep : ∀ l m m', Ok m ∧ Family m → Smp.step l m = some m' → Ok m' ∧ Family m' :=
    fun l m m' h hstep => ⟨h.1.step hstep, h.2.does h.1 (does_of_step hstep)⟩
  exact runFrom_invariant hstep ⟨Ok.boot cwd, Family.boot cwd⟩ hrun

end Family

/-- Only `wait` logs what it returns. -/
theorem Does.waited {w : Int} {r : Option Int} (hd : Does m c op m')
    (hm' : m'.hist = m.hist ++ [.waited w r]) :
    ∃ p, (m.cpu c).stack = some p ∧ m.pc p = .wait ∧ m' = m.scanWait p := by
  cases hd with
  | reap p hstack hpc => exact ⟨p, hstack, hpc, rfl⟩
  | exit p m' hstack hpc hlock hexit =>
    obtain ⟨t, -, rfl⟩ := map_eq_some_iff.mp hexit
    simp [sched, setPc, Smp.log] at hm'
  | dispatch => simp [Smp.dispatch] at hm'
  | _ => simp [setPc, Smp.log, dropLock, takeLock, sched] at hm'

/-- Every process but the first has a parent that is alive, processes have different numbers, and
`wait` returns the number of a child that `fork` returned at most once, after the child exited, and
to the process that forked it or, if that one exited, to the first process. A process that was not
killed is told that there is no child only if it has none. -/
theorem reaped_once_by_parent (h : Reachable m) :
    (∀ k, m.state k ≠ .unused → m.state k ≠ .embryo → m.ptable.initproc ≠ some k →
      ∃ q, (m.ptable.proc k).parent = some q ∧ m.state q ≠ .unused ∧ m.state q ≠ .zombie) ∧
    (∀ j k, m.state j ≠ .unused → m.state k ≠ .unused →
      (m.ptable.proc j).pid = (m.ptable.proc k).pid → j = k) ∧
    (∀ f c pre w post, .forked f c ∈ m.hist → m.hist = pre ++ .waited w (some c) :: post →
      (∀ v, .waited v (some c) ∉ pre) ∧ .exited c ∈ pre ∧
        (w = f ∨ .exited f ∈ pre ∧ ∃ i, m.ptable.initproc = some i ∧ (m.ptable.proc i).pid = w)) ∧
    (∀ l m' w c, step l m = some m' → m'.hist = m.hist ++ [.waited w (some c)] →
      ∃ p k, (m.ptable.proc p).pid = w ∧ (m.ptable.proc k).pid = c ∧
        m.state k = .zombie ∧ (m.ptable.proc k).parent = some p) ∧
    (∀ l m' w, step l m = some m' → m'.hist = m.hist ++ [.waited w none] →
      ∃ p, (m.ptable.proc p).pid = w ∧ m.state p = .running ∧
        ((m.ptable.proc p).killed = false → ∀ k, (m.ptable.proc k).parent ≠ some p)) := by
  obtain ⟨hok, hfam⟩ := Family.reachable h
  refine ⟨fun k hu he hk => ?_, hfam.numbered.distinct, fun f c pre w post hf heq => ?_,
    fun l m' w c hstep hm' => ?_, fun l m' w hstep hm' => ?_⟩
  · obtain ⟨q, -, hq, hl, -⟩ := hfam.tree k hu he fun heq => hk (heq ▸ hfam.init.1)
    refine ⟨q, hq, ?_, ?_⟩
    all_goals
      intro hs
      rw [hs] at hl
      simp [ProcState.living] at hl
  · obtain ⟨hno, hexited, f', hf', hor⟩ := hfam.log pre w c post heq
    obtain rfl := hfam.once f f' c hf (by rw [heq]; exact List.mem_append_left _ hf')
    exact ⟨hno, hexited, hor.imp id fun hi =>
      ⟨hi.2, first, hfam.init.1, by rw [hi.1, hfam.init.2.2]⟩⟩
  · obtain ⟨p, -, -, rfl⟩ := (does_of_step hstep).waited hm'
    unfold scanWait at hm'
    split at hm'
    · rename_i k hzombie
      obtain ⟨hchild, hk⟩ := Ptable.zombie_eq_some hzombie
      obtain ⟨hw, hc⟩ : _ = w ∧ _ = c := by simpa [setPc, Smp.log] using hm'
      exact ⟨p, k, hw, hc, hk, hchild⟩
    · split at hm' <;> simp [setPc, Smp.log] at hm'
  · obtain ⟨p, hstack, -, rfl⟩ := (does_of_step hstep).waited hm'
    unfold scanWait at hm'
    split at hm'
    · simp [setPc, Smp.log] at hm'
    · split at hm'
      · rename_i hor
        obtain hw : _ = w := by simpa [setPc, Smp.log] using hm'
        refine ⟨p, hw, hok.running hstack, fun hkilled k hk => ?_⟩
        have hkids : m.ptable.havekids p = false := hor.resolve_right (by simp [hkilled])
        simp only [Ptable.havekids, List.any_eq_false, decide_eq_true_eq] at hkids
        exact hkids k (List.mem_finRange k) hk
      · simp [setPc, Smp.log] at hm'

/-- The first process forks, the child exits on CPU 1, and the first process waits for it. -/
def reapRun : List (Nat × Op) :=
  [(0, .scan), (0, .look), (0, .resume), (0, .fork), (0, .kalloc true), (0, .copyuvm true),
    (0, .ready), (1, .scan), (1, .look), (1, .look), (1, .resume), (1, .exit)] ++
  List.replicate (NPROC - 1) (1, .look) ++ [(0, .wait), (0, .reap)]

theorem first_reaps : ∃ m, runFrom step reapRun (boot none) = some m ∧
    .waited 1 (some 2) ∈ m.hist ∧ .exited 2 ∈ m.hist := by
  have hrun : (runFrom step reapRun (boot none)).map Smp.hist =
      some [.forked 1 2, .acquired (.proc ⟨1, by decide⟩) .ptable,
        .woke (.proc ⟨1, by decide⟩) (.proc first), .exited 2, .acquired (.proc first) .ptable,
        .waited 1 (some 2)] := by
    decide +kernel
  obtain ⟨m, hm, hhist⟩ := map_eq_some_iff.mp hrun
  have hlast := (reaped_once_by_parent ⟨none, _, hm⟩).2.2.1 1 2
    [.forked 1 2, .acquired (.proc ⟨1, by decide⟩) .ptable,
      .woke (.proc ⟨1, by decide⟩) (.proc first), .exited 2, .acquired (.proc first) .ptable]
    1 [] (by simp [hhist]) hhist
  exact ⟨m, hm, by simp [hhist], by rw [hhist]; exact List.mem_append_left _ hlast.2.1⟩

end Smp

end Xv6
