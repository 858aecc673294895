import Xv6.Vm.Arguments

/-!
# The image of a program

`exec` loads the program, maps the stack, passes the arguments and then gives the old address space
back. The pages of the new one come from the free list, so no two of its pages share a page of
physical memory, and neither does one of its pages and one of the old address space.
-/

namespace Xv6.Vm

open Function Finset

open Lib Act

variable {im : Layout}

/-! ## The parts of `exec` -/

/-- The pages of the stack and below it (`exec.c:58-62`). -/
@[irreducible]
def stackPages (im : Layout) (d : Pgdir) (sz : Word) : V im (Pgdir × Option Word) := do
  let (d, sz) ← allocuvm im d (PGROUNDUP sz) (PGROUNDUP sz + BitVec.ofNat 32 (2 * PGSIZE))
  if sz = 0 then
    return (d, none)
  else
    let d ← clearpteu d (sz - BitVec.ofNat 32 (2 * PGSIZE))
    return (d, some sz)

/-- `exec` up to the arguments (`exec.c:28-62`): an address space, and if all went well its size and
the entry point. -/
def prepare (im : Layout) (rd : Reader) (stack : List UInt8) :
    V im (Option (Pgdir × Option (Word × Word))) :=
  match readHeader rd stack with
  | none => return none
  | some elf => do
    let r ← setupkvm im
    match r with
    | none => return none
    | some d =>
      let (d, r) ← loadSegments im rd elf.phnum elf.phoff d 0
      match r with
      | none => return some (d, none)
      | some sz =>
        let (d, r) ← stackPages im d sz
        return some (d, r.map fun sz => (sz, elf.entry))

/-- `exec` from the arguments on (`exec.c:63-107`). -/
def finish (im : Layout) (argv : List (List UInt8)) (old d : Pgdir) :
    Option (Word × Word) → V im (Option Image)
  | none => do
    freevm im d
    return none
  | some (sz, entry) => do
    let r ← passArgs argv entry d sz
    match r with
    | none =>
      freevm im d
      return none
    | some image =>
      freevm im old
      return some image

theorem setupStack_eq (argv : List (List UInt8)) (entry : Word) (d : Pgdir) (sz : Word) :
    setupStack im argv entry d sz = (do
      let (d, r) ← stackPages im d sz
      match r with
      | none => return (d, none)
      | some sz =>
        let r ← passArgs argv entry d sz
        return (d, r)) := by
  unfold setupStack stackPages
  rw [bind_assoc]
  refine congrArg (allocuvm im d _ _ >>= ·) (funext fun p => ?_)
  obtain ⟨d', sz'⟩ := p
  dsimp only
  split_ifs
  · rfl
  · rw [bind_assoc]
    refine congrArg (clearpteu d' _ >>= ·) (funext fun d'' => ?_)
    rw [pure_bind]
    dsimp only [passArgs]
    rw [bind_assoc]
    refine congrArg (pushArgs d'' argv 0 sz' [] >>= ·) (funext fun r => ?_)
    cases r with
    | none => rfl
    | some p =>
      dsimp only
      rw [bind_assoc]
      refine congrArg (copyout d'' _ _ >>= ·) (funext fun ok => ?_)
      cases ok <;> rfl

theorem exec_eq (rd : Reader) (stack : List UInt8) (argv : List (List UInt8)) (old : Pgdir) :
    exec im rd stack argv old = (do
      let r ← prepare im rd stack
      match r with
      | none => return none
      | some (d, r) => finish im argv old d r) := by
  unfold exec prepare
  cases readHeader rd stack with
  | none => rfl
  | some elf =>
    dsimp only
    rw [bind_assoc]
    refine congrArg (setupkvm im >>= ·) (funext fun r => ?_)
    cases r with
    | none => rfl
    | some d =>
      dsimp only [buildImage]
      rw [bind_assoc, bind_assoc]
      refine congrArg (loadSegments im rd _ _ d 0 >>= ·) (funext fun p => ?_)
      obtain ⟨d', r⟩ := p
      cases r with
      | none => rfl
      | some sz =>
        dsimp only
        rw [setupStack_eq, bind_assoc, bind_assoc]
        refine congrArg (stackPages im d' sz >>= ·) (funext fun p => ?_)
        obtain ⟨d'', r⟩ := p
        cases r with
        | none => rfl
        | some sz' =>
          dsimp only
          rw [bind_assoc, pure_bind]
          refine congrArg (passArgs argv elf.entry d'' sz' >>= ·) (funext fun r => ?_)
          exact Act.pure_bind _ _

/-! ## The kernel's part -/

/-- Nothing of the kernel's part is the user's. -/
def Reserved (d : Pgdir) : Prop := ∀ q, KERNBASE / PGSIZE ≤ q → user (d.entry q) = false

section

variable {d : Pgdir} {s : Kmem im} {oldsz newsz sz : Word}

theorem Reserved.of_eq {d' : Pgdir} (h : Reserved d)
    (heq : ∀ q, KERNBASE / PGSIZE ≤ q → d'.entry q = d.entry q) : Reserved d' := by
  intro q hq
  rw [heq q hq]
  exact h q hq

/-- An address of the user's is below the kernel. -/
theorem Reserved.page_lt {a : Word} (h : Reserved d) (ha : userAt d a = true) :
    a.toNat / PGSIZE < KERNBASE / PGSIZE := by
  by_contra hge
  obtain ⟨-, huser⟩ := Bool.and_eq_true_iff.mp ha
  rw [Pgdir.pte_eq, h _ (not_lt.mp hge)] at huser
  exact absurd huser Bool.false_ne_true

/-- `allocuvm` that succeeds stays below the kernel. -/
theorem allocuvm_below (hold : oldsz.toNat ≤ KERNBASE) : Ends (allocuvm im d oldsz newsz) s
    (fun r _ _ => r.2 ≠ 0 → (∀ q, KERNBASE / PGSIZE ≤ q → r.1.entry q = d.entry q) ∧
      (r.2 = newsz ∧ newsz.toNat < KERNBASE ∨ r.2 = oldsz ∧ newsz < oldsz)) fun _ => True := by
  unfold allocuvm
  refine ends_ite ?_ fun hbase => ends_ite ?_ fun hless => ?_
  · intro _
    exact ends_pure fun hne => absurd rfl hne
  · intro hless
    exact ends_pure fun _ => ⟨fun _ _ => rfl, .inr ⟨rfl, hless⟩⟩
  · have hlt : newsz.toNat < KERNBASE := Nat.lt_of_not_le hbase
    have hpages := pages_le (Nat.le_of_lt hlt)
    have hpage : pages oldsz < 2 ^ 20 := lt_of_le_of_lt (pages_le hold) (by decide)
    have hturns : pages newsz ≤ pages oldsz + 2 ^ 20 :=
      le_trans hpages (le_trans (by decide) (Nat.le_add_left ..))
    rw [PGROUNDUP_pages hold]
    refine Ends.bind ((allocuvmLoop_ends (Nat.le_of_lt hlt) _ hpage hturns).weaken
      fun _ _ => trivial) ?_
    intro r s₁ es hr
    have hentry : ∀ q, KERNBASE / PGSIZE ≤ q → r.1.entry q = d.entry q := by
      intro q hq
      cases hr with
      | done h hlen | out h hlen | lost h hlen => exact h.old (by omega)
    obtain ⟨d', ok⟩ := r
    refine ends_ite ?_ fun _ => ?_
    · intro _
      exact ends_pure fun _ => ⟨hentry, .inl ⟨rfl, hlt⟩⟩
    · refine ends_true.bind fun _ _ _ _ => ends_pure ?_
      exact fun hne => absurd rfl hne

theorem clearpteu_ends {uva : Word} : Ends (clearpteu d uva) s
    (fun d' _ _ => d'.entry = update d.entry (uva.toNat / PGSIZE) (d.pte uva &&& ~~~PTE_U))
    fun _ => d.hasTable (PDX uva) = false := by
  apply Ends.bind walkpgdir_false_does
  rintro r _ _ ⟨rfl, rfl, ⟨rfl, hnone⟩ | ⟨t, rfl, ht⟩⟩
  · change d.hasTable (PDX uva) = false
    rw [Pgdir.hasTable, hnone]
    rfl
  · exact ends_pure (Pgdir.entry_setPte ht)

theorem user_clear (e : Word) : user (e &&& ~~~PTE_U) = false := by
  simp [user, PTE_U]

/-- An address space that `exec` is still building: the program takes `sz` bytes. -/
structure Loaded (d : Pgdir) (sz : Word) : Prop where
  below : sz.toNat < KERNBASE
  reserved : Reserved d

theorem Bare.loaded (h : Bare d) : Loaded d 0 := ⟨by decide, h.kernel⟩

theorem loadSegment_ends {rd : Reader} {ph : Proghdr} (h : Loaded d sz) :
    Ends (loadSegment im rd ph d sz) s (fun r _ _ => ∀ sz', r.2 = some sz' → Loaded r.1 sz')
      fun _ => True := by
  unfold loadSegment
  refine ends_ite (fun _ => ends_pure ?_) fun _ => ends_ite (fun _ => ends_pure ?_) fun _ => ?_
  · rintro _ ⟨⟩
    exact h
  · rintro _ ⟨⟩
  · apply Ends.bind (allocuvm_below (Nat.le_of_lt h.below))
    rintro ⟨d', sz'⟩ s' _ hr
    refine ends_ite (fun _ => ends_pure ?_) fun hne => ends_true.bind fun ok _ _ _ => ?_
    · rintro _ ⟨⟩
    · obtain ⟨hentry, hsz⟩ := hr hne
      dsimp only at hsz
      have hloaded : Loaded d' sz' := by
        refine ⟨?_, h.reserved.of_eq hentry⟩
        obtain ⟨heq, hlt⟩ | ⟨heq, -⟩ := hsz
        · rw [heq]
          exact hlt
        · rw [heq]
          exact h.below
      refine ends_ite (fun _ => ends_pure ?_) fun _ => ends_pure ?_
      · rintro _ ⟨⟩
        exact hloaded
      · rintro _ ⟨⟩

theorem loadNext_ends {rd : Reader} {off : Word} (h : Loaded d sz) :
    Ends (loadNext im rd off d sz) s (fun r _ _ => ∀ sz', r.2 = some sz' → Loaded r.1 sz')
      fun _ => True := by
  unfold loadNext
  cases rd off.toNat PROGHDRSZ with
  | none =>
    apply ends_pure
    rintro _ ⟨⟩
  | some bs =>
    refine ends_ite (fun _ => ends_pure ?_) fun _ => loadSegment_ends h
    rintro _ ⟨⟩

theorem loadSegments_ends {rd : Reader} (phnum : Nat) : ∀ {off sz : Word} {d : Pgdir} {s : Kmem im},
    Loaded d sz → Ends (loadSegments im rd phnum off d sz) s
      (fun r _ _ => ∀ sz', r.2 = some sz' → Loaded r.1 sz') fun _ => True := by
  induction phnum with
  | zero =>
    intro off sz d s h
    apply ends_pure
    rintro _ ⟨⟩
    exact h
  | succ phnum ih =>
    intro off sz d s h
    rw [loadSegments]
    apply Ends.bind (loadNext_ends h)
    rintro ⟨d', _ | sz'⟩ s' _ hr
    · apply ends_pure
      rintro _ ⟨⟩
    · exact ih (hr sz' rfl)

/-- The stack page with the page below it, at the end of the image. -/
structure Stacks (d : Pgdir) (sz : Word) : Prop extends Loaded d sz where
  page : ∃ low, sz.toNat = low + PGSIZE ∧ StackPage d low

theorem stackPages_ends (h : Loaded d sz) : Ends (stackPages im d sz) s
    (fun r _ _ => ∀ sz', r.2 = some sz' → Stacks r.1 sz') fun _ => True := by
  have hsz := Nat.le_of_lt h.below
  have hpages := pages_le hsz
  have hfirst : (pageAddr (pages sz)).toNat = PGSIZE * pages sz :=
    toNat_pageAddr (lt_of_le_of_lt hpages (by decide))
  have hle : PGSIZE * pages sz ≤ KERNBASE := by
    simp only [PGSIZE, KERNBASE] at *
    omega
  unfold stackPages
  rw [PGROUNDUP_pages hsz]
  have hnat : (pageAddr (pages sz) + BitVec.ofNat 32 (2 * PGSIZE)).toNat =
      PGSIZE * pages sz + 2 * PGSIZE := by
    rw [toNat_add_of_lt (by rw [hfirst]; simp only [PGSIZE, KERNBASE] at *; omega), hfirst]
  have hold : (pageAddr (pages sz)).toNat ≤ KERNBASE := by
    rw [hfirst]
    exact hle
  generalize hnew : pageAddr (pages sz) + BitVec.ofNat 32 (2 * PGSIZE) = newsz at hnat ⊢
  apply Ends.bind (allocuvm_below hold)
  rintro ⟨d', sz'⟩ s' _ hr
  refine ends_ite (fun _ => ends_pure ?_) fun hne => ?_
  · rintro _ ⟨⟩
  · obtain ⟨hentry, ⟨hsz', hlt⟩ | ⟨-, hless⟩⟩ := hr hne
    · dsimp only at hsz' hentry
      rw [hsz', ← hnew, BitVec.add_sub_cancel, hnew]
      apply Ends.bind (clearpteu_ends.weaken fun _ _ => trivial)
      intro d'' _ _ hclear
      rw [toNat_pageAddr_div (lt_of_le_of_lt hpages (by decide))] at hclear
      apply ends_pure
      rintro _ ⟨⟩
      have hlow : pages sz < KERNBASE / PGSIZE := by
        rw [hnat] at hlt
        simp only [PGSIZE, KERNBASE] at *
        omega
      refine ⟨⟨hlt, (h.reserved.of_eq hentry).of_eq ?_⟩, PGSIZE * pages sz + PGSIZE, ?_, ?_⟩
      · intro q hq
        rw [hclear, update_of_ne (by omega)]
      · rw [hnat]
        omega
      · refine ⟨?_, Nat.le_add_left .., ?_, ?_⟩
        · simp only [PGSIZE]
          omega
        · simp only [PGSIZE, KERNBASE] at *
          omega
        · intro a hlo hhi
          have hdiv : a.toNat / PGSIZE = pages sz := by
            simp only [PGSIZE] at *
            omega
          rw [userAt, Pgdir.pte_eq, hdiv, hclear, update_self, user_clear, Bool.and_false]
    · exfalso
      have hless : newsz.toNat < (pageAddr (pages sz)).toNat := hless
      rw [hnat, hfirst] at hless
      omega

theorem prepare_ends {rd : Reader} {stack : List UInt8} : Ends (prepare im rd stack) s
    (fun r _ _ => ∀ d sz entry, r = some (d, some (sz, entry)) → Stacks d sz) fun _ => True := by
  unfold prepare
  cases readHeader rd stack with
  | none =>
    apply ends_pure
    rintro _ _ _ ⟨⟩
  | some elf =>
    apply Ends.bind (setupkvm_ends.weaken fun _ _ => trivial)
    rintro r s₁ _ (⟨rfl, -⟩ | ⟨d, rfl, -, hbare, -⟩ | ⟨-, rfl, -⟩)
    · apply ends_pure
      rintro _ _ _ ⟨⟩
    · apply Ends.bind (loadSegments_ends _ hbare.loaded)
      rintro ⟨d', _ | sz⟩ s₂ _ hr
      · apply ends_pure
        rintro _ _ _ ⟨⟩
      · have hloaded : Loaded d' sz := hr sz rfl
        apply Ends.bind (stackPages_ends hloaded)
        rintro ⟨d'', r⟩ s₃ _ hr
        apply ends_pure
        intro d₁ sz₁ entry heq
        cases r with
        | none => cases heq
        | some _ =>
          cases heq
          exact hr _ rfl
    · apply ends_pure
      rintro _ _ _ ⟨⟩

end

/-! ## Where the pages are -/

section

variable {d old : Pgdir} {s s' : Kmem im} {h : Nat → Int}

theorem stackPages_moves {sz : Word} : Moves (stackPages im d sz) (held d + h)
    (fun r h' => held r.1 + h = h') True := by
  unfold stackPages
  apply allocuvm_moves.bind
  rintro ⟨d', sz'⟩ _ rfl
  refine moves_ite (fun _ => moves_pure rfl) fun _ => ?_
  apply clearpteu_moves.bind
  rintro d'' _ rfl
  exact moves_pure rfl

/-- The pages of the new address space come from the free list. -/
theorem prepare_moves {rd : Reader} {stack : List UInt8} : Moves (prepare im rd stack) h
    (fun r h' => ∀ d r', r = some (d, r') → held d + h = h') True := by
  unfold prepare
  cases readHeader rd stack with
  | none =>
    apply moves_pure
    rintro _ _ ⟨⟩
  | some elf =>
    apply setupkvm_moves.bind
    rintro r _ (⟨rfl, rfl⟩ | ⟨d, rfl, -, rfl⟩)
    · apply moves_pure
      rintro _ _ ⟨⟩
    · apply (loadSegments_moves _).bind
      rintro ⟨d', _ | sz⟩ _ rfl
      · apply moves_pure
        rintro _ _ ⟨⟩
        rfl
      · apply stackPages_moves.bind
        rintro ⟨d'', r⟩ _ rfl
        apply moves_pure
        rintro _ _ ⟨⟩
        rfl

/-- No page of physical memory is twice in the two address spaces. -/
def Apart (d old : Pgdir) : Prop := ∀ p, held d p + held old p ≤ 1

theorem Balanced.apart {es : List VmEvent} (hb : Balanced s (held old) s' (held d + held old) es)
    (hsole : ∀ p, marks s.freelist p + held old p ≤ 1) : Apart d old := by
  intro p
  obtain ⟨lost, hlost, -, heq⟩ := hb
  have hp := congrFun heq p
  have hpos := hlost p
  have hone := hsole p
  have hfree : 0 ≤ marks s'.freelist p := by
    rw [marks_apply]
    exact Int.natCast_nonneg _
  simp only [Pi.add_apply, Pi.zero_apply] at hp hpos
  omega

/-- Two pages of the user's are two pages of physical memory. -/
theorem Apart.frame_inj (ha : Apart d old) {g g' : Nat} (hg : g < KERNBASE / PGSIZE)
    (hg' : g' < KERNBASE / PGSIZE) (hp : present (d.entry g) = true)
    (hp' : present (d.entry g') = true) (heq : PTE_ADDR (d.entry g) = PTE_ADDR (d.entry g')) :
    g = g' := by
  by_contra hne
  have hsub : ({g, g'} : Finset Nat) ⊆ Finset.range (KERNBASE / PGSIZE) := by
    intro q hq
    obtain rfl | rfl := by simpa using hq
    · exact mem_range.mpr hg
    · exact mem_range.mpr hg'
  have hle : frameMark (d.entry g) + frameMark (d.entry g') ≤ frames d := by
    rw [frames, ← sum_pair (f := fun q => frameMark (d.entry q)) hne]
    exact sum_le_sum_of_subset_of_nonneg hsub fun q _ _ => frameMark_nonneg (d.entry q)
  have hle := hle (PTE_ADDR (d.entry g))
  have htables := tables_nonneg d (PTE_ADDR (d.entry g))
  have hpage := mark_nonneg (some d.page) (PTE_ADDR (d.entry g))
  have hold := held_nonneg old (PTE_ADDR (d.entry g))
  have hone := ha (PTE_ADDR (d.entry g))
  rw [Pi.add_apply, frameMark, frameMark, if_pos hp, if_pos hp', ← heq, mark_some_self] at hle
  simp only [held, Pi.add_apply, Pi.zero_apply] at hle htables hpage hold hone
  -- the number of pages is too large for `omega`
  clear hsub hne hg hg'
  omega

/-- A page of the user's is not in the old address space. -/
theorem Apart.not_held (ha : Apart d old) {g : Nat} (hg : g < KERNBASE / PGSIZE)
    (hp : present (d.entry g) = true) : held old (PTE_ADDR (d.entry g)) = 0 := by
  have hpos := held_frame_pos hg hp
  have hold := held_nonneg old (PTE_ADDR (d.entry g))
  have hone := ha (PTE_ADDR (d.entry g))
  simp only [Pi.zero_apply] at hold
  omega

/-! ## Giving back the old address space -/

theorem freeTables_ends (is : List Nat) : ∀ {s : Kmem im}, Ends (freeTables im d is) s
    (fun _ s' es => es = [] ∧
      ∀ p, (∀ i ∈ is, ∀ t ∈ d.pde i, t.page ≠ p) → s'.mem p = s.mem p) fun _ => True := by
  induction is with
  | nil =>
    intro s
    exact ends_pure ⟨rfl, fun _ _ => rfl⟩
  | cons i is ih =>
    intro s
    rw [freeTables]
    cases ht : d.pde i with
    | none =>
      apply ih.mono
      rintro _ s' _ ⟨rfl, hs⟩
      exact ⟨rfl, fun p hp => hs p fun j hj => hp j (List.mem_cons_of_mem i hj)⟩
    | some t =>
      apply Ends.bind (kfree_ends.weaken fun _ _ => trivial)
      rintro _ s₁ _ ⟨rfl, -, hmem⟩
      apply ih.mono
      rintro _ s' _ ⟨rfl, hs⟩
      refine ⟨rfl, fun p hp => ?_⟩
      rw [hs p fun j hj => hp j (List.mem_cons_of_mem i hj)]
      exact hmem p (hp i List.mem_cons_self t ht).symm

/-- `freevm` writes to the pages of the directory only. -/
theorem freevm_ends : Ends (freevm im d) s
    (fun _ s' es => es = [] ∧ ∀ p, held d p = 0 → s'.mem p = s.mem p) fun _ => True := by
  have hne : ∀ {p q : Nat}, held d p = 0 → 0 < held d q → p ≠ q := by
    rintro p _ hzero hpos rfl
    omega
  have hlt : (0 : Word) < BitVec.ofNat 32 KERNBASE := by decide
  have hle : (BitVec.ofNat 32 KERNBASE).toNat ≤ KERNBASE := by decide
  unfold freevm
  generalize BitVec.ofNat 32 KERNBASE = top, (0 : Word) = bottom at hlt hle ⊢
  have hpages := pages_le hle
  refine Ends.bind ((deallocuvm_ends hlt hle).weaken fun _ _ => trivial) ?_
  intro r s₁ _ hr
  have hclear := hr.2.2
  generalize his : List.range NPDENTRIES = is
  obtain rfl := hr.1
  apply Ends.bind (freeTables_ends is)
  rintro _ s₂ _ ⟨rfl, htables⟩
  apply (kfree_ends.weaken fun _ _ => trivial).mono
  rintro _ s₃ _ ⟨rfl, -, hpage⟩
  refine ⟨rfl, fun p hp => ?_⟩
  rw [hpage p, htables p, hclear.mem p]
  · intro hframe
    obtain ⟨q, hq, rfl⟩ := List.mem_map.mp hframe
    obtain ⟨hq, hpres⟩ := List.mem_filter.mp hq
    have hturns : pages top ≤ pages bottom + 2 ^ 20 :=
      le_trans hpages (le_trans (by decide) (Nat.le_add_left ..))
    have hlt := ((mem_sweep _ hturns).mp hq).2.1
    exact hne hp (held_frame_pos (lt_of_lt_of_le hlt hpages) hpres) rfl
  · intro i hi t ht heq
    have hpages := hclear.tables i
    rw [Option.mem_def.mp ht, Option.map_some] at hpages
    obtain ⟨t', ht', heq'⟩ := Option.map_eq_some_iff.mp hpages.symm
    rw [← his] at hi
    exact hne hp (held_table_pos (List.mem_range.mp hi) ht') (by rw [heq', heq])
  · rw [hclear.page]
    exact hne hp (held_page_pos d)

end

/-! ## The arguments in the image -/

/-- What is copied to the stack, in this order: the strings, and then the frame. -/
def argBlocks (argv : List (List UInt8)) (esp : Word) (ptrs : List Word) : List (Word × List UInt8) :=
  ptrs.zip (argv.map (· ++ [0])) ++ [(esp, argFrame esp ptrs)]

/-- The arguments are in the image. At `esp` are a return address, the number of strings, and a pointer
to the array of `ptrs`, which ends with 0; and the strings are where `ptrs` point. All of that is in the
stack page and disjoint, and nothing has changed in the other pages of the user since `s₀`. -/
structure Passed (image : Image) (argv : List (List UInt8)) (ptrs : List Word) (s₀ s : Kmem im) :
    Prop where
  count : ptrs.length = argv.length
  frame : Holds image.pgdir s.mem image.esp (argFrame image.esp ptrs)
  strings : List.Forall₂ (fun ptr arg => Holds image.pgdir s.mem ptr (arg ++ [0])) ptrs argv
  aligned : image.sz.toNat % PGSIZE = 0
  inside : ∀ b ∈ argBlocks argv image.esp ptrs,
    image.sz.toNat ≤ b.1.toNat + PGSIZE ∧ b.1.toNat + b.2.length ≤ image.sz.toNat
  disjoint : (argBlocks argv image.esp ptrs).Pairwise fun b c => c.1.toNat + c.2.length ≤ b.1.toNat
  others : ∀ a, userAt image.pgdir a = true →
    ¬ (image.sz.toNat ≤ a.toNat + PGSIZE ∧ a.toNat < image.sz.toNat) →
      cells s.mem (place image.pgdir a) = cells s₀.mem (place image.pgdir a)

section

variable {d old : Pgdir} {s₀ s₁ s : Kmem im} {low : Nat} {argv : List (List UInt8)}
  {ptrs : List Word} {image : Image}

/-- The bytes are still there after other pages have changed. -/
theorem Holds.congr {va : Word} {bs : List UInt8} (h : Holds d s₁.mem va bs)
    (hsame : ∀ a, userAt d a = true → s.mem (PTE_ADDR (d.pte a)) = s₁.mem (PTE_ADDR (d.pte a))) :
    Holds d s.mem va bs := by
  intro i hi
  obtain ⟨huser, hbyte⟩ := h i hi
  refine ⟨huser, ?_⟩
  rw [← hbyte, cells, cells, place, hsame _ huser]

theorem userAt_iff {a : Word} : userAt d a = true ↔ present (d.entry (a.toNat / PGSIZE)) = true ∧
    user (d.entry (a.toNat / PGSIZE)) = true := by
  rw [userAt, Pgdir.pte_eq, Bool.and_eq_true_iff]

/-- What was on the stack is in the image, also after the old address space has been given back. -/
theorem Stacked.passed (h : Stacked d low (argBlocks argv image.esp ptrs) image.esp s₀ s₁)
    (hd : image.pgdir = d) (hsz : image.sz.toNat = low + PGSIZE) (hlen : ptrs.length = argv.length)
    (hpage : StackPage d low) (hreserved : Reserved d) (hapart : Apart d old)
    (hfree : ∀ p, held old p = 0 → s.mem p = s₁.mem p) : Passed image argv ptrs s₀ s := by
  have hsame : ∀ a, userAt d a = true → s.mem (PTE_ADDR (d.pte a)) = s₁.mem (PTE_ADDR (d.pte a)) := by
    intro a ha
    apply hfree
    rw [Pgdir.pte_eq]
    exact hapart.not_held (hreserved.page_lt ha) (userAt_iff.mp ha).1
  have hframe : Holds d s₁.mem image.esp (argFrame image.esp ptrs) :=
    h.holds (image.esp, _) (List.mem_append_right _ (List.mem_singleton.mpr rfl))
  have hbelow := (h.inside (image.esp, _) (List.mem_append_right _ (List.mem_singleton.mpr rfl))).2
  subst hd
  refine ⟨hlen, hframe.congr hsame, ?_, ?_, ?_, h.disjoint, ?_⟩
  · rw [← List.forall₂_map_right_iff (f := fun arg : List UInt8 => arg ++ [0])
      (R := fun ptr bs => Holds image.pgdir s.mem ptr bs), List.forall₂_iff_zip]
    refine ⟨by rw [hlen, List.length_map], ?_⟩
    intro ptr bs hb
    exact (h.holds (ptr, bs) (List.mem_append_left _ hb)).congr hsame
  · have haligned := hpage.aligned
    simp only [PGSIZE] at *
    omega
  · intro b hb
    have hin := h.inside b hb
    have habove := h.above
    omega
  · intro a ha hout
    -- the stack page is the user's, so no other page of the user's is behind it
    have hesp : userAt image.pgdir image.esp = true := by
      have hfirst := (hframe 0 (by rw [length_argFrame]; omega)).1
      rwa [BitVec.add_zero] at hfirst
    have hdiv : image.esp.toNat / PGSIZE = low / PGSIZE := by
      have haligned := hpage.aligned
      have habove := h.above
      rw [length_argFrame] at hbelow
      simp only [PGSIZE] at *
      omega
    have hne : a.toNat / PGSIZE ≠ low / PGSIZE := by
      have haligned := hpage.aligned
      simp only [PGSIZE] at *
      omega
    have hother : PTE_ADDR (image.pgdir.pte a) ≠ stackFrame image.pgdir low := by
      rw [Pgdir.pte_eq]
      intro heq
      have hstack := (userAt_iff.mp hesp).1
      have hlt := hreserved.page_lt hesp
      rw [hdiv] at hstack hlt
      exact hne (hapart.frame_inj (hreserved.page_lt ha) hlt (userAt_iff.mp ha).1 hstack heq)
    rw [← h.same (place image.pgdir a) hother, cells, cells, place, hsame a ha]

/-- `exec` passes its arguments: where it returns 0, the strings, their addresses and the frame are in
the stack page of the new image, and between the state `s₀` in which the copying starts and the end no
other page of the user's has changed. No page is free twice, or both free and in the old image. -/
theorem exec_passes_arguments {rd : Reader} {stack : List UInt8}
    (hsole : ∀ p, marks s.freelist p + held old p ≤ 1) {s' : Kmem im}
    (hrun : Gives (exec im rd stack argv old) s (some image) s') : ∃ s₀ ptrs,
      Gives (prepare im rd stack) s (some (image.pgdir, some (image.sz, image.eip))) s₀ ∧
      Passed image argv ptrs s₀ s' := by
  rw [exec_eq] at hrun
  obtain ⟨r, s₀, ⟨es, hprep⟩, hrun⟩ := hrun.of_bind
  have hstacks := prepare_ends.of_ok hprep
  obtain ⟨k, hbalance, hheld⟩ := ((prepare_moves (h := held old)).ends s).of_ok hprep
  obtain _ | ⟨d, _ | ⟨sz, entry⟩⟩ := r
  · obtain ⟨fs, hrun⟩ := hrun
    cases hrun
  · obtain ⟨_, _, -, fs, hrun⟩ := hrun.of_bind
    cases hrun
  · obtain ⟨r, s₁, ⟨fs, hpass⟩, hrun⟩ := hrun.of_bind
    obtain ⟨⟨-, hreserved⟩, low, hlow, hpage⟩ := hstacks d sz entry rfl
    rw [← hheld d _ rfl] at hbalance
    obtain _ | _ := r
    · obtain ⟨_, _, -, gs, hrun⟩ := hrun.of_bind
      cases hrun
    · obtain ⟨_, s₂, ⟨gs, hfree⟩, gs', hend⟩ := hrun.of_bind
      cases hend
      obtain ⟨hd, hsz, heip, ptrs, hlen, hstacked⟩ :=
        (passArgs_ends hpage hlow).of_ok hpass image rfl
      refine ⟨s₀, ptrs, ⟨es, ?_⟩, ?_⟩
      · rw [hd, hsz, heip]
        exact hprep
      · exact hstacked.passed hd (hsz ▸ hlow) hlen hpage hreserved (hbalance.apart hsole)
          (freevm_ends.of_ok hfree).2

end

/-! ## A program without segments

The theorem is about runs that return 0. Here is one: memory for the kernel's page tables, for the
table of the user's part and for two pages, and a header without program headers. -/

section

variable {d : Pgdir} {s : Kmem im} {oldsz newsz : Word}

theorem not_short_of_need {lo n : Nat} (h : need d lo n ≤ s.freelist.length) : ¬ Short s d lo n := by
  rintro ⟨m, hm, -, htable, hnew, hlen⟩
  have htwo := need_succ_of_missing htable hnew
  have hmono := (need_strictMono d lo).monotone (show m + 1 ≤ n from hm)
  omega

/-- With enough memory, and nothing mapped there before, `allocuvm` succeeds. -/
theorem allocuvm_succeeds (hle : oldsz ≤ newsz) (hlt : newsz.toNat < KERNBASE) (hb : Backed s d)
    (habsent : ∀ q, pages oldsz ≤ q → q < pages newsz → present (d.entry q) = false)
    (hfree : need d (pages oldsz) (pages newsz - pages oldsz) ≤ s.freelist.length) :
    ∃ ps s' d', Gives (allocuvm im d oldsz newsz) s (d', newsz) s' ∧
      Grown s d (pages oldsz) ps s' d' ∧ ps.length = pages newsz - pages oldsz := by
  have hends := allocuvm_ends hle hlt hb
  have hbig : pages newsz ≤ 2 ^ 20 := le_trans (pages_le (Nat.le_of_lt hlt)) (by decide)
  have hshort := not_short_of_need hfree
  cases hrun : allocuvm im d oldsz newsz s with
  | halt why es =>
    obtain ⟨-, ps, s₁, d₁, -, hlen, -, hpres⟩ := hends.of_halt hrun
    rw [habsent _ (Nat.le_add_right ..) (by omega)] at hpres
    exact absurd hpres Bool.false_ne_true
  | ok r s' es =>
    cases hends.of_ok hrun with
    | done h hlen => exact ⟨_, s', _, ⟨_, hrun⟩, h, hlen⟩
    | last h hlen hfree₁ hnone | lost h hlen hfree₁ hnone =>
      exact absurd (h.short (by omega) (by omega) hfree₁ hnone) hshort
    | out h hlen hempty =>
      have hcount := h.free (by omega)
      have hmono := need_strictMono d (pages oldsz) hlen
      rw [hempty, List.length_nil] at hcount
      omega

theorem copyout_succeeds {va : Word} {bs : List UInt8}
    (h : ∀ i < bs.length, userAt d (va + BitVec.ofNat 32 i) = true) :
    ∃ s', Gives (copyout d va bs) s true s' := by
  have hends : Ends (copyout d va bs) s _ _ := copyoutLoop_ends _ le_rfl
  cases hrun : copyout d va bs s with
  | halt why es =>
    obtain ⟨-, m, -, -, hm, hno⟩ := hends.of_halt hrun
    rw [hasTable_of_userAt (h m hm)] at hno
    exact absurd hno.symm Bool.false_ne_true
  | ok ok s' es =>
    obtain ⟨-, m, -, ⟨rfl, -⟩ | ⟨-, hm, hno, -⟩⟩ := hends.of_ok hrun
    · exact ⟨s', es, hrun⟩
    · rw [h m hm] at hno
      exact absurd hno.symm Bool.false_ne_true

end

/-- Seventy free pages. -/
def seventyPages : Kmem sampleLayout where
  freelist := List.range' 0x200 70
  mem := fun _ => Bytes.zero PGSIZE
  physical := by decide

/-- A file that is a header without program headers. -/
def bareProgram : Reader := fun _ _ => some ([0x7F, 0x45, 0x4C, 0x46] ++ List.replicate 48 0)

theorem sole_seventyPages (p : Nat) :
    marks seventyPages.freelist p + held (emptyDir 0x300) p ≤ 1 := by
  have hcount : seventyPages.freelist.count p ≤ 1 :=
    List.nodup_iff_count_le_one.mp (List.nodup_range' ..) p
  rw [held_emptyDir, marks_apply, mark_apply]
  split_ifs with hp
  · obtain rfl : 0x300 = p := Option.some.inj hp
    decide
  · omega

variable {d : Pgdir} {s : Kmem im}

theorem Bare.backed (h : Bare d) (hnodup : s.freelist.Nodup) : Backed s d := by
  have hno : ∀ g < KERNBASE / PGSIZE, present (d.entry g) ≠ true := by
    intro g hg hp
    rw [h.empty g hg] at hp
    exact absurd hp Bool.false_ne_true
  exact ⟨hnodup, fun g hg hp => absurd hp (hno g hg), fun g hg hp => absurd hp (hno g hg)⟩

theorem need_two_le (d : Pgdir) : need d 0 2 ≤ 3 := by
  have hsub : missing d 0 2 ⊆ {0} := by
    intro i hi
    obtain ⟨⟨q, hq, rfl⟩, -⟩ := mem_missing.mp hi
    simp only [NPTENTRIES, mem_singleton]
    omega
  have hcard := card_le_card hsub
  rw [card_singleton] at hcard
  simp only [need]
  omega

/-- Two pages are mapped for the stack. -/
theorem stackPages_bare (hbare : Bare d) (hnodup : s.freelist.Nodup)
    (hfree : 3 ≤ s.freelist.length) : ∃ d' s', Gives (stackPages im d 0) s (d', some 0x2000) s' ∧
      ∀ a : Word, a.toNat / PGSIZE = 1 → userAt d' a = true := by
  have hlo : pages 0 = 0 := by decide
  have hhi : pages 0x2000 = 2 := by decide
  have habsent : ∀ q, pages 0 ≤ q → q < pages 0x2000 → present (d.entry q) = false := by
    intro q _ hq
    rw [hbare.empty q (lt_trans hq (by decide))]
    rfl
  have hneed : need d (pages 0) (pages 0x2000 - pages 0) ≤ s.freelist.length := by
    rw [hlo, hhi]
    exact (need_two_le d).trans hfree
  obtain ⟨ps, s', d', halloc, hgrown, hlen⟩ :=
    allocuvm_succeeds (by decide) (by decide) (hbare.backed hnodup) habsent hneed
  rw [hlo] at hgrown
  rw [hlo, hhi] at hlen
  have huser : ∀ q < 2, present (d'.entry q) = true ∧ user (d'.entry q) = true := by
    intro q hq
    obtain ⟨p, -, hentry, -⟩ := hgrown.new (Nat.zero_le q) (by omega)
    rw [hentry]
    exact ⟨present_userPte p, user_userPte p⟩
  have htable : d'.hasTable (PDX 0) = true := hasTable_of_present (huser 0 (by decide)).1
  cases hclear : clearpteu d' 0 s' with
  | halt why es =>
    have hno := clearpteu_ends.of_halt hclear
    rw [htable] at hno
    exact absurd hno.symm Bool.false_ne_true
  | ok d'' s'' es =>
    have hentry := clearpteu_ends.of_ok hclear
    refine ⟨d'', s'', ?_, ?_⟩
    · unfold stackPages
      exact halloc.bind (Gives.bind ⟨es, hclear⟩ ⟨[], rfl⟩)
    · intro a ha
      rw [userAt_iff, ha, hentry, update_of_ne (by decide)]
      exact huser 1 (by decide)

theorem prepare_bareProgram (hnodup : s.freelist.Nodup) (hfree : 68 ≤ s.freelist.length) :
    ∃ d s', Gives (prepare im bareProgram []) s
      (some (d, some (0x2000, 0))) s' ∧ ∀ a : Word, a.toNat / PGSIZE = 1 → userAt d a = true := by
  have hends : Ends (setupkvm im) s _ _ := setupkvm_ends
  cases hrun : setupkvm im s with
  | halt why es => exact (hends.of_halt hrun).elim
  | ok r s₁ es =>
    obtain ⟨-, -, hempty, -⟩ | ⟨d, rfl, -, hbare, hcount, hmarks⟩ | ⟨d, -, -, hless, -⟩ :=
      hends.of_ok hrun
    · rw [hempty, List.length_nil] at hfree
      omega
    · have hnodup₁ : s₁.freelist.Nodup := by
        rw [List.nodup_iff_count_le_one] at hnodup ⊢
        intro p
        have hp := congrFun hmarks p
        have hheld : 0 ≤ held d p := held_nonneg d p
        have hold := hnodup p
        rw [Pi.add_apply, marks_apply, marks_apply] at hp
        omega
      obtain ⟨d', s', hstack, huser⟩ := stackPages_bare hbare hnodup₁ (by omega)
      exact ⟨d', s', Gives.bind ⟨es, hrun⟩ (Gives.bind ⟨[], rfl⟩ (hstack.bind ⟨[], rfl⟩)), huser⟩
    · omega

/-- The arguments "ls" and "a". -/
def lsArgs : List (List UInt8) := [[108, 115], [97]]

theorem passArgs_lsArgs (huser : ∀ a : Word, a.toNat / PGSIZE = 1 →
    userAt d a = true) : ∃ image s', Gives (passArgs lsArgs 0 d 0x2000) s (some image) s' := by
  have hfirst : ∀ i < 3, ((0x1FFC : Word) + BitVec.ofNat 32 i).toNat / PGSIZE = 1 := by decide
  have hsecond : ∀ i < 2, ((0x1FF8 : Word) + BitVec.ofNat 32 i).toNat / PGSIZE = 1 := by decide
  have hframe : ∀ i < 24, ((0x1FE0 : Word) + BitVec.ofNat 32 i).toNat / PGSIZE = 1 := by decide
  obtain ⟨s₁, hpush₁⟩ : ∃ s₁, Gives (copyout d 0x1FFC [108, 115, 0]) s true s₁ :=
    copyout_succeeds fun i hi => huser _ (hfirst i hi)
  obtain ⟨s₂, hpush₂⟩ : ∃ s₂, Gives (copyout d 0x1FF8 [97, 0]) s₁ true s₂ :=
    copyout_succeeds fun i hi => huser _ (hsecond i hi)
  obtain ⟨s₃, hend⟩ : ∃ s₃, Gives (copyout d 0x1FE0 (argFrame 0x1FE0 [0x1FFC, 0x1FF8])) s₂ true s₃ :=
    copyout_succeeds fun i hi => huser _ (hframe i hi)
  have hpush : Gives (pushArgs d lsArgs 0 0x2000 []) s (some (0x1FF8, [0x1FFC, 0x1FF8])) s₂ :=
    hpush₁.bind (hpush₂.bind ⟨[], rfl⟩)
  exact ⟨_, s₃, hpush.bind (hend.bind ⟨[], rfl⟩)⟩

theorem freevm_returns (h : Owned im d) : ∃ s', Gives (freevm im d) s () s' := by
  have hends := (freevm_moves (E := False) (h := 0) fun hno => hno h).ends s
  cases hrun : freevm im d s with
  | halt why es => exact (hends.of_halt hrun).elim
  | ok _ s' es => exact ⟨s', es, hrun⟩

theorem owned_emptyDir {p : Nat} (hp : im.Physical p) : Owned im (emptyDir p) := by
  intro q hq
  rw [held_emptyDir, mark_apply] at hq
  split_ifs at hq with heq
  · rwa [← Option.some.inj heq]
  · exact absurd hq (lt_irrefl 0)

/-- They are passed to a program without segments. -/
theorem exec_passes_lsArgs : ∃ image s' s₀ ptrs,
    Gives (exec sampleLayout bareProgram [] lsArgs (emptyDir 0x300)) seventyPages (some image)
      s' ∧ Passed image lsArgs ptrs s₀ s' := by
  have hlen : 68 ≤ seventyPages.freelist.length := by
    rw [show seventyPages.freelist.length = 70 from List.length_range']
    decide
  obtain ⟨d, s₀, hprep, huser⟩ := prepare_bareProgram (List.nodup_range' ..) hlen
  obtain ⟨image, s₁, hpass⟩ := passArgs_lsArgs (s := s₀) huser
  obtain ⟨s', hfree⟩ := freevm_returns (s := s₁) (owned_emptyDir (p := 0x300) (by decide))
  have hrun : Gives (exec sampleLayout bareProgram [] lsArgs (emptyDir 0x300)) seventyPages
      (some image) s' := by
    rw [exec_eq]
    exact hprep.bind (hpass.bind (hfree.bind ⟨[], rfl⟩))
  obtain ⟨s₀, ptrs, -, hpassed⟩ := exec_passes_arguments sole_seventyPages hrun
  exact ⟨image, s', s₀, ptrs, hrun, hpassed⟩

end Xv6.Vm
