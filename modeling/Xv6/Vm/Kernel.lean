import Xv6.Vm.Balance

/-!
# The kernel's part of an address space

`setupkvm` enters the same pages in every directory. They follow one another, so none is entered
twice, and they take 64 page tables.
-/

namespace Xv6.Vm

open Lib Act Finset

variable {im : Layout}

/-- Virtual page `q` is one of the kernel's. -/
def KernelPage (q : Nat) : Prop := 0x80000 ≤ q ∧ q < 0x8E000 ∨ 0xFE000 ≤ q ∧ q < 0x100000

/-- Page table `i` is one of the kernel's. -/
def KernelTable (i : Nat) : Prop := 0x200 ≤ i ∧ i < 0x238 ∨ 0x3F8 ≤ i ∧ i < 0x400

instance : DecidablePred KernelTable := fun i => by unfold KernelTable; infer_instance

theorem kernelTable_iff (i : Nat) : KernelTable i ↔ ∃ q, KernelPage q ∧ q / NPTENTRIES = i := by
  simp only [KernelTable, KernelPage, NPTENTRIES]
  constructor
  · intro h
    exact ⟨1024 * i, by omega, by omega⟩
  · rintro ⟨q, h, rfl⟩
    omega

/-! ## `kmap` -/

/-- What `setupkvm` needs to know of an entry of `kmap` for `n` pages from page `g` on. -/
structure KmapCovers (m : Kmap) (r : Nat × Nat) : Prop extends
    Covers m.virt (m.physEnd - m.physStart) r.1 r.2 where
  aligned : ∃ p, m.physStart = pageAddr p
  kernel : m.perm.getLsbD 2 = false

/-- The pages that the entries of `kmap` are for: the first and how many. -/
def kmapPages (im : Layout) : List (Nat × Nat) :=
  [(0x80000, 0x100), (0x80100, im.data / PGSIZE - 0x100),
    (0x80000 + im.data / PGSIZE, 0xE000 - im.data / PGSIZE), (0xFE000, 0x2000)]

theorem Layout.data_eq (im : Layout) :
    ∃ n, im.data = PGSIZE * n ∧ im.data / PGSIZE = n ∧ 0x100 < n ∧ n < 0xE000 := by
  have habove := im.above
  have hbelow := im.below
  have hdiv : im.data = PGSIZE * (im.data / PGSIZE) :=
    (Nat.mul_div_cancel' (Nat.dvd_of_mod_eq_zero im.aligned)).symm
  refine ⟨im.data / PGSIZE, hdiv, rfl, ?_, ?_⟩
  · simp only [PGSIZE, EXTMEM] at *
    omega
  · simp only [PGSIZE, PHYSTOP] at *
    omega

theorem kmap_covers (im : Layout) : List.Forall₂ KmapCovers (kmap im) (kmapPages im) := by
  obtain ⟨n, hn, hdiv, hlow, hhigh⟩ := im.data_eq
  have hsize : ∀ {x y : Nat}, y ≤ x → PGSIZE * x < 2 ^ 32 →
      (BitVec.ofNat 32 (PGSIZE * x) - BitVec.ofNat 32 (PGSIZE * y)).toNat = PGSIZE * (x - y) := by
    intro x y hle hlt
    have hmul : PGSIZE * y ≤ PGSIZE * x := Nat.mul_le_mul_left _ hle
    rw [BitVec.ofNat_sub_ofNat_of_le _ _ (lt_of_le_of_lt hmul hlt) hmul, ← Nat.mul_sub,
      BitVec.toNat_ofNat]
    exact Nat.mod_eq_of_lt (lt_of_le_of_lt (Nat.mul_le_mul_left _ (Nat.sub_le ..)) hlt)
  have hsmall : PGSIZE * n < 2 ^ 32 := by
    simp only [PGSIZE]
    omega
  rw [kmap, kmapPages, hdiv, hn, show KERNLINK - KERNBASE = PGSIZE * 0x100 from rfl,
    show PHYSTOP = PGSIZE * 0xE000 from rfl]
  refine .cons ?_ (.cons ?_ (.cons ?_ (.cons ?_ .nil)))
  · exact ⟨⟨rfl, rfl, by decide, by decide⟩, ⟨0, rfl⟩, by decide⟩
  · refine ⟨⟨?_, ?_, by simp only; omega, by simp only; omega⟩, ⟨0x100, rfl⟩, ?_⟩
    · exact congrArg (BitVec.ofNat 32) (by decide : KERNLINK = PGSIZE * 0x80100)
    · exact hsize hlow.le hsmall
    · simp
  · refine ⟨⟨?_, ?_, by simp only; omega, by simp only; omega⟩, ⟨n, rfl⟩, ?_⟩
    · change BitVec.ofNat 32 (KERNBASE + PGSIZE * n) = BitVec.ofNat 32 (PGSIZE * (0x80000 + n))
      rw [Nat.mul_add, show PGSIZE * 0x80000 = KERNBASE from rfl]
    · exact hsize hhigh.le (by decide)
    · simp [PTE_W]
  · exact ⟨⟨rfl, rfl, by decide, by decide⟩, ⟨0xFE000, rfl⟩, by decide⟩

/-! ## `setupkvm` -/

/-- Pages of the kernel are entered in `d`, and the pages of new page tables come from the free
list. -/
structure Sets (s : Kmem im) (d : Pgdir) (P : Nat → Prop) (s' : Kmem im) (d' : Pgdir) : Prop where
  page : d'.page = d.page
  same : ∀ q, ¬ P q → d'.entry q = d.entry q
  mapped : ∀ q, P q → present (d'.entry q) = true ∧ user (d'.entry q) = false
  table : ∀ i, (d'.pde i).isSome ↔ (d.pde i).isSome ∨ ∃ q, P q ∧ q / NPTENTRIES = i
  count : s.freelist.length + d.tableCount = s'.freelist.length + d'.tableCount
  balance : marks s.freelist + held d = marks s'.freelist + held d'

namespace Sets

variable {s s' s'' : Kmem im} {d d' d'' : Pgdir} {P R : Nat → Prop}

theorem refl (s : Kmem im) (d : Pgdir) : Sets s d (fun _ => False) s d where
  page := rfl
  same := fun _ _ => rfl
  mapped := fun _ hq => hq.elim
  table := by simp
  count := rfl
  balance := rfl

theorem trans (h : Sets s d P s' d') (h' : Sets s' d' R s'' d'') :
    Sets s d (fun q => P q ∨ R q) s'' d'' where
  page := h'.page.trans h.page
  same := by
    intro q hq
    rw [h'.same q fun hr => hq (.inr hr), h.same q fun hp => hq (.inl hp)]
  mapped := by
    intro q hq
    by_cases hr : R q
    · exact h'.mapped q hr
    · rw [h'.same q hr]
      exact h.mapped q (hq.resolve_right hr)
  table := by
    intro i
    rw [h'.table i, h.table i, or_assoc, ← exists_or]
    simp only [or_and_right]
  count := h.count.trans h'.count
  balance := h.balance.trans h'.balance

theorem congr (h : Sets s d P s' d') (hiff : ∀ q, P q ↔ R q) : Sets s d R s' d' :=
  (funext fun q => propext (hiff q) : P = R) ▸ h

end Sets

/-- The entries that `setupkvm` makes are not the user's. -/
theorem user_pteWord {p : Nat} {perm : Word} (hperm : perm.getLsbD 2 = false) (k : Nat) :
    user (pteWord (pageAddr p) perm k) = false := by
  have hsum : pageAddr p + BitVec.ofNat 32 (PGSIZE * k) = BitVec.ofNat 32 (PGSIZE * (p + k)) := by
    rw [pageAddr, ← BitVec.ofNat_add, Nat.mul_add]
  have hbit : (BitVec.ofNat 32 (PGSIZE * (p + k))).getLsbD 2 = false := by
    rw [BitVec.getLsbD_ofNat, show PGSIZE * (p + k) = 2 ^ 12 * (p + k) from rfl,
      Nat.testBit_two_pow_mul]
    rfl
  rw [pteWord, user_or, hsum, hbit, hperm]
  rfl

/-- A part of a range of the kernel is entered. -/
theorem Enters.sets {s s' : Kmem im} {d d' : Pgdir} {g m : Nat} {k : Kmap}
    (h : Enters s d g m (pteWord k.physStart k.perm) s' d') (hg : KERNBASE / PGSIZE ≤ g)
    (halign : ∃ p, k.physStart = pageAddr p) (hperm : k.perm.getLsbD 2 = false) :
    Sets s d (fun q => g ≤ q ∧ q < g + m) s' d' where
  page := h.page
  same := by
    intro q hq
    rw [h.entry q, if_neg hq]
  mapped := by
    intro q hq
    obtain ⟨p, hp⟩ := halign
    rw [h.entry q, if_pos hq, hp]
    exact ⟨present_or _ _, user_pteWord hperm _⟩
  table := by
    intro i
    rw [h.table i]
    simp only [and_assoc]
  count := h.count
  balance := by
    have hzero : ∑ j ∈ Finset.range m, share (g + j) (pteWord k.physStart k.perm j) = 0 :=
      sum_eq_zero fun j _ => share_kernel _ (le_trans hg (Nat.le_add_right g j))
    rw [← h.balance, hzero, add_zero]

/-- Page `q` is in one of the ranges. -/
def InRanges (rs : List (Nat × Nat)) (q : Nat) : Prop := ∃ r ∈ rs, r.1 ≤ q ∧ q < r.1 + r.2

/-- The ranges follow one another from page `g` on. -/
def Ascending : Nat → List (Nat × Nat) → Prop
  | _, [] => True
  | g, r :: rs => g ≤ r.1 ∧ Ascending (r.1 + r.2) rs

/-- How `setupkvmLoop` ends: everything is entered, or a page table could not be had. -/
def SetupResult (s : Kmem im) (d : Pgdir) (P : Nat → Prop) (r : Option Pgdir) (s' : Kmem im)
    (es : List VmEvent) : Prop :=
  (∃ d', r = some d' ∧ es = [] ∧ Sets s d P s' d') ∨
  ∃ d' R, r = none ∧ es = [.tableFail] ∧ Sets s d R s' d' ∧ (∀ q, R q → P q) ∧
    s'.freelist = [] ∧ ∃ q, P q ∧ d'.pde (q / NPTENTRIES) = none

theorem setupkvmLoop_ends {ms : List Kmap} {rs : List (Nat × Nat)}
    (hc : List.Forall₂ KmapCovers ms rs) : ∀ {g : Nat} {d : Pgdir} {s : Kmem im},
    KERNBASE / PGSIZE ≤ g → Ascending g rs → (∀ q, g ≤ q → present (d.entry q) = false) →
    Ends (setupkvmLoop ms d) s (SetupResult s d (InRanges rs)) fun _ => False := by
  induction hc with
  | nil =>
    intro g d s _ _ _
    refine ends_pure (.inl ⟨d, rfl, rfl, (Sets.refl s d).congr ?_⟩)
    simp [InRanges]
  | @cons m r ms rs hm hms ih =>
    intro g d s hg hasc habsent
    obtain ⟨hle, hasc⟩ := hasc
    have hkernel : KERNBASE / PGSIZE ≤ r.1 := le_trans hg hle
    have hfirst : ∀ q, r.1 ≤ q ∧ q < r.1 + r.2 → InRanges (r :: rs) q :=
      fun q hq => ⟨r, List.mem_cons_self .., hq⟩
    have hrest : ∀ q, InRanges rs q → InRanges (r :: rs) q := by
      rintro q ⟨r', hr', hq⟩
      exact ⟨r', List.mem_cons_of_mem _ hr', hq⟩
    rw [setupkvmLoop]
    refine Ends.bind (Ends.weaken (mappages_ends hm.toCovers) ?_) ?_
    · rintro why ⟨-, q, hq, -, hpres⟩
      rw [habsent q (le_trans hle hq)] at hpres
      exact Bool.false_ne_true hpres
    · rintro ⟨d', ok⟩ s' es (⟨hok, rfl, henters⟩ | ⟨n, hn, hok, rfl, henters, hf, hnone⟩)
      · have hsets := henters.sets hkernel hm.aligned hm.kernel
        obtain rfl : ok = true := hok
        simp only [if_true]
        refine Ends.mono (ih (le_trans hkernel (Nat.le_add_right ..)) hasc ?_) ?_
        · intro q hq
          rw [hsets.same q (by omega)]
          exact habsent q (by omega)
        · rintro x s'' fs (⟨d'', rfl, rfl, hsets'⟩ | ⟨d'', R, rfl, rfl, hsets', hsub, hf, q, hq, hnone⟩)
          · refine .inl ⟨d'', rfl, rfl, (hsets.trans hsets').congr ?_⟩
            intro q
            simp [InRanges]
          · refine .inr ⟨d'', _, rfl, rfl, hsets.trans hsets', ?_, hf, q, hrest q hq, hnone⟩
            intro x hx
            exact hx.elim (hfirst x) fun hx => hrest x (hsub x hx)
      · obtain rfl : ok = false := hok
        have hsets := henters.sets hkernel hm.aligned hm.kernel
        refine ends_pure (.inr ⟨d', _, rfl, rfl, hsets, ?_, hf, r.1 + n, ?_, hnone⟩)
        · intro q hq
          exact hfirst q ⟨hq.1, by omega⟩
        · exact hfirst _ ⟨by omega, by omega⟩

/-- What `setupkvm` makes: nothing is mapped for the user, and the kernel's pages are not the
user's. -/
structure Bare (d : Pgdir) : Prop where
  empty : ∀ q, q < KERNBASE / PGSIZE → d.entry q = 0
  kernel : ∀ q, KERNBASE / PGSIZE ≤ q → user (d.entry q) = false
  first : present (d.entry (KERNBASE / PGSIZE)) = true
  table : ∀ i, (d.pde i).isSome ↔ KernelTable i

/-- How many page tables the kernel has. -/
theorem card_kernelTable :
    ((Finset.range NPDENTRIES).filter fun i => KernelTable i).card = 64 := by decide +kernel

theorem inRanges_kmapPages (im : Layout) (q : Nat) : InRanges (kmapPages im) q ↔ KernelPage q := by
  obtain ⟨n, -, hdiv, hlow, hhigh⟩ := im.data_eq
  simp only [InRanges, kmapPages, hdiv, KernelPage, List.mem_cons, List.not_mem_nil, or_false,
    exists_eq_or_imp, exists_eq_left]
  omega

theorem ascending_kmapPages (im : Layout) : Ascending (KERNBASE / PGSIZE) (kmapPages im) := by
  obtain ⟨n, -, hdiv, hlow, hhigh⟩ := im.data_eq
  simp only [Ascending, kmapPages, hdiv]
  simp only [KERNBASE, PGSIZE, and_true]
  omega

/-- A directory without page tables. -/
def emptyDir (p : Nat) : Pgdir := { page := p, pde := fun _ => none }

@[simp] theorem entry_emptyDir (p q : Nat) : (emptyDir p).entry q = 0 := rfl

theorem held_emptyDir (p : Nat) : held (emptyDir p) = mark (some p) := by
  have htables : tables (emptyDir p) = 0 := sum_eq_zero fun _ _ => rfl
  have hframes : frames (emptyDir p) = 0 :=
    sum_eq_zero fun _ _ => by simp [frameMark]
  rw [held, htables, hframes, add_zero, add_zero]
  rfl

theorem tableCount_emptyDir (p : Nat) : (emptyDir p).tableCount = 0 := by
  simp [Pgdir.tableCount, emptyDir]

section

variable {s s' : Kmem im} {d : Pgdir} {p : Nat} {P : Nat → Prop}

theorem Sets.tableCount_lt (h : Sets s (emptyDir p) P s' d) (hsub : ∀ q, P q → KernelPage q)
    {q : Nat} (hq : KernelPage q) (hnone : d.pde (q / NPTENTRIES) = none) : d.tableCount < 64 := by
  rw [← card_kernelTable, Pgdir.tableCount]
  apply card_lt_card
  rw [ssubset_iff]
  have hin : KernelTable (q / NPTENTRIES) := (kernelTable_iff _).mpr ⟨q, hq, rfl⟩
  have hlt : q / NPTENTRIES < NPDENTRIES := by
    simp only [KernelTable, NPDENTRIES] at *
    omega
  refine ⟨q / NPTENTRIES, by simp [hnone], ?_⟩
  intro i hi
  rw [mem_insert, mem_filter] at hi
  rw [mem_filter, mem_range]
  rcases hi with rfl | ⟨hi, hsome⟩
  · exact ⟨hlt, hin⟩
  · rcases (h.table i).mp hsome with hsome | ⟨x, hx, rfl⟩
    · exact absurd hsome (by simp [emptyDir])
    · exact ⟨mem_range.mp hi, (kernelTable_iff _).mpr ⟨x, hsub x hx, rfl⟩⟩

theorem Sets.bare (h : Sets s (emptyDir p) KernelPage s' d) : Bare d where
  empty := by
    intro q hq
    rw [h.same q (by simp only [KernelPage, KERNBASE, PGSIZE] at *; omega)]
    rfl
  kernel := by
    intro q _
    by_cases hq : KernelPage q
    · exact (h.mapped q hq).2
    · rw [h.same q hq]
      exact user_zero
  first := (h.mapped _ (.inl ⟨le_rfl, by decide⟩)).1
  table := by
    intro i
    rw [h.table i, kernelTable_iff]
    simp [emptyDir]

theorem Bare.tableCount (h : Bare d) : d.tableCount = 64 := by
  rw [← card_kernelTable, Pgdir.tableCount]
  simp only [h.table]

end

/-- `setupkvm` needs 65 pages. With fewer it loses what it has got. -/
theorem setupkvm_ends {s : Kmem im} : Ends (setupkvm im) s (fun r s' es =>
    (r = none ∧ es = [] ∧ s.freelist = [] ∧ s = s') ∨
    (∃ d, r = some d ∧ es = [] ∧ Bare d ∧ s.freelist.length = s'.freelist.length + 65 ∧
      marks s.freelist = marks s'.freelist + held d) ∨
    ∃ d, r = none ∧ es = [.tableFail] ∧ (0 < s.freelist.length ∧ s.freelist.length < 65) ∧
      marks s.freelist = marks s'.freelist + held d) fun _ => False := by
  unfold setupkvm
  apply Does.bind kalloc_does
  rintro r s' _ ⟨rfl, ⟨rfl, hf, rfl⟩ | ⟨p, rfl, hf, -⟩⟩
  · exact .inl ⟨rfl, rfl, hf, rfl⟩
  · have hstart : marks s.freelist = marks s'.freelist + held (emptyDir p) := by
      rw [hf, marks_cons, held_emptyDir, add_comm]
    have habsent : ∀ q, KERNBASE / PGSIZE ≤ q → present ((emptyDir p).entry q) = false := by
      simp
    have hlen : s.freelist.length = s'.freelist.length + 1 := by rw [hf, List.length_cons]
    simp only [show ¬ DEVSPACE < KERNBASE + PHYSTOP by decide, if_false]
    change Ends (setupkvmLoop (kmap im) (emptyDir p)) s' _ _
    apply Ends.mono (setupkvmLoop_ends (kmap_covers im) le_rfl (ascending_kmapPages im) habsent)
    rintro r s'' es (⟨d, rfl, rfl, hsets⟩ | ⟨d, R, rfl, rfl, hsets, hsub, hfree, q, hq, hnone⟩)
    · have hbare := (hsets.congr (inRanges_kmapPages im)).bare
      have hcount := hsets.count
      rw [tableCount_emptyDir, hbare.tableCount] at hcount
      exact .inr (.inl ⟨d, rfl, rfl, hbare, by omega, hstart.trans hsets.balance⟩)
    · have hlt := hsets.tableCount_lt (fun x hx => (inRanges_kmapPages im x).mp (hsub x hx))
        ((inRanges_kmapPages im q).mp hq) hnone
      have hcount := hsets.count
      rw [tableCount_emptyDir, hfree, List.length_nil] at hcount
      exact .inr (.inr ⟨d, rfl, rfl, ⟨by omega, by omega⟩, hstart.trans hsets.balance⟩)

/-- The pages of a new directory come into hand, or are lost. -/
theorem setupkvm_moves {h : Nat → Int} {E : Prop} : Moves (setupkvm im) h (fun r h' =>
    (r = none ∧ h = h') ∨ ∃ d, r = some d ∧ Bare d ∧ held d + h = h') E := by
  constructor
  intro s
  refine Ends.weaken (Ends.mono setupkvm_ends ?_) fun _ => False.elim
  rintro r s' es (⟨rfl, rfl, -, rfl⟩ | ⟨d, rfl, rfl, hbare, -, heq⟩ | ⟨d, rfl, rfl, -, heq⟩)
  · exact ⟨h, .refl s h, .inl ⟨rfl, rfl⟩⟩
  · refine ⟨_, .of_eq List.not_mem_nil ?_, .inr ⟨d, rfl, hbare, rfl⟩⟩
    rw [heq]
    abel
  · refine ⟨h, .drop (held_nonneg d) (held_ne_zero d) (List.mem_singleton_self _) ?_, .inl ⟨rfl, rfl⟩⟩
    rw [heq]
    abel

end Xv6.Vm
