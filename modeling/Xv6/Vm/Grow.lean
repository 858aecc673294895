import Xv6.Vm.Mappages
import Xv6.Vm.Sweep

/-!
# What allocuvm maps

`allocuvm` takes a page, and `mappages` may take another for the page table. When there is none for
the page table the first page is lost, since the result of `mappages` is not looked at: `allocuvm`
goes on, and fails at the next page, or does not fail at all if there is no next page.
-/

namespace Xv6.Vm

open Lib Act Finset

variable {im : Layout}

/-! ## One page -/

/-- The entry of a user's page. -/
def userPte (p : Nat) : Word := pageAddr p ||| (PTE_W ||| PTE_U) ||| PTE_P

/-- `pte & PTE_W`. -/
def writable (pte : Word) : Bool := pte.getLsbD 1

theorem present_userPte (p : Nat) : present (userPte p) = true := present_or ..

theorem user_userPte (p : Nat) : user (userPte p) = true := by
  rw [userPte, user_or]
  exact Bool.or_true _

theorem writable_userPte (p : Nat) : writable (userPte p) = true := by
  simp [writable, userPte, PTE_W, PTE_U, PTE_P]

variable {p g m : Nat} {d d' : Pgdir} {s : Kmem im}

theorem Layout.Physical.lt (h : im.Physical p) : p < 2 ^ 20 := by
  have hlt := h.2
  simp only [PGSIZE, PHYSTOP] at hlt
  omega

theorem PTE_ADDR_userPte (h : im.Physical p) : PTE_ADDR (userPte p) = p :=
  PTE_ADDR_or h.lt (by decide)

/-- Entering a page takes at most one page and leaves what is in memory. -/
theorem mapEntry_takes {va e : Word} : Ends (mapEntry d va e) s
    (fun _ s' _ => s'.mem = s.mem ∧ s'.freelist <:+ s.freelist) fun _ => True := by
  refine Does.mono mapEntry_does ?_ fun _ _ _ => trivial
  rintro r s' es (⟨-, -, -, rfl, -⟩ | ⟨-, -, -, -, rfl, -⟩ | ⟨p, -, hf, hmem, -⟩)
  · exact ⟨rfl, List.suffix_refl _⟩
  · exact ⟨rfl, List.suffix_refl _⟩
  · rw [hf]
    exact ⟨hmem.symm, List.suffix_cons ..⟩

theorem mappages_page_eq {pa perm : Word} (hg : g < 2 ^ 20) :
    (mappages d (pageAddr g) (BitVec.ofNat 32 PGSIZE) pa perm : V im (Pgdir × Bool)) =
      mapEach d [(pageAddr g, pa ||| perm ||| PTE_P)] := by
  rw [mappages_eq (covers_page hg), Nat.add_sub_cancel]
  exact (mappagesLoop_eq_mapEach 0 (by decide) (by decide)).trans (by rw [plan_succ]; rfl)

/-- A page is entered, or there is no page for its table. -/
theorem mappages_page_ends {perm : Word} (hg : g < 2 ^ 20) :
    Ends (mappages d (pageAddr g) (BitVec.ofNat 32 PGSIZE) (pageAddr p) perm) s
      (fun r s' es => s'.mem = s.mem ∧ s'.freelist <:+ s.freelist ∧
        ((r = (d, false) ∧ s = s' ∧ es = [.tableFail] ∧ s.freelist = [] ∧
            d.pde (g / NPTENTRIES) = none) ∨
          ∃ d', r = (d', true) ∧ es = [] ∧
            Enters s d g 1 (fun _ => pageAddr p ||| perm ||| PTE_P) s' d'))
      fun why => why = .panic "remap" ∧ present (d.entry g) = true := by
  rw [mappages_page_eq hg, mapEach]
  apply Ends.bind (((mapEntry_ends hg).and mapEntry_takes))
  rintro r s' es ⟨hr, hmem, hsuf⟩
  obtain ⟨rfl, rfl, rfl, hfree, hnone⟩ | ⟨d', rfl, rfl, henters⟩ := hr
  · exact ⟨hmem, hsuf, .inl ⟨rfl, rfl, rfl, hfree, hnone⟩⟩
  · exact ⟨hmem, hsuf, .inr ⟨d', rfl, rfl, henters⟩⟩

/-! ## Pages one after the other -/

/-- Page `p` comes from the free list, is filled with zeros and entered as page `g`. -/
structure OnePage (s : Kmem im) (d : Pgdir) (g p : Nat) (s' : Kmem im) (d' : Pgdir) : Prop where
  entered : d.Entered d' g 1 fun _ => userPte p
  absent : present (d.entry g) = false
  physical : im.Physical p
  count : s.freelist.length + d.tableCount = s'.freelist.length + d'.tableCount + 1
  sub : (p :: s'.freelist).Sublist s.freelist
  zero : s'.mem p = Bytes.zero PGSIZE
  mem : ∀ q, q ≠ p → s'.mem q = s.mem q

/-- The pages `ps` are entered from page `g` on: they come from the free list and are filled with
zeros. -/
structure Grown (s : Kmem im) (d : Pgdir) (g : Nat) (ps : List Nat) (s' : Kmem im) (d' : Pgdir) :
    Prop where
  entered : d.Entered d' g ps.length fun k => userPte (ps.getD k 0)
  absent : ∀ q, g ≤ q → q < g + ps.length → present (d.entry q) = false
  physical : ∀ p ∈ ps, im.Physical p
  count : s.freelist.length + d.tableCount = s'.freelist.length + d'.tableCount + ps.length
  sub : (ps ++ s'.freelist).Sublist s.freelist
  zero : ∀ p ∈ ps, s'.mem p = Bytes.zero PGSIZE
  mem : ∀ p, p ∉ ps → s'.mem p = s.mem p

namespace Grown

variable {s s₁ s' : Kmem im} {d d₁ d' : Pgdir} {g p : Nat} {ps : List Nat}

theorem refl (s : Kmem im) (d : Pgdir) (g : Nat) : Grown s d g [] s d where
  entered := .refl d g _
  absent := fun _ hle hlt => absurd hle (not_le.mpr hlt)
  physical := fun _ hp => absurd hp List.not_mem_nil
  count := (Nat.add_zero _).symm
  sub := List.Sublist.refl _
  zero := fun _ hp => absurd hp List.not_mem_nil
  mem := fun _ _ => rfl

theorem cons (hone : OnePage s d g p s₁ d₁)
    (h : Grown s₁ d₁ (g + 1) ps s' d') : Grown s d g (p :: ps) s' d' where
  entered := by
    have hcons := hone.entered.cons h.entered
    have hw : (fun k => if k = 0 then userPte p else userPte (ps.getD (k - 1) 0)) =
        fun k => userPte ((p :: ps).getD k 0) := by
      funext k
      cases k with
      | zero => rfl
      | succ k => rfl
    rw [hw] at hcons
    exact hcons
  absent := by
    intro q hle hlt
    by_cases hq : q = g
    · rw [hq]
      exact hone.absent
    · rw [List.length_cons] at hlt
      have hrest := h.absent q (by omega) (by omega)
      rwa [hone.entered.entry q, if_neg (by omega)] at hrest
  physical := List.forall_mem_cons.mpr ⟨hone.physical, h.physical⟩
  count := by
    have hfirst := hone.count
    have hrest := h.count
    rw [List.length_cons]
    omega
  sub := (h.sub.cons_cons p).trans hone.sub
  zero := by
    intro q hq
    by_cases hmemq : q ∈ ps
    · exact h.zero q hmemq
    · obtain rfl | hq := List.mem_cons.mp hq
      · rw [h.mem q hmemq, hone.zero]
      · exact absurd hq hmemq
  mem := by
    intro q hq
    rw [List.mem_cons, not_or] at hq
    rw [h.mem q hq.2, hone.mem q hq.1]

end Grown

/-! ## The loop -/

/-- How the loop over `n` pages from `g` on ends: all of them are entered, or there is no more
memory, or a page is lost for want of a page table. -/
inductive GrowResult (s : Kmem im) (d : Pgdir) (g n : Nat) :
    Pgdir × Bool → Kmem im → List VmEvent → Prop where
  | done {ps : List Nat} {s' : Kmem im} {d' : Pgdir} (h : Grown s d g ps s' d')
      (hlen : ps.length = n) : GrowResult s d g n (d', true) s' (ps.map .taken)
  | out {ps : List Nat} {s' : Kmem im} {d' : Pgdir} (h : Grown s d g ps s' d')
      (hlen : ps.length < n) (hfree : s'.freelist = []) :
      GrowResult s d g n (d', false) s' (ps.map .taken)
  | lost {ps : List Nat} {s₁ s' : Kmem im} {d' : Pgdir} {p : Nat} (h : Grown s d g ps s₁ d')
      (hlen : ps.length < n) (hfree₁ : s₁.freelist = [p])
      (hnone : d'.pde ((g + ps.length) / NPTENTRIES) = none) (hfree : s'.freelist = []) :
      GrowResult s d g n (d', decide (ps.length + 1 = n)) s'
        (ps.map .taken ++ [.taken p, .tableFail])

/-- The loop stops at a page that is mapped already. -/
def Remaps (s : Kmem im) (d : Pgdir) (g n : Nat) : Prop :=
  ∃ ps s' d', Grown s d g ps s' d' ∧ ps.length < n ∧ s'.freelist ≠ [] ∧
    present (d.entry (g + ps.length)) = true

section

variable {s s₁ s' : Kmem im} {d d₁ : Pgdir} {g p n : Nat} {r : Pgdir × Bool} {es : List VmEvent}

theorem GrowResult.cons (hone : OnePage s d g p s₁ d₁)
    (h : GrowResult s₁ d₁ (g + 1) n r s' es) :
    GrowResult s d g (n + 1) r s' (.taken p :: es) := by
  cases h with
  | done h hlen =>
    exact .done (h.cons hone) (congrArg Nat.succ hlen)
  | out h hlen hfree =>
    exact .out (h.cons hone) (Nat.succ_lt_succ hlen) hfree
  | @lost ps s₁ s' d' q h hlen hfree₁ hnone hfree =>
    have hcons := h.cons hone
    have hnone' : d'.pde ((g + (p :: ps).length) / NPTENTRIES) = none := by
      rw [List.length_cons, show g + (ps.length + 1) = g + 1 + ps.length by omega]
      exact hnone
    have hflag : decide ((p :: ps).length + 1 = n + 1) = decide (ps.length + 1 = n) := by
      rw [List.length_cons]
      simp
    have hlost := GrowResult.lost (n := n + 1) hcons (Nat.succ_lt_succ hlen) hfree₁ hnone' hfree
    rwa [hflag] at hlost

theorem Remaps.cons (hone : OnePage s d g p s₁ d₁) (h : Remaps s₁ d₁ (g + 1) n) :
    Remaps s d g (n + 1) := by
  obtain ⟨ps, s', d', hgrown, hlen, hfree, hpres⟩ := h
  refine ⟨p :: ps, s', d', hgrown.cons hone, Nat.succ_lt_succ hlen,
    hfree, ?_⟩
  rw [hone.entered.entry, if_neg (by omega)] at hpres
  rw [List.length_cons, show g + (ps.length + 1) = g + 1 + ps.length by omega]
  exact hpres

theorem allocuvmLoop_empty {newsz : Word} {turns : Nat} {E : Halt → Prop} (hg : g < 2 ^ 20)
    (hturns : pages newsz ≤ g + turns) (hfree : s.freelist = []) :
    Ends (allocuvmLoop turns d (pageAddr g) newsz) s
      (fun r s' es => r = (d, decide (pages newsz ≤ g)) ∧ s = s' ∧ es = []) E := by
  have hdone : pages newsz ≤ g → (d, true) = (d, decide (pages newsz ≤ g)) := by
    intro hle
    rw [decide_eq_true hle]
  cases turns with
  | zero => exact ends_pure ⟨hdone hturns, rfl, rfl⟩
  | succ turns =>
    rw [allocuvmLoop]
    refine ends_ite ?_ ?_
    · intro hlt
      rw [pageAddr_lt_iff hg, ← lt_pages_iff] at hlt
      apply Ends.bind kalloc_does
      rintro r s₀ _ ⟨rfl, ⟨rfl, -, rfl⟩ | ⟨p, -, hcons, -⟩⟩
      · exact ends_pure ⟨by rw [decide_eq_false (not_le.mpr hlt)], rfl, rfl⟩
      · rw [hfree] at hcons
        exact absurd hcons.symm (List.cons_ne_nil _ _)
    · intro hlt
      rw [pageAddr_lt_iff hg, ← lt_pages_iff] at hlt
      exact ends_pure ⟨hdone (not_lt.mp hlt), rfl, rfl⟩

theorem allocuvmLoop_ends {newsz : Word} (hsz : newsz.toNat ≤ KERNBASE) (turns : Nat) :
    ∀ {d : Pgdir} {g : Nat} {s : Kmem im}, g < 2 ^ 20 → pages newsz ≤ g + turns →
    Ends (allocuvmLoop turns d (pageAddr g) newsz) s (GrowResult s d g (pages newsz - g))
      fun why => why = .panic "remap" ∧ Remaps s d g (pages newsz - g) := by
  induction turns with
  | zero =>
    intro d g s _ hturns
    have hn : pages newsz - g = 0 := by omega
    rw [hn]
    exact ends_pure (GrowResult.done (.refl s d g) rfl)
  | succ turns ih =>
    intro d g s hg hturns
    rw [allocuvmLoop]
    refine ends_ite ?_ ?_
    · intro hlt
      rw [pageAddr_lt_iff hg, ← lt_pages_iff] at hlt
      have hn : pages newsz - g = pages newsz - (g + 1) + 1 := by omega
      have hle := pages_le hsz
      have hnext : g + 1 < 2 ^ 20 := lt_of_le_of_lt (le_trans hlt hle) (by decide)
      rw [hn]
      apply Ends.bind kalloc_does
      rintro r s₀ _ ⟨rfl, ⟨rfl, hfree, rfl⟩ | ⟨p, rfl, hfree, hmem⟩⟩
      · exact ends_pure (GrowResult.out (.refl s d g) (Nat.succ_pos _) hfree)
      · apply Ends.bind (ends_emit ⟨rfl, rfl⟩ :
          Ends _ s₀ (fun _ t es => s₀ = t ∧ es = [.taken p]) _)
        rintro _ _ _ ⟨rfl, rfl⟩
        apply Ends.bind store_ends
        rintro _ s₁ _ ⟨rfl, hfree₁, hmem₁⟩
        have hphys : im.Physical p := s.physical p (by rw [hfree]; exact List.mem_cons_self)
        refine Ends.bind ((mappages_page_ends hg).weaken ?_) ?_
        · rintro why ⟨rfl, hpres⟩
          refine ⟨rfl, [], s, d, .refl s d g, Nat.succ_pos _, ?_, hpres⟩
          rw [hfree]
          exact List.cons_ne_nil _ _
        · rintro r s₂ es ⟨hmem₂, hsuf, ⟨rfl, rfl, rfl, hempty, hnone⟩ | ⟨d', rfl, rfl, henters⟩⟩
          · rw [pageAddr_succ]
            have hflag : decide (pages newsz ≤ g + 1) =
                decide (([] : List Nat).length + 1 = pages newsz - (g + 1) + 1) := by
              simp only [List.length_nil, decide_eq_decide]
              omega
            apply (allocuvmLoop_empty hnext (by omega) hempty).mono
            rintro r s' es ⟨rfl, rfl, rfl⟩
            rw [hflag]
            refine GrowResult.lost (.refl s d g) (Nat.succ_pos _) ?_ hnone hempty
            rw [hfree, ← hfree₁, hempty]
          · rw [pageAddr_succ]
            have hone : OnePage s d g p s₂ d' := by
              refine ⟨henters.toEntered, henters.absent g le_rfl (Nat.lt_succ_self g), hphys, ?_, ?_,
                ?_, ?_⟩
              · have hcount := henters.count
                rw [hfree, List.length_cons, ← hfree₁]
                omega
              · rw [hfree, ← hfree₁]
                exact hsuf.sublist.cons_cons p
              · rw [hmem₂, hmem₁, Function.update_self]
              · intro q hq
                rw [hmem₂, hmem₁, Function.update_of_ne hq, hmem]
            refine ((ih hnext (by omega)).mono ?_).weaken ?_
            · intro r s' es hr
              exact hr.cons hone
            · rintro why ⟨rfl, hr⟩
              exact ⟨rfl, hr.cons hone⟩
    · intro hlt
      rw [pageAddr_lt_iff hg, ← lt_pages_iff] at hlt
      have hn : pages newsz - g = 0 := by omega
      rw [hn]
      exact ends_pure (GrowResult.done (.refl s d g) rfl)

end

/-! ## How much memory is needed -/

/-- The page tables that are missing for the `m` pages from page `g` on. -/
def missing (d : Pgdir) (g m : Nat) : Finset Nat :=
  ((Finset.Ico g (g + m)).image (· / NPTENTRIES)).filter fun i => d.hasTable i = false

/-- How many pages it takes to enter `m` pages from page `g` on. -/
def need (d : Pgdir) (g m : Nat) : Nat := m + (missing d g m).card

theorem mem_missing {i : Nat} :
    i ∈ missing d g m ↔ (∃ q, (g ≤ q ∧ q < g + m) ∧ q / NPTENTRIES = i) ∧ d.hasTable i = false := by
  rw [missing, mem_filter, mem_image]
  simp only [mem_Ico]

theorem missing_subset (d : Pgdir) (g : Nat) {m' : Nat} (h : m ≤ m') :
    missing d g m ⊆ missing d g m' := by
  intro i hi
  obtain ⟨⟨q, hq, hdiv⟩, hnone⟩ := mem_missing.mp hi
  exact mem_missing.mpr ⟨⟨q, ⟨hq.1, by omega⟩, hdiv⟩, hnone⟩

theorem need_strictMono (d : Pgdir) (g : Nat) : StrictMono (need d g) := by
  apply strictMono_nat_of_lt_succ
  intro m
  have hle := card_le_card (missing_subset d g (Nat.le_add_right m 1))
  simp only [need]
  omega

/-- A page whose table is missing takes two. -/
theorem need_succ_of_missing (hnone : d.hasTable ((g + m) / NPTENTRIES) = false)
    (hnew : m = 0 ∨ (g + m) % NPTENTRIES = 0) : need d g (m + 1) = need d g m + 2 := by
  have hinsert : missing d g (m + 1) = insert ((g + m) / NPTENTRIES) (missing d g m) := by
    ext i
    rw [mem_insert, mem_missing, mem_missing]
    constructor
    · rintro ⟨⟨q, hq, rfl⟩, hi⟩
      by_cases hlast : q = g + m
      · exact .inl (by rw [hlast])
      · exact .inr ⟨⟨q, ⟨hq.1, by omega⟩, rfl⟩, hi⟩
    · rintro (rfl | ⟨⟨q, hq, rfl⟩, hi⟩)
      · exact ⟨⟨g + m, ⟨by omega, by omega⟩, rfl⟩, hnone⟩
      · exact ⟨⟨q, ⟨hq.1, by omega⟩, rfl⟩, hi⟩
  have hnot : (g + m) / NPTENTRIES ∉ missing d g m := by
    intro hmem
    obtain ⟨⟨q, hq, hdiv⟩, -⟩ := mem_missing.mp hmem
    simp only [NPTENTRIES] at *
    omega
  rw [need, need, hinsert, card_insert_of_notMem hnot]
  omega

namespace Pgdir.Entered

variable {d d' : Pgdir} {g m : Nat} {w : Nat → Word}

theorem hasTable_iff (h : d.Entered d' g m w) (i : Nat) : d'.hasTable i = true ↔
    d.hasTable i = true ∨ ∃ q, (g ≤ q ∧ q < g + m) ∧ q / NPTENTRIES = i := by
  refine (h.table i).trans (or_congr Iff.rfl ?_)
  constructor
  · rintro ⟨q, hle, hlt, hq⟩
    exact ⟨q, ⟨hle, hlt⟩, hq⟩
  · rintro ⟨q, ⟨hle, hlt⟩, hq⟩
    exact ⟨q, hle, hlt, hq⟩

theorem tableCount (h : d.Entered d' g m w) (hfits : g + m ≤ 2 ^ 20) :
    d'.tableCount = d.tableCount + (missing d g m).card := by
  have hset : ((Finset.range NPDENTRIES).filter fun i => (d'.pde i).isSome) =
      ((Finset.range NPDENTRIES).filter fun i => (d.pde i).isSome) ∪ missing d g m := by
    ext i
    rw [mem_union, mem_filter, mem_filter, mem_missing, mem_range]
    constructor
    · rintro ⟨hi, hsome⟩
      obtain hold | hq := (h.hasTable_iff i).mp hsome
      · exact .inl ⟨hi, hold⟩
      · by_cases hold : d.hasTable i = true
        · exact .inl ⟨hi, hold⟩
        · exact .inr ⟨hq, Bool.eq_false_iff.mpr hold⟩
    · rintro (⟨hi, hold⟩ | ⟨⟨q, hq, rfl⟩, -⟩)
      · exact ⟨hi, (h.hasTable_iff i).mpr (.inl hold)⟩
      · refine ⟨?_, (h.hasTable_iff _).mpr (.inr ⟨q, hq, rfl⟩)⟩
        simp only [NPTENTRIES, NPDENTRIES]
        omega
  have hdisj : Disjoint ((Finset.range NPDENTRIES).filter fun i => (d.pde i).isSome)
      (missing d g m) := by
    rw [disjoint_left]
    intro i hi hmiss
    have hsome : d.hasTable i = true := (mem_filter.mp hi).2
    rw [(mem_missing.mp hmiss).2] at hsome
    exact absurd hsome Bool.false_ne_true
  rw [Pgdir.tableCount, hset, card_union_of_disjoint hdisj]
  rfl

end Pgdir.Entered

theorem Grown.free {s' : Kmem im} {ps : List Nat} (h : Grown s d g ps s' d')
    (hfits : g + ps.length ≤ 2 ^ 20) :
    s.freelist.length = s'.freelist.length + need d g ps.length := by
  have hcount := h.count
  have htables := h.entered.tableCount hfits
  simp only [need]
  omega

/-- A page table that is missing after `m` pages is one that the next page is the first to need. -/
theorem Pgdir.Entered.fresh {w : Nat → Word} (h : d.Entered d' g m w)
    (hnone : d'.pde ((g + m) / NPTENTRIES) = none) :
    d.hasTable ((g + m) / NPTENTRIES) = false ∧ (m = 0 ∨ (g + m) % NPTENTRIES = 0) := by
  have hno : ¬ d'.hasTable ((g + m) / NPTENTRIES) = true := by
    rw [Pgdir.hasTable, hnone]
    exact Bool.false_ne_true
  rw [h.hasTable_iff, not_or] at hno
  refine ⟨Bool.eq_false_iff.mpr hno.1, ?_⟩
  by_contra hcon
  obtain ⟨hm, hmod⟩ := not_or.mp hcon
  refine hno.2 ⟨g + m - 1, ⟨by omega, by omega⟩, ?_⟩
  simp only [NPTENTRIES] at *
  omega

/-! ## The call -/

/-- The pages that are mapped for the user are ones that `kalloc.c` deals in, and they are not
free; no page is free twice. -/
structure Backed (s : Kmem im) (d : Pgdir) : Prop where
  nodup : s.freelist.Nodup
  physical : ∀ g < KERNBASE / PGSIZE, present (d.entry g) = true → im.Physical (PTE_ADDR (d.entry g))
  unfree : ∀ g < KERNBASE / PGSIZE, present (d.entry g) = true → PTE_ADDR (d.entry g) ∉ s.freelist

/-- How `allocuvm` for the pages from `lo` to `hi` ends. -/
inductive AllocResult (s : Kmem im) (d : Pgdir) (lo hi : Nat) (newsz : Word) :
    Pgdir × Word → Kmem im → List VmEvent → Prop where
  | done {ps : List Nat} {s' : Kmem im} {d' : Pgdir} (h : Grown s d lo ps s' d')
      (hlen : ps.length = hi - lo) : AllocResult s d lo hi newsz (d', newsz) s' (ps.map .taken)
  /-- The last page is lost. -/
  | last {ps : List Nat} {s₁ s' : Kmem im} {d' : Pgdir} {p : Nat} (h : Grown s d lo ps s₁ d')
      (hlen : ps.length + 1 = hi - lo) (hfree₁ : s₁.freelist = [p])
      (hnone : d'.pde ((lo + ps.length) / NPTENTRIES) = none) :
      AllocResult s d lo hi newsz (d', newsz) s' (ps.map .taken ++ [.taken p, .tableFail])
  /-- There is no more memory. -/
  | out {ps : List Nat} {s₁ s' : Kmem im} {d₁ d' : Pgdir} (h : Grown s d lo ps s₁ d₁)
      (hlen : ps.length < hi - lo) (hfree : s₁.freelist = [])
      (hclear : Cleared s₁ d₁ (sweep d₁.hasTable (2 ^ 20) lo hi) s' d') :
      AllocResult s d lo hi newsz (d', 0) s' (ps.map .taken)
  /-- A page is lost, and then there is no more memory. -/
  | lost {ps : List Nat} {s₁ s₂ s' : Kmem im} {d₁ d' : Pgdir} {p : Nat} (h : Grown s d lo ps s₁ d₁)
      (hlen : ps.length + 1 < hi - lo) (hfree₁ : s₁.freelist = [p])
      (hnone : d₁.pde ((lo + ps.length) / NPTENTRIES) = none) (hfree : s₂.freelist = [])
      (hclear : Cleared s₂ d₁ (sweep d₁.hasTable (2 ^ 20) lo hi) s' d') :
      AllocResult s d lo hi newsz (d', 0) s' (ps.map .taken ++ [.taken p, .tableFail])

section

variable {s : Kmem im} {d : Pgdir} {oldsz newsz : Word}

variable {s' : Kmem im} {d' : Pgdir} {g q : Nat} {ps : List Nat}

theorem Grown.new (h : Grown s d g ps s' d') (hle : g ≤ q) (hlt : q < g + ps.length) :
    ∃ p ∈ ps, d'.entry q = userPte p ∧ PTE_ADDR (d'.entry q) = p := by
  have hk : q - g < ps.length := by omega
  have hmem : ps.getD (q - g) 0 ∈ ps := by
    rw [List.getD_eq_getElem?_getD, List.getElem?_eq_getElem hk]
    exact List.getElem_mem hk
  have hentry := h.entered.entry q
  rw [if_pos ⟨hle, hlt⟩] at hentry
  refine ⟨_, hmem, hentry, ?_⟩
  rw [hentry, PTE_ADDR_userPte (h.physical _ hmem)]

theorem Grown.page_of_mem {p : Nat} (h : Grown s d g ps s' d') (hp : p ∈ ps) :
    ∃ q, g ≤ q ∧ q < g + ps.length ∧ d'.entry q = userPte p := by
  obtain ⟨k, hk, rfl⟩ := List.getElem_of_mem hp
  refine ⟨g + k, Nat.le_add_right .., by omega, ?_⟩
  rw [h.entered.entry, if_pos ⟨Nat.le_add_right .., by omega⟩, Nat.add_sub_cancel_left,
    List.getD_eq_getElem?_getD, List.getElem?_eq_getElem hk]
  rfl

theorem Grown.old (h : Grown s d g ps s' d') (hq : ¬ (g ≤ q ∧ q < g + ps.length)) :
    d'.entry q = d.entry q := by
  rw [h.entered.entry q, if_neg hq]

theorem Grown.physical_entry (h : Grown s d g ps s' d') (hb : Backed s d)
    (hq : q < KERNBASE / PGSIZE)
    (hp : present (d'.entry q) = true) : im.Physical (PTE_ADDR (d'.entry q)) := by
  by_cases hin : g ≤ q ∧ q < g + ps.length
  · obtain ⟨p, hmem, -, haddr⟩ := h.new hin.1 hin.2
    rw [haddr]
    exact h.physical p hmem
  · rw [h.old hin] at hp ⊢
    exact hb.physical q hq hp

theorem pages_mono {sz sz' : Word} (h : sz ≤ sz') : pages sz ≤ pages sz' := by
  have hle : sz.toNat ≤ sz'.toNat := h
  exact Nat.div_le_div_right (by omega)

/-- When the loop fails, what was entered is taken out again. -/
theorem deallocuvm_grown {s₁ : Kmem im} {d₁ : Pgdir} {s₀ : Kmem im}
    (h : Grown s d (pages oldsz) ps s₁ d₁) (hb : Backed s d) (hlt : newsz.toNat < KERNBASE)
    (hsz : oldsz < newsz) : Ends (deallocuvm im d₁ newsz oldsz) s₀ (fun r s' es => es = [] ∧
      Cleared s₀ d₁ (sweep d₁.hasTable (2 ^ 20) (pages oldsz) (pages newsz)) s' r.1)
      fun _ => False := by
  refine ((deallocuvm_ends hsz (Nat.le_of_lt hlt)).mono ?_).weaken ?_
  · rintro r s' es ⟨rfl, -, hclear⟩
    exact ⟨rfl, hclear⟩
  · rintro why ⟨-, q, -, hq, hpres, hno⟩
    have hle := pages_le (Nat.le_of_lt hlt)
    exact hno (h.physical_entry hb (lt_of_lt_of_le hq hle) hpres)

theorem allocuvm_ends (hle : oldsz ≤ newsz) (hlt : newsz.toNat < KERNBASE) (hb : Backed s d) :
    Ends (allocuvm im d oldsz newsz) s (AllocResult s d (pages oldsz) (pages newsz) newsz)
      fun why => why = .panic "remap" ∧ Remaps s d (pages oldsz) (pages newsz - pages oldsz) := by
  have hbase : ¬ BitVec.ofNat 32 KERNBASE ≤ newsz := Nat.not_le_of_lt hlt
  have hless : ¬ newsz < oldsz := Nat.not_lt_of_le hle
  have hold : oldsz.toNat ≤ KERNBASE := le_trans hle (Nat.le_of_lt hlt)
  have hpage : pages oldsz < 2 ^ 20 := lt_of_le_of_lt (pages_le hold) (by decide)
  have hturns : pages newsz ≤ pages oldsz + 2 ^ 20 :=
    le_trans (pages_le (Nat.le_of_lt hlt)) (le_trans (by decide) (Nat.le_add_left ..))
  have hsz : ∀ {m}, m < pages newsz - pages oldsz → oldsz < newsz := by
    intro m hm
    by_contra hno
    have hge := pages_mono (BitVec.not_lt.mp hno)
    omega
  unfold allocuvm
  rw [if_neg hbase, if_neg hless, PGROUNDUP_pages hold]
  apply Ends.bind (allocuvmLoop_ends (Nat.le_of_lt hlt) _ hpage hturns)
  intro r s₁ es hr
  cases hr with
  | done h hlen =>
    apply ends_pure
    rw [List.append_nil]
    exact .done h hlen
  | out h hlen hfree =>
    refine Ends.bind ((deallocuvm_grown h hb hlt (hsz hlen)).weaken fun _ hno => hno.elim) ?_
    rintro r s' _ ⟨rfl, hclear⟩
    apply ends_pure
    rw [List.append_nil, List.append_nil]
    exact .out h hlen hfree hclear
  | @lost ps s₁ s₂ d₁ p h hlen hfree₁ hnone hfree =>
    by_cases hlast : ps.length + 1 = pages newsz - pages oldsz
    · rw [decide_eq_true hlast]
      apply ends_pure
      rw [List.append_nil]
      exact .last h hlast hfree₁ hnone
    · rw [decide_eq_false hlast]
      refine Ends.bind ((deallocuvm_grown h hb hlt (hsz hlen)).weaken fun _ hno => hno.elim) ?_
      rintro r s' _ ⟨rfl, hclear⟩
      apply ends_pure
      rw [List.append_nil, List.append_nil]
      exact .lost h (by omega) hfree₁ hnone hfree hclear

end

/-! ## All or nothing -/

/-- The entry of a page that is mapped. -/
def Pgdir.mapping (d : Pgdir) (g : Nat) : Option Word :=
  if present (d.entry g) then some (d.entry g) else none

/-- What `allocuvm` is for: the pages from `lo` to `hi` are mapped and nothing else changes, or nothing
changes and what was taken is given back. -/
structure Allocates (d : Pgdir) (lo hi : Nat) (newsz : Word) (r : Pgdir × Word) (s' : Kmem im)
    (es : List VmEvent) : Prop where
  result : r.2 = newsz ∨ r.2 = 0
  mapped : r.2 = newsz → newsz ≠ 0 → ∀ g, lo ≤ g → g < hi → present (r.1.entry g) = true ∧
    user (r.1.entry g) = true ∧ writable (r.1.entry g) = true ∧
    s'.mem (PTE_ADDR (r.1.entry g)) = Bytes.zero PGSIZE
  same : r.2 = newsz → newsz ≠ 0 → ∀ g, ¬ (lo ≤ g ∧ g < hi) → r.1.entry g = d.entry g
  restored : r.2 = 0 → ∀ g, r.1.mapping g = d.mapping g
  returned : r.2 = 0 → ∀ p, .taken p ∈ es → p ∈ s'.freelist

/-- Memory runs out at the request for a page table: for some `m`, what is needed for `m` pages and one
more page is all there is, and page `m` is the first of a page table that is missing. -/
def Short (s : Kmem im) (d : Pgdir) (lo n : Nat) : Prop :=
  ∃ m < n, (∀ q, lo ≤ q → q < lo + m → present (d.entry q) = false) ∧
    d.hasTable ((lo + m) / NPTENTRIES) = false ∧ (m = 0 ∨ (lo + m) % NPTENTRIES = 0) ∧
    s.freelist.length = need d lo m + 1

/-- Memory runs out at the request for page `m`, and a page was mapped already from there on, which
`deallocuvm` then comes to. -/
def Clobbers (s : Kmem im) (d : Pgdir) (lo n : Nat) : Prop :=
  ∃ m < n, (∀ q, lo ≤ q → q < lo + m → present (d.entry q) = false) ∧
    s.freelist.length = need d lo m ∧ ∃ q, lo + m ≤ q ∧ q < lo + n ∧ present (d.entry q) = true ∧
      ¬ (m = 0 ∧ Skips d.hasTable lo q)

section

variable {s s₀ s₁ s' : Kmem im} {d d₁ d' : Pgdir} {lo hi q : Nat} {ps : List Nat}

/-- Once a page is entered its table is there, and nothing is passed over. -/
theorem Grown.skips_iff (h : Grown s d lo ps s₁ d₁) :
    Skips d₁.hasTable lo q ↔ ps.length = 0 ∧ Skips d.hasTable lo q := by
  by_cases hps : ps.length = 0
  · have htable : d₁.hasTable = d.hasTable := by
      funext i
      rw [Bool.eq_iff_iff, h.entered.hasTable_iff, hps]
      constructor
      · rintro (hi | ⟨q, hq, -⟩)
        · exact hi
        · omega
      · exact .inl
    rw [htable]
    exact ⟨fun hskip => ⟨hps, hskip⟩, fun hskip => hskip.2⟩
  · have htable : d₁.hasTable (lo / NPTENTRIES) = true :=
      (h.entered.hasTable_iff _).mpr (.inr ⟨lo, ⟨le_rfl, by omega⟩, rfl⟩)
    exact ⟨fun hskip => absurd hskip (not_skips_of_table htable q).1, fun hskip => absurd hskip.1 hps⟩

/-- The mapped pages that `deallocuvm` comes to. -/
theorem Grown.mem_sweep_iff (h : Grown s d lo ps s₁ d₁) (hhi : hi ≤ 2 ^ 20)
    (hpres : present (d₁.entry q) = true) : q ∈ sweep d₁.hasTable (2 ^ 20) lo hi ↔
      lo ≤ q ∧ q < hi ∧ ¬ (ps.length = 0 ∧ Skips d.hasTable lo q) := by
  rw [mem_sweep _ (le_trans hhi (Nat.le_add_left ..)), h.skips_iff]
  constructor
  · rintro ⟨hlo, hlt, -, hno⟩
    exact ⟨hlo, hlt, hno⟩
  · rintro ⟨hlo, hlt, hno⟩
    exact ⟨hlo, hlt, hasTable_of_present hpres, hno⟩

/-- What was entered is taken out again, and nothing else was mapped there. -/
theorem Grown.restored (h : Grown s d lo ps s₁ d₁) (hhi : hi ≤ 2 ^ 20) (hlen : ps.length ≤ hi - lo)
    (hclear : Cleared s₀ d₁ (sweep d₁.hasTable (2 ^ 20) lo hi) s' d')
    (hno : ∀ q, lo + ps.length ≤ q → q < hi → present (d.entry q) = true →
      ps.length = 0 ∧ Skips d.hasTable lo q) : ∀ q, d'.mapping q = d.mapping q := by
  intro q
  by_cases hin : lo ≤ q ∧ q < lo + ps.length
  · obtain ⟨p, -, hentry, -⟩ := h.new hin.1 hin.2
    have hpres : present (d₁.entry q) = true := by
      rw [hentry]
      exact present_userPte p
    have hmem : q ∈ sweep d₁.hasTable (2 ^ 20) lo hi :=
      (h.mem_sweep_iff hhi hpres).mpr ⟨hin.1, by omega, fun hzero => by omega⟩
    have hzero : d'.entry q = 0 := by rw [hclear.entry q, if_pos ⟨hmem, hpres⟩]
    rw [Pgdir.mapping, Pgdir.mapping, hzero, h.absent q hin.1 hin.2]
    rfl
  · have hsame : d'.entry q = d.entry q := by
      rw [hclear.entry q, if_neg, h.old hin]
      rintro ⟨hmem, hpres⟩
      obtain ⟨hlo, hlt, hskip⟩ := (h.mem_sweep_iff hhi hpres).mp hmem
      rw [h.old hin] at hpres
      exact hskip (hno q (by omega) hlt hpres)
    rw [Pgdir.mapping, Pgdir.mapping, hsame]

theorem Grown.returned (h : Grown s d lo ps s₁ d₁) (hhi : hi ≤ 2 ^ 20) (hlen : ps.length ≤ hi - lo)
    (hclear : Cleared s₀ d₁ (sweep d₁.hasTable (2 ^ 20) lo hi) s' d') {p : Nat} (hp : p ∈ ps) :
    p ∈ s'.freelist := by
  obtain ⟨q, hlo, hlt, hentry⟩ := h.page_of_mem hp
  have hpres : present (d₁.entry q) = true := by
    rw [hentry]
    exact present_userPte p
  have hmem : q ∈ sweep d₁.hasTable (2 ^ 20) lo hi :=
    (h.mem_sweep_iff hhi hpres).mpr ⟨hlo, by omega, fun hzero => by omega⟩
  rw [hclear.freelist]
  apply List.mem_append_left
  rw [List.mem_reverse, framesOf, List.mem_map]
  refine ⟨q, List.mem_filter.mpr ⟨hmem, hpres⟩, ?_⟩
  rw [hentry, PTE_ADDR_userPte (h.physical p hp)]

/-- A page that is not entered is not given back. -/
theorem Grown.lost_notMem (h : Grown s d lo ps s₁ d₁) (hb : Backed s d)
    (hhi : hi ≤ KERNBASE / PGSIZE) {p : Nat} (hfree₁ : s₁.freelist = [p]) (hfree : s₀.freelist = [])
    (hclear : Cleared s₀ d₁ (sweep d₁.hasTable (2 ^ 20) lo hi) s' d') : p ∉ s'.freelist := by
  have hsub := h.sub
  rw [hfree₁] at hsub
  rw [hclear.freelist, hfree, List.append_nil, List.mem_reverse, framesOf, List.mem_map]
  rintro ⟨q, hq, haddr⟩
  obtain ⟨hmem, hpres⟩ := List.mem_filter.mp hq
  have hlt : q < hi :=
    ((h.mem_sweep_iff (le_trans hhi (by decide)) hpres).mp hmem).2.1
  by_cases hin : lo ≤ q ∧ q < lo + ps.length
  · obtain ⟨p', hp', -, haddr'⟩ := h.new hin.1 hin.2
    rw [haddr] at haddr'
    rw [← haddr'] at hp'
    exact (List.nodup_append.mp (hb.nodup.sublist hsub)).2.2 p hp' p List.mem_cons_self rfl
  · rw [h.old hin] at hpres haddr
    have hno := hb.unfree q (lt_of_lt_of_le hlt hhi) hpres
    rw [haddr] at hno
    exact hno (hsub.subset (List.mem_append_right ps List.mem_cons_self))

/-- There is a page but none for its table. -/
theorem Grown.short (h : Grown s d lo ps s₁ d₁) {n p : Nat} (hlen : ps.length < n)
    (hfits : lo + ps.length ≤ 2 ^ 20) (hfree₁ : s₁.freelist = [p])
    (hnone : d₁.pde ((lo + ps.length) / NPTENTRIES) = none) : Short s d lo n := by
  obtain ⟨htable, hnew⟩ := h.entered.fresh hnone
  have hcount := h.free hfits
  rw [hfree₁, List.length_singleton] at hcount
  exact ⟨ps.length, hlen, h.absent, htable, hnew, by omega⟩

/-- If the loop comes to its end, or to the end of memory at a page, or to a page that is mapped
already, memory does not run out at a page table. -/
theorem Grown.not_short (h : Grown s d lo ps s₁ d₁) {n : Nat} (hfits : lo + ps.length ≤ 2 ^ 20)
    (hend : ps.length = n ∨ s₁.freelist = [] ∨
      s₁.freelist ≠ [] ∧ present (d.entry (lo + ps.length)) = true) : ¬ Short s d lo n := by
  rintro ⟨m, hm, habsent, htable, hnew, hlen⟩
  have hcount := h.free hfits
  have htwo := need_succ_of_missing htable hnew
  have hless : ¬ m + 1 ≤ ps.length := by
    intro hle
    have hmono := (need_strictMono d lo).monotone hle
    omega
  obtain rfl | hempty | ⟨hne, hpres⟩ := hend
  · exact hless hm
  · have hmono := (need_strictMono d lo).monotone (show ps.length ≤ m by omega)
    rw [hempty, List.length_nil] at hcount
    omega
  · by_cases heq : ps.length = m
    · rw [heq] at hpres
      rw [hasTable_of_present hpres] at htable
      exact absurd htable.symm Bool.false_ne_true
    · rw [habsent _ (Nat.le_add_right ..) (by omega)] at hpres
      exact absurd hpres Bool.false_ne_true

/-- If the loop comes to its end, or to a page that is mapped already, memory does not run out. -/
theorem Grown.not_clobbers (h : Grown s d lo ps s₁ d₁) {n : Nat} (hfits : lo + ps.length ≤ 2 ^ 20)
    (hend : ps.length = n ∨ s₁.freelist ≠ [] ∧ present (d.entry (lo + ps.length)) = true) :
    ¬ Clobbers s d lo n := by
  rintro ⟨m, hm, habsent, hlen, -⟩
  have hcount := h.free hfits
  obtain rfl | ⟨hne, hpres⟩ := hend
  · have hmono := need_strictMono d lo hm
    omega
  · have hpos := List.length_pos_iff.mpr hne
    have hless : ps.length < m := by
      by_contra hle
      have hmono := (need_strictMono d lo).monotone (not_lt.mp hle)
      omega
    rw [habsent _ (Nat.le_add_right ..) (by omega)] at hpres
    exact absurd hpres Bool.false_ne_true

end

section

variable {s : Kmem im} {d : Pgdir} {oldsz newsz : Word}

/-- All pages are entered. -/
theorem Grown.allocates {s' : Kmem im} {d' : Pgdir} {lo hi : Nat} {ps : List Nat}
    (h : Grown s d lo ps s' d') (hlen : ps.length = hi - lo) (hzero : newsz = 0 → hi ≤ lo) :
    Allocates d lo hi newsz (d', newsz) s' (ps.map .taken) where
  result := .inl rfl
  mapped := by
    intro _ _ g hlo hhi
    obtain ⟨p, hp, hentry, haddr⟩ := h.new hlo (by omega)
    rw [haddr, hentry]
    exact ⟨present_userPte p, user_userPte p, writable_userPte p, h.zero p hp⟩
  same := by
    intro _ _ g hg
    exact h.old (by omega)
  restored := by
    intro hnew g
    have hle := hzero hnew
    rw [Pgdir.mapping, Pgdir.mapping, h.old (by omega)]
  returned := by
    intro hnew p hp
    have hle := hzero hnew
    obtain rfl : ps = [] := List.eq_nil_of_length_eq_zero (by omega)
    exact absurd hp List.not_mem_nil

theorem pages_pos {sz : Word} (h : 0 < pages sz) : sz ≠ 0 := by
  rintro rfl
  exact absurd h (by decide)

/-- `allocuvm` maps everything or nothing, unless memory runs out at a page table, or it runs out at a
page and there was something mapped behind it that is taken out as well. -/
theorem allocuvm_allocates_iff (hle : oldsz ≤ newsz) (hlt : newsz.toNat < KERNBASE)
    (hb : Backed s d) :
    (∀ r s' es, allocuvm im d oldsz newsz s = .ok r s' es →
      Allocates d (pages oldsz) (pages newsz) newsz r s' es) ↔
    ¬ Short s d (pages oldsz) (pages newsz - pages oldsz) ∧
      ¬ Clobbers s d (pages oldsz) (pages newsz - pages oldsz) := by
  have hends := allocuvm_ends hle hlt hb
  have hhi := pages_le (Nat.le_of_lt hlt)
  have hbig : pages newsz ≤ 2 ^ 20 := le_trans hhi (by decide)
  have hmono := pages_mono hle
  constructor
  · intro hall
    cases hrun : allocuvm im d oldsz newsz s with
    | halt why es =>
      obtain ⟨-, ps, s₁, d₁, h, hlen, hend⟩ := hends.of_halt hrun
      have hfits : pages oldsz + ps.length ≤ 2 ^ 20 := by omega
      exact ⟨h.not_short hfits (.inr (.inr hend)), h.not_clobbers hfits (.inr hend)⟩
    | ok r s' es =>
      have hexact := hall r s' es hrun
      cases hends.of_ok hrun with
      | @done ps s' d' h hlen =>
        have hfits : pages oldsz + ps.length ≤ 2 ^ 20 := by omega
        exact ⟨h.not_short hfits (.inl hlen), h.not_clobbers hfits (.inl hlen)⟩
      | @last ps s₁ s' d' p h hlen hfree₁ hnone =>
        have hpos : newsz ≠ 0 := pages_pos (by omega)
        have hmapped :=
          (hexact.mapped rfl hpos (pages oldsz + ps.length) (Nat.le_add_right ..) (by omega)).1
        rw [Pgdir.entry_of_none hnone] at hmapped
        exact absurd hmapped Bool.false_ne_true
      | lost h hlen hfree₁ hnone hfree hclear =>
        refine absurd (hexact.returned rfl _ ?_) (h.lost_notMem hb hhi hfree₁ hfree hclear)
        exact List.mem_append_right _ List.mem_cons_self
      | @out ps s₁ s' d₁ d' h hlen hfree hclear =>
        have hfits : pages oldsz + ps.length ≤ 2 ^ 20 := by omega
        refine ⟨h.not_short hfits (.inr (.inl hfree)), ?_⟩
        rintro ⟨m, hm, -, hcount, q, hlo, hq, hpres, hskip⟩
        have hcount' := h.free hfits
        rw [hfree, List.length_nil, Nat.zero_add, hcount] at hcount'
        obtain rfl := (need_strictMono d (pages oldsz)).injective hcount'
        have hold : d₁.entry q = d.entry q := h.old (by omega)
        have hpres₁ : present (d₁.entry q) = true := by rw [hold, hpres]
        have hmem := (h.mem_sweep_iff hbig hpres₁).mpr ⟨by omega, by omega, hskip⟩
        have hzero : d'.entry q = 0 := by rw [hclear.entry q, if_pos ⟨hmem, hpres₁⟩]
        have hsame := hexact.restored rfl q
        rw [Pgdir.mapping, Pgdir.mapping, hzero, hpres] at hsame
        exact absurd hsame.symm (Option.some_ne_none _)
  · rintro ⟨hshort, hclobber⟩ r s' es hrun
    cases hends.of_ok hrun with
    | done h hlen =>
      refine h.allocates hlen fun hzero => ?_
      rw [hzero]
      exact Nat.zero_le _
    | @last ps s₁ s' d' p h hlen hfree₁ hnone
    | @lost ps s₁ s₂ s' d₁ d' p h hlen hfree₁ hnone hfree hclear =>
      exact absurd (h.short (by omega) (by omega) hfree₁ hnone) hshort
    | @out ps s₁ s' d₁ d' h hlen hfree hclear =>
      have hfits : pages oldsz + ps.length ≤ 2 ^ 20 := by omega
      have hpos : newsz ≠ 0 := pages_pos (by omega)
      have hno : ∀ q, pages oldsz + ps.length ≤ q → q < pages newsz → present (d.entry q) = true →
          ps.length = 0 ∧ Skips d.hasTable (pages oldsz) q := by
        intro q hlo hq hpres
        by_contra hskip
        have hcount := h.free hfits
        rw [hfree, List.length_nil, Nat.zero_add] at hcount
        exact hclobber ⟨ps.length, hlen, h.absent, hcount, q, hlo, by omega, hpres, hskip⟩
      refine ⟨.inr rfl, fun hzero => absurd hzero.symm, fun hzero => absurd hzero.symm,
        fun _ => h.restored hbig hlen.le hclear hno, ?_⟩
      intro _ p hp
      obtain ⟨p', hp', heq⟩ := List.mem_map.mp hp
      obtain rfl := VmEvent.taken.inj heq
      exact h.returned hbig hlen.le hclear hp'

end

/-- One free page. -/
def onePage : Kmem sampleLayout where
  freelist := [0x200]
  mem := fun _ => Bytes.zero PGSIZE
  physical := by decide

/-- With one page for a page that needs a page table too, `allocuvm` returns the new size and the page
is not mapped. -/
theorem allocuvm_loses_page : ∃ d' s',
    allocuvm sampleLayout (emptyDir 0x300) 0 0x1000 onePage =
      .ok (d', 0x1000) s' [.taken 0x200, .tableFail] ∧
      present (d'.entry 0) = false ∧ 0x200 ∉ s'.freelist := ⟨_, _, rfl, rfl, List.not_mem_nil⟩

theorem backed_emptyDir (h : s.freelist.Nodup) : Backed s (emptyDir p) where
  nodup := h
  physical := by
    intro g _ hp
    rw [entry_emptyDir] at hp
    exact absurd hp Bool.false_ne_true
  unfree := by
    intro g _ hp
    rw [entry_emptyDir] at hp
    exact absurd hp Bool.false_ne_true

/-- Two pages are enough. -/
theorem allocuvm_allocates_twoPages : ∃ r s' es,
    allocuvm sampleLayout (emptyDir 0x300) 0 0x1000 twoPages = .ok r s' es ∧
      Allocates (emptyDir 0x300) (pages 0) (pages 0x1000) 0x1000 r s' es := by
  have hzero : ∀ m < pages 0x1000 - pages 0, m = 0 := by decide
  have hcond : ¬ Short twoPages (emptyDir 0x300) (pages 0) (pages 0x1000 - pages 0) ∧
      ¬ Clobbers twoPages (emptyDir 0x300) (pages 0) (pages 0x1000 - pages 0) := by
    constructor
    · rintro ⟨m, hm, -, -, -, hlen⟩
      rw [hzero m hm] at hlen
      exact absurd hlen (by decide)
    · rintro ⟨m, hm, -, hlen, -⟩
      rw [hzero m hm] at hlen
      exact absurd hlen (by decide)
  exact ⟨_, _, _, rfl, (allocuvm_allocates_iff (by decide) (by decide)
    (backed_emptyDir (by decide))).mpr hcond _ _ _ rfl⟩

end Xv6.Vm
