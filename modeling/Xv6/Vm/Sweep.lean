import Mathlib.Data.List.Sort
import Xv6.Vm.Leak

/-!
# What deallocuvm takes out

`deallocuvm` goes up from a page. Where a page table is there it goes on with the next page; where
it is missing it goes on 1024 pages further, and so into the middle of the next page table unless it
came to the first page of the missing one.
-/

namespace Xv6.Vm

open Function List

open Lib Act

/-! ## The pages on the way -/

/-- The pages that `deallocuvm` looks at from page `k` on and below `top`; `table i` tells if page
table `i` is there. -/
def sweep (table : Nat → Bool) : Nat → Nat → Nat → List Nat
  | 0, _, _ => []
  | turns + 1, k, top =>
    if k < top then
      if table (k / NPTENTRIES) then k :: sweep table turns (k + 1) top
      else sweep table turns (k + NPTENTRIES) top
    else []

/-- From page `k` on, page `g` is passed over: there is no page table from that of `k` up to that of
`g`, and `g` comes earlier in its table than `k` does. -/
def Skips (table : Nat → Bool) (k g : Nat) : Prop :=
  k / NPTENTRIES < g / NPTENTRIES ∧ g % NPTENTRIES < k % NPTENTRIES ∧
    ∀ i, k / NPTENTRIES ≤ i → i < g / NPTENTRIES → table i = false

section

variable {table : Nat → Bool} {k g top : Nat}

/-- Where the table is there nothing is passed over. -/
theorem not_skips_of_table (h : table (k / NPTENTRIES) = true) (g : Nat) :
    ¬ Skips table k g ∧ ¬ Skips table (k + 1) g := by
  constructor
  · rintro ⟨hlt, -, hnone⟩
    rw [hnone _ le_rfl hlt] at h
    exact absurd h Bool.false_ne_true
  · rintro ⟨hlt, hmod, hnone⟩
    by_cases hdiv : (k + 1) / NPTENTRIES = k / NPTENTRIES
    · rw [hdiv] at hlt hnone
      rw [hnone _ le_rfl hlt] at h
      exact absurd h Bool.false_ne_true
    · simp only [NPTENTRIES] at *
      omega

/-- Where the table is missing the pages of one table are left out. -/
theorem skips_add_iff (h : table (k / NPTENTRIES) = false) (hg : k ≤ g)
    (htable : table (g / NPTENTRIES) = true) :
    k + NPTENTRIES ≤ g ∧ ¬ Skips table (k + NPTENTRIES) g ↔ ¬ Skips table k g := by
  have hdiv : (k + NPTENTRIES) / NPTENTRIES = k / NPTENTRIES + 1 := Nat.add_div_right k (by decide)
  have hmod : (k + NPTENTRIES) % NPTENTRIES = k % NPTENTRIES := Nat.add_mod_right k NPTENTRIES
  have hne : k / NPTENTRIES ≠ g / NPTENTRIES := by
    intro heq
    rw [heq, htable] at h
    exact absurd h.symm Bool.false_ne_true
  have hlt : k / NPTENTRIES < g / NPTENTRIES := lt_of_le_of_ne (Nat.div_le_div_right hg) hne
  unfold Skips
  rw [hdiv, hmod]
  constructor
  · rintro ⟨hle, hno⟩ ⟨-, hlow, hnone⟩
    refine hno ⟨?_, hlow, fun i hi hig => hnone i (by omega) hig⟩
    simp only [NPTENTRIES] at *
    omega
  · intro hno
    have hhigh : k % NPTENTRIES ≤ g % NPTENTRIES ∨ k / NPTENTRIES + 1 < g / NPTENTRIES := by
      by_contra hcon
      obtain ⟨hlow, hnext⟩ := not_or.mp hcon
      refine hno ⟨hlt, not_le.mp hlow, fun i hi hig => ?_⟩
      rw [show i = k / NPTENTRIES by omega]
      exact h
    refine ⟨?_, ?_⟩
    · simp only [NPTENTRIES] at *
      omega
    · rintro ⟨-, hlow, hnone⟩
      refine hno ⟨hlt, hlow, fun i hi hig => ?_⟩
      by_cases hik : i = k / NPTENTRIES
      · rw [hik]
        exact h
      · exact hnone i (by omega) hig

theorem mem_sweep (turns : Nat) : ∀ {k : Nat}, top ≤ k + turns →
    (g ∈ sweep table turns k top ↔
      k ≤ g ∧ g < top ∧ table (g / NPTENTRIES) = true ∧ ¬ Skips table k g) := by
  induction turns with
  | zero =>
    intro k hle
    rw [sweep]
    constructor
    · intro h
      exact absurd h not_mem_nil
    · rintro ⟨hkg, hgt, -⟩
      omega
  | succ turns ih =>
    intro k hle
    rw [sweep]
    by_cases hlt : k < top
    · rw [if_pos hlt]
      by_cases ht : table (k / NPTENTRIES) = true
      · obtain ⟨hno, hno'⟩ := not_skips_of_table ht g
        rw [if_pos ht, mem_cons, ih (by omega)]
        constructor
        · rintro (rfl | ⟨hkg, hgt, hg, -⟩)
          · exact ⟨le_rfl, hlt, ht, hno⟩
          · exact ⟨by omega, hgt, hg, hno⟩
        · rintro ⟨hkg, hgt, hg, -⟩
          by_cases heq : g = k
          · exact .inl heq
          · exact .inr ⟨by omega, hgt, hg, hno'⟩
      · have ht' := Bool.eq_false_iff.mpr ht
        have hsize : 0 < NPTENTRIES := by decide
        rw [if_neg ht, ih (by omega)]
        constructor
        · rintro ⟨hkg, hgt, hg, hno⟩
          exact ⟨by omega, hgt, hg, (skips_add_iff ht' (by omega) hg).mp ⟨hkg, hno⟩⟩
        · rintro ⟨hkg, hgt, hg, hno⟩
          obtain ⟨hle', hno'⟩ := (skips_add_iff ht' hkg hg).mpr hno
          exact ⟨hle', hgt, hg, hno'⟩
    · rw [if_neg hlt]
      constructor
      · intro h
        exact absurd h not_mem_nil
      · rintro ⟨hkg, hgt, -⟩
        omega

theorem le_of_mem_sweep (turns : Nat) : ∀ {k : Nat}, g ∈ sweep table turns k top → k ≤ g := by
  induction turns with
  | zero =>
    intro k h
    exact absurd h not_mem_nil
  | succ turns ih =>
    intro k h
    rw [sweep] at h
    split at h
    · split at h
      · obtain rfl | h := mem_cons.mp h
        · exact le_rfl
        · exact Nat.le_of_succ_le (ih h)
      · exact le_trans (Nat.le_add_right ..) (ih h)
    · exact absurd h not_mem_nil

/-- The pages come in ascending order, each once. -/
theorem sortedLT_sweep (turns : Nat) : ∀ {k : Nat}, (sweep table turns k top).SortedLT := by
  induction turns with
  | zero =>
    intro k
    exact List.Pairwise.nil.sortedLT
  | succ turns ih =>
    intro k
    rw [sweep]
    split
    · split
      · apply List.Pairwise.sortedLT
        rw [pairwise_cons]
        exact ⟨fun g hg => le_of_mem_sweep turns hg, ih.pairwise⟩
      · exact ih
    · exact List.Pairwise.nil.sortedLT

end

/-! ## The run -/

section

variable {im : Layout}

/-- The pages among `qs` that are mapped, by their numbers in physical memory. -/
def framesOf (d : Pgdir) (qs : List Nat) : List Nat :=
  (qs.filter fun q => present (d.entry q)).map fun q => PTE_ADDR (d.entry q)

variable {d : Pgdir} {s : Kmem im} {sz oldsz newsz : Word} {g : Nat}

theorem entry_clear {k : Nat} {t : Table} (hk : k < 2 ^ 20)
    (ht : d.pde (PDX (pageAddr k)) = some t) :
    (d.setPte (pageAddr k) 0).entry = update d.entry k 0 := by
  rw [Pgdir.entry_setPte ht, toNat_pageAddr_div hk]

/-- The pages `qs` are taken out of the directory, and their frames go to the free list one after
the other. -/
structure Cleared (s : Kmem im) (d : Pgdir) (qs : List Nat) (s' : Kmem im) (d' : Pgdir) : Prop where
  page : d'.page = d.page
  tables : ∀ i, (d'.pde i).map Table.page = (d.pde i).map Table.page
  entry : ∀ q, d'.entry q = if q ∈ qs ∧ present (d.entry q) = true then 0 else d.entry q
  freelist : s'.freelist = (framesOf d qs).reverse ++ s.freelist
  mem : ∀ p, p ∉ framesOf d qs → s'.mem p = s.mem p

namespace Cleared

variable {s s' s'' : Kmem im} {d d' d'' : Pgdir} {k : Nat} {qs : List Nat}

theorem refl (s : Kmem im) (d : Pgdir) : Cleared s d [] s d where
  page := rfl
  tables := fun _ => rfl
  entry := fun _ => (if_neg fun h => absurd h.1 not_mem_nil).symm
  freelist := rfl
  mem := fun _ _ => rfl

/-- A page that is not mapped, and then the others. -/
theorem skip (h : Cleared s d qs s' d') (hk : present (d.entry k) = false) :
    Cleared s d (k :: qs) s' d' where
  page := h.page
  tables := h.tables
  entry := by
    intro q
    rw [h.entry q]
    by_cases hq : q = k
    · subst hq
      simp [hk]
    · simp [hq]
  freelist := by
    rw [h.freelist, framesOf, framesOf, filter_cons_of_neg (by simp [hk])]
  mem := by
    intro p hp
    rw [framesOf, filter_cons_of_neg (by simp [hk])] at hp
    exact h.mem p hp

/-- A page that is mapped, and then the others. -/
theorem cons {s₁ : Kmem im} {t : Table} (hk : k < 2 ^ 20) (ht : d.pde (PDX (pageAddr k)) = some t)
    (hp : present (d.entry k) = true) (hfree : s₁.freelist = PTE_ADDR (d.entry k) :: s.freelist)
    (hmem : ∀ p, p ≠ PTE_ADDR (d.entry k) → s₁.mem p = s.mem p) (hqs : k ∉ qs)
    (h : Cleared s₁ (d.setPte (pageAddr k) 0) qs s' d') : Cleared s d (k :: qs) s' d' := by
  have hset := entry_clear hk ht
  have hentry : ∀ q ∈ qs, (d.setPte (pageAddr k) 0).entry q = d.entry q := by
    intro q hq
    rw [hset, update_of_ne]
    rintro rfl
    exact hqs hq
  have hframes : framesOf (d.setPte (pageAddr k) 0) qs = framesOf d qs := by
    have hfilter : (qs.filter fun q => present ((d.setPte (pageAddr k) 0).entry q)) =
        qs.filter fun q => present (d.entry q) :=
      filter_congr fun q hq => by rw [hentry q hq]
    rw [framesOf, framesOf, hfilter]
    exact map_congr_left fun q hq => by rw [hentry q (mem_of_mem_filter hq)]
  have hcons : framesOf d (k :: qs) = PTE_ADDR (d.entry k) :: framesOf d qs := by
    rw [framesOf, filter_cons, if_pos hp]
    rfl
  refine ⟨h.page.trans (d.page_setPte ..), ?_, ?_, ?_, ?_⟩
  · intro i
    rw [h.tables i, d.pde_setPte]
  · intro q
    rw [h.entry q]
    by_cases hq : q = k
    · subst hq
      rw [hset, update_self, ite_self, if_pos ⟨mem_cons_self, hp⟩]
    · rw [hset, update_of_ne hq]
      simp [hq]
  · rw [h.freelist, hframes, hfree, hcons, reverse_cons, append_assoc]
    rfl
  · intro p hp
    rw [hcons, mem_cons, not_or] at hp
    rw [h.mem p (by rw [hframes]; exact hp.2), hmem p hp.1]

end Cleared

/-- `kfree` puts the page in front of the list. -/
theorem kfree_ends {p : Nat} : Ends (kfree im p) s (fun _ s' es => es = [] ∧
    s'.freelist = p :: s.freelist ∧ ∀ q, q ≠ p → s'.mem q = s.mem q)
    fun why => why = .panic "kfree" ∧ ¬ im.Physical p := by
  unfold kfree
  split
  · rename_i hno
    refine ⟨rfl, fun hp => ?_⟩
    obtain hlt | hle := hno
    · exact absurd hp.1 (not_le.mpr hlt)
    · exact absurd hp.2 (not_lt.mpr hle)
  · exact ⟨rfl, rfl, fun q hq => update_of_ne hq ..⟩

/-- How many pages `sz` bytes take. -/
def pages (sz : Word) : Nat := (sz.toNat + PGSIZE - 1) / PGSIZE

theorem PGROUNDUP_pages (h : sz.toNat ≤ KERNBASE) : PGROUNDUP sz = pageAddr (pages sz) :=
  PGROUNDUP_eq h

theorem lt_pages_iff : g < pages sz ↔ PGSIZE * g < sz.toNat := by
  simp only [pages, PGSIZE]
  omega

theorem pages_le (h : sz.toNat ≤ KERNBASE) : pages sz ≤ KERNBASE / PGSIZE := by
  simp only [pages, PGSIZE, KERNBASE] at *
  omega

/-- Which page tables are there. -/
def Pgdir.hasTable (d : Pgdir) (i : Nat) : Bool := (d.pde i).isSome

theorem hasTable_setPte (d : Pgdir) (va e : Word) : (d.setPte va e).hasTable = d.hasTable :=
  funext fun i => d.isSome_pde_setPte va e i

theorem hasTable_of_present (h : present (d.entry g) = true) :
    d.hasTable (g / NPTENTRIES) = true := by
  by_contra hno
  have hnone : d.pde (g / NPTENTRIES) = none := by simpa [Pgdir.hasTable] using hno
  rw [Pgdir.entry_of_none hnone] at h
  exact absurd h Bool.false_ne_true

/-- The loop clears the pages on its way. -/
theorem deallocuvmLoop_ends (hsz : oldsz.toNat ≤ KERNBASE) (turns : Nat) :
    ∀ {d : Pgdir} {k : Nat} {s : Kmem im}, k < 2 ^ 20 →
    Ends (deallocuvmLoop im turns d (pageAddr k) oldsz) s
      (fun d' s' es => es = [] ∧ Cleared s d (sweep d.hasTable turns k (pages oldsz)) s' d')
      fun why => why = .panic "kfree" ∧ ∃ q, k ≤ q ∧ q < pages oldsz ∧
        present (d.entry q) = true ∧ ¬ im.Physical (PTE_ADDR (d.entry q)) := by
  induction turns with
  | zero =>
    intro d k s hk
    exact ⟨rfl, Cleared.refl s d⟩
  | succ turns ih =>
    intro d k s hk
    rw [deallocuvmLoop, sweep]
    by_cases hlt : k < pages oldsz
    · have hless : pageAddr k < oldsz := (pageAddr_lt_iff hk).mpr (lt_pages_iff.mp hlt)
      have hle := pages_le hsz
      have hfits : k + NPTENTRIES < 2 ^ 20 := by
        simp only [PGSIZE, KERNBASE, NPTENTRIES] at *
        omega
      have hnext : k + 1 < 2 ^ 20 := lt_of_le_of_lt (Nat.add_le_add_left (by decide) k) hfits
      rw [if_pos hlt, if_pos hless]
      apply Ends.bind walkpgdir_false_does
      rintro r _ _ ⟨rfl, rfl, ⟨rfl, hnone⟩ | ⟨t, rfl, ht⟩⟩
      · rw [PDX_pageAddr hk] at hnone
        have hmissing : ¬ d.hasTable (k / NPTENTRIES) = true := by simp [Pgdir.hasTable, hnone]
        rw [pageAddr_add, if_neg hmissing]
        apply (ih hfits).weaken
        rintro why ⟨rfl, q, hkq, hq⟩
        exact ⟨rfl, q, le_trans (Nat.le_add_right ..) hkq, hq⟩
      · have htable : d.hasTable (k / NPTENTRIES) = true := by
          rw [Pgdir.hasTable, ← PDX_pageAddr hk, ht]
          rfl
        simp only [pte_pageAddr hk, pageAddr_succ]
        rw [if_pos htable]
        refine ends_ite ?_ ?_
        · intro hpres
          refine ends_ite ?_ ?_
          · intro hzero
            refine ⟨rfl, k, le_rfl, hlt, hpres, ?_⟩
            rw [hzero]
            exact not_physical_zero im
          · intro _
            refine Ends.bind (kfree_ends.weaken ?_) ?_
            · rintro why ⟨rfl, hno⟩
              exact ⟨rfl, k, le_rfl, hlt, hpres, hno⟩
            · rintro _ s₁ _ ⟨rfl, hfree, hmem⟩
              have hnot : k ∉ sweep d.hasTable turns (k + 1) (pages oldsz) := by
                intro hmem
                exact absurd (le_of_mem_sweep turns hmem) (Nat.not_succ_le_self k)
              refine ((ih hnext).mono ?_).weaken ?_
              · rintro d' s' _ ⟨rfl, hcleared⟩
                rw [hasTable_setPte] at hcleared
                exact ⟨rfl, Cleared.cons hk ht hpres hfree hmem hnot hcleared⟩
              · rintro why ⟨rfl, q, hkq, hq, hp, hno⟩
                rw [entry_clear hk ht, update_of_ne (by omega)] at hp hno
                exact ⟨rfl, q, Nat.le_of_succ_le hkq, hq, hp, hno⟩
        · intro habsent
          refine ((ih hnext).mono ?_).weaken ?_
          · rintro d' s' _ ⟨rfl, hcleared⟩
            exact ⟨rfl, hcleared.skip (Bool.eq_false_iff.mpr habsent)⟩
          · rintro why ⟨rfl, q, hkq, hq⟩
            exact ⟨rfl, q, Nat.le_of_succ_le hkq, hq⟩
    · have hless : ¬ pageAddr k < oldsz := by
        rw [pageAddr_lt_iff hk, ← lt_pages_iff]
        exact hlt
      rw [if_neg hlt, if_neg hless]
      exact ⟨rfl, Cleared.refl s d⟩

/-- `deallocuvm` to a smaller size. -/
theorem deallocuvm_ends (hlt : newsz < oldsz) (hsz : oldsz.toNat ≤ KERNBASE) :
    Ends (deallocuvm im d oldsz newsz) s
      (fun r s' es => es = [] ∧ r.2 = newsz ∧
        Cleared s d (sweep d.hasTable (2 ^ 20) (pages newsz) (pages oldsz)) s' r.1)
      fun why => why = .panic "kfree" ∧ ∃ q, pages newsz ≤ q ∧ q < pages oldsz ∧
        present (d.entry q) = true ∧ ¬ im.Physical (PTE_ADDR (d.entry q)) := by
  have hnew : newsz.toNat ≤ KERNBASE := le_trans (Nat.le_of_lt hlt) hsz
  have hpage : pages newsz < 2 ^ 20 := lt_of_le_of_lt (pages_le hnew) (by decide)
  have hno : ¬ oldsz ≤ newsz := Nat.not_le_of_lt hlt
  unfold deallocuvm
  rw [if_neg hno, PGROUNDUP_pages hnew]
  apply Ends.bind (deallocuvmLoop_ends hsz _ hpage)
  rintro d' s' _ ⟨rfl, hcleared⟩
  exact ⟨rfl, rfl, hcleared⟩

/-- What `deallocuvm` is for: the pages from `lo` to `hi` are taken out and given back, each once, and
nothing else changes. -/
structure Removed (s : Kmem im) (d : Pgdir) (lo hi : Nat) (s' : Kmem im) (d' : Pgdir) : Prop where
  absent : ∀ g, lo ≤ g → g < hi → present (d'.entry g) = false
  same : ∀ g, ¬ (lo ≤ g ∧ g < hi) → d'.entry g = d.entry g
  freed : s'.freelist = (framesOf d (List.range' lo (hi - lo))).reverse ++ s.freelist

/-- All that is mapped there is on the way. -/
theorem Cleared.removed {s' : Kmem im} {d' : Pgdir} {lo hi : Nat} {qs : List Nat}
    (h : Cleared s d qs s' d') (hsorted : qs.SortedLT) (hrange : ∀ g ∈ qs, lo ≤ g ∧ g < hi)
    (hall : ∀ g, lo ≤ g → g < hi → present (d.entry g) = true → g ∈ qs) :
    Removed s d lo hi s' d' where
  absent := by
    intro g hlo hhi
    rw [h.entry g]
    split
    · exact present_zero
    · rename_i hno
      by_contra hp
      have hp := Bool.not_eq_false _ ▸ hp
      exact hno ⟨hall g hlo hhi hp, hp⟩
  same := by
    intro g hno
    rw [h.entry g, if_neg fun hg => hno (hrange g hg.1)]
  freed := by
    have hfilter : (qs.filter fun q => present (d.entry q)) =
        (List.range' lo (hi - lo)).filter fun q => present (d.entry q) := by
      apply List.SortedLT.eq_of_mem_iff
      · exact (hsorted.pairwise.filter _).sortedLT
      · exact ((pairwise_lt_range' ..).filter _).sortedLT
      · intro g
        rw [mem_filter, mem_filter, mem_range'_1]
        constructor
        · rintro ⟨hg, hp⟩
          have := hrange g hg
          exact ⟨by omega, hp⟩
        · rintro ⟨hg, hp⟩
          exact ⟨hall g hg.1 (by omega) hp, hp⟩
    rw [h.freelist, framesOf, hfilter]
    rfl

/-- Nothing that is mapped is passed over, and `kfree` takes all of it. -/
theorem deallocuvm_removed (hlt : newsz < oldsz) (hsz : oldsz.toNat ≤ KERNBASE)
    (hcond : ∀ g, pages newsz ≤ g → g < pages oldsz → present (d.entry g) = true →
      im.Physical (PTE_ADDR (d.entry g)) ∧ ¬ Skips d.hasTable (pages newsz) g) :
    ∃ d' s', deallocuvm im d oldsz newsz s = .ok (d', newsz) s' [] ∧
      Removed s d (pages newsz) (pages oldsz) s' d' := by
  have hturns : pages oldsz ≤ pages newsz + 2 ^ 20 :=
    le_trans (pages_le hsz) (le_trans (by decide) (Nat.le_add_left ..))
  have hends := deallocuvm_ends (d := d) (s := s) hlt hsz
  cases hrun : deallocuvm im d oldsz newsz s with
  | halt why es =>
    obtain ⟨-, q, hlo, hhi, hp, hno⟩ := hends.of_halt hrun
    exact absurd (hcond q hlo hhi hp).1 hno
  | ok r s' es =>
    obtain ⟨rfl, hr, hcleared⟩ := hends.of_ok hrun
    refine ⟨r.1, s', by rw [← hr], hcleared.removed (sortedLT_sweep _) ?_ ?_⟩
    · intro g hg
      obtain ⟨hlo, hhi, -⟩ := (mem_sweep _ hturns).mp hg
      exact ⟨hlo, hhi⟩
    · intro g hlo hhi hp
      exact (mem_sweep _ hturns).mpr ⟨hlo, hhi, hasTable_of_present hp, (hcond g hlo hhi hp).2⟩

/-- `deallocuvm` takes out exactly the range, if every page that is mapped there is one that `kfree`
takes and none is passed over for the sake of a missing page table. -/
theorem deallocuvm_removes_iff {d : Pgdir} {oldsz newsz : Word} {s : Kmem im} (hlt : newsz < oldsz)
    (hsz : oldsz.toNat ≤ KERNBASE) :
    (∃ d' s', deallocuvm im d oldsz newsz s = .ok (d', newsz) s' [] ∧
      Removed s d (pages newsz) (pages oldsz) s' d') ↔
    ∀ g, pages newsz ≤ g → g < pages oldsz → present (d.entry g) = true →
      im.Physical (PTE_ADDR (d.entry g)) ∧ ¬ Skips d.hasTable (pages newsz) g := by
  constructor
  · rintro ⟨d', s', hrun, hrem⟩ g hlo hhi hp
    obtain ⟨-, -, hcleared⟩ := (deallocuvm_ends hlt hsz).of_ok hrun
    constructor
    · apply s'.physical
      rw [hrem.freed]
      apply mem_append_left
      rw [mem_reverse, framesOf]
      exact mem_map.mpr ⟨g, mem_filter.mpr ⟨mem_range'_1.mpr ⟨hlo, by omega⟩, hp⟩, rfl⟩
    · intro hskip
      have hturns : pages oldsz ≤ pages newsz + 2 ^ 20 :=
        le_trans (pages_le hsz) (le_trans (by decide) (Nat.le_add_left ..))
      have hnot : g ∉ sweep d.hasTable (2 ^ 20) (pages newsz) (pages oldsz) := by
        rw [mem_sweep _ hturns]
        exact fun h => h.2.2.2 hskip
      have hsame := hcleared.entry g
      rw [if_neg fun h => hnot h.1] at hsame
      have habsent := hrem.absent g hlo hhi
      rw [hsame, hp] at habsent
      exact absurd habsent.symm Bool.false_ne_true
  · exact deallocuvm_removed hlt hsz

end

/-- A directory without the first page table, and with one page in the second. -/
def holedDir : Pgdir := ((emptyDir 0x300).addTable 1 0x301).setPte (pageAddr 0x400) 0x202007

/-- From page 1 on `deallocuvm` goes to page 0x401, past the one that is mapped. -/
theorem deallocuvm_passes_page : ∃ d' s',
    deallocuvm sampleLayout holedDir 0x401000 0x1000 twoPages = .ok (d', 0x1000) s' [] ∧
      pages 0x1000 ≤ 0x400 ∧ 0x400 < pages 0x401000 ∧ present (d'.entry 0x400) = true := by
  refine ⟨holedDir, twoPages, ?_, by decide, by decide, by decide⟩
  rfl

/-- To size 0 all of it is taken out. -/
theorem deallocuvm_removes_holedDir : ∃ d' s',
    deallocuvm sampleLayout holedDir 0x401000 0 twoPages = .ok (d', 0) s' [] ∧
      Removed twoPages holedDir (pages 0) (pages 0x401000) s' d' := by
  apply (deallocuvm_removes_iff (by decide) (by decide)).mpr
  intro g _ _ hp
  have hentry : holedDir.entry = update (emptyDir 0x300).entry 0x400 0x202007 := by
    rw [holedDir, Pgdir.entry_setPte (t := ⟨0x301, fun _ => 0⟩) rfl, Pgdir.entry_addTable rfl]
    rfl
  obtain rfl : g = 0x400 := by
    by_contra hne
    rw [hentry, update_of_ne hne, entry_emptyDir] at hp
    exact absurd hp Bool.false_ne_true
  exact ⟨by decide, fun hskip => absurd hskip.2.1 (Nat.not_lt_zero _)⟩

end Xv6.Vm
