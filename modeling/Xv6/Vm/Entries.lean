import Mathlib.Data.Finset.Card
import Mathlib.Data.Finset.Range
import Xv6.Vm.Memory

/-!
# The entries of a page directory

A page directory read as a function from the numbers of virtual pages to entries. Storing an entry
is an update of that function, and a new page table changes nothing about it.
-/

namespace Xv6.Vm

open Function Finset BitVec

open Lib Act

/-! ## Bits of an entry -/

@[simp] theorem present_zero : present 0#32 = false := rfl

@[simp] theorem user_zero : user 0#32 = false := rfl

theorem present_or (pa perm : Word) : present (pa ||| perm ||| PTE_P) = true := by
  simp [present, PTE_P]

theorem user_or (pa perm : Word) :
    user (pa ||| perm ||| PTE_P) = (pa.getLsbD 2 || perm.getLsbD 2) := by
  simp [user, PTE_P]

variable {p g : Nat} {perm va : Word} {d : Pgdir} {im : Layout}

theorem toNat_pageAddr (hp : p < 2 ^ 20) : (pageAddr p).toNat = PGSIZE * p := by
  rw [pageAddr, toNat_ofNat]
  apply Nat.mod_eq_of_lt
  simp only [PGSIZE]
  omega

theorem toNat_pte (hp : p < 2 ^ 20) (hperm : perm.toNat < PGSIZE) :
    (pageAddr p ||| perm ||| PTE_P).toNat = PGSIZE * p + (perm ||| PTE_P).toNat ∧
      (perm ||| PTE_P).toNat < PGSIZE := by
  have hor : (perm ||| PTE_P).toNat = perm.toNat ||| 1 := toNat_or ..
  have hflags : perm.toNat ||| 1 < 2 ^ 12 := Nat.or_lt_two_pow hperm (by decide)
  have hnat : (pageAddr p ||| perm ||| PTE_P).toNat = 2 ^ 12 * p ||| (perm.toNat ||| 1) := by
    rw [toNat_or, toNat_or, toNat_pageAddr hp, Nat.or_assoc]
    rfl
  rw [hnat, hor, ← Nat.two_pow_add_eq_or_of_lt hflags]
  exact ⟨rfl, hflags⟩

theorem PTE_ADDR_or (hp : p < 2 ^ 20) (hperm : perm.toNat < PGSIZE) :
    PTE_ADDR (pageAddr p ||| perm ||| PTE_P) = p := by
  obtain ⟨hnat, hflags⟩ := toNat_pte hp hperm
  rw [PTE_ADDR, hnat]
  simp only [PGSIZE] at *
  omega

theorem PTE_FLAGS_or (hp : p < 2 ^ 20) (hperm : perm.toNat < PGSIZE) :
    PTE_FLAGS (pageAddr p ||| perm ||| PTE_P) = perm ||| PTE_P := by
  obtain ⟨hnat, hflags⟩ := toNat_pte hp hperm
  apply eq_of_toNat_eq
  rw [PTE_FLAGS, hnat, toNat_ofNat]
  simp only [PGSIZE] at *
  omega

theorem PTE_FLAGS_lt (pte : Word) : (PTE_FLAGS pte).toNat < PGSIZE := by
  have hlt : pte.toNat % PGSIZE < PGSIZE := Nat.mod_lt _ (by decide)
  rw [PTE_FLAGS, toNat_ofNat]
  exact lt_of_le_of_lt (Nat.mod_le ..) hlt

theorem present_clear (e : Word) : present (e &&& ~~~PTE_U) = present e := by
  simp [present, PTE_U]

theorem PTE_ADDR_clear (e : Word) : PTE_ADDR (e &&& ~~~PTE_U) = PTE_ADDR e := by
  have hbit : ∀ j, j < 32 → 3 ≤ j → (~~~PTE_U).getLsbD j = true := by decide
  have hshift : (e &&& ~~~PTE_U) >>> 12 = e >>> 12 := by
    apply eq_of_getLsbD_eq
    intro i _
    rw [getLsbD_ushiftRight, getLsbD_ushiftRight, getLsbD_and]
    by_cases hj : 12 + i < 32
    · rw [hbit _ hj (by omega), Bool.and_true]
    · rw [getLsbD_of_ge e _ (by omega), Bool.false_and]
  have hnat := congrArg BitVec.toNat hshift
  rwa [toNat_ushiftRight, toNat_ushiftRight, Nat.shiftRight_eq_div_pow,
    Nat.shiftRight_eq_div_pow] at hnat

/-! ## Entries -/

namespace Pgdir

/-- The entry for a virtual page. -/
def entry (d : Pgdir) (g : Nat) : Word :=
  match d.pde (g / NPTENTRIES) with
  | some t => t.pte (g % NPTENTRIES)
  | none => 0

/-- A new page table. -/
def addTable (d : Pgdir) (i p : Nat) : Pgdir :=
  { d with pde := update d.pde i (some { page := p, pte := fun _ => 0 }) }

theorem PDX_eq (va : Word) : PDX va = va.toNat / PGSIZE / NPTENTRIES := by
  simp only [PDX, PGSIZE, NPTENTRIES]
  omega

theorem PTX_eq (va : Word) : PTX va = va.toNat / PGSIZE % NPTENTRIES := rfl

theorem pte_eq (d : Pgdir) (va : Word) : d.pte va = d.entry (va.toNat / PGSIZE) := by
  rw [pte, entry, PDX_eq]
  rfl

variable {d : Pgdir} {i : Nat} {va e : Word} {t : Table}

theorem entry_of_none {g : Nat} (h : d.pde (g / NPTENTRIES) = none) : d.entry g = 0 := by
  rw [entry, h]

theorem entry_addTable {p : Nat} (h : d.pde i = none) : (d.addTable i p).entry = d.entry := by
  funext g
  by_cases hi : g / NPTENTRIES = i
  · rw [entry_of_none (d := d) (by rw [hi]; exact h)]
    simp [entry, addTable, hi]
  · simp [entry, addTable, hi]

theorem entry_setPte (h : d.pde (PDX va) = some t) :
    (d.setPte va e).entry = update d.entry (va.toNat / PGSIZE) e := by
  funext g
  by_cases hg : g = va.toNat / PGSIZE
  · subst hg
    rw [update_self, ← pte_eq]
    simp [pte, setPte, h]
  · rw [update_of_ne hg]
    by_cases hi : g / NPTENTRIES = PDX va
    · have hj : g % NPTENTRIES ≠ PTX va := by
        intro hj
        apply hg
        rw [PDX_eq] at hi
        rw [PTX_eq] at hj
        rw [← Nat.div_add_mod g NPTENTRIES, hi, hj, Nat.div_add_mod]
      simp [entry, setPte, h, hi, hj]
    · simp [entry, setPte, h, hi]

theorem page_setPte (d : Pgdir) (va e : Word) : (d.setPte va e).page = d.page := by
  unfold setPte
  split <;> rfl

theorem pde_setPte (d : Pgdir) (va e : Word) (i : Nat) :
    ((d.setPte va e).pde i).map Table.page = (d.pde i).map Table.page := by
  unfold setPte
  split
  · rename_i t ht
    by_cases hi : i = PDX va
    · subst hi
      simp [ht]
    · simp [hi]
  · rfl

theorem isSome_pde_setPte (d : Pgdir) (va e : Word) (i : Nat) :
    ((d.setPte va e).pde i).isSome = (d.pde i).isSome := by
  have h := congrArg Option.isSome (pde_setPte d va e i)
  rwa [Option.isSome_map, Option.isSome_map] at h

/-- How many page tables there are. -/
def tableCount (d : Pgdir) : Nat :=
  ((Finset.range NPDENTRIES).filter fun i => (d.pde i).isSome).card

theorem tableCount_setPte (d : Pgdir) (va e : Word) :
    (d.setPte va e).tableCount = d.tableCount := by
  simp only [tableCount, isSome_pde_setPte]

theorem isSome_pde_addTable (d : Pgdir) (i p j : Nat) :
    ((d.addTable i p).pde j).isSome ↔ (d.pde j).isSome ∨ i = j := by
  by_cases hj : j = i
  · simp [addTable, hj]
  · simp [addTable, hj, Ne.symm hj]

theorem tableCount_addTable (h : d.pde i = none) (hi : i < NPDENTRIES) (p : Nat) :
    (d.addTable i p).tableCount = d.tableCount + 1 := by
  have hset : ((Finset.range NPDENTRIES).filter fun j => ((d.addTable i p).pde j).isSome) =
      insert i ((Finset.range NPDENTRIES).filter fun j => (d.pde j).isSome) := by
    ext j
    rw [mem_insert, mem_filter, mem_filter, isSome_pde_addTable,
      mem_range]
    constructor
    · rintro ⟨hj, hsome | rfl⟩
      · exact .inr ⟨hj, hsome⟩
      · exact .inl rfl
    · rintro (rfl | ⟨hj, hsome⟩)
      · exact ⟨hi, .inr rfl⟩
      · exact ⟨hj, .inl hsome⟩
  rw [tableCount, hset, card_insert_of_notMem (by simp [h])]
  rfl

/-- `d'` is `d` with the entries `w 0`, `w 1` and so on for the `m` pages from `g` on, and with the
page tables that are needed for them. -/
structure Entered (d d' : Pgdir) (g m : Nat) (w : Nat → Word) : Prop where
  page : d'.page = d.page
  entry : ∀ q, d'.entry q = if g ≤ q ∧ q < g + m then w (q - g) else d.entry q
  table : ∀ i, (d'.pde i).isSome ↔
    (d.pde i).isSome ∨ ∃ q, g ≤ q ∧ q < g + m ∧ q / NPTENTRIES = i

namespace Entered

variable {d d' d'' : Pgdir} {g m : Nat} {w : Nat → Word}

theorem refl (d : Pgdir) (g : Nat) (w : Nat → Word) : Entered d d g 0 w where
  page := rfl
  entry := by
    intro q
    rw [if_neg (by omega)]
  table := by
    intro i
    constructor
    · exact .inl
    · rintro (h | ⟨q, hle, hlt, -⟩)
      · exact h
      · omega

theorem cons {e : Word} (h : Entered d d' g 1 fun _ => e) (h' : Entered d' d'' (g + 1) m w) :
    Entered d d'' g (m + 1) fun k => if k = 0 then e else w (k - 1) where
  page := h'.page.trans h.page
  entry := by
    intro q
    rw [h'.entry q, h.entry q]
    by_cases hq : q = g
    · subst hq
      rw [if_neg (by omega), if_pos (by omega), if_pos (by omega), if_pos (by omega)]
    · by_cases hlt : g + 1 ≤ q ∧ q < g + 1 + m
      · rw [if_pos hlt, if_pos (by omega), if_neg (by omega), Nat.sub_add_eq]
      · rw [if_neg hlt, if_neg (by omega), if_neg (by omega)]
  table := by
    intro i
    rw [h'.table i, h.table i]
    constructor
    · rintro ((hi | ⟨q, hle, hlt, hq⟩) | ⟨q, hle, hlt, hq⟩)
      · exact .inl hi
      · exact .inr ⟨q, hle, by omega, hq⟩
      · exact .inr ⟨q, by omega, by omega, hq⟩
    · rintro (hi | ⟨q, hle, hlt, hq⟩)
      · exact .inl (.inl hi)
      · by_cases hqg : q = g
        · exact .inl (.inr ⟨q, hle, by omega, hq⟩)
        · exact .inr ⟨q, by omega, by omega, hq⟩

end Entered

theorem entered_setPte (h : d.pde (PDX va) = some t) :
    Entered d (d.setPte va e) (va.toNat / PGSIZE) 1 fun _ => e where
  page := d.page_setPte va e
  entry := by
    intro q
    rw [entry_setPte h, update_apply]
    by_cases hq : q = va.toNat / PGSIZE
    · rw [if_pos hq, if_pos (by omega)]
    · rw [if_neg hq, if_neg (by omega)]
  table := by
    intro i
    rw [isSome_pde_setPte]
    constructor
    · exact .inl
    · rintro (hi | ⟨q, hle, hlt, rfl⟩)
      · exact hi
      · rw [show q = va.toNat / PGSIZE by omega, ← PDX_eq, h]
        rfl

theorem entered_addTable (h : d.pde (PDX va) = none) (p : Nat) :
    Entered d ((d.addTable (PDX va) p).setPte va e) (va.toNat / PGSIZE) 1 fun _ => e := by
  have htable : (d.addTable (PDX va) p).pde (PDX va) = some { page := p, pte := fun _ => 0 } :=
    update_self ..
  have hset := entered_setPte (e := e) htable
  refine ⟨hset.page, ?_, ?_⟩
  · intro q
    rw [hset.entry q, entry_addTable h]
  · intro i
    rw [hset.table i, isSome_pde_addTable, PDX_eq]
    constructor
    · rintro ((hi | hi) | hq)
      · exact .inl hi
      · exact .inr ⟨_, le_rfl, Nat.lt_succ_self _, hi⟩
      · exact .inr hq
    · rintro (hi | hq)
      · exact .inl (.inl hi)
      · exact .inr hq

end Pgdir

/-! ## Single calls -/

section

variable {d : Pgdir} {va : Word} {im : Layout} {s : Kmem im} {E : Halt → List VmEvent → Prop}

/-- `kalloc` takes the first page of the list, if there is one. -/
theorem kalloc_does : Does kalloc s (fun r s' es => es = [] ∧
    (r = none ∧ s.freelist = [] ∧ s = s' ∨
      ∃ p, r = some p ∧ s.freelist = p :: s'.freelist ∧ s.mem = s'.mem)) E := by
  obtain ⟨freelist, mem, h⟩ := s
  cases freelist with
  | nil => exact ⟨rfl, .inl ⟨rfl, rfl, rfl⟩⟩
  | cons p ps => exact ⟨rfl, .inr ⟨p, rfl, rfl, rfl⟩⟩

theorem store_ends {p : Nat} {b : Bytes PGSIZE} {E : Halt → Prop} :
    Ends (store p b) s (fun _ s' es => es = [] ∧ s'.freelist = s.freelist ∧
      s'.mem = update s.mem p b) E := ⟨rfl, rfl, rfl⟩

theorem walkpgdir_false_does : Does (walkpgdir d va false) s (fun r s' es => s = s' ∧ es = [] ∧
    (r = none ∧ d.pde (PDX va) = none ∨ ∃ t, r = some d ∧ d.pde (PDX va) = some t)) E := by
  unfold walkpgdir
  cases h : d.pde (PDX va) with
  | none => exact ⟨rfl, rfl, .inl ⟨rfl, rfl⟩⟩
  | some t => exact ⟨rfl, rfl, .inr ⟨t, rfl, rfl⟩⟩

/-- `walkpgdir` with allocation: the table is there, or there is no page for it, or it is new. -/
theorem walkpgdir_true_does : Does (walkpgdir d va true) s (fun r s' es =>
    (∃ t, d.pde (PDX va) = some t ∧ r = some d ∧ s = s' ∧ es = []) ∨
    (d.pde (PDX va) = none ∧ s.freelist = [] ∧ r = none ∧ s = s' ∧ es = [.tableFail]) ∨
    ∃ p, d.pde (PDX va) = none ∧ s.freelist = p :: s'.freelist ∧ s.mem = s'.mem ∧
      r = some (d.addTable (PDX va) p) ∧ es = []) E := by
  unfold walkpgdir
  cases h : d.pde (PDX va) with
  | some t => exact .inl ⟨t, rfl, rfl, rfl, rfl⟩
  | none =>
    obtain ⟨freelist, mem, h⟩ := s
    cases freelist with
    | nil => exact .inr (.inl ⟨rfl, rfl, rfl, rfl, rfl⟩)
    | cons p ps => exact .inr (.inr ⟨p, rfl, rfl, rfl, rfl, rfl⟩)

end

/-! ## Addresses of pages -/

theorem PGROUNDDOWN_of_aligned {a : Word} (h : a.toNat % PGSIZE = 0) : PGROUNDDOWN a = a := by
  have hdiv : a.toNat / PGSIZE * PGSIZE = a.toNat := Nat.div_mul_cancel (Nat.dvd_of_mod_eq_zero h)
  rw [PGROUNDDOWN, hdiv, ofNat_toNat, setWidth_eq]

theorem toNat_PGROUNDDOWN (a : Word) : (PGROUNDDOWN a).toNat = a.toNat / PGSIZE * PGSIZE := by
  have hlt := a.isLt
  rw [PGROUNDDOWN, toNat_ofNat]
  apply Nat.mod_eq_of_lt
  simp only [PGSIZE]
  omega

theorem pageAddr_succ (g : Nat) : pageAddr g + BitVec.ofNat 32 PGSIZE = pageAddr (g + 1) := by
  rw [pageAddr, pageAddr, ← ofNat_add]
  rfl

theorem pageAddr_add (g m : Nat) : pageAddr g + BitVec.ofNat 32 (m * PGSIZE) = pageAddr (g + m) := by
  rw [pageAddr, pageAddr, ← ofNat_add, Nat.mul_add, Nat.mul_comm m]

theorem toNat_pageAddr_div (hg : g < 2 ^ 20) : (pageAddr g).toNat / PGSIZE = g := by
  rw [toNat_pageAddr hg]
  exact Nat.mul_div_cancel_left g (by decide)

theorem PDX_pageAddr (hg : g < 2 ^ 20) : PDX (pageAddr g) = g / NPTENTRIES := by
  rw [Pgdir.PDX_eq, toNat_pageAddr_div hg]

theorem pte_pageAddr (hg : g < 2 ^ 20) : d.pte (pageAddr g) = d.entry g := by
  rw [Pgdir.pte_eq, toNat_pageAddr_div hg]

theorem pageAddr_inj {g' : Nat} (hg : g < 2 ^ 20) (hg' : g' < 2 ^ 20)
    (h : pageAddr g = pageAddr g') : g = g' := by
  have hnat := congrArg BitVec.toNat h
  rw [toNat_pageAddr hg, toNat_pageAddr hg'] at hnat
  exact Nat.eq_of_mul_eq_mul_left (by decide) hnat

/-- `n` pages from page `g` on. -/
structure Covers (va size : Word) (g n : Nat) : Prop where
  va : va = pageAddr g
  size : size.toNat = PGSIZE * n
  pos : 0 < n
  fits : g + n ≤ 2 ^ 20

namespace Covers

variable {va size : Word} {g n : Nat}

theorem first (h : Covers va size g n) : PGROUNDDOWN va = pageAddr g := by
  have hg : g < 2 ^ 20 := by have := h.pos; have := h.fits; omega
  rw [h.va]
  apply PGROUNDDOWN_of_aligned
  rw [toNat_pageAddr hg]
  exact Nat.mul_mod_right ..

theorem last (h : Covers va size g n) : PGROUNDDOWN (va + size - 1) = pageAddr (g + n - 1) := by
  have hpos := h.pos
  have hfits := h.fits
  have hsize := h.size
  have hva : va.toNat = PGSIZE * g := by
    rw [h.va]
    exact toNat_pageAddr (by omega)
  have hone : (1 : Word).toNat = 1 := rfl
  have hsum : (va + size - 1).toNat = PGSIZE * (g + n) - 1 := by
    simp only [PGSIZE, toNat_sub, toNat_add] at *
    omega
  apply eq_of_toNat_eq
  rw [toNat_PGROUNDDOWN, hsum, toNat_pageAddr (by omega)]
  simp only [PGSIZE]
  omega

end Covers

theorem covers_page (hg : g < 2 ^ 20) :
    Covers (pageAddr g) (BitVec.ofNat 32 PGSIZE) g 1 := ⟨rfl, rfl, Nat.one_pos, hg⟩

theorem mappages_eq {size pa : Word} {n : Nat} (h : Covers va size g n) :
    (mappages d va size pa perm : V im (Pgdir × Bool)) =
      mappagesLoop (2 ^ 20) d (pageAddr g) (pageAddr (g + n - 1)) pa perm := by
  rw [mappages, h.first, h.last]

/-- `PGROUNDUP` gives the first page that is not needed for `sz` bytes. -/
theorem PGROUNDUP_eq {sz : Word} (h : sz.toNat ≤ KERNBASE) :
    PGROUNDUP sz = pageAddr ((sz.toNat + PGSIZE - 1) / PGSIZE) := by
  have hsum : (sz + BitVec.ofNat 32 (PGSIZE - 1)).toNat = sz.toNat + PGSIZE - 1 := by
    simp only [PGSIZE, KERNBASE, toNat_add, toNat_ofNat] at *
    omega
  rw [PGROUNDUP, PGROUNDDOWN, hsum, pageAddr, Nat.mul_comm]

theorem pageAddr_lt_iff {w : Word} (hg : g < 2 ^ 20) : pageAddr g < w ↔ PGSIZE * g < w.toNat := by
  rw [lt_def, toNat_pageAddr hg]

/-! ## Entering pages -/

/-- One turn of `mappages`: there is no page for the table, or the entry is stored, in a table that
may be new. -/
theorem mapEntry_does {e : Word} {s : Kmem im} : Does (mapEntry d va e) s (fun r s' es =>
      (d.pde (PDX va) = none ∧ s.freelist = [] ∧ r = none ∧ s = s' ∧ es = [.tableFail]) ∨
      (∃ t, d.pde (PDX va) = some t ∧ present (d.pte va) = false ∧ r = some (d.setPte va e) ∧
        s = s' ∧ es = []) ∨
      ∃ p, d.pde (PDX va) = none ∧ s.freelist = p :: s'.freelist ∧ s.mem = s'.mem ∧
        r = some ((d.addTable (PDX va) p).setPte va e) ∧ es = [])
      fun why es => why = .panic "remap" ∧ es = [] ∧ present (d.pte va) = true := by
  unfold mapEntry
  apply Does.bind walkpgdir_true_does
  rintro r s' es (⟨t, ht, rfl, rfl, rfl⟩ | ⟨hnone, hf, rfl, rfl, rfl⟩ |
    ⟨p, hnone, hf, hmem, rfl, rfl⟩)
  · refine does_ite (fun hp => ⟨rfl, rfl, hp⟩) fun hp => ?_
    exact .inr (.inl ⟨t, ht, Bool.eq_false_iff.mpr hp, rfl, rfl, rfl⟩)
  · exact .inl ⟨hnone, hf, rfl, rfl, rfl⟩
  · have hzero : (d.addTable (PDX va) p).pte va = 0 := by
      rw [Pgdir.pte_eq, Pgdir.entry_addTable hnone, ← Pgdir.pte_eq, Pgdir.pte, hnone]
    have habsent : ¬ present ((d.addTable (PDX va) p).pte va) = true := by
      rw [hzero]
      decide
    refine does_ite (fun hp => absurd hp habsent) fun _ => ?_
    exact .inr (.inr ⟨p, hnone, hf, hmem, rfl, rfl⟩)

end Xv6.Vm
