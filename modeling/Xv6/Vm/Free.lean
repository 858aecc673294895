import Xv6.Vm.Kernel

/-!
# Giving memory back

`deallocuvm` and `freevm`. Where a page table is missing `deallocuvm` goes on 1024 pages further,
which are the pages of that table only if it came to the first of them. `freevm` starts at page 0
and so comes to every page.
-/

namespace Xv6.Vm

open Lib Act

variable {im : Layout}

/-- Every page of the directory is one that `kfree` takes. -/
def Owned (im : Layout) (d : Pgdir) : Prop := ∀ p, 0 < held d p → im.Physical p

/-- `deallocuvm` on its way up has come to page `k`: nothing below is mapped for the user, and if
`k` is not the first page of its table then the table is there. -/
structure Swept (d : Pgdir) (k : Nat) : Prop where
  below : ∀ q, q < k → present (d.entry q) = false
  table : k % NPTENTRIES = 0 ∨ (d.pde (k / NPTENTRIES)).isSome

theorem Swept.frames_eq_zero {d : Pgdir} {k : Nat} (h : Swept d k) (hk : KERNBASE / PGSIZE ≤ k) :
    frames d = 0 := by
  apply Finset.sum_eq_zero
  intro q hq
  have hlt := Finset.mem_range.mp hq
  rw [frameMark, h.below q (lt_of_lt_of_le hlt hk)]
  rfl

theorem Swept.skip {d : Pgdir} {k : Nat} (h : Swept d k) (hnone : d.pde (k / NPTENTRIES) = none) :
    Swept d (k + NPTENTRIES) := by
  have hk : k % NPTENTRIES = 0 := h.table.resolve_right (by rw [hnone]; decide)
  refine ⟨?_, .inl (by rw [Nat.add_mod_right, hk])⟩
  intro q hq
  by_cases hlt : q < k
  · exact h.below q hlt
  · have hdiv : q / NPTENTRIES = k / NPTENTRIES := by
      simp only [NPTENTRIES] at *
      omega
    rw [Pgdir.entry_of_none (by rw [hdiv]; exact hnone)]
    exact present_zero

theorem Swept.succ {d d' : Pgdir} {k : Nat} (h : Swept d k)
    (hentry : ∀ q, q < k → d'.entry q = d.entry q) (hk : present (d'.entry k) = false)
    (htable : (d'.pde (k / NPTENTRIES)).isSome) : Swept d' (k + 1) := by
  constructor
  · intro q hq
    rcases Nat.lt_succ_iff_lt_or_eq.mp hq with hlt | rfl
    · rw [hentry q hlt]
      exact h.below q hlt
    · exact hk
  · by_cases hmod : (k + 1) % NPTENTRIES = 0
    · exact .inl hmod
    · have hdiv : (k + 1) / NPTENTRIES = k / NPTENTRIES := by
        simp only [NPTENTRIES] at *
        omega
      rw [hdiv]
      exact .inr htable

section

variable {E : Prop} {h : Nat → Int}

variable {d : Pgdir} {g i : Nat} {t : Table} {oldsz : Word}

theorem held_frame_pos (hg : g < KERNBASE / PGSIZE) (hp : present (d.entry g) = true) :
    0 < held d (PTE_ADDR (d.entry g)) := by
  have hle : frameMark (d.entry g) (PTE_ADDR (d.entry g)) ≤ frames d (PTE_ADDR (d.entry g)) :=
    Finset.single_le_sum (f := fun q => frameMark (d.entry q))
      (fun q _ => frameMark_nonneg (d.entry q)) (Finset.mem_range.mpr hg) _
  have htables := tables_nonneg d (PTE_ADDR (d.entry g))
  have hpage := mark_nonneg (some d.page) (PTE_ADDR (d.entry g))
  rw [frameMark, if_pos hp, mark_some_self] at hle
  simp only [held, Pi.add_apply, Pi.zero_apply] at *
  omega

theorem Owned.physical (ho : Owned im d) (hg : g < KERNBASE / PGSIZE)
    (hp : present (d.entry g) = true) : im.Physical (PTE_ADDR (d.entry g)) :=
  ho _ (held_frame_pos hg hp)

theorem held_clear (hg : g < KERNBASE / PGSIZE) (ht : d.pde (PDX (pageAddr g)) = some t)
    (hp : present (d.entry g) = true) :
    held d = held (d.setPte (pageAddr g) 0) + mark (some (PTE_ADDR (d.entry g))) := by
  have hpage : g < 2 ^ 20 := lt_trans hg (by decide)
  have hold : share g (d.entry g) = mark (some (PTE_ADDR (d.entry g))) := by
    rw [share, if_pos hg, frameMark, if_pos hp]
  have hnew : share g 0 = 0 := share_of_absent present_zero
  rw [held_setPte ht, toNat_pageAddr_div hpage, pte_pageAddr hpage, hold, hnew]
  abel

theorem Owned.clear {d' : Pgdir} {p : Nat} (ho : Owned im d)
    (heq : held d = held d' + mark (some p)) : Owned im d' := by
  intro q hq
  apply ho
  rw [heq, Pi.add_apply]
  exact lt_of_lt_of_le hq (le_add_of_nonneg_right (mark_nonneg _ q))

theorem not_physical_zero (im : Layout) : ¬ im.Physical 0 := by
  intro hp
  have hdata := im.above
  have horder := im.order
  have hle := hp.1
  simp only [EXTMEM, Nat.mul_zero] at *
  omega

theorem deallocuvmLoop_moves (hsz : oldsz.toNat ≤ KERNBASE) (turns : Nat) :
    ∀ {d : Pgdir} {k : Nat}, k < 2 ^ 20 → (¬ Owned im d → E) →
    Moves (deallocuvmLoop im turns d (pageAddr k) oldsz) (held d + h) (fun d' h' =>
      held d' + h = h' ∧ (Owned im d → Owned im d') ∧
      (Swept d k → KERNBASE / PGSIZE ≤ k + turns → oldsz.toNat = KERNBASE → frames d' = 0)) E := by
  induction turns with
  | zero =>
    intro d k hk ho
    exact moves_pure ⟨rfl, id, fun hswept hle _ => hswept.frames_eq_zero hle⟩
  | succ turns ih =>
    intro d k hk ho
    rw [deallocuvmLoop]
    refine moves_ite ?_ ?_
    · intro hlt
      rw [pageAddr_lt_iff hk] at hlt
      have huser : k < KERNBASE / PGSIZE := by
        simp only [PGSIZE, KERNBASE] at *
        omega
      have hfits : k + NPTENTRIES < 2 ^ 20 := by
        simp only [PGSIZE, KERNBASE, NPTENTRIES] at *
        omega
      have hnext : k + 1 < 2 ^ 20 := lt_of_le_of_lt (Nat.add_le_add_left (by decide) k) hfits
      apply walkpgdir_moves.bind
      rintro r _ ⟨rfl, ⟨rfl, hnone⟩ | ⟨t, rfl, ht⟩⟩
      · rw [PDX_pageAddr hk] at hnone
        rw [pageAddr_add]
        apply (ih hfits ho).mono
        rintro d' h' ⟨heq, hown, hfree⟩
        refine ⟨heq, hown, fun hswept hle => hfree (hswept.skip hnone) ?_⟩
        simp only [NPTENTRIES]
        omega
      · have htable : (d.pde (k / NPTENTRIES)).isSome := by
          rw [← PDX_pageAddr hk, ht]
          rfl
        simp only [pte_pageAddr hk, pageAddr_succ]
        refine moves_ite ?_ ?_
        · intro hpres
          have hphys : ¬ im.Physical (PTE_ADDR (d.entry k)) → E :=
            fun hno => ho fun howned => hno (howned.physical huser hpres)
          have hheld := held_clear huser ht hpres
          refine moves_ite ?_ ?_
          · intro hzero
            rw [hzero] at hphys
            exact moves_panic (hphys (not_physical_zero im))
          · intro _
            rw [hheld, add_right_comm]
            apply (kfree_moves hphys).bind
            rintro _ _ rfl
            have ho' : ¬ Owned im (d.setPte (pageAddr k) 0) → E :=
              fun hno => ho fun howned => hno (howned.clear hheld)
            have hentered := Pgdir.entered_setPte (e := 0) ht
            rw [toNat_pageAddr_div hk] at hentered
            apply (ih hnext ho').mono
            rintro d' h' ⟨heq, hown, hfree⟩
            refine ⟨heq, fun howned => hown (howned.clear hheld), fun hswept hle =>
              hfree (hswept.succ ?_ ?_ ?_) (by omega)⟩
            · intro q hq
              rw [hentered.entry q, if_neg (by omega)]
            · rw [hentered.entry k, if_pos (by omega)]
              exact present_zero
            · exact (hentered.table _).mpr (.inl htable)
        · intro habsent
          apply (ih hnext ho).mono
          rintro d' h' ⟨heq, hown, hfree⟩
          refine ⟨heq, hown, fun hswept hle => hfree (hswept.succ ?_ ?_ htable) (by omega)⟩
          · exact fun _ _ => rfl
          · exact Bool.eq_false_iff.mpr habsent
    · intro hge
      rw [pageAddr_lt_iff hk, not_lt] at hge
      refine moves_pure ⟨rfl, id, fun hswept _ hsz => hswept.frames_eq_zero ?_⟩
      rw [hsz] at hge
      exact Nat.div_le_of_le_mul hge

theorem deallocuvm_moves {newsz : Word} (hsz : oldsz.toNat ≤ KERNBASE) (ho : ¬ Owned im d → E) :
    Moves (deallocuvm im d oldsz newsz) (held d + h)
      (fun r h' => held r.1 + h = h' ∧ (Owned im d → Owned im r.1)) E := by
  unfold deallocuvm
  apply moves_ite (fun _ => moves_pure ⟨rfl, id⟩)
  intro hlt
  have hnew : newsz.toNat ≤ KERNBASE := by
    rw [BitVec.le_def, not_le] at hlt
    exact le_trans hlt.le hsz
  rw [PGROUNDUP_eq hnew]
  refine (deallocuvmLoop_moves hsz _ ?_ ho).bind ?_
  · simp only [PGSIZE, KERNBASE] at *
    omega
  · rintro d' h' ⟨heq, hown, -⟩
    exact moves_pure ⟨heq, hown⟩

/-- Without anything in the user's part. -/
theorem deallocuvm_all_moves (ho : ¬ Owned im d → E) :
    Moves (deallocuvm im d (BitVec.ofNat 32 KERNBASE) 0) (held d + h)
      (fun r h' => held r.1 + h = h' ∧ (Owned im d → Owned im r.1) ∧ frames r.1 = 0) E := by
  have hswept : Swept d 0 := ⟨fun _ hq => absurd hq (Nat.not_lt_zero _), .inl rfl⟩
  have hzero : PGROUNDUP 0 = pageAddr 0 := by decide
  unfold deallocuvm
  rw [if_neg (by decide), hzero]
  apply (deallocuvmLoop_moves (by decide) _ (by decide) ho).bind
  rintro d' h' ⟨heq, hown, hfree⟩
  exact moves_pure ⟨heq, hown, hfree hswept (by decide) (by decide)⟩

theorem freeTables_moves (is : List Nat) (ho : ∀ i ∈ is, ∀ t ∈ d.pde i, ¬ im.Physical t.page → E) :
    Moves (freeTables im d is) ((is.map fun i => tableMark (d.pde i)).sum + h)
      (fun _ h' => h = h') E := by
  induction is with
  | nil => exact moves_pure (zero_add h).symm
  | cons i is ih =>
    have hrest := ih fun j hj => ho j (List.mem_cons_of_mem i hj)
    rw [List.map_cons, List.sum_cons, freeTables]
    cases hi : d.pde i with
    | none =>
      rw [show tableMark none = 0 from rfl, zero_add]
      exact hrest
    | some t =>
      rw [show tableMark (some t) = mark (some t.page) from rfl, add_assoc, add_comm]
      apply (kfree_moves (ho i (List.mem_cons_self ..) t hi)).bind
      rintro _ _ rfl
      exact hrest

theorem tables_eq_sum (d : Pgdir) :
    tables d = ((List.range NPDENTRIES).map fun i => tableMark (d.pde i)).sum := by
  rw [tables, ← List.sum_toFinset _ List.nodup_range, List.toFinset_range]

theorem held_table_pos (hi : i < NPDENTRIES) (ht : d.pde i = some t) : 0 < held d t.page := by
  have hle : tableMark (d.pde i) t.page ≤ tables d t.page :=
    Finset.single_le_sum (f := fun j => tableMark (d.pde j)) (fun j _ => mark_nonneg _)
      (Finset.mem_range.mpr hi) _
  have hframes := frames_nonneg d t.page
  have hpage := mark_nonneg (some d.page) t.page
  have hone : tableMark (d.pde i) t.page = 1 := by
    rw [ht]
    exact mark_some_self t.page
  simp only [held, Pi.add_apply, Pi.zero_apply] at *
  omega

theorem Owned.table (ho : Owned im d) (hi : i < NPDENTRIES) (ht : d.pde i = some t) :
    im.Physical t.page := ho _ (held_table_pos hi ht)

theorem held_page_pos (d : Pgdir) : 0 < held d d.page := by
  have htables := tables_nonneg d d.page
  have hframes := frames_nonneg d d.page
  simp only [held, Pi.add_apply, Pi.zero_apply, mark_some_self] at *
  omega

theorem Owned.page (ho : Owned im d) : im.Physical d.page := ho _ (held_page_pos d)

/-- All the pages of a directory are given back. -/
theorem freevm_moves (ho : ¬ Owned im d → E) :
    Moves (freevm im d) (held d + h) (fun _ h' => h = h') E := by
  unfold freevm
  apply (deallocuvm_all_moves ho).bind
  rintro ⟨d', sz⟩ _ ⟨rfl, hown, hfree⟩
  have ho' : ∀ {p}, (Owned im d' → im.Physical p) → ¬ im.Physical p → E :=
    fun hp hno => ho fun howned => hno (hp (hown howned))
  have hheld : held d' + h = (tables d' + (h + mark (some d'.page))) := by
    rw [held, show frames d' = 0 from hfree]
    abel
  rw [hheld, tables_eq_sum]
  refine (freeTables_moves _ ?_).bind ?_
  · intro i hi t ht
    exact ho' fun howned => howned.table (List.mem_range.mp hi) ht
  · rintro _ _ rfl
    exact kfree_moves (ho' Owned.page)

end

end Xv6.Vm
