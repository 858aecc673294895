import Xv6.Vm.Image

/-!
# Memory for `fork`

A failed call loses pages when there is none for a page table. For `fork` that depends on the number
of free pages and on the size of the parent only.
-/

namespace Xv6.Vm

open Lib Act

variable {im : Layout} {s s' : Kmem im} {d d' parent : Pgdir} {sz : Word} {t : Ptable}

/-- With `free` pages for a copy of `n` pages there is none for a page table: for one of the kernel's,
or for one of the user's, which is needed first by page `k`. -/
def Starved (free n : Nat) : Prop :=
  0 < free ∧ free < 65 ∨ ∃ k < n, k % NPTENTRIES = 0 ∧ free = 65 + k + k / NPTENTRIES + 1

theorem not_starved_zero (n : Nat) : ¬ Starved 0 n := by
  simp only [Starved, NPTENTRIES]
  rintro (⟨hpos, -⟩ | ⟨k, -, -, hk⟩) <;> omega

/-- The user's page tables are those of the first `k` pages. -/
def Tabled (d : Pgdir) (k : Nat) : Prop :=
  ∀ i < KERNBASE / PGSIZE / NPTENTRIES, d.hasTable i = true ↔ NPTENTRIES * i < k

theorem Bare.tabled (h : Bare d) : Tabled d 0 := fun i hi =>
  (h.table i).trans (iff_of_false
    (by simp only [KernelTable, KERNBASE, PGSIZE, NPTENTRIES] at *; omega) (Nat.not_lt_zero _))

/-- The first page of a page table takes a page for it. -/
theorem Tabled.enters {k : Nat} {w : Nat → Word} (h : Tabled d k) (hk : k < KERNBASE / PGSIZE)
    (he : Enters s d k 1 w s' d') : Tabled d' (k + 1) ∧
      (k % NPTENTRIES = 0 → s.freelist.length = s'.freelist.length + 1) ∧
      (k % NPTENTRIES ≠ 0 → s.freelist.length = s'.freelist.length) := by
  simp only [Tabled, KERNBASE, PGSIZE, NPTENTRIES] at h hk ⊢
  have htable := h (k / 1024) (by omega)
  have hcount := he.count
  rw [he.toEntered.tableCount (by omega)] at hcount
  refine ⟨fun i hi => ?_, fun hmod => ?_, fun hmod => ?_⟩
  · rw [he.toEntered.hasTable_iff, h i hi]
    constructor
    · rintro (hlt | ⟨q, hq, rfl⟩)
      · omega
      · simp only [NPTENTRIES]
        omega
    · intro hlt
      by_cases hold : 1024 * i < k
      · exact .inl hold
      · exact .inr ⟨k, by omega, show k / 1024 = i by omega⟩
  · have htwo := need_succ_of_missing (d := d) (g := k) (m := 0)
      (Bool.eq_false_iff.mpr fun hyes => by have := htable.mp hyes; omega) (.inl rfl)
    have hzero : missing d k 0 = ∅ := by simp [missing]
    simp only [need, hzero, zero_add, Finset.card_empty] at htwo
    omega
  · have hnone : missing d k 1 = ∅ := Finset.eq_empty_of_forall_notMem fun i hi => by
      obtain ⟨⟨q, hq, rfl⟩, hno⟩ := mem_missing.mp hi
      rw [show q = k by omega, show d.hasTable (k / NPTENTRIES) = true from
        htable.mpr (by omega)] at hno
      cases hno
    rw [hnone, Finset.card_empty] at hcount
    omega

/-- The loop of `copyuvm` asks for a page table in vain if one page is left for the first page of
it. -/
theorem copyuvmLoop_tableFail (n : Nat) : ∀ {d : Pgdir} {k : Nat} {s : Kmem im},
    k + n ≤ KERNBASE / PGSIZE → Tabled d k →
    Ends (copyuvmLoop parent n d k) s (fun _ _ es => .tableFail ∈ es ↔
      ∃ m < n, (k + m) % NPTENTRIES = 0 ∧
        s.freelist.length + (k + (NPTENTRIES - 1)) / NPTENTRIES = 1 + m + (k + m) / NPTENTRIES)
      fun _ => True := by
  induction n with
  | zero => exact fun _ _ => ends_pure (by simp)
  | succ n ih =>
    intro d k s hk htab
    have hlt : k < KERNBASE / PGSIZE := by omega
    rw [copyuvmLoop]
    apply Ends.bind walkpgdir_false_does
    rintro r _ _ ⟨rfl, rfl, ⟨rfl, -⟩ | ⟨t, rfl, -⟩⟩
    · exact ends_panic trivial
    refine ends_ite (fun _ => ends_panic trivial) fun _ => ?_
    apply Ends.bind kalloc_does
    rintro r s₁ _ ⟨rfl, ⟨rfl, hfree, rfl⟩ | ⟨p, rfl, hfree, -⟩⟩
    · refine ends_pure (iff_of_false (by simp) ?_)
      rintro ⟨m, -, hmod, hlen⟩
      rw [hfree, List.length_nil] at hlen
      simp only [NPTENTRIES] at *
      omega
    have hlen : s.freelist.length = s₁.freelist.length + 1 := by rw [hfree, List.length_cons]
    apply ends_get_bind
    apply Ends.bind store_ends
    rintro _ s₂ _ ⟨rfl, hfree₂, -⟩
    rw [← hfree₂] at hlen
    refine Ends.bind ((mappages_page_ends (lt_trans hlt (by decide))).weaken
      fun _ _ => trivial) ?_
    rintro _ s₃ _ ⟨-, -, ⟨rfl, rfl, rfl, hempty, hnone⟩ | ⟨d', rfl, rfl, he⟩⟩
    · have hno : ¬ NPTENTRIES * (k / NPTENTRIES) < k := fun hless => by
        have htable := (htab _ ?_).mpr hless
        · rw [Pgdir.hasTable, hnone] at htable
          cases htable
        · simp only [KERNBASE, PGSIZE, NPTENTRIES] at *
          omega
      rw [hempty, List.length_nil] at hlen
      refine ends_pure (iff_of_true (by simp) ⟨0, Nat.succ_pos n, ?_⟩)
      simp only [NPTENTRIES] at *
      omega
    · obtain ⟨htab', hfirst, hrest⟩ := htab.enters hlt he
      refine (ih (by omega) htab').mono fun _ _ es hiff => hiff.trans ?_
      clear hiff
      simp only [NPTENTRIES] at *
      constructor
      · rintro ⟨m, hm, hmod, heq⟩
        exact ⟨m + 1, by omega, by omega, by omega⟩
      · rintro ⟨_ | m, hm, hmod, heq⟩
        · omega
        · exact ⟨m, by omega, by omega, by omega⟩

theorem copyuvm_tableFail (hsz : sz.toNat ≤ KERNBASE) : Ends (copyuvm im parent sz) s
    (fun _ _ es => .tableFail ∈ es ↔ Starved s.freelist.length (pages sz)) fun _ => True := by
  unfold copyuvm
  apply Ends.bind (setupkvm_ends.weaken fun _ _ => trivial)
  rintro r s₁ _ (⟨rfl, rfl, hfree, rfl⟩ | ⟨d, rfl, rfl, hbare, hlen, -⟩ | ⟨d, rfl, rfl, hlen, -⟩)
  · refine ends_pure (iff_of_false (by simp) ?_)
    rw [hfree]
    exact not_starved_zero _
  · have hstarved : Starved s.freelist.length (pages sz) ↔ ∃ m < pages sz,
        (0 + m) % NPTENTRIES = 0 ∧ s₁.freelist.length + (0 + (NPTENTRIES - 1)) / NPTENTRIES =
          1 + m + (0 + m) / NPTENTRIES := by
      simp only [Starved, hlen, NPTENTRIES]
      constructor
      · rintro (⟨-, hlt⟩ | ⟨k, hk, hmod, heq⟩)
        · omega
        · exact ⟨k, hk, by omega, by omega⟩
      · rintro ⟨m, hm, hmod, heq⟩
        exact .inr ⟨m, hm, by omega, by omega⟩
    rw [hstarved]
    apply Ends.bind (copyuvmLoop_tableFail _ ((Nat.zero_add _).trans_le (pages_le hsz)) hbare.tabled)
    rintro ⟨d', ok⟩ s₂ es hiff
    refine ends_ite (fun _ => ends_pure (by simpa using hiff)) fun _ => ?_
    apply Ends.bind freevm_ends
    rintro _ s₃ _ ⟨rfl, -⟩
    exact ends_pure (by simpa using hiff)
  · exact ends_pure (iff_of_true (by simp) (.inl hlen))

/-- The page that `fork` takes first is for the kernel stack. -/
theorem fork_returns_pages_iff (hslot : t.findUnused ≠ none) (hsz : sz.toNat ≤ KERNBASE)
    {es : List VmEvent} (hrun : (MemCall.fork t parent sz).run im s = .ok false s' es) :
    s'.freelist.Perm s.freelist ↔ ¬ Starved (s.freelist.length - 1) (pages sz) := by
  have hends : Ends ((MemCall.fork t parent sz).run im) s (fun _ _ es => .tableFail ∈ es ↔
      Starved (s.freelist.length - 1) (pages sz)) fun _ => True := by
    obtain ⟨p, hp⟩ := Option.ne_none_iff_exists'.mp hslot
    refine Ends.bind ?_ fun r _ es hiff => ends_pure (by simpa using hiff)
    rw [fork, hp]
    apply Ends.bind kalloc_does
    rintro r s₁ _ ⟨rfl, ⟨rfl, hfree, rfl⟩ | ⟨stack, rfl, hfree, -⟩⟩
    · rw [hfree]
      exact ends_pure (iff_of_false (by simp) (not_starved_zero _))
    · rw [hfree, List.length_cons, Nat.add_sub_cancel]
      apply Ends.bind (copyuvm_tableFail hsz)
      rintro (_ | d) s₂ es hiff
      · apply Ends.bind (kfree_ends.weaken fun _ _ => trivial)
        rintro _ s₃ _ ⟨rfl, -⟩
        exact ends_pure (by simpa using hiff)
      · exact ends_pure (by simpa using hiff)
  rw [MemCall.perm_iff hrun, hends.of_ok hrun]

end Xv6.Vm
