import Xv6.Vm.Leak

/-!
# What mappages installs

The loop of `mappages` ends when the address equals that of the last page, and both are computed
modulo `2 ^ 32`. It goes through a list of pages that are all different, also where the range ends at
the top of the address space.
-/

namespace Xv6.Vm

open Function List

open Lib Act

variable {im : Layout}

/-- Enter pages one after the other; the flag is false when there is no page table for one. -/
def mapEach (d : Pgdir) : List (Word × Word) → V im (Pgdir × Bool)
  | [] => return (d, true)
  | (a, e) :: rest => do
    let r ← mapEntry d a e
    match r with
    | none => return (d, false)
    | some d => mapEach d rest

/-- The pages from `pageAddr g` on, with their entries. -/
def plan (g n : Nat) (pa perm : Word) : List (Word × Word) :=
  (List.range n).map fun k => (pageAddr (g + k), pteWord pa perm k)

theorem plan_succ (g n : Nat) (pa perm : Word) : plan g (n + 1) pa perm =
    (pageAddr g, pa ||| perm ||| PTE_P) :: plan (g + 1) n (pa + BitVec.ofNat 32 PGSIZE) perm := by
  have hhead : pteWord pa perm 0 = pa ||| perm ||| PTE_P := by simp [pteWord]
  have htail : ∀ k, (pageAddr (g + (k + 1)), pteWord pa perm (k + 1)) =
      (pageAddr (g + 1 + k), pteWord (pa + BitVec.ofNat 32 PGSIZE) perm k) := by
    intro k
    have hstep : pteWord pa perm (k + 1) = pteWord (pa + BitVec.ofNat 32 PGSIZE) perm k := by
      rw [pteWord_eq pa]
      exact if_neg (Nat.succ_ne_zero k)
    rw [hstep, show g + (k + 1) = g + 1 + k by omega]
  rw [plan, plan, range_succ_eq_map, map_cons, map_map, Nat.add_zero, hhead]
  refine congrArg _ (map_congr_left fun k _ => ?_)
  exact htail k

theorem toNat_pageAddr_mod (g : Nat) : (pageAddr g).toNat / PGSIZE = g % 2 ^ 20 := by
  simp only [pageAddr, BitVec.toNat_ofNat, PGSIZE]
  omega

theorem pageAddr_mod (g : Nat) : pageAddr (g % 2 ^ 20) = pageAddr g := by
  apply BitVec.eq_of_toNat_eq
  simp only [pageAddr, BitVec.toNat_ofNat, PGSIZE]
  omega

variable {g n k : Nat} {d : Pgdir} {va size : Word}

theorem pageAddr_ne (hpos : 0 < n) (hn : n < 2 ^ 20) : pageAddr g ≠ pageAddr (g + n) := by
  intro heq
  have hnat := congrArg BitVec.toNat heq
  simp only [pageAddr, BitVec.toNat_ofNat, PGSIZE] at hnat
  omega

/-- The loop ends after `n + 1` turns, if there are that many. -/
theorem mappagesLoop_eq_mapEach (n : Nat) : ∀ {turns g : Nat} {d : Pgdir} {pa perm : Word},
    n < turns → n < 2 ^ 20 →
    (mappagesLoop turns d (pageAddr g) (pageAddr (g + n)) pa perm : V im (Pgdir × Bool)) =
      mapEach d (plan g (n + 1) pa perm) := by
  induction n with
  | zero =>
    intro turns g d pa perm hturns _
    obtain ⟨turns, rfl⟩ := Nat.exists_eq_add_of_lt hturns
    rw [plan_succ, mapEach, mappagesLoop]
    congr 1
    funext r
    cases r with
    | none => rfl
    | some d => exact if_pos rfl
  | succ n ih =>
    intro turns g d pa perm hturns hn
    obtain ⟨turns, rfl⟩ := Nat.exists_eq_add_of_lt hturns
    have hne := pageAddr_ne (g := g) (Nat.succ_pos n) hn
    rw [plan_succ, mapEach, mappagesLoop]
    congr 1
    funext r
    cases r with
    | none => rfl
    | some d =>
      have hlast : pageAddr (g + (n + 1)) = pageAddr (g + 1 + n) := by
        rw [show g + (n + 1) = g + 1 + n by omega]
      simp only [if_neg hne]
      rw [pageAddr_succ, hlast]
      exact ih (by omega) (by omega)

/-! ## The entries -/

/-- One page is entered. -/
theorem mapEntry_entry {a e : Word} {s : Kmem im} : Ends (mapEntry d a e) s
    (fun r _ _ => ∀ d', r = some d' → d'.entry = update d.entry (a.toNat / PGSIZE) e)
    fun _ => present (d.pte a) = true := by
  refine Does.mono mapEntry_does ?_ ?_
  · rintro r s' es (⟨-, -, rfl, -⟩ | ⟨t, ht, -, rfl, -⟩ | ⟨p, hnone, -, -, rfl, -⟩)
    · intro d' hd'
      exact absurd hd'.symm (Option.some_ne_none d')
    · intro d' hd'
      cases hd'
      exact Pgdir.entry_setPte ht
    · intro d' hd'
      cases hd'
      rw [Pgdir.entry_setPte (update_self ..), Pgdir.entry_addTable hnone]
  · rintro why es ⟨-, -, hpres⟩
    exact hpres

/-- Pages that are all different are entered. -/
theorem mapEach_entry (l : List (Word × Word)) : ∀ {d : Pgdir} {s : Kmem im},
    (l.map fun x => x.1.toNat / PGSIZE).Nodup → Ends (mapEach d l) s (fun r _ _ => r.2 = true →
      (∀ x ∈ l, r.1.pte x.1 = x.2) ∧
      ∀ w : Word, w.toNat / PGSIZE ∉ l.map (fun x => x.1.toNat / PGSIZE) → r.1.pte w = d.pte w)
    fun _ => ∃ x ∈ l, present (d.pte x.1) = true := by
  induction l with
  | nil =>
    intro d s _
    exact ends_pure fun _ => ⟨fun x hx => absurd hx not_mem_nil, fun _ _ => rfl⟩
  | cons x l ih =>
    intro d s hnodup
    obtain ⟨a, e⟩ := x
    obtain ⟨hnot, hnodup⟩ := nodup_cons.mp hnodup
    rw [mapEach]
    refine Ends.bind (mapEntry_entry.weaken ?_) ?_
    · intro _ hpres
      exact ⟨(a, e), mem_cons_self, hpres⟩
    · intro r s' es hr
      cases r with
      | none => exact ends_pure fun h => absurd h Bool.false_ne_true
      | some d' =>
        have hentry := hr d' rfl
        have hother : ∀ w : Word, w.toNat / PGSIZE ≠ a.toNat / PGSIZE → d'.pte w = d.pte w := by
          intro w hw
          rw [Pgdir.pte_eq, Pgdir.pte_eq, hentry, update_of_ne hw]
        refine ((ih hnodup).mono ?_).weaken ?_
        · intro r' s'' fs hr' hok
          obtain ⟨hin, hout⟩ := hr' hok
          refine ⟨?_, ?_⟩
          · intro x hx
            obtain rfl | hx := mem_cons.mp hx
            · rw [hout a hnot, Pgdir.pte_eq, hentry, update_self]
            · exact hin x hx
          · intro w hw
            rw [map_cons, mem_cons, not_or] at hw
            rw [hout w hw.2, hother w hw.1]
        · rintro why ⟨x, hx, hpres⟩
          refine ⟨x, mem_cons_of_mem _ hx, ?_⟩
          rwa [hother] at hpres
          rintro heq
          exact hnot (mem_map.mpr ⟨x, hx, heq⟩)

/-! ## The range -/

/-- How many pages `mappages` goes through: from that of `va` to that of `va + size - 1`. -/
def pageCount (va size : Word) : Nat :=
  (PGROUNDDOWN (va + size - 1) - PGROUNDDOWN va).toNat / PGSIZE + 1

theorem pageCount_le (va size : Word) : pageCount va size ≤ 2 ^ 20 := by
  have hlt := (PGROUNDDOWN (va + size - 1) - PGROUNDDOWN va).isLt
  simp only [pageCount, PGSIZE]
  omega

theorem first_eq (va : Word) : PGROUNDDOWN va = pageAddr (va.toNat / PGSIZE) := by
  rw [PGROUNDDOWN, pageAddr, Nat.mul_comm]

theorem last_eq (va size : Word) :
    PGROUNDDOWN (va + size - 1) = pageAddr (va.toNat / PGSIZE + (pageCount va size - 1)) := by
  have hlt := va.isLt
  have hlast := (va + size - 1).isLt
  rw [pageCount, Nat.add_sub_cancel, first_eq, first_eq]
  apply BitVec.eq_of_toNat_eq
  simp only [pageAddr, BitVec.toNat_sub, BitVec.toNat_ofNat, PGSIZE]
  omega

/-- `mappages` visits each page of the range once and ends. -/
theorem mappages_eq_mapEach (d : Pgdir) (va size pa perm : Word) :
    (mappages d va size pa perm : V im (Pgdir × Bool)) =
      mapEach d (plan (va.toNat / PGSIZE) (pageCount va size) pa perm) := by
  have hle := pageCount_le va size
  have hpos : 0 < pageCount va size := Nat.succ_pos _
  rw [mappages, first_eq, last_eq, mappagesLoop_eq_mapEach _ (by omega) (by omega),
    Nat.sub_add_cancel hpos]

theorem map_plan (g n : Nat) (pa perm : Word) :
    ((plan g n pa perm).map fun x => x.1.toNat / PGSIZE) =
      (List.range n).map fun k => (g + k) % 2 ^ 20 := by
  rw [plan, map_map]
  exact map_congr_left fun k _ => toNat_pageAddr_mod (g + k)

theorem plan_nodup (hn : n ≤ 2 ^ 20) (pa perm : Word) :
    ((plan g n pa perm).map fun x => x.1.toNat / PGSIZE).Nodup := by
  rw [map_plan]
  apply List.Nodup.map_on _ nodup_range
  intro j hj k hk heq
  rw [mem_range] at hj hk
  omega

/-- Every page on the way has an address of the range. -/
theorem exists_addr (hsize : size ≠ 0) (hk : k < pageCount va size) : ∃ b < size.toNat,
      (va + BitVec.ofNat 32 b).toNat / PGSIZE = (va.toNat / PGSIZE + k) % 2 ^ 20 := by
  have hpos : 0 < size.toNat := by
    apply Nat.pos_of_ne_zero
    intro hzero
    exact hsize (BitVec.eq_of_toNat_eq hzero)
  have hva := va.isLt
  have hone : (1 : Word).toNat = 1 := rfl
  have hlt := size.isLt
  refine ⟨k * PGSIZE - va.toNat % PGSIZE, ?_, ?_⟩
  · simp only [pageCount, PGROUNDDOWN, BitVec.toNat_sub, BitVec.toNat_add, BitVec.toNat_ofNat, hone,
      PGSIZE] at *
    omega
  · simp only [pageCount, PGROUNDDOWN, BitVec.toNat_sub, BitVec.toNat_add, BitVec.toNat_ofNat, hone,
      PGSIZE] at *
    omega

/-- In a range that does not wrap, the addresses of the range are in the pages on the way. -/
theorem page_of_addr (hfits : va.toNat + size.toNat ≤ 2 ^ 32) {b : Nat} (hb : b < size.toNat) :
    ∃ k < pageCount va size,
      (va + BitVec.ofNat 32 b).toNat / PGSIZE = (va.toNat / PGSIZE + k) % 2 ^ 20 := by
  have hva := va.isLt
  have hone : (1 : Word).toNat = 1 := rfl
  refine ⟨(va.toNat % PGSIZE + b) / PGSIZE, ?_, ?_⟩
  · simp only [pageCount, PGROUNDDOWN, BitVec.toNat_sub, BitVec.toNat_add, BitVec.toNat_ofNat, hone,
      PGSIZE] at *
    omega
  · simp only [BitVec.toNat_add, BitVec.toNat_ofNat, PGSIZE] at *
    omega

/-! ## Translations -/

/-- The page that an address is translated to, and the permissions. -/
def Pgdir.translate (d : Pgdir) (va : Word) : Option (Nat × Word) :=
  if present (d.pte va) then some (PTE_ADDR (d.pte va), PTE_FLAGS (d.pte va)) else none

theorem translate_pteWord {pa perm : Word} (hpa : pa.toNat % PGSIZE = 0)
    (hperm : perm.toNat < PGSIZE)
    (hpte : d.pte va = pteWord pa perm k) :
    d.translate va = some ((pa + BitVec.ofNat 32 (PGSIZE * k)).toNat / PGSIZE, perm ||| PTE_P) := by
  have hlt := (pa + BitVec.ofNat 32 (PGSIZE * k)).isLt
  have hpage : (pa + BitVec.ofNat 32 (PGSIZE * k)).toNat / PGSIZE < 2 ^ 20 := by
    simp only [PGSIZE] at *
    omega
  have haddr : pa + BitVec.ofNat 32 (PGSIZE * k) =
      pageAddr ((pa + BitVec.ofNat 32 (PGSIZE * k)).toNat / PGSIZE) := by
    apply BitVec.eq_of_toNat_eq
    rw [toNat_pageAddr hpage]
    simp only [BitVec.toNat_add, BitVec.toNat_ofNat, PGSIZE] at *
    omega
  rw [Pgdir.translate, hpte, pteWord, present_or, if_pos rfl, haddr, PTE_ADDR_or hpage hperm,
    PTE_FLAGS_or hpage hperm, toNat_pageAddr_div hpage]

/-- The pages on the way, as addresses. -/
theorem page_eq (va : Word) (k : Nat) :
    PGROUNDDOWN va + BitVec.ofNat 32 (PGSIZE * k) = pageAddr (va.toNat / PGSIZE + k) := by
  rw [first_eq, ← pageAddr_add, Nat.mul_comm]

/-- If `mappages` succeeds, each page of the range is translated as it should, and the others as
before. It goes through the pages of the range, each once. -/
theorem mappages_installs {d : Pgdir} {va size pa perm : Word} {s : Kmem im} (hsize : size ≠ 0)
    (hpa : pa.toNat % PGSIZE = 0) (hperm : perm.toNat < PGSIZE)
    (habsent : ∀ b < size.toNat, present (d.pte (va + BitVec.ofNat 32 b)) = false) :
    (mappages d va size pa perm : V im (Pgdir × Bool)) =
      mapEach d (plan (va.toNat / PGSIZE) (pageCount va size) pa perm) ∧
    ((plan (va.toNat / PGSIZE) (pageCount va size) pa perm).map fun x => x.1.toNat / PGSIZE).Nodup ∧
    (va.toNat + size.toNat ≤ 2 ^ 32 → ∀ b < size.toNat, ∃ k < pageCount va size,
      PGROUNDDOWN (va + BitVec.ofNat 32 b) = PGROUNDDOWN va + BitVec.ofNat 32 (PGSIZE * k)) ∧
    Ends (mappages d va size pa perm) s (fun r _ _ => r.2 = true →
      (∀ k < pageCount va size,
        r.1.translate (PGROUNDDOWN va + BitVec.ofNat 32 (PGSIZE * k)) =
          some ((pa + BitVec.ofNat 32 (PGSIZE * k)).toNat / PGSIZE, perm ||| PTE_P)) ∧
      ∀ w : Word, (∀ k < pageCount va size,
        PGROUNDDOWN w ≠ PGROUNDDOWN va + BitVec.ofNat 32 (PGSIZE * k)) →
          r.1.translate w = d.translate w) fun _ => False := by
  have hnodup := plan_nodup (g := va.toNat / PGSIZE) (pageCount_le va size) pa perm
  have heq : (mappages d va size pa perm : V im (Pgdir × Bool)) =
      mapEach d (plan (va.toNat / PGSIZE) (pageCount va size) pa perm) := mappages_eq_mapEach ..
  refine ⟨heq, hnodup, ?_, ?_⟩
  · intro hfits b hb
    obtain ⟨k, hk, hpage⟩ := page_of_addr hfits hb
    refine ⟨k, hk, ?_⟩
    rw [first_eq, page_eq, hpage, pageAddr_mod]
  · rw [heq]
    refine ((mapEach_entry _ hnodup).mono ?_).weaken ?_
    · intro r s' es hr hok
      obtain ⟨hin, hout⟩ := hr hok
      refine ⟨?_, ?_⟩
      · intro k hk
        apply translate_pteWord hpa hperm
        rw [page_eq]
        exact hin _ (mem_map.mpr ⟨k, mem_range.mpr hk, rfl⟩)
      · intro w hw
        have hsame : r.1.pte w = d.pte w := by
          apply hout
          rw [map_plan]
          intro hmem
          obtain ⟨k, hk, hpage⟩ := mem_map.mp hmem
          apply hw k (mem_range.mp hk)
          rw [first_eq, page_eq, ← hpage, pageAddr_mod]
        rw [Pgdir.translate, Pgdir.translate, hsame]
    · rintro why ⟨x, hx, hpres⟩
      obtain ⟨k, hk, rfl⟩ := mem_map.mp hx
      obtain ⟨b, hb, hpage⟩ := exists_addr hsize (mem_range.mp hk)
      have hno := habsent b hb
      rw [Pgdir.pte_eq, hpage, ← toNat_pageAddr_mod, ← Pgdir.pte_eq, hpres] at hno
      exact absurd hno.symm Bool.false_ne_true

/-- Two pages at the top of the address space. -/
theorem mappages_installs_top : ∃ d s, mappages (emptyDir 0x300) 0xFFFFE000 0x2000 0x400000 PTE_W
      twoPages = .ok (d, true) s [] ∧ d.translate 0xFFFFF000 = some (0x401, 3) := by
  obtain ⟨d, s, hrun⟩ : ∃ d s, mappages (emptyDir 0x300) 0xFFFFE000 0x2000 0x400000 PTE_W
      twoPages = .ok (d, true) s [] := ⟨_, _, rfl⟩
  have habsent : ∀ b < (0x2000 : Word).toNat,
      present ((emptyDir 0x300).pte (0xFFFFE000 + BitVec.ofNat 32 b)) = false := by
    intro b _
    rw [Pgdir.pte_eq, entry_emptyDir]
    rfl
  obtain ⟨-, -, -, hends⟩ := @mappages_installs _ _ 0xFFFFE000 0x2000 0x400000 PTE_W twoPages
    (by decide) (by decide) (by decide) habsent
  exact ⟨d, s, hrun, (hends.of_ok hrun rfl).1 1 (by decide)⟩

end Xv6.Vm
