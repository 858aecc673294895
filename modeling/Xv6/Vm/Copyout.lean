import Xv6.Lib.Poke
import Xv6.Vm.Sweep

/-!
# Copying to user memory

`copyout` goes page by page, and `uva2ka` follows the pointer that `walkpgdir` returns without looking
if it is null. So `copyout` returns if every page up to the first that is not the user's has a page
table.
-/

namespace Xv6.Vm

open Function List Bool

open Lib Act

variable {im : Layout}

/-! ## Addresses of the user -/

/-- The page of the address is present and the user's. -/
def userAt (d : Pgdir) (a : Word) : Bool := present (d.pte a) && user (d.pte a)

/-- The byte of physical memory behind an address: its page and the place in it. -/
def place (d : Pgdir) (a : Word) : Nat × Nat := (PTE_ADDR (d.pte a), a.toNat % PGSIZE)

/-- Physical memory, byte by byte. -/
def cells (mem : Nat → Bytes PGSIZE) (x : Nat × Nat) : UInt8 := (mem x.1).u8 x.2

/-- The stores for `bs` at `va` and up. -/
def places (d : Pgdir) : Word → List UInt8 → List ((Nat × Nat) × UInt8)
  | _, [] => []
  | va, b :: bs => (place d va, b) :: places d (va + 1) bs

section

variable {d : Pgdir} {va : Word} {bs cs : List UInt8}

theorem add_ofNat_succ (va : Word) (i : Nat) :
    va + 1 + BitVec.ofNat 32 i = va + BitVec.ofNat 32 (i + 1) := by
  rw [BitVec.ofNat_add, BitVec.add_assoc, BitVec.add_comm 1]
  rfl

theorem places_append : ∀ {va : Word},
    places d va (bs ++ cs) = places d va bs ++ places d (va + BitVec.ofNat 32 bs.length) cs := by
  induction bs with
  | nil =>
    intro va
    rw [length_nil, BitVec.add_zero]
    rfl
  | cons b bs ih =>
    intro va
    rw [cons_append, places, places, ih, add_ofNat_succ, length_cons]
    rfl

theorem mem_map_places {x : Nat × Nat} : ∀ {va : Word}, x ∈ (places d va bs).map Prod.fst ↔
    ∃ i < bs.length, place d (va + BitVec.ofNat 32 i) = x := by
  induction bs with
  | nil =>
    intro va
    constructor
    · intro h
      exact absurd h not_mem_nil
    · rintro ⟨i, hi, -⟩
      exact absurd hi (Nat.not_lt_zero i)
  | cons b bs ih =>
    intro va
    rw [places, map_cons, mem_cons, ih, length_cons]
    constructor
    · rintro (rfl | ⟨i, hi, rfl⟩)
      · exact ⟨0, Nat.succ_pos _, by rw [BitVec.add_zero]⟩
      · exact ⟨i + 1, Nat.succ_lt_succ hi, by rw [add_ofNat_succ]⟩
    · rintro ⟨i, hi, rfl⟩
      cases i with
      | zero => exact .inl (by rw [BitVec.add_zero])
      | succ i => exact .inr ⟨i, Nat.lt_of_succ_lt_succ hi, by rw [add_ofNat_succ]⟩

theorem pte_congr {a a' : Word} (h : a.toNat / PGSIZE = a'.toNat / PGSIZE) : d.pte a = d.pte a' := by
  rw [Pgdir.pte_eq, Pgdir.pte_eq, h]

theorem toNat_add_ofNat {i : Nat} (h : va.toNat % PGSIZE + i < PGSIZE) :
    (va + BitVec.ofNat 32 i).toNat = va.toNat + i := by
  have hlt := va.isLt
  simp only [BitVec.toNat_add, BitVec.toNat_ofNat, PGSIZE] at *
  omega

/-- A byte that is not overwritten by a later one. -/
theorem poke_places_of_last {f : Nat × Nat → UInt8} {i : Nat} (hi : i < bs.length)
    (hlast : ∀ j, i < j → j < bs.length →
      place d (va + BitVec.ofNat 32 j) ≠ place d (va + BitVec.ofNat 32 i)) :
    poke f (places d va bs) (place d (va + BitVec.ofNat 32 i)) = bs.getD i 0 := by
  have hlen : (bs.take i).length = i := length_take_of_le hi.le
  have hget : bs.getD i 0 = bs[i] := by
    rw [getD_eq_getElem?_getD, getElem?_eq_getElem hi]
    rfl
  have hsplit : bs = bs.take i ++ bs[i] :: bs.drop (i + 1) := by
    rw [← drop_eq_getElem_cons hi, take_append_drop]
  rw [hget]
  conv_lhs => rw [hsplit]
  rw [places_append, hlen, places]
  apply poke_of_last
  rw [mem_map_places, length_drop]
  rintro ⟨j, hj, heq⟩
  apply hlast (i + (j + 1)) (by omega) (by omega)
  rw [← heq, BitVec.ofNat_add, ← BitVec.add_assoc, add_ofNat_succ]

/-- The stores within a page are one copy. -/
theorem poke_places {mem : Nat → Bytes PGSIZE} (h : va.toNat % PGSIZE + bs.length ≤ PGSIZE) :
    poke (cells mem) (places d va bs) = cells (update mem (PTE_ADDR (d.pte va))
      ((mem (PTE_ADDR (d.pte va))).splice (va.toNat % PGSIZE) (fun j => bs.getD j 0) bs.length)) := by
  have hplace : ∀ i < bs.length, place d (va + BitVec.ofNat 32 i) =
      (PTE_ADDR (d.pte va), va.toNat % PGSIZE + i) := by
    intro i hi
    have hnat : (va + BitVec.ofNat 32 i).toNat = va.toNat + i := toNat_add_ofNat (by omega)
    have hdiv : (va.toNat + i) / PGSIZE = va.toNat / PGSIZE := by
      simp only [PGSIZE] at *
      omega
    have hmod : (va.toNat + i) % PGSIZE = va.toNat % PGSIZE + i := by
      simp only [PGSIZE] at *
      omega
    rw [place, hnat, hmod, pte_congr (hnat ▸ hdiv)]
  funext x
  obtain ⟨p, j⟩ := x
  by_cases hin : ∃ i < bs.length, place d (va + BitVec.ofNat 32 i) = (p, j)
  · obtain ⟨i, hi, heq⟩ := hin
    have hlast : ∀ k, i < k → k < bs.length →
        place d (va + BitVec.ofNat 32 k) ≠ place d (va + BitVec.ofNat 32 i) := by
      intro k hik hk heq
      rw [hplace i hi, hplace k hk, Prod.mk.injEq] at heq
      omega
    have hfits : va.toNat % PGSIZE + i < PGSIZE := by omega
    rw [← heq, poke_places_of_last hi hlast, hplace i hi, cells, update_self]
    change _ = Bytes.u8 _ (va.toNat % PGSIZE + i)
    rw [Bytes.u8_splice_of_mem hi hfits]
  · rw [poke_of_notMem (mt mem_map_places.mp hin), cells, cells]
    by_cases hp : p = PTE_ADDR (d.pte va)
    · subst hp
      rw [update_self, Bytes.u8_splice, if_neg]
      rintro ⟨hlo, hhi, -⟩
      refine hin ⟨j - va.toNat % PGSIZE, by omega, ?_⟩
      rw [hplace _ (by omega), Prod.mk.injEq]
      exact ⟨rfl, by omega⟩
    · rw [update_of_ne hp]

end

/-! ## The loop -/

section

variable {d : Pgdir} {va : Word} {bs : List UInt8} {s : Kmem im}

theorem uva2ka_ends {uva : Word} : Ends (uva2ka d uva) s (fun r s' es => s = s' ∧ es = [] ∧
    d.hasTable (PDX uva) = true ∧ r = if userAt d uva then some (PTE_ADDR (d.pte uva)) else none)
    fun why => why = .undefined ∧ d.hasTable (PDX uva) = false := by
  unfold uva2ka
  apply Ends.bind walkpgdir_false_does
  rintro r _ _ ⟨rfl, rfl, ⟨rfl, hnone⟩ | ⟨t, rfl, ht⟩⟩
  · refine ⟨rfl, ?_⟩
    rw [Pgdir.hasTable, hnone]
    rfl
  · have htable : d.hasTable (PDX uva) = true := by
      rw [Pgdir.hasTable, ht]
      rfl
    refine ends_ite ?_ ?_
    · intro hp
      exact ends_pure ⟨rfl, rfl, htable, by rw [userAt, hp]; rfl⟩
    · intro hp
      rw [not_eq_false] at hp
      refine ends_ite ?_ ?_
      · intro hu
        exact ends_pure ⟨rfl, rfl, htable, by rw [userAt, hp, hu]; rfl⟩
      · intro hu
        rw [not_eq_false] at hu
        exact ends_pure ⟨rfl, rfl, htable, by rw [userAt, hp, hu]; rfl⟩

/-- How far `copyout` gets: the first `m` bytes are stored, at addresses of the user. -/
structure Copied (d : Pgdir) (va : Word) (bs : List UInt8) (m : Nat) (s s' : Kmem im) : Prop where
  le : m ≤ bs.length
  user : ∀ i < m, userAt d (va + BitVec.ofNat 32 i) = true
  mem : cells s'.mem = poke (cells s.mem) (places d va (bs.take m))
  free : s'.freelist = s.freelist

theorem Copied.refl (d : Pgdir) (va : Word) (bs : List UInt8) (s : Kmem im) :
    Copied d va bs 0 s s :=
  ⟨Nat.zero_le _, fun _ hi => absurd hi (Nat.not_lt_zero _), rfl, rfl⟩

theorem Copied.append {n m : Nat} {s₁ s' : Kmem im} (hfirst : Copied d va bs n s s₁)
    (h : Copied d (va + BitVec.ofNat 32 n) (bs.drop n) m s₁ s') : Copied d va bs (n + m) s s' where
  le := by
    have hn := hfirst.le
    have hle := h.le
    rw [length_drop] at hle
    omega
  user := by
    intro i hi
    by_cases hin : i < n
    · exact hfirst.user i hin
    · have hrest := h.user (i - n) (by omega)
      rwa [BitVec.add_assoc, ← BitVec.ofNat_add, Nat.add_sub_cancel' (not_lt.mp hin)] at hrest
  mem := by
    have hlen : (bs.take n).length = n := length_take_of_le hfirst.le
    have hsplit : bs.take (n + m) = bs.take n ++ (bs.drop n).take m := take_add
    rw [h.mem, hfirst.mem, hsplit, places_append, hlen, poke_append]
  free := h.free.trans hfirst.free

/-- What one turn of `copyout` stores. -/
theorem copied_chunk {n : Nat} {s₁ : Kmem im} (hn : n ≤ bs.length)
    (hfits : va.toNat % PGSIZE + n ≤ PGSIZE) (hfree : s₁.freelist = s.freelist)
    (hmem : s₁.mem = update s.mem (PTE_ADDR (d.pte va))
      ((s.mem (PTE_ADDR (d.pte va))).splice (va.toNat % PGSIZE) (fun j => bs.getD j 0) n))
    (huser : userAt d va = true) : Copied d va bs n s s₁ where
  le := hn
  user := by
    intro i hi
    have hnat : (va + BitVec.ofNat 32 i).toNat = va.toNat + i := toNat_add_ofNat (by omega)
    have hdiv : (va.toNat + i) / PGSIZE = va.toNat / PGSIZE := by
      simp only [PGSIZE] at *
      omega
    rw [userAt, pte_congr (hnat ▸ hdiv)]
    exact huser
  mem := by
    have hlen : (bs.take n).length = n := length_take_of_le hn
    have hget : ∀ j < n, (bs.take n).getD j 0 = bs.getD j 0 := by
      intro j hj
      rw [getD_eq_getElem?_getD, getD_eq_getElem?_getD, getElem?_take_of_lt hj]
    rw [poke_places (by rw [hlen]; exact hfits), hlen, Bytes.splice_congr hget, hmem]
  free := hfree

theorem toNat_sub_PGROUNDDOWN (va : Word) : (va - PGROUNDDOWN va).toNat = va.toNat % PGSIZE := by
  have hlt := va.isLt
  rw [BitVec.toNat_sub, toNat_PGROUNDDOWN]
  simp only [PGSIZE]
  omega

theorem page_PGROUNDDOWN (d : Pgdir) (va : Word) :
    d.pte (PGROUNDDOWN va) = d.pte va ∧ PDX (PGROUNDDOWN va) = PDX va := by
  have hpage : (PGROUNDDOWN va).toNat / PGSIZE = va.toNat / PGSIZE := by
    rw [toNat_PGROUNDDOWN]
    exact Nat.mul_div_cancel _ (by decide)
  refine ⟨pte_congr hpage, ?_⟩
  rw [Pgdir.PDX_eq, Pgdir.PDX_eq, hpage]

theorem next_page (va : Word) : PGROUNDDOWN va + BitVec.ofNat 32 PGSIZE =
    va + BitVec.ofNat 32 (PGSIZE - va.toNat % PGSIZE) := by
  have hlt := va.isLt
  apply BitVec.eq_of_toNat_eq
  rw [BitVec.toNat_add, BitVec.toNat_add, toNat_PGROUNDDOWN]
  simp only [BitVec.toNat_ofNat, PGSIZE]
  omega

theorem copyoutLoop_nil (turns : Nat) :
    (copyoutLoop d turns va [] : V im Bool) = pure true := by
  cases turns with
  | zero => rfl
  | succ turns => rfl

/-- `copyout` stores everything, or it stores up to an address that is not the user's: then it fails
if that has a page table, and else it follows a null pointer. -/
theorem copyoutLoop_ends (turns : Nat) : ∀ {va : Word} {bs : List UInt8} {s : Kmem im},
    bs.length ≤ turns → Ends (copyoutLoop d turns va bs) s (fun ok s' es => es = [] ∧
      ∃ m, Copied d va bs m s s' ∧ ((ok = true ∧ m = bs.length) ∨
        (ok = false ∧ m < bs.length ∧ userAt d (va + BitVec.ofNat 32 m) = false ∧
          d.hasTable (PDX (va + BitVec.ofNat 32 m)) = true)))
      fun why => why = .undefined ∧ ∃ m s', Copied d va bs m s s' ∧ m < bs.length ∧
        d.hasTable (PDX (va + BitVec.ofNat 32 m)) = false := by
  induction turns with
  | zero =>
    intro va bs s hlen
    obtain rfl : bs = [] := eq_nil_of_length_eq_zero (by omega)
    exact ends_pure ⟨rfl, 0, .refl d va [] s, .inl ⟨rfl, rfl⟩⟩
  | succ turns ih =>
    intro va bs s hlen
    rw [copyoutLoop]
    refine ends_ite ?_ ?_
    · rintro rfl
      exact ends_pure ⟨rfl, 0, .refl d va [] s, .inl ⟨rfl, rfl⟩⟩
    · intro hne
      have hpos := length_pos_iff.mpr hne
      have hoff := toNat_sub_PGROUNDDOWN va
      have hmod : va.toNat % PGSIZE < PGSIZE := Nat.mod_lt _ (by decide)
      obtain ⟨hpte, hpdx⟩ := page_PGROUNDDOWN d va
      refine Ends.bind (uva2ka_ends.weaken ?_) ?_
      · rintro why ⟨rfl, htable⟩
        refine ⟨rfl, 0, s, .refl d va bs s, hpos, ?_⟩
        rw [BitVec.add_zero, ← hpdx]
        exact htable
      · rintro r _ _ ⟨rfl, rfl, htable, rfl⟩
        rw [hpdx] at htable
        rw [userAt, hpte, ← userAt]
        by_cases huser : userAt d va = true
        · rw [if_pos huser]
          refine ends_get_bind (Ends.bind store_ends ?_)
          rintro _ s₁ _ ⟨rfl, hfree, hmem⟩
          rw [hoff] at hmem
          have hfirst := copied_chunk (min_le_right ..) (by omega) hfree hmem huser
          rw [hoff]
          by_cases hlast : bs.length ≤ PGSIZE - va.toNat % PGSIZE
          · rw [min_eq_right hlast] at hfirst ⊢
            rw [drop_length, copyoutLoop_nil]
            exact ends_pure ⟨rfl, _, hfirst, .inl ⟨rfl, rfl⟩⟩
          · rw [min_eq_left (by omega)] at hfirst ⊢
            rw [next_page va]
            refine ((ih ?_).mono ?_).weaken ?_
            · rw [length_drop]
              omega
            · rintro ok s' es ⟨rfl, m, hm, hr⟩
              refine ⟨rfl, _, hfirst.append hm, ?_⟩
              rw [BitVec.ofNat_add, ← BitVec.add_assoc]
              obtain ⟨hok, rfl⟩ | ⟨hok, hlt, hbad⟩ := hr
              · refine .inl ⟨hok, ?_⟩
                rw [length_drop]
                omega
              · refine .inr ⟨hok, ?_, hbad⟩
                rw [length_drop] at hlt
                omega
            · rintro why ⟨rfl, m, s', hm, hlt, htable⟩
              refine ⟨rfl, _, s', hfirst.append hm, ?_, ?_⟩
              · rw [length_drop] at hlt
                omega
              · rwa [BitVec.ofNat_add, ← BitVec.add_assoc]
        · rw [if_neg huser]
          refine ends_pure ⟨rfl, 0, .refl d va bs s, .inr ⟨rfl, hpos, ?_, ?_⟩⟩
          · rw [BitVec.add_zero]
            exact eq_false_iff.mpr huser
          · rw [BitVec.add_zero]
            exact htable

/-! ## The call -/

/-- What `copyout` is for: it succeeds if all the addresses are the user's, and then stores the bytes;
in any case it stores at no other addresses. A byte stays where no later one is stored in the same
place. -/
structure CopiesOut (d : Pgdir) (va : Word) (bs : List UInt8) (s : Kmem im) (ok : Bool)
    (s' : Kmem im) : Prop where
  result : ok = true ↔ ∀ i < bs.length, userAt d (va + BitVec.ofNat 32 i) = true
  stored : ok = true → ∀ i < bs.length, (∀ j, i < j → j < bs.length →
    place d (va + BitVec.ofNat 32 j) ≠ place d (va + BitVec.ofNat 32 i)) →
      cells s'.mem (place d (va + BitVec.ofNat 32 i)) = bs.getD i 0
  same : ∀ x, (∀ i < bs.length, userAt d (va + BitVec.ofNat 32 i) = true →
    place d (va + BitVec.ofNat 32 i) ≠ x) → cells s'.mem x = cells s.mem x
  free : s'.freelist = s.freelist

/-- Only places of the user's are changed. -/
theorem Copied.same {m : Nat} {s' : Kmem im} (h : Copied d va bs m s s') {x : Nat × Nat}
    (hx : ∀ i < bs.length, userAt d (va + BitVec.ofNat 32 i) = true →
      place d (va + BitVec.ofNat 32 i) ≠ x) : cells s'.mem x = cells s.mem x := by
  have hle := h.le
  rw [h.mem, poke_of_notMem]
  rw [mem_map_places, length_take_of_le hle]
  rintro ⟨i, hi, heq⟩
  exact hx i (by omega) (h.user i hi) heq

theorem hasTable_of_userAt {a : Word} (h : userAt d a = true) : d.hasTable (PDX a) = true := by
  rw [Pgdir.PDX_eq]
  apply hasTable_of_present
  rw [← Pgdir.pte_eq]
  exact (and_eq_true_iff.mp h).1

/-- `copyout` is total, if every page up to the first that is not the user's has a page table. -/
theorem copyout_total_iff : (∃ ok s', copyout d va bs s = .ok ok s' [] ∧ CopiesOut d va bs s ok s') ↔
    ∀ i < bs.length, (∀ j < i, userAt d (va + BitVec.ofNat 32 j) = true) →
      d.hasTable (PDX (va + BitVec.ofNat 32 i)) = true := by
  have hends : Ends (copyout d va bs) s _ _ := copyoutLoop_ends _ le_rfl
  constructor
  · rintro ⟨ok, s', hrun, -⟩ i hi hbefore
    obtain ⟨-, m, hcopied, hr⟩ := hends.of_ok hrun
    by_cases him : i < m
    · exact hasTable_of_userAt (hcopied.user i him)
    · obtain ⟨-, rfl⟩ | ⟨-, hlt, hno, htable⟩ := hr
      · exact absurd hi him
      · by_cases heq : i = m
        · rw [heq]
          exact htable
        · rw [hbefore m (by omega)] at hno
          exact absurd hno.symm false_ne_true
  · intro hcond
    cases hrun : copyout d va bs s with
    | halt why es =>
      obtain ⟨-, m, s', hcopied, hlt, hno⟩ := hends.of_halt hrun
      rw [hcond m hlt hcopied.user] at hno
      exact absurd hno.symm false_ne_true
    | ok ok s' es =>
      obtain ⟨rfl, m, hcopied, hr⟩ := hends.of_ok hrun
      refine ⟨ok, s', rfl, ?_, ?_, fun x => hcopied.same, hcopied.free⟩
      · obtain ⟨hok, rfl⟩ | ⟨hok, hlt, hno, -⟩ := hr
        · exact iff_of_true hok hcopied.user
        · refine iff_of_false (by rw [hok]; exact false_ne_true) fun hall => ?_
          rw [hall m hlt] at hno
          exact absurd hno.symm false_ne_true
      · intro hok i hi hlast
        obtain ⟨-, rfl⟩ | ⟨hno, -⟩ := hr
        · rw [hcopied.mem, take_length, poke_places_of_last hi hlast]
        · rw [hok] at hno
          exact absurd hno.symm false_ne_true

end

/-- An address without a page table: `uva2ka` follows the null pointer. -/
theorem copyout_null_pointer : copyout (emptyDir 0x300) 0xF0000000 [97] twoPages =
    .halt .undefined [] := rfl

end Xv6.Vm
