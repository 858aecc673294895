import Xv6.Vm.Copyout
import Xv6.Vm.Grow

/-!
# The arguments of a program

`exec` copies the argument strings and then a frame of words to the new stack, each below the one
before. The stack is a single page, and the page below it is not the user's. Whatever does not fit in
the stack page touches the page below: then `copyout` fails. So what `exec` has copied when it returns
0 is in the stack page, one thing below the other.
-/

namespace Xv6.Vm

open Lib Act List

variable {im : Layout}

/-! ## The stack page -/

/-- The stack page begins at `low`, and the page below is not the user's. -/
structure StackPage (d : Pgdir) (low : Nat) : Prop where
  aligned : low % PGSIZE = 0
  room : PGSIZE ≤ low
  below : low + PGSIZE < 2 ^ 32
  guard : ∀ a : Word, low ≤ a.toNat + PGSIZE → a.toNat < low → userAt d a = false

/-- The page of physical memory behind the stack page. -/
def stackFrame (d : Pgdir) (low : Nat) : Nat := PTE_ADDR (d.entry (low / PGSIZE))

/-- The bytes `bs` are in the user's memory at `va`. -/
def Holds (d : Pgdir) (mem : Nat → Bytes PGSIZE) (va : Word) (bs : List UInt8) : Prop :=
  ∀ i < bs.length, userAt d (va + BitVec.ofNat 32 i) = true ∧
    cells mem (place d (va + BitVec.ofNat 32 i)) = bs.getD i 0

/-- Where `n` bytes go below `sp` (`exec.c:69`). -/
def pushAddr (sp : Word) (n : Nat) : Word :=
  BitVec.ofNat 32 ((sp - BitVec.ofNat 32 n).toNat / 4 * 4)

section

variable {d : Pgdir} {sp va : Word} {low n : Nat}

theorem toNat_add_of_lt {i : Nat} (h : va.toNat + i < 2 ^ 32) :
    (va + BitVec.ofNat 32 i).toNat = va.toNat + i := by
  rw [BitVec.toNat_add, BitVec.toNat_ofNat]
  omega

theorem toNat_sub_of_le {i : Nat} (h : i ≤ va.toNat) :
    (va - BitVec.ofNat 32 i).toNat = va.toNat - i := by
  have hlt := va.isLt
  rw [BitVec.toNat_sub, BitVec.toNat_ofNat]
  omega

theorem pushAddr_eq (sp : Word) (n : Nat) : ∃ r < 4, pushAddr sp n + BitVec.ofNat 32 r =
    sp - BitVec.ofNat 32 n := by
  obtain ⟨x, hx⟩ : ∃ x, x = sp - BitVec.ofNat 32 n := ⟨_, rfl⟩
  have hlt := x.isLt
  refine ⟨x.toNat % 4, Nat.mod_lt _ (by decide), ?_⟩
  rw [pushAddr, ← hx]
  apply BitVec.eq_of_toNat_eq
  rw [BitVec.toNat_add, BitVec.toNat_ofNat, BitVec.toNat_ofNat]
  omega

theorem pushAddr_add {r m : Nat} (hr : pushAddr sp n + BitVec.ofNat 32 r = sp - BitVec.ofNat 32 n)
    (hm : m ≤ n) : pushAddr sp n + BitVec.ofNat 32 (n - m) = sp - BitVec.ofNat 32 (m + r) := by
  have hsum : pushAddr sp n + BitVec.ofNat 32 (r + n) = sp := by
    rw [BitVec.ofNat_add, ← BitVec.add_assoc, hr, BitVec.sub_add_cancel]
  have hsplit : r + n = n - m + (m + r) := by omega
  rw [hsplit, BitVec.ofNat_add, ← BitVec.add_assoc] at hsum
  rw [← BitVec.add_sub_cancel (pushAddr sp n + BitVec.ofNat 32 (n - m)) (BitVec.ofNat 32 (m + r)),
    hsum]

/-- With room for it, the bytes go right below `sp`. -/
theorem toNat_pushAddr (h : n ≤ sp.toNat) : (pushAddr sp n).toNat = (sp.toNat - n) / 4 * 4 := by
  have hlt := sp.isLt
  rw [pushAddr, BitVec.toNat_ofNat, toNat_sub_of_le h]
  omega

theorem toNat_pushAddr_mod (sp : Word) (n : Nat) : (pushAddr sp n).toNat % 4 = 0 := by
  rw [pushAddr, BitVec.toNat_ofNat]
  omega

/-- What can be stored below `sp` fits in the stack page: otherwise one of its bytes comes to lie in
the page below. -/
theorem StackPage.fits (h : StackPage d low) (hlow : low ≤ sp.toNat) (hsp : sp.toNat % 4 = 0)
    (huser : ∀ i < n, userAt d (pushAddr sp n + BitVec.ofNat 32 i) = true) (hpos : 0 < n) :
    low ≤ (pushAddr sp n).toNat ∧ (pushAddr sp n).toNat + n ≤ sp.toNat := by
  have haligned : low % 4 = 0 := by
    have hpage := h.aligned
    simp only [PGSIZE] at hpage
    omega
  by_cases hfits : n ≤ sp.toNat - low
  · rw [toNat_pushAddr (by omega)]
    omega
  · obtain ⟨r, hr4, hr⟩ := pushAddr_eq sp n
    -- the byte right below the stack page, or the last one if rounding has moved it that far
    obtain ⟨m, hm, hmn, hlo, hhi⟩ : ∃ m, 0 < m ∧ m ≤ n ∧ sp.toNat + 1 ≤ m + r + low ∧
        m + r ≤ sp.toNat - low + 4 := by
      by_cases hfar : r ≤ sp.toNat - low
      · exact ⟨sp.toNat - low + 1 - r, by omega, by omega, by omega, by omega⟩
      · exact ⟨1, by omega, by omega, by omega, by omega⟩
    have hroom := h.room
    have hguard := h.guard (sp - BitVec.ofNat 32 (m + r))
    simp only [PGSIZE] at hroom hguard
    rw [← pushAddr_add hr hmn, huser (n - m) (by omega), pushAddr_add hr hmn,
      toNat_sub_of_le (by omega)] at hguard
    exact absurd (hguard (by omega) (by omega)).symm Bool.false_ne_true

theorem StackPage.place_eq (h : StackPage d low) (hlow : low ≤ va.toNat)
    (hhigh : va.toNat < low + PGSIZE) : place d va = (stackFrame d low, va.toNat - low) := by
  have haligned := h.aligned
  have hdiv : va.toNat / PGSIZE = low / PGSIZE := by
    simp only [PGSIZE] at *
    omega
  have hmod : va.toNat % PGSIZE = va.toNat - low := by
    simp only [PGSIZE] at *
    omega
  rw [place, Pgdir.pte_eq, hdiv, hmod]
  rfl

end

/-! ## Pushing -/

/-- The blocks have been stored, one below the other, down to `sp`. -/
structure Stacked (d : Pgdir) (low : Nat) (blocks : List (Word × List UInt8)) (sp : Word)
    (s₀ s : Kmem im) : Prop where
  above : low ≤ sp.toNat
  below : sp.toNat ≤ low + PGSIZE
  aligned : sp.toNat % 4 = 0
  inside : ∀ b ∈ blocks, sp.toNat ≤ b.1.toNat ∧ b.1.toNat + b.2.length ≤ low + PGSIZE
  disjoint : blocks.Pairwise fun b c => c.1.toNat + c.2.length ≤ b.1.toNat
  holds : ∀ b ∈ blocks, Holds d s.mem b.1 b.2
  same : ∀ x, x.1 ≠ stackFrame d low → cells s.mem x = cells s₀.mem x

section

variable {d : Pgdir} {low : Nat} {blocks : List (Word × List UInt8)} {sp : Word}
  {bs : List UInt8} {s₀ s s' : Kmem im}

theorem Stacked.push (h : Stacked d low blocks sp s₀ s) (hpage : StackPage d low) (hne : bs ≠ [])
    (hcopied : Copied d (pushAddr sp bs.length) bs bs.length s s') :
    Stacked d low (blocks ++ [(pushAddr sp bs.length, bs)]) (pushAddr sp bs.length) s₀ s' := by
  have hpos := length_pos_iff.mpr hne
  have hbelow := hpage.below
  have hbelow' := h.below
  obtain ⟨hva, hfits⟩ := hpage.fits h.above h.aligned hcopied.user hpos
  -- where the bytes of the new block are
  have hnat : ∀ i < bs.length, (pushAddr sp bs.length + BitVec.ofNat 32 i).toNat =
      (pushAddr sp bs.length).toNat + i := fun i hi => toNat_add_of_lt (by omega)
  have hplace : ∀ i < bs.length, place d (pushAddr sp bs.length + BitVec.ofNat 32 i) =
      (stackFrame d low, (pushAddr sp bs.length).toNat + i - low) := by
    intro i hi
    have hi' := hnat i hi
    rw [hpage.place_eq (by omega) (by omega), hi']
  have hsame : ∀ x, (x.1 ≠ stackFrame d low ∨ sp.toNat ≤ low + x.2) →
      cells s'.mem x = cells s.mem x := by
    intro x hx
    apply hcopied.same
    intro i hi _ heq
    rw [hplace i hi] at heq
    obtain hx | hx := hx
    · exact hx (congrArg Prod.fst heq).symm
    · have hsnd := congrArg Prod.snd heq
      dsimp only at hsnd
      omega
  constructor
  · exact hva
  · omega
  · exact toNat_pushAddr_mod sp bs.length
  · intro b hb
    obtain hb | hb := mem_append.mp hb
    · have hold := h.inside b hb
      omega
    · obtain rfl := mem_singleton.mp hb
      dsimp only
      omega
  · rw [pairwise_append]
    refine ⟨h.disjoint, pairwise_singleton .., ?_⟩
    intro b hb c hc
    obtain rfl := mem_singleton.mp hc
    have hold := h.inside b hb
    dsimp only
    omega
  · intro b hb i hi
    obtain hb | hb := mem_append.mp hb
    · have hold := h.inside b hb
      obtain ⟨huser, hbyte⟩ := h.holds b hb i hi
      have hb' : (b.1 + BitVec.ofNat 32 i).toNat = b.1.toNat + i := toNat_add_of_lt (by omega)
      refine ⟨huser, ?_⟩
      rw [hsame _ (.inr ?_)]
      · exact hbyte
      · rw [hpage.place_eq (by omega) (by omega), hb']
        dsimp only
        omega
    · obtain rfl := mem_singleton.mp hb
      refine ⟨hcopied.user i hi, ?_⟩
      rw [hcopied.mem, take_length]
      apply poke_places_of_last hi
      intro j hij hj heq
      rw [hplace i hi, hplace j hj] at heq
      have hsnd := congrArg Prod.snd heq
      dsimp only at hsnd
      omega
  · intro x hx
    rw [hsame x (.inl hx), h.same x hx]

theorem Stacked.copyout (h : Stacked d low blocks sp s₀ s) (hpage : StackPage d low) (hne : bs ≠ []) :
    Ends (copyout d (pushAddr sp bs.length) bs) s (fun ok s' _ => ok = true →
      Stacked d low (blocks ++ [(pushAddr sp bs.length, bs)]) (pushAddr sp bs.length) s₀ s')
      fun _ => True := by
  refine ((copyoutLoop_ends _ le_rfl).mono ?_).weaken fun _ _ => trivial
  rintro ok s' es ⟨-, m, hcopied, ⟨-, rfl⟩ | ⟨hno, -⟩⟩ hok
  · exact h.push hpage hne hcopied
  · rw [hno] at hok
    exact absurd hok Bool.false_ne_true

/-- The strings are pushed one after the other. -/
theorem pushArgs_ends (hpage : StackPage d low) (args : List (List UInt8)) :
    ∀ {argc : Nat} {sp : Word} {ustack : List Word} {blocks : List (Word × List UInt8)}
      {s : Kmem im}, Stacked d low blocks sp s₀ s →
    Ends (pushArgs d args argc sp ustack) s (fun r s' _ => ∀ sp' ustack', r = some (sp', ustack') →
      ∃ ptrs, ustack' = ustack ++ ptrs ∧ ptrs.length = args.length ∧
        Stacked d low (blocks ++ ptrs.zip (args.map (· ++ [0]))) sp' s₀ s') fun _ => True := by
  induction args with
  | nil =>
    intro argc sp ustack blocks s h
    apply ends_pure
    rintro _ _ ⟨⟩
    exact ⟨[], (append_nil _).symm, rfl, by rwa [zip_nil_left, append_nil]⟩
  | cons arg args ih =>
    intro argc sp ustack blocks s h
    rw [pushArgs]
    refine ends_ite ?_ ?_
    · intro _
      apply ends_pure
      rintro _ _ ⟨⟩
    · intro _
      have hlen : (arg ++ [(0 : UInt8)]).length = arg.length + 1 := length_append
      have hpush := h.copyout hpage (append_ne_nil_of_right_ne_nil arg (cons_ne_nil 0 []))
      rw [hlen] at hpush
      apply Ends.bind hpush
      intro ok s' es hok
      refine ends_ite ?_ ?_
      · intro htrue
        apply (ih (hok htrue)).mono
        intro r s'' fs hr sp' ustack' heq
        obtain ⟨ptrs, rfl, hptrs, hstacked⟩ := hr sp' ustack' heq
        refine ⟨pushAddr sp (arg.length + 1) :: ptrs, ?_, congrArg Nat.succ hptrs, ?_⟩
        · rw [append_assoc]
          rfl
        · rwa [append_assoc] at hstacked
      · intro _
        apply ends_pure
        rintro _ _ ⟨⟩

end

/-! ## The frame -/

/-- What `main` is called with: a return address, `argc`, and `argv`, which points to the words that
follow. -/
def argFrame (esp : Word) (ptrs : List Word) : List UInt8 :=
  ([BitVec.ofNat 32 0xffffffff, BitVec.ofNat 32 ptrs.length, esp + 12] ++ ptrs ++ [0]).flatMap
    wordBytes

/-- The arguments are copied to the stack (`exec.c:64-84`). -/
def passArgs (argv : List (List UInt8)) (entry : Word) (d : Pgdir) (sz : Word) :
    V im (Option Image) := do
  let r ← pushArgs d argv 0 sz []
  match r with
  | none => return none
  | some (sp, ustack) =>
    let argc := argv.length
    let frame := [BitVec.ofNat 32 0xffffffff, BitVec.ofNat 32 argc,
      sp - BitVec.ofNat 32 ((argc + 1) * 4)] ++ ustack ++ [0]
    let sp := sp - BitVec.ofNat 32 ((3 + argc + 1) * 4)
    let ok ← copyout d sp (frame.flatMap wordBytes)
    if ok then
      return some { pgdir := d, sz := sz, eip := entry, esp := sp }
    else
      return none

section

variable {d : Pgdir} {low : Nat} {blocks : List (Word × List UInt8)} {sp : Word} {s₀ s : Kmem im}

theorem length_flatMap_wordBytes (ws : List Word) : (ws.flatMap wordBytes).length = ws.length * 4 := by
  induction ws with
  | nil => rfl
  | cons w ws ih =>
    rw [flatMap_cons, length_append, ih, length_cons, Nat.succ_mul, Nat.add_comm]
    rfl

theorem length_argFrame (esp : Word) (ptrs : List Word) :
    (argFrame esp ptrs).length = (3 + ptrs.length + 1) * 4 := by
  rw [argFrame, length_flatMap_wordBytes]
  simp only [length_append, length_cons, length_nil]

theorem pushAddr_of_aligned {n : Nat} (hsp : sp.toNat % 4 = 0) :
    pushAddr sp (n * 4) = sp - BitVec.ofNat 32 (n * 4) := by
  have hlt := sp.isLt
  apply BitVec.eq_of_toNat_eq
  rw [pushAddr, BitVec.toNat_ofNat, BitVec.toNat_sub, BitVec.toNat_ofNat]
  omega

/-- The frame is pushed like a string: its length is a number of words. -/
theorem Stacked.copyout_frame (h : Stacked d low blocks sp s₀ s) (hpage : StackPage d low)
    {esp : Word} {ptrs : List Word}
    (hesp : sp - BitVec.ofNat 32 ((3 + ptrs.length + 1) * 4) = esp) :
    Ends (Vm.copyout d esp (argFrame esp ptrs)) s (fun ok s' _ => ok = true →
      Stacked d low (blocks ++ [(esp, argFrame esp ptrs)]) esp s₀ s') fun _ => True := by
  have hne : argFrame esp ptrs ≠ [] := by
    apply ne_nil_of_length_pos
    rw [length_argFrame]
    omega
  have hpush := h.copyout hpage hne
  rwa [length_argFrame, pushAddr_of_aligned h.aligned, hesp] at hpush

theorem argv_addr (sp : Word) (n : Nat) :
    sp - BitVec.ofNat 32 ((n + 1) * 4) = sp - BitVec.ofNat 32 ((3 + n + 1) * 4) + 12 := by
  have hsum : (3 + n + 1) * 4 = (n + 1) * 4 + 12 := by omega
  rw [hsum, BitVec.ofNat_add]
  generalize BitVec.ofNat 32 ((n + 1) * 4) = a
  bv_omega

theorem passArgs_ends {argv : List (List UInt8)} {entry sz : Word} (hpage : StackPage d low)
    (htop : sz.toNat = low + PGSIZE) : Ends (passArgs argv entry d sz) s
      (fun r s' _ => ∀ image, r = some image → image.pgdir = d ∧ image.sz = sz ∧ image.eip = entry ∧
        ∃ ptrs, ptrs.length = argv.length ∧
          Stacked d low (ptrs.zip (argv.map (· ++ [0])) ++ [(image.esp, argFrame image.esp ptrs)])
            image.esp s s') fun _ => True := by
  have hstart : Stacked d low [] sz s s := by
    have haligned := hpage.aligned
    refine ⟨by omega, by omega, ?_, by simp, .nil, by simp, fun _ _ => rfl⟩
    simp only [PGSIZE] at haligned htop
    omega
  apply Ends.bind (pushArgs_ends hpage argv hstart)
  intro r s₁ _ hr
  cases r with
  | none =>
    apply ends_pure
    rintro _ ⟨⟩
  | some p =>
    obtain ⟨sp, ustack⟩ := p
    obtain ⟨_, rfl, hlen, hstacked⟩ := hr sp ustack rfl
    have hframe : argFrame (sp - BitVec.ofNat 32 ((3 + ustack.length + 1) * 4)) ustack =
        ([BitVec.ofNat 32 0xffffffff, BitVec.ofNat 32 argv.length,
          sp - BitVec.ofNat 32 ((argv.length + 1) * 4)] ++ ustack ++ [0]).flatMap wordBytes := by
      rw [argFrame, ← argv_addr, hlen]
    change Ends (copyout d _ (([BitVec.ofNat 32 0xffffffff, BitVec.ofNat 32 argv.length,
      sp - BitVec.ofNat 32 ((argv.length + 1) * 4)] ++ ustack ++ [0]).flatMap wordBytes) >>= _) _ _ _
    rw [← hframe, ← hlen]
    generalize hesp : sp - BitVec.ofNat 32 ((3 + ustack.length + 1) * 4) = esp
    apply Ends.bind (hstacked.copyout_frame hpage hesp)
    intro ok s' _ hok
    refine ends_ite ?_ ?_
    · intro htrue
      apply ends_pure
      rintro _ ⟨⟩
      exact ⟨rfl, rfl, rfl, ustack, rfl, hok htrue⟩
    · intro _
      apply ends_pure
      rintro _ ⟨⟩

end

end Xv6.Vm
