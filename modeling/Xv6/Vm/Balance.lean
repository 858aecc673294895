import Mathlib.Algebra.Order.Pi
import Xv6.Lib.Tally
import Xv6.Vm.Entries
import Xv6.Vm.Exec

/-!
# Where the pages are

The pages on the free list and the pages of a page directory, counted. Every operation moves pages
between the two; a page is lost exactly when `walkpgdir` finds no page for a page table, because
then the caller drops the page it was about to enter, or the whole directory.
-/

namespace Xv6.Vm

open Lib Act Finset

/-- The page of a page table. -/
def tableMark (t : Option Table) : Nat → Int := mark (t.map Table.page)

/-- The page that an entry refers to. -/
def frameMark (e : Word) : Nat → Int := if present e then mark (some (PTE_ADDR e)) else 0

/-- The pages of the page tables. -/
def tables (d : Pgdir) : Nat → Int := ∑ i ∈ Finset.range NPDENTRIES, tableMark (d.pde i)

/-- The pages of the user's part. -/
def frames (d : Pgdir) : Nat → Int :=
  ∑ g ∈ Finset.range (KERNBASE / PGSIZE), frameMark (d.entry g)

/-- The pages of a page directory. -/
def held (d : Pgdir) : Nat → Int := mark (some d.page) + tables d + frames d

theorem frameMark_nonneg (e : Word) : 0 ≤ frameMark e := by
  unfold frameMark
  split
  · exact mark_nonneg _
  · exact le_rfl

theorem tables_nonneg (d : Pgdir) : 0 ≤ tables d := sum_nonneg fun _ _ => mark_nonneg _

theorem frames_nonneg (d : Pgdir) : 0 ≤ frames d := sum_nonneg fun _ _ => frameMark_nonneg _

theorem held_nonneg (d : Pgdir) : 0 ≤ held d :=
  add_nonneg (add_nonneg (mark_nonneg _) (tables_nonneg d)) (frames_nonneg d)

theorem held_ne_zero (d : Pgdir) : held d ≠ 0 := by
  intro h
  have hpage := congrFun h d.page
  have htables := tables_nonneg d d.page
  have hframes := frames_nonneg d d.page
  simp only [held, Pi.add_apply, Pi.zero_apply, mark_some_self] at *
  omega

theorem tables_setPte (d : Pgdir) (va e : Word) : tables (d.setPte va e) = tables d := by
  apply sum_congr rfl
  intro i _
  exact congrArg mark (d.pde_setPte va e i)

/-- The page that an entry for a virtual page stands for: none in the kernel's part. -/
def share (g : Nat) (e : Word) : Nat → Int := if g < KERNBASE / PGSIZE then frameMark e else 0

theorem held_setPte {d : Pgdir} {va e : Word} {t : Table} (h : d.pde (PDX va) = some t) :
    held (d.setPte va e) =
      held d - share (va.toNat / PGSIZE) (d.pte va) + share (va.toNat / PGSIZE) e := by
  have hframes : frames (d.setPte va e) =
      frames d - share (va.toNat / PGSIZE) (d.pte va) + share (va.toNat / PGSIZE) e := by
    rw [frames, Pgdir.entry_setPte h, d.pte_eq, share, share]
    by_cases hva : va.toNat / PGSIZE < KERNBASE / PGSIZE
    · rw [if_pos hva, if_pos hva]
      exact sum_comp_update_of_mem frameMark d.entry (mem_range.mpr hva) e
    · rw [if_neg hva, if_neg hva, sub_zero, add_zero]
      apply sum_congr rfl
      intro g hg
      have hlt := mem_range.mp hg
      rw [Function.update_of_ne (by omega)]
  rw [held, held, d.page_setPte, tables_setPte, hframes]
  abel

theorem share_of_absent {g : Nat} {e : Word} (h : present e = false) : share g e = 0 := by
  unfold share
  split
  · exact if_neg (by rw [h]; decide)
  · rfl

theorem share_kernel {g : Nat} (e : Word) (h : KERNBASE / PGSIZE ≤ g) : share g e = 0 :=
  if_neg (not_lt.mpr h)

theorem held_addTable {d : Pgdir} {i p : Nat} (h : d.pde i = none) (hi : i < NPDENTRIES) :
    held (d.addTable i p) = held d + mark (some p) := by
  have htables : tables (d.addTable i p) = tables d + mark (some p) := by
    have hsum := sum_comp_update_of_mem tableMark d.pde (mem_range.mpr hi)
      (some { page := p, pte := fun _ => 0 })
    have hnone : tableMark (d.pde i) = 0 := by rw [h]; rfl
    rw [hnone, sub_zero] at hsum
    exact hsum
  have hframes : frames (d.addTable i p) = frames d := by
    rw [frames, frames, Pgdir.entry_addTable h]
  rw [held, held, htables, hframes]
  change mark (some d.page) + _ + _ = _
  abel

theorem PDX_lt (va : Word) : PDX va < NPDENTRIES := by
  have := va.isLt
  simp only [PDX, NPDENTRIES]
  omega

/-! ## The balance -/

section

variable {im : Layout}

/-- From `s`, with the pages `h` in hand, to `s'` with the pages `h'`: the rest is lost, and some
page is lost exactly if a page table could not be had. -/
def Balanced (s : Kmem im) (h : Nat → Int) (s' : Kmem im) (h' : Nat → Int) (es : List VmEvent) :
    Prop :=
  ∃ lost : Nat → Int, 0 ≤ lost ∧ (lost = 0 ↔ .tableFail ∉ es) ∧
    marks s.freelist + h = marks s'.freelist + h' + lost

namespace Balanced

variable {s s' s'' : Kmem im} {h h' h'' : Nat → Int} {es fs : List VmEvent}

theorem of_eq (hes : .tableFail ∉ es) (heq : marks s.freelist + h = marks s'.freelist + h') :
    Balanced s h s' h' es := by
  refine ⟨0, le_rfl, by simp [hes], ?_⟩
  rw [add_zero]
  exact heq

theorem refl (s : Kmem im) (h : Nat → Int) : Balanced s h s h [] := of_eq List.not_mem_nil rfl

theorem trans (hb : Balanced s h s' h' es) (hb' : Balanced s' h' s'' h'' fs) :
    Balanced s h s'' h'' (es ++ fs) := by
  obtain ⟨lost, hpos, hiff, heq⟩ := hb
  obtain ⟨lost', hpos', hiff', heq'⟩ := hb'
  refine ⟨lost + lost', add_nonneg hpos hpos', ?_, ?_⟩
  · rw [add_eq_zero_iff_of_nonneg hpos hpos', hiff, hiff', List.mem_append, not_or]
  · rw [heq, heq']
    abel

/-- A page table could not be had, and then the pages in hand are dropped. -/
theorem drop {k : Nat → Int} (hpos : 0 ≤ k) (hne : k ≠ 0) (hes : .tableFail ∈ es)
    (heq : marks s.freelist + h = marks s'.freelist + h' + k) : Balanced s h s' h' es :=
  ⟨k, hpos, ⟨fun hz => absurd hz hne, fun hno => absurd hes hno⟩, heq⟩

/-- Nothing was lost exactly if the free list has the same pages. -/
theorem perm_iff (hb : Balanced s h s' h es) :
    s'.freelist.Perm s.freelist ↔ .tableFail ∉ es := by
  obtain ⟨lost, -, hiff, heq⟩ := hb
  have hsum : marks s.freelist = marks s'.freelist + lost := by
    have hswap : marks s'.freelist + h + lost = marks s'.freelist + lost + h := by abel
    exact add_right_cancel (heq.trans hswap)
  rw [← hiff, ← marks_eq_iff, hsum, left_eq_add]

end Balanced

/-- From any state and with the pages `h` in hand, `x` ends with a result and pages that meet
`Q`; it stops only if `E`. -/
structure Moves {α : Type} (x : V im α) (h : Nat → Int) (Q : α → (Nat → Int) → Prop) (E : Prop) :
    Prop where
  ends : ∀ s, Ends x s (fun a s' es => ∃ h', Balanced s h s' h' es ∧ Q a h') fun _ => E

variable {α β : Type} {x : V im α} {f : α → V im β} {h k : Nat → Int}
  {Q R : α → (Nat → Int) → Prop} {E : Prop}

theorem Moves.mono (hx : Moves x h R E) (hQ : ∀ a h', R a h' → Q a h') : Moves x h Q E := by
  constructor
  intro s
  apply (hx.ends s).mono
  rintro a s' es ⟨h', hb, hr⟩
  exact ⟨h', hb, hQ a h' hr⟩

theorem Moves.bind {Q : β → (Nat → Int) → Prop} (hx : Moves x h R E)
    (hf : ∀ a h', R a h' → Moves (f a) h' Q E) : Moves (x >>= f) h Q E := by
  constructor
  intro s
  apply (hx.ends s).bind
  rintro a s' es ⟨h', hb, hr⟩
  apply ((hf a h' hr).ends s').mono
  rintro b s'' fs ⟨h'', hb', hq⟩
  exact ⟨h'', hb.trans hb', hq⟩

theorem moves_pure {a : α} (hq : Q a h) : Moves (pure a : V im α) h Q E :=
  ⟨fun s => ends_pure ⟨h, .refl s h, hq⟩⟩

theorem moves_panic {msg : String} (he : E) : Moves (Act.panic msg : V im α) h Q E :=
  ⟨fun _ => he⟩

theorem moves_undefined (he : E) : Moves (Act.undefined : V im α) h Q E :=
  ⟨fun _ => he⟩

theorem moves_get_bind {f : Kmem im → V im α} (hf : ∀ s, Moves (f s) h Q E) :
    Moves (Act.get >>= f) h Q E :=
  ⟨fun s => ends_get_bind ((hf s).ends s)⟩

theorem moves_ite {c : Prop} [Decidable c] {y : V im α} (hx : c → Moves x h Q E)
    (hy : ¬ c → Moves y h Q E) : Moves (if c then x else y) h Q E := by
  split
  · exact hx ‹_›
  · exact hy ‹_›

theorem moves_emit {v : VmEvent} (hv : v ≠ .tableFail) :
    Moves (Act.emit v : V im Unit) h (fun _ h' => h = h') E :=
  ⟨fun _ => ends_emit ⟨h, .of_eq (by simpa using hv.symm) rfl, rfl⟩⟩

theorem moves_store {p : Nat} {b : Bytes PGSIZE} :
    Moves (store p b : V im Unit) h (fun _ h' => h = h') E :=
  ⟨fun _ => ends_modify ⟨h, .of_eq List.not_mem_nil rfl, rfl⟩⟩

theorem kalloc_moves :
    Moves (kalloc : V im (Option Nat)) h (fun r h' => h + mark r = h' ∧ ∀ p ∈ r, p < 2 ^ 20) E := by
  constructor
  intro s
  refine Does.mono kalloc_does ?_ fun _ _ => id
  rintro r s' _ ⟨rfl, ⟨rfl, -, rfl⟩ | ⟨p, rfl, hf, -⟩⟩
  · exact ⟨h, .refl s h, by simp, by simp⟩
  · have hp := (s.physical p (by rw [hf]; exact List.mem_cons_self ..)).2
    refine ⟨_, .of_eq List.not_mem_nil ?_, rfl, ?_⟩
    · rw [hf, marks_cons]
      abel
    · intro q hq
      cases hq
      simp only [PGSIZE, PHYSTOP] at hp
      omega

theorem kfree_moves {p : Nat} (he : ¬ im.Physical p → E) :
    Moves (kfree im p) (k + mark (some p)) (fun _ h' => k = h') E := by
  unfold kfree
  split
  · rename_i hbad
    exact moves_panic (he fun hp => hbad.elim (not_lt.mpr hp.1) (not_le.mpr hp.2))
  · apply moves_store.bind
    rintro _ _ rfl
    refine ⟨fun s => ends_modify ⟨k, .of_eq List.not_mem_nil ?_, rfl⟩⟩
    rw [Kmem.freelist_push, marks_cons]
    abel

theorem walkpgdir_moves {d : Pgdir} {va : Word} :
    Moves (walkpgdir d va false : V im (Option Pgdir)) h (fun r h' => h = h' ∧
      (r = none ∧ d.pde (PDX va) = none ∨ ∃ t, r = some d ∧ d.pde (PDX va) = some t)) E := by
  constructor
  intro s
  refine Does.mono walkpgdir_false_does ?_ fun _ _ => id
  rintro r _ _ ⟨rfl, rfl, hr⟩
  exact ⟨h, .refl s h, rfl, hr⟩

end

/-! ## Page tables -/

section

variable {im : Layout} {d d' : Pgdir} {e : Word} {g m n : Nat} {w : Nat → Word} {s s' : Kmem im}
  {h : Nat → Int}

/-- Entries are stored, and the pages of new page tables come from the free list. -/
structure Enters (s : Kmem im) (d : Pgdir) (g m : Nat) (w : Nat → Word) (s' : Kmem im)
    (d' : Pgdir) : Prop extends d.Entered d' g m w where
  absent : ∀ q, g ≤ q → q < g + m → present (d.entry q) = false
  count : s.freelist.length + d.tableCount = s'.freelist.length + d'.tableCount
  balance : marks s.freelist + held d + ∑ k ∈ Finset.range m, share (g + k) (w k) =
    marks s'.freelist + held d'

theorem Enters.refl (s : Kmem im) (d : Pgdir) (g : Nat) (w : Nat → Word) : Enters s d g 0 w s d :=
  ⟨.refl d g w, fun _ hle hlt => absurd hlt (not_lt.mpr hle), rfl, by simp⟩

theorem Enters.cons {s'' : Kmem im} {d'' : Pgdir} (hone : Enters s d g 1 (fun _ => e) s' d')
    (hrest : Enters s' d' (g + 1) m w s'' d'') :
    Enters s d g (m + 1) (fun k => if k = 0 then e else w (k - 1)) s'' d'' := by
  refine ⟨hone.toEntered.cons hrest.toEntered, ?_, hone.count.trans hrest.count, ?_⟩
  · intro q hle hlt
    by_cases hq : q < g + 1
    · exact hone.absent q hle hq
    · have habsent := hrest.absent q (by omega) (by omega)
      rwa [hone.entry q, if_neg (by omega)] at habsent
  have hfirst := hone.balance
  rw [sum_range_one, Nat.add_zero] at hfirst
  have hshift : ∀ k, share (g + (k + 1)) (if k + 1 = 0 then e else w (k + 1 - 1)) =
      share (g + 1 + k) (w k) := by
    intro k
    rw [if_neg k.succ_ne_zero, Nat.add_sub_cancel, show g + (k + 1) = g + 1 + k by omega]
  rw [sum_range_succ', sum_congr rfl fun k _ => hshift k, if_pos rfl, Nat.add_zero,
    ← hrest.balance, ← hfirst]
  abel

/-- One turn of `mappages`: the entry is stored, or there is no page for its table. -/
theorem mapEntry_ends (hg : g < 2 ^ 20) : Ends (mapEntry d (pageAddr g) e) s (fun r s' es =>
    (r = none ∧ s = s' ∧ es = [.tableFail] ∧ s.freelist = [] ∧ d.pde (g / NPTENTRIES) = none) ∨
    ∃ d', r = some d' ∧ es = [] ∧ Enters s d g 1 (fun _ => e) s' d')
    fun why => why = .panic "remap" ∧ present (d.entry g) = true := by
  have hpage := toNat_pageAddr_div hg
  refine Does.mono mapEntry_does ?_ ?_
  · rintro r s' es (⟨hnone, hf, rfl, rfl, rfl⟩ | ⟨t, ht, habsent, rfl, rfl, rfl⟩ |
      ⟨p, hnone, hf, -, rfl, rfl⟩)
    · rw [PDX_pageAddr hg] at hnone
      exact .inl ⟨rfl, rfl, rfl, hf, hnone⟩
    · refine .inr ⟨_, rfl, rfl, ?_, ?_, ?_, ?_⟩
      · have hentered := Pgdir.entered_setPte (e := e) ht
        rwa [hpage] at hentered
      · intro q hle hlt
        rwa [show q = g by omega, ← pte_pageAddr hg]
      · rw [Pgdir.tableCount_setPte]
      · rw [held_setPte ht, share_of_absent habsent, hpage]
        simp only [sum_range_one, Nat.add_zero]
        abel
    · have htable : (d.addTable (PDX (pageAddr g)) p).pde (PDX (pageAddr g)) =
          some { page := p, pte := fun _ => 0 } := Function.update_self ..
      have hzero : (d.addTable (PDX (pageAddr g)) p).pte (pageAddr g) = 0 := by
        rw [Pgdir.pte_eq, Pgdir.entry_addTable hnone, ← Pgdir.pte_eq, Pgdir.pte, hnone]
      have habsent : present ((d.addTable (PDX (pageAddr g)) p).pte (pageAddr g)) = false := by
        rw [hzero]
        rfl
      refine .inr ⟨_, rfl, rfl, ?_, ?_, ?_, ?_⟩
      · have hentered := Pgdir.entered_addTable (e := e) hnone p
        rwa [hpage] at hentered
      · intro q hle hlt
        rw [PDX_pageAddr hg] at hnone
        rw [show q = g by omega, Pgdir.entry_of_none hnone]
        exact present_zero
      · rw [Pgdir.tableCount_setPte, Pgdir.tableCount_addTable hnone (PDX_lt _), hf,
          List.length_cons]
        omega
      · rw [held_setPte htable, share_of_absent habsent, held_addTable hnone (PDX_lt _), hf,
          marks_cons, hpage]
        simp only [sum_range_one, Nat.add_zero]
        abel
  · rintro why es ⟨rfl, -, hpres⟩
    rw [pte_pageAddr hg] at hpres
    exact ⟨rfl, hpres⟩

/-- The entries that `mappages` makes. -/
def pteWord (pa perm : Word) (k : Nat) : Word :=
  (pa + BitVec.ofNat 32 (PGSIZE * k)) ||| perm ||| PTE_P

theorem pteWord_eq (pa perm : Word) : pteWord pa perm = fun k =>
    if k = 0 then pa ||| perm ||| PTE_P
    else pteWord (pa + BitVec.ofNat 32 PGSIZE) perm (k - 1) := by
  funext k
  cases k with
  | zero => simp [pteWord]
  | succ k =>
    have hsum : BitVec.ofNat 32 (PGSIZE * (k + 1)) =
        BitVec.ofNat 32 PGSIZE + BitVec.ofNat 32 (PGSIZE * k) := by
      rw [← BitVec.ofNat_add, Nat.mul_succ, Nat.add_comm]
    simp only [Nat.add_one_ne_zero, if_false, Nat.add_sub_cancel, pteWord, hsum, BitVec.add_assoc]

/-- How the loop of `mappages` over the pages `g` to `g + n` ends: all of them are entered, or a
page table could not be had after `m` of them. -/
def MapResult (s : Kmem im) (d : Pgdir) (g n : Nat) (w : Nat → Word) (r : Pgdir × Bool)
    (s' : Kmem im) (es : List VmEvent) : Prop :=
  (r.2 = true ∧ es = [] ∧ Enters s d g n w s' r.1) ∨
  ∃ m < n, r.2 = false ∧ es = [.tableFail] ∧ Enters s d g m w s' r.1 ∧ s'.freelist = [] ∧
    r.1.pde ((g + m) / NPTENTRIES) = none

theorem mappagesLoop_ends (n : Nat) : ∀ {turns g : Nat} {d : Pgdir} {s : Kmem im} {pa perm : Word},
    n < turns → g + n < 2 ^ 20 →
    Ends (mappagesLoop turns d (pageAddr g) (pageAddr (g + n)) pa perm) s
      (MapResult s d g (n + 1) (pteWord pa perm))
      fun why => why = .panic "remap" ∧ ∃ q, g ≤ q ∧ q ≤ g + n ∧ present (d.entry q) = true := by
  induction n with
  | zero =>
    intro turns g d s pa perm hturns hfits
    obtain ⟨turns, rfl⟩ := Nat.exists_eq_add_of_lt hturns
    have hmap := mapEntry_ends (d := d) (e := pa ||| perm ||| PTE_P) (s := s) hfits
    rw [Nat.zero_add, mappagesLoop, Nat.add_zero] at *
    refine Ends.bind (hmap.weaken ?_) ?_
    · rintro why ⟨rfl, hpres⟩
      exact ⟨rfl, g, le_rfl, le_rfl, hpres⟩
    · rintro r s' es (⟨rfl, rfl, rfl, hf, hnone⟩ | ⟨d', rfl, rfl, hone⟩)
      · exact ends_pure (.inr ⟨0, Nat.one_pos, rfl, rfl, .refl s d g _, hf, hnone⟩)
      · simp only [if_true]
        refine ends_pure (.inl ⟨rfl, rfl, ?_⟩)
        rw [pteWord_eq]
        exact hone.cons (.refl s' d' _ _)
  | succ n ih =>
    intro turns g d s pa perm hturns hfits
    obtain ⟨turns, rfl⟩ := Nat.exists_eq_add_of_lt hturns
    have hne : pageAddr g ≠ pageAddr (g + (n + 1)) := by
      intro heq
      have := pageAddr_inj (by omega) hfits heq
      omega
    have hmap := mapEntry_ends (d := d) (e := pa ||| perm ||| PTE_P) (s := s) (g := g) (by omega)
    rw [mappagesLoop]
    refine Ends.bind (hmap.weaken ?_) ?_
    · rintro why ⟨rfl, hpres⟩
      exact ⟨rfl, g, le_rfl, by omega, hpres⟩
    · rintro r s' es (⟨rfl, rfl, rfl, hf, hnone⟩ | ⟨d', rfl, rfl, hone⟩)
      · exact ends_pure (.inr ⟨0, Nat.succ_pos _, rfl, rfl, .refl s d g _, hf, hnone⟩)
      · simp only [hne, if_false]
        rw [pageAddr_succ, show g + (n + 1) = g + 1 + n by omega]
        refine Ends.weaken (Ends.mono (ih (by omega) (by omega)) ?_) ?_
        · rintro r s'' fs (⟨hr, rfl, hrest⟩ | ⟨m, hm, hr, rfl, hrest, hf, hnone⟩)
          · refine .inl ⟨hr, rfl, ?_⟩
            rw [pteWord_eq]
            exact hone.cons hrest
          · refine .inr ⟨m + 1, by omega, hr, rfl, ?_, hf, ?_⟩
            · rw [pteWord_eq]
              exact hone.cons hrest
            · rw [show g + (m + 1) = g + 1 + m by omega]
              exact hnone
        · rintro why ⟨rfl, q, hle, hlt, hpres⟩
          rw [hone.entry q, if_neg (by omega)] at hpres
          exact ⟨rfl, q, by omega, by omega, hpres⟩

/-- `mappages` of a range of pages. -/
theorem mappages_ends {va size pa perm : Word} (hc : Covers va size g n) :
    Ends (mappages d va size pa perm) s (MapResult s d g n (pteWord pa perm))
      fun why => why = .panic "remap" ∧ ∃ q, g ≤ q ∧ q < g + n ∧ present (d.entry q) = true := by
  obtain ⟨n, rfl⟩ := Nat.exists_eq_succ_of_ne_zero hc.pos.ne'
  have hfits := hc.fits
  rw [mappages_eq hc]
  apply Ends.weaken (mappagesLoop_ends n (by omega) (by omega))
  rintro why ⟨rfl, q, hle, hlt, hpres⟩
  exact ⟨rfl, q, hle, by omega, hpres⟩

/-- `mappages` gets past a page only if it was not mapped. -/
theorem MapResult.absent {r : Pgdir × Bool} {es : List VmEvent} (h : MapResult s d g 1 w r s' es) :
    present (d.entry g) = false := by
  rcases h with ⟨-, -, henters⟩ | ⟨m, hm, -, -, henters, -, hnone⟩
  · exact henters.absent g le_rfl (Nat.lt_succ_self g)
  · obtain rfl : m = 0 := by omega
    have hentry := henters.entry g
    rw [Nat.add_zero] at hnone
    rw [if_neg (by omega), Pgdir.entry_of_none hnone] at hentry
    rw [← hentry]
    exact present_zero

theorem MapResult.entry {r : Pgdir × Bool} {es : List VmEvent} (h : MapResult s d g 1 w r s' es)
    {q : Nat} (hq : q ≠ g) : r.1.entry q = d.entry q := by
  rcases h with ⟨-, -, henters⟩ | ⟨m, hm, -, -, henters, -, -⟩
  · rw [henters.entry q, if_neg (by omega)]
  · rw [henters.entry q, if_neg (by omega)]

/-- A page is entered for the user, or lost. -/
theorem mappages_page_moves {p : Nat} {perm : Word} (hg : g < KERNBASE / PGSIZE)
    (hp : p < 2 ^ 20) (hperm : perm.toNat < PGSIZE) :
    Moves (mappages d (pageAddr g) (BitVec.ofNat 32 PGSIZE) (pageAddr p) perm : V im (Pgdir × Bool))
      (held d + h + mark (some p))
      (fun r h' => held r.1 + h = h' ∧ ∀ q, q ≠ g → r.1.entry q = d.entry q) True := by
  have hpage : g < 2 ^ 20 := lt_trans hg (by decide)
  have hshare : share g (pteWord (pageAddr p) perm 0) = mark (some p) := by
    have hzero : pteWord (pageAddr p) perm 0 = pageAddr p ||| perm ||| PTE_P := by simp [pteWord]
    rw [hzero, share, if_pos hg, frameMark, present_or, if_pos rfl, PTE_ADDR_or hp hperm]
  constructor
  intro s
  refine Ends.weaken (Ends.mono (mappages_ends (covers_page hpage)) ?_) fun _ _ => trivial
  intro r s' es hr
  refine ⟨held r.1 + h, ?_, rfl, fun q => hr.entry⟩
  rcases hr with ⟨-, rfl, henters⟩ | ⟨m, hm, -, rfl, henters, -, -⟩
  · have hbal := henters.balance
    rw [sum_range_one, Nat.add_zero, hshare] at hbal
    apply Balanced.of_eq List.not_mem_nil
    rw [← add_assoc (marks s'.freelist), ← hbal]
    abel
  · obtain rfl : m = 0 := by omega
    have hbal := henters.balance
    rw [sum_range_zero, add_zero] at hbal
    apply Balanced.drop (mark_nonneg _) (mark_some_ne_zero p) (List.mem_singleton_self _)
    rw [← add_assoc (marks s'.freelist), ← hbal]
    abel

end

end Xv6.Vm
