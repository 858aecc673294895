import Xv6.Vm.Grow

/-!
# Growing and shrinking a process

`growproc` adds to the size modulo `2 ^ 32`, and `allocuvm` and `deallocuvm` use the size 0 for a
failure. So shrinking to nothing is reported as a failure after the pages are gone, and shrinking by
more than there is does nothing and is reported as a success.
-/

namespace Xv6.Vm

open Lib Act Bool

variable {im : Layout}

/-- The memory of a process. -/
structure Space where
  pgdir : Pgdir
  sz : Word

/-- `growproc` (`proc.c:107-123`). -/
def growproc (im : Layout) (p : Space) (n : Word) : V im (Space × Int) := do
  if 0 < n.toInt then
    let (d, sz) ← allocuvm im p.pgdir p.sz (p.sz + n)
    if sz = 0 then return ({ p with pgdir := d }, -1) else return ({ pgdir := d, sz := sz }, 0)
  else if n.toInt < 0 then
    let (d, sz) ← deallocuvm im p.pgdir p.sz (p.sz + n)
    if sz = 0 then return ({ p with pgdir := d }, -1) else return ({ pgdir := d, sz := sz }, 0)
  else
    return (p, 0)

/-- The user's pages that are mapped are those below the size. -/
def Space.Exact (p : Space) : Prop :=
  ∀ g < KERNBASE / PGSIZE, present (p.pgdir.entry g) = true ↔ PGSIZE * g < p.sz.toNat

/-- The result 0 is for a process of the size asked for, and -1 for one that is as before. -/
structure Grows (p : Space) (n : Int) (r : Space × Int) : Prop where
  result : r.2 = 0 ∨ r.2 = -1
  grown : r.2 = 0 → (r.1.sz.toNat : Int) = p.sz.toNat + n ∧ r.1.sz.toNat < KERNBASE ∧ r.1.Exact
  failed : r.2 = -1 → r.1.sz = p.sz ∧
    ∀ g < KERNBASE / PGSIZE, present (r.1.pgdir.entry g) = present (p.pgdir.entry g)

/-- There is a page for the last of the pages from `lo` to `hi`, and none for the page table that it is
the first to need. -/
def LastShort (s : Kmem im) (d : Pgdir) (lo hi : Nat) : Prop :=
  lo < hi ∧ d.hasTable ((hi - 1) / NPTENTRIES) = false ∧
    (hi - 1 = lo ∨ (hi - 1) % NPTENTRIES = 0) ∧ s.freelist.length = need d lo (hi - 1 - lo) + 1

section

variable {s : Kmem im} {p : Space} {n : Word}

variable {g lo hi q : Nat} {d d' : Pgdir} {s₁ : Kmem im} {ps : List Nat}

theorem Space.Exact.absent (h : p.Exact) (hg : g < KERNBASE / PGSIZE) (hle : pages p.sz ≤ g) :
    present (p.pgdir.entry g) = false := by
  rw [eq_false_iff, ne_eq, h g hg, ← lt_pages_iff]
  exact not_lt.mpr hle

theorem Space.Exact.mapped (h : p.Exact) (hsz : p.sz.toNat ≤ KERNBASE) (hlt : g < pages p.sz) :
    present (p.pgdir.entry g) = true :=
  (h g (lt_of_lt_of_le hlt (pages_le hsz))).mpr (lt_pages_iff.mp hlt)

theorem present_of_mapping (h : d'.mapping g = d.mapping g) :
    present (d'.entry g) = present (d.entry g) := by
  unfold Pgdir.mapping at h
  cases hd : present (d.entry g) <;> cases hd' : present (d'.entry g) <;> simp [hd, hd'] at h ⊢

theorem LastShort.short (h : LastShort s p.pgdir lo hi)
    (habsent : ∀ g, lo ≤ g → g < hi → present (p.pgdir.entry g) = false) :
    Short s p.pgdir lo (hi - lo) := by
  obtain ⟨hlt, htable, hnew, hlen⟩ := h
  have heq : lo + (hi - 1 - lo) = hi - 1 := by omega
  refine ⟨hi - 1 - lo, by omega, fun q hlo hq => habsent q hlo (by omega), ?_, ?_, hlen⟩
  · rw [heq]
    exact htable
  · rw [heq]
    omega

/-- The last page has been lost. -/
theorem Grown.lastShort (h : Grown s d lo ps s₁ d') (hlen : ps.length + 1 = hi - lo)
    (hhi : hi ≤ 2 ^ 20)
    (hfree₁ : s₁.freelist = [q]) (hnone : d'.pde ((lo + ps.length) / NPTENTRIES) = none) :
    LastShort s d lo hi := by
  obtain ⟨htable, hnew⟩ := h.entered.fresh hnone
  have hcount := h.free (by omega)
  have hlast : lo + ps.length = hi - 1 := by omega
  have hm : ps.length = hi - 1 - lo := by omega
  rw [hfree₁, List.length_singleton, hm] at hcount
  rw [hlast] at htable hnew
  exact ⟨by omega, htable, by omega, by omega⟩

/-- A page has been lost before the last. -/
theorem Grown.not_lastShort (h : Grown s d lo ps s₁ d') (hlen : ps.length + 1 < hi - lo)
    (hhi : hi ≤ 2 ^ 20)
    (hfree₁ : s₁.freelist = [q]) (hnone : d'.pde ((lo + ps.length) / NPTENTRIES) = none) :
    ¬ LastShort s d lo hi := by
  rintro ⟨-, -, -, hcount⟩
  obtain ⟨htable, hnew⟩ := h.entered.fresh hnone
  have hcount' := h.free (by omega)
  have htwo := need_succ_of_missing htable hnew
  have hmono := (need_strictMono d lo).monotone (show ps.length + 1 ≤ hi - 1 - lo by omega)
  rw [hfree₁, List.length_singleton] at hcount'
  omega

/-! ## Growing -/

theorem grows_failed {k : Int}
    (h : ∀ g < KERNBASE / PGSIZE, present (d.entry g) = present (p.pgdir.entry g)) :
    Grows p k ({ p with pgdir := d }, -1) :=
  ⟨.inr rfl, fun hzero => absurd (show (-1 : Int) = 0 from hzero) (by decide), fun _ => ⟨rfl, h⟩⟩

/-- The new size as `growproc` computes it. -/
theorem toNat_add_toInt (sz n : Word) (hsz : sz.toNat < KERNBASE) :
    ((sz + n).toNat : Int) = sz.toNat + n.toInt + (if sz.toNat + n.toInt < 0 then 2 ^ 32 else 0) := by
  have hlt := n.isLt
  rw [BitVec.toNat_add, BitVec.toInt_eq_toNat_cond]
  simp only [KERNBASE] at hsz
  split <;> split <;> omega

/-- After the loop of `allocuvm`. -/
theorem AllocResult.grows {r : Pgdir × Word} {s' : Kmem im} {es : List VmEvent}
    (hr : AllocResult s p.pgdir (pages p.sz) (pages (p.sz + n)) (p.sz + n) r s' es)
    (hexact : p.Exact) (hsum : ((p.sz + n).toNat : Int) = p.sz.toNat + n.toInt)
    (hnew : (p.sz + n).toNat < KERNBASE) (hle : p.sz ≤ p.sz + n) (hpos : p.sz + n ≠ 0) :
    Grows p n.toInt (if r.2 = 0 then ({ p with pgdir := r.1 }, -1)
      else ({ pgdir := r.1, sz := r.2 }, 0)) ↔
      ¬ LastShort s p.pgdir (pages p.sz) (pages (p.sz + n)) := by
  have hhi := pages_le (Nat.le_of_lt hnew)
  have hbig : pages (p.sz + n) ≤ 2 ^ 20 := le_trans hhi (by decide)
  have hmono := pages_mono hle
  have habsent : ∀ g, pages p.sz ≤ g → g < pages (p.sz + n) →
      present (p.pgdir.entry g) = false := fun g hlo hlt =>
    hexact.absent (lt_of_lt_of_le hlt hhi) hlo
  have hrestored : ∀ {ps : List Nat}, ∀ q, pages p.sz + ps.length ≤ q → q < pages (p.sz + n) →
      present (p.pgdir.entry q) = true → ps.length = 0 ∧ Skips p.pgdir.hasTable (pages p.sz) q := by
    intro ps q hlo hlt hpres
    rw [habsent q (by omega) hlt] at hpres
    exact absurd hpres false_ne_true
  cases hr with
  | @done ps s' d' h hlen =>
    have hno : ¬ LastShort s p.pgdir (pages p.sz) (pages (p.sz + n)) := fun hlast =>
      h.not_short (by omega) (.inl hlen) (hlast.short habsent)
    rw [if_neg hpos]
    refine iff_of_true ⟨.inl rfl, fun _ => ⟨hsum, hnew, ?_⟩, fun hone => ?_⟩ hno
    · intro g hg
      change present (d'.entry g) = true ↔ PGSIZE * g < (p.sz + n).toNat
      rw [← lt_pages_iff]
      by_cases hin : pages p.sz ≤ g ∧ g < pages p.sz + ps.length
      · obtain ⟨q, -, hentry, -⟩ := h.new hin.1 hin.2
        rw [hentry]
        exact iff_of_true (present_userPte q) (by omega)
      · rw [h.old hin, hexact g hg, ← lt_pages_iff]
        omega
    · exact absurd (show (0 : Int) = -1 from hone) (by decide)
  | @last ps s₁ s' d' q h hlen hfree₁ hnone =>
    rw [if_neg hpos]
    refine iff_of_false ?_ (not_not.mpr (h.lastShort hlen hbig hfree₁ hnone))
    rintro ⟨-, hgrown, -⟩
    have hpres := ((hgrown rfl).2.2 (pages p.sz + ps.length) (by omega)).mpr
      (lt_pages_iff.mp (show _ < pages (p.sz + n) by omega))
    change present (d'.entry _) = true at hpres
    rw [Pgdir.entry_of_none hnone] at hpres
    exact absurd hpres false_ne_true
  | @lost ps s₁ s₂ s' d₁ d' q h hlen hfree₁ hnone hfree hclear =>
    rw [if_pos rfl]
    refine iff_of_true (grows_failed fun g _ => ?_) (h.not_lastShort hlen hbig hfree₁ hnone)
    exact present_of_mapping (h.restored hbig (by omega) hclear hrestored g)
  | @out ps s₁ s' d₁ d' h hlen hfree hclear =>
    have hno : ¬ LastShort s p.pgdir (pages p.sz) (pages (p.sz + n)) := fun hlast =>
      h.not_short (by omega) (.inr (.inl hfree)) (hlast.short habsent)
    rw [if_pos rfl]
    refine iff_of_true (grows_failed fun g _ => ?_) hno
    exact present_of_mapping (h.restored hbig hlen.le hclear hrestored g)

theorem growproc_more (hsz : p.sz.toNat < KERNBASE) (hexact : p.Exact) (hb : Backed s p.pgdir)
    (hn : 0 < n.toInt) : Ends (growproc im p n) s (fun r _ _ => Grows p n.toInt r ↔
      (p.sz.toNat + n.toInt < KERNBASE → ¬ LastShort s p.pgdir (pages p.sz) (pages (p.sz + n))))
      fun _ => False := by
  have hsum := toNat_add_toInt p.sz n hsz
  rw [if_neg (by omega), add_zero] at hsum
  unfold growproc
  rw [if_pos hn]
  by_cases hlt : p.sz.toNat + n.toInt < KERNBASE
  · have hnew : (p.sz + n).toNat < KERNBASE := by omega
    have hle : p.sz ≤ p.sz + n := by
      change p.sz.toNat ≤ (p.sz + n).toNat
      omega
    have hpos : p.sz + n ≠ 0 := by
      intro hzero
      rw [hzero, show (0 : Word).toNat = 0 from rfl] at hsum
      omega
    refine Ends.bind ((allocuvm_ends hle hnew hb).weaken ?_) ?_
    · rintro why ⟨-, ps, s₁, d₁, h, hlen, -, hpres⟩
      have hhi := pages_le (Nat.le_of_lt hnew)
      rw [hexact.absent (by omega) (Nat.le_add_right ..)] at hpres
      exact absurd hpres false_ne_true
    · intro r s₁ es hr
      have hgrows := (hr.grows hexact hsum hnew hle hpos).trans
        (forall_prop_of_true (q := fun _ => _) hlt).symm
      obtain ⟨d, sz⟩ := r
      refine ends_ite ?_ ?_
      · intro hzero
        rw [if_pos hzero] at hgrows
        exact ends_pure hgrows
      · intro hzero
        rw [if_neg hzero] at hgrows
        exact ends_pure hgrows
  · have hbase : BitVec.ofNat 32 KERNBASE ≤ p.sz + n := by
      change KERNBASE ≤ (p.sz + n).toNat
      omega
    unfold allocuvm
    rw [if_pos hbase]
    exact ends_pure (iff_of_true (grows_failed fun _ _ => rfl) fun h => absurd h hlt)

/-! ## Shrinking -/

theorem growproc_less (hsz : p.sz.toNat < KERNBASE) (hexact : p.Exact) (hb : Backed s p.pgdir)
    (hn : n.toInt < 0) : Ends (growproc im p n) s (fun r _ _ => Grows p n.toInt r ↔
      p.sz = 0 ∨ 0 < p.sz.toNat + n.toInt) fun _ => False := by
  have hsum := toNat_add_toInt p.sz n hsz
  unfold growproc
  rw [if_neg (by omega), if_pos hn]
  by_cases hneg : p.sz.toNat + n.toInt < 0
  · -- the size wraps around, and `deallocuvm` returns the old one
    rw [if_pos hneg] at hsum
    have hge : p.sz ≤ p.sz + n := by
      change p.sz.toNat ≤ (p.sz + n).toNat
      have hmin : -2 ^ 31 ≤ n.toInt := BitVec.le_toInt n
      simp only [KERNBASE] at hsz
      omega
    unfold deallocuvm
    rw [if_pos hge, Act.pure_bind]
    refine ends_ite ?_ ?_
    · intro hzero
      exact ends_pure (iff_of_true (grows_failed fun _ _ => rfl) (.inl hzero))
    · intro hzero
      refine ends_pure (iff_of_false ?_ ?_)
      · rintro ⟨-, hgrown, -⟩
        have heq := (hgrown rfl).1
        omega
      · rintro (h | h)
        · exact hzero h
        · omega
  · rw [if_neg hneg, add_zero] at hsum
    have hlt : p.sz + n < p.sz := by
      change (p.sz + n).toNat < p.sz.toNat
      omega
    have hcond : ∀ g, pages (p.sz + n) ≤ g → g < pages p.sz → present (p.pgdir.entry g) = true →
        im.Physical (PTE_ADDR (p.pgdir.entry g)) ∧
          ¬ Skips p.pgdir.hasTable (pages (p.sz + n)) g := by
      intro g hlo hhi hpres
      have hle := pages_le (Nat.le_of_lt hsz)
      -- the first page of the range is mapped, so its table is there
      have hfirst := hexact.mapped (Nat.le_of_lt hsz) (lt_of_le_of_lt hlo hhi)
      exact ⟨hb.physical g (lt_of_lt_of_le hhi hle) hpres,
        (not_skips_of_table (hasTable_of_present hfirst) g).1⟩
    obtain ⟨d', s', hrun, hrem⟩ := deallocuvm_removed (s := s) hlt (Nat.le_of_lt hsz) hcond
    have hends : Ends (deallocuvm im p.pgdir p.sz (p.sz + n)) s
        (fun r _ _ => r = (d', p.sz + n)) fun _ => False := by
      unfold Ends Does
      rw [hrun]
    apply Ends.bind hends
    rintro _ s₁ es rfl
    refine ends_ite ?_ ?_
    · intro hzero
      rw [hzero, show ((0 : Word).toNat : Int) = 0 from rfl] at hsum
      have hpos : 0 < p.sz.toNat := by omega
      refine ends_pure (iff_of_false ?_ ?_)
      · rintro ⟨-, -, hfailed⟩
        have hfirst : 0 < pages p.sz := lt_pages_iff.mpr hpos
        have habsent := hrem.absent 0 (by rw [hzero]; exact le_rfl) hfirst
        have hsame := (hfailed rfl).2 0 (by decide)
        rw [hexact.mapped (Nat.le_of_lt hsz) hfirst] at hsame
        exact absurd (habsent.symm.trans hsame) false_ne_true
      · rintro (h | h)
        · rw [h] at hpos
          exact absurd hpos (lt_irrefl 0)
        · omega
    · intro hzero
      have hpos : 0 < (p.sz + n).toNat := by
        apply Nat.pos_of_ne_zero
        intro h
        exact hzero (BitVec.eq_of_toNat_eq h)
      refine ends_pure (iff_of_true ⟨.inl rfl, fun _ => ⟨hsum, ?_, ?_⟩, ?_⟩ (.inr (by omega)))
      · exact lt_trans hlt hsz
      · intro g hg
        change present (d'.entry g) = true ↔ PGSIZE * g < (p.sz + n).toNat
        have hmono := pages_mono (BitVec.le_of_lt hlt)
        rw [← lt_pages_iff]
        by_cases hin : pages (p.sz + n) ≤ g ∧ g < pages p.sz
        · rw [hrem.absent g hin.1 hin.2]
          exact iff_of_false false_ne_true (not_lt.mpr hin.1)
        · rw [hrem.same g hin, hexact g hg, ← lt_pages_iff]
          omega
      · intro h
        exact absurd (show (0 : Int) = -1 from h) (by decide)

/-! ## The call -/

/-- `growproc` is exact, unless the process is to shrink to nothing or by more than there is, or the
page table for the last page cannot be had. -/
theorem growproc_grows_iff (hsz : p.sz.toNat < KERNBASE) (hexact : p.Exact)
    (hb : Backed s p.pgdir) :
    (∃ r s' es, growproc im p n s = .ok r s' es ∧ Grows p n.toInt r) ↔
      (n.toInt < 0 → p.sz = 0 ∨ 0 < p.sz.toNat + n.toInt) ∧
      (0 < n.toInt → p.sz.toNat + n.toInt < KERNBASE →
        ¬ LastShort s p.pgdir (pages p.sz) (pages (p.sz + n))) := by
  have hends : Ends (growproc im p n) s (fun r _ _ => Grows p n.toInt r ↔
      (n.toInt < 0 → p.sz = 0 ∨ 0 < p.sz.toNat + n.toInt) ∧
      (0 < n.toInt → p.sz.toNat + n.toInt < KERNBASE →
        ¬ LastShort s p.pgdir (pages p.sz) (pages (p.sz + n)))) fun _ => False := by
    obtain hneg | hzero | hpos := lt_trichotomy n.toInt 0
    · refine (growproc_less hsz hexact hb hneg).mono fun r _ _ hr => hr.trans ?_
      exact ⟨fun h => ⟨fun _ => h, fun hpos => absurd hneg (by omega)⟩, fun h => h.1 hneg⟩
    · unfold growproc
      rw [if_neg (by omega), if_neg (by omega)]
      refine ends_pure (iff_of_true ?_ ⟨fun h => absurd hzero h.ne, fun h => absurd hzero h.ne'⟩)
      refine ⟨.inl rfl, fun _ => ⟨by rw [hzero, add_zero], hsz, hexact⟩, fun h => ?_⟩
      exact absurd (show (0 : Int) = -1 from h) (by decide)
    · refine (growproc_more hsz hexact hb hpos).mono fun r _ _ hr => hr.trans ?_
      exact ⟨fun h => ⟨fun hneg => absurd hpos (by omega), fun _ => h⟩, fun h => h.2 hpos⟩
  constructor
  · rintro ⟨r, s', es, hrun, hgrows⟩
    exact (hends.of_ok hrun).mp hgrows
  · intro hcond
    cases hrun : growproc im p n s with
    | ok r s' es => exact ⟨r, s', es, rfl, (hends.of_ok hrun).mpr hcond⟩
    | halt why es => exact (hends.of_halt hrun).elim

end

/-- A process of one page. -/
def onePageSpace : Space where
  pgdir := ((emptyDir 0x300).addTable 0 0x301).setPte (pageAddr 0) (userPte 0x202)
  sz := 0x1000

theorem entry_onePageSpace :
    onePageSpace.pgdir.entry = Function.update (emptyDir 0x300).entry 0 (userPte 0x202) := by
  have htable : ((emptyDir 0x300).addTable 0 0x301).pde (PDX (pageAddr 0)) =
      some { page := 0x301, pte := fun _ => 0 } := rfl
  rw [onePageSpace, Pgdir.entry_setPte htable, Pgdir.entry_addTable rfl]
  rfl

theorem present_onePageSpace {g : Nat} : present (onePageSpace.pgdir.entry g) = true ↔ g = 0 := by
  rw [entry_onePageSpace]
  by_cases hg : g = 0
  · rw [hg, Function.update_self]
    exact iff_of_true (present_userPte _) rfl
  · rw [Function.update_of_ne hg, entry_emptyDir]
    exact iff_of_false false_ne_true hg

/-- Shrinking it by two pages is reported as a success, and shrinking it to nothing as a failure. -/
theorem growproc_inexact :
    (∃ s', growproc sampleLayout onePageSpace (-0x2000) twoPages = .ok (onePageSpace, 0) s' []) ∧
    ∃ d s', growproc sampleLayout onePageSpace (-0x1000) twoPages =
      .ok ({ onePageSpace with pgdir := d }, -1) s' [] ∧
      present (onePageSpace.pgdir.entry 0) = true ∧ present (d.entry 0) = false :=
  ⟨⟨_, rfl⟩, _, _, rfl, rfl, rfl⟩

/-- It can grow by a page. -/
theorem growproc_grows_onePageSpace : ∃ r s' es,
    growproc sampleLayout onePageSpace 0x1000 twoPages = .ok r s' es ∧
      Grows onePageSpace 0x1000 r := by
  have hexact : onePageSpace.Exact := by
    intro g _
    rw [present_onePageSpace, show onePageSpace.sz.toNat = 0x1000 from rfl]
    simp only [PGSIZE]
    omega
  have hb : Backed twoPages onePageSpace.pgdir := by
    refine ⟨by decide, ?_, ?_⟩
    · intro g _ hp
      obtain rfl := present_onePageSpace.mp hp
      decide
    · intro g _ hp
      obtain rfl := present_onePageSpace.mp hp
      decide
  refine (growproc_grows_iff (n := 0x1000) (by decide) hexact hb).mpr ⟨fun h => absurd h (by decide), ?_⟩
  rintro - - ⟨-, htable, -⟩
  exact absurd htable (by decide)

end Xv6.Vm
