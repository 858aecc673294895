import Mathlib.Logic.Relation
import Xv6.User.Malloc

/-!
# What the heap promises

For a single call of `malloc`, when the block that it returns is large enough. For every sequence of
calls of `malloc` and `free`, that the free blocks and the allocated ones partition the memory that
`sbrk` has given.
-/

namespace Xv6.Malloc

open Lib Option List

/-! ## Large requests -/

/-- What `malloc(nbytes)` promises: every call of `sbrk` asks for the bytes that are needed, and the
block that is returned has room for the request in memory that was free or that `sbrk` has given. -/
def Grants (nbytes : Nat) (fs : List Block) (answer : Option (Option Nat)) (r : Option Nat) (h : Heap)
    (calls : List Nat) : Prop :=
  (∀ nu ∈ calls, 0 ≤ sbrkArg nu ∧ (8 * nu : Int) ≤ sbrkArg nu) ∧
  ∀ ap, r = some ap → nbytes + 8 ≤ 8 * h.size (ap - 8) ∧
    ∀ x, ap - 8 ≤ x → x < ap - 8 + 8 * h.size (ap - 8) →
      0 < cover fs x ∨ ∃ a nu, answer = some (some a) ∧ nu ∈ calls ∧ a ≤ x ∧ (x : Int) < a + sbrkArg nu

section

variable {base n x nbytes : Nat} {h : Heap} {fs : List Block}

theorem exists_fresh (base : Nat) (fs : List Block) : ∃ a, base < a ∧ ∀ c ∈ fs, c.stop ≤ a := by
  induction fs with
  | nil => exact ⟨base + 1, by omega, by simp⟩
  | cons b fs ih =>
    obtain ⟨a, ha, hfs⟩ := ih
    refine ⟨max a b.stop, by omega, forall_mem_cons.mpr ⟨by omega, fun c hc => ?_⟩⟩
    have := hfs c hc
    omega

theorem Outcome.grants {answer : Option (Option Nat)} {r : Option Nat} {h' : Heap} {calls : List Nat}
    (hout : Outcome base h fs (units nbytes) answer r h' calls) (hfit : nbytes + 8 ≤ 8 * units nbytes)
    (hsize : (∃ c ∈ fs, units nbytes ≤ c.2) ∨ 8 * units nbytes < 2 ^ 31) :
    Grants nbytes fs answer r h' calls := by
  have hcalls : (∀ c ∈ fs, c.2 < units nbytes) →
      sbrkArg (coreUnits (units nbytes)) = 8 * coreUnits (units nbytes) := by
    intro hsmall
    apply sbrkArg_eq
    rcases hsize with ⟨c, hc, hle⟩ | hlt
    · have := hsmall c hc
      omega
    · unfold coreUnits
      split <;> omega
  cases hout with
  | fits hbig htaken =>
    refine ⟨by simp, fun ap hap => ?_⟩
    cases hap
    rw [Nat.add_sub_cancel, htaken.size]
    refine ⟨hfit, fun x hlo hhi => .inl ?_⟩
    rw [htaken.cover, has_of_mem (by simp only [Block.stop]; omega)]
    omega
  | fails hsmall hanswer =>
    refine ⟨?_, by simp⟩
    simp only [mem_singleton, forall_eq, hcalls hsmall]
    omega
  | @grows a q h' fs' h₁ fs₁ hsmall hcover hframe _ htaken =>
    refine ⟨?_, fun ap hap => ?_⟩
    · simp only [mem_singleton, forall_eq, hcalls hsmall]
      omega
    · cases hap
      rw [Nat.add_sub_cancel, htaken.size]
      refine ⟨hfit, fun x hlo hhi => ?_⟩
      have hx := htaken.cover x
      rw [hcover, has_of_mem (b := (q, units nbytes)) (by simp only [Block.stop]; omega),
        Block.has] at hx
      split at hx
      · rename_i hin
        refine .inr ⟨a, _, rfl, mem_singleton.mpr rfl, hin.1, ?_⟩
        rw [hcalls hsmall]
        simp only [Block.stop] at hin
        omega
      · exact .inl (by omega)

end

/-- `malloc` keeps its promise for every answer of `sbrk` just if the rounding of the request does not
wrap and the bytes asked for are a positive `int`, or a free block is large enough. -/
theorem malloc_grants_iff (base nbytes : Nat) (h : Heap) (fs : List Block) (hbytes : nbytes < 2 ^ 32)
    (hs : Sound base h fs) :
    (∀ answers : List (Option Nat),
      (∀ a, answers.head? = some (some a) → base < a ∧ ∀ c ∈ fs, c.stop ≤ a) →
      ∃ least, ∀ turns ≥ least, ∃ r h' calls,
        malloc base turns nbytes answers h = some (r, h', calls) ∧
          Grants nbytes fs answers.head? r h' calls) ↔
    nbytes + 7 < 2 ^ 32 ∧ (8 * units nbytes < 2 ^ 31 ∨ ∃ c ∈ fs, units nbytes ≤ c.2) := by
  constructor
  · intro hall
    constructor
    · -- The request wraps to one unit, and a block of one unit is what is returned.
      by_contra hwrap
      have hunits : units nbytes = 1 := by
        unfold units
        omega
      obtain ⟨a, ha, hfs⟩ := exists_fresh base fs
      have hfresh : ∀ b, [some a].head? = some (some b) → base < b ∧ ∀ c ∈ fs, c.stop ≤ b := by
        intro b hb
        obtain rfl := some.inj (some.inj hb)
        exact ⟨ha, hfs⟩
      obtain ⟨least, hrun⟩ := hall [some a] hfresh
      obtain ⟨r, h', calls, hmalloc, hgrants⟩ := hrun (max least (fs.length + 2)) (by omega)
      obtain ⟨r₁, h₁, calls₁, hmalloc₁, hout⟩ := hs.malloc_ends nbytes [some a] hfresh
        (show _ ≤ max least (fs.length + 2) by omega)
      rw [hmalloc, some.injEq, Prod.mk.injEq, Prod.mk.injEq] at hmalloc₁
      obtain ⟨rfl, rfl, rfl⟩ := hmalloc₁
      rw [hunits] at hout
      have hfit : ∀ q, r = some (q + 8) → h'.size q = 1 → False := by
        intro q hq hsize
        have := (hgrants.2 _ hq).1
        rw [Nat.add_sub_cancel, hsize] at this
        omega
      cases hout with
      | fits _ htaken | grows _ _ _ _ htaken => exact hfit _ rfl htaken.size
      | fails _ hanswer => exact hanswer a rfl
    · by_contra hcond
      rw [not_or, not_exists] at hcond
      obtain ⟨least, hrun⟩ := hall [] (by simp)
      obtain ⟨r, h', calls, hmalloc, hgrants⟩ := hrun (max least (fs.length + 2)) (by omega)
      obtain ⟨r₁, h₁, calls₁, hmalloc₁, hout⟩ := hs.malloc_ends nbytes [] (by simp)
        (show _ ≤ max least (fs.length + 2) by omega)
      rw [hmalloc, some.injEq, Prod.mk.injEq, Prod.mk.injEq] at hmalloc₁
      obtain ⟨rfl, rfl, rfl⟩ := hmalloc₁
      cases hout with
      | fits hbig _ =>
        obtain ⟨c, hc⟩ := hbig
        exact hcond.2 c hc
      | fails _ _ =>
        have hcall := (hgrants.1 _ (mem_singleton.mpr rfl)).2
        have := sbrkArg_lt (coreUnits (units nbytes))
        have := (coreUnits_le (units nbytes)).1
        omega
  · rintro ⟨hwrap, hsize⟩ answers hfresh
    refine ⟨fs.length + 2, fun turns hturns => ?_⟩
    obtain ⟨r, h', calls, hmalloc, hout⟩ := hs.malloc_ends nbytes answers hfresh hturns
    refine ⟨r, h', calls, hmalloc, hout.grants ?_ hsize.symm⟩
    unfold units
    omega

/-- The heap of a program that has not called `malloc`. -/
def fresh : Heap := ⟨fun _ => 0, fun _ => 0, none⟩

theorem malloc_grants_ten : ∃ least, ∀ turns ≥ least, ∃ r h' calls,
    malloc 4096 turns 10 [some 8192] fresh = some (r, h', calls) ∧
      Grants 10 [] (some (some 8192)) r h' calls := by
  have hall := (malloc_grants_iff 4096 10 fresh [] (by decide) (.inl ⟨rfl, rfl⟩)).mpr (by decide)
  exact hall [some 8192] (by simp)

/-- The largest request gets a block without a usable byte. -/
theorem malloc_wraps : ∃ h', malloc 4096 3 (2 ^ 32 - 1) [some 8192] fresh =
    some (some 40960, h', [4096]) ∧ h'.size 40952 = 1 := by
  have h : (malloc 4096 3 (2 ^ 32 - 1) [some 8192] fresh).map
      (fun x => (x.1, x.2.2, x.2.1.size 40952)) = some (some 40960, [4096], 1) := by decide
  obtain ⟨⟨r, h', calls⟩, hrun, hend⟩ := map_eq_some_iff.mp h
  simp only [Prod.mk.injEq] at hend
  obtain ⟨rfl, rfl, hsize⟩ := hend
  exact ⟨h', hrun, hsize⟩

/-! ## Sequences of calls -/

/-- The heap, the blocks that `malloc` has returned and that have not been freed, and the memory that
`sbrk` has given. -/
structure State where
  heap : Heap
  live : List Block
  core : List Block

/-- The state when `malloc` returns `r` after it has asked for `calls`. -/
def State.malloced (s : State) (answer r : Option Nat) (heap : Heap) (calls : List Nat) : State where
  heap := heap
  live := (r.toList.map fun ap => (ap - 8, heap.size (ap - 8))) ++ s.live
  core := (answer.toList.flatMap fun a => calls.map fun nu => (a, nu)) ++ s.core

/-- One call. A request is small enough for `sbrk`, which answers with memory above all that it has
given before; what is freed is live. -/
inductive Step (base : Nat) (s : State) : State → Prop
  | malloc {nbytes turns : Nat} {answer r : Option Nat} {heap : Heap} {calls : List Nat}
      (hsmall : 8 * ((nbytes + 7) / 8 + 1) < 2 ^ 31)
      (hfresh : ∀ a, answer = some a → base < a ∧ ∀ c ∈ s.core, c.stop ≤ a)
      (hrun : malloc base turns nbytes [answer] s.heap = some (r, heap, calls)) :
      Step base s (s.malloced answer r heap calls)
  | free {b : Block} {turns : Nat} {heap : Heap} (hb : b ∈ s.live)
      (hrun : free turns s.heap (b.1 + 8) = some heap) : Step base s ⟨heap, s.live.erase b, s.core⟩

/-- The free list goes round through `base` in increasing order with gaps between its blocks, and
these and the live blocks partition the memory from `sbrk`. -/
structure Partition (base : Nat) (s : State) (fs : List Block) : Prop where
  sound : Sound base s.heap fs
  parts : ∀ x, cover fs x + cover s.live x = cover s.core x
  once : ∀ x, cover s.core x ≤ 1
  live : ∀ b ∈ s.live, s.heap.size b.1 = b.2 ∧ 0 < b.2 ∧ base < b.1
  started : s.heap.freep = none → s.live = []

section

variable {base nbytes turns more : Nat} {s : State} {fs : List Block} {h h' : Heap} {b : Block}
  {answers : List (Option Nat)} {answer : Option Nat} {out : Option Nat × Heap × List Nat}

theorem free_mono {ap : Nat} (hrun : free turns h ap = some h') (hmore : turns ≤ more) :
    free more h ap = some h' := by
  unfold free at *
  obtain ⟨p, hp, hrun⟩ := bind_eq_some_iff.mp hrun
  obtain ⟨x, hscan, hx⟩ := bind_eq_some_iff.mp hrun
  exact bind_eq_some_iff.mpr ⟨p, hp, bind_eq_some_iff.mpr ⟨x, scan_mono hscan hmore, hx⟩⟩

theorem search_mono {n p : Nat} (hrun : search turns n answers h p = some out) (hmore : turns ≤ more) :
    search more n answers h p = some out := by
  induction answers generalizing h p out with
  | nil =>
    unfold search at hrun ⊢
    obtain ⟨x, hscan, hx⟩ := bind_eq_some_iff.mp hrun
    exact bind_eq_some_iff.mpr ⟨x, scan_mono hscan hmore, hx⟩
  | cons answer answers ih =>
    unfold search at hrun ⊢
    obtain ⟨x, hscan, hx⟩ := bind_eq_some_iff.mp hrun
    refine bind_eq_some_iff.mpr ⟨x, scan_mono hscan hmore, ?_⟩
    dsimp only at hx ⊢
    split at hx
    · rw [if_pos ‹_›]
      exact hx
    · rw [if_neg ‹_›]
      cases answer with
      | none => exact hx
      | some a =>
        obtain ⟨h₁, hfree, hx⟩ := bind_eq_some_iff.mp hx
        obtain ⟨p, hp, hx⟩ := bind_eq_some_iff.mp hx
        obtain ⟨y, hsearch, hy⟩ := bind_eq_some_iff.mp hx
        refine bind_eq_some_iff.mpr ⟨h₁, free_mono hfree hmore, ?_⟩
        exact bind_eq_some_iff.mpr ⟨p, hp, bind_eq_some_iff.mpr ⟨y, ih hsearch, hy⟩⟩

theorem malloc_mono (hrun : malloc base turns nbytes answers h = some out) (hmore : turns ≤ more) :
    malloc base more nbytes answers h = some out := by
  unfold malloc at *
  obtain ⟨p, hp, hrun⟩ := bind_eq_some_iff.mp hrun
  exact bind_eq_some_iff.mpr ⟨p, hp, search_mono hrun hmore⟩

theorem cover_erase (hb : b ∈ s.live) (x : Nat) :
    cover (s.live.erase b) x + b.has x = cover s.live x := by
  have := (perm_cons_erase hb).map fun b : Block => b.has x
  rw [cover, cover, this.sum_nat, map_cons, sum_cons, Nat.add_comm]

theorem exists_of_cover {bs : List Block} {x : Nat} (h : 0 < cover bs x) :
    ∃ b ∈ bs, b.1 ≤ x ∧ x < b.stop := by
  by_contra hnone
  rw [cover_eq_zero] at h
  · omega
  · intro b hb
    by_contra hin
    exact hnone ⟨b, hb, by omega⟩

theorem Partition.fresh (hp : Partition base s fs)
    (hfresh : ∀ a, answer = some a → base < a ∧ ∀ c ∈ s.core, c.stop ≤ a) :
    ∀ a, [answer].head? = some (some a) → base < a ∧ ∀ c ∈ fs, c.stop ≤ a := by
  intro a ha
  obtain ⟨hbase, hcore⟩ := hfresh a (some.inj ha)
  refine ⟨hbase, fun c hc => ?_⟩
  have hpos : 0 < c.2 := by
    rcases hp.sound with ⟨-, rfl⟩ | hl
    · cases hc
    · exact hl.pos c hc
  -- The last byte of the block was given by `sbrk`.
  have hlast : 0 < cover s.core (c.stop - 1) := by
    have := has_le_cover (x := c.stop - 1) hc
    rw [has_of_mem (by simp only [Block.stop]; omega)] at this
    have := hp.parts (c.stop - 1)
    omega
  obtain ⟨d, hd, hin⟩ := exists_of_cover hlast
  have := hcore d hd
  omega

theorem Partition.free_live (hp : Partition base s fs) (hb : b ∈ s.live) (x : Nat) :
    cover fs x + b.has x ≤ 1 := by
  have h1 := has_le_cover (x := x) hb
  have h2 := hp.parts x
  have h3 := hp.once x
  omega

/-- A live block begins at no block that it does not overlap. -/
theorem ne_of_disjoint {c : Block} (hb : 0 < b.2) (hc : 0 < c.2) (h : ∀ x, c.has x + b.has x ≤ 1) :
    c.1 ≠ b.1 := by
  intro heq
  have hx := h b.1
  rw [has_of_mem (by simp only [Block.stop]; omega), has_of_mem (by simp only [Block.stop]; omega)] at hx
  omega

/-- A block is taken out of the free blocks of a heap where the live blocks are as before. -/
theorem Partition.taken {core live : List Block} {h₁ : Heap} {fs' : List Block} {n q : Nat}
    (hparts : ∀ x, cover fs x + cover live x = cover core x) (honce : ∀ x, cover core x ≤ 1)
    (hlive : ∀ b ∈ live, h₁.size b.1 = b.2 ∧ 0 < b.2 ∧ base < b.1) (hn : 0 < n)
    (hpos : ∀ c ∈ fs, 0 < c.2) (ht : Taken base h₁ fs n q h' fs') :
    Partition base ⟨h', (q, n) :: live, core⟩ fs' ∧ ∀ x, Block.has (q, n) x + cover live x ≤ 1 := by
  have hdisj : ∀ x, Block.has (q, n) x + cover live x ≤ 1 := by
    intro x
    have h1 := ht.cover x
    have h2 := hparts x
    have h3 := honce x
    omega
  refine ⟨⟨.inr ht.lists, fun x => ?_, honce, ?_, ?_⟩, hdisj⟩
  · have h1 := ht.cover x
    have h2 := hparts x
    show _ + cover ((q, n) :: live) x = cover core x
    rw [cover_cons]
    omega
  · refine forall_mem_cons.mpr ⟨⟨ht.size, hn, ht.above⟩, fun b hb => ?_⟩
    obtain ⟨hsize, hbpos, hbase⟩ := hlive b hb
    refine ⟨(ht.frame b.1 ?_ fun c hc => ?_).trans hsize, hbpos, hbase⟩
    · refine (ne_of_disjoint (c := (q, n)) hbpos hn fun x => ?_).symm
      have := has_le_cover (x := x) hb
      have := hdisj x
      omega
    · rcases mem_cons.mp hc with rfl | hc
      · exact Nat.ne_of_lt hbase
      · refine ne_of_disjoint hbpos (hpos c hc) fun x => ?_
        have h1 := has_le_cover (x := x) hb
        have h2 := has_le_cover (x := x) hc
        have h3 := hparts x
        have h4 := honce x
        omega
  · intro hnone
    obtain ⟨c, -, hfreep⟩ := ht.lists.freep
    rw [hnone] at hfreep
    cases hfreep

theorem ready_size {a : Nat} (ha : base < a) : (ready base h).size a = h.size a := by
  unfold ready
  split
  · rfl
  · exact Function.update_of_ne (Nat.ne_of_gt ha) ..

theorem Partition.malloc (hp : Partition base s fs) (hsmall : 8 * ((nbytes + 7) / 8 + 1) < 2 ^ 31)
    (hfresh : ∀ a, answer = some a → base < a ∧ ∀ c ∈ s.core, c.stop ≤ a)
    (hturns : fs.length + 2 ≤ turns) :
    ∃ r h' calls, malloc base turns nbytes [answer] s.heap = some (r, h', calls) ∧
      (∃ fs', Partition base (s.malloced answer r h' calls) fs') ∧
      ∀ ap, r = some ap → nbytes + 8 ≤ 8 * h'.size (ap - 8) ∧
        ∀ x, Block.has (ap - 8, h'.size (ap - 8)) x + cover s.live x ≤ 1 := by
  have hunits : units nbytes = (nbytes + 7) / 8 + 1 := by
    unfold units
    omega
  have hn : 0 < units nbytes := Nat.succ_pos _
  have hready := hp.sound.ready
  have hlive : ∀ b ∈ s.live, (ready base s.heap).size b.1 = b.2 ∧ 0 < b.2 ∧ base < b.1 := by
    intro b hb
    obtain ⟨hsize, hrest⟩ := hp.live b hb
    exact ⟨(ready_size hrest.2).trans hsize, hrest⟩
  obtain ⟨r, h', calls, hrun, hout⟩ :=
    hp.sound.malloc_ends nbytes [answer] (hp.fresh hfresh) hturns
  refine ⟨r, h', calls, hrun, ?_⟩
  rw [head?_cons] at hout
  have hfit : nbytes + 8 ≤ 8 * units nbytes := by omega
  generalize units nbytes = n at hout hn hfit
  generalize hanswer : some answer = given at hout
  cases hout with
  | @fits given q h' fs' _ ht =>
    obtain ⟨hpart, hdisj⟩ := Partition.taken hp.parts hp.once hlive hn hready.pos ht
    have hstate : s.malloced answer (some (q + 8)) h' [] = ⟨h', (q, n) :: s.live, s.core⟩ := by
      simp [State.malloced, ht.size]
    refine ⟨⟨fs', hstate ▸ hpart⟩, fun ap hap => ?_⟩
    cases hap
    rw [Nat.add_sub_cancel, ht.size]
    exact ⟨hfit, hdisj⟩
  | fails _ hnone =>
    have hstate : s.malloced answer none (ready base s.heap) [coreUnits n] =
        ⟨ready base s.heap, s.live, s.core⟩ := by
      cases answer with
      | none => rfl
      | some a => exact absurd hanswer.symm (hnone a)
    refine ⟨⟨fs, ?_⟩, by simp⟩
    rw [hstate]
    refine ⟨.inr hready, hp.parts, hp.once, hlive, fun hnone => ?_⟩
    obtain ⟨c, -, hfreep⟩ := hready.freep
    rw [hnone] at hfreep
    cases hfreep
  | @grows a q h' fs' h₁ fs₁ _ hcover hframe hl₁ ht =>
    cases hanswer
    obtain ⟨ha, hcore⟩ := hfresh a rfl
    have hstate : s.malloced (some a) (some (q + 8)) h' [coreUnits n] =
        ⟨h', (q, n) :: s.live, (a, coreUnits n) :: s.core⟩ := by
      simp [State.malloced, ht.size]
    have honce : ∀ x, cover ((a, coreUnits n) :: s.core) x ≤ 1 := by
      intro x
      rw [cover_cons, Block.has]
      split
      · rename_i hx
        rw [cover_eq_zero fun c hc => .inr ((hcore c hc).trans hx.1)]
      · rw [Nat.zero_add]
        exact hp.once x
    have hparts : ∀ x, cover fs₁ x + cover s.live x = cover ((a, coreUnits n) :: s.core) x := by
      intro x
      have h1 := hcover x
      have h2 := hp.parts x
      rw [cover_cons]
      omega
    have hlive₁ : ∀ b ∈ s.live, h₁.size b.1 = b.2 ∧ 0 < b.2 ∧ base < b.1 := by
      intro b hb
      obtain ⟨hsize, hpos, hbase⟩ := hlive b hb
      refine ⟨(hframe b.1 ?_ fun c hc => ?_).trans hsize, hpos, hbase⟩
      · -- The block lies in memory that was given before.
        have hfirst : 0 < cover s.core b.1 := by
          have h1 := has_le_cover (x := b.1) hb
          rw [has_of_mem (by simp only [Block.stop]; omega)] at h1
          have h2 := hp.parts b.1
          omega
        obtain ⟨c, hc, hin⟩ := exists_of_cover hfirst
        have := hcore c hc
        omega
      · rcases mem_cons.mp hc with rfl | hc
        · exact Nat.ne_of_lt hbase
        · refine ne_of_disjoint hpos (hready.pos c hc) fun x => ?_
          have h1 := has_le_cover (x := x) hc
          have h2 := hp.free_live hb x
          omega
    obtain ⟨hpart, hdisj⟩ := Partition.taken hparts honce hlive₁ hn hl₁.pos ht
    refine ⟨⟨fs', hstate ▸ hpart⟩, fun ap hap => ?_⟩
    cases hap
    rw [Nat.add_sub_cancel, ht.size]
    exact ⟨hfit, hdisj⟩

theorem Partition.free (hp : Partition base s fs) (hb : b ∈ s.live) (hturns : fs.length + 2 ≤ turns) :
    ∃ h' fs', free turns s.heap (b.1 + 8) = some h' ∧
      Partition base ⟨h', s.live.erase b, s.core⟩ fs' := by
  obtain ⟨hsize, hpos, hbase⟩ := hp.live b hb
  rcases hp.sound with ⟨hnone, -⟩ | hl
  · rw [hp.started hnone] at hb
    cases hb
  · obtain ⟨h', fs', hrun, hl', hcover, -, -, hframe⟩ :=
      hl.free hbase hsize hpos (hp.free_live hb) hturns
    refine ⟨h', fs', hrun, .inr hl', fun x => ?_, hp.once, fun d hd => ?_, fun hnone => ?_⟩
    · have h1 := cover_erase hb x
      have h2 := hcover x
      have h3 := hp.parts x
      show _ + cover (s.live.erase b) x = cover s.core x
      change cover fs' x = cover fs x + b.has x at h2
      omega
    · change d ∈ s.live.erase b at hd
      obtain ⟨hdsize, hdpos, hdbase⟩ := hp.live d (mem_of_mem_erase hd)
      refine ⟨(hframe d.1 ?_ fun c hc => ?_).trans hdsize, hdpos, hdbase⟩
      · refine (ne_of_disjoint hdpos hpos fun x => ?_).symm
        have h1 := has_le_cover (x := x) hd
        have h2 := cover_erase hb x
        have h3 := hp.parts x
        have h4 := hp.once x
        omega
      · rcases mem_cons.mp hc with rfl | hc
        · exact Nat.ne_of_lt hdbase
        · refine ne_of_disjoint hdpos (hl.pos c hc) fun x => ?_
          have h1 := has_le_cover (x := x) hc
          have h2 := hp.free_live (mem_of_mem_erase hd) x
          omega
    · obtain ⟨c, -, hfreep⟩ := hl'.freep
      rw [show h'.freep = none from hnone] at hfreep
      cases hfreep

theorem Partition.step {t : State} (hp : Partition base s fs) (hstep : Step base s t) :
    ∃ fs', Partition base t fs' := by
  cases hstep with
  | @malloc nbytes turns answer r heap calls hsmall hfresh hrun =>
    obtain ⟨r', heap', calls', hrun', hpart, -⟩ :=
      hp.malloc hsmall hfresh (Nat.le_max_right turns (fs.length + 2))
    rw [malloc_mono hrun (Nat.le_max_left ..), some.injEq, Prod.mk.injEq, Prod.mk.injEq] at hrun'
    obtain ⟨rfl, rfl, rfl⟩ := hrun'
    exact hpart
  | @free b turns heap hb hrun =>
    obtain ⟨heap', fs', hrun', hpart⟩ := hp.free hb (Nat.le_max_right turns (fs.length + 2))
    rw [free_mono hrun (Nat.le_max_left ..), some.injEq] at hrun'
    exact ⟨fs', hrun' ▸ hpart⟩

end

/-- In every state the free list and the live blocks partition the memory from `sbrk`, every small
request is answered with a block that is large enough and overlaps no live block or with a null
pointer, and every live block can be freed. -/
theorem heap_partitions (base : Nat) (h : Heap) (s : State) (hfreep : h.freep = none)
    (hrun : Relation.ReflTransGen (Step base) ⟨h, [], []⟩ s) :
    ∃ fs, Partition base s fs ∧
      (∀ nbytes answer, 8 * ((nbytes + 7) / 8 + 1) < 2 ^ 31 →
        (∀ a, answer = some a → base < a ∧ ∀ c ∈ s.core, c.stop ≤ a) →
        ∃ turns r h' calls, malloc base turns nbytes [answer] s.heap = some (r, h', calls) ∧
          ∀ ap, r = some ap → nbytes + 8 ≤ 8 * h'.size (ap - 8) ∧
            ∀ x, Block.has (ap - 8, h'.size (ap - 8)) x + cover s.live x ≤ 1) ∧
      ∀ b ∈ s.live, ∃ turns h', free turns s.heap (b.1 + 8) = some h' := by
  have hinv : ∃ fs, Partition base s fs := by
    induction hrun with
    | refl => exact ⟨[], .inl ⟨hfreep, rfl⟩, fun _ => rfl, fun _ => by simp, by simp, fun _ => rfl⟩
    | tail _ hstep ih =>
      obtain ⟨fs, hp⟩ := ih
      exact hp.step hstep
  obtain ⟨fs, hp⟩ := hinv
  refine ⟨fs, hp, fun nbytes answer hsmall hfresh => ?_, fun b hb => ?_⟩
  · obtain ⟨r, h', calls, hmalloc, -, hblock⟩ := hp.malloc hsmall hfresh le_rfl
    exact ⟨_, r, h', calls, hmalloc, hblock⟩
  · obtain ⟨h', -, hfree, -⟩ := hp.free hb le_rfl
    exact ⟨_, h', hfree⟩

/-- Two blocks are allocated, and the first one is freed. -/
theorem heap_partitions_freed : ∃ s fs, Relation.ReflTransGen (Step 4096) ⟨fresh, [], []⟩ s ∧
    s.live.length = 1 ∧ s.core = [(8192, 4096)] ∧ Partition 4096 s fs := by
  have h : (do
      let x ← malloc 4096 3 10 [some 8192] fresh
      let y ← malloc 4096 3 20 [none] x.2.1
      let _ ← free 3 y.2.1 40944
      return (x.1, x.2.2, y.1, y.2.2)) = some (some 40944, [4096], some 40912, []) := by decide
  obtain ⟨⟨r₁, heap₁, calls₁⟩, hrun₁, h⟩ := bind_eq_some_iff.mp h
  obtain ⟨⟨r₂, heap₂, calls₂⟩, hrun₂, h⟩ := bind_eq_some_iff.mp h
  obtain ⟨heap₃, hrun₃, h⟩ := bind_eq_some_iff.mp h
  cases h
  have hfirst : Step 4096 ⟨fresh, [], []⟩ _ := .malloc (by decide) (by simp) hrun₁
  have hsecond : Step 4096 ⟨heap₁, [(40936, heap₁.size 40936)], [(8192, 4096)]⟩ _ :=
    .malloc (by decide) (by simp) hrun₂
  have hmem : (40936, heap₁.size 40936) ∈ [(40904, heap₂.size 40904), (40936, heap₁.size 40936)] :=
    mem_cons_of_mem _ mem_cons_self
  have hthird : Step 4096 ⟨heap₂, _, [(8192, 4096)]⟩ _ := .free hmem hrun₃
  have hsteps := ((Relation.ReflTransGen.single hfirst).tail hsecond).tail hthird
  obtain ⟨fs, hp, -⟩ := heap_partitions 4096 fresh _ rfl hsteps
  exact ⟨_, fs, hsteps, length_erase_of_mem hmem, rfl, hp⟩

end Xv6.Malloc
