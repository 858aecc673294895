import Mathlib.Algebra.Ring.Int.Defs
import Mathlib.Algebra.Ring.Nat
import Mathlib.Tactic.Tauto
import Xv6.Lib.Cycle
import Xv6.Lib.Trans

/-!
# The heap of a user program

`free`, `morecore` and `malloc` (`umalloc.c:24-90`). A header is at an address of memory; the block
that it begins has as many units of eight bytes as the header says. What `sbrk` answers is an input.
`Lists` says that the free list goes round through `base` and the free blocks in increasing order,
with a gap behind each of them. How often a byte lies in a list of blocks is counted by `cover`:
freeing, splitting and merging blocks move bytes between lists and never change the sum.
-/

namespace Xv6.Malloc

open Function Option List

open Lib

/-- The headers in memory, and `freep`; `none` is the null pointer. -/
structure Heap where
  ptr : Nat → Nat
  size : Nat → Nat
  freep : Option Nat

/-- The test that ends the loop of `free` (`umalloc.c:30-32`). -/
def gapAt (h : Heap) (bp p : Nat) : Bool :=
  decide ((p < bp ∧ bp < h.ptr p) ∨ (h.ptr p ≤ p ∧ (p < bp ∨ bp < h.ptr p)))

/-- Merge `bp` with the block `n` behind it, or link it to `n` (`umalloc.c:33-37`). -/
def mergeNext (h : Heap) (bp n : Nat) : Heap :=
  if bp + 8 * h.size bp = n then
    { h with
      size := update h.size bp (h.size bp + h.size n)
      ptr := update h.ptr bp (h.ptr n) }
  else { h with ptr := update h.ptr bp n }

/-- Merge the block `p` with `bp` behind it, or link it to `bp` (`umalloc.c:38-42`). -/
def mergePrev (h : Heap) (bp p : Nat) : Heap :=
  if p + 8 * h.size p = bp then
    { h with
      size := update h.size p (h.size p + h.size bp)
      ptr := update h.ptr p (h.ptr bp) }
  else { h with ptr := update h.ptr p bp }

/-- `free` behind its loop (`umalloc.c:33-43`). -/
def insert (h : Heap) (bp p : Nat) : Heap :=
  { mergePrev (mergeNext h bp (h.ptr p)) bp p with freep := some p }

/-- `free` (`umalloc.c:24-44`). -/
def free (turns : Nat) (h : Heap) (ap : Nat) : Option Heap := do
  let p ← h.freep
  let (_, p) ← scan h.ptr (gapAt h (ap - 8)) turns p p
  return insert h (ap - 8) p

/-- The units that `morecore` asks for (`umalloc.c:52-53`). -/
def coreUnits (nu : Nat) : Nat := if nu < 4096 then 4096 else nu

/-- The argument of `sbrk` for so many units (`umalloc.c:54`), an `int`. -/
def sbrkArg (nu : Nat) : Int := (BitVec.ofNat 32 (nu * 8)).toInt

/-- Cut `nunits` off the block `p`, which comes behind `prevp` (`umalloc.c:76-84`). -/
def take (h : Heap) (nunits prevp p : Nat) : Nat × Heap :=
  if h.size p = nunits then
    (p + 8, { h with ptr := update h.ptr prevp (h.ptr p), freep := some prevp })
  else
    let m := h.size p - nunits
    let q := p + 8 * m
    (q + 8, { h with
      size := update (update h.size p m) q nunits
      freep := some prevp })

/-- The loop of `malloc` (`umalloc.c:75-89`): up to a block that is large enough or to `freep`, and
then a block more from `sbrk`. Each call of `sbrk` takes one answer; the units asked for are
returned. -/
def search (turns nunits : Nat) (answers : List (Option Nat)) (h : Heap) (prevp : Nat) :
    Option (Option Nat × Heap × List Nat) := do
  let (prevp, p) ← scan h.ptr (fun p => decide (nunits ≤ h.size p ∨ h.freep = some p)) turns prevp
    (h.ptr prevp)
  if nunits ≤ h.size p then
    let (ap, h) := take h nunits prevp p
    return (some ap, h, [])
  else
    let nu := coreUnits nunits
    match answers with
    | some a :: answers =>
      let h ← free turns { h with size := update h.size a nu } (a + 8)
      let p ← h.freep
      let (r, h, calls) ← search turns nunits answers h p
      return (r, h, nu :: calls)
    | _ => return (none, h, [nu])
termination_by structural answers

/-- `(nbytes + sizeof(Header) - 1) / sizeof(Header) + 1`, of `uint`s. -/
def units (nbytes : Nat) : Nat := (nbytes + 7) % 2 ^ 32 / 8 + 1

/-- The first call makes `base` the only element of the free list (`umalloc.c:70-73`). -/
def ready (base : Nat) (h : Heap) : Heap :=
  match h.freep with
  | some _ => h
  | none =>
    ⟨update h.ptr base base, update h.size base 0, some base⟩

/-- `malloc` (`umalloc.c:63-90`). -/
def malloc (base turns nbytes : Nat) (answers : List (Option Nat)) (h : Heap) :
    Option (Option Nat × Heap × List Nat) := do
  let h := ready base h
  let prevp ← h.freep
  search turns (units nbytes) answers h prevp

/-! ## Blocks -/

/-- The address of a header and the units of its block. -/
abbrev Block := Nat × Nat

def Block.stop (b : Block) : Nat := b.1 + 8 * b.2

/-- `1` if the byte is in the block. -/
def Block.has (b : Block) (x : Nat) : Nat := if b.1 ≤ x ∧ x < b.stop then 1 else 0

/-- How many of the blocks the byte is in. -/
def cover (bs : List Block) (x : Nat) : Nat := (bs.map fun b => b.has x).sum

section

variable {b c : Block} {bs cs : List Block} {x a n m : Nat}

@[simp] theorem cover_nil : cover [] x = 0 := rfl

@[simp] theorem cover_cons : cover (b :: bs) x = b.has x + cover bs x := rfl

@[simp] theorem cover_append : cover (bs ++ cs) x = cover bs x + cover cs x := by
  simp [cover]

@[simp] theorem has_zero : Block.has (a, 0) x = 0 := by
  rw [Block.has, if_neg]
  simp only [Block.stop]
  omega

theorem has_of_mem (h : b.1 ≤ x ∧ x < b.stop) : b.has x = 1 := if_pos h

theorem has_add : Block.has (a, n + m) x = Block.has (a, n) x + Block.has (a + 8 * n, m) x := by
  simp only [Block.has, Block.stop]
  grind

theorem has_le_cover (h : b ∈ bs) : b.has x ≤ cover bs x := by
  obtain ⟨s, t, rfl⟩ := append_of_mem h
  simp only [cover_append, cover_cons]
  omega

theorem cover_eq_zero (h : ∀ b ∈ bs, x < b.1 ∨ b.stop ≤ x) : cover bs x = 0 := by
  induction bs with
  | nil => rfl
  | cons b bs ih =>
    obtain ⟨hb, hbs⟩ := forall_mem_cons.mp h
    rw [cover_cons, ih hbs, Block.has, if_neg (by omega)]

theorem cover_le_one (h : bs.Pairwise fun b c => b.stop < c.1) : cover bs x ≤ 1 := by
  induction bs with
  | nil => exact Nat.zero_le _
  | cons b bs ih =>
    obtain ⟨hb, hbs⟩ := pairwise_cons.mp h
    rw [cover_cons, Block.has]
    by_cases hx : b.1 ≤ x ∧ x < b.stop
    · rw [if_pos hx, cover_eq_zero fun c hc => .inl (hx.2.trans (hb c hc))]
    · rw [if_neg hx, Nat.zero_add]
      exact ih hbs

theorem stop_le_of_cover (hc : 0 < c.2) (hlt : b.1 < c.1)
    (h : ∀ x, b.has x + c.has x ≤ 1) : b.stop ≤ c.1 := by
  by_contra hover
  have hx := h c.1
  rw [has_of_mem (by omega), has_of_mem ⟨le_rfl, by simp only [Block.stop]; omega⟩] at hx
  omega

end

/-! ## The free list -/

/-- The elements of the free list, which begins at `base`. -/
def nodes (base : Nat) (fs : List Block) : List Block := (base, 0) :: fs

/-- The free list of the heap goes through `base` and the blocks `fs`. -/
structure Lists (base : Nat) (h : Heap) (fs : List Block) : Prop where
  loops : Loops h.ptr ((nodes base fs).map Prod.fst)
  sizes : ∀ b ∈ nodes base fs, h.size b.1 = b.2
  pos : ∀ b ∈ fs, 0 < b.2
  gaps : (nodes base fs).Pairwise fun b c => b.stop < c.1
  freep : ∃ b ∈ nodes base fs, h.freep = some b.1

section

variable {base bp n x turns : Nat} {h : Heap} {fs L R : List Block} {r c : Block}

theorem Lists.nodup (hl : Lists base h fs) : ((nodes base fs).map Prod.fst).Nodup := by
  rw [nodup_iff_pairwise_ne, pairwise_map]
  refine hl.gaps.imp fun hlt heq => ?_
  simp only [Block.stop] at hlt
  omega

theorem Lists.ptr_eq (hl : Lists base h fs) (hr : nodes base fs = L ++ r :: R) :
    h.ptr r.1 = (R.map Prod.fst).headD base := by
  have hnext := hl.loops
  rw [hr, map_append, map_cons] at hnext
  have := hnext.next
  cases R with
  | cons c R => exact (some.inj this).symm
  | nil =>
    have hbase : (L.map Prod.fst ++ [r.1]).head? = some base := by
      have := congrArg (fun bs => (bs.map Prod.fst).head?) hr
      simpa [nodes] using this.symm
    rw [map_nil, nil_append, hbase] at this
    exact (some.inj this).symm

/-- The loop of `free` ends at the last element below `bp`. -/
theorem Lists.gapAt_iff (hl : Lists base h fs) (hbp : base < bp) (hr : nodes base fs = L ++ r :: R) :
    gapAt h bp r.1 = true ↔ r.1 < bp ∧ ∀ c ∈ R.head?, bp < c.1 := by
  have hgaps := hl.gaps
  rw [hr, pairwise_append, pairwise_cons] at hgaps
  rw [gapAt, decide_eq_true_iff, hl.ptr_eq hr]
  cases R with
  | cons c R =>
    have hlt := hgaps.2.1.1 c (by simp)
    simp only [Block.stop] at hlt
    simp
    omega
  | nil =>
    have hle : base ≤ r.1 := by
      cases L with
      | nil =>
        injection hr with hr
        exact hr ▸ le_rfl
      | cons b L =>
        injection hr with hb
        have := hgaps.2.2 b (by simp) r (by simp)
        simp only [← hb, Block.stop] at this
        omega
    simp
    omega

/-- There is an element where the loop of `free` ends. -/
theorem exists_gap {bs : List Block} (hsorted : (r :: bs).Pairwise fun b c => b.stop < c.1)
    (hr : r.1 < bp) (hne : ∀ c ∈ bs, c.1 ≠ bp) :
    ∃ L s R, r :: bs = L ++ s :: R ∧ s.1 < bp ∧ ∀ c ∈ R.head?, bp < c.1 := by
  induction bs generalizing r with
  | nil => exact ⟨[], r, [], rfl, hr, by simp⟩
  | cons c bs ih =>
    by_cases hc : c.1 < bp
    · obtain ⟨L, s, R, heq, hs, hR⟩ :=
        ih (pairwise_cons.mp hsorted).2 hc fun d hd => hne d (mem_cons_of_mem _ hd)
      exact ⟨r :: L, s, R, by rw [heq]; rfl, hs, hR⟩
    · refine ⟨[], r, c :: bs, rfl, hr, ?_⟩
      have := hne c (by simp)
      simp
      omega

/-- `free` puts the block in behind the last element below it. -/
theorem Lists.free_eq (hl : Lists base h fs) (hbp : base < bp) (hne : ∀ c ∈ fs, c.1 ≠ bp)
    (hturns : fs.length + 2 ≤ turns) :
    ∃ L r R, nodes base fs = L ++ r :: R ∧ r.1 < bp ∧ (∀ c ∈ R.head?, bp < c.1) ∧
      free turns h (bp + 8) = some (insert h bp r.1) := by
  obtain ⟨b, hb, hfreep⟩ := hl.freep
  obtain ⟨turns, rfl⟩ := Nat.exists_eq_succ_of_ne_zero (n := turns) (by omega)
  have hfree : free (turns + 1) h (bp + 8) =
      (scan h.ptr (gapAt h bp) (turns + 1) b.1 b.1).map fun x => insert h bp x.2 := by
    rw [free, hfreep, Nat.add_sub_cancel]
    simp only [Option.bind_eq_bind, bind_some]
    cases scan h.ptr (gapAt h bp) (turns + 1) b.1 b.1 <;> rfl
  have hstop : ∃ q ∈ (nodes base fs).map Prod.fst, free (turns + 1) h (bp + 8) = some (insert h bp q) ∧
      gapAt h bp q = true := by
    rw [hfree, scan]
    by_cases hgap : gapAt h bp b.1 = true
    · exact ⟨b.1, mem_map_of_mem hb, by rw [if_pos hgap]; rfl, hgap⟩
    · obtain ⟨L, s, R, heq, hs⟩ := exists_gap hl.gaps hbp hne
      have hmem : s.1 ∈ (nodes base fs).map Prod.fst :=
        mem_map_of_mem (by rw [nodes, heq]; simp)
      have hlen : ((nodes base fs).map Prod.fst).length ≤ turns := by
        simp [nodes]
        omega
      obtain ⟨q, hq, hscan, htest, -⟩ := hl.loops.scan (gapAt h bp) hl.nodup
        (mem_map_of_mem hb)
        ⟨s.1, hmem, (hl.gapAt_iff hbp heq).mpr hs⟩ hlen
      refine ⟨h.ptr q, ?_, by rw [if_neg hgap, hscan]; rfl, htest⟩
      have hmap : h.ptr q ∈ ((nodes base fs).map Prod.fst).map h.ptr := mem_map_of_mem hq
      rw [hl.loops] at hmap
      exact mem_rotate.mp hmap
  obtain ⟨q, hq, hrun, hgap⟩ := hstop
  obtain ⟨r, hr, rfl⟩ := mem_map.mp hq
  obtain ⟨L, R, heq⟩ := append_of_mem hr
  obtain ⟨hlt, hR⟩ := (hl.gapAt_iff hbp heq).mp hgap
  exact ⟨L, r, R, heq, hlt, hR, hrun⟩

theorem cover_nodes (base : Nat) (fs : List Block) (x : Nat) : cover (nodes base fs) x = cover fs x := by
  rw [nodes, cover_cons, has_zero, Nat.zero_add]

theorem Lists.pos_nodes (hl : Lists base h fs) {b : Block} (hb : b ∈ nodes base fs)
    (hne : b.1 ≠ base) : 0 < b.2 := by
  rcases mem_cons.mp hb with rfl | hb
  · exact absurd rfl hne
  · exact hl.pos b hb

theorem lists_of_head {bs : List Block} {h' : Heap} (hhead : bs.head? = some (base, 0))
    (hpos : ∀ b ∈ bs, b.1 ≠ base → 0 < b.2) (hloops : Loops h'.ptr (bs.map Prod.fst))
    (hsizes : ∀ b ∈ bs, h'.size b.1 = b.2) (hgaps : bs.Pairwise fun b c => b.stop < c.1)
    (hfreep : ∃ b ∈ bs, h'.freep = some b.1) : ∃ fs', nodes base fs' = bs ∧ Lists base h' fs' := by
  obtain ⟨fs', rfl⟩ := head?_eq_some_iff.mp hhead
  refine ⟨fs', rfl, hloops, hsizes, fun b hb => ?_, hgaps, hfreep⟩
  have := (pairwise_cons.mp hgaps).1 b hb
  simp only [Block.stop] at this
  exact hpos b (mem_cons_of_mem _ hb) (by omega)

theorem Lists.head (hr : nodes base fs = L ++ r :: R) (T : List Block) :
    (L ++ r :: T).head? = some (base, 0) := by
  cases L with
  | nil | cons b L => rw [(List.cons.inj hr).1]; rfl

variable (h' : Heap) {T : List Block} {k : Nat}

theorem Lists.remove (hl : Lists base h fs) (hr : nodes base fs = L ++ r :: c :: T)
    (hptr : ∀ b ∈ L ++ r :: T, h'.ptr b.1 = update h.ptr r.1 (h.ptr c.1) b.1)
    (hsize : ∀ b ∈ L ++ r :: T, h'.size b.1 = h.size b.1)
    (hfreep : ∃ b ∈ L ++ r :: T, h'.freep = some b.1) :
    ∃ fs', nodes base fs' = L ++ r :: T ∧ Lists base h' fs' := by
  have hsub : (L ++ r :: T).Sublist (nodes base fs) := by
    rw [hr]
    exact ((sublist_cons_self c T).cons_cons r).append_left L
  have hloops := hl.loops
  have hnodup := hl.nodup
  rw [hr] at hloops hnodup
  simp only [map_append, map_cons] at hloops hnodup
  refine lists_of_head (Lists.head hr T) (fun b hb => hl.pos_nodes (hsub.subset hb)) ?_
    (fun b hb => (hsize b hb).trans (hl.sizes b (hsub.subset hb))) (hl.gaps.sublist hsub) hfreep
  have hunlink := hloops.unlink hnodup
  rw [← map_cons (f := Prod.fst), ← map_append] at hunlink
  refine hunlink.congr fun a ha => ?_
  obtain ⟨b, hb, rfl⟩ := mem_map.mp ha
  exact hptr b hb

theorem Lists.add (hl : Lists base h fs) (hr : nodes base fs = L ++ r :: T) (hk : 0 < k)
    (hleft : r.stop < bp) (hright : ∀ c ∈ T, bp + 8 * k < c.1)
    (hptr : ∀ b ∈ L ++ r :: (bp, k) :: T,
      h'.ptr b.1 = update (update h.ptr bp (h.ptr r.1)) r.1 bp b.1)
    (hsize : ∀ b ∈ L ++ r :: T, h'.size b.1 = h.size b.1) (hnew : h'.size bp = k)
    (hfreep : ∃ b ∈ L ++ r :: T, h'.freep = some b.1) :
    ∃ fs', nodes base fs' = L ++ r :: (bp, k) :: T ∧ Lists base h' fs' := by
  have hloops := hl.loops
  have hnodup := hl.nodup
  have hgaps := hl.gaps
  rw [hr] at hgaps
  obtain ⟨hL, hT, hLT⟩ := pairwise_append.mp hgaps
  have hrT := (pairwise_cons.mp hT).1
  have hlow : ∀ b ∈ L, b.stop < bp := by
    intro b hb
    have := hLT b hb r (by simp)
    simp only [Block.stop] at *
    omega
  have hmem : ∀ b ∈ L ++ r :: (bp, k) :: T, b = (bp, k) ∨ b ∈ L ++ r :: T := by
    intro b hb
    simp only [mem_append, mem_cons] at hb ⊢
    tauto
  have hfresh : bp ∉ (L ++ r :: T).map Prod.fst := by
    intro hbp
    obtain ⟨b, hb, rfl⟩ := mem_map.mp hbp
    simp only [mem_append, mem_cons] at hb
    simp only [Block.stop] at *
    rcases hb with hb | rfl | hb
    · have := hlow b hb
      omega
    · omega
    · have := hright b hb
      omega
  rw [hr] at hloops hnodup
  simp only [map_append, map_cons] at hloops hnodup hfresh
  refine lists_of_head (Lists.head hr _) ?_ ?_ ?_ ?_ ?_
  · intro b hb hne
    rcases hmem b hb with rfl | hb
    · exact hk
    · exact hl.pos_nodes (hr ▸ hb) hne
  · have hlink := hloops.link hnodup hfresh
    have hmap : (L ++ r :: (bp, k) :: T).map Prod.fst =
        L.map Prod.fst ++ r.1 :: bp :: T.map Prod.fst := by simp
    rw [← hmap] at hlink
    refine hlink.congr fun a ha => ?_
    obtain ⟨b, hb, rfl⟩ := mem_map.mp ha
    exact hptr b hb
  · intro b hb
    rcases hmem b hb with rfl | hb
    · exact hnew
    · exact (hsize b hb).trans (hl.sizes b (hr ▸ hb))
  · refine pairwise_append.mpr ⟨hL, pairwise_cons.mpr ⟨?_, pairwise_cons.mpr
      ⟨hright, (pairwise_cons.mp hT).2⟩⟩, fun b hb c hc => ?_⟩
    · exact forall_mem_cons.mpr ⟨hleft, hrT⟩
    · rcases mem_cons.mp hc with rfl | hc
      · exact hLT b hb c (by simp)
      · rcases mem_cons.mp hc with rfl | hc
        · exact hlow b hb
        · exact hLT b hb c (mem_cons_of_mem _ hc)
  · obtain ⟨b, hb, hfreep⟩ := hfreep
    refine ⟨b, ?_, hfreep⟩
    simp only [mem_append, mem_cons] at hb ⊢
    tauto

theorem Lists.resize (hl : Lists base h fs) (hr : nodes base fs = L ++ r :: T) (hk : 0 < k)
    (hne : r.1 ≠ base) (hright : ∀ c ∈ T, r.1 + 8 * k < c.1)
    (hptr : ∀ b ∈ L ++ r :: T, h'.ptr b.1 = h.ptr b.1)
    (hsize : ∀ b ∈ L ++ T, h'.size b.1 = h.size b.1) (hnew : h'.size r.1 = k)
    (hfreep : ∃ b ∈ L ++ r :: T, h'.freep = some b.1) :
    ∃ fs', nodes base fs' = L ++ (r.1, k) :: T ∧ Lists base h' fs' := by
  have hloops := hl.loops
  have hgaps := hl.gaps
  rw [hr] at hgaps hloops
  obtain ⟨hL, hT, hLT⟩ := pairwise_append.mp hgaps
  have hhead := Lists.head hr T
  have hmem : ∀ b ∈ L ++ (r.1, k) :: T, b = (r.1, k) ∨ b ∈ L ++ T := by
    intro b hb
    simp only [mem_append, mem_cons] at hb ⊢
    tauto
  have hin : ∀ b ∈ L ++ T, b ∈ nodes base fs := by
    intro b hb
    rw [hr]
    simp only [mem_append, mem_cons] at hb ⊢
    tauto
  refine lists_of_head ?_ ?_ ?_ ?_ ?_ ?_
  · cases L with
    | nil =>
      have : r = (base, 0) := some.inj hhead
      exact absurd (congrArg Prod.fst this) hne
    | cons b L => exact hhead
  · intro b hb hbase
    rcases hmem b hb with rfl | hb
    · exact hk
    · exact hl.pos_nodes (hin b hb) hbase
  · have hmap : (L ++ (r.1, k) :: T).map Prod.fst = (L ++ r :: T).map Prod.fst := by simp
    rw [hmap]
    refine hloops.congr fun a ha => ?_
    obtain ⟨b, hb, rfl⟩ := mem_map.mp ha
    exact hptr b hb
  · intro b hb
    rcases hmem b hb with rfl | hb
    · exact hnew
    · exact (hsize b hb).trans (hl.sizes b (hin b hb))
  · refine pairwise_append.mpr ⟨hL, pairwise_cons.mpr ⟨hright,
      (pairwise_cons.mp hT).2⟩, fun b hb c hc => ?_⟩
    rcases mem_cons.mp hc with rfl | hc
    · exact hLT b hb r (by simp)
    · exact hLT b hb c (mem_cons_of_mem _ hc)
  · obtain ⟨b, hb, hfreep⟩ := hfreep
    simp only [mem_append, mem_cons] at hb
    rcases hb with hb | rfl | hb
    · exact ⟨b, by simp [hb], hfreep⟩
    · exact ⟨(b.1, k), by simp, hfreep⟩
    · exact ⟨b, by simp [hb], hfreep⟩

/-- `mergeNext` takes the block behind `bp` out of the list if the two meet. What `bp` is linked to
is then what comes behind `r`. -/
theorem Lists.mergeNext (hl : Lists base h fs) (hr : nodes base fs = L ++ r :: R)
    (hbase : base < bp) (hsize : h.size bp = n) (hright : ∀ c ∈ R, bp + 8 * n ≤ c.1) :
    ∃ h₂ fs₂ T m, Lists base h₂ fs₂ ∧ nodes base fs₂ = L ++ r :: T ∧
      mergeNext h bp (h.ptr r.1) =
        { h with ptr := update h.ptr bp (h₂.ptr r.1), size := update h.size bp m } ∧
      (∀ a ≠ r.1, h₂.ptr a = h.ptr a) ∧ h₂.size = h.size ∧ fs₂.length ≤ fs.length ∧ n ≤ m ∧
      (∀ c ∈ T, bp + 8 * m < c.1) ∧
      ∀ x, cover fs₂ x + Block.has (bp, m) x = cover fs x + Block.has (bp, n) x := by
  have hgaps := hl.gaps
  rw [hr] at hgaps
  obtain ⟨-, hR, -⟩ := pairwise_append.mp hgaps
  rw [hl.ptr_eq hr, Malloc.mergeNext, hsize]
  by_cases hmeet : bp + 8 * n = (R.map Prod.fst).headD base
  · rw [if_pos hmeet]
    cases R with
    | nil =>
      simp at hmeet
      omega
    | cons c T =>
      simp only [map_cons, headD_cons] at hmeet ⊢
      have hcsize : h.size c.1 = c.2 := hl.sizes c (by rw [hr]; simp)
      obtain ⟨fs₂, hnodes, hl₂⟩ := hl.remove
        ⟨update h.ptr r.1 (h.ptr c.1), h.size, some r.1⟩ hr (fun _ _ => rfl)
        (fun _ _ => rfl) ⟨r, by simp, rfl⟩
      refine ⟨_, fs₂, T, n + c.2, hl₂, hnodes, ?_, fun a ha => update_of_ne ha .., rfl, ?_,
        Nat.le_add_right .., ?_, fun x => ?_⟩
      · simp only [hcsize, update_self]
      · have h1 := congrArg List.length hr
        have h2 := congrArg List.length hnodes
        simp only [nodes, length_append, length_cons] at h1 h2
        omega
      · intro d hd
        have := (pairwise_cons.mp (pairwise_cons.mp hR).2).1 d hd
        simp only [Block.stop] at this
        omega
      · rw [← cover_nodes base fs, ← cover_nodes base fs₂, hr, hnodes, has_add, hmeet]
        simp only [cover_append, cover_cons]
        show _ + (Block.has (bp, n) x + c.has x) = _
        omega
  · rw [if_neg hmeet]
    refine ⟨h, fs, R, n, hl, hr, ?_, fun _ _ => rfl, rfl, le_rfl, le_rfl, ?_, fun _ => rfl⟩
    · rw [hl.ptr_eq hr, ← hsize, update_eq_self]
    · intro d hd
      cases R with
      | nil => cases hd
      | cons c R =>
        have hfirst := hright c (by simp)
        simp only [map_cons, headD_cons] at hmeet
        rcases mem_cons.mp hd with rfl | hd
        · omega
        · have := (pairwise_cons.mp (pairwise_cons.mp hR).2).1 d hd
          simp only [Block.stop] at this
          omega

theorem Lists.insert (hl : Lists base h fs) (hr : nodes base fs = L ++ r :: R)
    (hbase : base < bp) (hsize : h.size bp = n) (hn : 0 < n) (hleft : r.stop ≤ bp) (hrbp : r.1 < bp)
    (hright : ∀ c ∈ R, bp + 8 * n ≤ c.1) :
    ∃ fs', Lists base (insert h bp r.1) fs' ∧
      (∀ x, cover fs' x = cover fs x + Block.has (bp, n) x) ∧ (∃ b ∈ fs', n ≤ b.2) ∧
      fs'.length ≤ fs.length + 1 ∧ ∀ a, a ≠ bp → a ≠ r.1 → (insert h bp r.1).size a = h.size a := by
  obtain ⟨h₂, fs₂, T, m, hl₂, hnodes, hmerge, hptr, hsizes, hlen, hnm, hgap, hcover⟩ :=
    hl.mergeNext hr hbase hsize hright
  have hrsize : h.size r.1 = r.2 := hl.sizes r (by rw [hr]; simp)
  have hgaps := hl₂.gaps
  rw [hnodes] at hgaps
  have hbp : ∀ b ∈ L ++ r :: T, b.1 ≠ bp := by
    intro b hb
    simp only [mem_append, mem_cons] at hb
    rcases hb with hb | rfl | hb
    · have := (pairwise_append.mp hgaps).2.2 b hb r (by simp)
      simp only [Block.stop] at this
      omega
    · omega
    · have := hgap b hb
      omega
  have hcover₂ : ∀ x, cover L x + (r.has x + cover T x) + Block.has (bp, m) x =
      cover fs x + Block.has (bp, n) x := by
    intro x
    rw [← hcover, ← cover_nodes base fs₂, hnodes, cover_append, cover_cons]
  unfold Malloc.insert
  rw [hmerge, Malloc.mergePrev]
  simp only [update_self, update_of_ne (Nat.ne_of_lt hrbp), hrsize]
  by_cases hmeet : r.1 + 8 * r.2 = bp
  · rw [if_pos hmeet]
    have hrbase : r.1 ≠ base := by
      intro heq
      have hzero := hl.sizes (base, 0) (by simp [nodes])
      rw [← heq, hrsize] at hzero
      simp only at hzero
      omega
    have hptr' : ∀ b ∈ L ++ r :: T,
        update (update h.ptr bp (h₂.ptr r.1)) r.1 (h₂.ptr r.1) b.1 = h₂.ptr b.1 := by
      intro b hb
      by_cases hbr : b.1 = r.1
      · rw [hbr, update_self]
      · rw [update_of_ne hbr, update_of_ne (hbp b hb), hptr _ hbr]
    have hsize' : ∀ b ∈ L ++ T,
        update (update h.size bp m) r.1 (r.2 + m) b.1 = h₂.size b.1 := by
      intro b hb
      have hb' : b ∈ L ++ r :: T := by
        simp only [mem_append, mem_cons] at hb ⊢
        tauto
      have hbr : b.1 ≠ r.1 := by
        obtain ⟨-, hT, hLT⟩ := pairwise_append.mp hgaps
        simp only [Block.stop] at hT hLT
        rcases mem_append.mp hb with hb | hb
        · have := hLT b hb r (by simp)
          omega
        · have := (pairwise_cons.mp hT).1 b hb
          omega
      rw [update_of_ne hbr, update_of_ne (hbp b hb'), hsizes]
    obtain ⟨fs', hnodes', hl'⟩ := hl₂.resize
      ⟨update (update h.ptr bp (h₂.ptr r.1)) r.1 (h₂.ptr r.1),
        update (update h.size bp m) r.1 (r.2 + m), some r.1⟩ hnodes (by omega) hrbase
      (fun c hc => by have := hgap c hc; omega) hptr' hsize' (update_self ..)
      ⟨r, by simp, rfl⟩
    refine ⟨fs', hl', fun x => ?_, ⟨(r.1, r.2 + m), ?_, by simp only; omega⟩, ?_, fun a ha har => ?_⟩
    · rw [← cover_nodes base fs', hnodes', ← hcover₂]
      simp only [cover_append, cover_cons, has_add, hmeet]
      show _ + (r.has x + _ + _) = _
      omega
    · have hmem : (r.1, r.2 + m) ∈ nodes base fs' := by rw [hnodes']; simp
      exact (mem_cons.mp hmem).resolve_left fun h => hrbase (congrArg Prod.fst h)
    · have h1 := congrArg List.length hnodes
      have h2 := congrArg List.length hnodes'
      simp only [nodes, length_append, length_cons] at h1 h2
      omega
    · show update (update h.size bp m) r.1 (r.2 + m) a = _
      rw [update_of_ne har, update_of_ne ha]
  · rw [if_neg hmeet]
    have hptr' : ∀ b ∈ L ++ r :: (bp, m) :: T,
        update (update h.ptr bp (h₂.ptr r.1)) r.1 bp b.1 =
          update (update h₂.ptr bp (h₂.ptr r.1)) r.1 bp b.1 := by
      intro b _
      by_cases hbr : b.1 = r.1
      · rw [hbr, update_self, update_self]
      · rw [update_of_ne hbr, update_of_ne hbr]
        by_cases hb : b.1 = bp
        · rw [hb, update_self, update_self]
        · rw [update_of_ne hb, update_of_ne hb, hptr _ hbr]
    have hsize' : ∀ b ∈ L ++ r :: T, update h.size bp m b.1 = h₂.size b.1 := by
      intro b hb
      rw [update_of_ne (hbp b hb), hsizes]
    have hstop : r.stop < bp := by
      simp only [Block.stop] at hleft ⊢
      omega
    obtain ⟨fs', hnodes', hl'⟩ := hl₂.add
      ⟨update (update h.ptr bp (h₂.ptr r.1)) r.1 bp, update h.size bp m,
        some r.1⟩ hnodes (by omega) hstop hgap hptr' hsize' (update_self ..) ⟨r, by simp, rfl⟩
    refine ⟨fs', hl', fun x => ?_, ⟨(bp, m), ?_, hnm⟩, ?_, fun a ha _ => update_of_ne ha ..⟩
    · rw [← cover_nodes base fs', hnodes', ← hcover₂]
      simp only [cover_append, cover_cons]
      omega
    · have hmem : (bp, m) ∈ nodes base fs' := by rw [hnodes']; simp
      exact (mem_cons.mp hmem).resolve_left fun h => Nat.ne_of_gt hbase (congrArg Prod.fst h)

    · have h1 := congrArg List.length hnodes
      have h2 := congrArg List.length hnodes'
      simp only [nodes, length_append, length_cons] at h1 h2
      omega

/-- `free` of a block that overlaps no free block. -/
theorem Lists.free (hl : Lists base h fs) (hbase : base < bp) (hsize : h.size bp = n) (hn : 0 < n)
    (hdisj : ∀ x, cover fs x + Block.has (bp, n) x ≤ 1) (hturns : fs.length + 2 ≤ turns) :
    ∃ h' fs', free turns h (bp + 8) = some h' ∧ Lists base h' fs' ∧
      (∀ x, cover fs' x = cover fs x + Block.has (bp, n) x) ∧ (∃ b ∈ fs', n ≤ b.2) ∧
      fs'.length ≤ fs.length + 1 ∧
      ∀ a, a ≠ bp → (∀ c ∈ nodes base fs, c.1 ≠ a) → h'.size a = h.size a := by
  have hpair : ∀ c ∈ fs, ∀ x, c.has x + Block.has (bp, n) x ≤ 1 := by
    intro c hc x
    have := has_le_cover (x := x) hc
    have := hdisj x
    omega
  have hne : ∀ c ∈ fs, c.1 ≠ bp := by
    intro c hc heq
    have hboth := hpair c hc bp
    have hpos := hl.pos c hc
    rw [has_of_mem (by simp only [Block.stop]; omega),
      has_of_mem (by simp only [Block.stop]; omega)] at hboth
    omega
  obtain ⟨L, r, R, hr, hlt, hR, hrun⟩ := hl.free_eq hbase hne hturns
  have hgaps := hl.gaps
  rw [hr] at hgaps
  have hrT := pairwise_cons.mp (pairwise_append.mp hgaps).2.1
  have hleft : r.stop ≤ bp := by
    have hmem : r ∈ nodes base fs := by rw [hr]; simp
    rcases mem_cons.mp hmem with rfl | hmem
    · simp only [Block.stop] at *
      omega
    · exact stop_le_of_cover hn hlt fun x => hpair r hmem x
  have hright : ∀ c ∈ R, bp + 8 * n ≤ c.1 := by
    intro c hc
    have hbpc : bp < c.1 := by
      cases R with
      | nil => cases hc
      | cons d R =>
        have hd := hR d (by simp)
        rcases mem_cons.mp hc with rfl | hc
        · exact hd
        · have := (pairwise_cons.mp hrT.2).1 c hc
          simp only [Block.stop] at this
          omega
    have hcfs : c ∈ fs := by
      have hmem : c ∈ nodes base fs := by rw [hr]; simp [hc]
      refine (mem_cons.mp hmem).resolve_left fun heq => ?_
      rw [heq] at hbpc
      exact Nat.lt_asymm hbase hbpc
    exact stop_le_of_cover (b := (bp, n)) (hl.pos c hcfs) hbpc fun x => by
      have := hpair c hcfs x
      omega
  obtain ⟨fs', hl', hcover, hbig, hlen, hframe⟩ := hl.insert hr hbase hsize hn hleft hlt hright
  refine ⟨_, fs', hrun, hl', hcover, hbig, hlen, fun a ha hnode => hframe a ha ?_⟩
  exact (hnode r (by rw [hr]; simp)).symm

/-! ## Allocation -/

/-- `q` is a block of `n` units that has been taken out of the free blocks `fs`, which leaves `fs'`. -/
structure Taken (base : Nat) (h : Heap) (fs : List Block) (n q : Nat) (h' : Heap) (fs' : List Block) :
    Prop where
  lists : Lists base h' fs'
  cover : ∀ x, cover fs x = cover fs' x + Block.has (q, n) x
  size : h'.size q = n
  above : base < q
  frame : ∀ a, a ≠ q → (∀ c ∈ nodes base fs, c.1 ≠ a) → h'.size a = h.size a

theorem Lists.take (hl : Lists base h fs) (hr : r ∈ nodes base fs) (hn : 0 < n)
    (hbig : n ≤ h.size (h.ptr r.1)) :
    ∃ q h' fs', take h n r.1 (h.ptr r.1) = (q + 8, h') ∧ Taken base h fs n q h' fs' := by
  obtain ⟨L, R, hr⟩ := append_of_mem hr
  have hptr := hl.ptr_eq hr
  cases R with
  | nil =>
    have hzero := hl.sizes (base, 0) (by simp [nodes])
    rw [hptr] at hbig
    simp only [map_nil, headD_nil] at hbig hzero
    omega
  | cons c T =>
    simp only [map_cons, headD_cons] at hptr
    have hc : c ∈ nodes base fs := by rw [hr]; simp
    have hcsize := hl.sizes c hc
    have hgaps := hl.gaps
    rw [hr] at hgaps
    obtain ⟨-, hrest, hlow⟩ := pairwise_append.mp hgaps
    obtain ⟨hrT, hcT⟩ := pairwise_cons.mp hrest
    have hbase : base < c.1 := by
      have hhead : base ≤ r.1 := by
        cases L with
        | nil => exact (congrArg Prod.fst (List.cons.inj hr).1).le
        | cons b L =>
          have := hlow b (by simp) r (by simp)
          rw [← (List.cons.inj hr).1] at this
          simp only [Block.stop] at this
          omega
      have := hrT c (by simp)
      simp only [Block.stop] at this
      omega
    rw [Malloc.take, hptr, hcsize]
    rw [hptr, hcsize] at hbig
    by_cases hexact : c.2 = n
    · rw [if_pos hexact]
      obtain ⟨fs', hnodes, hl'⟩ := hl.remove
        ⟨update h.ptr r.1 (h.ptr c.1), h.size, some r.1⟩ hr (fun _ _ => rfl) (fun _ _ => rfl)
        ⟨r, by simp, rfl⟩
      refine ⟨c.1, _, fs', rfl, hl', fun x => ?_, hcsize.trans hexact, hbase, fun _ _ _ => rfl⟩
      rw [← cover_nodes base fs, ← cover_nodes base fs', hr, hnodes, ← hexact]
      simp only [cover_append, cover_cons]
      show _ + (_ + (c.has x + _)) = _ + _ + c.has x
      omega
    · rw [if_neg hexact]
      obtain ⟨m, hm⟩ := Nat.exists_eq_add_of_le' hbig
      have hmpos : 0 < m := by omega
      have hsub : c.2 - n = m := by omega
      rw [hsub]
      have hr' : nodes base fs = (L ++ [r]) ++ c :: T := by rw [hr]; simp
      -- The new header is inside of the old block, so it is at no node of the list.
      have hin : ∀ b ∈ (L ++ [r]) ++ T, b.1 ≠ c.1 ∧ b.1 ≠ c.1 + 8 * m := by
        intro b hb
        rcases mem_append.mp hb with hb | hb
        · have := (pairwise_append.mp (hr' ▸ hl.gaps)).2.2 b hb c (by simp)
          simp only [Block.stop] at this
          omega
        · have := (pairwise_cons.mp hcT).1 b hb
          simp only [Block.stop] at this
          omega
      have hsizes : ∀ b ∈ (L ++ [r]) ++ T,
          update (update h.size c.1 m) (c.1 + 8 * m) n b.1 = h.size b.1 := by
        intro b hb
        rw [update_of_ne (hin b hb).2, update_of_ne (hin b hb).1]
      have hnew : update (update h.size c.1 m) (c.1 + 8 * m) n c.1 = m := by
        rw [update_of_ne (by omega), update_self]
      have hgap : ∀ b ∈ T, c.1 + 8 * m < b.1 := by
        intro b hb
        have := (pairwise_cons.mp hcT).1 b hb
        simp only [Block.stop] at this
        omega
      obtain ⟨fs', hnodes, hl'⟩ := hl.resize
        ⟨h.ptr, update (update h.size c.1 m) (c.1 + 8 * m) n, some r.1⟩ hr' hmpos
        (by omega) hgap (fun _ _ => rfl) hsizes hnew ⟨r, by simp, rfl⟩
      refine ⟨_, _, fs', rfl, hl', fun x => ?_, update_self .., by omega, fun a ha hnode => ?_⟩
      · rw [← cover_nodes base fs, ← cover_nodes base fs', hr', hnodes]
        have hsplit : c.has x = Block.has (c.1, m) x + Block.has (c.1 + 8 * m, n) x := by
          rw [← has_add, ← hm]
        simp only [cover_append, cover_cons, hsplit]
        omega
      · show update (update h.size c.1 m) (c.1 + 8 * m) n a = _
        rw [update_of_ne ha, update_of_ne (hnode c hc).symm]

theorem coreUnits_le (n : Nat) : n ≤ coreUnits n ∧ 0 < coreUnits n := by
  unfold coreUnits
  split <;> omega

/-- Where the loop of `malloc` comes to: a block that is large enough, or `freep` if there is none. -/
theorem Lists.scan (hl : Lists base h fs) (hr : r ∈ nodes base fs) (hfreep : h.freep = some r.1)
    (hturns : fs.length + 1 ≤ turns) :
    ∃ s ∈ nodes base fs,
      scan h.ptr (fun p => decide (n ≤ h.size p ∨ h.freep = some p)) turns r.1 (h.ptr r.1) =
        some (s.1, h.ptr s.1) ∧
      (¬ n ≤ h.size (h.ptr s.1) → ∀ c ∈ fs, c.2 < n) := by
  obtain ⟨p, hp, hscan, htest, hlast⟩ := hl.loops.scan
    (fun p => decide (n ≤ h.size p ∨ h.freep = some p)) hl.nodup (mem_map_of_mem hr)
    ⟨r.1, mem_map_of_mem hr, decide_eq_true (.inr hfreep)⟩
    (show _ ≤ turns by simpa [nodes] using hturns)
  obtain ⟨s, hs, rfl⟩ := mem_map.mp hp
  refine ⟨s, hs, hscan, fun hsmall c hc => ?_⟩
  have hend : h.ptr s.1 = r.1 := by
    have := (of_decide_eq_true htest).resolve_left hsmall
    rw [hfreep] at this
    exact (some.inj this).symm
  have hc' : c ∈ nodes base fs := mem_cons_of_mem _ hc
  by_cases hcr : c.1 = r.1
  · rw [← hl.sizes c hc', hcr, ← hend]
    omega
  · have hfail := hlast hend c.1 (mem_map_of_mem hc') hcr
    rw [decide_eq_false_iff_not, hl.sizes c hc'] at hfail
    omega

/-- The loop of `malloc` takes a block that is large enough if there is one. -/
theorem Lists.search_big (hl : Lists base h fs) (hr : r ∈ nodes base fs) (hfreep : h.freep = some r.1)
    (hn : 0 < n) (hbig : ∃ c ∈ fs, n ≤ c.2) (hturns : fs.length + 1 ≤ turns)
    (answers : List (Option Nat)) :
    ∃ q h' fs', search turns n answers h r.1 = some (some (q + 8), h', []) ∧
      Taken base h fs n q h' fs' := by
  obtain ⟨s, hs, hscan, hsmall⟩ := hl.scan (n := n) hr hfreep hturns
  have hlarge : n ≤ h.size (h.ptr s.1) := by
    by_contra hlt
    obtain ⟨c, hc, hle⟩ := hbig
    have := hsmall hlt c hc
    omega
  obtain ⟨q, h', fs', htake, htaken⟩ := hl.take hs hn hlarge
  refine ⟨q, h', fs', ?_, htaken⟩
  rw [search, hscan]
  simp only [Option.bind_eq_bind, bind_some, if_pos hlarge, htake]
  rfl

/-- If there is none, it asks for more. -/
theorem Lists.search_small (hl : Lists base h fs) (hr : r ∈ nodes base fs)
    (hfreep : h.freep = some r.1) (hn : 0 < n) (hsmall : ∀ c ∈ fs, c.2 < n)
    (hturns : fs.length + 1 ≤ turns) (answers : List (Option Nat)) :
    search turns n answers h r.1 = match answers with
      | some a :: answers => do
        let h ← Malloc.free turns { h with size := update h.size a (coreUnits n) } (a + 8)
        let p ← h.freep
        let (r, h, calls) ← search turns n answers h p
        return (r, h, coreUnits n :: calls)
      | _ => some (none, h, [coreUnits n]) := by
  obtain ⟨s, hs, hscan, -⟩ := hl.scan (n := n) hr hfreep hturns
  have hlt : ¬ n ≤ h.size (h.ptr s.1) := by
    have hmem : h.ptr s.1 ∈ (nodes base fs).map Prod.fst := by
      have := mem_map_of_mem (f := h.ptr) (mem_map_of_mem (f := Prod.fst) hs)
      rw [hl.loops] at this
      exact mem_rotate.mp this
    obtain ⟨c, hc, heq⟩ := mem_map.mp hmem
    rw [← heq, hl.sizes c hc]
    rcases mem_cons.mp hc with rfl | hc
    · simp only
      omega
    · have := hsmall c hc
      omega
  rw [search, hscan]
  simp only [Option.bind_eq_bind, bind_some, if_neg hlt]
  rfl

/-- With a block more from `sbrk`, which lies above all others, there is one that is large enough. -/
theorem Lists.search_grow (hl : Lists base h fs) (hr : r ∈ nodes base fs)
    (hfreep : h.freep = some r.1) (hn : 0 < n) (hsmall : ∀ c ∈ fs, c.2 < n)
    (hturns : fs.length + 2 ≤ turns) {a : Nat} (ha : base < a) (hfresh : ∀ c ∈ fs, c.stop ≤ a)
    (answers : List (Option Nat)) :
    ∃ q h' fs' h₁ fs₁, search turns n (some a :: answers) h r.1 =
        some (some (q + 8), h', [coreUnits n]) ∧
      (∀ x, cover fs₁ x = cover fs x + Block.has (a, coreUnits n) x) ∧
      (∀ d, d ≠ a → (∀ c ∈ nodes base fs, c.1 ≠ d) → h₁.size d = h.size d) ∧
      Lists base h₁ fs₁ ∧ Taken base h₁ fs₁ n q h' fs' := by
  obtain ⟨hle, hpos⟩ := coreUnits_le n
  have hbelow : ∀ c ∈ nodes base fs, c.1 < a ∧ c.stop ≤ a := by
    intro c hc
    rcases mem_cons.mp hc with rfl | hc
    · simp only [Block.stop]
      omega
    · have := hl.pos c hc
      have := hfresh c hc
      simp only [Block.stop] at *
      omega
  have hl' : Lists base { h with size := update h.size a (coreUnits n) } fs := by
    refine ⟨hl.loops, fun b hb => ?_, hl.pos, hl.gaps, hl.freep⟩
    have hne : b.1 ≠ a := Nat.ne_of_lt (hbelow b hb).1
    exact (update_of_ne hne ..).trans (hl.sizes b hb)
  have hdisj : ∀ x, cover fs x + Block.has (a, coreUnits n) x ≤ 1 := by
    intro x
    by_cases hx : a ≤ x
    · rw [cover_eq_zero fun c hc => .inr ((hfresh c hc).trans hx), Block.has]
      split <;> omega
    · rw [Block.has, if_neg (by simp only; omega), ← cover_nodes base fs]
      exact cover_le_one hl.gaps
  obtain ⟨h₁, fs₁, hfree, hl₁, hcover, ⟨b, hb, hbig⟩, hlen, hframe⟩ :=
    hl'.free ha (update_self ..) hpos hdisj hturns
  obtain ⟨p, hp, hfreep₁⟩ := hl₁.freep
  obtain ⟨q, h', fs', hsearch, htaken⟩ := hl₁.search_big hp hfreep₁ hn ⟨b, hb, hle.trans hbig⟩
    (show _ ≤ turns by omega) answers
  refine ⟨q, h', fs', h₁, fs₁, ?_, hcover, fun d hd hnode => ?_, hl₁, htaken⟩
  · rw [hl.search_small hr hfreep hn hsmall (by omega)]
    simp only [hfree, hfreep₁, hsearch, Option.bind_eq_bind, bind_some]
    rfl
  · exact (hframe d hd hnode).trans (update_of_ne hd ..)

/-- The free blocks of a heap, before the first call of `malloc` or after it. -/
def Sound (base : Nat) (h : Heap) (fs : List Block) : Prop :=
  (h.freep = none ∧ fs = []) ∨ Lists base h fs

theorem Sound.ready (hs : Sound base h fs) : Lists base (ready base h) fs := by
  rcases hs with ⟨hnone, rfl⟩ | hl
  · rw [Malloc.ready, hnone]
    refine ⟨?_, ?_, by simp, by simp [nodes], ⟨(base, 0), by simp [nodes], rfl⟩⟩
    · simp [Loops, nodes]
    · simp [nodes]
  · obtain ⟨b, -, hfreep⟩ := hl.freep
    rw [Malloc.ready, hfreep]
    exact hl

/-- How `malloc` of `n` units ends, by the answer of `sbrk`: what it returns, the heap, and the units
that it has asked for. -/
inductive Outcome (base : Nat) (h : Heap) (fs : List Block) (n : Nat) :
    Option (Option Nat) → Option Nat → Heap → List Nat → Prop
  | fits {answer q h' fs'} (hbig : ∃ c ∈ fs, n ≤ c.2) (htaken : Taken base h fs n q h' fs') :
      Outcome base h fs n answer (some (q + 8)) h' []
  | fails {answer} (hsmall : ∀ c ∈ fs, c.2 < n) (hanswer : ∀ a, answer ≠ some (some a)) :
      Outcome base h fs n answer none h [coreUnits n]
  | grows {a q h' fs' h₁ fs₁} (hsmall : ∀ c ∈ fs, c.2 < n)
      (hcover : ∀ x, cover fs₁ x = cover fs x + Block.has (a, coreUnits n) x)
      (hframe : ∀ d, d ≠ a → (∀ c ∈ nodes base fs, c.1 ≠ d) → h₁.size d = h.size d)
      (hlists : Lists base h₁ fs₁) (htaken : Taken base h₁ fs₁ n q h' fs') :
      Outcome base h fs n (some (some a)) (some (q + 8)) h' [coreUnits n]

theorem Sound.malloc_ends (hs : Sound base h fs) (nbytes : Nat) (answers : List (Option Nat))
    (hfresh : ∀ a, answers.head? = some (some a) → base < a ∧ ∀ c ∈ fs, c.stop ≤ a)
    (hturns : fs.length + 2 ≤ turns) :
    ∃ r h' calls, malloc base turns nbytes answers h = some (r, h', calls) ∧
      Outcome base (Malloc.ready base h) fs (units nbytes) answers.head? r h' calls := by
  have hl := hs.ready
  obtain ⟨p, hp, hfreep⟩ := hl.freep
  have hn : 0 < units nbytes := Nat.succ_pos _
  have hrun : malloc base turns nbytes answers h =
      search turns (units nbytes) answers (Malloc.ready base h) p.1 := by
    rw [malloc]
    simp only [hfreep, Option.bind_eq_bind, bind_some]
  rw [hrun]
  by_cases hbig : ∃ c ∈ fs, units nbytes ≤ c.2
  · obtain ⟨q, h', fs', hsearch, htaken⟩ := hl.search_big hp hfreep hn hbig (show _ ≤ turns by omega)
      answers
    exact ⟨_, _, _, hsearch, .fits hbig htaken⟩
  · have hsmall : ∀ c ∈ fs, c.2 < units nbytes := by
      intro c hc
      by_contra hle
      exact hbig ⟨c, hc, by omega⟩
    have hsearch := hl.search_small hp hfreep hn hsmall (show _ ≤ turns by omega) answers
    match answers, hfresh, hsearch with
    | [], _, hsearch => exact ⟨_, _, _, hsearch, .fails hsmall (by simp)⟩
    | none :: _, _, hsearch => exact ⟨_, _, _, hsearch, .fails hsmall (by simp)⟩
    | some a :: answers, hfresh, _ =>
      obtain ⟨ha, hbelow⟩ := hfresh a rfl
      obtain ⟨q, h', fs', h₁, fs₁, hsearch, hcover, hframe, hlists, htaken⟩ :=
        hl.search_grow hp hfreep hn hsmall hturns ha hbelow answers
      exact ⟨_, _, _, hsearch, .grows hsmall hcover hframe hlists htaken⟩

theorem sbrkArg_eq (h : 8 * n < 2 ^ 31) : sbrkArg n = 8 * n := by
  rw [sbrkArg, BitVec.toInt_eq_toNat_of_lt (by simp; omega)]
  simp
  omega

theorem sbrkArg_lt (n : Nat) : sbrkArg n < 2 ^ 31 := by
  have := BitVec.toInt_lt (x := BitVec.ofNat 32 (n * 8))
  simpa [sbrkArg] using this

end

end Xv6.Malloc
