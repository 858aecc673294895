import Xv6.Lib.Act
import Xv6.Lib.Bytes
import Xv6.Param

/-!
# Pages and page tables

`kalloc.c` and `vm.c`. A page of physical memory is known by its number, and a page directory is a
value that holds its page tables: no two directories share one. The events of a computation tell
what became of the pages that it took.
-/

namespace Xv6.Vm

open Function

open Lib

/-! ## `mmu.h` and `memlayout.h` -/

/-- Entries of a page directory. -/
def NPDENTRIES : Nat := 1024
/-- Entries of a page table. -/
def NPTENTRIES : Nat := 1024
/-- Start of extended memory. -/
def EXTMEM : Nat := 0x100000
/-- Top of physical memory. -/
def PHYSTOP : Nat := 0xE000000
/-- Where other devices are. -/
def DEVSPACE : Nat := 0xFE000000
/-- The address where the kernel is linked. -/
def KERNLINK : Nat := KERNBASE + EXTMEM

/-- A 32-bit address or size. -/
abbrev Word : Type := BitVec 32

/-- `PDX`. -/
def PDX (va : Word) : Nat := va.toNat / 2 ^ 22
/-- `PTX`. -/
def PTX (va : Word) : Nat := va.toNat / 2 ^ 12 % NPTENTRIES
/-- `PGROUNDDOWN`. -/
def PGROUNDDOWN (a : Word) : Word := BitVec.ofNat 32 (a.toNat / PGSIZE * PGSIZE)
/-- `PGROUNDUP`. -/
def PGROUNDUP (sz : Word) : Word := PGROUNDDOWN (sz + BitVec.ofNat 32 (PGSIZE - 1))

/-- Present. -/
def PTE_P : Word := 1
/-- Writeable. -/
def PTE_W : Word := 2
/-- User. -/
def PTE_U : Word := 4

/-- `PTE_ADDR`, as a page number. -/
def PTE_ADDR (pte : Word) : Nat := pte.toNat / PGSIZE
/-- `PTE_FLAGS`. -/
def PTE_FLAGS (pte : Word) : Word := BitVec.ofNat 32 (pte.toNat % PGSIZE)
/-- `pte & PTE_P`. -/
def present (pte : Word) : Bool := pte.getLsbD 0
/-- `pte & PTE_U`. -/
def user (pte : Word) : Bool := pte.getLsbD 2

/-- The physical address of a page. -/
def pageAddr (p : Nat) : Word := BitVec.ofNat 32 (PGSIZE * p)

/-- What the linker decides: the physical addresses of `data` and `end`. -/
structure Layout where
  data : Nat
  kend : Nat
  aligned : data % PGSIZE = 0
  above : EXTMEM < data
  below : data < PHYSTOP
  order : data ≤ kend

/-- Page `p` is one that `kalloc.c` deals in. -/
def Layout.Physical (im : Layout) (p : Nat) : Prop := im.kend ≤ PGSIZE * p ∧ PGSIZE * p < PHYSTOP

instance (im : Layout) (p : Nat) : Decidable (im.Physical p) :=
  inferInstanceAs (Decidable (_ ∧ _))

theorem Layout.physical_of_not {im : Layout} {p : Nat}
    (h : ¬ (PGSIZE * p < im.kend ∨ PHYSTOP ≤ PGSIZE * p)) : im.Physical p :=
  ⟨not_lt.mp fun hlt => h (.inl hlt), not_le.mp fun hle => h (.inr hle)⟩

/-! ## `kalloc.c` -/

variable {im : Layout}

/-- The free list, and what is in each page. -/
structure Kmem (im : Layout) where
  freelist : List Nat
  mem : Nat → Bytes PGSIZE
  physical : ∀ p ∈ freelist, im.Physical p

namespace Kmem

/-- Take the first page off the list. -/
def pop : Kmem im → Option (Nat × Kmem im)
  | ⟨[], _, _⟩ => none
  | ⟨p :: ps, mem, h⟩ => some (p, ⟨ps, mem, fun q hq => h q (List.mem_cons_of_mem p hq)⟩)

/-- Put a page in front of the list. -/
def push (k : Kmem im) (p : Nat) (h : im.Physical p) : Kmem im :=
  { k with freelist := p :: k.freelist, physical := List.forall_mem_cons.mpr ⟨h, k.physical⟩ }

@[simp] theorem freelist_push (k : Kmem im) (p : Nat) (h : im.Physical p) :
    (k.push p h).freelist = p :: k.freelist := rfl

end Kmem

/-- What a computation does with pages. -/
inductive VmEvent where
  /-- `walkpgdir` found no page for a page table. -/
  | tableFail
  /-- `allocuvm` took a page for user memory. -/
  | taken (p : Nat)
  /-- `loaduvm` stored `n` bytes in page `p`. -/
  | loaded (p n : Nat)
  deriving DecidableEq

/-- Computations on memory. -/
abbrev V (im : Layout) : Type → Type := Act VmEvent (Kmem im)

/-- `kalloc` (`kalloc.c:82-95`). -/
def kalloc : V im (Option Nat) := do
  let k ← Act.get
  match k.pop with
  | none => return none
  | some (p, k) =>
    Act.modify fun _ => k
    return some p

/-- Store in a page. -/
def store (p : Nat) (b : Bytes PGSIZE) : V im Unit :=
  Act.modify fun k => { k with mem := update k.mem p b }

/-- `kfree` (`kalloc.c:59-77`). -/
def kfree (im : Layout) (p : Nat) : V im Unit :=
  if h : PGSIZE * p < im.kend ∨ PHYSTOP ≤ PGSIZE * p then
    Act.panic "kfree"
  else do
    store p fun _ => 1
    Act.modify fun k => k.push p (Layout.physical_of_not h)

/-! ## Page directories -/

/-- A page table and the page that holds it. -/
structure Table where
  page : Nat
  pte : Nat → Word

/-- A page directory and the page that holds it. -/
structure Pgdir where
  page : Nat
  pde : Nat → Option Table

namespace Pgdir

/-- The entry for a virtual address; zero where there is no page table. -/
def pte (d : Pgdir) (va : Word) : Word :=
  match d.pde (PDX va) with
  | some t => t.pte (PTX va)
  | none => 0

/-- Store an entry. -/
def setPte (d : Pgdir) (va e : Word) : Pgdir :=
  match d.pde (PDX va) with
  | some t => { d with
      pde := update d.pde (PDX va) (some { t with pte := update t.pte (PTX va) e }) }
  | none => d

end Pgdir

/-- `walkpgdir` (`vm.c:45-65`). The pointer that it returns is to the entry for `va` of the
directory returned here. -/
def walkpgdir (d : Pgdir) (va : Word) (alloc : Bool) : V im (Option Pgdir) :=
  match d.pde (PDX va) with
  | some _ => return some d
  | none =>
    if alloc = false then return none
    else do
      let r ← kalloc
      match r with
      | none =>
        Act.emit .tableFail
        return none
      | some p => return some { d with
          pde := update d.pde (PDX va) (some { page := p, pte := fun _ => 0 }) }

/-- One turn of the loop of `mappages` (`vm.c:79-83`); `none` when there is no page table. -/
def mapEntry (d : Pgdir) (a e : Word) : V im (Option Pgdir) := do
  let r ← walkpgdir d a true
  match r with
  | none => return none
  | some d =>
    if present (d.pte a) then
      Act.panic "remap"
    else
      return some (d.setPte a e)

/-- The loop of `mappages`; there are `2 ^ 20` pages to go through at most. -/
def mappagesLoop : Nat → Pgdir → Word → Word → Word → Word → V im (Pgdir × Bool)
  | 0, d, _, _, _, _ => return (d, true)
  | turns + 1, d, a, last, pa, perm => do
    let r ← mapEntry d a (pa ||| perm ||| PTE_P)
    match r with
    | none => return (d, false)
    | some d =>
      if a = last then
        return (d, true)
      else
        mappagesLoop turns d (a + BitVec.ofNat 32 PGSIZE) last (pa + BitVec.ofNat 32 PGSIZE) perm

/-- `mappages` (`vm.c:70-90`); the flag is false for the result -1. -/
def mappages (d : Pgdir) (va size pa perm : Word) : V im (Pgdir × Bool) :=
  mappagesLoop (2 ^ 20) d (PGROUNDDOWN va) (PGROUNDDOWN (va + size - 1)) pa perm

/-- An entry of `kmap`. -/
structure Kmap where
  virt : Word
  physStart : Word
  physEnd : Word
  perm : Word

/-- `kmap` (`vm.c:115-125`). -/
def kmap (im : Layout) : List Kmap :=
  [{ virt := BitVec.ofNat 32 KERNBASE, physStart := 0, physEnd := BitVec.ofNat 32 EXTMEM,
     perm := PTE_W },
   { virt := BitVec.ofNat 32 KERNLINK, physStart := BitVec.ofNat 32 (KERNLINK - KERNBASE),
     physEnd := BitVec.ofNat 32 im.data, perm := 0 },
   { virt := BitVec.ofNat 32 (KERNBASE + im.data), physStart := BitVec.ofNat 32 im.data,
     physEnd := BitVec.ofNat 32 PHYSTOP, perm := PTE_W },
   { virt := BitVec.ofNat 32 DEVSPACE, physStart := BitVec.ofNat 32 DEVSPACE, physEnd := 0,
     perm := PTE_W }]

/-- The loop of `setupkvm` over `kmap`. -/
def setupkvmLoop : List Kmap → Pgdir → V im (Option Pgdir)
  | [], d => return some d
  | k :: ks, d => do
    let (d, ok) ← mappages d k.virt (k.physEnd - k.physStart) k.physStart k.perm
    if ok then setupkvmLoop ks d else return none

/-- `setupkvm` (`vm.c:127-144`). -/
def setupkvm (im : Layout) : V im (Option Pgdir) := do
  let r ← kalloc
  match r with
  | none => return none
  | some p =>
    if DEVSPACE < KERNBASE + PHYSTOP then
      Act.panic "PHYSTOP too high"
    else
      setupkvmLoop (kmap im) { page := p, pde := fun _ => none }

/-! ## User memory -/

/-- The loop of `deallocuvm`. Where a page table is missing it goes on after as many pages as a
table has. -/
def deallocuvmLoop (im : Layout) : Nat → Pgdir → Word → Word → V im Pgdir
  | 0, d, _, _ => return d
  | turns + 1, d, a, oldsz =>
    if a < oldsz then do
      let r ← walkpgdir d a false
      match r with
      | none => deallocuvmLoop im turns d (a + BitVec.ofNat 32 (NPTENTRIES * PGSIZE)) oldsz
      | some d =>
        if present (d.pte a) then
          if PTE_ADDR (d.pte a) = 0 then
            Act.panic "kfree"
          else
            kfree im (PTE_ADDR (d.pte a))
            deallocuvmLoop im turns (d.setPte a 0) (a + BitVec.ofNat 32 PGSIZE) oldsz
        else
          deallocuvmLoop im turns d (a + BitVec.ofNat 32 PGSIZE) oldsz
    else
      return d

/-- `deallocuvm` (`vm.c:249-273`). -/
def deallocuvm (im : Layout) (d : Pgdir) (oldsz newsz : Word) : V im (Pgdir × Word) := do
  if oldsz ≤ newsz then
    return (d, oldsz)
  else
    let d ← deallocuvmLoop im (2 ^ 20) d (PGROUNDUP newsz) oldsz
    return (d, newsz)

/-- The loop of `allocuvm`; the flag is false when there is no more memory. -/
def allocuvmLoop : Nat → Pgdir → Word → Word → V im (Pgdir × Bool)
  | 0, d, _, _ => return (d, true)
  | turns + 1, d, a, newsz =>
    if a < newsz then do
      let r ← kalloc
      match r with
      | none => return (d, false)
      | some p =>
        Act.emit (.taken p)
        store p (Bytes.zero PGSIZE)
        -- the result of `mappages` is not looked at
        let (d, _) ← mappages d a (BitVec.ofNat 32 PGSIZE) (pageAddr p) (PTE_W ||| PTE_U)
        allocuvmLoop turns d (a + BitVec.ofNat 32 PGSIZE) newsz
    else
      return (d, true)

/-- `allocuvm` (`vm.c:220-243`); the size 0 is the failure. -/
def allocuvm (im : Layout) (d : Pgdir) (oldsz newsz : Word) : V im (Pgdir × Word) := do
  if BitVec.ofNat 32 KERNBASE ≤ newsz then
    return (d, 0)
  else if newsz < oldsz then
    return (d, oldsz)
  else
    let (d, ok) ← allocuvmLoop (2 ^ 20) d (PGROUNDUP oldsz) newsz
    if ok then
      return (d, newsz)
    else
      let (d, _) ← deallocuvm im d newsz oldsz
      return (d, 0)

/-- Free the page of each page table (`vm.c:285-290`). -/
def freeTables (im : Layout) (d : Pgdir) : List Nat → V im Unit
  | [] => return ()
  | i :: is =>
    match d.pde i with
    | some t => do
      kfree im t.page
      freeTables im d is
    | none => freeTables im d is

/-- `freevm` (`vm.c:277-292`). -/
def freevm (im : Layout) (d : Pgdir) : V im Unit := do
  let (d, _) ← deallocuvm im d (BitVec.ofNat 32 KERNBASE) 0
  freeTables im d (List.range NPDENTRIES)
  kfree im d.page

/-- `clearpteu` (`vm.c:296-305`). -/
def clearpteu (d : Pgdir) (uva : Word) : V im Pgdir := do
  let r ← walkpgdir d uva false
  match r with
  | none => Act.panic "clearpteu"
  | some d => return d.setPte uva (d.pte uva &&& ~~~PTE_U)

/-- The loop of `copyuvm` over the pages `k` and up; the flag is false for `goto bad`. The address
`4096 * k` does not wrap: behind the user's pages are the kernel's, which are mapped already. -/
def copyuvmLoop (parent : Pgdir) : Nat → Pgdir → Nat → V im (Pgdir × Bool)
  | 0, d, _ => return (d, true)
  | pages + 1, d, k => do
    let i := BitVec.ofNat 32 (PGSIZE * k)
    let r ← walkpgdir parent i false
    match r with
    | none => Act.panic "copyuvm: pte should exist"
    | some parent =>
      if present (parent.pte i) = false then
        Act.panic "copyuvm: page not present"
      else
        let r ← kalloc
        match r with
        | none => return (d, false)
        | some p =>
          let s ← Act.get
          store p (s.mem (PTE_ADDR (parent.pte i)))
          let (d, ok) ← mappages d i (BitVec.ofNat 32 PGSIZE) (pageAddr p)
            (PTE_FLAGS (parent.pte i))
          if ok then copyuvmLoop parent pages d (k + 1) else return (d, false)

/-- `copyuvm` (`vm.c:309-337`). -/
def copyuvm (im : Layout) (parent : Pgdir) (sz : Word) : V im (Option Pgdir) := do
  let r ← setupkvm im
  match r with
  | none => return none
  | some d =>
    let (d, ok) ← copyuvmLoop parent ((sz.toNat + PGSIZE - 1) / PGSIZE) d 0
    if ok then
      return some d
    else
      freevm im d
      return none

/-! ## Access to user memory -/

/-- What `readi` gives for an offset and a count: `none` is the result -1. -/
abbrev Reader : Type := Nat → Nat → Option (List UInt8)

/-- The loop of `loaduvm` over the pages at `i` and up. A store that does not go to a user's page
overwrites the kernel or a device; what follows then is not modelled. -/
def loaduvmLoop (rd : Reader) (d : Pgdir) (addr offset sz : Word) : Nat → Nat → V im Bool
  | 0, _ => return true
  | turns + 1, i =>
    if i < sz.toNat then do
      let va := addr + BitVec.ofNat 32 i
      let r ← walkpgdir d va false
      match r with
      | none => Act.panic "loaduvm: address should exist"
      | some d =>
        let n := min (sz.toNat - i) PGSIZE
        let bs := (rd (offset + BitVec.ofNat 32 i).toNat n).getD []
        let p := PTE_ADDR (d.pte va)
        Act.emit (.loaded p bs.length)
        if bs ≠ [] ∧ ¬ (present (d.pte va) ∧ user (d.pte va)) then
          Act.undefined
        else
          let s ← Act.get
          store p ((s.mem p).splice 0 (fun j => bs.getD j 0) bs.length)
          if bs.length = n then
            loaduvmLoop rd d addr offset sz turns (i + PGSIZE)
          else
            return false
    else
      return true

/-- `loaduvm` (`vm.c:196-216`). -/
def loaduvm (rd : Reader) (d : Pgdir) (addr offset sz : Word) : V im Bool := do
  if addr.toNat % PGSIZE ≠ 0 then
    Act.panic "loaduvm: addr must be page aligned"
  else
    loaduvmLoop rd d addr offset sz (2 ^ 20) 0

/-- `uva2ka` (`vm.c:341-352`), as a page number. The pointer that `walkpgdir` returns is followed
without a check. -/
def uva2ka (d : Pgdir) (uva : Word) : V im (Option Nat) := do
  let r ← walkpgdir d uva false
  match r with
  | none => Act.undefined
  | some d =>
    if present (d.pte uva) = false then return none
    else if user (d.pte uva) = false then return none
    else return some (PTE_ADDR (d.pte uva))

/-- The loop of `copyout`; every turn copies at least one byte. -/
def copyoutLoop (d : Pgdir) : Nat → Word → List UInt8 → V im Bool
  | 0, _, _ => return true
  | turns + 1, va, bs =>
    if bs = [] then return true
    else do
      let va0 := PGROUNDDOWN va
      let r ← uva2ka d va0
      match r with
      | none => return false
      | some p =>
        let n := min (PGSIZE - (va - va0).toNat) bs.length
        let s ← Act.get
        store p ((s.mem p).splice (va - va0).toNat (fun j => bs.getD j 0) n)
        copyoutLoop d turns (va0 + BitVec.ofNat 32 PGSIZE) (bs.drop n)

/-- `copyout` (`vm.c:357-378`). -/
def copyout (d : Pgdir) (va : Word) (bs : List UInt8) : V im Bool := copyoutLoop d bs.length va bs

end Xv6.Vm
