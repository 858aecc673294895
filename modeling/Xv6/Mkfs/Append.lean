import Xv6.Fs.Vnode
import Xv6.Mkfs.Basic

/-!
# Files of the image

`mkfs` writes the bitmap when everything else is done. `view` is the image with the bitmap that it
would have if `balloc` ran now, and on it the blocks are a heap as the kernel's file system has
them: `iappend` gives the next block to an empty position, and every block that was taken is some
file's.
-/

namespace Xv6.Mkfs

open Function Option Set

open Lib Prog

/-- The layout of the image. The bitmap says nothing about the log, so the region goes on to the
end of the disk. -/
def region : Region where
  sb := sb
  lo := metablocks
  hi := size
  inodes := by decide
  order := by decide
  bitmap := by
    intro b hb
    simp only [sb, size, metablocks, bitblocks, bblock, NINODES, IPB, BPB, BSIZE, DINODESZ] at *
    omega
  word := by decide

/-- The sector of the bitmap. -/
def bitmapSector : Nat := NINODES / IPB + 3

/-- The image with the bitmap of the blocks used so far. -/
def view (m : Mkfs) : Nat → Block := update m.disk bitmapSector (bitmap m.usedblocks)

variable {m : Mkfs} {s b off n inum : Nat} {ino : Nat → Dinode}

theorem view_of_ne (h : s ≠ bitmapSector) : m.view s = m.disk s :=
  update_of_ne h ..

theorem view_of_ge (h : metablocks ≤ s) : m.view s = m.disk s := by
  apply view_of_ne
  have : bitmapSector < metablocks := by decide
  omega

/-! ## The bitmap -/

theorem testBit_bitmap {used : Nat} (hb : b < BPB) :
    testBit (bitmap used) b = decide (b < used) := by
  induction used with
  | zero => simp [bitmap, testBit]
  | succ used ih =>
    rw [bitmap, testBit_setBit hb, ih, ← Bool.decide_or, decide_eq_decide]
    omega

theorem bblock_eq (hb : b < size) : bblock b region.sb.ninodes = bitmapSector := by
  have hdiv : b / BPB = 0 := Nat.div_eq_of_lt (lt_trans hb (by decide))
  unfold bblock bitmapSector
  rw [hdiv, Nat.zero_add]
  rfl

theorem bit_view (hb : b < size) :
    Kernel.bit m.view region.sb.ninodes b = decide (b < m.usedblocks) := by
  have hlt : b < BPB := lt_trans hb (by decide)
  unfold Kernel.bit
  rw [bblock_eq hb, Nat.mod_eq_of_lt hlt, view, update_self]
  exact testBit_bitmap hlt

/-! ## The blocks that are taken -/

/-- The image in the middle of the work: the files own the blocks from the metadata up to the next
free one, and what lies behind is still cleared. -/
structure Built (m : Mkfs) (ino : Nat → Dinode) : Prop where
  length : m.length = size
  free : m.freeblock = m.usedblocks
  lo : metablocks ≤ m.usedblocks
  fresh : ∀ b, m.usedblocks ≤ b → m.disk b = Bytes.zero BSIZE
  sound : Sound region m.view ino
  exact : (region.heap m.view ino).Exact

/-- The next block has been taken. -/
def taken (m : Mkfs) : Mkfs :=
  { m with freeblock := m.freeblock + 1, usedblocks := m.usedblocks + 1 }

/-- A store that stands for `v`. -/
def plain (v : Nat → Block) : Store := { disk := v, disksize := size, bcache := binit }

theorem peek_plain (v : Nat → Block) : (plain v).peek = v := by
  funext s
  unfold Store.peek
  have hnone : (plain v).bcache.mru.find? (isCached (plain v).bcache ROOTDEV s) = none := by
    apply List.find?_eq_none.mpr
    intro b _ hc
    cases (isCached_iff.mp hc).1
  rw [hnone]
  rfl

namespace Built

variable {m : Mkfs} {ino : Nat → Dinode}

/-- The next block, as `balloc` of the kernel would find it. -/
theorem next (h : Built m ino) (hroom : m.usedblocks < size) :
    Extends.Next region m.view (plain m.view) m.freeblock := by
  rw [h.free]
  refine ⟨peek_plain _, hroom, ?_, ?_⟩
  · rw [bit_view hroom]
    simp
  · intro c hc
    rw [bit_view (hc.trans hroom)]
    simpa using hc

/-- Taking a block is what `balloc` of the kernel does. -/
theorem view_taken (h : Built m ino) (hroom : m.usedblocks < size) :
    m.taken.view = Sound.allocated m.view region.sb.ninodes m.freeblock := by
  have hne : m.usedblocks ≠ bitmapSector := by
    have := h.lo
    have : bitmapSector < metablocks := by decide
    omega
  have hlt : m.usedblocks < BPB := lt_trans hroom (by decide)
  unfold Sound.allocated Kernel.markUsed
  rw [h.free, bblock_eq hroom, Nat.mod_eq_of_lt hlt]
  funext s
  by_cases hs : s = m.usedblocks
  · subst hs
    rw [update_self, view_of_ne hne]
    exact h.fresh _ le_rfl
  · rw [update_of_ne hs]
    by_cases hb : s = bitmapSector
    · subst hb
      rw [update_self]
      simp only [view, update_self]
      rfl
    · rw [update_of_ne hb, view_of_ne hb, view_of_ne hb]
      rfl

/-- A file has grown into the blocks that were taken. -/
theorem grown {m' : Mkfs} {inum : Nat} {c : Scope} {d : Dinode} {es : List FsEvent}
    (h : Built m ino) (hext : Extends region inum c m.view ino m'.view d es)
    (hlength : m'.length = m.length) (hfree : m'.freeblock = m'.usedblocks)
    (hused : m.usedblocks ≤ m'.usedblocks)
    (hfresh : ∀ b, m'.usedblocks ≤ b → m'.disk b = m.disk b) :
    Built m' (update ino inum d) where
  length := hlength.trans h.length
  free := hfree
  lo := h.lo.trans hused
  fresh := fun b hb => (hfresh b hb).trans (h.fresh b (hused.trans hb))
  sound := hext.sound
  exact := h.exact.steps hext.steps

theorem ref_lt (h : Built m ino) {p : Pos} {b : Nat}
    (hp : refs m.view region.sb.ninodes ino p = some b) : metablocks ≤ b ∧ b < m.usedblocks := by
  obtain ⟨hlo, hhi, hbit⟩ := h.sound.lo_le hp
  rw [bit_view hhi] at hbit
  exact ⟨hlo, of_decide_eq_true hbit⟩

end Built

/-- A file gets blocks and bytes. -/
structure Grows (m : Mkfs) (ino : Nat → Dinode) (inum : Nat) (c : Scope) (m' : Mkfs) (d : Dinode) :
    Prop where
  ext : ∃ es, Extends region inum c m.view ino m'.view d es
  built : Built m' (update ino inum d)
  freeinode : m'.freeinode = m.freeinode

namespace Grows

variable {m m' m'' : Mkfs} {ino : Nat → Dinode} {inum : Nat} {c c' : Scope} {d d' : Dinode}

theorem refl (h : Built m ino) : Grows m ino inum .none m (ino inum) where
  ext := ⟨_, Extends.refl h.sound⟩
  built := by rw [update_eq_self]; exact h
  freeinode := rfl

theorem trans (h : Grows m ino inum c m' d)
    (h' : Grows m' (update ino inum d) inum c' m'' d') :
    Grows m ino inum (c.also c') m'' d' := by
  obtain ⟨_, hext⟩ := h.ext
  obtain ⟨_, hext'⟩ := h'.ext
  have hbuilt := h'.built
  rw [update_idem] at hbuilt
  exact ⟨⟨_, hext.trans hext'⟩, hbuilt, h'.freeinode.trans h.freeinode⟩

theorem mono (h : Grows m ino inum c m' d) (hslots : c.slots ⊆ c'.slots)
    (hdata : c.data = c'.data) (hedits : c.edits ⊆ c'.edits) : Grows m ino inum c' m' d := by
  obtain ⟨_, hext⟩ := h.ext
  exact ⟨⟨_, hext.mono hslots hdata hedits⟩, h.built, h.freeinode⟩

theorem keeps (h : Grows m ino inum c m' d) {p : Pos} {b : Nat}
    (hp : refs m.view region.sb.ninodes ino p = some b) :
    refs m'.view region.sb.ninodes (update ino inum d) p = some b := by
  obtain ⟨_, hext⟩ := h.ext
  exact hext.keeps p b hp

theorem fresh (h : Grows m ino inum c m' d) {p : Pos} {b : Nat}
    (hp : refs m'.view region.sb.ninodes (update ino inum d) p = some b) :
    refs m.view region.sb.ninodes ino p = some b ∨ p.1 = inum ∧ p.2 ∈ c.slots := by
  obtain ⟨_, hext⟩ := h.ext
  exact (hext.fresh p b hp).imp_right fun hf => ⟨hf.1, hf.2.1⟩

theorem allocated (h : Grows m ino inum c m' d) (hl : Allocated region.sb.ninodes ino inum) :
    Allocated region.sb.ninodes (update ino inum d) inum := by
  obtain ⟨_, hext⟩ := h.ext
  refine ⟨hl.1, hl.2.1, ?_⟩
  rw [update_self, hext.inode]
  exact hl.2.2

end Grows

/-! ## One block -/

section

variable {m : Mkfs} {ino : Nat → Dinode} {inum : Nat} {E : Halt → Prop}

theorem rsect_ends {sec : Nat} (h : sec < m.length) :
    Ends (rsect sec) m (fun buf m' => m.disk sec = buf ∧ m = m') E := by
  have hrun : rsect sec m = .ok (m.disk sec) m := if_pos h
  constructor
  · intro buf m' hx
    rw [hrun] at hx
    cases hx
    exact ⟨rfl, rfl⟩
  · intro why hx
    rw [hrun] at hx
    cases hx

theorem wsect_ends {sec : Nat} {buf : Block} (h : sec < m.length) :
    Ends (wsect sec buf) m (fun _ m' => { m with disk := update m.disk sec buf } = m')
      E := by
  apply ends_modify
  rw [Nat.max_eq_left (Nat.succ_le_of_lt h)]

theorem takeBlock_ends : Ends takeBlock m (fun b m' => m.freeblock = b ∧ m.taken = m') E := by
  apply (ends_get (Q := fun a t => m = a ∧ m = t) ⟨rfl, rfl⟩).bind
  rintro _ _ ⟨rfl, rfl⟩
  apply (ends_modify (Q := fun _ t => m.taken = t) rfl).bind
  rintro _ _ rfl
  exact ends_pure ⟨rfl, rfl⟩

theorem view_wsect {sec : Nat} {buf : Block} (h : sec ≠ bitmapSector) :
    ({ m with disk := update m.disk sec buf } : Mkfs).view =
      update m.view sec buf :=
  update_comm h ..

/-- Nothing is taken where there is a block. -/
theorem iappendAddr_ends {i : Fin (NDIRECT + 1)} (h : Built m ino)
    (hl : Allocated region.sb.ninodes ino inum)
    (hroom : refs m.view region.sb.ninodes ino (inum, .addr i) = none → m.usedblocks < size) :
    Ends (iappendAddr (ino inum) i) m (fun d m' => Grows m ino inum ⟨{.addr i}, ∅, ∅⟩ m' d ∧
      refs m'.view region.sb.ninodes (update ino inum d) (inum, .addr i) =
        some (d.addrs i).toNat ∧
      m'.usedblocks = m.usedblocks +
        if refs m.view region.sb.ninodes ino (inum, .addr i) = none then 1 else 0) E := by
  have href : refs m.view region.sb.ninodes ino (inum, .addr i) = ptr ((ino inum).addrs i) :=
    refs_of_allocated hl
  unfold iappendAddr
  by_cases hi : (ino inum).addrs i = 0
  · have hnone : refs m.view region.sb.ninodes ino (inum, .addr i) = none := by
      rw [href, hi]
      rfl
    have hlt := hroom hnone
    have hnext := h.next hlt
    rw [if_pos hi, if_pos hnone]
    apply takeBlock_ends.bind
    rintro _ _ ⟨rfl, rfl⟩
    have hext := Extends.assignAddr (i := i) h.sound hnext hl hi
    rw [← h.view_taken hlt] at hext
    have hmem := hnext.mem h.sound
    refine ends_pure ⟨⟨⟨_, hext⟩, ?_, rfl⟩, ?_, rfl⟩
    · exact h.grown hext rfl (congrArg (· + 1) h.free) (Nat.le_succ _) fun _ _ => rfl
    · rw [refs_update_self hl (by exact hl.2.2)]
      simp only [slotRef, update_self]
      have hpos : 0 < m.freeblock := by have := region.two_lt; omega
      have hword : m.freeblock < 2 ^ 32 := lt_of_lt_of_le hmem.2 region.word
      rw [ptr_ofNat hpos hword, BitVec.toNat_ofNat, Nat.mod_eq_of_lt hword]
  · have hsome : refs m.view region.sb.ninodes ino (inum, .addr i) =
        some ((ino inum).addrs i).toNat := by
      rw [href]
      exact ptr_of_ne hi
    rw [if_neg hi, if_neg (by rw [hsome]; simp)]
    refine ends_pure ⟨?_, ?_, rfl⟩
    · exact (Grows.refl h).mono (empty_subset _) rfl (empty_subset _)
    · rw [update_eq_self]
      exact hsome

/-- The entry of the indirect block `a`. -/
theorem iappendEntry_ends {a : Nat} {j : Fin NINDIRECT} (h : Built m ino)
    (ha : refs m.view region.sb.ninodes ino (inum, .addr (Fin.last NDIRECT)) = some a)
    (hroom : refs m.view region.sb.ninodes ino (inum, .entry j) = none → m.usedblocks < size) :
    Ends (iappendEntry a j) m (fun x m' => Grows m ino inum ⟨{.entry j}, ∅, ∅⟩ m' (ino inum) ∧
      refs m'.view region.sb.ninodes ino (inum, .entry j) = some x ∧
      m'.usedblocks = m.usedblocks +
        if refs m.view region.sb.ninodes ino (inum, .entry j) = none then 1 else 0) E := by
  obtain ⟨hl, hlast⟩ := refs_eq_some ha
  have hlt := h.ref_lt ha
  have hview : m.view a = m.disk a := view_of_ge hlt.1
  have hlength : a < m.length := by
    rw [h.length]
    exact (h.sound.lo_le ha).2.1
  have href : refs m.view region.sb.ninodes ino (inum, .entry j) = ptr (getAddr (m.disk a) j) := by
    rw [refs_of_allocated hl]
    simp only [slotRef] at hlast ⊢
    rw [hlast, bind_some, hview]
  unfold iappendEntry
  apply (rsect_ends hlength).bind
  rintro _ _ ⟨rfl, rfl⟩
  by_cases hj : getAddr (m.disk a) j = 0
  · have hnone : refs m.view region.sb.ninodes ino (inum, .entry j) = none := by
      rw [href, hj]
      rfl
    have hused := hroom hnone
    have hnext := h.next hused
    rw [if_pos hj, if_pos hnone]
    apply takeBlock_ends.bind
    rintro _ _ ⟨rfl, rfl⟩
    apply (wsect_ends (m := m.taken) hlength).bind
    rintro _ _ rfl
    have hne : a ≠ bitmapSector := by
      have : bitmapSector < metablocks := by decide
      omega
    have hext := Extends.assignEntry (j := j) h.sound hnext hnone ha
    rw [← h.view_taken hused, hview, ← view_wsect hne] at hext
    refine ends_pure ⟨⟨⟨_, hext⟩, ?_, rfl⟩, ?_, rfl⟩
    · refine h.grown hext rfl (congrArg (· + 1) h.free) (Nat.le_succ _) fun b hb => ?_
      have hb : m.usedblocks + 1 ≤ b := hb
      exact update_of_ne (by omega) ..
    · have hheap := h.sound.heap_assign_entry (e := j) (hnext.mem h.sound) hnext.clear ha
      rw [← h.view_taken hused, hview, ← view_wsect hne] at hheap
      have hentry := congrFun (congrArg Heap.ref hheap) (inum, .entry j)
      exact hentry.trans (update_self ..)
  · have hsome : refs m.view region.sb.ninodes ino (inum, .entry j) =
        some (getAddr (m.disk a) j).toNat := by
      rw [href]
      exact ptr_of_ne hj
    rw [if_neg hj, if_neg (by rw [hsome]; simp)]
    exact ends_pure ⟨(Grows.refl h).mono (empty_subset _) rfl (empty_subset _), hsome, rfl⟩

end

/-! ## Files without holes -/

/-- The inode has the blocks of a file of `off` bytes, and no more. -/
def Filled (v : Nat → Block) (ino : Nat → Dinode) (inum off : Nat) : Prop :=
  ∀ s, (∃ b, refs v region.sb.ninodes ino (inum, s) = some b) ↔
    ∃ bn, bn * BSIZE < off ∧ s ∈ slotsOf bn

/-- The blocks of a file of `off` bytes, the indirect block among them. -/
def fileBlocks (off : Nat) : Nat :=
  (off + BSIZE - 1) / BSIZE + if NDIRECT * BSIZE < off then 1 else 0

theorem fileBlocks_mono {off' : Nat} (h : off ≤ off') : fileBlocks off ≤ fileBlocks off' := by
  unfold fileBlocks
  split_ifs <;> simp only [NDIRECT, BSIZE] at * <;> omega

/-- The blocks that are missing to write at the end of a file of `off` bytes. -/
def missing (off : Nat) : Nat :=
  (if off % BSIZE = 0 then 1 else 0) + if off = NDIRECT * BSIZE then 1 else 0

theorem fileBlocks_add (hn : 0 < n) (hle : n ≤ BSIZE - off % BSIZE) :
    fileBlocks (off + n) = fileBlocks off + missing off := by
  unfold fileBlocks missing
  split_ifs <;> simp only [NDIRECT, BSIZE] at * <;> omega

namespace Filled

variable {v v' : Nat → Block} {ino : Nat → Dinode} {inum off : Nat}

theorem slot (h : Filled v ino inum off) {bn : Nat} {s : Slot} (hs : slotOf bn = some s) :
    (∃ b, refs v region.sb.ninodes ino (inum, s) = some b) ↔ bn * BSIZE < off := by
  rw [h s]
  constructor
  · rintro ⟨bn', hlt, hmem | ⟨-, rfl⟩⟩
    · rwa [slotOf_inj hs hmem]
    · exact absurd rfl (slotOf_ne_last hs)
  · intro hlt
    exact ⟨bn, hlt, .inl hs⟩

theorem last (h : Filled v ino inum off) :
    (∃ b, refs v region.sb.ninodes ino (inum, .addr (Fin.last NDIRECT)) = some b) ↔
      NDIRECT * BSIZE < off := by
  rw [h]
  constructor
  · rintro ⟨bn, hlt, hmem | ⟨hle, -⟩⟩
    · exact absurd rfl (slotOf_ne_last hmem)
    · exact lt_of_le_of_lt (Nat.mul_le_mul_right _ hle) hlt
  · intro hlt
    exact ⟨NDIRECT, hlt, .inr ⟨le_rfl, rfl⟩⟩

theorem slot_none (h : Filled v ino inum off) {bn : Nat} {s : Slot} (hs : slotOf bn = some s) :
    refs v region.sb.ninodes ino (inum, s) = none ↔ off ≤ bn * BSIZE := by
  rw [← not_lt, ← h.slot hs, ← isSome_iff_exists, Bool.not_eq_true, Option.isSome_eq_false_iff,
    isNone_iff_eq_none]

theorem last_none (h : Filled v ino inum off) :
    refs v region.sb.ninodes ino (inum, .addr (Fin.last NDIRECT)) = none ↔
      off ≤ NDIRECT * BSIZE := by
  rw [← not_lt, ← h.last, ← isSome_iff_exists, Bool.not_eq_true, Option.isSome_eq_false_iff,
    isNone_iff_eq_none]

/-- The block behind the last byte is there now, and bytes have been added to it. -/
theorem grow {m m' : Mkfs} {c : Scope} {d : Dinode} {s : Slot} {x n : Nat}
    (h : Filled m.view ino inum off) (hg : Grows m ino inum c m' d)
    (hc : c.slots ⊆ slotsOf (off / BSIZE)) (hs : slotOf (off / BSIZE) = some s)
    (hx : refs m'.view region.sb.ninodes (update ino inum d) (inum, s) = some x)
    (hn : 0 < n) (hle : n ≤ BSIZE - off % BSIZE) :
    Filled m'.view (update ino inum d) inum (off + n) := by
  have hbelow : ∀ bn, bn * BSIZE < off + n ↔ bn * BSIZE < off ∨ bn = off / BSIZE := by
    intro bn
    simp only [BSIZE] at *
    omega
  intro t
  constructor
  · rintro ⟨b, hb⟩
    rcases hg.fresh hb with hold | ⟨-, hnew⟩
    · obtain ⟨bn, hlt, hmem⟩ := (h t).mp ⟨b, hold⟩
      exact ⟨bn, (hbelow bn).mpr (.inl hlt), hmem⟩
    · exact ⟨off / BSIZE, (hbelow _).mpr (.inr rfl), hc hnew⟩
  · rintro ⟨bn, hlt, hmem⟩
    rcases (hbelow bn).mp hlt with hlt | rfl
    · obtain ⟨b, hb⟩ := (h t).mpr ⟨bn, hlt, hmem⟩
      exact ⟨b, hg.keeps hb⟩
    · rcases hmem with hmem | ⟨hdirect, rfl⟩
      · obtain rfl := some.inj (hs.symm.trans hmem)
        exact ⟨x, hx⟩
      · -- the entry is in an indirect block
        unfold slotOf at hs
        rw [dif_neg (by omega)] at hs
        split at hs
        · cases hs
          obtain ⟨a, ha, -⟩ := refs_entry hx
          exact ⟨a, ha⟩
        · cases hs

end Filled

section

variable {m : Mkfs} {ino : Nat → Dinode} {inum : Nat} {E : Halt → Prop}

/-- The block behind the last byte of a file of `off` bytes. -/
theorem iappendBlock_ends {off : Nat} (h : Built m ino)
    (hl : Allocated region.sb.ninodes ino inum) (hf : Filled m.view ino inum off)
    (hfile : off / BSIZE < MAXFILE) (hroom : m.usedblocks + missing off ≤ size) :
    Ends (iappendBlock (ino inum) (off / BSIZE)) m (fun dx m' => ∃ s,
      Grows m ino inum ⟨slotsOf (off / BSIZE), ∅, ∅⟩ m' dx.1 ∧ slotOf (off / BSIZE) = some s ∧
      refs m'.view region.sb.ninodes (update ino inum dx.1) (inum, s) = some dx.2 ∧
      m'.usedblocks = m.usedblocks + missing off) E := by
  have haligned : off ≤ off / BSIZE * BSIZE ↔ off % BSIZE = 0 := by
    simp only [BSIZE]
    omega
  unfold iappendBlock
  by_cases hd : off / BSIZE < NDIRECT
  · have hs : slotOf (off / BSIZE) = some (.addr ⟨off / BSIZE, Nat.lt_succ_of_lt hd⟩) := dif_pos hd
    have hnone := (hf.slot_none hs).trans haligned
    have hmissing : missing off = if off % BSIZE = 0 then 1 else 0 := by
      have hne : off ≠ NDIRECT * BSIZE := by
        rintro rfl
        simp [BSIZE] at hd
      rw [missing, if_neg hne, Nat.add_zero]
    rw [hmissing] at hroom ⊢
    rw [dif_pos hd]
    refine (iappendAddr_ends h hl fun hn => ?_).bind ?_
    · rw [if_pos (hnone.mp hn)] at hroom
      exact hroom
    rintro d m' ⟨hg, href, hused⟩
    refine ends_pure ⟨_, hg.mono ?_ rfl (empty_subset _), hs, href, ?_⟩
    · rintro _ rfl
      exact .inl hs
    · rw [hused]
      simp only [hnone]
  · have hj : off / BSIZE - NDIRECT < NINDIRECT := by
      unfold MAXFILE at hfile
      omega
    have hs : slotOf (off / BSIZE) = some (.entry ⟨off / BSIZE - NDIRECT, hj⟩) := by
      unfold slotOf
      rw [dif_neg hd, dif_pos hj]
    have hnone := (hf.slot_none hs).trans haligned
    have hlast : refs m.view region.sb.ninodes ino (inum, .addr (Fin.last NDIRECT)) = none ↔
        off = NDIRECT * BSIZE := by
      have hle : NDIRECT * BSIZE ≤ off :=
        (Nat.le_div_iff_mul_le (by decide)).mp (not_lt.mp hd)
      rw [hf.last_none]
      exact ⟨fun hge => le_antisymm hge hle, fun heq => heq.le⟩
    rw [dif_neg hd]
    refine (iappendAddr_ends h hl fun hn => ?_).bind ?_
    · rw [missing, if_pos (hlast.mp hn)] at hroom
      refine lt_of_lt_of_le ?_ hroom
      exact Nat.lt_add_of_pos_right (Nat.succ_pos _)
    rintro d m1 ⟨hg1, href1, hused1⟩
    have hentry : refs m1.view region.sb.ninodes (update ino inum d)
        (inum, .entry ⟨off / BSIZE - NDIRECT, hj⟩) = none ↔ off % BSIZE = 0 := by
      rw [← hnone]
      constructor
      · intro hn
        cases hold : refs m.view region.sb.ninodes ino
            (inum, .entry ⟨off / BSIZE - NDIRECT, hj⟩) with
        | none => rfl
        | some b => rw [hg1.keeps hold] at hn; cases hn
      · intro hn
        cases hnew : refs m1.view region.sb.ninodes (update ino inum d)
            (inum, .entry ⟨off / BSIZE - NDIRECT, hj⟩) with
        | none => rfl
        | some b =>
          rcases hg1.fresh hnew with hb | ⟨-, hb⟩
          · rw [hn] at hb; cases hb
          · cases hb
    have hsum : m1.usedblocks + (if off % BSIZE = 0 then 1 else 0) = m.usedblocks + missing off := by
      rw [hused1, missing]
      simp only [hlast]
      rw [Nat.add_assoc, Nat.add_comm (ite ..)]
    refine (iappendEntry_ends (j := ⟨off / BSIZE - NDIRECT, hj⟩) hg1.built href1 fun hn => ?_).bind
      ?_
    · rw [if_pos (hentry.mp hn)] at hsum
      exact lt_of_lt_of_le (Nat.lt_succ_self _) (hsum.trans_le hroom)
    rintro x m2 ⟨hg2, href2, hused2⟩
    rw [update_self] at hg2
    refine ends_pure ⟨_, (hg1.trans hg2).mono ?_ (empty_union _)
      (union_subset (empty_subset _) (empty_subset _)), hs, href2, ?_⟩
    · rintro _ (rfl | rfl)
      · exact .inr ⟨by omega, rfl⟩
      · exact .inl hs
    · rw [hused2, ← hsum]
      simp only [hentry]

theorem Grows.write {s : Slot} {x : Nat} (h : Built m ino) (hs : s ≠ .addr (Fin.last NDIRECT))
    (hx : refs m.view region.sb.ninodes ino (inum, s) = some x) (f : Block → Block) :
    Grows m ino inum ⟨∅, {x}, {f}⟩
      { m with disk := update m.disk x (f (m.disk x)) } (ino inum) := by
  have hlt := h.ref_lt hx
  have hne : x ≠ bitmapSector := by
    have : bitmapSector < metablocks := by decide
    omega
  have hext := Extends.write h.sound hs hx f
  rw [view_of_ge hlt.1, ← view_wsect hne] at hext
  refine ⟨⟨_, hext⟩, h.grown hext rfl h.free le_rfl fun b hb => ?_, rfl⟩
  have hb : m.usedblocks ≤ b := hb
  exact update_of_ne (by omega) ..

/-- The loop of `iappend`, at the end of a file without holes. It stops when the file gets too
large, and for no other reason. -/
theorem iappendLoop_ends (turns : Nat) : ∀ {m : Mkfs} {ino : Nat → Dinode} (src : Nat → UInt8)
    (off n : Nat), n ≤ turns → Built m ino → Allocated region.sb.ninodes ino inum →
    Filled m.view ino inum off → m.usedblocks + fileBlocks (off + n) ≤ size + fileBlocks off →
    Ends (iappendLoop turns (ino inum) src off n) m (fun dx m' =>
      (∃ c, Grows m ino inum c m' dx.1) ∧ dx.2 = off + n ∧
      Filled m'.view (update ino inum dx.1) inum (off + n) ∧
      m'.usedblocks + fileBlocks off = m.usedblocks + fileBlocks (off + n) ∧
      (n = 0 ∨ off + n ≤ MAXFILE * BSIZE) ∧
      ∀ o, byteAt m'.view region.sb.ninodes (update ino inum dx.1) inum o =
        if off ≤ o ∧ o < off + n then src (o - off)
        else byteAt m.view region.sb.ninodes ino inum o) fun _ => MAXFILE * BSIZE < off + n := by
  have hnothing : ∀ {m : Mkfs} {ino : Nat → Dinode} {src : Nat → UInt8} {off : Nat},
      Built m ino → Filled m.view ino inum off →
      Ends (pure (ino inum, off)) m (fun dx m' =>
        (∃ c, Grows m ino inum c m' dx.1) ∧ dx.2 = off + 0 ∧
        Filled m'.view (update ino inum dx.1) inum (off + 0) ∧
        m'.usedblocks + fileBlocks off = m.usedblocks + fileBlocks (off + 0) ∧
        (0 = 0 ∨ off + 0 ≤ MAXFILE * BSIZE) ∧
        ∀ o, byteAt m'.view region.sb.ninodes (update ino inum dx.1) inum o =
          if off ≤ o ∧ o < off + 0 then src (o - off)
          else byteAt m.view region.sb.ninodes ino inum o)
        fun _ => MAXFILE * BSIZE < off + 0 := by
    intro m ino src off h hf
    refine ends_pure ⟨⟨_, Grows.refl h⟩, rfl, ?_, rfl, .inl rfl, ?_⟩
    · rw [update_eq_self]
      exact hf
    · intro o
      rw [update_eq_self, if_neg (by omega)]
  induction turns with
  | zero =>
    intro m ino src off n hle h _ hf _
    obtain rfl : n = 0 := by omega
    exact hnothing h hf
  | succ turns ih =>
    intro m ino src off n hle h hl hf hroom
    unfold iappendLoop
    by_cases hn : n = 0
    · subst hn
      rw [if_pos rfl]
      exact hnothing h hf
    rw [if_neg hn]
    by_cases hfile : off / BSIZE < MAXFILE
    swap
    · rw [if_neg hfile]
      apply ends_panic
      have := Nat.div_add_mod off BSIZE
      simp only [MAXFILE, NINDIRECT, NDIRECT, BSIZE] at *
      omega
    rw [if_pos hfile]
    have hmod : off - off / BSIZE * BSIZE = off % BSIZE := by
      simp only [BSIZE]
      omega
    have hstep : min n ((off / BSIZE + 1) * BSIZE - off) = min n (BSIZE - off % BSIZE) := by
      simp only [BSIZE]
      omega
    rw [hmod, hstep]
    obtain ⟨k, hk⟩ : ∃ k, min n (BSIZE - off % BSIZE) = k := ⟨_, rfl⟩
    have hoff : off % BSIZE < BSIZE := Nat.mod_lt _ (by decide)
    have hpos : 0 < k := by omega
    have hkn : k ≤ n := by omega
    have hkb : k ≤ BSIZE - off % BSIZE := by omega
    have hblocks := fileBlocks_add hpos hkb
    have hmono : fileBlocks (off + k) ≤ fileBlocks (off + n) := fileBlocks_mono (by omega)
    rw [hk]
    -- the block is there
    apply (iappendBlock_ends h hl hf hfile (by omega)).bind
    rintro ⟨d, x⟩ m1 ⟨s, hg1, hs, hx, hused⟩
    have hlength : x < m1.length := by
      rw [hg1.built.length]
      exact (hg1.built.sound.lo_le hx).2.1
    apply (rsect_ends hlength).bind
    rintro _ _ ⟨rfl, rfl⟩
    apply (wsect_ends hlength).bind
    rintro _ m2 hm2
    -- the bytes are in it
    have hg2 := Grows.write hg1.built (slotOf_ne_last hs) hx fun b => b.splice (off % BSIZE) src k
    rw [hm2, update_self] at hg2
    have hx2 := hg2.keeps hx
    have hg := hg1.trans hg2
    rw [update_idem] at hx2
    have hf2 := hf.grow hg (union_subset subset_rfl (empty_subset _)) hs hx2 hpos hkb
    have hused2 : m2.usedblocks = m1.usedblocks := by rw [← hm2]
    have hview2 : m2.view = update m1.view x
        ((m1.view x).splice (off % BSIZE) src k) := by
      have hlo := (hg1.built.ref_lt hx).1
      have hne : x ≠ bitmapSector := by
        have : bitmapSector < metablocks := by decide
        omega
      rw [← hm2, view_wsect hne, view_of_ge hlo]
    have hsum : off + k + (n - k) = off + n := by omega
    have hih := ih (fun i => src (i + k)) (off + k) (n - k) (by omega) hg.built (hg.allocated hl)
      hf2 (by rw [hsum]; omega)
    rw [update_self, hsum] at hih
    apply hih.mono
    rintro ⟨d', off'⟩ m3 ⟨⟨c, hg3⟩, hoff', hf3, hused3, hfits, hbyte⟩
    rw [update_idem] at hf3 hbyte
    refine ⟨⟨_, hg.trans hg3⟩, hoff', hf3, by omega, .inr ?_, ?_⟩
    · rcases hfits with hlast | hfits
      · have := Nat.div_add_mod off BSIZE
        simp only [MAXFILE, NINDIRECT, NDIRECT, BSIZE] at *
        omega
      · exact hfits
    · intro o
      obtain ⟨_, hext1⟩ := hg1.ext
      rw [hbyte, hview2, hg1.built.sound.byteAt_splice hs hx (by omega), hext1.byteAt_self]
      by_cases hlt : o < off + k
      · rw [if_neg (by omega)]
        by_cases hge : off ≤ o
        · rw [if_pos ⟨hge, hlt⟩, if_pos ⟨hge, by omega⟩]
        · rw [if_neg (by omega), if_neg (by omega)]
      · by_cases hin : o < off + n
        · rw [if_pos ⟨by omega, hin⟩, if_pos ⟨by omega, hin⟩]
          congr 1
          omega
        · rw [if_neg (by omega), if_neg (by omega), if_neg (by omega)]

end

/-! ## Inodes -/

/-- The image between two calls: the inodes are on the disk, and no file has a hole. -/
structure Whole (m : Mkfs) (ino : Nat → Dinode) : Prop where
  built : Built m ino
  stored : ∀ j, OnDisk region.sb.ninodes j → dino m.view j = ino j
  filled : ∀ j, Allocated region.sb.ninodes ino j → Filled m.view ino j (ino j).size.toNat
  fits : ∀ j, Allocated region.sb.ninodes ino j → (ino j).size.toNat ≤ MAXFILE * BSIZE
  numbered : ∀ j, Allocated region.sb.ninodes ino j ↔ 1 ≤ j ∧ j < m.freeinode

/-- The files that the image holds. -/
def contents (m : Mkfs) (ino : Nat → Dinode) : Nat → Vnode := nodes m.view region.sb.ninodes ino

theorem iblock_lt {j : Nat} (hj : OnDisk region.sb.ninodes j) : iblock j < bitmapSector := by
  have : j < 200 := hj.2
  simp only [iblock, bitmapSector, NINODES, IPB, BSIZE, DINODESZ]
  omega

/-- Inode `j` has been written. -/
def setInode (m : Mkfs) (j : Nat) (d : Dinode) : Mkfs := { m with disk := writeInode m.disk j d }

section

variable {m : Mkfs} {ino : Nat → Dinode} {j : Nat} {d : Dinode} {E : Halt → Prop}

theorem dino_view (hj : OnDisk region.sb.ninodes j) : dino m.view j = dino m.disk j :=
  dino_congr (view_of_ne (iblock_lt hj).ne)

theorem view_setInode (hj : OnDisk region.sb.ninodes j) :
    (m.setInode j d).view = writeInode m.view j d := by
  have hne := (iblock_lt hj).ne
  unfold setInode writeInode
  rw [view_wsect hne, view_of_ne hne]

theorem Built.length_iblock (h : Built m ino) (hj : OnDisk region.sb.ninodes j) :
    iblock j < m.length := by
  rw [h.length]
  exact (iblock_lt hj).trans (by decide)

theorem rinode_ends (h : Built m ino) (hj : OnDisk region.sb.ninodes j) :
    Ends (rinode j) m (fun d m' => dino m.view j = d ∧ m = m') E := by
  unfold rinode
  apply (rsect_ends (h.length_iblock hj)).bind
  rintro _ _ ⟨rfl, rfl⟩
  exact ends_pure ⟨dino_view hj, rfl⟩

theorem winode_ends (h : Built m ino) (hj : OnDisk region.sb.ninodes j) :
    Ends (winode j d) m (fun _ m' => m.setInode j d = m') E := by
  unfold winode
  apply (rsect_ends (h.length_iblock hj)).bind
  rintro _ _ ⟨rfl, rfl⟩
  exact wsect_ends (h.length_iblock hj)

/-- An inode is written whose blocks are those of before. -/
theorem Built.setInode (h : Built m ino) (hj : OnDisk region.sb.ninodes j)
    (hrefs : refs m.view region.sb.ninodes (update ino j d) =
      refs m.view region.sb.ninodes ino) :
    Built (m.setInode j d) (update ino j d) := by
  have hsound := h.sound.of_refs hrefs
  have hheap : region.heap (m.setInode j d).view (update ino j d) =
      region.heap m.view ino := by
    rw [view_setInode hj, hsound.heap_writeInode hj]
    exact Heap.ext rfl hrefs
  refine ⟨h.length, h.free, h.lo, ?_, ?_, ?_⟩
  · intro b hb
    have hb : m.usedblocks ≤ b := hb
    have hlo := h.lo
    have hlt := iblock_lt hj
    have : bitmapSector < metablocks := by decide
    exact (update_of_ne (by omega) ..).trans (h.fresh b hb)
  · rw [view_setInode hj]
    exact hsound.writeInode hj
  · rw [hheap]
    exact h.exact

theorem dino_setInode {i : Nat} (hj : OnDisk region.sb.ninodes j)
    (h : ∀ i, i ≠ j → OnDisk region.sb.ninodes i → dino m.view i = ino i)
    (hi : OnDisk region.sb.ninodes i) :
    dino (m.setInode j d).view i = update ino j d i := by
  rw [view_setInode hj]
  by_cases hij : i = j
  · subst hij
    rw [update_self, dino_writeInode_self]
  · rw [update_of_ne hij, dino_writeInode_of_ne hij, h i hij hi]

theorem refs_setInode (h : Sound region m.view ino) (hj : OnDisk region.sb.ninodes j) :
    refs (m.setInode j d).view region.sb.ninodes ino = refs m.view region.sb.ninodes ino := by
  rw [view_setInode hj]
  exact congrArg Heap.ref (h.heap_writeInode hj)

theorem allocated_update {ino' : Nat → Dinode} (h : ∀ i, i ≠ j → ino' i = ino i)
    (ht : (ino' j).type = (ino j).type) {i n : Nat} :
    Allocated n ino' i ↔ Allocated n ino i := by
  unfold Allocated
  by_cases hij : i = j
  · rw [hij, ht]
  · rw [h i hij]

theorem filled_congr {v v' : Nat → Block} {ino ino' : Nat → Dinode} {i off : Nat}
    (h : ∀ s, refs v' region.sb.ninodes ino' (i, s) = refs v region.sb.ninodes ino (i, s)) :
    Filled v' ino' i off ↔ Filled v ino i off := by
  unfold Filled
  simp only [h]

end

theorem Grows.refs_of_ne {m' : Mkfs} {i : Nat} {c : Scope} {d : Dinode}
    (h : Grows m ino inum c m' d) (hi : i ≠ inum) (s : Slot) :
    refs m'.view region.sb.ninodes (update ino inum d) (i, s) =
      refs m.view region.sb.ninodes ino (i, s) := by
  cases hold : refs m.view region.sb.ninodes ino (i, s) with
  | some b => exact h.keeps hold
  | none =>
    cases hnew : refs m'.view region.sb.ninodes (update ino inum d) (i, s) with
    | none => rfl
    | some b =>
      rcases h.fresh hnew with hb | hb
      · rw [hold] at hb; cases hb
      · exact absurd hb.1 hi

/-- `iappend` adds bytes at the end of a file. It stops when the file gets too large, and for no
other reason. -/
theorem iappend_ends {src : Nat → UInt8} (h : Whole m ino)
    (hl : Allocated region.sb.ninodes ino inum)
    (hroom : m.usedblocks + fileBlocks ((m.contents ino inum).size + n) ≤
      size + fileBlocks (m.contents ino inum).size) :
    Ends (iappend inum src n) m (fun _ m' => ∃ ino', Whole m' ino' ∧
      m'.contents ino' = update (m.contents ino) inum
        ((m.contents ino inum).put src (m.contents ino inum).size n) ∧
      m'.freeinode = m.freeinode ∧
      m'.usedblocks + fileBlocks (m.contents ino inum).size =
        m.usedblocks + fileBlocks ((m.contents ino inum).size + n))
      fun _ => MAXFILE * BSIZE < (m.contents ino inum).size + n := by
  have hj := hl.onDisk
  have hsize : (m.contents ino inum).size = (ino inum).size.toNat := by
    unfold contents
    rw [nodes_of_allocated hl]
    rfl
  rw [hsize] at hroom ⊢
  unfold iappend
  apply (rinode_ends h.built hj).bind
  rintro _ _ ⟨rfl, rfl⟩
  rw [h.stored inum hj]
  apply (iappendLoop_ends n src _ n le_rfl h.built hl (h.filled inum hl) hroom).bind
  rintro ⟨d, off⟩ m1 ⟨⟨c, hg⟩, rfl, hf, hused, hfits, hbyte⟩
  change Grows m ino inum c m1 d at hg
  apply (winode_ends hg.built hj).mono
  rintro _ _ rfl
  obtain ⟨_, hext⟩ := hg.ext
  have hl1 := hg.allocated hl
  -- the size is the only field of the inode that is written last
  obtain ⟨d', hd'⟩ : ∃ d', { d with size := BitVec.ofNat 32 ((ino inum).size.toNat + n) } = d' :=
    ⟨_, rfl⟩
  have htype : d'.type = (ino inum).type := by rw [← hd', hext.inode]
  have haddrs : d'.addrs = d.addrs := by rw [← hd']
  have hrefs : refs m1.view region.sb.ninodes (update ino inum d') =
      refs m1.view region.sb.ninodes (update ino inum d) := by
    have hsame := refs_setFields (v := m1.view) (d := d') hl1 (by rw [htype]; exact hl.2.2)
      (by rw [update_self]; exact haddrs)
    rwa [update_idem] at hsame
  have hbuilt := hg.built.setInode (d := d') hj (by rw [update_idem]; exact hrefs)
  rw [update_idem] at hbuilt
  have hall : ∀ {i k}, Allocated k (update ino inum d') i ↔ Allocated k ino i :=
    allocated_update (fun i hi => update_of_ne hi ..)
      (by rw [update_self]; exact htype)
  have hrefs' : ∀ p, refs (m1.setInode inum d').view region.sb.ninodes
      (update ino inum d') p =
      refs m1.view region.sb.ninodes (update ino inum d) p := fun p => by
    rw [refs_setInode (hg.built.sound.of_refs hrefs) hj, hrefs]
  have hsize' : d'.size.toNat = (ino inum).size.toNat + n := by
    rw [← hd', BitVec.toNat_ofNat]
    apply Nat.mod_eq_of_lt
    rcases hfits with rfl | hfits
    · exact (ino inum).size.isLt
    · exact lt_of_le_of_lt hfits (by decide)
  rw [hd']
  refine ⟨update ino inum d', ⟨hbuilt, ?_, ?_, ?_, ?_⟩, ?_, hg.freeinode, hused⟩
  · intro i hi
    refine dino_setInode hj (fun i hij hi => ?_) hi
    rw [hext.dino hi, h.stored i hi]
  · intro i hi
    rw [filled_congr fun s => hrefs' (i, s)]
    by_cases hij : i = inum
    · subst hij
      rw [update_self, hsize']
      exact hf
    · rw [filled_congr fun s => hg.refs_of_ne hij s, update_of_ne hij]
      exact h.filled i (hall.mp hi)
  · intro i hi
    by_cases hij : i = inum
    · subst hij
      rw [update_self, hsize']
      rcases hfits with rfl | hfits
      · exact h.fits i hl
      · exact hfits
    · rw [update_of_ne hij]
      exact h.fits i (hall.mp hi)
  · intro i
    rw [hall]
    exact (h.numbered i).trans (by rw [← hg.freeinode]; rfl)
  · have hset := nodes_setFields (v := m1.view) (d := d') hl1 (by rw [htype]; exact hl.2.2)
      (by rw [update_self]; exact haddrs)
    rw [update_idem, hext.nodes_grown hl, update_idem, update_self]
      at hset
    have hsound : Sound region m1.view (update ino inum d') := hg.built.sound.of_refs hrefs
    unfold contents
    rw [view_setInode hj, hsound.nodes_writeInode hj, hset, nodes_of_allocated hl]
    congr 1
    have hfields : d'.major = (ino inum).major ∧ d'.minor = (ino inum).minor ∧
        d'.nlink = (ino inum).nlink := by
      rw [← hd', hext.inode]
      exact ⟨rfl, rfl, rfl⟩
    apply Vnode.ext
    · exact htype
    · exact hfields.1
    · exact hfields.2.1
    · exact hfields.2.2
    · change d'.size.toNat = _
      rw [hsize']
      by_cases hn : n = 0
      · simp [Dinode.node, Vnode.put, hn]
      · simp [Dinode.node, Vnode.put, Nat.pos_of_ne_zero hn]
    · exact funext hbyte

end Xv6.Mkfs
