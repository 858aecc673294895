import Xv6.Lib.Heap
import Xv6.Fs.Sees
import Xv6.Fs.Inode

/-!
# Who refers to which block

The block numbers in the inodes and in their indirect blocks, read as a heap: the units are the
blocks, a unit is in use when its bit of the bitmap is set, and a position is one block number of
one inode. The inodes are given by a function of their own, because a cached inode is ahead of the
disk until `iupdate`.
-/

namespace Xv6

open Function Option

open Lib

/-- A block number of an inode: one of `addrs`, or one of the indirect block. -/
inductive Slot where
  | addr (i : Fin (NDIRECT + 1))
  | entry (j : Fin NINDIRECT)
  deriving DecidableEq

/-- A block number of some inode. -/
abbrev Pos : Type := Nat × Slot

/-- A block number; zero stands for no block. -/
def ptr (a : BitVec 32) : Option Nat := if a = 0 then none else some a.toNat

@[simp] theorem ptr_zero : ptr 0 = none := rfl

theorem ptr_of_ne {a : BitVec 32} (h : a ≠ 0) : ptr a = some a.toNat := if_neg h

theorem ptr_ofNat {b : Nat} (h0 : 0 < b) (h : b < 2 ^ 32) : ptr (BitVec.ofNat 32 b) = some b := by
  have hn : (BitVec.ofNat 32 b).toNat = b := by
    rw [BitVec.toNat_ofNat, Nat.mod_eq_of_lt h]
  have hne : BitVec.ofNat 32 b ≠ 0 := fun heq => by
    rw [heq] at hn
    simp at hn
    omega
  rw [ptr_of_ne hne, hn]

theorem ptr_eq_some {a : BitVec 32} {b : Nat} (h : ptr a = some b) : a ≠ 0 ∧ a.toNat = b := by
  unfold ptr at h
  split at h
  · cases h
  · rename_i hne
    exact ⟨hne, some.inj h⟩

/-- The block at a position of inode `d`. -/
def slotRef (v : Nat → Block) (d : Dinode) : Slot → Option Nat
  | .addr i => ptr (d.addrs i)
  | .entry j => (ptr (d.addrs (Fin.last NDIRECT))).bind fun a => ptr (getAddr (v a) j)

/-- Inode `inum` is one of `n` inodes of the disk and allocated. -/
def Allocated (n : Nat) (ino : Nat → Dinode) (inum : Nat) : Prop :=
  1 ≤ inum ∧ inum < n ∧ (ino inum).type ≠ 0

instance (n : Nat) (ino : Nat → Dinode) (inum : Nat) : Decidable (Allocated n ino inum) :=
  inferInstanceAs (Decidable (_ ∧ _ ∧ _))

/-- The block at each position. -/
def refs (v : Nat → Block) (n : Nat) (ino : Nat → Dinode) (p : Pos) : Option Nat :=
  if Allocated n ino p.1 then slotRef v (ino p.1) p.2 else none

/-- Where the blocks of files may lie: from `lo`, behind the metadata, to `hi`. -/
structure Region where
  sb : Superblock
  lo : Nat
  hi : Nat
  inodes : sb.ninodes / IPB + 3 < lo
  order : lo ≤ hi
  bitmap : ∀ b < max hi sb.size, bblock b sb.ninodes < lo
  word : hi ≤ 2 ^ 32

namespace Region

variable (r : Region)

theorem iblock_lt {inum : Nat} (h : inum < r.sb.ninodes) : iblock inum < r.lo := by
  have := r.inodes
  have : inum / IPB ≤ r.sb.ninodes / IPB := Nat.div_le_div_right (by omega)
  unfold iblock
  omega

/-- The blocks that have a bit. -/
def top : Nat := max r.hi r.sb.size

theorem hi_le : r.hi ≤ r.top := le_max_left ..

theorem size_le : r.sb.size ≤ r.top := le_max_right ..

theorem two_lt : 2 < r.lo := lt_of_le_of_lt (Nat.le_add_left 2 (_ + 1)) r.inodes

/-- The blocks of the region, as the flat disk `v` and the inodes `ino` have them. -/
def heap (v : Nat → Block) (ino : Nat → Dinode) : Heap Pos Nat where
  used := {b | r.lo ≤ b ∧ b < r.hi ∧ Kernel.bit v r.sb.ninodes b = true}
  ref := refs v r.sb.ninodes ino

end Region

/-- The file system is sound: files own the blocks they refer to, and the blocks outside the region
are not for files. -/
structure Sound (r : Region) (v : Nat → Block) (ino : Nat → Dinode) : Prop where
  super : getSuperblock (v 1) = r.sb
  reserved : ∀ b < r.top, ¬ (r.lo ≤ b ∧ b < r.hi) → Kernel.bit v r.sb.ninodes b = true
  owned : (r.heap v ino).Owned

/-! ## The bitmap -/

theorem bblock_inj {b c n : Nat} (h : bblock c n = bblock b n) (hm : c % BPB = b % BPB) :
    c = b := by
  have hd : c / BPB = b / BPB := by
    unfold bblock at h
    omega
  rw [← Nat.div_add_mod c BPB, ← Nat.div_add_mod b BPB, hd, hm]

theorem two_lt_bblock (b n : Nat) : 2 < bblock b n := Nat.le_add_left 3 (b / BPB + n / IPB)

section

variable {v v' : Nat → Block} {n b c : Nat}

theorem bit_congr (h : v' (bblock c n) = v (bblock c n)) :
    Kernel.bit v' n c = Kernel.bit v n c := by
  unfold Kernel.bit
  rw [h]

theorem bit_markUsed : Kernel.bit (Kernel.markUsed v n b) n c =
    (decide (c = b) || Kernel.bit v n c) := by
  unfold Kernel.bit Kernel.markUsed
  by_cases h : bblock c n = bblock b n
  · rw [h, update_self, testBit_setBit (Nat.mod_lt _ (by decide))]
    congr 1
    exact decide_eq_decide.mpr ⟨bblock_inj h, fun heq => by rw [heq]⟩
  · rw [update_of_ne h, decide_eq_false (fun heq => h (by rw [heq])), Bool.false_or]

theorem bit_markFree : Kernel.bit (Kernel.markFree v n b) n c =
    (!decide (c = b) && Kernel.bit v n c) := by
  unfold Kernel.bit Kernel.markFree
  by_cases h : bblock c n = bblock b n
  · rw [h, update_self, testBit_clearBit (Nat.mod_lt _ (by decide))]
    congr 2
    exact decide_eq_decide.mpr ⟨bblock_inj h, fun heq => by rw [heq]⟩
  · rw [update_of_ne h, decide_eq_false (fun heq => h (by rw [heq])), Bool.not_false,
      Bool.true_and]

end

/-! ## References -/

section

variable {v v' : Nat → Block} {n inum : Nat} {ino ino' : Nat → Dinode}

variable {s : Slot} {p : Pos} {b : Nat} {d : Dinode}

theorem refs_of_allocated (h : Allocated n ino inum) :
    refs v n ino (inum, s) = slotRef v (ino inum) s := if_pos h

theorem refs_eq_some (h : refs v n ino p = some b) :
    Allocated n ino p.1 ∧ slotRef v (ino p.1) p.2 = some b := by
  obtain ⟨hl, h⟩ := ite_none_right_eq_some.mp h
  exact ⟨hl, h⟩

theorem refs_entry {j : Nat} {e : Fin NINDIRECT} (h : refs v n ino (j, .entry e) = some b) :
    ∃ a, refs v n ino (j, .addr (Fin.last NDIRECT)) = some a ∧ ptr (getAddr (v a) e) = some b := by
  obtain ⟨hl, hs⟩ := refs_eq_some h
  obtain ⟨a, ha, hb⟩ := bind_eq_some_iff.mp hs
  exact ⟨a, by rw [refs_of_allocated hl]; exact ha, hb⟩

/-- References only look at the contents of indirect blocks. -/
theorem refs_congr_view (h : ∀ j a, refs v n ino (j, .addr (Fin.last NDIRECT)) = some a →
    v' a = v a) : refs v' n ino = refs v n ino := by
  funext ⟨j, s⟩
  unfold refs
  split
  · rename_i hl
    cases s with
    | addr i => rfl
    | entry e =>
      unfold slotRef
      cases hp : ptr ((ino j).addrs (Fin.last NDIRECT)) with
      | none => rfl
      | some a =>
        have ha : v' a = v a := h j a (by rw [refs_of_allocated hl]; exact hp)
        simp only [bind_some, ha]
  · rfl

/-- Changing one inode changes the references at its positions only. -/
theorem refs_update_of_ne (h : p.1 ≠ inum) : refs v n (update ino inum d) p = refs v n ino p := by
  have hiff : Allocated n (update ino inum d) p.1 ↔ Allocated n ino p.1 := by
    unfold Allocated
    rw [update_of_ne h]
  unfold refs
  simp only [hiff, update_of_ne h]

theorem refs_update_self (h : Allocated n ino inum) (ht : d.type ≠ 0) :
    refs v n (update ino inum d) (inum, s) = slotRef v d s := by
  have : Allocated n (update ino inum d) inum := ⟨h.1, h.2.1, by simpa using ht⟩
  rw [refs_of_allocated this, update_self]

theorem refs_update_congr
    (h : ∀ s, refs v n (update ino inum d) (inum, s) = refs v n ino (inum, s)) :
    refs v n (update ino inum d) = refs v n ino := by
  funext ⟨j, s⟩
  by_cases hj : j = inum
  · subst hj; exact h s
  · exact refs_update_of_ne hj

theorem refs_setFields (h : Allocated n ino inum) (ht : d.type ≠ 0)
    (haddrs : d.addrs = (ino inum).addrs) :
    refs v n (update ino inum d) = refs v n ino := by
  apply refs_update_congr
  intro s
  rw [refs_update_self h ht, refs_of_allocated h]
  cases s <;> simp only [slotRef, haddrs]

end

/-! ## Steps of the heap -/

namespace Sound

variable {r : Region} {v : Nat → Block} {ino : Nat → Dinode} {inum b : Nat}

variable {p : Pos} {a c : Nat} {d : Block} {i : Fin (NDIRECT + 1)} {e : Fin NINDIRECT}

theorem lo_le (h : Sound r v ino) (hp : refs v r.sb.ninodes ino p = some b) :
    r.lo ≤ b ∧ b < r.hi ∧ Kernel.bit v r.sb.ninodes b = true := h.owned.mem hp

theorem mem_of_clear (h : Sound r v ino) (hlt : b < r.sb.size)
    (hb : Kernel.bit v r.sb.ninodes b = false) : r.lo ≤ b ∧ b < r.hi := by
  by_contra hnot
  rw [h.reserved b (lt_of_lt_of_le hlt r.size_le) hnot] at hb
  cases hb

theorem bit_update_of_ge {w : Nat → Block} (ha : r.lo ≤ a) (hc : c < r.top) :
    Kernel.bit (update w a d) r.sb.ninodes c =
      Kernel.bit w r.sb.ninodes c :=
  bit_congr (update_of_ne (by have := r.bitmap c hc; omega) ..)

/-- Soundness depends on the superblock, the bitmap and the references. -/
theorem of_heap {v' : Nat → Block} {ino' : Nat → Dinode} (h : Sound r v ino)
    (h1 : v' 1 = v 1)
    (hbit : ∀ c < r.top, ¬ (r.lo ≤ c ∧ c < r.hi) →
      Kernel.bit v' r.sb.ninodes c = Kernel.bit v r.sb.ninodes c)
    (hs : Heap.Steps (r.heap v ino) (r.heap v' ino')) : Sound r v' ino' :=
  ⟨by rw [h1]; exact h.super, fun c hc hn => by rw [hbit c hc hn]; exact h.reserved c hc hn,
    h.owned.steps hs⟩

theorem heap_write (h : Sound r v ino) (hp : refs v r.sb.ninodes ino p = some b)
    (hne : p.2 ≠ .addr (Fin.last NDIRECT)) : r.heap (update v b d) ino = r.heap v ino := by
  have hlo := (h.lo_le hp).1
  refine Heap.ext ?_ (refs_congr_view fun j a hj => ?_)
  · ext c
    simp only [Region.heap, Set.mem_ofPred_eq]
    refine and_congr_right fun _ => and_congr_right fun hc => ?_
    rw [bit_update_of_ge hlo (lt_of_lt_of_le hc r.hi_le)]
  · refine update_of_ne (fun hab => hne ?_) ..
    rw [h.owned.inj hp (hab ▸ hj)]

theorem heap_meta (h : Sound r v ino) {s : Nat} (hs : s < r.lo)
    (hbm : ∀ c < r.top, bblock c r.sb.ninodes ≠ s) :
    r.heap (update v s d) ino = r.heap v ino := by
  refine Heap.ext ?_ (refs_congr_view fun j a hj => ?_)
  · ext c
    simp only [Region.heap, Set.mem_ofPred_eq]
    refine and_congr_right fun _ => and_congr_right fun hc => ?_
    rw [bit_congr (update_of_ne (hbm c (lt_of_lt_of_le hc r.hi_le)) ..)]
  · have := (h.lo_le hj).1
    exact update_of_ne (by omega) ..

/-- The flat disk after `balloc` has returned `b`. -/
def allocated (v : Nat → Block) (n b : Nat) : Nat → Block :=
  update (Kernel.markUsed v n b) b (Bytes.zero BSIZE)

theorem allocated_of_ne {v : Nat → Block} {n b : Nat} (h1 : a ≠ b) (h2 : a ≠ bblock b n) :
    allocated v n b a = v a := by
  unfold allocated Kernel.markUsed
  rw [update_of_ne h1, update_of_ne h2]

theorem bit_allocated (hb : r.lo ≤ b) (hc : c < r.top) :
    Kernel.bit (allocated v r.sb.ninodes b) r.sb.ninodes c =
      (decide (c = b) || Kernel.bit v r.sb.ninodes c) := by
  unfold allocated
  rw [bit_update_of_ge hb hc, bit_markUsed]

theorem ne_of_clear (h : Sound r v ino) (hclear : Kernel.bit v r.sb.ninodes b = false)
    (hp : refs v r.sb.ninodes ino p = some a) : a ≠ b := by
  rintro rfl
  rw [(h.lo_le hp).2.2] at hclear
  cases hclear

variable (h : Sound r v ino) (hb : r.lo ≤ b ∧ b < r.hi)
  (hclear : Kernel.bit v r.sb.ninodes b = false)

include h hb hclear in
theorem allocated_of_ref (hp : refs v r.sb.ninodes ino p = some a) :
    allocated v r.sb.ninodes b a = v a := by
  have := (h.lo_le hp).1
  have := r.bitmap b (lt_of_lt_of_le hb.2 r.hi_le)
  exact allocated_of_ne (h.ne_of_clear hclear hp) (by omega)

theorem used_allocated (hb : r.lo ≤ b ∧ b < r.hi) :
    {c | r.lo ≤ c ∧ c < r.hi ∧
      Kernel.bit (allocated v r.sb.ninodes b) r.sb.ninodes c = true} =
    insert b (r.heap v ino).used := by
  ext c
  simp only [Region.heap, Set.mem_ofPred_eq, Set.mem_insert_iff]
  constructor
  · rintro ⟨h1, h2, h3⟩
    rw [bit_allocated hb.1 (lt_of_lt_of_le h2 r.hi_le), Bool.or_eq_true, decide_eq_true_eq] at h3
    exact h3.imp_right fun h3 => ⟨h1, h2, h3⟩
  · rintro (rfl | ⟨h1, h2, h3⟩)
    · exact ⟨hb.1, hb.2, by rw [bit_allocated hb.1 (lt_of_lt_of_le hb.2 r.hi_le)]; simp⟩
    · exact ⟨h1, h2, by rw [bit_allocated hb.1 (lt_of_lt_of_le h2 r.hi_le), h3, Bool.or_true]⟩

include h hb hclear in
theorem heap_assign_addr (hl : Allocated r.sb.ninodes ino inum) (hi : (ino inum).addrs i = 0) :
    r.heap (allocated v r.sb.ninodes b) (update ino inum { ino inum with
      addrs := update (ino inum).addrs i (BitVec.ofNat 32 b) }) =
    (r.heap v ino).assign (inum, .addr i) b := by
  apply Heap.ext (used_allocated hb)
  have hptr : ptr (BitVec.ofNat 32 b) = some b :=
    ptr_ofNat (by have := r.two_lt; omega) (lt_of_lt_of_le hb.2 r.word)
  have hview : refs (allocated v r.sb.ninodes b) r.sb.ninodes ino = refs v r.sb.ninodes ino :=
    refs_congr_view fun j a hj => h.allocated_of_ref hb hclear hj
  funext ⟨j, s⟩
  change refs _ _ _ _ = update (refs v r.sb.ninodes ino) (inum, .addr i) (some b) (j, s)
  by_cases hj : j = inum
  · subst hj
    rw [refs_update_self hl (by exact hl.2.2)]
    by_cases hs : s = .addr i
    · subst hs
      rw [update_self]
      simpa [slotRef] using hptr
    · rw [update_of_ne (by simpa using hs), ← hview, refs_of_allocated hl]
      cases s with
      | addr i' =>
        have hii : i' ≠ i := fun heq => hs (by rw [heq])
        simp only [slotRef, update_of_ne hii]
      | entry e =>
        -- a new indirect block has no entries, and there was none before
        by_cases hlast : i = Fin.last NDIRECT
        · subst hlast
          simp only [slotRef, update_self, hptr, bind_some, hi, ptr_zero,
            Option.bind_none]
          unfold allocated
          rw [update_self, getAddr_zero, ptr_zero]
        · simp only [slotRef, update_of_ne (Ne.symm hlast)]
  · rw [refs_update_of_ne hj, update_of_ne (by simp [hj]), hview]

include h hb hclear in
theorem heap_assign_entry (ha : refs v r.sb.ninodes ino (inum, .addr (Fin.last NDIRECT)) = some a) :
    r.heap (update (allocated v r.sb.ninodes b) a
      (putAddr (v a) e (BitVec.ofNat 32 b))) ino = (r.heap v ino).assign (inum, .entry e) b := by
  have halo := h.lo_le ha
  have hptr : ptr (BitVec.ofNat 32 b) = some b :=
    ptr_ofNat (by have := r.two_lt; omega) (lt_of_lt_of_le hb.2 r.word)
  refine Heap.ext ?_ ?_
  · rw [show ((r.heap v ino).assign (inum, .entry e) b).used = insert b (r.heap v ino).used from rfl,
      ← used_allocated hb]
    ext c
    simp only [Region.heap, Set.mem_ofPred_eq]
    refine and_congr_right fun _ => and_congr_right fun hc => ?_
    rw [bit_update_of_ge halo.1 (lt_of_lt_of_le hc r.hi_le)]
  funext ⟨j, s⟩
  change refs _ _ _ _ = update (refs v r.sb.ninodes ino) (inum, .entry e) (some b) (j, s)
  by_cases hl : Allocated r.sb.ninodes ino j
  · rw [refs_of_allocated hl]
    cases s with
    | addr i => rw [update_of_ne (by simp), refs_of_allocated hl]; rfl
    | entry e' =>
      cases hp : ptr ((ino j).addrs (Fin.last NDIRECT)) with
      | none =>
        have hne : j ≠ inum := by
          rintro rfl
          rw [refs_of_allocated hl] at ha
          rw [show slotRef v (ino j) (.addr (Fin.last NDIRECT)) = none from hp] at ha
          cases ha
        rw [update_of_ne (by simp [hne]), refs_of_allocated hl]
        simp only [slotRef, hp, Option.bind_none]
      | some a' =>
        have ha' : refs v r.sb.ninodes ino (j, .addr (Fin.last NDIRECT)) = some a' := by
          rw [refs_of_allocated hl]; exact hp
        simp only [slotRef, hp, bind_some]
        by_cases hj : j = inum
        · subst hj
          obtain rfl : a' = a := some.inj (ha'.symm.trans ha)
          rw [update_self]
          by_cases hee : e' = e
          · subst hee
            rw [getAddr_putAddr_self e'.isLt, hptr, update_self]
          · rw [getAddr_putAddr_of_ne (by simpa [Fin.ext_iff] using hee),
              update_of_ne (by simpa using hee), refs_of_allocated hl]
            simp only [slotRef, hp, bind_some]
        · -- another inode's indirect block is another block
          have haa : a' ≠ a := fun heq => by
            have := h.owned.inj (heq ▸ ha') ha
            exact hj (by simpa using this)
          rw [update_of_ne haa, update_of_ne (by simp [hj]),
            h.allocated_of_ref hb hclear ha', refs_of_allocated hl]
          simp only [slotRef, hp, bind_some]
  · have hne : j ≠ inum := by
      rintro rfl
      exact hl (refs_eq_some ha).1
    rw [update_of_ne (by simp [hne])]
    unfold refs
    rw [if_neg hl, if_neg hl]

theorem allocated_one (hb : r.lo ≤ b) : allocated v r.sb.ninodes b 1 = v 1 := by
  have := r.two_lt
  have := two_lt_bblock b r.sb.ninodes
  exact allocated_of_ne (by omega) (by omega)

theorem bit_allocated_of_not_mem (hb : r.lo ≤ b ∧ b < r.hi) (hc : c < r.top)
    (hn : ¬ (r.lo ≤ c ∧ c < r.hi)) :
    Kernel.bit (allocated v r.sb.ninodes b) r.sb.ninodes c = Kernel.bit v r.sb.ninodes c := by
  have hcb : c ≠ b := fun heq => hn (by rw [heq]; exact hb)
  rw [bit_allocated hb.1 hc, decide_eq_false hcb, Bool.false_or]

include h hb hclear in
/-- The heap takes a step when an empty `addrs` field gets a free block. -/
theorem step_assign_addr (hl : Allocated r.sb.ninodes ino inum) (hi : (ino inum).addrs i = 0) :
    Heap.Step (r.heap v ino) (r.heap (allocated v r.sb.ninodes b) (update ino inum
      { ino inum with addrs := update (ino inum).addrs i (BitVec.ofNat 32 b) })) := by
  rw [h.heap_assign_addr hb hclear hl hi]
  refine .assign (fun hu => ?_) ?_
  · have hbit : Kernel.bit v r.sb.ninodes b = true := hu.2.2
    rw [hclear] at hbit
    cases hbit
  · change refs v r.sb.ninodes ino (inum, .addr i) = none
    rw [refs_of_allocated hl]
    exact congrArg ptr hi

include h hb hclear in
theorem assignAddr (hl : Allocated r.sb.ninodes ino inum) (hi : (ino inum).addrs i = 0) :
    Sound r (allocated v r.sb.ninodes b) (update ino inum
      { ino inum with addrs := update (ino inum).addrs i (BitVec.ofNat 32 b) }) :=
  h.of_heap (allocated_one hb.1) (fun _ hc hn => bit_allocated_of_not_mem hb hc hn)
    (.single (h.step_assign_addr hb hclear hl hi))

include h hb hclear in
/-- The heap takes a step when an empty entry of the indirect block gets a free block. -/
theorem step_assign_entry (he : refs v r.sb.ninodes ino (inum, .entry e) = none)
    (ha : refs v r.sb.ninodes ino (inum, .addr (Fin.last NDIRECT)) = some a) :
    Heap.Step (r.heap v ino) (r.heap (update (allocated v r.sb.ninodes b) a
      (putAddr (v a) e (BitVec.ofNat 32 b))) ino) := by
  rw [h.heap_assign_entry hb hclear ha]
  refine .assign (fun hu => ?_) he
  have hbit : Kernel.bit v r.sb.ninodes b = true := hu.2.2
  rw [hclear] at hbit
  cases hbit

include h hb hclear in
theorem assignEntry (he : refs v r.sb.ninodes ino (inum, .entry e) = none)
    (ha : refs v r.sb.ninodes ino (inum, .addr (Fin.last NDIRECT)) = some a) :
    Sound r (update (allocated v r.sb.ninodes b) a
      (putAddr (v a) e (BitVec.ofNat 32 b))) ino := by
  have halo := (h.lo_le ha).1
  have htwo := r.two_lt
  refine h.of_heap ?_ (fun c hc hn => ?_) (.single (h.step_assign_entry hb hclear he ha))
  · rw [update_of_ne (by omega)]
    exact allocated_one hb.1
  · rw [bit_update_of_ge halo hc]
    exact bit_allocated_of_not_mem hb hc hn

theorem write (h : Sound r v ino) (hp : refs v r.sb.ninodes ino p = some b)
    (hne : p.2 ≠ .addr (Fin.last NDIRECT)) :
    Sound r (update v b d) ino := by
  have hlo := (h.lo_le hp).1
  have htwo := r.two_lt
  apply h.of_heap (update_of_ne (by omega) ..) (fun c hc _ => bit_update_of_ge hlo hc)
  rw [h.heap_write hp hne]

end Sound

end Xv6
