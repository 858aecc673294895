import Xv6.Fs.Bmap

/-!
# Truncating a file

`itrunc` gives back the blocks of an inode one by one. While it works through the indirect block,
the block still lists entries that are free already, so there the heap runs ahead of what the disk
says; it is in step again when the inode has let go of the indirect block.
-/

namespace Xv6

open Function List

open Lib Act

/-- Not a call of `balloc`, and only metadata is logged. -/
def Quiet (r : Region) : FsEvent → Prop
  | .balloc _ _ => False
  | .logWrite s => s < r.lo
  | _ => True

theorem Quiet.honest {r : Region} {ev : FsEvent} (h : Quiet r ev) : Honest r ev := by
  cases ev with
  | balloc => exact h.elim
  | _ => trivial

/-! ## Inodes on the disk -/

/-- Inode `inum` as the disk has it. -/
def dino (v : Nat → Block) (inum : Nat) : Dinode := getDinode (v (iblock inum)) (inum % IPB)

/-- The flat disk after inode `inum` has been written. -/
def writeInode (v : Nat → Block) (inum : Nat) (d : Dinode) : Nat → Block :=
  update v (iblock inum) (putDinode (v (iblock inum)) (inum % IPB) d)

theorem dino_writeInode_self {v : Nat → Block} {inum : Nat} {d : Dinode} :
    dino (writeInode v inum d) inum = d := by
  unfold dino writeInode
  rw [update_self, getDinode_putDinode_self (Nat.mod_lt _ (by decide))]

theorem dino_writeInode_of_ne {v : Nat → Block} {i j : Nat} {d : Dinode} (h : j ≠ i) :
    dino (writeInode v i d) j = dino v j := by
  unfold dino writeInode
  by_cases hb : iblock j = iblock i
  · have hm : j % IPB ≠ i % IPB := fun hm => h (by
      have hd : j / IPB = i / IPB := by unfold iblock at hb; omega
      rw [← Nat.div_add_mod j IPB, ← Nat.div_add_mod i IPB, hd, hm])
    rw [hb, update_self, getDinode_putDinode_of_ne hm]
  · rw [update_of_ne hb]

theorem dino_congr {v v' : Nat → Block} {inum : Nat} (h : v' (iblock inum) = v (iblock inum)) :
    dino v' inum = dino v inum := by
  unfold dino
  rw [h]

/-! ## Changes to the bitmap -/

/-- Only bits of the region change. -/
structure BitsOnly (r : Region) (v v' : Nat → Block) : Prop where
  super : v' 1 = v 1
  reserved : ∀ c < r.top, ¬ (r.lo ≤ c ∧ c < r.hi) →
    Kernel.bit v' r.sb.ninodes c = Kernel.bit v r.sb.ninodes c
  blocks : ∀ a, r.lo ≤ a → v' a = v a
  metadata : ∀ s, (∀ c < r.top, bblock c r.sb.ninodes ≠ s) → v' s = v s

namespace BitsOnly

variable {r : Region} {v v' v'' : Nat → Block} {ino : Nat → Dinode} {b : Nat}

theorem refl : BitsOnly r v v := ⟨rfl, fun _ _ _ => rfl, fun _ _ => rfl, fun _ _ => rfl⟩

theorem trans (h : BitsOnly r v v') (h' : BitsOnly r v' v'') : BitsOnly r v v'' :=
  ⟨h'.super.trans h.super, fun c hc hn => (h'.reserved c hc hn).trans (h.reserved c hc hn),
    fun a ha => (h'.blocks a ha).trans (h.blocks a ha),
    fun s hs => (h'.metadata s hs).trans (h.metadata s hs)⟩

theorem markFree (hb : r.lo ≤ b ∧ b < r.hi) :
    BitsOnly r v (Kernel.markFree v r.sb.ninodes b) where
  super := update_of_ne (by have := two_lt_bblock b r.sb.ninodes; omega) ..
  reserved := fun c _ hn => by
    have hcb : c ≠ b := fun heq => hn (by rw [heq]; exact hb)
    rw [bit_markFree, decide_eq_false hcb, Bool.not_false, Bool.true_and]
  blocks := fun a ha => update_of_ne (by
    have := r.bitmap b (lt_of_lt_of_le hb.2 r.hi_le)
    omega) ..
  metadata := fun s hs => update_of_ne (Ne.symm (hs b (lt_of_lt_of_le hb.2 r.hi_le))) ..

theorem used_markFree : {c | r.lo ≤ c ∧ c < r.hi ∧
      Kernel.bit (Kernel.markFree v r.sb.ninodes b) r.sb.ninodes c = true} =
    {c | r.lo ≤ c ∧ c < r.hi ∧ Kernel.bit v r.sb.ninodes c = true} \ {b} := by
  ext c
  simp only [bit_markFree, Set.mem_ofPred_eq, Set.mem_sdiff, Set.mem_singleton_iff,
    Bool.and_eq_true, Bool.not_eq_true', decide_eq_false_iff_not]
  tauto

theorem refs_eq (h : BitsOnly r v v') (hs : Sound r v ino) :
    refs v' r.sb.ninodes ino = refs v r.sb.ninodes ino :=
  refs_congr_view fun _ _ hj => h.blocks _ (hs.lo_le hj).1

end BitsOnly

/-- Inode `inum` becomes `d'` by giving blocks back. -/
structure Trims (r : Region) (inum : Nat) (v : Nat → Block) (ino : Nat → Dinode)
    (v' : Nat → Block) (d' : Dinode) : Prop where
  sound : Sound r v' (update ino inum d')
  steps : Heap.Steps (r.heap v ino) (r.heap v' (update ino inum d'))
  bits : BitsOnly r v v'
  inode : d' = { ino inum with addrs := d'.addrs }

namespace Trims

variable {r : Region} {inum : Nat} {v v' v'' : Nat → Block} {ino : Nat → Dinode}
  {d d' : Dinode}

theorem refl (h : Sound r v ino) : Trims r inum v ino v (ino inum) where
  sound := by rw [update_eq_self]; exact h
  steps := by rw [update_eq_self]
  bits := .refl
  inode := rfl

theorem trans (h : Trims r inum v ino v' d)
    (h' : Trims r inum v' (update ino inum d) v'' d') :
    Trims r inum v ino v'' d' := by
  obtain ⟨sound, steps, bits, inode⟩ := h'
  rw [update_idem] at sound steps
  rw [update_self] at inode
  exact ⟨sound, h.steps.trans steps, h.bits.trans bits, by rw [inode, h.inode]⟩

theorem allocated (h : Trims r inum v ino v' d) (hl : Allocated r.sb.ninodes ino inum) :
    Allocated r.sb.ninodes (update ino inum d) inum := by
  refine ⟨hl.1, hl.2.1, ?_⟩
  rw [update_self, h.inode]
  exact hl.2.2

theorem release {i : Fin (NDIRECT + 1)} {b : Nat} (h : Sound r v ino)
    (hi : refs v r.sb.ninodes ino (inum, .addr i) = some b)
    (hlast : ∀ j, i = Fin.last NDIRECT → refs v r.sb.ninodes ino (inum, .entry j) = none) :
    Trims r inum v ino (Kernel.markFree v r.sb.ninodes b)
      { ino inum with addrs := update (ino inum).addrs i 0 } := by
  have hl := (refs_eq_some hi).1
  have hmem := h.lo_le hi
  have hbits : BitsOnly r v (Kernel.markFree v r.sb.ninodes b) :=
    .markFree ⟨hmem.1, hmem.2.1⟩
  have hheap : r.heap (Kernel.markFree v r.sb.ninodes b) (update ino inum
      { ino inum with addrs := update (ino inum).addrs i 0 }) =
      (r.heap v ino).release (inum, .addr i) b := by
    apply Heap.ext BitsOnly.used_markFree
    funext ⟨j, s⟩
    change refs _ _ _ _ = update (refs v r.sb.ninodes ino) (inum, .addr i) none (j, s)
    by_cases hj : j = inum
    · subst hj
      rw [refs_update_self hl (by exact hl.2.2)]
      by_cases hs : s = .addr i
      · subst hs
        rw [update_self]
        simp [slotRef, ptr]
      · rw [update_of_ne (by simpa using hs), ← hbits.refs_eq h, refs_of_allocated hl]
        cases s with
        | addr i' =>
          have hii : i' ≠ i := fun heq => hs (by rw [heq])
          simp only [slotRef, update_of_ne hii]
        | entry e =>
          by_cases hil : i = Fin.last NDIRECT
          · have hnone := hlast e hil
            rw [← hbits.refs_eq h, refs_of_allocated hl] at hnone
            rw [hnone, hil]
            simp [slotRef, ptr]
          · simp only [slotRef, update_of_ne (Ne.symm hil)]
    · rw [refs_update_of_ne hj, update_of_ne (by simp [hj]), hbits.refs_eq h]
  have hsteps : Heap.Steps (r.heap v ino) (r.heap (Kernel.markFree v r.sb.ninodes b)
      (update ino inum
        { ino inum with addrs := update (ino inum).addrs i 0 })) := by
    rw [hheap]
    exact .single (.release hi)
  exact ⟨h.of_heap hbits.super hbits.reserved hsteps, hsteps, hbits, rfl⟩

end Trims

/-! ## The functions -/

namespace Kernel

section

variable {k : Kernel} {e : Fin NINODE} {v : Nat → Block} {r : Region} {ino : Nat → Dinode}
  {inum : Nat}

theorem iupdate_ends (h : Sees k v) :
    Ends (iupdate e) k (fun _ k' es =>
      Goes k k' (writeInode v (k.icache e).inum (k.icache e).d) ∧
      es = [.iupdate (k.icache e).inum, .logWrite (iblock (k.icache e).inum)]) Benign := by
  apply ends_inode_bind
  apply Ends.bind (R := fun _ t es => k = t ∧ es = [.iupdate (k.icache e).inum])
    (ends_emit ⟨rfl, rfl⟩)
  rintro _ _ _ ⟨rfl, rfl⟩
  refine (modify_ends h fun d => putDinode d ((k.icache e).inum % IPB) (k.icache e).d).mono ?_
  rintro _ k' _ ⟨-, hgo, rfl⟩
  exact ⟨hgo, rfl⟩

theorem setDinode_ends {f : Dinode → Dinode} (h : Sees k v) {E : Halt → Prop} :
    Ends (setDinode e f) k (fun _ k' es => Works k k' e v ∧
      (k'.icache e).d = f (k.icache e).d ∧ es = []) E := by
  apply setInode_ends.mono
  rintro _ _ _ ⟨rfl, rfl⟩
  exact ⟨(Goes.refl h).set _, by simp, rfl⟩

theorem itruncDirect_ends {i : Fin (NDIRECT + 1)} (h : Sees k v) (hs : Sound r v ino)
    (hl : Allocated r.sb.ninodes ino inum) (hd : ino inum = (k.icache e).d)
    (hlast : ∀ j, i = Fin.last NDIRECT → refs v r.sb.ninodes ino (inum, .entry j) = none) :
    Ends (itruncDirect e i) k (fun _ k' es => (∃ v', Works k k' e v' ∧
      Trims r inum v ino v' (k'.icache e).d ∧
      (k'.icache e).d.addrs = update (k.icache e).d.addrs i 0) ∧
      ∀ ev ∈ es, Quiet r ev) Benign := by
  apply ends_inode_bind
  by_cases hi : (k.icache e).d.addrs i = 0
  · rw [if_pos hi]
    refine ends_pure ⟨⟨v, (Goes.refl h).works e, hd ▸ .refl hs, ?_⟩, by simp⟩
    rw [← hi, update_eq_self]
  · rw [if_neg hi]
    have href : refs v r.sb.ninodes ino (inum, .addr i) =
        some ((k.icache e).d.addrs i).toNat := by
      rw [refs_of_allocated hl, hd]
      exact ptr_of_ne hi
    apply (bfree_ends h (by rw [hs.super]; exact (hs.lo_le href).2.2)).bind
    rintro _ k1 _ ⟨-, hgo, rfl⟩
    rw [hs.super] at hgo ⊢
    apply (setDinode_ends hgo.sees).mono
    rintro _ k2 _ ⟨hw, hd2, rfl⟩
    have htrim := Trims.release hs href hlast
    rw [hgo.icache] at hd2
    rw [hd, ← hd2] at htrim
    refine ⟨⟨_, (hgo.works e).trans hw, htrim, by rw [hd2]⟩, ?_⟩
    simpa [Quiet] using r.bitmap _ ((hs.lo_le href).2.1.trans_le r.hi_le)

/-- The first loop of `itrunc`. -/
theorem itruncDirects_ends (h : Sees k v) (hs : Sound r v ino)
    (hl : Allocated r.sb.ninodes ino inum) (hd : ino inum = (k.icache e).d) :
    Ends (forEach (itruncDirect e) ((List.finRange NDIRECT).map Fin.castSucc)) k
      (fun _ k' es => (∃ v', Works k k' e v' ∧ Trims r inum v ino v' (k'.icache e).d ∧
        ∀ i, i ≠ Fin.last NDIRECT → (k'.icache e).d.addrs i = 0) ∧
        ∀ ev ∈ es, Quiet r ev) Benign := by
  -- the direct addresses that are not to be done any more are zero
  refine (ends_forEach (P := Quiet r) (I := fun is t => (∀ i ∈ is, i ≠ Fin.last NDIRECT) ∧
    ∃ v', Works k t e v' ∧ Trims r inum v ino v' (t.icache e).d ∧
    ∀ i ∉ is, i ≠ Fin.last NDIRECT → (t.icache e).d.addrs i = 0) ?_ _ _ ⟨?_, ?_⟩).mono ?_
  · rintro i is t ⟨hne, v1, hw1, htrim1, hzero⟩
    have hi : i ≠ Fin.last NDIRECT := hne i (mem_cons_self ..)
    refine (itruncDirect_ends hw1.sees htrim1.sound (htrim1.allocated hl)
      (update_self ..) fun j heq => absurd heq hi).mono ?_
    rintro _ t' es ⟨⟨v2, hw2, htrim2, haddrs⟩, hhon⟩
    refine ⟨⟨fun i' hi' => hne i' (mem_cons_of_mem _ hi'), v2, hw1.trans hw2,
      htrim1.trans htrim2, fun i' hi' hlast => ?_⟩, hhon⟩
    rw [haddrs]
    by_cases heq : i' = i
    · rw [heq, update_self]
    · rw [update_of_ne heq]
      exact hzero i' (by simp [heq, hi']) hlast
  · intro i hi
    obtain ⟨j, -, rfl⟩ := mem_map.mp hi
    exact (Fin.castSucc_lt_last j).ne
  · refine ⟨v, (Goes.refl h).works e, hd ▸ .refl hs, fun i hi hlast => absurd ?_ hi⟩
    obtain ⟨j, rfl⟩ := Fin.exists_castSucc_eq.mpr hlast
    exact mem_map_of_mem (mem_finRange j)
  · rintro _ k' es ⟨⟨-, v', hw, htrim, hzero⟩, hhon⟩
    exact ⟨⟨v', hw, htrim, fun i => hzero i (by simp)⟩, hhon⟩

/-- The references while the entries of the indirect block of `inum` before `j` are gone. -/
def dropped (v : Nat → Block) (n : Nat) (ino : Nat → Dinode) (inum j : Nat) : Pos → Option Nat
  | (i, .entry x) => if i = inum ∧ x.val < j then none else refs v n ino (i, .entry x)
  | p => refs v n ino p

theorem dropped_succ {n j : Nat} (hj : j < NINDIRECT) : dropped v n ino inum (j + 1) =
    update (dropped v n ino inum j) (inum, .entry ⟨j, hj⟩) none := by
  funext ⟨i, s⟩
  cases s with
  | addr a => rw [update_of_ne (by simp)]; rfl
  | entry x =>
    by_cases hx : (i, Slot.entry x) = (inum, Slot.entry ⟨j, hj⟩)
    · rw [hx, update_self]
      simp [dropped]
    · rw [update_of_ne hx]
      have hne : ¬ (i = inum ∧ x.val = j) := fun ⟨h1, h2⟩ => hx (by
        rw [h1, show x = ⟨j, hj⟩ from Fin.ext h2])
      have hiff : (i = inum ∧ x.val < j + 1) ↔ (i = inum ∧ x.val < j) := by
        constructor
        · rintro ⟨h1, h2⟩
          exact ⟨h1, by omega⟩
        · rintro ⟨h1, h2⟩
          exact ⟨h1, by omega⟩
      simp only [dropped, hiff]

/-- The heap with the bits of `v'`, where entries before `j` are gone. -/
def Region.partway (r : Region) (v v' : Nat → Block) (ino : Nat → Dinode) (inum j : Nat) :
    Heap Pos Nat where
  used := (r.heap v' ino).used
  ref := dropped v r.sb.ninodes ino inum j

/-- The second loop of `itrunc`, with the indirect block `a` in buffer `bp`. -/
theorem itruncEntries_ends {dev a : Nat} {bp : Fin NBUF} (h : Sees k v) (hs : Sound r v ino)
    (ha : refs v r.sb.ninodes ino (inum, .addr (Fin.last NDIRECT)) = some a)
    (hbusy : (k.store.buf bp).busy = true) (hdata : (k.store.buf bp).data = v a) :
    Ends (forEach (itruncEntry dev bp) (List.range NINDIRECT)) k
      (fun _ k' es => (∃ v', Goes k k' v' ∧ BitsOnly r v v' ∧
        Heap.Steps (r.heap v ino) (Region.partway r v v' ino inum NINDIRECT)) ∧
        ∀ ev ∈ es, Quiet r ev) Benign := by
  have hl := (refs_eq_some ha).1
  have hptr : ptr ((ino inum).addrs (Fin.last NDIRECT)) = some a := (refs_eq_some ha).2
  refine (ends_forEach (P := Quiet r) (I := fun js t => ∃ j ≤ NINDIRECT,
    js = List.range' j (NINDIRECT - j) ∧ ∃ v', Goes k t v' ∧ BitsOnly r v v' ∧
    Heap.Steps (r.heap v ino) (Region.partway r v v' ino inum j)) ?_ _ _ ?_).mono ?_
  · rintro x js t ⟨j, hj, hjs, v1, hgo, hbits, hsteps⟩
    have hjlt : j < NINDIRECT := by
      by_contra hge
      rw [Nat.sub_eq_zero_of_le (by omega)] at hjs
      cases hjs
    rw [show NINDIRECT - j = NINDIRECT - (j + 1) + 1 by omega, List.range'_succ] at hjs
    obtain ⟨rfl, rfl⟩ := List.cons.inj hjs
    apply ends_data_bind
    rw [hgo.kept.held bp hbusy, hdata]
    have hentry : dropped v r.sb.ninodes ino inum x (inum, .entry ⟨x, hjlt⟩) =
        ptr (getAddr (v a) x) := by
      simp only [dropped, lt_irrefl, and_false, if_false, refs_of_allocated hl, slotRef, hptr,
        Option.bind_some]
    by_cases hzero : getAddr (v a) x = 0
    · rw [if_pos hzero]
      refine ends_pure ⟨⟨x + 1, by omega, rfl, v1, hgo, hbits, ?_⟩, by simp⟩
      have hsame : Region.partway r v v1 ino inum (x + 1) = Region.partway r v v1 ino inum x := by
        refine Heap.ext rfl ?_
        change dropped _ _ _ _ _ = dropped _ _ _ _ _
        rw [dropped_succ hjlt, show (none : Option Nat) = ptr 0 from rfl, ← hzero, ← hentry,
          update_eq_self]
      rw [hsame]
      exact hsteps
    · rw [if_neg hzero]
      have hsome : (Region.partway r v v1 ino inum x).ref (inum, .entry ⟨x, hjlt⟩) =
          some (getAddr (v a) x).toNat := hentry.trans (ptr_of_ne hzero)
      obtain ⟨hlo, hhi, hbit⟩ := (hs.owned.steps hsteps).mem hsome
      have hsuper : getSuperblock (v1 1) = r.sb := by rw [hbits.super]; exact hs.super
      apply (bfree_ends hgo.sees (by rw [hsuper]; exact hbit)).mono
      rintro _ t' _ ⟨-, hgo', rfl⟩
      rw [hsuper] at hgo' ⊢
      refine ⟨⟨x + 1, by omega, rfl, _, hgo.trans hgo', hbits.trans (.markFree ⟨hlo, hhi⟩),
        hsteps.tail ?_⟩, by simpa [Quiet] using r.bitmap _ (hhi.trans_le r.hi_le)⟩
      have hrel : Region.partway r v (markFree v1 r.sb.ninodes (getAddr (v a) x).toNat) ino inum
          (x + 1) = (Region.partway r v v1 ino inum x).release (inum, .entry ⟨x, hjlt⟩)
            (getAddr (v a) x).toNat :=
        Heap.ext BitsOnly.used_markFree (dropped_succ hjlt)
      rw [hrel]
      exact .release hsome
  · refine ⟨0, Nat.zero_le _, range_eq_range', v, .refl h, .refl, ?_⟩
    have hzero : Region.partway r v v ino inum 0 = r.heap v ino := by
      refine Heap.ext rfl ?_
      funext p
      obtain ⟨i, s⟩ := p
      cases s <;> simp [Region.partway, Region.heap, dropped]
    rw [hzero]
  · rintro _ k' es ⟨⟨j, hj, hjs, v', hgo, hbits, hsteps⟩, hhon⟩
    have hj' : j = NINDIRECT := by
      have := congrArg List.length hjs
      simp at this
      omega
    subst hj'
    exact ⟨⟨v', hgo, hbits, hsteps⟩, hhon⟩

/-- When all entries are gone, the indirect block itself can go. -/
theorem Region.partway_release {v' : Nat → Block} {a : Nat} (hs : Sound r v ino)
    (hbits : BitsOnly r v v') (hl : Allocated r.sb.ninodes ino inum)
    (hmem : r.lo ≤ a ∧ a < r.hi) : r.heap (markFree v' r.sb.ninodes a) (update ino inum
        { ino inum with addrs := update (ino inum).addrs (Fin.last NDIRECT) 0 }) =
      (Region.partway r v v' ino inum NINDIRECT).release (inum, .addr (Fin.last NDIRECT)) a := by
  apply Heap.ext BitsOnly.used_markFree
  have hrefs := (hbits.trans (.markFree hmem)).refs_eq hs
  funext ⟨j, s⟩
  change refs _ _ _ _ = update (dropped v r.sb.ninodes ino inum NINDIRECT)
    (inum, .addr (Fin.last NDIRECT)) none (j, s)
  by_cases hj : j = inum
  · subst hj
    rw [refs_update_self hl (by exact hl.2.2)]
    cases s with
    | addr i =>
      by_cases hi : i = Fin.last NDIRECT
      · subst hi
        rw [update_self]
        simp [slotRef, ptr]
      · rw [update_of_ne (by simpa using hi)]
        simp only [slotRef, update_of_ne hi, dropped, refs_of_allocated hl]
    | entry x =>
      rw [update_of_ne (by simp)]
      simp [slotRef, ptr, dropped]
  · rw [refs_update_of_ne hj, update_of_ne (by simp [hj]), hrefs]
    cases s <;> simp [dropped, hj]

theorem itruncIndirect_ends (h : Sees k v) (hs : Sound r v ino)
    (hl : Allocated r.sb.ninodes ino inum) (hd : ino inum = (k.icache e).d) :
    Ends (itruncIndirect e) k (fun _ k' es => (∃ v', Works k k' e v' ∧
      Trims r inum v ino v' (k'.icache e).d ∧
      (k'.icache e).d.addrs = update (k.icache e).d.addrs (Fin.last NDIRECT) 0) ∧
      ∀ ev ∈ es, Quiet r ev) Benign := by
  apply ends_inode_bind
  by_cases hi : (k.icache e).d.addrs (Fin.last NDIRECT) = 0
  · rw [if_pos hi]
    refine ends_pure ⟨⟨v, (Goes.refl h).works e, hd ▸ .refl hs, ?_⟩, by simp⟩
    rw [← hi, update_eq_self]
  rw [if_neg hi]
  have ha : refs v r.sb.ninodes ino (inum, .addr (Fin.last NDIRECT)) =
      some ((k.icache e).d.addrs (Fin.last NDIRECT)).toNat := by
    rw [refs_of_allocated hl, hd]
    exact ptr_of_ne hi
  apply (bread_ends h).bind
  rintro bp k1 _ ⟨-, hh, rfl⟩
  apply (itruncEntries_ends hh.sees hs ha hh.handed.busy hh.data).bind
  rintro _ k2 es2 ⟨⟨v2, hgo2, hbits2, hsteps2⟩, hhon2⟩
  have hbuf := hgo2.kept.held bp hh.handed.busy
  have hc : Caches k2.store bp ((k.icache e).d.addrs (Fin.last NDIRECT)).toNat := by
    unfold Caches
    rw [hbuf]
    exact hh.handed.caches
  apply (brelse_ends hgo2.sees hc).bind
  rintro _ k3 _ ⟨hf, hsees3, ho, rfl⟩
  have hlog3 : k3.log = k2.log := by rw [hf]
  have hgo3 : Goes k k3 v2 := hh.done hgo2 (by rw [hlog3]; exact hf) (by rw [hlog3]) hsees3 ho
  have hic : k3.icache e = k.icache e := by rw [hgo3.icache]
  apply ends_inode_bind
  rw [hic, if_neg hi]
  -- the indirect block is in use although its entries are not
  have hsome : (Region.partway r v v2 ino inum NINDIRECT).ref
      (inum, .addr (Fin.last NDIRECT)) = some _ := ha
  have hmem := (hs.owned.steps hsteps2).mem hsome
  have hsuper : getSuperblock (v2 1) = r.sb := by rw [hbits2.super]; exact hs.super
  apply (bfree_ends hgo3.sees (by rw [hsuper]; exact hmem.2.2)).bind
  rintro _ k4 _ ⟨-, hgo4, rfl⟩
  rw [hsuper] at hgo4 ⊢
  apply (setDinode_ends hgo4.sees).mono
  rintro _ k5 _ ⟨hw5, hd5, rfl⟩
  rw [hgo4.icache, hic] at hd5
  have hrel := Region.partway_release
    (a := ((k.icache e).d.addrs (Fin.last NDIRECT)).toNat) hs hbits2 hl ⟨hmem.1, hmem.2.1⟩
  rw [hd, ← hd5] at hrel
  have hbits := hbits2.trans (BitsOnly.markFree (r := r) ⟨hmem.1, hmem.2.1⟩)
  have hsteps := hsteps2.tail (.release hsome)
  rw [← hrel] at hsteps
  refine ⟨⟨_, ((hgo3.trans hgo4).works e).trans hw5,
    ⟨hs.of_heap hbits.super hbits.reserved hsteps, hsteps, hbits, ?_⟩, by rw [hd5]⟩, ?_⟩
  · rw [hd5, hd]
  · intro ev hev
    simp only [nil_append, append_nil, mem_append, mem_singleton] at hev
    rcases hev with hev | rfl
    · exact hhon2 ev hev
    · exact r.bitmap _ (hmem.2.1.trans_le r.hi_le)

/-- `itrunc` gives all blocks back. -/
theorem itrunc_ends (h : Sees k v) (hs : Sound r v ino) (hin : (k.icache e).inum = inum)
    (hl : Allocated r.sb.ninodes ino inum) (hd : ino inum = (k.icache e).d) :
    Ends (itrunc e) k (fun _ k' es => (∃ v',
      Works k k' e (writeInode v' inum (k'.icache e).d) ∧
      Trims r inum v ino v' { (k.icache e).d with addrs := fun _ => 0 } ∧
      (k'.icache e).d = { (k.icache e).d with addrs := fun _ => 0, size := 0 }) ∧
      ∀ ev ∈ es, Quiet r ev) Benign := by
  apply (itruncDirects_ends h hs hl hd).bind
  rintro _ k1 es1 ⟨⟨v1, hw1, htrim1, hzero1⟩, hhon1⟩
  apply (itruncIndirect_ends hw1.sees htrim1.sound (htrim1.allocated hl)
    (update_self ..)).bind
  rintro _ k2 es2 ⟨⟨v2, hw2, htrim2, haddrs2⟩, hhon2⟩
  have htrim := htrim1.trans htrim2
  have hzero : (k2.icache e).d.addrs = fun _ => 0 := by
    funext i
    rw [haddrs2]
    by_cases hi : i = Fin.last NDIRECT
    · rw [hi, update_self]
    · rw [update_of_ne hi]
      exact hzero1 i hi
  have hd2 : (k2.icache e).d = { (k.icache e).d with addrs := fun _ => 0 } := by
    rw [htrim.inode, hd, hzero]
  apply (setDinode_ends hw2.sees).bind
  rintro _ k3 _ ⟨hw3, hd3, rfl⟩
  have hw := (hw1.trans hw2).trans hw3
  apply (iupdate_ends hw3.sees).mono
  rintro _ k4 _ ⟨hgo4, rfl⟩
  have hic : k4.icache e = k3.icache e := by rw [hgo4.icache]
  rw [hw.inum, hin] at hgo4 ⊢
  refine ⟨⟨v2, ?_, hd2 ▸ htrim, ?_⟩, ?_⟩
  · rw [hic]
    exact hw.trans (hgo4.works e)
  · rw [hic, hd3, hd2]
  · intro ev hev
    simp only [nil_append, mem_append, mem_cons, not_mem_nil,
      or_false] at hev
    rcases hev with hev | hev | rfl | rfl
    · exact hhon1 ev hev
    · exact hhon2 ev hev
    · trivial
    · exact r.iblock_lt hl.2.1

end

end Kernel

end Xv6
