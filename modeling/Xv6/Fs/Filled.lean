import Xv6.Fs.Coherent

/-!
# Files without holes

`Filled` says that every inode on the disk has all the blocks below its size. It is a property of
the flat disk alone: a cached inode has the same size and at least the same blocks. Each change that
`Coherent` allows keeps it, if a file that grows is mapped before its size is written back.
-/

namespace Xv6

open Function

open Lib Kernel

/-- Every inode on the disk has its blocks. -/
def Filled (r : Region) (v : Nat → Block) : Prop :=
  ∀ j, Allocated r.sb.ninodes (dino v) j → Mapped r j v (dino v) 0 (dino v j).size.toNat

section

variable {r : Region} {v v' v1 : Nat → Block} {ino ino' : Nat → Dinode} {i j : Nat} {d : Dinode}

theorem slotRef_keep {n : Nat} {s : Slot} {b : Nat} (hl : Allocated n ino j)
    (hsub : d.Sub (ino j))
    (hlast : ∀ a, refs v n ino (j, .addr (Fin.last NDIRECT)) = some a →
      refs v' n ino' (j, .addr (Fin.last NDIRECT)) = some a)
    (hkeep : ∀ a, refs v n ino (j, s) = some a → refs v' n ino' (j, s) = some a)
    (hs : slotRef v d s = some b) : slotRef v' d s = some b := by
  cases s with
  | addr i => exact hs
  | entry e =>
    obtain ⟨a, ha, hb⟩ := Option.bind_eq_some_iff.mp hs
    have hfirst : refs v n ino (j, .addr (Fin.last NDIRECT)) = some a := by
      rw [refs_of_allocated hl]
      exact slotRef_of_sub (s := .addr (Fin.last NDIRECT)) (v := v) hsub ha
    have hwhole : refs v n ino (j, .entry e) = some b := by
      rw [refs_of_allocated hl]
      exact slotRef_of_sub hsub hs
    obtain ⟨a', ha', hb'⟩ := refs_entry (hkeep b hwhole)
    obtain rfl : a = a' := Option.some.inj ((hlast a hfirst).symm.trans ha')
    exact Option.bind_eq_some_iff.mpr ⟨a, ha, hb'⟩

theorem Filled.at_of_slots (h : Filled r v) (hdino : dino v' j = dino v j)
    (hslots : ∀ s b, slotRef v (dino v j) s = some b → slotRef v' (dino v j) s = some b)
    (hl : Allocated r.sb.ninodes (dino v') j) :
    Mapped r j v' (dino v') 0 (dino v' j).size.toNat := by
  have hl0 : Allocated r.sb.ninodes (dino v) j := ⟨hl.1, hl.2.1, by rw [← hdino]; exact hl.2.2⟩
  intro bn hbn
  rw [hdino] at hbn
  obtain ⟨s, a, hs, ha⟩ := h j hl0 bn hbn
  rw [refs_of_allocated hl0] at ha
  refine ⟨s, a, hs, ?_⟩
  rw [refs_of_allocated hl, hdino]
  exact hslots s a ha

theorem Sound.mapped_writeInode {off m : Nat} (h : Sound r v ino) (hj : OnDisk r.sb.ninodes j)
    (hl : Allocated r.sb.ninodes ino' j) (haddrs : (ino' j).addrs = (ino j).addrs)
    (hmap : Mapped r j v ino off m) : Mapped r j (Xv6.writeInode v j d) ino' off m := by
  have hib := r.iblock_lt hj.2
  intro bn hbn
  obtain ⟨s, a, hs, ha⟩ := hmap bn hbn
  refine ⟨s, a, hs, ?_⟩
  have hl0 := (refs_eq_some ha).1
  rw [refs_of_allocated hl]
  cases s with
  | addr i =>
    rw [refs_of_allocated hl0] at ha
    simp only [slotRef, haddrs]
    exact ha
  | entry e =>
    obtain ⟨b, hb, hentry⟩ := refs_entry ha
    have hlo := (h.lo_le hb).1
    rw [refs_of_allocated hl0] at hb
    simp only [slotRef, haddrs]
    refine Option.bind_eq_some_iff.mpr ⟨b, hb, ?_⟩
    rw [Xv6.writeInode, update_of_ne (by omega)]
    exact hentry

end

namespace Kernel.Coherent

variable {ru : Rules} {k : Kernel} {v v' v1 : Nat → Block} {ino : Nat → Dinode} {j : Nat}
  {d1 d2 d3 : Dinode} {c : Scope} {es : List FsEvent}

/-- A cached inode has the blocks that the disk has. -/
theorem mapped_of_filled (h : Coherent ru k v ino) (hf : Filled ru.region v)
    (hl : Allocated ru.ninodes ino j) :
    Mapped ru.region j v ino 0 (ino j).size.toNat := by
  have hsub := h.disk j hl.onDisk
  have hl0 : Allocated ru.ninodes (dino v) j :=
    ⟨hl.1, hl.2.1, by rw [hsub.type]; exact hl.2.2⟩
  have hsize : (dino v j).size = (ino j).size := by rw [hsub.fields]
  intro bn hbn
  rw [← hsize] at hbn
  obtain ⟨s, a, hs, ha⟩ := hf j hl0 bn hbn
  rw [refs_of_allocated hl0] at ha
  refine ⟨s, a, hs, ?_⟩
  rw [refs_of_allocated hl]
  exact slotRef_of_sub hsub ha

theorem filled_update (h : Coherent ru k v ino) (hf : Filled ru.region v)
    (hdino : ∀ i, OnDisk ru.ninodes i → i ≠ j → dino v' i = dino v i)
    (hblocks : ∀ i a, i ≠ j →
      refs v ru.ninodes ino (i, .addr (Fin.last NDIRECT)) = some a → v' a = v a)
    (hself : Allocated ru.ninodes (dino v') j →
      Mapped ru.region j v' (dino v') 0 (dino v' j).size.toNat) : Filled ru.region v' := by
  intro i hl
  by_cases hij : i = j
  · subst hij
    exact hself hl
  have heq := hdino i hl.onDisk hij
  refine hf.at_of_slots heq (fun s b hs => ?_) hl
  have hsub := h.disk i hl.onDisk
  have hli : Allocated ru.ninodes ino i :=
    ⟨hl.1, hl.2.1, by rw [← hsub.type, ← heq]; exact hl.2.2⟩
  cases s with
  | addr => exact hs
  | entry e =>
    obtain ⟨a, ha, hb⟩ := Option.bind_eq_some_iff.mp hs
    have hfirst : refs v ru.ninodes ino (i, .addr (Fin.last NDIRECT)) = some a := by
      rw [refs_of_allocated hli]
      exact slotRef_of_sub (s := .addr (Fin.last NDIRECT)) (v := v) hsub ha
    refine Option.bind_eq_some_iff.mpr ⟨a, ha, ?_⟩
    rw [hblocks i a hij hfirst]
    exact hb

theorem filled_grown (h : Coherent ru k v ino) (hf : Filled ru.region v)
    (hl : Allocated ru.ninodes ino j) (hext : Extends ru.region j c v ino v' d1 es) :
    Filled ru.region v' := by
  apply h.filled_update (j := j) hf (fun i hi _ => hext.dino hi)
    (fun i a hij ha => hext.others _ _ ha hij)
  apply hf.at_of_slots (hext.dino hl.onDisk)
  intro s b hs
  exact slotRef_keep hl (h.disk j hl.onDisk) (fun a => hext.keeps _ _)
    (fun a => hext.keeps _ _) hs

theorem filled_written (h : Coherent ru k v ino) (hf : Filled ru.region v)
    (hl : Allocated ru.ninodes ino j) (hext : Extends ru.region j c v ino v1 d1 es)
    (haddrs : d2.addrs = d1.addrs)
    (hmap : Mapped ru.region j v1 (update ino j d1) 0 d2.size.toNat) :
    Filled ru.region (writeInode v1 j d2) := by
  have hib := ru.region.iblock_lt hl.2.1
  have hblock : ∀ b, ru.region.lo ≤ b → writeInode v1 j d2 b = v1 b := fun b hb =>
    update_of_ne (by omega) ..
  refine h.filled_update (j := j) hf (fun i hi hij => ?_) (fun i a hij ha => ?_) fun hl' => ?_
  · rw [dino_writeInode_of_ne hij, hext.dino hi]
  · rw [hblock a (h.sound.lo_le ha).1]
    exact hext.others _ _ ha hij
  · rw [dino_writeInode_self]
    refine hext.sound.mapped_writeInode hl.onDisk hl' ?_ hmap
    rw [dino_writeInode_self, update_self]
    exact haddrs

theorem filled_freed (h : Coherent ru k v ino) (hf : Filled ru.region v)
    (hj : OnDisk ru.ninodes j) (htrim : Trims ru.region j v ino v1 d1)
    (h3 : d3.type = 0) : Filled ru.region (writeInode (writeInode v1 j d2) j d3) := by
  have hib := ru.region.iblock_lt hj.2
  refine h.filled_update (j := j) hf (fun i hi hij => ?_) (fun i a hij ha => ?_) fun hl => ?_
  · rw [dino_writeInode_of_ne hij, dino_writeInode_of_ne hij]
    exact dino_congr (htrim.bits.metadata _ fun _ _ => bblock_ne_iblock hi)
  · have hlo := (h.sound.lo_le ha).1
    rw [writeInode, update_of_ne (by omega), writeInode,
      update_of_ne (by omega)]
    exact htrim.bits.blocks a hlo
  · rw [Allocated, dino_writeInode_self] at hl
    exact absurd h3 hl.2.2

end Kernel.Coherent

end Xv6
