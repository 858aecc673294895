import Xv6.Fs.Coherent

/-!
# Files as a user sees them

A `Vnode` is an inode with its contents: the fields that a user can ask for and the bytes, without
the blocks that hold them. `nodes` is what the flat disk and the inodes of the file system stand
for, one node for every inode number, and each change that `Coherent` allows is described by what it
does to the nodes. Giving a file blocks, for one, does nothing.
-/

namespace Xv6

open Function

open Lib Act

/-- An inode with its contents. -/
@[ext]
structure Vnode where
  type : BitVec 16
  major : BitVec 16
  minor : BitVec 16
  nlink : BitVec 16
  size : Nat
  byte : Nat → UInt8

namespace Vnode

/-- A node that is not in use. -/
def free : Vnode where
  type := 0
  major := 0
  minor := 0
  nlink := 0
  size := 0
  byte := fun _ => 0

/-- Bytes `off` to `off + n`; `none` is the result -1 of `readi`. -/
def read (nd : Vnode) (off n : Nat) : Option (List UInt8) :=
  if nd.size < off ∨ 2 ^ 32 ≤ off + n then none
  else some ((List.range (min n (nd.size - off))).map fun i => nd.byte (off + i))

/-- The node after `n` bytes of `src` have been written at `off`. -/
def put (nd : Vnode) (src : Nat → UInt8) (off n : Nat) : Vnode :=
  { nd with
    size := if 0 < n ∧ nd.size < off + n then off + n else nd.size
    byte := fun o => if off ≤ o ∧ o < off + n then src (o - off) else nd.byte o }

/-- Whether `writei` accepts `n` bytes at `off`. -/
def Accepts (nd : Vnode) (off n : Nat) : Prop :=
  off ≤ nd.size ∧ off + n < 2 ^ 32 ∧ off + n ≤ MAXFILE * BSIZE

instance (nd : Vnode) (off n : Nat) : Decidable (nd.Accepts off n) :=
  inferInstanceAs (Decidable (_ ∧ _ ∧ _))

/-- The same file: what lies behind its end is of no interest. -/
structure Like (nd nd' : Vnode) : Prop where
  fields : nd' = { nd with byte := nd'.byte }
  byte : ∀ o < nd.size, nd'.byte o = nd.byte o

theorem Like.refl (nd : Vnode) : nd.Like nd := ⟨rfl, fun _ _ => rfl⟩

end Vnode

/-- An inode with these bytes. -/
def Dinode.node (d : Dinode) (byte : Nat → UInt8) : Vnode where
  type := d.type
  major := d.major
  minor := d.minor
  nlink := d.nlink
  size := d.size.toNat
  byte := byte

/-- The files of a disk. -/
def nodes (v : Nat → Block) (n : Nat) (ino : Nat → Dinode) (j : Nat) : Vnode :=
  if Allocated n ino j then (ino j).node (byteAt v n ino j) else .free

section

variable {v v' : Nat → Block} {n j : Nat} {ino ino' : Nat → Dinode} {d : Dinode} {r : Region}

theorem nodes_of_allocated (h : Allocated n ino j) :
    nodes v n ino j = (ino j).node (byteAt v n ino j) := if_pos h

theorem nodes_of_not_allocated (h : ¬ Allocated n ino j) : nodes v n ino j = .free := if_neg h

theorem allocated_iff_type_ne : Allocated n ino j ↔ (nodes v n ino j).type ≠ 0 := by
  by_cases h : Allocated n ino j
  · simpa [nodes_of_allocated h, Dinode.node, h] using h.2.2
  · simp [nodes_of_not_allocated h, Vnode.free, h]

/-- A disk with the same blocks for all files has the same files. -/
theorem nodes_congr (h : ∀ p b, refs v n ino p = some b → v' b = v b) :
    nodes v' n ino = nodes v n ino := by
  have hrefs : refs v' n ino = refs v n ino := refs_congr_view fun _ _ hp => h _ _ hp
  have hbyte : ∀ i o, byteAt v' n ino i o = byteAt v n ino i o := fun i o =>
    byteAt_congr (fun s a hs ha => by rw [byteAt_of_ref hs (by rw [hrefs]; exact ha), h _ _ ha])
      (fun s hs ha => byteAt_of_none fun t ht => by
        obtain rfl := Option.some.inj (hs.symm.trans ht)
        rw [hrefs]
        exact ha) byteAt_of_slotOf_none
  funext i
  simp only [nodes, show byteAt v' n ino i = byteAt v n ino i from funext (hbyte i)]

theorem Sound.nodes_writeInode (h : Sound r v ino) (hj : OnDisk r.sb.ninodes j) :
    nodes (Xv6.writeInode v j d) r.sb.ninodes ino = nodes v r.sb.ninodes ino := by
  refine nodes_congr fun _ b hp => update_of_ne ?_ ..
  have := (h.lo_le hp).1
  have := r.iblock_lt hj.2
  omega

theorem nodes_update
    (hrefs : ∀ p : Pos, p.1 ≠ j → refs v' n ino' p = refs v n ino p)
    (hview : ∀ (p : Pos) b, p.1 ≠ j → refs v n ino p = some b → v' b = v b)
    (hino : ∀ i, i ≠ j → ino' i = ino i) :
    nodes v' n ino' = update (nodes v n ino) j (nodes v' n ino' j) := by
  funext i
  by_cases hi : i = j
  · subst hi
    rw [update_self]
  · have hbyte : byteAt v' n ino' i = byteAt v n ino i := funext fun o =>
      byteAt_congr (fun s a hs ha => by
          rw [byteAt_of_ref hs (by rw [hrefs _ hi]; exact ha), hview _ _ hi ha])
        (fun s hs ha => byteAt_of_none fun t ht => by
          obtain rfl := Option.some.inj (hs.symm.trans ht)
          rw [hrefs _ hi]
          exact ha) byteAt_of_slotOf_none
    have hiff : Allocated n ino' i ↔ Allocated n ino i := by
      unfold Allocated
      rw [hino i hi]
    rw [update_of_ne hi]
    simp only [nodes, hiff, hino i hi, hbyte]

theorem nodes_setFields (h : Allocated n ino j) (ht : d.type ≠ 0)
    (haddrs : d.addrs = (ino j).addrs) :
    nodes v n (update ino j d) =
      update (nodes v n ino) j (d.node (nodes v n ino j).byte) := by
  have hrefs : refs v n (update ino j d) = refs v n ino := refs_setFields h ht haddrs
  have hl : Allocated n (update ino j d) j :=
    ⟨h.1, h.2.1, by rw [update_self]; exact ht⟩
  rw [nodes_update (fun p _ => by rw [hrefs]) (fun _ _ _ _ => rfl)
    fun i hi => update_of_ne hi ..]
  congr 1
  rw [nodes_of_allocated hl, nodes_of_allocated h, update_self]
  congr 1
  funext o
  simp only [byteAt, hrefs, Dinode.node]

theorem Extends.nodes_grown {c : Scope} {es : List FsEvent} (h : Extends r j c v ino v' d es)
    (hl : Allocated r.sb.ninodes ino j) :
    nodes v' r.sb.ninodes (update ino j d) =
      update (nodes v r.sb.ninodes ino) j { nodes v r.sb.ninodes ino j with
        byte := byteAt v' r.sb.ninodes (update ino j d) j } := by
  have hl' := h.allocated hl
  rw [nodes_update (fun p hp => ?_) (fun p b hp hb => h.others p b hb hp)
    fun i hi => update_of_ne hi ..]
  · congr 1
    rw [nodes_of_allocated hl', nodes_of_allocated hl, update_self]
    generalize byteAt v' r.sb.ninodes (update ino j d) j = byte
    rw [h.inode]
    rfl
  · cases hold : refs v r.sb.ninodes ino p with
    | some b => exact h.keeps p b hold
    | none =>
      cases hnew : refs v' r.sb.ninodes (update ino j d) p with
      | none => rfl
      | some b =>
        rcases h.fresh p b hnew with hb | hb
        · rw [hold] at hb; cases hb
        · exact absurd hb.1 hp

theorem Extends.nodes_eq {slots : Set Slot} {edits : Set (Block → Block)} {es : List FsEvent}
    (h : Extends r j ⟨slots, ∅, edits⟩ v ino v' d es) (hl : Allocated r.sb.ninodes ino j) :
    nodes v' r.sb.ninodes (update ino j d) = nodes v r.sb.ninodes ino := by
  rw [h.nodes_grown hl, show byteAt v' r.sb.ninodes (update ino j d) j =
    (nodes v r.sb.ninodes ino j).byte by
      rw [nodes_of_allocated hl]; exact funext h.byteAt_self]
  exact update_eq_self _ _

end

namespace Kernel.Coherent

variable {ru : Rules} {k k' : Kernel} {v v' : Nat → Block} {ino : Nat → Dinode}
  {e : Fin NINODE} {j : Nat}

theorem node (h : Coherent ru k v ino) (he : Stands ru.ninodes (k.icache e) j) :
    nodes v ru.ninodes ino j =
      (k.icache e).d.node (nodes v ru.ninodes ino j).byte := by
  rw [nodes_of_allocated (h.allocated he), (h.entry e j he).1]
  rfl

theorem nodes_freed {v1 : Nat → Block} {d1 d2 d3 : Dinode} (h : Coherent ru k v ino)
    (he : Stands ru.ninodes (k.icache e) j) (htrim : Trims ru.region j v ino v1 d1)
    (h3 : d3.type = 0) :
    nodes (writeInode (writeInode v1 j d2) j d3) ru.ninodes (update ino j d3) =
      update (nodes v ru.ninodes ino) j .free := by
  have hib := ru.region.iblock_lt he.onDisk.2
  have hview : ∀ b, ru.region.lo ≤ b → writeInode (writeInode v1 j d2) j d3 b = v b :=
    fun b hb => by
      rw [writeInode, update_of_ne (by omega), writeInode,
        update_of_ne (by omega)]
      exact htrim.bits.blocks b hb
  have hrefs : ∀ p : Pos, p.1 ≠ j → refs (writeInode (writeInode v1 j d2) j d3)
      ru.ninodes (update ino j d3) p = refs v ru.ninodes ino p :=
    fun p hp => by
      rw [refs_update_of_ne hp, refs_congr_view fun i a ha => hview a (h.sound.lo_le ha).1]
  rw [nodes_update hrefs (fun p b _ hb => hview b (h.sound.lo_le hb).1)
    fun i hi => update_of_ne hi ..]
  rw [nodes_of_not_allocated fun hl => hl.2.2 (by rw [update_self]; exact h3)]

end Kernel.Coherent

end Xv6
