import Xv6.Fs.Progress
import Xv6.Fs.Ownership

/-!
# Files are byte arrays

What `readi` and `writei` do to the contents of a file, and when they return. A read needs a free
buffer and the sectors of the file on the disk. A write needs an open transaction as well, with room
for the `budget` of the write, and a free block for each new block of the file.
-/

namespace Xv6

open Function Finset

open Lib Act Kernel

/-- Nobody holds a buffer, the disk has the sectors of the file system, and some buffers are
clean. -/
structure Idle (r : Region) (k : Kernel) : Prop where
  free : ∀ b, (k.store.buf b).busy = false
  disk : r.top ≤ k.store.disksize
  clean : k.log.lh.length + 3 ≤ NBUF

/-- There is room for writing `n` bytes at `off` of inode `inum`. -/
structure Room (r : Region) (k : Kernel) (v : Nat → Block) (ino : Nat → Dinode)
    (inum off n : Nat) : Prop where
  free : ∀ b, (k.store.buf b).busy = false
  disk : r.top ≤ k.store.disksize
  trans : 1 ≤ k.log.outstanding
  nodup : k.log.lh.Nodup
  cache : k.log.lh.length + budget r inum v ino off n + 3 ≤ NBUF
  log : k.log.lh.length + budget r inum v ino off n < k.log.size - 1
  blocks : (newPositions r inum v ino off n).card ≤ (freeBlocks r.sb v).length

/-! ## The sectors of a write -/

section

variable (r : Region) (inum : Nat) (v : Nat → Block) (ino : Nat → Dinode) (off n : Nat)

/-- The data blocks that are there. -/
def oldSectors : Finset Nat :=
  (touched off n \ missing r inum v ino off n).image fun bn => (blockAt r inum v ino bn).getD 0

/-- The indirect block, if it is there and gets an entry. -/
def oldIndirect : Finset Nat :=
  if (∃ bn ∈ missing r inum v ino off n, NDIRECT ≤ bn) ∧ ¬ LacksIndirect r inum v ino off n then
    {(refs v r.sb.ninodes ino (inum, .addr (Fin.last NDIRECT))).getD 0}
  else ∅

/-- The inode block, if the file grows. -/
def inodeSector : Finset Nat :=
  if 0 < n ∧ (ino inum).size.toNat < off + n then {iblock inum} else ∅

/-- The sectors that a write logs, as they are known before. -/
def stock : Finset Nat :=
  oldSectors r inum v ino off n ∪ (newBlocks r inum v ino off n).toFinset ∪
    oldIndirect r inum v ino off n ∪ bitmapSectors r inum v ino off n ∪
    inodeSector inum ino off n

theorem LacksIndirect.exists_missing {r : Region} {inum : Nat} {v : Nat → Block}
    {ino : Nat → Dinode} {off n : Nat} (h : LacksIndirect r inum v ino off n) :
    ∃ bn ∈ missing r inum v ino off n, NDIRECT ≤ bn := by
  obtain ⟨hnone, bn, hbn, hfar⟩ := h
  refine ⟨bn, mem_filter.mpr ⟨hbn, ?_⟩, hfar⟩
  unfold blockAt
  cases hs : slotOf bn with
  | none => rfl
  | some s =>
    obtain ⟨j, rfl⟩ := slotOf_of_le hs hfar
    rw [Option.bind_some]
    cases hb : refs v r.sb.ninodes ino (inum, .entry j) with
    | none => rfl
    | some b =>
      obtain ⟨a, ha, -⟩ := refs_entry hb
      rw [hnone] at ha
      cases ha

theorem card_oldSectors : (oldSectors r inum v ino off n).card +
    (missing r inum v ino off n).card ≤ (touched off n).card := by
  have hsub : missing r inum v ino off n ⊆ touched off n := filter_subset ..
  have himage : (oldSectors r inum v ino off n).card ≤
      (touched off n \ missing r inum v ino off n).card := card_image_le
  rw [card_sdiff_of_subset hsub] at himage
  have := card_le_card hsub
  omega

theorem card_newBlocks : (newBlocks r inum v ino off n).toFinset.card ≤
    (missing r inum v ino off n).card + if LacksIndirect r inum v ino off n then 1 else 0 := by
  apply (List.toFinset_card_le _).trans
  unfold newBlocks
  rw [List.length_take]
  exact Nat.min_le_left ..

theorem card_oldIndirect : (if LacksIndirect r inum v ino off n then 1 else 0) +
    (oldIndirect r inum v ino off n).card ≤
      if ∃ bn ∈ missing r inum v ino off n, NDIRECT ≤ bn then 1 else 0 := by
  unfold oldIndirect
  by_cases hlack : LacksIndirect r inum v ino off n
  · rw [if_pos hlack, if_neg (fun h => h.2 hlack), if_pos hlack.exists_missing]
    simp
  · rw [if_neg hlack]
    by_cases hmiss : ∃ bn ∈ missing r inum v ino off n, NDIRECT ≤ bn
    · rw [if_pos ⟨hmiss, hlack⟩, if_pos hmiss]
      simp
    · rw [if_neg (fun h => hmiss h.1), if_neg hmiss]
      simp

end

section

variable {r : Region} {inum : Nat} {v : Nat → Block} {ino : Nat → Dinode} {off n : Nat}

theorem card_stock_le : (stock r inum v ino off n).card ≤ budget r inum v ino off n := by
  have hgrow : (inodeSector inum ino off n).card ≤
      if 0 < n ∧ (ino inum).size.toNat < off + n then 1 else 0 := by
    unfold inodeSector
    split_ifs <;> simp
  have h1 := card_union_le (oldSectors r inum v ino off n)
    (newBlocks r inum v ino off n).toFinset
  have h2 := card_union_le
    (oldSectors r inum v ino off n ∪ (newBlocks r inum v ino off n).toFinset)
    (oldIndirect r inum v ino off n)
  have h3 := card_union_le (oldSectors r inum v ino off n ∪
    (newBlocks r inum v ino off n).toFinset ∪ oldIndirect r inum v ino off n)
    (bitmapSectors r inum v ino off n)
  have h4 := card_oldSectors r inum v ino off n
  have h5 := card_newBlocks r inum v ino off n
  have h6 := card_oldIndirect r inum v ino off n
  unfold stock budget
  apply (card_union_le _ _).trans
  omega

/-- With enough free blocks, everything that a write takes is in `stock`. -/
theorem stocked_stock {L : Finset Nat} (hL : stock r inum v ino off n ⊆ L)
    (henough : (newPositions r inum v ino off n).card ≤ (freeBlocks r.sb v).length) :
    Stocked r inum L v ino off n := by
  have hmem : ∀ {b}, (b ∈ oldSectors r inum v ino off n ∨ b ∈ newBlocks r inum v ino off n ∨
      b ∈ oldIndirect r inum v ino off n ∨ b ∈ bitmapSectors r inum v ino off n) → b ∈ L := by
    intro b hb
    apply hL
    simp only [stock, mem_union, List.mem_toFinset]
    tauto
  have hnew : ∀ b ∈ (freeBlocks r.sb v).take (newPositions r inum v ino off n).card,
      b ∈ newBlocks r inum v ino off n := by
    intro b hb
    rw [card_newPositions] at hb
    exact hb
  refine ⟨henough, fun b hb => ⟨hmem (.inr (.inl (hnew b hb))), ?_⟩, ?_, ?_⟩
  · exact hmem (.inr (.inr (.inr (mem_bitmapSectors.mpr ⟨b, hnew b hb, rfl⟩))))
  · intro bn hbn s b hs hb
    have hat : blockAt r inum v ino bn = some b := by
      rw [blockAt, hs]
      exact hb
    refine hmem (.inl (mem_image.mpr ⟨bn, mem_sdiff.mpr ⟨hbn, fun hmiss => ?_⟩, ?_⟩))
    · rw [(mem_filter.mp hmiss).2] at hat
      cases hat
    · rw [hat]
      rfl
  · intro bn hbn hfar a ha
    have hhas : ¬ LacksIndirect r inum v ino off n := by
      intro hlack
      rw [hlack.1] at ha
      cases ha
    refine hmem (.inr (.inr (.inl ?_)))
    unfold oldIndirect
    rw [if_pos ⟨⟨bn, hbn, hfar⟩, hhas⟩, ha]
    exact mem_singleton_self a

end

/-! ## Reading and writing -/

section

variable {r : Region} {k : Kernel} {v : Nat → Block} {ino : Nat → Dinode} {inum off n : Nat}
  {e : Fin NINODE}

theorem poised_of_free {L : Finset Nat} (hfree : ∀ b, (k.store.buf b).busy = false)
    (hdisk : r.top ≤ k.store.disksize) (hlog : ∀ s ∈ k.log.lh, s ∈ L) (hL : L.card + 3 ≤ NBUF) :
    Poised r.top L [] k := by
  refine ⟨fun b hb => ?_, fun b s h => absurd h List.not_mem_nil, List.nodup_nil, hdisk, hlog, hL⟩
  rw [hfree b] at hb
  cases hb

theorem Idle.poised (h : Idle r k) : Poised r.top k.log.lh.toFinset [] k := by
  apply poised_of_free h.free h.disk (fun s hs => List.mem_toFinset.mpr hs)
  have := List.toFinset_card_le k.log.lh
  have := h.clean
  omega

theorem Room.poised (h : Room r k v ino inum off n) :
    ∃ L, Poised r.top L [] k ∧ InTrans L k ∧ Stocked r inum L v ino off n ∧
      (0 < n ∧ (ino inum).size.toNat < off + n → iblock inum ∈ L) := by
  have hcard : (k.log.lh.toFinset ∪ stock r inum v ino off n).card ≤
      k.log.lh.length + budget r inum v ino off n := by
    refine (card_union_le _ _).trans (Nat.add_le_add ?_ card_stock_le)
    exact List.toFinset_card_le k.log.lh
  refine ⟨k.log.lh.toFinset ∪ stock r inum v ino off n, ?_, ?_, ?_, ?_⟩
  · refine poised_of_free h.free h.disk (fun s hs => ?_) ?_
    · exact mem_union_left _ (List.mem_toFinset.mpr hs)
    · have := h.cache
      omega
  · refine ⟨h.nodup, h.trans, ?_⟩
    have := h.log
    omega
  · exact stocked_stock subset_union_right h.blocks
  · intro hgrow
    apply mem_union_right
    apply mem_union_right
    rw [inodeSector, if_pos hgrow]
    exact mem_singleton_self _

theorem writei_refuses {src : Nat → UInt8} (htype : (k.icache e).d.type ≠ T_DEV)
    (h : (k.icache e).d.size.toNat < off ∨ 2 ^ 32 ≤ off + n ∨ MAXFILE * BSIZE < off + n) :
    writei e src off n k = .ok none k [] := by
  refine Ends.run_eq (E := Never) (ends_writei htype (fun _ => ⟨rfl, rfl, rfl⟩) ?_) fun _ => id
  omega

theorem readi_refuses (htype : (k.icache e).d.type ≠ T_DEV)
    (h : (k.icache e).d.size.toNat < off ∨ 2 ^ 32 ≤ off + n) :
    readi e off n k = .ok none k [] := by
  refine Ends.run_eq (E := Never) ?_ fun _ => id
  apply ends_inode_bind
  rw [if_neg htype, if_pos h]
  exact ends_pure ⟨rfl, rfl, rfl⟩

/-- `writei` takes free blocks, lowest first, and no more than there are positions to fill. If it
writes, it fills them all. -/
theorem writei_takes {src : Nat → UInt8} (h : Sees k v) (hs : Sound r v ino)
    (hl : Allocated r.sb.ninodes ino (k.icache e).inum)
    (hd : ino (k.icache e).inum = (k.icache e).d) (htype : (k.icache e).d.type ≠ T_DEV) :
    Ends (writei e src off n) k (fun _ k' es => ∃ v', Sees k' v' ∧
      freeBlocks r.sb v = ballocs es ++ freeBlocks r.sb v' ∧
      (ballocs es).length ≤ (newPositions r (k.icache e).inum v ino off n).card ∧
      (Accepts (k.icache e).d off n →
        (ballocs es).length = (newPositions r (k.icache e).inum v ino off n).card)) Benign := by
  refine ends_writei htype (fun hout => ⟨v, h, rfl, Nat.zero_le _, fun hacc => ?_⟩)
    fun _ _ _ => ?_
  · unfold Accepts at hacc
    omega
  apply (writeiLoop_ends n src off n le_rfl rfl h hs hl hd).bind
  rintro _ k1 es1 ⟨v1, hw1, hext, hmap, -⟩
  have hcount : (ballocs es1).length = (newPositions r (k.icache e).inum v ino off n).card :=
    length_ballocs hs hext hmap
  have hgrow : Ends (writeiGrow e off n) k1 (fun _ k2 es2 => ballocs es2 = [] ∧
      ∃ v2, Sees k2 v2 ∧ freeBlocks r.sb v2 = freeBlocks r.sb v1) Benign := by
    apply ends_inode_bind
    split_ifs
    · apply (setDinode_ends hw1.sees).bind
      rintro _ k2 _ ⟨hw2, -, rfl⟩
      apply (iupdate_ends hw2.sees).mono
      rintro _ k3 _ ⟨hgo, rfl⟩
      refine ⟨rfl, _, hgo.sees, freeBlocks_congr fun b _ => ?_⟩
      have hon : OnDisk r.sb.ninodes (k2.icache e).inum := by
        rw [hw2.inum, hw1.inum]
        exact hl.onDisk
      exact bit_congr (update_of_ne (bblock_ne_iblock hon) ..)
    · exact ends_pure ⟨rfl, v1, hw1.sees, rfl⟩
  apply hgrow.bind
  rintro _ k2 es2 ⟨hnone, v2, hsees2, hfree⟩
  have hall : ballocs (es1 ++ (es2 ++ [])) = ballocs es1 := by
    rw [List.append_nil, ballocs, List.filterMap_append]
    exact (congrArg (ballocs es1 ++ ·) hnone).trans (List.append_nil _)
  refine ends_pure ⟨v2, hsees2, ?_⟩
  rw [hall, hfree]
  exact ⟨hext.taken, hcount.le, fun _ => hcount⟩

theorem readi_poised {L : Finset Nat} (h : Sees k v) (hs : Sound r v ino)
    (hr : Poised r.top L [] k) (hd : ino (k.icache e).inum = (k.icache e).d)
    (hdev : (k.icache e).dev = ROOTDEV) (htype : (k.icache e).d.type ≠ T_DEV)
    (hmap : Mapped r (k.icache e).inum v ino 0 (k.icache e).d.size.toNat) :
    Ends (readi e off n) k (fun _ k' _ => Poised r.top L [] k' ∧ k'.log = k.log) Never := by
  apply ends_inode_bind
  rw [if_neg htype]
  by_cases hout : (k.icache e).d.size.toNat < off ∨ 2 ^ 32 ≤ off + n
  · rw [if_pos hout]
    exact ends_pure ⟨hr, rfl⟩
  · rw [if_neg hout]
    apply (readiLoop_poised _ off _ rfl h hs hd hdev (hmap.mono (by omega)) hr).bind
    rintro bs k1 _ hp
    exact ends_pure hp

end

/-- The bytes of a file from `lo` to `hi`. -/
def Vnode.bytes (nd : Vnode) (lo hi : Nat) : List UInt8 :=
  (List.range (hi - lo)).map fun i => nd.byte (lo + i)

theorem Vnode.read_of_le {nd : Vnode} {off n : Nat} (h : ¬ (nd.size < off ∨ 2 ^ 32 ≤ off + n)) :
    nd.read off n = some (nd.bytes off (min (off + n) nd.size)) := by
  rw [Vnode.read, if_neg h, Vnode.bytes, show min n (nd.size - off) = min (off + n) nd.size - off by
    omega]

/-- File `inum` after `n` bytes of `src` have been written at `off`, and the other files. -/
structure Spliced (old new : Nat → Vnode) (inum : Nat) (src : Nat → UInt8) (off n : Nat) :
    Prop where
  size : (new inum).size = if n = 0 then (old inum).size else max (old inum).size (off + n)
  byte : ∀ i, (new inum).byte i =
    if off ≤ i ∧ i < off + n then src (i - off) else (old inum).byte i
  others : ∀ j, j ≠ inum → new j = old j

theorem spliced_put {old : Nat → Vnode} {inum : Nat} {src : Nat → UInt8} {off n : Nat} :
    Spliced old (update old inum ((old inum).put src off n)) inum src off n := by
  refine ⟨?_, fun i => ?_, fun j hj => update_of_ne hj ..⟩
  · rw [update_self]
    simp only [Vnode.put]
    split_ifs <;> omega
  · rw [update_self]
    rfl

section

variable {r : Region} {k : Kernel} {v : Nat → Block} {ino : Nat → Dinode} {e : Fin NINODE}
  {inum off n : Nat}

theorem Kernel.Coherent.size_eq (h : Coherent (plain r False) k v ino)
    (hst : Stands r.sb.ninodes (k.icache e) inum) :
    (nodes v r.sb.ninodes ino inum).size = (k.icache e).d.size.toNat :=
  congrArg Vnode.size (h.node hst)

theorem writei_splices {src : Nat → UInt8} (h : Coherent (plain r False) k v ino)
    (hst : Stands r.sb.ninodes (k.icache e) inum) (htype : (k.icache e).d.type ≠ T_DEV)
    (hmap : Mapped r inum v ino 0 (k.icache e).d.size.toNat)
    (hacc : (nodes v r.sb.ninodes ino inum).Accepts off n) :
    Ends (writei e src off n) k (fun x k' _ => x = some n ∧ ∃ v' ino',
      Coherent (plain r False) k' v' ino' ∧ Stands r.sb.ninodes (k'.icache e) inum ∧
      Mapped r inum v' ino' 0 (k'.icache e).d.size.toNat ∧
      Spliced (nodes v r.sb.ninodes ino) (nodes v' r.sb.ninodes ino') inum src off n) Benign := by
  obtain rfl := hst.inum
  refine (writei_ends h hst.ref hst.valid (fun _ => hst.onDisk) fun _ _ _ _ => trivial).mono ?_
  rintro x k' es ⟨hc, ht, hent, hhon⟩
  obtain ⟨⟨v', ino', hc', hwrote, -, hmap'⟩, -⟩ := hc fun ev hev => (hhon ev hev).within
  rw [Wrote, if_neg htype] at hwrote
  change if (nodes v r.sb.ninodes ino (k.icache e).inum).Accepts off n then _ else _ at hwrote
  rw [if_pos hacc] at hwrote
  obtain ⟨rfl, hnodes⟩ := hwrote
  have hst' : Stands r.sb.ninodes (k'.icache e) (k.icache e).inum := by
    refine ⟨?_, ?_, ?_, hst.onDisk⟩ <;> rw [hent]
    · exact hst.ref
    · exact hst.valid
  refine ⟨rfl, v', ino', hc', hst', ?_, ?_⟩
  · have := hmap' (by rw [(h.entry e _ hst).1]; exact hmap)
    rwa [(hc'.entry e _ hst').1] at this
  · change nodes v' r.sb.ninodes ino' = update (nodes v r.sb.ninodes ino) _ _ at hnodes
    rw [hnodes]
    exact spliced_put

/-- Where there is room, `writei` returns. -/
theorem writei_returns {ru : Rules} {src : Nat → UInt8} (h : Coherent ru k v ino)
    (hst : Stands ru.ninodes (k.icache e) inum) (htype : (k.icache e).d.type ≠ T_DEV)
    (hroom : Room ru.region k v ino inum off n) : Ends (writei e src off n) k
      (fun _ k' _ => ∃ L, Poised ru.region.top L [] k' ∧ InTrans L k') Never := by
  have hd := (h.entry e _ hst).1
  obtain ⟨L, hr, ho, hs, hgrow⟩ := hroom.poised
  obtain rfl := hst.inum
  rw [hd] at hgrow
  exact (writei_poised h.sees h.sound (h.allocated hst) hd (h.root e hst.ref) htype hr ho hs
    hgrow).mono fun _ _ _ hpost => ⟨L, hpost⟩

/-- The first byte of an empty file goes to the first free block. -/
theorem writei_first {b : Nat} {bs : List Nat} (src : Nat → UInt8)
    (h : Coherent (plain r False) k v ino) (hst : Stands r.sb.ninodes (k.icache e) inum)
    (htype : (k.icache e).d.type ≠ T_DEV) (hroom : Room r k v ino inum 0 1)
    (hnone : blockAt r inum v ino 0 = none) (hfree : freeBlocks r.sb v = b :: bs) :
    ∃ x k' es st, writei e src 0 1 k = .ok x k' es ∧ .balloc st b ∈ es := by
  have hends : Ends (writei e src 0 1) k _ _ := writei_returns h hst htype hroom
  obtain rfl := hst.inum
  have htakes : Ends (writei e src 0 1) k _ _ :=
    writei_takes (r := r) h.sees h.sound (h.allocated hst) (h.entry e _ hst).1 htype
  cases hx : writei e src 0 1 k with
  | halt why es => exact (hends.of_halt hx).elim
  | ok x k' es =>
    obtain ⟨v', -, htaken, -, hcount⟩ := htakes.of_ok hx
    have hpos : 0 < (ballocs es).length := by
      rw [hcount ⟨Nat.zero_le _, by decide, by decide⟩]
      exact card_pos.mpr ⟨some 0, mem_union_left _
        (mem_map_of_mem _ (mem_filter.mpr ⟨by decide, hnone⟩))⟩
    obtain ⟨c, cs, hc⟩ := List.exists_cons_of_length_pos hpos
    rw [hc, hfree] at htaken
    obtain ⟨rfl, -⟩ := List.cons.inj htaken
    obtain ⟨st, hst⟩ := mem_ballocs.mp (hc ▸ List.mem_cons_self)
    exact ⟨x, k', es, st, rfl, hst⟩

/-- A read of a file without holes gives its bytes and changes nothing. -/
theorem readi_bytes (h : Coherent (plain r False) k v ino)
    (hst : Stands r.sb.ninodes (k.icache e) inum) (htype : (k.icache e).d.type ≠ T_DEV)
    (hmap : Mapped r inum v ino 0 (k.icache e).d.size.toNat)
    (hin : ¬ ((k.icache e).d.size.toNat < off ∨ 2 ^ 32 ≤ off + n)) :
    Ends (readi e off n) k (fun x k' es =>
      x = some ((nodes v r.sb.ninodes ino inum).bytes off
        (min (off + n) (k.icache e).d.size.toNat)) ∧
      es = [] ∧ k'.icache = k.icache ∧ Coherent (plain r False) k' v ino) Benign := by
  obtain rfl := hst.inum
  have hsize := h.size_eq hst
  apply (readi_ends h hst.ref hst.valid fun _ => hst.onDisk).mono
  rintro x k' es ⟨-, -, -, -, hx, hread⟩
  obtain ⟨hc', hic, rfl⟩ := hread fun _ => hmap
  refine ⟨?_, rfl, hic, hc'⟩
  rw [← hsize] at hin ⊢
  exact (hx htype).trans (Vnode.read_of_le hin)

end

/-- The contents of a file are an array of bytes: an access outside it is refused and changes
nothing; every other one reads or writes the bytes that it is for, and returns if there is room. -/
theorem file_contents {r : Region} {k : Kernel} {v : Nat → Block} {ino : Nat → Dinode}
    {e : Fin NINODE} {inum : Nat} (h : Coherent (plain r False) k v ino)
    (hst : Stands r.sb.ninodes (k.icache e) inum) (htype : (k.icache e).d.type ≠ T_DEV)
    (hmap : Mapped r inum v ino 0 (k.icache e).d.size.toNat) (src : Nat → UInt8) (off n : Nat) :
    (if (k.icache e).d.size.toNat < off ∨ 2 ^ 32 ≤ off + n ∨ MAXFILE * BSIZE < off + n then
      writei e src off n k = .ok none k []
    else Ends (writei e src off n) k (fun x k' _ => x = some n ∧ ∃ v' ino',
      Coherent (plain r False) k' v' ino' ∧ Stands r.sb.ninodes (k'.icache e) inum ∧
      Mapped r inum v' ino' 0 (k'.icache e).d.size.toNat ∧
      Spliced (nodes v r.sb.ninodes ino) (nodes v' r.sb.ninodes ino') inum src off n)
      fun _ => ¬ Room r k v ino inum off n) ∧
    (if (k.icache e).d.size.toNat < off ∨ 2 ^ 32 ≤ off + n then
      readi e off n k = .ok none k []
    else Ends (readi e off n) k (fun x k' es =>
      x = some ((nodes v r.sb.ninodes ino inum).bytes off
        (min (off + n) (k.icache e).d.size.toNat)) ∧
      es = [] ∧ k'.icache = k.icache ∧ Coherent (plain r False) k' v ino)
      fun _ => ¬ Idle r k) := by
  have hsize := h.size_eq hst
  have hd := (h.entry e _ hst).1
  have hdev := h.root e hst.ref
  constructor
  · split_ifs with hout
    · exact writei_refuses htype hout
    have hacc : (nodes v r.sb.ninodes ino inum).Accepts off n := by
      rw [Vnode.Accepts, hsize]
      omega
    exact (writei_splices h hst htype hmap hacc).unless (writei_returns h hst htype) fun _ => id
  · split_ifs with hout
    · exact readi_refuses htype hout
    have hreturns : Idle r k → Ends (readi e off n) k (fun _ _ _ => True) Never := by
      intro hidle
      obtain rfl := hst.inum
      exact (readi_poised h.sees h.sound hidle.poised hd hdev htype hmap).mono
        fun _ _ _ _ => trivial
    exact (readi_bytes h hst htype hmap hout).unless hreturns fun _ => id

/-- The kernel with a new file, inside an operation. -/
def writerKernel : Kernel :=
  { newFileKernel with log := { newFileKernel.log with outstanding := 1 } }

theorem coherent_of_open {r : Region} {k : Kernel} {v : Nat → Block} {e : Fin NINODE} {ip : Inode}
    (hsees : k.Sees v) (hsound : Sound r v (dino v))
    (hic : k.icache = update Icache.empty e ip) (hdev : ip.dev = ROOTDEV)
    (hd : dino v ip.inum = ip.d) (htype : ip.d.type ≠ 0) :
    Coherent (plain r False) k v (dino v) := by
  have hself : k.icache e = ip := by rw [hic, update_self]
  have honly : ∀ {f}, 0 < (k.icache f).ref → f = e := by
    intro f hf
    by_contra hne
    rw [hic, update_of_ne hne] at hf
    exact absurd hf (lt_irrefl 0)
  refine ⟨hsees, hsound, fun f hf => ?_, fun f g hf hg _ => ?_, fun f j hf => ?_,
    fun j _ => .refl _, fun j _ _ => rfl, fun p b hp => ?_, fun _ _ _ _ _ => trivial,
    fun hx => absurd hx id⟩
  · rw [honly hf, hself]
    exact hdev
  · rw [honly hf, honly hg]
  · obtain rfl := honly hf.ref
    rw [hself] at hf ⊢
    obtain rfl := hf.inum
    exact ⟨hd, hd ▸ htype⟩
  · exact (hsound.lo_le hp).2.1.trans_le r.hi_le

theorem writerKernel_stands : Stands newFileRegion.sb.ninodes (writerKernel.icache inode0) 1 :=
  ⟨by decide, by decide, by decide, by decide, by decide⟩

theorem writerKernel_coherent :
    Coherent (plain newFileRegion False) writerKernel newFileDisk (dino newFileDisk) :=
  coherent_of_open newFileKernel_sees newFileDisk_sound rfl rfl
    (getDinode_putDinode_self (by decide)) (by decide)

theorem file_contents_writer : ∃ k' es,
    writei inode0 (fun _ => 7) 0 5 writerKernel = .ok (some 5) k' es ∧ ∃ v' ino',
      Spliced (nodes newFileDisk 8 (dino newFileDisk)) (nodes v' 8 ino') 1 (fun _ => 7) 0 5 := by
  have hroom : Room newFileRegion writerKernel newFileDisk (dino newFileDisk) 1 0 5 :=
    ⟨by decide, by decide, by decide, by decide, by decide +kernel, by decide +kernel,
      by decide +kernel⟩
  have hmap : Mapped newFileRegion 1 newFileDisk (dino newFileDisk) 0
      (writerKernel.icache inode0).d.size.toNat := fun bn hbn => absurd hbn (not_touches_zero 0 bn)
  have hends := (file_contents writerKernel_coherent writerKernel_stands (by decide) hmap
    (fun _ => 7) 0 5).1
  rw [if_neg (by decide)] at hends
  cases hrun : writei inode0 (fun _ => 7) 0 5 writerKernel with
  | ok x k' es =>
    obtain ⟨rfl, v', ino', -, -, -, hspliced⟩ := hends.of_ok hrun
    exact ⟨k', es, rfl, v', ino', hspliced⟩
  | halt why es => exact absurd hroom (hends.of_halt hrun)

end Xv6
