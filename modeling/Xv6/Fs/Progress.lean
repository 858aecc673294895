import Xv6.Fs.Poised
import Xv6.Fs.Budget
import Xv6.Fs.Keep

/-!
# When reading and writing a file does not stop

`readi` and `writei` return when nobody holds a buffer, the disk has the sectors, and, for a write,
a transaction is open that has room for the sectors of `budget` and the disk has a free block for
every position that has to be filled.
-/

namespace Xv6.Kernel

open Function Option Finset

open Lib Act

/-! ## Mapping the blocks of a file -/

section

variable {k : Kernel} {v : Nat → Block} {r : Region} {ino : Nat → Dinode} {L : Finset Nat}
  {e : Fin NINODE}

theorem bmapAddr_poised {i : Fin (NDIRECT + 1)} (h : Sees k v) (hs : Sound r v ino)
    (hr : Poised r.top L [] k) (ho : InTrans L k) (hdev : (k.icache e).dev = ROOTDEV)
    (hnext : (k.icache e).d.addrs i = 0 → NextIn r v L) :
    Ends (bmapAddr e i) k (fun _ k' _ => Poised r.top L [] k' ∧ InTrans L k') Never := by
  apply ends_inode_bind
  by_cases hi : (k.icache e).d.addrs i = 0
  · rw [if_pos hi, hdev]
    apply (balloc_poised h hs hr ho aside_nil (hnext hi)).bind
    rintro addr k1 _ ⟨hr1, ho1⟩
    apply setInode_ends.bind
    rintro _ _ _ ⟨rfl, rfl⟩
    exact ends_pure ⟨hr1.congr rfl rfl, ho1.congr rfl⟩
  · rw [if_neg hi]
    exact ends_pure ⟨hr, ho⟩

theorem bmapEntry_poised {a inum : Nat} {j : Fin NINDIRECT} (h : Sees k v) (hs : Sound r v ino)
    (hr : Poised r.top L [] k) (ho : InTrans L k)
    (ha : refs v r.sb.ninodes ino (inum, .addr (Fin.last NDIRECT)) = some a)
    (hnext : refs v r.sb.ninodes ino (inum, .entry j) = none → a ∈ L ∧ NextIn r v L) :
    Ends (bmapEntry ROOTDEV a j) k (fun _ k' _ => Poised r.top L [] k' ∧ InTrans L k') Never := by
  obtain ⟨hlo, hhi, hused⟩ := hs.lo_le ha
  have hentry : refs v r.sb.ninodes ino (inum, .entry j) = ptr (getAddr (v a) j) := by
    rw [refs_of_allocated (refs_eq_some ha).1]
    have hptr : ptr ((ino inum).addrs (Fin.last NDIRECT)) = some a := (refs_eq_some ha).2
    simp only [slotRef, hptr, bind_some]
  refine ((bread_poised h hr (Nat.zero_le 2) (hhi.trans_le r.hi_le)
    fun _ => List.not_mem_nil).and (bread_ends h)).bind ?_
  rintro bp k1 _ ⟨⟨hr1, hlog1⟩, -, hh, rfl⟩
  apply ends_data_bind
  rw [hh.data]
  by_cases hj : getAddr (v a) j = 0
  · rw [if_pos hj]
    obtain ⟨haL, hn⟩ := hnext (by rw [hentry, hj]; rfl)
    have hside : Aside r v [(bp, a)] := by
      refine ⟨Nat.le_succ 1, fun c t hc => ?_⟩
      obtain ⟨-, rfl⟩ := Prod.mk.inj (List.mem_singleton.mp hc)
      exact ⟨hlo, hused⟩
    apply (balloc_poised hh.sees hs hr1 (ho.congr hlog1) hside hn).bind
    rintro addr k2 _ ⟨hr2, ho2⟩
    apply ends_data_bind
    apply (writeBack_poised hr2 ho2 haL).bind
    rintro _ k3 _ hp
    exact ends_pure hp
  · rw [if_neg hj]
    apply (brelse_poised hr1).bind
    rintro _ k2 _ ⟨hr2, hlog2⟩
    exact ends_pure ⟨hr2, ho.congr (hlog2.trans hlog1)⟩

end

/-! ## The blocks that a write needs -/

/-- The blocks of the sectors that a write logs, and the free blocks that it takes. -/
structure Stocked (r : Region) (inum : Nat) (L : Finset Nat) (v : Nat → Block)
    (ino : Nat → Dinode) (off n : Nat) : Prop where
  enough : (newPositions r inum v ino off n).card ≤ (freeBlocks r.sb v).length
  fresh : ∀ b ∈ (freeBlocks r.sb v).take (newPositions r inum v ino off n).card,
    b ∈ L ∧ bblock b r.sb.ninodes ∈ L
  present : ∀ bn ∈ touched off n, ∀ s b, slotOf bn = some s →
    refs v r.sb.ninodes ino (inum, s) = some b → b ∈ L
  indirect : ∀ bn ∈ missing r inum v ino off n, NDIRECT ≤ bn → ∀ a,
    refs v r.sb.ninodes ino (inum, .addr (Fin.last NDIRECT)) = some a → a ∈ L

section

variable {v v' : Nat → Block} {r : Region} {ino : Nat → Dinode} {L : Finset Nat}
  {inum off n off' n' : Nat} {d' : Dinode} {es : List FsEvent}

/-- The block at a position of the file. -/
def posRef (r : Region) (inum : Nat) (v : Nat → Block) (ino : Nat → Dinode) (c : Option Nat) :
    Option Nat := (posSlot c).bind fun s => refs v r.sb.ninodes ino (inum, s)

/-- The positions that the bytes lie at, with the indirect block if it leads to one of them. -/
def Wanted (off n : Nat) : Option Nat → Prop
  | some bn => bn ∈ touched off n
  | none => ∃ bn ∈ touched off n, NDIRECT ≤ bn

theorem mem_newPositions_iff {c : Option Nat} :
    c ∈ newPositions r inum v ino off n ↔ Wanted off n c ∧ posRef r inum v ino c = none := by
  rw [mem_newPositions]
  cases c with
  | none =>
    simp only [reduceCtorEq, and_false, exists_false, false_or, and_true, LacksIndirect, Wanted,
      posRef, posSlot, bind_some]
    exact and_comm
  | some bn =>
    simp only [some.injEq, exists_eq_right', reduceCtorEq, and_false, or_false, missing,
      blockAt, Wanted, posRef, posSlot]
    exact mem_filter

theorem mem_missing_iff {bn : Nat} :
    bn ∈ missing r inum v ino off n ↔ some bn ∈ newPositions r inum v ino off n := by
  simp [mem_newPositions]

theorem newPositions_subset (hkeep : ∀ s b, refs v r.sb.ninodes ino (inum, s) = some b →
      refs v' r.sb.ninodes (update ino inum d') (inum, s) = some b)
    (hsub : touched off' n' ⊆ touched off n) :
    newPositions r inum v' (update ino inum d') off' n' ⊆
      newPositions r inum v ino off n := by
  intro c hc
  obtain ⟨hw, hnone⟩ := mem_newPositions_iff.mp hc
  refine mem_newPositions_iff.mpr ⟨?_, ?_⟩
  · cases c with
    | none =>
      obtain ⟨bn, hbn, hfar⟩ := hw
      exact ⟨bn, hsub hbn, hfar⟩
    | some bn => exact hsub hw
  · unfold posRef at hnone ⊢
    cases hs : posSlot c with
    | none => rfl
    | some s =>
      rw [hs, bind_some] at hnone
      rw [bind_some]
      cases hb : refs v r.sb.ninodes ino (inum, s) with
      | none => rfl
      | some b =>
        rw [hkeep s b hb] at hnone
        cases hnone

/-- Each block taken fills a position. -/
theorem ballocs_add_card_le {c : Scope} (hs : Sound r v ino)
    (hext : Extends r inum c v ino v' d' es)
    (hslots : ∀ s ∈ c.slots, ∃ p, Wanted off n p ∧ posSlot p = some s) :
    (ballocs es).length + (newPositions r inum v' (update ino inum d') off n).card ≤
      (newPositions r inum v ino off n).card := by
  have hsub : newPositions r inum v' (update ino inum d') off n ⊆
      newPositions r inum v ino off n :=
    newPositions_subset (fun s b => hext.keeps (inum, s) b) (Finset.Subset.refl _)
  have hnodup : (ballocs es).Nodup := by
    have hfree : (freeBlocks r.sb v).Nodup := List.nodup_range.filter _
    rw [hext.taken] at hfree
    exact (List.nodup_append.mp hfree).1
  have himage : (ballocs es).toFinset ⊆
      (newPositions r inum v ino off n \
        newPositions r inum v' (update ino inum d') off n).image
        fun p => (posRef r inum v' (update ino inum d') p).getD 0 := by
    intro b hb
    have hfresh := mem_ballocs.mp (List.mem_toFinset.mp hb)
    obtain ⟨s, hplace⟩ := hext.placed b hfresh
    obtain ⟨hslot, hnone⟩ := hext.new_of_fresh hs hfresh hplace
    obtain ⟨p, hw, hp⟩ := hslots s hslot
    have hnew : posRef r inum v' (update ino inum d') p = some b := by
      rw [posRef, hp]
      exact hplace
    have hold : posRef r inum v ino p = none := by
      rw [posRef, hp]
      exact hnone
    refine mem_image.mpr ⟨p, mem_sdiff.mpr ⟨?_, fun hmem => ?_⟩, ?_⟩
    · exact mem_newPositions_iff.mpr ⟨hw, hold⟩
    · rw [(mem_newPositions_iff.mp hmem).2] at hnew
      cases hnew
    · rw [hnew]
      rfl
  have hcard := (card_le_card himage).trans card_image_le
  rw [List.toFinset_card_of_nodup hnodup, card_sdiff_of_subset hsub] at hcard
  have := card_le_card hsub
  omega

theorem Stocked.extends {c : Scope} (h : Stocked r inum L v ino off n) (hs : Sound r v ino)
    (hext : Extends r inum c v ino v' d' es)
    (hslots : ∀ s ∈ c.slots, ∃ p, Wanted off n p ∧ posSlot p = some s) :
    Stocked r inum L v' (update ino inum d') off n := by
  have hcard := ballocs_add_card_le hs hext hslots
  have htaken := hext.taken
  -- the blocks taken are among the first free ones
  have hfresh : ∀ b, Fresh es b → b ∈ L := by
    intro b hb
    have hmem := mem_ballocs.mpr hb
    refine (h.fresh b ?_).1
    rw [htaken, List.take_append]
    apply List.mem_append_left
    rw [List.take_of_length_le (by omega)]
    exact hmem
  refine ⟨?_, fun b hb => h.fresh b ?_, fun bn hbn s b hslot hp => ?_, fun bn hbn hfar a ha => ?_⟩
  · have henough := h.enough
    rw [htaken, List.length_append] at henough
    omega
  · rw [htaken, List.take_append]
    apply List.mem_append_right
    exact List.take_subset_take_left _ (by omega) hb
  · rcases hext.fresh _ _ hp with hold | ⟨-, -, hb⟩
    · exact h.present bn hbn s b hslot hold
    · exact hfresh b hb
  · rcases hext.fresh _ _ ha with hold | ⟨-, -, hb⟩
    · have hmem := newPositions_subset (fun s b => hext.keeps (inum, s) b) (Finset.Subset.refl _)
        (mem_missing_iff.mp hbn)
      exact h.indirect bn (mem_missing_iff.mpr hmem) hfar a hold
    · exact hfresh a hb

theorem Stocked.part (h : Stocked r inum L v ino off n)
    (hsub : touched off' n' ⊆ touched off n) : Stocked r inum L v ino off' n' := by
  have hpos : newPositions r inum v ino off' n' ⊆ newPositions r inum v ino off n := by
    have hsame : newPositions r inum v (update ino inum (ino inum)) off' n' ⊆
        newPositions r inum v ino off n :=
      newPositions_subset (fun s b hb => by rw [update_eq_self]; exact hb) hsub
    rwa [update_eq_self] at hsame
  have hcard := card_le_card hpos
  refine ⟨hcard.trans h.enough, fun b hb => h.fresh b (List.take_subset_take_left _ hcard hb),
    fun bn hbn => h.present bn (hsub hbn), fun bn hbn => h.indirect bn ?_⟩
  exact mem_missing_iff.mpr (hpos (mem_missing_iff.mp hbn))

/-- A position to be filled has a block waiting for it. -/
theorem Stocked.next (h : Stocked r inum L v ino off n) {c : Option Nat} (hw : Wanted off n c)
    (hnone : posRef r inum v ino c = none) : NextIn r v L := by
  have hpos : 0 < (newPositions r inum v ino off n).card :=
    card_pos.mpr ⟨c, mem_newPositions_iff.mpr ⟨hw, hnone⟩⟩
  have henough := h.enough
  have hfresh := h.fresh
  cases hfree : freeBlocks r.sb v with
  | nil =>
    rw [hfree, List.length_nil] at henough
    omega
  | cons b rest =>
    refine ⟨b, rest, hfree, hfresh b ?_⟩
    rw [hfree]
    obtain ⟨m, hm⟩ := Nat.exists_eq_add_of_le hpos
    rw [hm, Nat.add_comm, List.take_succ_cons]
    exact List.mem_cons_self ..

end

section

variable {k : Kernel} {v : Nat → Block} {r : Region} {ino : Nat → Dinode} {L : Finset Nat}
  {e : Fin NINODE} {off n bn : Nat}

theorem wanted_of_mem_slotsOf {s : Slot} (hbn : bn ∈ touched off n) (hs : s ∈ slotsOf bn) :
    ∃ p, Wanted off n p ∧ posSlot p = some s := by
  rcases hs with hs | ⟨hfar, rfl⟩
  · exact ⟨some bn, hbn, hs⟩
  · exact ⟨none, ⟨bn, hbn, hfar⟩, rfl⟩

/-- `bmap` returns if a block is waiting for each position that it has to fill. -/
theorem bmap_poised (h : Sees k v) (hs : Sound r v ino)
    (hl : Allocated r.sb.ninodes ino (k.icache e).inum)
    (hd : ino (k.icache e).inum = (k.icache e).d) (hdev : (k.icache e).dev = ROOTDEV)
    (hr : Poised r.top L [] k) (ho : InTrans L k)
    (hst : Stocked r (k.icache e).inum L v ino off n) (hbn : bn ∈ touched off n) :
    Ends (bmap e bn) k (fun _ k' _ => Poised r.top L [] k' ∧ InTrans L k') Never := by
  have hmax : bn < MAXFILE := mem_range.mp (mem_filter.mp hbn).1
  -- an empty address of the inode is a position to be filled
  have haddr : ∀ i, (k.icache e).d.addrs i = 0 →
      refs v r.sb.ninodes ino ((k.icache e).inum, .addr i) = none := by
    intro i hi
    rw [refs_of_allocated hl, hd]
    simp only [slotRef, hi, ptr_zero]
  unfold bmap
  by_cases hnear : bn < NDIRECT
  · rw [dif_pos hnear]
    refine bmapAddr_poised h hs hr ho hdev fun hi => hst.next (c := some bn) hbn ?_
    simp only [posRef, posSlot, slotOf, dif_pos hnear, bind_some]
    exact haddr _ hi
  · rw [dif_neg hnear]
    have hj : bn - NDIRECT < NINDIRECT := by
      simp only [MAXFILE] at hmax
      omega
    rw [if_pos hj]
    have hslot : slotOf bn = some (.entry ⟨bn - NDIRECT, hj⟩) := by
      unfold slotOf
      rw [dif_neg hnear, dif_pos hj]
    have hwant : Wanted off n none := ⟨bn, hbn, by omega⟩
    have hfirst : Ends (bmapAddr e (Fin.last NDIRECT)) k
        (fun _ k' _ => Poised r.top L [] k' ∧ InTrans L k') Never := by
      refine bmapAddr_poised h hs hr ho hdev fun hi => hst.next hwant ?_
      simp only [posRef, posSlot, bind_some]
      exact haddr _ hi
    apply (hfirst.and (bmapAddr_ends h hs hl hd)).bind
    rintro a k1 es ⟨⟨hr1, ho1⟩, v1, hw1, hext1, href1, -⟩
    apply ends_inode_bind
    have hst1 : Stocked r (k.icache e).inum L v1
        (update ino (k.icache e).inum (k1.icache e).d) off n := by
      refine hst.extends hs hext1 fun s hs => ⟨none, hwant, ?_⟩
      rw [show s = .addr (Fin.last NDIRECT) from hs]
      rfl
    rw [show (k1.icache e).dev = ROOTDEV by rw [hw1.entry]; exact hdev]
    refine bmapEntry_poised (j := ⟨bn - NDIRECT, hj⟩) hw1.sees hext1.sound hr1 ho1 href1
      fun hnone => ?_
    have hpos : posRef r (k.icache e).inum v1
        (update ino (k.icache e).inum (k1.icache e).d) (some bn) = none := by
      simp only [posRef, posSlot, hslot, bind_some]
      exact hnone
    refine ⟨hst1.indirect bn ?_ (by omega) a href1, hst1.next (c := some bn) hbn hpos⟩
    exact mem_missing_iff.mpr (mem_newPositions_iff.mpr ⟨hbn, hpos⟩)

/-- `bmap` of a block that is there always returns. -/
theorem bmap_mapped_poised {a : Nat} {s : Slot} (h : Sees k v) (hs : Sound r v ino)
    (hr : Poised r.top L [] k) (hd : ino (k.icache e).inum = (k.icache e).d)
    (hdev : (k.icache e).dev = ROOTDEV) (hslot : slotOf bn = some s)
    (ha : refs v r.sb.ninodes ino ((k.icache e).inum, s) = some a) :
    Ends (bmap e bn) k (fun _ k' _ => Poised r.top L [] k' ∧ k'.log = k.log) Never := by
  obtain ⟨hl, hslotref⟩ := refs_eq_some ha
  simp only [hd] at hslotref
  -- the address of the inode that `bmap` looks at first is there
  have haddr : ∀ {i : Fin (NDIRECT + 1)} {b : Nat}, ptr ((k.icache e).d.addrs i) = some b →
      Ends (bmapAddr e i) k (fun addr k' es => addr = b ∧ k = k' ∧ es = []) Never := by
    intro i b hi
    obtain ⟨hne, hb⟩ := ptr_eq_some hi
    apply ends_inode_bind
    rw [if_neg hne]
    exact ends_pure ⟨hb, rfl, rfl⟩
  unfold slotOf at hslot
  unfold bmap
  by_cases hbn : bn < NDIRECT
  · rw [dif_pos hbn] at hslot ⊢
    cases hslot
    apply (haddr hslotref).mono
    rintro _ _ _ ⟨rfl, rfl, rfl⟩
    exact ⟨hr, rfl⟩
  · rw [dif_neg hbn] at hslot ⊢
    by_cases hj : bn - NDIRECT < NINDIRECT
    · rw [dif_pos hj] at hslot
      rw [if_pos hj]
      cases hslot
      obtain ⟨b, hb, hentry⟩ := bind_eq_some_iff.mp hslotref
      obtain ⟨hne, hval⟩ := ptr_eq_some hentry
      have hbref : refs v r.sb.ninodes ino ((k.icache e).inum, .addr (Fin.last NDIRECT)) = some b := by
        rw [refs_of_allocated hl, hd]
        exact hb
      apply (haddr hb).bind
      rintro _ _ _ ⟨rfl, rfl, rfl⟩
      apply ends_inode_bind
      rw [hdev]
      refine ((bread_poised h hr (Nat.zero_le 2) ((hs.lo_le hbref).2.1.trans_le r.hi_le)
        fun _ => List.not_mem_nil).and (bread_ends h)).bind ?_
      rintro bp k1 _ ⟨⟨hr1, hlog1⟩, -, hh, rfl⟩
      apply ends_data_bind
      rw [hh.data, if_neg hne]
      apply (brelse_poised hr1).bind
      rintro _ k2 _ ⟨hr2, hlog2⟩
      exact ends_pure ⟨hr2, hlog2.trans hlog1⟩
    · rw [dif_neg hj] at hslot
      cases hslot

/-! ## The loops -/

theorem touched_step {left : Nat} (hleft : left ≠ 0) :
    touched (off + min left (BSIZE - off % BSIZE)) (left - min left (BSIZE - off % BSIZE)) ⊆
      touched off left := by
  intro bn hbn
  obtain ⟨hmax, ht⟩ := mem_filter.mp hbn
  exact mem_filter.mpr ⟨hmax, (touches_step hleft).mpr (.inr ht)⟩

theorem writeiLoop_poised {inum : Nat} (turns : Nat) : ∀ {k : Kernel} {v : Nat → Block}
    {ino : Nat → Dinode} (src : Nat → UInt8) (off left : Nat), (k.icache e).inum = inum →
    Sees k v → Sound r v ino → Allocated r.sb.ninodes ino inum → ino inum = (k.icache e).d →
    (k.icache e).dev = ROOTDEV → off + left ≤ MAXFILE * BSIZE → Poised r.top L [] k →
    InTrans L k → Stocked r inum L v ino off left →
    Ends (writeiLoop e turns src off left) k (fun _ k' _ => Poised r.top L [] k' ∧ InTrans L k')
      Never := by
  induction turns with
  | zero =>
    intro k v ino src off left _ _ _ _ _ _ _ hr ho _
    exact ends_pure ⟨hr, ho⟩
  | succ turns ih =>
    intro k v ino src off left hin h hs hl hd hdev hend hr ho hst
    unfold writeiLoop
    by_cases hleft : left = 0
    · rw [if_pos hleft]
      exact ends_pure ⟨hr, ho⟩
    rw [if_neg hleft]
    subst hin
    have hbn : off / BSIZE ∈ touched off left := by
      refine mem_filter.mpr ⟨mem_range.mpr ?_, (touches_step hleft).mpr (.inl rfl)⟩
      exact (Nat.div_lt_iff_lt_mul (by decide)).mpr (by omega)
    apply ((bmap_poised h hs hl hd hdev hr ho hst hbn).and (bmap_ends h hs hl hd)).bind
    rintro a k1 es1 ⟨⟨hr1, ho1⟩, v1, s, hw1, hext1, hslot, href1, -⟩
    have hst1 := hst.extends hs hext1 fun t ht => wanted_of_mem_slotsOf hbn ht
    have hdev1 : (k1.icache e).dev = ROOTDEV := by
      rw [hw1.entry]
      exact hdev
    apply ends_inode_bind
    rw [hdev1]
    apply ((bread_poised hw1.sees hr1 (Nat.zero_le 2)
      ((hext1.sound.lo_le href1).2.1.trans_le r.hi_le) fun _ => List.not_mem_nil).and
      (bread_ends hw1.sees)).bind
    rintro bp k2 _ ⟨⟨hr2, hlog2⟩, -, hh, rfl⟩
    apply ends_data_bind
    rw [hh.data]
    apply ((writeBack_poised hr2 (ho1.congr hlog2) (hst1.present _ hbn s a hslot href1)).and
      (writeBack_ends hh.sees hh.handed.caches hh.handed.busy)).bind
    rintro _ k3 _ ⟨⟨hr3, ho3⟩, hf, hsees, hob, rfl⟩
    have hgo := hh.updated (.refl hh.sees) hf hsees hob
    have hic : k3.icache e = k1.icache e := by rw [hgo.icache]
    -- the data block is written, and the rest of the bytes follow
    have hext2 := Extends.write hext1.sound (slotOf_ne_last hslot) href1
      fun d => d.splice (off % BSIZE) src (min left (BSIZE - off % BSIZE))
    have hst2 := (hst1.extends hext1.sound hext2 fun t ht => absurd ht (Set.notMem_empty t)).part
      (touched_step hleft)
    have hsound2 := hext2.sound
    rw [update_self, update_idem] at hsound2 hst2
    have hl2 := hext1.allocated hl
    exact ih _ _ _ (by rw [hic, hw1.inum]) hsees hsound2 hl2 (by rw [update_self, hic])
      (by rw [hic]; exact hdev1) (by omega) hr3 ho3 hst2

theorem readiLoop_poised {inum : Nat} {ino : Nat → Dinode} {v : Nat → Block} (turns : Nat) :
    ∀ {k : Kernel} (off left : Nat), (k.icache e).inum = inum → Sees k v → Sound r v ino →
    ino inum = (k.icache e).d → (k.icache e).dev = ROOTDEV → Mapped r inum v ino off left →
    Poised r.top L [] k →
    Ends (readiLoop e turns off left) k (fun _ k' _ => Poised r.top L [] k' ∧ k'.log = k.log)
      Never := by
  induction turns with
  | zero =>
    intro k off left _ _ _ _ _ _ hr
    exact ends_pure ⟨hr, rfl⟩
  | succ turns ih =>
    intro k off left hin h hs hd hdev hmap hr
    unfold readiLoop
    by_cases hleft : left = 0
    · rw [if_pos hleft]
      exact ends_pure ⟨hr, rfl⟩
    rw [if_neg hleft]
    subst hin
    obtain ⟨s, a, hslot, ha⟩ := hmap _ ((touches_step hleft).mpr (.inl rfl))
    apply ((bmap_mapped_poised h hs hr hd hdev hslot ha).and
      (bmap_mapped_holds h hd hslot ha).ends).bind
    rintro addr k1 _ ⟨⟨hr1, hlog1⟩, ⟨rfl, hgo1⟩, rfl⟩
    have hdev1 : (k1.icache e).dev = ROOTDEV := by
      rw [hgo1.icache]
      exact hdev
    apply ends_inode_bind
    rw [hdev1]
    apply ((bread_poised hgo1.sees hr1 (Nat.zero_le 2)
      ((hs.lo_le ha).2.1.trans_le r.hi_le) fun _ => List.not_mem_nil).and
      (bread_ends hgo1.sees)).bind
    rintro bp k2 _ ⟨⟨hr2, hlog2⟩, -, hh, rfl⟩
    apply ends_data_bind
    apply ((brelse_poised hr2).and (brelse_ends hh.sees hh.handed.caches)).bind
    rintro _ k3 _ ⟨⟨hr3, hlog3⟩, hf, hsees, hob, rfl⟩
    have hgo := hgo1.trans (hh.released hf hsees hob)
    have hic : k3.icache e = k.icache e := by rw [hgo.icache]
    refine (ih _ _ (by rw [hic]) hsees hs (by rw [hic]; exact hd) (by rw [hic]; exact hdev)
      (fun bn hbn => hmap bn ((touches_step hleft).mpr (.inr hbn))) hr3).bind ?_
    rintro bs k4 _ ⟨hr4, hlog4⟩
    exact ends_pure ⟨hr4, hlog4.trans (hlog3.trans (hlog2.trans hlog1))⟩

theorem iupdate_poised (h : Sees k v) (hr : Poised r.top L [] k) (ho : InTrans L k)
    (hdev : (k.icache e).dev = ROOTDEV) (hon : OnDisk r.sb.ninodes (k.icache e).inum)
    (hL : iblock (k.icache e).inum ∈ L) :
    Ends (iupdate e) k (fun _ k' _ => Poised r.top L [] k' ∧ InTrans L k') Never := by
  have hib : iblock (k.icache e).inum < r.top :=
    (r.iblock_lt hon.2).trans_le (r.order.trans r.hi_le)
  apply ends_inode_bind
  apply Ends.bind (R := fun _ t _ => t = k) (ends_emit rfl)
  rintro _ _ _ rfl
  rw [hdev]
  refine (bread_poised h hr (Nat.zero_le 2) hib fun _ => List.not_mem_nil).bind ?_
  rintro bp k1 _ ⟨hr1, hlog1⟩
  apply data_ends.bind
  rintro _ _ _ ⟨-, rfl, -⟩
  exact writeBack_poised hr1 (ho.congr hlog1) hL

theorem ilock_poised {top : Nat} (h : Sees k v) (hr : Poised top L [] k)
    (hdev : (k.icache e).dev = ROOTDEV) (href : 0 < (k.icache e).ref)
    (hbusy : (k.icache e).busy = false) (hib : iblock (k.icache e).inum < top)
    (htype : (k.icache e).valid = false → (dino v (k.icache e).inum).type ≠ 0) :
    Ends (ilock e) k (fun _ k' _ => Poised top L [] k' ∧ k'.log = k.log) Never := by
  apply ends_inode_bind
  rw [if_neg (by omega), if_neg (by rw [hbusy]; exact Bool.false_ne_true)]
  apply setInode_ends.bind
  rintro _ k1 _ ⟨hk1, rfl⟩
  have hr1 : Poised top L [] k1 := hr.congr (by rw [hk1]) (by rw [hk1])
  have hlog1 : k1.log = k.log := by rw [hk1]
  have hent1 : k1.icache e = { k.icache e with busy := true } := by
    rw [hk1]
    simp
  by_cases hvalid : (k.icache e).valid = true
  · rw [if_pos hvalid]
    exact ends_pure ⟨hr1, hlog1⟩
  rw [if_neg hvalid]
  apply ends_inode_bind
  rw [hent1]
  dsimp only
  rw [hdev]
  have hsees1 : Sees k1 v := by
    rw [hk1]
    exact h
  apply ((bread_poised hsees1 hr1 (Nat.zero_le 2) hib fun _ => List.not_mem_nil).and
    (bread_ends hsees1)).bind
  rintro bp k2 _ ⟨⟨hr2, hlog2⟩, -, hh, rfl⟩
  apply ends_data_bind
  rw [hh.data]
  apply setInode_ends.bind
  rintro _ k3 _ ⟨hk3, rfl⟩
  have hr3 : Poised top L [(bp, iblock (k.icache e).inum)] k3 :=
    hr2.congr (by rw [hk3]) (by rw [hk3])
  have hlog3 : k3.log = k2.log := by rw [hk3]
  have hframe : Ends (brelse bp) k3 (fun _ k' _ => k' = { k3 with store := k'.store })
      fun _ => True := by
    refine ends_lift (fun _ st _ => rfl) fun _ _ => trivial
  apply ((brelse_poised hr3).and hframe).bind
  rintro _ k4 _ ⟨⟨hr4, hlog4⟩, hf4⟩
  apply setInode_ends.bind
  rintro _ k5 _ ⟨hk5, rfl⟩
  apply ends_inode_bind
  have hd5 : (k5.icache e).d = dino v (k.icache e).inum := by
    rw [hk5, hf4, hk3]
    simp [dino]
  rw [if_neg (by rw [hd5]; exact htype (by simpa using hvalid))]
  refine ends_pure ⟨hr4.congr (by rw [hk5]) (by rw [hk5]), ?_⟩
  rw [hk5]
  exact hlog4.trans (hlog3.trans (hlog2.trans hlog1))

/-- `writei` returns if the sectors that it logs are in `L`. -/
theorem writei_poised {src : Nat → UInt8} (h : Sees k v) (hs : Sound r v ino)
    (hl : Allocated r.sb.ninodes ino (k.icache e).inum)
    (hd : ino (k.icache e).inum = (k.icache e).d) (hdev : (k.icache e).dev = ROOTDEV)
    (htype : (k.icache e).d.type ≠ T_DEV) (hr : Poised r.top L [] k) (ho : InTrans L k)
    (hst : Stocked r (k.icache e).inum L v ino off n)
    (hgrow : 0 < n ∧ (k.icache e).d.size.toNat < off + n → iblock (k.icache e).inum ∈ L) :
    Ends (writei e src off n) k (fun _ k' _ => Poised r.top L [] k' ∧ InTrans L k') Never := by
  refine ends_writei htype (fun _ => ⟨hr, ho⟩) fun _ _ _ => ?_
  apply ((writeiLoop_poised n src off n rfl h hs hl hd hdev (by omega) hr ho hst).and
    (writeiLoop_ends n src off n le_rfl rfl h hs hl hd)).bind
  rintro _ k1 es1 ⟨⟨hr1, ho1⟩, v1, hw1, hext, -, -, -⟩
  have hsize : (k1.icache e).d.size = (k.icache e).d.size := by
    rw [hext.inode, hd]
  refine Ends.bind (R := fun _ k2 _ => Poised r.top L [] k2 ∧ InTrans L k2) ?_
    fun _ k2 _ hp => ends_pure hp
  apply ends_inode_bind
  by_cases hlong : 0 < n ∧ (k1.icache e).d.size.toNat < off + n
  · rw [if_pos hlong]
    apply setInode_ends.bind
    rintro _ _ _ ⟨rfl, rfl⟩
    have hinum : (k1.icache e).inum = (k.icache e).inum := hw1.inum
    have hdev1 : (k1.icache e).dev = ROOTDEV := by
      rw [hw1.entry]
      exact hdev
    refine iupdate_poised (v := v1) hw1.sees (hr1.congr rfl rfl) (ho1.congr rfl) ?_ ?_ ?_
    · simpa using hdev1
    · simpa [hinum] using hl.onDisk
    · simpa [hinum] using hgrow (by rw [← hsize]; exact hlong)
  · rw [if_neg hlong]
    exact ends_pure ⟨hr1, ho1⟩

end

end Xv6.Kernel
