import Xv6.Fs.Bmap

/-!
# Reading and writing file contents

The loops of `readi` and `writei` on the flat disk.
-/

namespace Xv6

open Function Set

open Lib Act

/-- Block `bn` of a file holds one of the `n` bytes from offset `off`. -/
def Touches (off n bn : Nat) : Prop := 0 < n ∧ off / BSIZE ≤ bn ∧ bn * BSIZE < off + n

theorem not_touches_zero (off bn : Nat) : ¬ Touches off 0 bn := fun h => by simp [Touches] at h

/-- One turn of the loops: the first block, and then what is left. -/
theorem touches_step {off left bn : Nat} (hleft : left ≠ 0) :
    Touches off left bn ↔ bn = off / BSIZE ∨
      Touches (off + min left (BSIZE - off % BSIZE)) (left - min left (BSIZE - off % BSIZE)) bn := by
  simp only [Touches, BSIZE]
  omega

/-- The changes that writing `n` bytes of `src` at `off` makes to blocks. -/
def Splices (src : Nat → UInt8) (off n : Nat) : Set (Block → Block) :=
  {f | ∃ o m, off ≤ o ∧ o + m ≤ off + n ∧ o % BSIZE + m ≤ BSIZE ∧
    f = fun d => d.splice (o % BSIZE) (fun i => src (i + (o - off))) m}

theorem splices_step {src : Nat → UInt8} {off left m : Nat} (hm : m ≤ left) :
    Splices (fun i => src (i + m)) (off + m) (left - m) ⊆ Splices src off left := by
  rintro f ⟨o, m', h1, h2, h3, rfl⟩
  have hsrc : (fun i => src (i + (o - (off + m)) + m)) = fun i => src (i + (o - off)) := by
    funext i
    congr 1
    omega
  exact ⟨o, m', by omega, by omega, h3, by rw [← hsrc]⟩

/-! ## Bytes of a file -/

/-- Byte `off` of inode `inum`; where there is no block it is zero. -/
def byteAt (v : Nat → Block) (n : Nat) (ino : Nat → Dinode) (inum off : Nat) : UInt8 :=
  match (slotOf (off / BSIZE)).bind fun s => refs v n ino (inum, s) with
  | some a => (v a).u8 (off % BSIZE)
  | none => 0

section

variable {v v' : Nat → Block} {n : Nat} {ino ino' : Nat → Dinode} {inum j off : Nat} {r : Region}

theorem byteAt_of_ref {s : Slot} {a : Nat} (hs : slotOf (off / BSIZE) = some s)
    (ha : refs v n ino (inum, s) = some a) : byteAt v n ino inum off = (v a).u8 (off % BSIZE) := by
  simp [byteAt, hs, ha]

theorem byteAt_of_none (h : ∀ s, slotOf (off / BSIZE) = some s → refs v n ino (inum, s) = none) :
    byteAt v n ino inum off = 0 := by
  cases hs : slotOf (off / BSIZE) with
  | none => simp [byteAt, hs]
  | some s => simp [byteAt, hs, h s hs]

theorem byteAt_congr
    (hsome : ∀ s a, slotOf (off / BSIZE) = some s → refs v n ino (inum, s) = some a →
      byteAt v' n ino' j off = (v a).u8 (off % BSIZE))
    (hnone : ∀ s, slotOf (off / BSIZE) = some s → refs v n ino (inum, s) = none →
      byteAt v' n ino' j off = 0)
    (hout : slotOf (off / BSIZE) = none → byteAt v' n ino' j off = 0) :
    byteAt v' n ino' j off = byteAt v n ino inum off := by
  cases hs : slotOf (off / BSIZE) with
  | none =>
    rw [hout hs, byteAt_of_none fun s h => by rw [hs] at h; cases h]
  | some s =>
    cases ha : refs v n ino (inum, s) with
    | none => rw [hnone s hs ha, byteAt_of_none fun t ht => by
        rw [hs] at ht; rw [← Option.some.inj ht]; exact ha]
    | some a => rw [hsome s a hs ha, byteAt_of_ref hs ha]

theorem byteAt_of_slotOf_none (h : slotOf (off / BSIZE) = none) : byteAt v n ino inum off = 0 :=
  byteAt_of_none fun s hs => by rw [h] at hs; cases hs

/-- A file that gets new blocks has zeros there. -/
theorem Extends.byteAt_self {slots : Set Slot} {edits : Set (Block → Block)} {d' : Dinode}
    {es : List FsEvent} (h : Extends r inum ⟨slots, ∅, edits⟩ v ino v' d' es) (off : Nat) :
    byteAt v' r.sb.ninodes (update ino inum d') inum off =
      byteAt v r.sb.ninodes ino inum off := by
  refine byteAt_congr (fun s a hs ha => ?_) (fun s hs ha => ?_) byteAt_of_slotOf_none
  · rw [byteAt_of_ref hs (h.keeps _ _ ha),
      h.own s a (slotOf_ne_last hs) ha (notMem_empty a)]
  · cases hb : refs v' r.sb.ninodes (update ino inum d') (inum, s) with
    | none =>
      refine byteAt_of_none fun t ht => ?_
      obtain rfl := Option.some.inj (hs.symm.trans ht)
      exact hb
    | some b =>
      rcases h.fresh _ _ hb with hold | ⟨-, -, hnew⟩
      · rw [ha] at hold; cases hold
      · rw [byteAt_of_ref hs hb, h.zeroed s b (slotOf_ne_last hs) hb hnew (notMem_empty b)]
        exact Bytes.u8_zero _

theorem byteAt_chunk {s : Slot} {a left : Nat} (hs : slotOf (off / BSIZE) = some s)
    (ha : refs v n ino (inum, s) = some a) :
    (List.range (min left (BSIZE - off % BSIZE))).map (fun i => (v a).u8 (off % BSIZE + i)) ++
        (List.range (left - min left (BSIZE - off % BSIZE))).map
          (fun i => byteAt v n ino inum (off + min left (BSIZE - off % BSIZE) + i)) =
      (List.range left).map fun i => byteAt v n ino inum (off + i) := by
  have hsplit : left = min left (BSIZE - off % BSIZE) +
      (left - min left (BSIZE - off % BSIZE)) := by omega
  conv_rhs => rw [hsplit, List.range_add, List.map_append, List.map_map]
  congr 1
  · refine List.map_congr_left fun i hi => ?_
    have him := List.mem_range.mp hi
    have hdiv : (off + i) / BSIZE = off / BSIZE ∧ (off + i) % BSIZE = off % BSIZE + i := by
      simp only [BSIZE] at *
      omega
    rw [byteAt_of_ref (hdiv.1 ▸ hs) ha, hdiv.2]
  · refine List.map_congr_left fun i _ => ?_
    rw [Function.comp_apply, Nat.add_assoc]

theorem Sound.byteAt_splice {s : Slot} {a m : Nat} {src : Nat → UInt8} (h : Sound r v ino)
    (hs : slotOf (off / BSIZE) = some s) (ha : refs v r.sb.ninodes ino (inum, s) = some a)
    (hm : off % BSIZE + m ≤ BSIZE) (o : Nat) :
    byteAt (update v a ((v a).splice (off % BSIZE) src m)) r.sb.ninodes ino inum o =
      if off ≤ o ∧ o < off + m then src (o - off) else byteAt v r.sb.ninodes ino inum o := by
  have hrefs : refs (update v a ((v a).splice (off % BSIZE) src m)) r.sb.ninodes ino =
      refs v r.sb.ninodes ino := congrArg Heap.ref (h.heap_write ha (slotOf_ne_last hs))
  by_cases hblock : o / BSIZE = off / BSIZE
  · rw [byteAt_of_ref (by rw [hblock]; exact hs) (by rw [hrefs]; exact ha), update_self,
      Bytes.u8_splice, byteAt_of_ref (by rw [hblock]; exact hs) ha]
    simp only [BSIZE] at *
    have hiff : (off % 512 ≤ o % 512 ∧ o % 512 < off % 512 + m ∧ o % 512 < 512) ↔
        off ≤ o ∧ o < off + m := by omega
    have hsub : off ≤ o → o % 512 - off % 512 = o - off := by omega
    simp only [hiff]
    split
    · rename_i hin; rw [hsub hin.1]
    · rfl
  · have hout : ¬ (off ≤ o ∧ o < off + m) := by
      simp only [BSIZE] at *
      omega
    rw [if_neg hout]
    refine byteAt_congr (fun t b ht hb => ?_) (fun t ht hb => ?_) byteAt_of_slotOf_none
    · rw [byteAt_of_ref ht (by rw [hrefs]; exact hb)]
      -- different blocks of the file lie in different blocks of the disk
      have hne : b ≠ a := fun heq => by
        subst heq
        have := (Prod.mk.inj (h.owned.inj hb ha)).2
        exact hblock (slotOf_inj ht (this ▸ hs))
      rw [update_of_ne hne]
    · refine byteAt_of_none fun t' ht' => ?_
      obtain rfl := Option.some.inj (ht.symm.trans ht')
      rw [hrefs]
      exact hb

end

namespace Kernel

section

variable {e : Fin NINODE} {r : Region}

/-- The data blocks of inode `inum` that hold the bytes from `off`. -/
def TouchedBlocks (r : Region) (inum : Nat) (v : Nat → Block) (ino : Nat → Dinode) (off n : Nat) :
    Set Nat :=
  {a | ∃ bn s, Touches off n bn ∧ slotOf bn = some s ∧ refs v r.sb.ninodes ino (inum, s) = some a}

/-- Every block that holds one of the bytes is there. -/
def Mapped (r : Region) (inum : Nat) (v : Nat → Block) (ino : Nat → Dinode) (off n : Nat) : Prop :=
  ∀ bn, Touches off n bn →
    ∃ s a, slotOf bn = some s ∧ refs v r.sb.ninodes ino (inum, s) = some a

/-- What writing `n` bytes of `src` at `off` works on. -/
def writeScope (r : Region) (inum : Nat) (v : Nat → Block) (ino : Nat → Dinode)
    (src : Nat → UInt8) (off n : Nat) : Scope where
  slots := {s | ∃ bn, Touches off n bn ∧ s ∈ slotsOf bn}
  data := TouchedBlocks r inum v ino off n
  edits := Splices src off n

variable {inum : Nat} {v : Nat → Block} {ino : Nat → Dinode}

theorem Extends.nothing {k : Kernel} (src : Nat → UInt8) (off : Nat) (h : Sound r v ino)
    (hd : ino inum = (k.icache e).d) :
    Extends r inum (writeScope r inum v (update ino inum (k.icache e).d) src off 0)
      v ino v (k.icache e).d [] := by
  have hdata : TouchedBlocks r inum v (update ino inum (k.icache e).d) off 0 = ∅ :=
    eq_empty_of_forall_notMem fun a ⟨bn, _, hbn, _⟩ => not_touches_zero off bn hbn
  rw [← hd] at hdata ⊢
  exact (Extends.refl h).mono (empty_subset _) hdata.symm (empty_subset _)

theorem writeiLoop_ends (turns : Nat) : ∀ {k : Kernel} {v : Nat → Block} {ino : Nat → Dinode}
    (src : Nat → UInt8) (off left : Nat), left ≤ turns →
    (k.icache e).inum = inum → Sees k v → Sound r v ino → Allocated r.sb.ninodes ino inum →
    ino inum = (k.icache e).d →
    Ends (writeiLoop e turns src off left) k (fun _ k' es => ∃ v', Works k k' e v' ∧
      Extends r inum (writeScope r inum v' (update ino inum (k'.icache e).d) src off left)
        v ino v' (k'.icache e).d es ∧
      Mapped r inum v' (update ino inum (k'.icache e).d) off left ∧
      (Mapped r inum v ino off left → (k'.icache e).d = (k.icache e).d) ∧
      ∀ o, byteAt v' r.sb.ninodes (update ino inum (k'.icache e).d) inum o =
        if off ≤ o ∧ o < off + left then src (o - off)
        else byteAt v r.sb.ninodes ino inum o) Benign := by
  have hnothing : ∀ {k : Kernel} {v : Nat → Block} {ino : Nat → Dinode} {src : Nat → UInt8}
      {off : Nat}, ino inum = (k.icache e).d → ∀ o,
      byteAt v r.sb.ninodes (update ino inum (k.icache e).d) inum o =
        if off ≤ o ∧ o < off + 0 then src (o - off) else byteAt v r.sb.ninodes ino inum o :=
    fun hd o => by rw [← hd, update_eq_self, if_neg (by omega)]
  induction turns with
  | zero =>
    intro k v ino src off left hle hin h hs hl hd
    obtain rfl : left = 0 := by omega
    exact ends_pure ⟨v, (Goes.refl h).works e, Extends.nothing src off hs hd,
      fun bn hbn => absurd hbn (not_touches_zero off bn), fun _ => rfl, hnothing hd⟩
  | succ turns ih =>
    intro k v ino src off left hle hin h hs hl hd
    unfold writeiLoop
    by_cases hleft : left = 0
    · subst hleft
      rw [if_pos rfl]
      exact ends_pure ⟨v, (Goes.refl h).works e, Extends.nothing src off hs hd,
        fun bn hbn => absurd hbn (not_touches_zero off bn), fun _ => rfl, hnothing hd⟩
    rw [if_neg hleft]
    subst hin
    apply (bmap_ends h hs hl hd).bind
    rintro a k1 es1 ⟨v1, s, hw1, hext1, hslot, href1, hstay1⟩
    apply ends_inode_bind
    apply (bread_ends hw1.sees).bind
    rintro bp k2 _ ⟨-, hh, rfl⟩
    apply ends_data_bind
    rw [hh.data]
    apply (writeBack_ends hh.sees hh.handed.caches hh.handed.busy).bind
    rintro _ k3 _ ⟨hf, hsees, ho, rfl⟩
    have hgo := hh.updated (.refl hh.sees) hf hsees ho
    have hic : k3.icache e = k1.icache e := by rw [hgo.icache]
    have hoff : off % BSIZE < BSIZE := Nat.mod_lt _ (by decide)
    -- the data block is written, and the rest of the bytes follow
    have hext2 := Extends.write hext1.sound (slotOf_ne_last hslot) href1
      fun d => d.splice (off % BSIZE) src (min left (BSIZE - off % BSIZE))
    rw [update_self] at hext2
    have hl3 := hext1.allocated hl
    have hsound3 := hext2.sound
    rw [update_idem] at hsound3
    apply (ih (fun i => src (i + min left (BSIZE - off % BSIZE))) _ _ (by omega)
      (by rw [hic, hw1.inum]) hsees hsound3 hl3 (by rw [update_self, hic])).mono
    rintro _ k4 es4 ⟨v4, hw4, hext4, hmap4, hstay4, hbyte4⟩
    rw [update_idem] at hext4 hmap4
    have hall := hext1.trans (hext2.trans (by rw [update_idem]; exact hext4))
    have ha4 : refs v4 r.sb.ninodes (update ino (k.icache e).inum (k4.icache e).d)
        ((k.icache e).inum, s) = some a := by
      have := hext2.keeps _ _ href1
      rw [update_idem] at this
      have := hext4.keeps _ _ this
      rwa [update_idem] at this
    have hW : TouchedBlocks r (k.icache e).inum v4
        (update ino (k.icache e).inum (k4.icache e).d) off left =
        ∅ ∪ ({a} ∪ TouchedBlocks r (k.icache e).inum v4
          (update ino (k.icache e).inum (k4.icache e).d)
          (off + min left (BSIZE - off % BSIZE)) (left - min left (BSIZE - off % BSIZE))) := by
      rw [empty_union]
      ext x
      constructor
      · rintro ⟨bn, t, hbn, ht, hx⟩
        rcases (touches_step hleft).mp hbn with rfl | hbn
        · obtain rfl := Option.some.inj (ht.symm.trans hslot)
          exact .inl (Option.some.inj (hx.symm.trans ha4))
        · exact .inr ⟨bn, t, hbn, ht, hx⟩
      · rintro (rfl | ⟨bn, t, hbn, ht, hx⟩)
        · exact ⟨_, s, (touches_step hleft).mpr (.inl rfl), hslot, ha4⟩
        · exact ⟨bn, t, (touches_step hleft).mpr (.inr hbn), ht, hx⟩
    refine ⟨v4, (hw1.trans (hgo.works e)).trans hw4, ?_, ?_, ?_, fun o => ?_⟩
    · refine hall.mono ?_ hW.symm (union_subset (empty_subset _) (union_subset ?_ ?_))
      · rintro t (ht | ht | ⟨bn, hbn, ht⟩)
        · exact ⟨_, (touches_step hleft).mpr (.inl rfl), ht⟩
        · exact absurd ht (notMem_empty t)
        · exact ⟨bn, (touches_step hleft).mpr (.inr hbn), ht⟩
      · rintro f rfl
        exact ⟨off, min left (BSIZE - off % BSIZE), le_rfl, by omega, by omega, by simp⟩
      · exact splices_step (by omega)
    · intro bn hbn
      rcases (touches_step hleft).mp hbn with rfl | hbn
      · exact ⟨s, a, hslot, ha4⟩
      · exact hmap4 bn hbn
    · intro hmap
      obtain ⟨t, b, ht, hb⟩ := hmap _ ((touches_step hleft).mpr (.inl rfl))
      obtain rfl := Option.some.inj (ht.symm.trans hslot)
      rw [hstay4 fun bn hbn => ?_, hic, hstay1 b hb]
      obtain ⟨t', b', ht', hb'⟩ := hmap bn ((touches_step hleft).mpr (.inr hbn))
      have hk := hext2.keeps _ _ (hext1.keeps _ _ hb')
      rw [update_idem] at hk
      exact ⟨t', b', ht', hk⟩
    · have hbyte := hbyte4 o
      rw [update_idem] at hbyte
      rw [hbyte, hext1.sound.byteAt_splice hslot href1 (by omega), hext1.byteAt_self]
      by_cases hlt : o < off + min left (BSIZE - off % BSIZE)
      · rw [if_neg (by omega)]
        by_cases hle : off ≤ o
        · rw [if_pos ⟨hle, hlt⟩, if_pos ⟨hle, by omega⟩]
        · rw [if_neg (by omega), if_neg (by omega)]
      · by_cases hin : o < off + left
        · rw [if_pos ⟨by omega, by omega⟩, if_pos ⟨by omega, hin⟩]
          congr 1
          omega
        · rw [if_neg (by omega), if_neg (by omega), if_neg (by omega)]

/-- The loop of `readi` reads the bytes of a file, and may give blocks to its holes. -/
theorem readiLoop_ends (turns : Nat) : ∀ {k : Kernel} {v : Nat → Block} {ino : Nat → Dinode}
    (off left : Nat), left ≤ turns → (k.icache e).inum = inum → Sees k v →
    Sound r v ino → Allocated r.sb.ninodes ino inum → ino inum = (k.icache e).d →
    Ends (readiLoop e turns off left) k (fun bs k' es =>
      bs = (List.range left).map (fun i => byteAt v r.sb.ninodes ino inum (off + i)) ∧
      ∃ v', Works k k' e v' ∧
        Extends r inum ⟨Set.univ, ∅, ∅⟩ v ino v' (k'.icache e).d es) Benign := by
  induction turns with
  | zero =>
    intro k v ino off left hle hin h hs hl hd
    obtain rfl : left = 0 := by omega
    exact ends_pure ⟨rfl, v, (Goes.refl h).works e,
      hd ▸ (Extends.refl hs).mono (empty_subset _) rfl (empty_subset _)⟩
  | succ turns ih =>
    intro k v ino off left hle hin h hs hl hd
    unfold readiLoop
    by_cases hleft : left = 0
    · subst hleft
      rw [if_pos rfl]
      exact ends_pure ⟨rfl, v, (Goes.refl h).works e,
        hd ▸ (Extends.refl hs).mono (empty_subset _) rfl (empty_subset _)⟩
    rw [if_neg hleft]
    subst hin
    apply (bmap_ends h hs hl hd).bind
    rintro a k1 es1 ⟨v1, s, hw1, hext1, hslot, ha, -⟩
    apply ends_inode_bind
    apply (bread_ends hw1.sees).bind
    rintro bp k2 _ ⟨-, hh, rfl⟩
    apply ends_data_bind
    apply (brelse_ends hh.sees hh.handed.caches).bind
    rintro _ k3 _ ⟨hf, hsees, ho, rfl⟩
    have hgo := hh.released hf hsees ho
    have hic : k3.icache e = k1.icache e := by rw [hgo.icache]
    have hl1 := hext1.allocated hl
    have hoff : off % BSIZE < BSIZE := Nat.mod_lt _ (by decide)
    apply (ih _ _ (by omega) (by rw [hic, hw1.inum]) hsees hext1.sound hl1
      (by rw [update_self, hic])).bind
    rintro _ k4 es4 ⟨rfl, v4, hw4, hext4⟩
    have hall : Extends _ _ ⟨Set.univ, ∅, ∅⟩ _ _ _ _ _ := (hext1.trans hext4).mono
      (subset_univ _) (empty_union _)
      (union_subset (empty_subset _) (empty_subset _))
    refine ends_pure ⟨?_, v4, (hw1.trans (hgo.works e)).trans hw4, ?_⟩
    · -- a new block holds the zeros that a hole reads as
      rw [hh.data, byteAt_chunk hslot ha]
      simp only [hext1.byteAt_self]
    · rw [List.append_nil]
      exact hall

/-- The loop of `readi` on a file without holes changes nothing. -/
theorem readiLoop_mapped_holds (turns : Nat) :
    ∀ {k : Kernel} (off left : Nat), left ≤ turns → (k.icache e).inum = inum → Sees k v →
    ino inum = (k.icache e).d → Mapped r inum v ino off left →
    Hush (readiLoop e turns off left) k (fun bs k' => Goes k k' v ∧
      bs = (List.range left).map fun i => byteAt v r.sb.ninodes ino inum (off + i)) BioHalt := by
  induction turns with
  | zero =>
    intro k off left hle hin h hd hmap
    obtain rfl : left = 0 := by omega
    exact hush_pure ⟨.refl h, rfl⟩
  | succ turns ih =>
    intro k off left hle hin h hd hmap
    unfold readiLoop
    by_cases hleft : left = 0
    · subst hleft
      rw [if_pos rfl]
      exact hush_pure ⟨.refl h, rfl⟩
    rw [if_neg hleft]
    subst hin
    obtain ⟨s, a, hslot, ha⟩ := hmap _ ((touches_step hleft).mpr (.inl rfl))
    apply (bmap_mapped_holds h hd hslot ha).bind
    rintro addr k1 ⟨haddr, hgo1⟩
    subst haddr
    apply inode_holds.bind
    rintro _ _ ⟨rfl, rfl⟩
    apply (bread_holds hgo1.sees).bind
    rintro bp k2 ⟨-, hh⟩
    apply data_holds.bind
    rintro _ _ ⟨rfl, rfl⟩
    apply (brelse_frees hh.sees hh.handed.caches).bind
    rintro _ k3 ⟨hf, hsees, ho⟩
    have hgo := hgo1.trans (hh.released hf hsees ho)
    have hic : k3.icache e = k.icache e := by rw [hgo.icache]
    have hoff : off % BSIZE < BSIZE := Nat.mod_lt _ (by decide)
    refine (ih _ _ (by omega) (by rw [hic]) hsees (by rw [hic]; exact hd)
      fun bn hbn => hmap bn ((touches_step hleft).mpr (.inr hbn))).bind ?_
    rintro _ k4 ⟨hgo4, rfl⟩
    refine hush_pure ⟨hgo.trans hgo4, ?_⟩
    rw [hh.data]
    exact byteAt_chunk hslot ha

/-- `writei` on a file of the disk refuses the bytes, or comes to its loop. -/
theorem ends_writei {src : Nat → UInt8} {off n : Nat} {k : Kernel} {E : Halt → Prop}
    {Q : Option Nat → Kernel → List FsEvent → Prop} (htype : (k.icache e).d.type ≠ T_DEV)
    (hout : (k.icache e).d.size.toNat < off ∨ 2 ^ 32 ≤ off + n ∨ MAXFILE * BSIZE < off + n →
      Q none k [])
    (hin : off ≤ (k.icache e).d.size.toNat → off + n < 2 ^ 32 → off + n ≤ MAXFILE * BSIZE →
      Ends (do writeiLoop e n src off n; writeiGrow e off n; return some n) k Q E) :
    Ends (writei e src off n) k Q E := by
  apply ends_inode_bind
  rw [if_neg htype]
  split
  · exact ends_pure (hout (by omega))
  · split
    · exact ends_pure (hout (by omega))
    · exact hin (by omega) (by omega) (by omega)

end

end Kernel

end Xv6
