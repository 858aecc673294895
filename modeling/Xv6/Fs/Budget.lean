import Mathlib.Data.Finset.Card
import Mathlib.Data.Finset.Image
import Xv6.Fs.Content
import Xv6.Fs.Coherent
import Xv6.Sys.Filedesc

/-!
# How many sectors a write logs

`begin_op` reserves `MAXOPBLOCKS` sectors for each operation. `budget` is the number of different
sectors that `writei` gives to `log_write`, computed from the file and the bitmap before the call.
-/

namespace Xv6

open Function Finset

open Lib Act

/-- The different sectors given to `log_write`. -/
def sectors (es : List FsEvent) : Finset Nat :=
  (es.filterMap fun
    | .logWrite s => some s
    | _ => none).toFinset

theorem mem_sectors {es : List FsEvent} {s : Nat} : s ∈ sectors es ↔ .logWrite s ∈ es := by
  unfold sectors
  rw [List.mem_toFinset, List.mem_filterMap]
  constructor
  · rintro ⟨ev, hev, heq⟩
    cases ev with
    | logWrite t =>
      cases heq
      exact hev
    | _ => cases heq
  · exact fun hs => ⟨_, hs, rfl⟩

instance (off n bn : Nat) : Decidable (Touches off n bn) :=
  inferInstanceAs (Decidable (_ ∧ _ ∧ _))

/-- The blocks of a file that hold the `n` bytes from `off`. -/
def touched (off n : Nat) : Finset Nat := (Finset.range MAXFILE).filter (Touches off n)

section

variable (r : Region) (inum : Nat) (v : Nat → Block) (ino : Nat → Dinode) (off n : Nat)

/-- Block `bn` of the file. -/
def blockAt (bn : Nat) : Option Nat :=
  (slotOf bn).bind fun s => refs v r.sb.ninodes ino (inum, s)

/-- The blocks that hold some of the bytes and are not there yet. -/
def missing : Finset Nat := (touched off n).filter fun bn => blockAt r inum v ino bn = none

/-- The indirect block is needed and not there yet. -/
def LacksIndirect : Prop :=
  refs v r.sb.ninodes ino (inum, .addr (Fin.last NDIRECT)) = none ∧
    ∃ bn ∈ touched off n, NDIRECT ≤ bn

instance : Decidable (LacksIndirect r inum v ino off n) :=
  inferInstanceAs (Decidable (_ ∧ _))

/-- The blocks that `balloc` will give: the lowest free ones. -/
def newBlocks : List Nat :=
  (freeBlocks r.sb v).take
    ((missing r inum v ino off n).card + if LacksIndirect r inum v ino off n then 1 else 0)

/-- The bitmap blocks with their bits. -/
def bitmapSectors : Finset Nat :=
  ((newBlocks r inum v ino off n).map fun b => bblock b r.sb.ninodes).toFinset

/-- Data blocks, bitmap blocks, the indirect block if it gets an entry, and the inode block if the
file grows. -/
def budget : Nat :=
  (touched off n).card + (bitmapSectors r inum v ino off n).card +
  (if ∃ bn ∈ missing r inum v ino off n, NDIRECT ≤ bn then 1 else 0) +
  (if 0 < n ∧ (ino inum).size.toNat < off + n then 1 else 0)

end

theorem lt_of_slotOf {bn : Nat} {s : Slot} (h : slotOf bn = some s) : bn < MAXFILE := by
  unfold slotOf at h
  unfold MAXFILE
  split_ifs at h <;> omega

theorem slotOf_entry {bn : Nat} {j : Fin NINDIRECT} (h : slotOf bn = some (.entry j)) :
    NDIRECT ≤ bn := by
  unfold slotOf at h
  split_ifs at h with h1
  · cases h
  · omega

theorem slotOf_of_le {bn : Nat} {s : Slot} (h : slotOf bn = some s) (hbn : NDIRECT ≤ bn) :
    ∃ j, s = .entry j := by
  unfold slotOf at h
  rw [dif_neg (by omega)] at h
  split_ifs at h
  exact ⟨_, (Option.some.inj h).symm⟩

/-! ## The blocks that `balloc` gives -/

/-- A position of a file: block `bn`, or the indirect block. -/
def posSlot : Option Nat → Option Slot
  | some bn => slotOf bn
  | none => some (.addr (Fin.last NDIRECT))

theorem posSlot_inj {c c' : Option Nat} {s : Slot} (h : posSlot c = some s)
    (h' : posSlot c' = some s) : c = c' := by
  cases c with
  | none =>
    cases c' with
    | none => rfl
    | some bn =>
      cases h
      exact absurd rfl (slotOf_ne_last h')
  | some bn =>
    cases c' with
    | none =>
      cases h'
      exact absurd rfl (slotOf_ne_last h)
    | some bn' => rw [slotOf_inj h h']

/-- The positions that a write has to fill. -/
def newPositions (r : Region) (inum : Nat) (v : Nat → Block) (ino : Nat → Dinode) (off n : Nat) :
    Finset (Option Nat) :=
  (missing r inum v ino off n).map Function.Embedding.some ∪
    if LacksIndirect r inum v ino off n then {none} else ∅

theorem card_newPositions {r : Region} {inum : Nat} {v : Nat → Block} {ino : Nat → Dinode}
    {off n : Nat} : (newPositions r inum v ino off n).card =
      (missing r inum v ino off n).card + if LacksIndirect r inum v ino off n then 1 else 0 := by
  unfold newPositions
  rw [card_union_of_disjoint, card_map]
  · split_ifs <;> rfl
  · split_ifs
    · simp
    · simp

section

variable {r : Region} {inum : Nat} {v v' : Nat → Block} {ino : Nat → Dinode} {d' : Dinode}
  {src : Nat → UInt8} {off n : Nat} {es : List FsEvent}

variable {bn b : Nat} {s : Slot} {c : Option Nat}

theorem mem_touched_of_slot (h : Touches off n bn) (hs : slotOf bn = some s) : bn ∈ touched off n :=
  mem_filter.mpr ⟨mem_range.mpr (lt_of_slotOf hs), h⟩

theorem touches_of_mem (h : bn ∈ touched off n) : Touches off n bn :=
  (mem_filter.mp h).2

theorem mem_newPositions : c ∈ newPositions r inum v ino off n ↔
    (∃ bn ∈ missing r inum v ino off n, c = some bn) ∨
      LacksIndirect r inum v ino off n ∧ c = none := by
  unfold newPositions
  rw [mem_union, mem_map]
  refine or_congr ⟨?_, ?_⟩ ?_
  · rintro ⟨bn, hbn, rfl⟩
    exact ⟨bn, hbn, rfl⟩
  · rintro ⟨bn, hbn, rfl⟩
    exact ⟨bn, hbn, rfl⟩
  · split_ifs with h
    · simp [h]
    · simp [h]

theorem refs_of_mem_newPositions (hc : c ∈ newPositions r inum v ino off n)
    (hs : posSlot c = some s) :
    refs v r.sb.ninodes ino (inum, s) = none := by
  rcases mem_newPositions.mp hc with ⟨bn, hbn, rfl⟩ | ⟨hlacks, rfl⟩
  · have := (mem_filter.mp hbn).2
    unfold blockAt at this
    rw [show slotOf bn = some s from hs] at this
    exact this
  · cases hs
    exact hlacks.1

theorem Extends.free_of_fresh {c : Scope} (h : Extends r inum c v ino v' d' es) (hb : Fresh es b) :
    Kernel.bit v r.sb.ninodes b = false := by
  have hmem : b ∈ freeBlocks r.sb v := by
    rw [h.taken]
    exact List.mem_append_left _ (mem_ballocs.mpr hb)
  simpa using (List.mem_filter.mp hmem).2

/-- A fresh block sits at a position that was empty. -/
theorem Extends.new_of_fresh {c : Scope} (h : Extends r inum c v ino v' d' es)
    (hs : Sound r v ino) (hb : Fresh es b)
    (hp : refs v' r.sb.ninodes (update ino inum d') (inum, s) = some b) :
    s ∈ c.slots ∧ refs v r.sb.ninodes ino (inum, s) = none := by
  have hclear := h.free_of_fresh hb
  have hnot : refs v r.sb.ninodes ino (inum, s) ≠ some b := fun hv =>
    hs.ne_of_clear hclear hv rfl
  refine ⟨((h.fresh _ _ hp).resolve_left hnot).2.1, ?_⟩
  cases hv : refs v r.sb.ninodes ino (inum, s) with
  | none => rfl
  | some a =>
    have := h.keeps _ _ hv
    rw [hp] at this
    cases this
    exact absurd hv hnot

variable (hs : Sound r v ino)
  (hext : Extends r inum
    (Kernel.writeScope r inum v' (update ino inum d') src off n) v ino v' d' es)
  (hmap : Kernel.Mapped r inum v' (update ino inum d') off n)

include hmap in
theorem filled_of_mem_newPositions (hc : c ∈ newPositions r inum v ino off n) :
    ∃ s b, posSlot c = some s ∧
      refs v' r.sb.ninodes (update ino inum d') (inum, s) = some b := by
  rcases mem_newPositions.mp hc with ⟨bn, hbn, rfl⟩ | ⟨⟨-, bn, hbn, hle⟩, rfl⟩
  · exact hmap bn (touches_of_mem (mem_filter.mp hbn).1)
  · obtain ⟨s, b, hslot, hb⟩ := hmap bn (touches_of_mem hbn)
    obtain ⟨j, rfl⟩ := slotOf_of_le hslot hle
    obtain ⟨a, ha, -⟩ := refs_entry hb
    exact ⟨_, a, rfl, ha⟩

include hs hext hmap in
theorem mem_newPositions_of_fresh (hb : Fresh es b)
    (hp : refs v' r.sb.ninodes (update ino inum d') (inum, s) = some b) :
    ∃ c ∈ newPositions r inum v ino off n, posSlot c = some s := by
  obtain ⟨⟨bn, hbn, hslot⟩, hnone⟩ := hext.new_of_fresh hs hb hp
  rcases hslot with hslot | ⟨hle, rfl⟩
  · refine ⟨some bn, mem_newPositions.mpr (.inl ⟨bn, ?_, rfl⟩), hslot⟩
    refine mem_filter.mpr ⟨mem_touched_of_slot hbn hslot, ?_⟩
    unfold blockAt
    rw [hslot]
    exact hnone
  · obtain ⟨t, _, hslot, -⟩ := hmap bn hbn
    exact ⟨none, mem_newPositions.mpr
      (.inr ⟨⟨hnone, bn, mem_touched_of_slot hbn hslot, hle⟩, rfl⟩), rfl⟩

include hs hext hmap in
/-- As many blocks are taken as there are positions to fill. -/
theorem length_ballocs : (ballocs es).length = (newPositions r inum v ino off n).card := by
  have hnodup : (ballocs es).Nodup := by
    have : (freeBlocks r.sb v).Nodup := List.Nodup.filter _ List.nodup_range
    rw [hext.taken] at this
    exact List.Nodup.of_append_left this
  rw [← List.toFinset_card_of_nodup hnodup]
  symm
  refine card_bij (fun c _ => ((posSlot c).bind fun s =>
    refs v' r.sb.ninodes (update ino inum d') (inum, s)).getD 0) ?_ ?_ ?_
  · intro c hc
    obtain ⟨s, b, hslot, hb⟩ := filled_of_mem_newPositions hmap hc
    rw [hslot, Option.bind_some, hb, Option.getD_some, List.mem_toFinset, mem_ballocs]
    have hnone := refs_of_mem_newPositions hc hslot
    exact ((hext.fresh _ _ hb).resolve_left fun h => by rw [hnone] at h; cases h).2.2
  · intro c hc c' hc' heq
    obtain ⟨s, b, hslot, hb⟩ := filled_of_mem_newPositions hmap hc
    obtain ⟨s', b', hslot', hb'⟩ := filled_of_mem_newPositions hmap hc'
    simp only [hslot, hslot', Option.bind_some, hb, hb', Option.getD_some] at heq
    have hpos := hext.sound.owned.inj hb (heq ▸ hb')
    exact posSlot_inj hslot ((Prod.mk.inj hpos).2 ▸ hslot')
  · intro b hb
    rw [List.mem_toFinset, mem_ballocs] at hb
    obtain ⟨s, hp⟩ := hext.placed b hb
    obtain ⟨c, hc, hslot⟩ := mem_newPositions_of_fresh hs hext hmap hb hp
    exact ⟨c, hc, by rw [hslot, Option.bind_some, hp, Option.getD_some]⟩

include hs hext hmap in
theorem ballocs_eq_newBlocks : ballocs es = newBlocks r inum v ino off n := by
  unfold newBlocks
  rw [← card_newPositions, ← length_ballocs hs hext hmap, hext.taken, List.take_left]

/-! ## The sectors -/

include hs hext hmap in
/-- The sectors that the loop of `writei` logs. -/
theorem mem_sectors_write {t : Nat} : t ∈ sectors es ↔
    (∃ bn ∈ touched off n, blockAt r inum v' (update ino inum d') bn = some t) ∨
    (∃ b ∈ newBlocks r inum v ino off n, bblock b r.sb.ninodes = t) ∨
    (∃ bn ∈ missing r inum v ino off n, NDIRECT ≤ bn) ∧
      refs v' r.sb.ninodes (update ino inum d') (inum, .addr (Fin.last NDIRECT)) =
        some t := by
  have hfresh : ∀ b, b ∈ newBlocks r inum v ino off n ↔ Fresh es b := fun b => by
    rw [← ballocs_eq_newBlocks hs hext hmap, mem_ballocs]
  have hdata : ∀ bn, blockAt r inum v' (update ino inum d') bn = some t ↔
      ∃ s, slotOf bn = some s ∧
        refs v' r.sb.ninodes (update ino inum d') (inum, s) = some t := fun bn => by
    unfold blockAt
    rw [Option.bind_eq_some_iff]
  simp only [hfresh, hdata]
  rw [mem_sectors, hext.logs]
  constructor
  · rintro (⟨b, hb, rfl | rfl⟩ | ⟨j, b, hj, hb, hlast⟩ | ⟨bn, s, hbn, hslot, ht⟩)
    · exact .inr (.inl ⟨b, hb, rfl⟩)
    · -- a fresh block is a data block that is written, or the indirect block
      obtain ⟨s, hp⟩ := hext.placed t hb
      obtain ⟨c, hc, hslot⟩ := mem_newPositions_of_fresh hs hext hmap hb hp
      rcases mem_newPositions.mp hc with ⟨bn, hbn, rfl⟩ | ⟨⟨hnone, bn, hbn, hle⟩, rfl⟩
      · exact .inl ⟨bn, (mem_filter.mp hbn).1, s, hslot, hp⟩
      · cases hslot
        refine .inr (.inr ⟨⟨bn, mem_filter.mpr ⟨hbn, ?_⟩, hle⟩, hp⟩)
        unfold blockAt
        cases hs' : slotOf bn with
        | none => rfl
        | some s =>
          obtain ⟨j, rfl⟩ := slotOf_of_le hs' hle
          cases hv : refs v r.sb.ninodes ino (inum, .entry j) with
          | none => exact hv
          | some a =>
            obtain ⟨a', ha', -⟩ := refs_entry hv
            rw [hnone] at ha'
            cases ha'
    · obtain ⟨c, hc, hslot⟩ := mem_newPositions_of_fresh hs hext hmap hb hj
      rcases mem_newPositions.mp hc with ⟨bn, hbn, rfl⟩ | ⟨-, rfl⟩
      · exact .inr (.inr ⟨⟨bn, hbn, slotOf_entry hslot⟩, hlast⟩)
      · cases Option.some.inj hslot
    · exact .inl ⟨bn, mem_touched_of_slot hbn hslot, s, hslot, ht⟩
  · rintro (⟨bn, hbn, s, hslot, ht⟩ | ⟨b, hb, rfl⟩ | ⟨⟨bn, hbn, hle⟩, hlast⟩)
    · exact .inr (.inr ⟨bn, s, touches_of_mem hbn, hslot, ht⟩)
    · exact .inl ⟨b, hb, .inl rfl⟩
    · have hc : some bn ∈ newPositions r inum v ino off n :=
        mem_newPositions.mpr (.inl ⟨bn, hbn, rfl⟩)
      obtain ⟨s, b, hslot, hb⟩ := filled_of_mem_newPositions hmap hc
      obtain ⟨j, rfl⟩ := slotOf_of_le hslot hle
      have hnone := refs_of_mem_newPositions hc hslot
      have := ((hext.fresh _ _ hb).resolve_left fun h => by rw [hnone] at h; cases h).2.2
      exact .inr (.inl ⟨j, b, hb, this, hlast⟩)

theorem lt_of_mem_newBlocks (hb : b ∈ newBlocks r inum v ino off n) : b < r.sb.size :=
  List.mem_range.mp (List.mem_filter.mp (List.mem_of_mem_take hb)).1

include hmap in
theorem blockAt_of_mem_touched (hbn : bn ∈ touched off n) : ∃ s t, slotOf bn = some s ∧
    refs v' r.sb.ninodes (update ino inum d') (inum, s) = some t ∧
    blockAt r inum v' (update ino inum d') bn = some t := by
  obtain ⟨s, t, hslot, ht⟩ := hmap bn (touches_of_mem hbn)
  exact ⟨s, t, hslot, ht, by rw [blockAt, hslot, Option.bind_some, ht]⟩

end

/-- The sectors with the bytes. -/
def dataSectors (r : Region) (inum : Nat) (v : Nat → Block) (ino : Nat → Dinode) (off n : Nat) :
    Finset Nat := (touched off n).image fun bn => (blockAt r inum v ino bn).getD 0

/-- The indirect block, if it gets an entry. -/
def indirectSectors (r : Region) (inum : Nat) (v : Nat → Block) (ino : Nat → Dinode) (far : Prop)
    [Decidable far] : Finset Nat :=
  if far then {(refs v r.sb.ninodes ino (inum, .addr (Fin.last NDIRECT))).getD 0} else ∅

section

variable {r : Region} {inum : Nat} {v v' : Nat → Block} {ino : Nat → Dinode} {d' : Dinode}
  {src : Nat → UInt8} {off n : Nat} {es : List FsEvent} (hs : Sound r v ino)
  (hext : Extends r inum
    (Kernel.writeScope r inum v' (update ino inum d') src off n) v ino v' d' es)
  (hmap : Kernel.Mapped r inum v' (update ino inum d') off n)

include hmap in
theorem mem_dataSectors {t : Nat} : t ∈ dataSectors r inum v' (update ino inum d') off n ↔
      ∃ bn ∈ touched off n, blockAt r inum v' (update ino inum d') bn = some t := by
  unfold dataSectors
  rw [mem_image]
  refine exists_congr fun bn => and_congr_right fun hbn => ?_
  obtain ⟨s, t', -, -, hat⟩ := blockAt_of_mem_touched hmap hbn
  rw [hat, Option.getD_some, Option.some.injEq]

include hext hmap in
theorem card_dataSectors : (dataSectors r inum v' (update ino inum d') off n).card =
    (touched off n).card := by
  unfold dataSectors
  refine card_image_of_injOn fun bn hbn bn' hbn' heq => ?_
  obtain ⟨s, t, hslot, href, hat⟩ := blockAt_of_mem_touched hmap (mem_coe.mp hbn)
  obtain ⟨s', t', hslot', href', hat'⟩ := blockAt_of_mem_touched hmap (mem_coe.mp hbn')
  simp only [hat, hat', Option.getD_some] at heq
  have hpos := hext.sound.owned.inj href (heq ▸ href')
  exact slotOf_inj hslot ((Prod.mk.inj hpos).2 ▸ hslot')

include hmap in
theorem mem_indirectSectors {t : Nat} : t ∈ indirectSectors r inum v' (update ino inum d')
      (∃ bn ∈ missing r inum v ino off n, NDIRECT ≤ bn) ↔
    (∃ bn ∈ missing r inum v ino off n, NDIRECT ≤ bn) ∧
      refs v' r.sb.ninodes (update ino inum d') (inum, .addr (Fin.last NDIRECT)) =
        some t := by
  unfold indirectSectors
  by_cases hfar : ∃ bn ∈ missing r inum v ino off n, NDIRECT ≤ bn
  · have hall := hfar
    obtain ⟨bn, hbn, hle⟩ := hfar
    obtain ⟨s, b, hslot, hb, -⟩ := blockAt_of_mem_touched hmap (mem_filter.mp hbn).1
    obtain ⟨j, rfl⟩ := slotOf_of_le hslot hle
    obtain ⟨a, ha, -⟩ := refs_entry hb
    rw [if_pos hall, ha, Option.getD_some, mem_singleton, Option.some.injEq]
    exact ⟨fun h => ⟨hall, h.symm⟩, fun h => h.2.symm⟩
  · rw [if_neg hfar]
    exact iff_of_false (notMem_empty t) fun h => hfar h.1

theorem mem_bitmapSectors {t : Nat} : t ∈ bitmapSectors r inum v ino off n ↔
    ∃ b ∈ newBlocks r inum v ino off n, bblock b r.sb.ninodes = t := by
  unfold bitmapSectors
  rw [List.mem_toFinset, List.mem_map]

theorem lt_of_mem_bitmapSectors {t : Nat} (ht : t ∈ bitmapSectors r inum v ino off n) :
    t < r.lo := by
  obtain ⟨b, hb, rfl⟩ := mem_bitmapSectors.mp ht
  exact r.bitmap b (lt_of_lt_of_le (lt_of_mem_newBlocks hb) r.size_le)

include hext hmap in
theorem le_of_mem_dataSectors {t : Nat}
    (ht : t ∈ dataSectors r inum v' (update ino inum d') off n) : r.lo ≤ t := by
  obtain ⟨bn, hbn, hat⟩ := (mem_dataSectors hmap).mp ht
  obtain ⟨s, t', -, href, hat'⟩ := blockAt_of_mem_touched hmap hbn
  obtain rfl := Option.some.inj (hat'.symm.trans hat)
  exact (hext.sound.lo_le href).1

include hext hmap in
theorem disjoint_data_indirect : Disjoint (dataSectors r inum v' (update ino inum d') off n)
    (indirectSectors r inum v' (update ino inum d')
      (∃ bn ∈ missing r inum v ino off n, NDIRECT ≤ bn)) := by
  rw [disjoint_left]
  intro t ht ht'
  obtain ⟨bn, hbn, hat⟩ := (mem_dataSectors hmap).mp ht
  obtain ⟨s, t', hslot, href, hat'⟩ := blockAt_of_mem_touched hmap hbn
  obtain rfl := Option.some.inj (hat'.symm.trans hat)
  have hpos := hext.sound.owned.inj href ((mem_indirectSectors hmap).mp ht').2
  exact slotOf_ne_last hslot (Prod.mk.inj hpos).2

include hs hext hmap in
/-- How many different sectors the loop of `writei` logs: the three kinds have nothing in
common. -/
theorem card_sectors_loop : (sectors es).card = (touched off n).card +
    (bitmapSectors r inum v ino off n).card +
    if ∃ bn ∈ missing r inum v ino off n, NDIRECT ≤ bn then 1 else 0 := by
  have hall : sectors es = dataSectors r inum v' (update ino inum d') off n ∪
      indirectSectors r inum v' (update ino inum d')
        (∃ bn ∈ missing r inum v ino off n, NDIRECT ≤ bn) ∪ bitmapSectors r inum v ino off n := by
    ext t
    rw [mem_sectors_write hs hext hmap, mem_union, mem_union, mem_dataSectors hmap,
      mem_indirectSectors hmap, mem_bitmapSectors, or_assoc]
    exact or_congr_right or_comm
  have hdisj : Disjoint (dataSectors r inum v' (update ino inum d') off n ∪
      indirectSectors r inum v' (update ino inum d')
        (∃ bn ∈ missing r inum v ino off n, NDIRECT ≤ bn)) (bitmapSectors r inum v ino off n) := by
    rw [disjoint_left]
    intro t ht ht'
    have hlt := lt_of_mem_bitmapSectors ht'
    rcases mem_union.mp ht with ht | ht
    · have := le_of_mem_dataSectors hext hmap ht
      omega
    · have := (hext.sound.lo_le ((mem_indirectSectors hmap).mp ht).2).1
      omega
  rw [hall, card_union_of_disjoint hdisj,
    card_union_of_disjoint (disjoint_data_indirect hext hmap), card_dataSectors hext hmap,
    Nat.add_right_comm]
  congr 1
  unfold indirectSectors
  split_ifs
  · exact card_singleton _
  · exact card_empty

include hs hext hmap in
/-- With the inode block, which no other write of the call is for. -/
theorem card_sectors_write (hon : OnDisk r.sb.ninodes inum) :
    (sectors (es ++ if 0 < n ∧ (ino inum).size.toNat < off + n then
      [.iupdate inum, .logWrite (iblock inum)] else [])).card = budget r inum v ino off n := by
  unfold budget
  rw [← card_sectors_loop hs hext hmap]
  split_ifs
  · have hnot : iblock inum ∉ sectors es := by
      have hib := r.iblock_lt hon.2
      rw [mem_sectors_write hs hext hmap]
      rintro (⟨bn, hbn, hat⟩ | ⟨b, -, hb⟩ | ⟨-, hlast⟩)
      · have := le_of_mem_dataSectors hext hmap ((mem_dataSectors hmap).mpr ⟨bn, hbn, hat⟩)
        omega
      · exact bblock_ne_iblock hon hb
      · have := (hext.sound.lo_le hlast).1
        omega
    rw [← card_insert_of_notMem hnot]
    congr 1
    ext t
    rw [mem_sectors, List.mem_append, ← mem_sectors, mem_insert]
    simp [or_comm]
  · rw [List.append_nil, Nat.add_zero]

end

/-! ## The transactions of `filewrite` -/

namespace Kernel

/-- `writei` takes the bytes: they start inside the file and end within its largest size. -/
def Accepts (d : Dinode) (off n : Nat) : Prop :=
  off ≤ d.size.toNat ∧ off + n < 2 ^ 32 ∧ off + n ≤ MAXFILE * BSIZE

section

variable {k : Kernel} {e : Fin NINODE} {r : Region} {v : Nat → Block} {ino : Nat → Dinode}
  {src : Nat → UInt8} {off n : Nat}

theorem writei_sectors (h : Sees k v) (hs : Sound r v ino)
    (hl : Allocated r.sb.ninodes ino (k.icache e).inum)
    (hd : ino (k.icache e).inum = (k.icache e).d) (htype : (k.icache e).d.type ≠ T_DEV) :
    Ends (writei e src off n) k (fun _ _ es =>
      (Accepts (k.icache e).d off n →
        (sectors es).card = budget r (k.icache e).inum v ino off n) ∧
      (¬ Accepts (k.icache e).d off n → sectors es = ∅)) Benign := by
  refine ends_writei htype (fun hout => ⟨fun hacc => ?_, fun _ => rfl⟩) fun hoff hsum hmax => ?_
  · unfold Accepts at hacc
    omega
  have hacc : Accepts (k.icache e).d off n := ⟨hoff, hsum, hmax⟩
  apply (writeiLoop_ends n src off n le_rfl rfl h hs hl hd).bind
  rintro _ k1 es1 ⟨v1, hw1, hext, hmap, -⟩
  have hsize : (k1.icache e).d.size = (ino (k.icache e).inum).size := by rw [hext.inode]
  have hcount := card_sectors_write hs hext hmap hl.onDisk
  refine Ends.bind (R := fun _ _ es2 => es2 =
    if 0 < n ∧ (ino (k.icache e).inum).size.toNat < off + n then
      [.iupdate (k.icache e).inum, .logWrite (iblock (k.icache e).inum)] else []) ?_ ?_
  · apply ends_inode_bind
    rw [hsize]
    by_cases hgrow : 0 < n ∧ (ino (k.icache e).inum).size.toNat < off + n
    · rw [if_pos hgrow, if_pos hgrow]
      apply (setDinode_ends hw1.sees).bind
      rintro _ k2 _ ⟨hw2, -, rfl⟩
      apply (iupdate_ends hw2.sees).mono
      rintro _ _ _ ⟨-, rfl⟩
      rw [hw2.inum, hw1.inum]
      rfl
    · rw [if_neg hgrow, if_neg hgrow]
      exact ends_pure rfl
  · rintro _ k2 _ rfl
    refine ends_pure ⟨fun _ => ?_, fun hnot => absurd hacc hnot⟩
    rw [List.append_nil]
    exact hcount

/-- The computation emits nothing, whatever it does. -/
def Silent {α : Type} (x : K α) : Prop := ∀ k, Ends x k (fun _ _ es => es = []) fun _ => True

theorem Silent.bind {α β : Type} {x : K α} {f : α → K β} (hx : Silent x) (hf : ∀ a, Silent (f a)) :
    Silent (x >>= f) := fun k => (hx k).bind fun a t _ hes => by
  rw [hes]
  exact hf a t

theorem silent_pure {α : Type} {a : α} : Silent (pure a : K α) := fun _ => ends_pure rfl

theorem silent_modify {f : Kernel → Kernel} : Silent (Act.modify f) := fun _ => ends_modify rfl

theorem silent_onStore {α : Type} {x : Prog Store α} : Silent (onStore x) := fun _ =>
  ends_lift (fun _ _ _ => rfl) fun _ _ => trivial

theorem silent_get {α : Type} {f : Kernel → K α} (hf : ∀ k, Silent (f k)) :
    Silent (Act.get >>= f) := fun k => ends_get_bind (hf k k)

theorem silent_forEach {α : Type} {f : α → K Unit} (hf : ∀ a, Silent (f a)) :
    ∀ as, Silent (Act.forEach f as)
  | [] => silent_pure
  | a :: as => (hf a).bind fun _ => silent_forEach hf as

theorem silent_commit : Silent commit := silent_get fun k => by
  dsimp only
  split_ifs
  · exact (silent_forEach (fun _ => silent_onStore) _).bind fun _ =>
      silent_onStore.bind fun _ => (silent_forEach (fun _ => silent_onStore) _).bind fun _ =>
        silent_modify.bind fun _ => silent_onStore
  · exact silent_pure

theorem silent_endOp : Silent endOp := silent_get fun k => by
  rcases k.log.endOp with msg | ⟨l, _ | _⟩
  · exact fun _ => ends_panic trivial
  · exact silent_modify
  · exact silent_modify.bind fun _ => silent_commit.bind fun _ => silent_modify

theorem silent_iunlock : Silent (iunlock e) := silent_get fun k => by
  split_ifs
  · exact fun _ => ends_panic trivial
  · exact silent_modify

theorem filewriteChunk_sectors {f : Fin NFILE} (h : Sees k v) (hs : Sound r v ino)
    (hl : Allocated r.sb.ninodes ino (k.icache e).inum)
    (hd : ino (k.icache e).inum = (k.icache e).d) (htype : (k.icache e).d.type ≠ T_DEV)
    (hvalid : (k.icache e).valid = true) :
    Ends (filewriteChunk f e src n) k (fun _ _ es =>
      (Accepts (k.icache e).d (k.ftable f).off n →
        (sectors es).card = budget r (k.icache e).inum v ino (k.ftable f).off n) ∧
      (¬ Accepts (k.icache e).d (k.ftable f).off n → sectors es = ∅)) (fun _ => True) := by
  refine Ends.bind (R := fun _ k1 es => Sees k1 v ∧ k1.icache = k.icache ∧
    k1.ftable = k.ftable ∧ es = []) ?_ ?_
  · apply ends_get_bind
    cases hb : k.log.beginOp with
    | none => exact ends_sleep trivial
    | some l =>
      obtain ⟨-, -, rfl⟩ := Log.beginOp_eq_some.mp hb
      exact ends_modify ⟨h, rfl, rfl, rfl⟩
  rintro _ k1 _ ⟨hsees1, hic1, hft1, rfl⟩
  refine Ends.bind (R := fun _ k2 es => Sees k2 v ∧
    k2.icache e = { k.icache e with busy := true } ∧ k2.ftable = k.ftable ∧ es = []) ?_ ?_
  · apply ends_inode_bind
    rw [hic1, if_pos hvalid]
    split_ifs
    · exact ends_panic trivial
    · exact ends_sleep trivial
    · apply setInode_ends.bind
      rintro _ _ _ ⟨rfl, rfl⟩
      exact ends_pure ⟨hsees1, by simp [hic1], hft1, rfl⟩
  rintro _ k2 _ ⟨hsees2, hent2, hft2, rfl⟩
  apply ends_get_bind
  have hw : Ends (writei e src (k2.ftable f).off n) k2 _ _ := writei_sectors hsees2 hs
    (by rw [hent2]; exact hl) (by rw [hent2]; exact hd) (by rw [hent2]; exact htype)
  rw [hent2, hft2] at hw
  rw [hft2]
  refine (hw.weaken fun _ _ => trivial).bind fun res k3 es3 hes => ?_
  refine Ends.mono (R := fun _ _ es => es = []) ?_ fun _ _ es hnil => by
    rw [hnil, List.nil_append, List.append_nil]
    exact hes
  exact (silent_modify.bind fun _ => silent_iunlock.bind fun _ =>
    silent_endOp.bind fun _ => silent_pure) k3

end

/-- The budget of one transaction of `filewrite`: it logs at most `MAXOPBLOCKS` different sectors
exactly if `writei` refuses the bytes or their `budget` is at most that. -/
theorem filewriteChunk_fits_iff {k k' : Kernel} {f : Fin NFILE} {e : Fin NINODE}
    {src : Nat → UInt8} {left : Nat} {res : Option Nat} {es : List FsEvent} {r : Region}
    {v : Nat → Block} {ino : Nat → Dinode} (hsees : k.Sees v) (hsound : Sound r v ino)
    (hino : ino (k.icache e).inum = (k.icache e).d)
    (hon : OnDisk r.sb.ninodes (k.icache e).inum) (hfile : (k.icache e).d.type = T_FILE)
    (hvalid : (k.icache e).valid = true)
    (hrun : filewriteChunk f e src (min left filewriteMax) k = .ok res k' es) :
    (sectors es).card ≤ MAXOPBLOCKS ↔
      (Accepts (k.icache e).d (k.ftable f).off (min left filewriteMax) →
        budget r (k.icache e).inum v ino (k.ftable f).off (min left filewriteMax) ≤
          MAXOPBLOCKS) := by
  have hl : Allocated r.sb.ninodes ino (k.icache e).inum :=
    ⟨hon.1, hon.2, by rw [hino, hfile]; decide⟩
  obtain ⟨hyes, hno⟩ := (filewriteChunk_sectors hsees hsound hl hino (by rw [hfile]; decide)
    hvalid).of_ok hrun
  by_cases hacc : Accepts (k.icache e).d (k.ftable f).off (min left filewriteMax)
  · rw [hyes hacc]
    exact ⟨fun h _ => h, fun h => h hacc⟩
  · rw [hno hacc]
    exact ⟨fun _ h => absurd h hacc, fun _ => Nat.zero_le _⟩

/-! A disk with 35 free blocks in front of the log, and a new file on it. -/

/-- A regular file without contents. -/
def newFile : Dinode := { Dinode.zero with type := T_FILE, nlink := 1 }

/-- The disk with the file as inode 1. -/
def newFileDisk (s : Nat) : Block :=
  if s = 1 then (((Bytes.zero BSIZE).put32 0 70).put32 8 8).put32 12 30
  else if s = 2 then putDinode (Bytes.zero BSIZE) 1 newFile
  else if s = 4 then (Bytes.zero BSIZE).splice 0 (fun _ => 31) 1
  else Bytes.zero BSIZE

/-- Its layout. -/
def newFileRegion : Region where
  sb := { size := 70, nblocks := 0, ninodes := 8, nlog := 30 }
  lo := 5
  hi := 70
  inodes := by decide
  order := by decide
  bitmap := by decide
  word := by decide

/-- The first entry of the inode cache. -/
def inode0 : Fin NINODE := ⟨0, NINODE_pos⟩

/-- The first entry of the file table. -/
def file0 : Fin NFILE := ⟨0, NFILE_pos⟩

/-- The kernel with the file opened for writing. -/
def newFileKernel : Kernel :=
  { loaded { disk := newFileDisk, disksize := 70, bcache := binit } (.initlog 70 30)
      { junk := fun _ _ => 0, input := fun _ => none, memory := fun _ => true } with
    icache := update Icache.empty inode0
      { dev := ROOTDEV, inum := 1, ref := 1, busy := false, valid := true, d := newFile }
    ftable := update (fun _ => .empty) file0
      { type := .inode, ref := 1, readable := true, writable := true, pipe := none,
        ip := some inode0, off := 0 } }

theorem newFileKernel_sees : newFileKernel.Sees newFileDisk :=
  @sees_loaded newFileDisk 70 (.initlog 70 30) newFileKernel.env rfl

theorem sound_of_blank {r : Region} {v : Nat → Block} (hsuper : getSuperblock (v 1) = r.sb)
    (hreserved : ∀ b < r.top, ¬ (r.lo ≤ b ∧ b < r.hi) → bit v r.sb.ninodes b = true)
    (hzero : ∀ j < r.sb.ninodes, ∀ i, (dino v j).addrs i = 0) : Sound r v (dino v) := by
  have hrefs : ∀ p b, refs v r.sb.ninodes (dino v) p ≠ some b := by
    rintro ⟨j, s⟩ b hp
    obtain ⟨hl, hs⟩ := refs_eq_some hp
    cases s <;> simp [slotRef, hzero j hl.2.1, ptr] at hs
  exact ⟨hsuper, hreserved, fun {p b} hp => absurd hp (hrefs p b),
    fun {p _ b} hp => absurd hp (hrefs p b)⟩

theorem newFileDisk_sound : Sound newFileRegion newFileDisk (dino newFileDisk) :=
  sound_of_blank (by decide) (by decide) (by decide +kernel)

theorem newFile_hyps : dino newFileDisk (newFileKernel.icache inode0).inum =
      (newFileKernel.icache inode0).d ∧
    OnDisk newFileRegion.sb.ninodes (newFileKernel.icache inode0).inum ∧
    (newFileKernel.icache inode0).d.type = T_FILE ∧
    (newFileKernel.icache inode0).valid = true := by
  have hent : newFileKernel.icache inode0 =
      { dev := ROOTDEV, inum := 1, ref := 1, busy := false, valid := true, d := newFile } := by
    simp [newFileKernel]
  rw [hent]
  exact ⟨getDinode_putDinode_self (by decide), ⟨by decide, by decide⟩, rfl, rfl⟩

theorem filewriteChunk_fits_newFile :
    ∃ res k' es, filewriteChunk file0 inode0 (fun _ => 1) (min 100 filewriteMax) newFileKernel =
      .ok res k' es ∧ (sectors es).card ≤ MAXOPBLOCKS := by
  have hok : (match filewriteChunk file0 inode0 (fun _ => 1) (min 100 filewriteMax)
      newFileKernel with
    | .ok _ _ _ => true
    | .halt _ _ => false) = true := by decide +kernel
  split at hok
  · rename_i res k' es hrun
    obtain ⟨hino, hon, htype, hvalid⟩ := newFile_hyps
    exact ⟨res, k', es, hrun, (filewriteChunk_fits_iff newFileKernel_sees newFileDisk_sound hino hon
      htype hvalid hrun).mpr fun _ => by decide +kernel⟩
  · cases hok

/-- The first transaction of a long write to a new file logs 16 sectors: 13 data blocks, the
indirect block, the bitmap block and the inode block. -/
theorem filewriteChunk_overflows :
    newFileKernel.Sees newFileDisk ∧ Sound newFileRegion newFileDisk (dino newFileDisk) ∧
    dino newFileDisk (newFileKernel.icache inode0).inum = (newFileKernel.icache inode0).d ∧
    (newFileKernel.icache inode0).d.type = T_FILE ∧
    ∃ res k' es, filewriteChunk file0 inode0 (fun _ => 1) (min 10000 filewriteMax) newFileKernel =
      .ok res k' es ∧ (sectors es).card = 16 ∧ MAXOPBLOCKS < (sectors es).card := by
  refine ⟨newFileKernel_sees, newFileDisk_sound, newFile_hyps.1, newFile_hyps.2.2.1, ?_⟩
  have hok : (match filewriteChunk file0 inode0 (fun _ => 1) (min 10000 filewriteMax)
      newFileKernel with
    | .ok _ _ es => decide ((sectors es).card = 16)
    | .halt _ _ => false) = true := by decide +kernel
  split at hok
  · rename_i res k' es hrun
    have hcard := of_decide_eq_true hok
    exact ⟨res, k', es, hrun, hcard, by rw [hcard]; decide⟩
  · cases hok

end Kernel

end Xv6
