import Xv6.Fs.Keep

/-!
# Who owns the blocks

Runs of the calls that the rest of the kernel makes into `fs.c` to look up, allocate, read, write
and free inodes. In between, the rest of the kernel works: transactions begin and end, and buffers
come and go.
-/

namespace Xv6

open Function

open Lib Act

/-- A call into the inode layer. -/
inductive FsCall where
  | iget (inum : Nat)
  | idup (e : Fin NINODE)
  | ilock (e : Fin NINODE)
  | iunlock (e : Fin NINODE)
  | iput (e : Fin NINODE)
  | ialloc (type : BitVec 16)
  | readi (e : Fin NINODE) (off n : Nat)
  | writei (e : Fin NINODE) (src : Nat → UInt8) (off n : Nat)
  /-- The callers of `iupdate` set these fields first. -/
  | iupdate (e : Fin NINODE) (major minor nlink : BitVec 16)

namespace FsCall

/-- What the call does. -/
def run : FsCall → K Unit
  | .iget inum => do
    let _ ← Kernel.iget ROOTDEV inum
    return ()
  | .idup e => do
    let _ ← Kernel.idup e
    return ()
  | .ilock e => Kernel.ilock e
  | .iunlock e => Kernel.iunlock e
  | .iput e => Kernel.iput e
  | .ialloc type => do
    let _ ← Kernel.ialloc ROOTDEV type
    return ()
  | .readi e off n => do
    let _ ← Kernel.readi e off n
    return ()
  | .writei e src off n => do
    let _ ← Kernel.writei e src off n
    return ()
  | .iupdate e major minor nlink => do
    Kernel.setDinode e fun d => { d with major := major, minor := minor, nlink := nlink }
    Kernel.iupdate e

/-- The caller holds a reference, and the lock of a valid entry. -/
def Locked (k : Kernel) (e : Fin NINODE) : Prop :=
  0 < (k.icache e).ref ∧ (k.icache e).busy = true ∧ (k.icache e).valid = true

/-- What the caller sees to: an inode number of the disk for `iget`, a reference of its own for
`iput`, and the lock for the contents. -/
def Allowed (n : Nat) (k : Kernel) : FsCall → Prop
  | .iget inum => OnDisk n inum
  | .idup e => 0 < (k.icache e).ref
  | .iput e => 0 < (k.icache e).ref
  | .readi e _ _ => Locked k e
  | .writei e _ _ _ => Locked k e
  | .iupdate e _ _ _ => Locked k e
  | _ => True

end FsCall

/-- The rest of the kernel works: it leaves the inode cache, the metadata and the blocks in use
alone. -/
structure Elsewhere (r : Region) (k k' : Kernel) : Prop where
  icache : k'.icache = k.icache
  disk : ∃ v v', k.Sees v ∧ k'.Sees v' ∧ (∀ s < r.lo, v' s = v s) ∧
    ∀ s < r.hi, Kernel.bit v r.sb.ninodes s = true → v' s = v s

/-- Runs of calls, with the events on the way. -/
inductive FsRun (r : Region) : Kernel → List FsEvent → Kernel → Prop where
  | refl (k : Kernel) : FsRun r k [] k
  | call {k l m : Kernel} {es fs : List FsEvent} {c : FsCall} : FsRun r k es l →
      c.Allowed r.sb.ninodes l → c.run l = .ok () m fs → FsRun r k (es ++ fs) m
  | other {k l m : Kernel} {es : List FsEvent} : FsRun r k es l → Elsewhere r l m →
      FsRun r k es m

/-- No requirement on contents, and none on the place of blocks that the bitmap does not make. -/
def plain (r : Region) (exact : Prop) : Rules where
  region := r
  limit := r.top
  exact := exact
  content := fun _ _ => True
  content_zero := fun _ => trivial

theorem Honest.within {r : Region} {ev : FsEvent} (h : Honest r ev) : Within r.top ev := by
  cases ev with
  | balloc st b => exact lt_of_lt_of_le h.2.1 r.size_le
  | _ => trivial

/-- The invariant of a run. -/
structure Kernel.Owns (r : Region) (exact : Prop) (k : Kernel) : Prop where
  coherent : ∃ v ino, Coherent (plain r exact) k v ino
  onDisk : ∀ e, 0 < (k.icache e).ref → OnDisk r.sb.ninodes (k.icache e).inum

namespace Kernel.Owns

variable {r : Region} {exact : Prop} {k k' : Kernel} {e : Fin NINODE}

theorem of_iget {inum : Nat} (h : Owns r exact k) (hi : OnDisk r.sb.ninodes inum)
    (hc : ∃ v ino, Coherent (plain r exact) k' v ino)
    (hget : Xv6.iget k.icache ROOTDEV inum = some (e, k'.icache)) : Owns r exact k' := by
  refine ⟨hc, fun f hf => ?_⟩
  rcases iget_eq_some hget with ⟨href, -, -, hic⟩ | ⟨-, -, hic⟩ <;> rw [hic] at hf ⊢ <;>
    by_cases hfe : f = e
  · subst hfe
    rw [update_self]
    exact h.onDisk f href
  · rw [update_of_ne hfe] at hf ⊢
    exact h.onDisk f hf
  · subst hfe
    rw [update_self]
    exact hi
  · rw [update_of_ne hfe] at hf ⊢
    exact h.onDisk f hf

theorem of_touched (h : Owns r exact k) (hc : ∃ v ino, Coherent (plain r exact) k' v ino)
    (ht : Touched k k' e) (hsame : 0 < (k'.icache e).ref →
      0 < (k.icache e).ref ∧ (k'.icache e).inum = (k.icache e).inum) : Owns r exact k' := by
  refine ⟨hc, fun f hf => ?_⟩
  by_cases hfe : f = e
  · subst hfe
    rw [(hsame hf).2]
    exact h.onDisk f (hsame hf).1
  · rw [ht.icache, update_of_ne hfe] at hf ⊢
    exact h.onDisk f hf

theorem run_ends (h : Owns r exact k) {c : FsCall} (hc : c.Allowed r.sb.ninodes k) :
    Ends c.run k (fun _ k' es => Owns r exact k' ∧ ∀ ev ∈ es, Honest r ev) Benign := by
  obtain ⟨v, ino, hcoh⟩ := h.coherent
  cases c with
  | iget inum =>
    apply (iget_ends hcoh).bind
    rintro e k1 _ ⟨hc1, rfl, -, hget⟩
    exact ends_pure ⟨h.of_iget hc ⟨v, ino, hc1⟩ hget, by simp⟩
  | idup e =>
    apply (idup_ends hcoh hc).bind
    rintro _ k1 _ ⟨hc1, rfl, -, hk1⟩
    refine ends_pure ⟨h.of_touched ⟨v, ino, hc1⟩ (by rw [hk1]; exact .set _) fun _ => ⟨hc, ?_⟩,
      by simp⟩
    rw [hk1]
    simp
  | ilock e =>
    apply (ilock_ends hcoh).mono
    rintro _ k1 _ ⟨hc1, rfl, ht, href, -, hent, -⟩
    exact ⟨h.of_touched ⟨v, ino, hc1⟩ ht fun _ => ⟨href, by rw [hent]⟩, by simp⟩
  | iunlock e =>
    apply (iunlock_ends hcoh).mono
    rintro _ k1 _ ⟨hc1, rfl, hk1, href, -⟩
    refine ⟨h.of_touched ⟨v, ino, hc1⟩ (by rw [hk1]; exact .set _) fun _ => ⟨href, ?_⟩, by simp⟩
    rw [hk1]
    simp
  | iput e =>
    apply (iput_ends hcoh hc fun _ _ => h.onDisk e hc).mono
    rintro _ k1 es ⟨⟨v1, ino1, hc1, -, ht, hent⟩, hquiet⟩
    refine ⟨h.of_touched ⟨v1, ino1, hc1⟩ ht fun hpos => ⟨hc, ?_⟩,
      fun ev hev => (hquiet ev hev).honest⟩
    rcases hent with ⟨hent, -⟩ | ⟨-, -, h0, -⟩
    · rw [hent]
    · rw [h0] at hpos
      exact absurd hpos (lt_irrefl _)
  | ialloc type =>
    apply (ialloc_ends hcoh).bind
    rintro e k1 es ⟨-, j, v1, ino1, hc1, hj, hget, hquiet⟩
    refine ends_pure ⟨h.of_iget hj ⟨v1, ino1, hc1⟩ hget, ?_⟩
    rw [List.append_nil]
    exact fun ev hev => (hquiet ev hev).honest
  | readi e off n =>
    obtain ⟨href, hbusy, hvalid⟩ := hc
    apply (readi_ends hcoh href hvalid fun _ => h.onDisk e href).bind
    rintro _ k1 es ⟨hc1, ht, hent, hhon, -⟩
    obtain ⟨v1, ino1, hc1, -⟩ := hc1 fun ev hev => (hhon ev hev).within
    refine ends_pure ⟨h.of_touched ⟨v1, ino1, hc1⟩ ht
      fun _ => ⟨href, by rw [hent]⟩, by rw [List.append_nil]; exact hhon⟩
  | writei e src off n =>
    obtain ⟨href, hbusy, hvalid⟩ := hc
    refine (writei_ends hcoh href hvalid (fun _ => h.onDisk e href)
      fun _ _ _ _ => trivial).bind ?_
    rintro _ k1 es ⟨hc1, ht, hent, hhon⟩
    obtain ⟨⟨v1, ino1, hc1, -⟩, -⟩ := hc1 fun ev hev => (hhon ev hev).within
    refine ends_pure ⟨h.of_touched ⟨v1, ino1, hc1⟩ ht
      fun _ => ⟨href, by rw [hent]⟩, by rw [List.append_nil]; exact hhon⟩
  | iupdate e major minor nlink =>
    obtain ⟨href, hbusy, hvalid⟩ := hc
    refine (setMeta_ends (f := fun d => { d with major := major, minor := minor, nlink := nlink })
      hcoh ⟨href, hvalid, rfl, h.onDisk e href⟩ (fun _ => rfl) (fun _ => rfl) fun _ => rfl).mono ?_
    rintro _ k1 _ ⟨⟨v1, ino1, hc1, -⟩, ht, hent, rfl⟩
    refine ⟨h.of_touched ⟨v1, ino1, hc1⟩ ht fun _ => ⟨href, by rw [hent]⟩, by simp [Honest]⟩

theorem of_elsewhere (h : Owns r exact k) (he : Elsewhere r k k') : Owns r exact k' := by
  obtain ⟨v, ino, hcoh⟩ := h.coherent
  obtain ⟨w, v', hsees, hsees', hmeta, hused⟩ := he.disk
  obtain rfl : w = v := (Flat.peek hsees).symm.trans (Flat.peek hcoh.sees)
  refine ⟨⟨v', ino, hcoh.of_view he.icache hsees' hmeta fun hp => ?_⟩, ?_⟩
  · obtain ⟨-, hhi, hbit⟩ := hcoh.sound.lo_le hp
    exact hused _ hhi hbit
  · rw [he.icache]
    exact h.onDisk

theorem run {es : List FsEvent} (h : Owns r exact k) (hrun : FsRun r k es k') :
    Owns r exact k' ∧ ∀ ev ∈ es, Honest r ev := by
  induction hrun with
  | refl => exact ⟨h, by simp⟩
  | call _ hc hok ih =>
    obtain ⟨hl, hhon⟩ := (ih.1.run_ends hc).of_ok hok
    exact ⟨hl, fun ev hev => (List.mem_append.mp hev).elim (ih.2 ev) (hhon ev)⟩
  | other _ he ih => exact ⟨ih.1.of_elsewhere he, ih.2⟩

end Kernel.Owns

/-- A consistent image: the bitmap is right, every block has one owner, and files have no
holes. -/
structure Consistent (r : Region) (v : Nat → Block) : Prop where
  super : getSuperblock (v 1) = r.sb
  reserved : ∀ b < r.top, ¬ (r.lo ≤ b ∧ b < r.hi) → Kernel.bit v r.sb.ninodes b = true
  bitmap : ∀ b, r.lo ≤ b → b < r.hi → (Kernel.bit v r.sb.ninodes b = true ↔
    ∃ p, refs v r.sb.ninodes (dino v) p = some b)
  inside : ∀ p b, refs v r.sb.ninodes (dino v) p = some b → r.lo ≤ b ∧ b < r.hi
  once : ∀ p q b, refs v r.sb.ninodes (dino v) p = some b →
    refs v r.sb.ninodes (dino v) q = some b → p = q
  mapped : ∀ j, Allocated r.sb.ninodes (dino v) j →
    ∀ bn < ((dino v j).size.toNat + BSIZE - 1) / BSIZE,
      ∃ s a, slotOf bn = some s ∧ refs v r.sb.ninodes (dino v) (j, s) = some a

theorem touches_iff_lt {size bn : Nat} :
    Touches 0 size bn ↔ bn < (size + BSIZE - 1) / BSIZE := by
  simp only [Touches, BSIZE]
  omega

namespace Consistent

variable {r : Region} {k : Kernel} {v : Nat → Block}

theorem owned (h : Consistent r v) : (r.heap v (dino v)).Owned := by
  refine ⟨fun {p b} hp => ?_, fun hp hq => h.once _ _ _ hp hq⟩
  obtain ⟨h1, h2⟩ := h.inside p b hp
  exact ⟨h1, h2, (h.bitmap b h1 h2).mpr ⟨p, hp⟩⟩

/-- With an empty inode cache the inodes are those of the disk. -/
theorem coherent {ru : Rules} (h : Consistent ru.region v) (hsees : k.Sees v)
    (hcache : ∀ e, (k.icache e).ref = 0)
    (hbelow : ∀ p b, refs v ru.ninodes (dino v) p = some b → b < ru.limit)
    (hcontent : ∀ t b, ru.content t b) : k.Coherent ru v (dino v) := by
  have hidle : ∀ e, ¬ 0 < (k.icache e).ref := fun e he => by
    rw [hcache e] at he
    exact lt_irrefl _ he
  refine ⟨hsees, ⟨h.super, h.reserved, h.owned⟩, fun e he => absurd he (hidle e),
    fun e _ he => absurd he (hidle e), fun e _ he => absurd he.ref (hidle e),
    fun _ _ => .refl _, fun _ _ _ => rfl, hbelow, fun _ _ _ _ _ => hcontent _ _,
    fun _ => ⟨fun _ _ => rfl, fun b hb => ?_, fun j hj bn hbn => ?_⟩⟩
  · exact (h.bitmap b hb.1 hb.2.1).mp hb.2.2
  · exact h.mapped j hj bn (touches_iff_lt.mp hbn)

theorem owns (h : Consistent r v) (hsees : k.Sees v) (hcache : ∀ e, (k.icache e).ref = 0) :
    k.Owns r True := by
  refine ⟨⟨v, dino v, h.coherent hsees hcache (fun p b hp => ?_) fun _ _ => trivial⟩, ?_⟩
  · exact lt_of_lt_of_le (h.inside p b hp).2 r.hi_le
  · intro e he
    rw [hcache e] at he
    exact absurd he (lt_irrefl _)

theorem of_owns (h : k.Owns r True) (hsees : k.Sees v) : Consistent r v := by
  obtain ⟨w, ino, hc⟩ := h.coherent
  obtain rfl : w = v := (Flat.peek hc.sees).symm.trans (Flat.peek hsees)
  obtain ⟨hino, hexact, hmapped⟩ := hc.whole trivial
  have hrefs : refs w r.sb.ninodes (dino w) = refs w r.sb.ninodes ino :=
    refs_congr_ino fun j hj => (hino j hj).symm
  refine ⟨hc.sound.super, hc.sound.reserved, fun b h1 h2 => ⟨fun hbit => ?_, ?_⟩, ?_, ?_, ?_⟩
  · rw [hrefs]
    exact hexact b ⟨h1, h2, hbit⟩
  · rintro ⟨p, hp⟩
    rw [hrefs] at hp
    exact (hc.sound.lo_le hp).2.2
  · intro p b hp
    rw [hrefs] at hp
    exact ⟨(hc.sound.lo_le hp).1, (hc.sound.lo_le hp).2.1⟩
  · intro p q b hp hq
    rw [hrefs] at hp hq
    exact hc.sound.owned.inj hp hq
  · intro j hj bn hbn
    have heq := hino j hj.onDisk
    have hj' : Allocated r.sb.ninodes ino j := ⟨hj.1, hj.2.1, by rw [heq]; exact hj.2.2⟩
    rw [hrefs]
    exact hmapped j hj' bn (by rw [heq]; exact touches_iff_lt.mpr hbn)

end Consistent

/-- Block ownership: from a consistent image and an empty inode cache, every run of calls leads to
a consistent image, and no call stops because it frees a free block. -/
theorem block_ownership {r : Region} {k k' : Kernel} {v : Nat → Block} {es : List FsEvent}
    (hsees : k.Sees v) (himage : Consistent r v) (hcache : ∀ e, (k.icache e).ref = 0)
    (hrun : FsRun r k es k') :
    (∃ v', k'.Sees v' ∧ Consistent r v') ∧
      ∀ c : FsCall, c.Allowed r.sb.ninodes k' → ∀ why fs, c.run k' = .halt why fs →
        why ≠ .panic "freeing free block" := by
  obtain ⟨howns, -⟩ := (himage.owns hsees hcache).run hrun
  obtain ⟨v', ino, hc⟩ := howns.coherent
  exact ⟨⟨v', hc.sees, .of_owns howns hc.sees⟩, fun c hallowed why fs hhalt =>
    (howns.run_ends hallowed).of_halt hhalt⟩

/-- An image of eight blocks with three free ones and no file. -/
def emptyDisk (s : Nat) : Block :=
  if s = 1 then ((Bytes.zero BSIZE).put32 0 8).put32 8 8
  else if s = 4 then (Bytes.zero BSIZE).splice 0 (fun _ => 31) 1
  else Bytes.zero BSIZE

/-- Its layout. -/
def emptyRegion : Region where
  sb := { size := 8, nblocks := 0, ninodes := 8, nlog := 0 }
  lo := 5
  hi := 8
  inodes := by decide
  order := by decide
  bitmap := by decide
  word := by decide

/-- The kernel in front of it, inside an operation. -/
def emptyKernel : Kernel :=
  .loaded { disk := emptyDisk, disksize := 8, bcache := binit }
    { start := 100, size := 30, outstanding := 1, committing := false, lh := [] }
    { junk := fun _ _ => 0, input := fun _ => none, memory := fun _ => true }

theorem emptyDisk_consistent : Consistent emptyRegion emptyDisk := by
  have hfree : ∀ j, ¬ Allocated emptyRegion.sb.ninodes (dino emptyDisk) j := by
    rintro j ⟨-, hlt, htype⟩
    have hzero : ∀ j < 8, (dino emptyDisk j).type = 0 := by decide
    exact htype (hzero j hlt)
  have hrefs : ∀ p b, refs emptyDisk emptyRegion.sb.ninodes (dino emptyDisk) p ≠ some b :=
    fun p b hp => hfree _ (refs_eq_some hp).1
  have hbits : ∀ b < 8, 5 ≤ b → Kernel.bit emptyDisk emptyRegion.sb.ninodes b = false := by decide
  refine ⟨by decide, by decide, fun b hlo hhi => ?_, fun p b hp => absurd hp (hrefs p b),
    fun p _ b hp => absurd hp (hrefs p b), fun j hj => absurd hj (hfree j)⟩
  rw [hbits b hhi hlo]
  exact iff_of_false Bool.false_ne_true fun ⟨p, hp⟩ => hrefs p b hp

instance (n : Nat) (k : Kernel) (c : FsCall) : Decidable (c.Allowed n k) := by
  cases c <;> unfold FsCall.Allowed <;> try unfold FsCall.Locked
  all_goals infer_instance

/-- Calls one after the other, if all of them are allowed. -/
def runCalls (n : Nat) : List FsCall → Kernel → Option (List FsEvent × Kernel)
  | [], k => some ([], k)
  | c :: cs, k =>
    if c.Allowed n k then
      match c.run k with
      | .ok _ l es => (runCalls n cs l).map fun x => (es ++ x.1, x.2)
      | .halt _ _ => none
    else none

theorem FsRun.calls {r : Region} {k l k' : Kernel} {es fs : List FsEvent} {cs : List FsCall}
    (h : FsRun r k es l) (hrun : runCalls r.sb.ninodes cs l = some (fs, k')) :
    FsRun r k (es ++ fs) k' := by
  induction cs generalizing l es fs with
  | nil =>
    cases hrun
    rwa [List.append_nil]
  | cons c cs ih =>
    obtain ⟨hc, hrun⟩ := Option.ite_none_right_eq_some.mp hrun
    split at hrun
    · rename_i m gs hok
      obtain ⟨⟨hs, m'⟩, hrest, heq⟩ := Option.map_eq_some_iff.mp hrun
      cases heq
      rw [← List.append_assoc]
      exact ih (h.call hc hok) hrest
    · cases hrun

/-- A file of two blocks is made, written and freed, and then one of a single block. -/
def twoFiles : List FsCall :=
  let e : Fin NINODE := ⟨0, NINODE_pos⟩
  [.ialloc T_FILE, .ilock e, .writei e (fun _ => 7) 0 600, .iunlock e, .iput e,
    .ialloc T_FILE, .ilock e, .writei e (fun _ => 7) 0 5, .iunlock e]

theorem twoFiles_run : ∃ k' es, FsRun emptyRegion emptyKernel es k' ∧ ballocs es = [5, 6, 5] ∧
    0 < (k'.icache ⟨0, NINODE_pos⟩).ref ∧ (k'.icache ⟨0, NINODE_pos⟩).valid = true := by
  have hrun : (runCalls emptyRegion.sb.ninodes twoFiles emptyKernel).any (fun x =>
      ballocs x.1 = [5, 6, 5] ∧ 0 < (x.2.icache ⟨0, NINODE_pos⟩).ref ∧
        (x.2.icache ⟨0, NINODE_pos⟩).valid = true) = true := by decide +kernel
  obtain ⟨⟨es, k'⟩, hx, hend⟩ := (Option.any_eq_true _ _).mp hrun
  exact ⟨k', es, (FsRun.refl _).calls hx, of_decide_eq_true hend⟩

theorem emptyKernel_ownership : ∃ k' es, FsRun emptyRegion emptyKernel es k' ∧
    ballocs es = [5, 6, 5] ∧ (∃ v', k'.Sees v' ∧ Consistent emptyRegion v') ∧
      ∀ c : FsCall, c.Allowed emptyRegion.sb.ninodes k' → ∀ why fs, c.run k' = .halt why fs →
        why ≠ .panic "freeing free block" := by
  obtain ⟨k', es, hrun, hgiven, -⟩ := twoFiles_run
  exact ⟨k', es, hrun, hgiven,
    block_ownership (Kernel.sees_loaded rfl) emptyDisk_consistent (fun _ => rfl) hrun⟩

/-- In every run from a consistent image, no inode has two entries in the inode cache, and an entry
that `ilock` has filled is what the inode on the disk is, with a type. -/
theorem inode_cache_coherent {r : Region} {k k' : Kernel} {v : Nat → Block} {es : List FsEvent}
    (hsees : k.Sees v) (himage : Consistent r v) (hcache : ∀ e, (k.icache e).ref = 0)
    (hrun : FsRun r k es k') :
    (∀ e f, 0 < (k'.icache e).ref → 0 < (k'.icache f).ref →
      (k'.icache e).inum = (k'.icache f).inum → e = f) ∧
    ∃ v', k'.Sees v' ∧ ∀ e, 0 < (k'.icache e).ref → (k'.icache e).valid = true →
      (k'.icache e).d = dino v' (k'.icache e).inum ∧ (k'.icache e).d.type ≠ 0 := by
  obtain ⟨howns, -⟩ := (himage.owns hsees hcache).run hrun
  obtain ⟨v', ino, hc⟩ := howns.coherent
  refine ⟨hc.unique, v', hc.sees, fun e href hvalid => ?_⟩
  have hdisk := howns.onDisk e href
  obtain ⟨hd, htype⟩ := hc.entry e _ ⟨href, hvalid, rfl, hdisk⟩
  rw [← hd]
  exact ⟨(hc.whole trivial).1 _ hdisk, htype⟩

theorem emptyKernel_coherent : ∃ k' es, FsRun emptyRegion emptyKernel es k' ∧
    (∀ e f, 0 < (k'.icache e).ref → 0 < (k'.icache f).ref →
      (k'.icache e).inum = (k'.icache f).inum → e = f) ∧
    ∃ v' e, k'.Sees v' ∧ (k'.icache e).d = dino v' (k'.icache e).inum ∧
      (k'.icache e).d.type ≠ 0 := by
  obtain ⟨k', es, hrun, -, href, hvalid⟩ := twoFiles_run
  obtain ⟨hunique, v', hsees, hentry⟩ :=
    inode_cache_coherent (Kernel.sees_loaded rfl) emptyDisk_consistent (fun _ => rfl) hrun
  exact ⟨k', es, hrun, hunique, v', _, hsees, hentry _ href hvalid⟩

end Xv6
