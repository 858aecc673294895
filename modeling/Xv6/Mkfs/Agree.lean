import Xv6.Fs.Contents
import Xv6.Mkfs.Image

/-!
# The kernel reads what mkfs has written

`iappend` and the kernel's `bmap` each know how a file's bytes lie on the disk. Here an image is
handed from the one to the other: bytes are appended to a file in chunks, the bitmap is written, and
a kernel that runs on the image reads the file.
-/

namespace Xv6.Mkfs

open Lib Kernel List

/-- Chunks are appended to a file one after the other. -/
def appendAll (inum : Nat) : List (List UInt8) → Prog Mkfs Unit
  | [] => return ()
  | cs :: chunks => do
    iappend inum (bytesOf cs) cs.length
    appendAll inum chunks

/-- The image is closed: `balloc` writes the bitmap (`mkfs.c:155`). -/
def close : Prog Mkfs Unit := do
  let m ← Prog.get
  balloc m.usedblocks

/-- The kernel's way to an inode of the disk. -/
def load (inum : Nat) : K (Fin NINODE) := do
  let e ← Kernel.iget ROOTDEV inum
  ilock e
  return e

/-- The kernel's way to the bytes of a file. -/
def readFile (inum off n : Nat) : K (Option (List UInt8)) := do
  let e ← load inum
  readi e off n

/-- A kernel that runs on the image and has not used an inode yet. -/
structure Mounted (m : Mkfs) (k : Kernel) : Prop where
  sees : Sees k m.disk
  idle : Idle region k
  unused : ∀ e, (k.icache e).ref = 0

/-! ## Writing -/

section

variable {m : Mkfs} {ino : Nat → Dinode} {inum : Nat} {nd : Vnode}

theorem appendAll_ends (chunks : List (List UInt8)) : ∀ {m : Mkfs} {ino : Nat → Dinode}
    (bs : List UInt8), Whole m ino → nd.type ≠ 0 → m.contents ino inum = fill nd bs →
    m.usedblocks + fileBlocks (bs.length + chunks.flatten.length) ≤ size + fileBlocks bs.length →
    Prog.Ends (appendAll inum chunks) m
      (fun _ m' => ∃ ino', Adds m ino inum nd bs chunks.flatten m' ino')
      fun _ => MAXFILE * BSIZE < bs.length + chunks.flatten.length := by
  induction chunks with
  | nil =>
    intro m ino bs h _ hc _
    exact Prog.ends_pure ⟨ino, .refl h hc⟩
  | cons cs chunks ih =>
    intro m ino bs h ht hc hroom
    have hlen : bs.length + (cs :: chunks).flatten.length =
        bs.length + cs.length + chunks.flatten.length := by
      rw [flatten_cons, length_append, Nat.add_assoc]
    have hmono : fileBlocks (bs.length + cs.length) ≤
        fileBlocks (bs.length + cs.length + chunks.flatten.length) :=
      fileBlocks_mono (Nat.le_add_right ..)
    rw [hlen] at hroom ⊢
    have hl : Allocated region.sb.ninodes ino inum :=
      allocated_of_contents (m := m) (by rw [hc]; exact ht)
    unfold appendAll
    refine ((iappend_adds cs h hl hc (by omega)).weaken ?_).bind ?_
    · intro _ hlarge
      omega
    rintro _ m1 ⟨ino1, ha⟩
    have hused := ha.used
    have hih := ih (bs ++ cs) ha.whole ht ha.file (by rw [length_append]; omega)
    rw [length_append] at hih
    apply hih.mono
    rintro _ m2 ⟨ino2, hb⟩
    exact ⟨ino2, ha.trans hb⟩

/-- The bitmap is what `view` has had all the time. -/
theorem close_ends {E : Halt → Prop} (h : Whole m ino) (hused : m.usedblocks ≤ size) :
    Prog.Ends close m (fun _ m' => m'.disk = m.view) E := by
  unfold close
  apply (Prog.ends_get (Q := fun a t => m = a ∧ m = t) ⟨rfl, rfl⟩).bind
  rintro _ _ ⟨rfl, rfl⟩
  unfold balloc
  rw [if_pos (hused.trans_lt (by decide))]
  refine (wsect_ends ?_).mono ?_
  · exact (show NINODES / IPB + 3 < size by decide).trans_eq h.built.length.symm
  · rintro _ _ rfl
    rfl

end

/-! ## Reading -/

section

variable {m : Mkfs} {ino : Nat → Dinode} {inum : Nat} {nd : Vnode} {k : Kernel}

/-- An image without open files is a state of the kernel's file system. -/
theorem coherent_of_stored {v : Nat → Block} (h : Sound region v ino)
    (hstored : ∀ j, OnDisk region.sb.ninodes j → dino v j = ino j) (hsees : Sees k v)
    (hunused : ∀ e, (k.icache e).ref = 0) : Coherent (Xv6.plain region False) k v ino := by
  have hnone : ∀ {e}, ¬ 0 < (k.icache e).ref := by
    intro e
    rw [hunused e]
    exact lt_irrefl 0
  refine ⟨hsees, h, fun e he => absurd he hnone, fun e f he => absurd he hnone,
    fun e j hj => absurd hj.ref hnone, fun j hj => ?_, fun j hj _ => (hstored j hj).symm,
    fun p b hp => (h.lo_le hp).2.1.trans_le region.hi_le, fun _ _ _ _ _ => trivial,
    fun hx => absurd hx id⟩
  rw [hstored j hj]
  exact .refl _

theorem Whole.coherent (h : Whole m ino) (hsees : Sees k m.view)
    (hunused : ∀ e, (k.icache e).ref = 0) : Coherent (Xv6.plain region False) k m.view ino :=
  coherent_of_stored h.built.sound h.stored hsees hunused

theorem Whole.mapped_size (h : Whole m ino) {j : Nat} (hl : Allocated region.sb.ninodes ino j) :
    Mapped region j m.view ino 0 (ino j).size.toNat := by
  intro bn hbn
  apply (h.mapped hl).mpr
  have := hbn.2.2
  omega

theorem bytes_fill (nd : Vnode) {bs : List UInt8} {off n : Nat} :
    (fill nd bs).bytes off (min (off + n) bs.length) = (bs.drop off).take n := by
  apply ext_getElem
  · simp only [Vnode.bytes, length_map, length_range, length_take, length_drop]
    omega
  · intro i hi hi'
    simp only [Vnode.bytes, length_map, length_range] at hi
    simp [Vnode.bytes, fill, bytesOf, getD_eq_getElem?_getD,
      getElem?_eq_getElem (show off + i < bs.length by omega)]

theorem iget_unused (hunused : ∀ e, (k.icache e).ref = 0) :
    Act.Ends (Kernel.iget ROOTDEV inum) k (fun _ _ _ => True) Never := by
  apply Act.ends_get_bind
  cases hget : Xv6.iget k.icache ROOTDEV inum with
  | some p => exact Act.ends_modify_bind (Act.ends_pure trivial)
  | none =>
    exfalso
    unfold Xv6.iget at hget
    split at hget
    · cases hget
    · have hfull := find?_eq_none.mp (Option.map_eq_none_iff.mp hget) ⟨0, by decide⟩
        (mem_finRange _)
      exact hfull (decide_eq_true (hunused _))

/-- `iget` and `ilock` bring the inode from the image into the cache. -/
theorem load_ends {v : Nat → Block} (h : Coherent (Xv6.plain region False) k v ino)
    (hidle : Idle region k) (hunused : ∀ e, (k.icache e).ref = 0)
    (hl : Allocated region.sb.ninodes ino inum) :
    Act.Ends (load inum) k
      (fun e k' es => es = [] ∧ Coherent (Xv6.plain region False) k' v ino ∧
        Stands region.sb.ninodes (k'.icache e) inum ∧ (k'.icache e).busy = true ∧
        Poised region.top k.log.lh.toFinset [] k' ∧ k'.log = k.log) Never := by
  apply ((iget_unused hunused).and (iget_ends h)).bind
  rintro e k1 _ ⟨-, hco, rfl, hframe, hget⟩
  obtain hused | ⟨-, -, hic⟩ := iget_eq_some hget
  · exact absurd hused.1 (by rw [hunused e]; exact lt_irrefl 0)
  have hentry : k1.icache e =
      { k.icache e with dev := ROOTDEV, inum := inum, ref := 1, busy := false, valid := false } := by
    rw [hic, Function.update_self]
  have hpoised : Poised region.top k.log.lh.toFinset [] k1 :=
    hidle.poised.congr (by rw [hframe]) (by rw [hframe])
  have hib : iblock (k1.icache e).inum < region.top := by
    rw [hentry]
    exact (iblock_lt hl.onDisk).trans (by decide)
  have htype : (dino v (k1.icache e).inum).type ≠ 0 := by
    rw [hentry]
    exact (h.disk inum hl.onDisk).type ▸ hl.2.2
  refine ((ilock_poised hco.sees hpoised (by rw [hentry]) (by rw [hentry]; exact one_pos)
    (by rw [hentry]) hib fun _ => htype).and (ilock_ends hco)).bind ?_
  rintro _ k2 _ ⟨⟨hp2, hlog2⟩, hco2, rfl, -, -, -, hent2, -⟩
  refine Act.ends_pure ⟨rfl, hco2, ?_, by rw [hent2], hp2, hlog2.trans (by rw [hframe])⟩
  rw [hent2, hentry]
  exact ⟨one_pos, rfl, rfl, hl.onDisk⟩

/-- A kernel on the image reads the bytes of a file. -/
theorem readFile_ends {bs : List UInt8} {off n : Nat} (h : Whole m ino) (hsees : Sees k m.view)
    (hidle : Idle region k) (hunused : ∀ e, (k.icache e).ref = 0) (ht : nd.type ≠ 0)
    (hdev : nd.type ≠ T_DEV) (hc : m.contents ino inum = fill nd bs) :
    Act.Ends (readFile inum off n) k (fun x k' es =>
      x = (if bs.length < off ∨ 2 ^ 32 ≤ off + n then none else some ((bs.drop off).take n)) ∧
      es = [] ∧ Sees k' m.view) Never := by
  have hl : Allocated region.sb.ninodes ino inum :=
    allocated_of_contents (m := m) (by rw [hc]; exact ht)
  apply (load_ends (h.coherent hsees hunused) hidle hunused hl).bind
  rintro e k1 _ ⟨rfl, hco, hst, -, hp, -⟩
  have hd := (hco.entry e _ hst).1
  have hnode : (k1.icache e).d.node (byteAt m.view region.sb.ninodes ino inum) = fill nd bs := by
    rw [← hd, ← hc]
    exact (nodes_of_allocated hl).symm
  have htype : (k1.icache e).d.type ≠ T_DEV := by
    have := congrArg Vnode.type hnode
    exact fun hx => hdev (this.symm.trans hx)
  have hsize : (k1.icache e).d.size.toNat = bs.length := congrArg Vnode.size hnode
  have hmap : Mapped region inum m.view ino 0 (k1.icache e).d.size.toNat := by
    rw [← hd]
    exact h.mapped_size hl
  split_ifs with hout
  · rw [← hsize] at hout
    rw [Act.Ends, Act.Does, readi_refuses htype hout]
    exact ⟨rfl, rfl, hco.sees⟩
  · rw [← hsize] at hout
    obtain rfl := hst.inum
    apply ((readi_poised hco.sees hco.sound hp hd (hco.root e hst.ref) htype hmap).and
      (readi_bytes hco hst htype hmap hout)).mono
    rintro x k2 es ⟨-, rfl, rfl, -, hco2⟩
    refine ⟨?_, rfl, hco2.sees⟩
    rw [hsize, ← bytes_fill nd, ← hc]
    rfl

end

/-! ## Both together -/

section

variable {m : Mkfs} {ino : Nat → Dinode} {inum : Nat} {nd : Vnode}

/-- An image with one file written in chunks, and its bitmap. -/
theorem appendAll_close (h : Whole m ino) (ht : nd.type ≠ 0)
    (hc : m.contents ino inum = fill nd []) (chunks : List (List UInt8))
    (hmax : chunks.flatten.length ≤ MAXFILE * BSIZE)
    (hroom : m.usedblocks + fileBlocks chunks.flatten.length ≤ size) :
    ∃ m', (appendAll inum chunks >>= fun _ => close) m = .ok () m' ∧
      ∃ m1 ino1, Adds m ino inum nd [] chunks.flatten m1 ino1 ∧ m'.disk = m1.view := by
  have hends : Prog.Ends (appendAll inum chunks >>= fun _ => close) m
      (fun _ m' => ∃ m1 ino1, Adds m ino inum nd [] chunks.flatten m1 ino1 ∧ m'.disk = m1.view)
      fun _ => False := by
    have hall : Prog.Ends (appendAll inum chunks) m _ _ := appendAll_ends chunks [] h ht hc
      (by rw [length_nil, Nat.zero_add]; exact hroom)
    refine (hall.weaken ?_).bind ?_
    · intro _ hlarge
      rw [length_nil, Nat.zero_add] at hlarge
      omega
    rintro _ m1 ⟨ino1, ha⟩
    have hused := ha.used
    rw [length_nil, Nat.zero_add, show fileBlocks 0 = 0 from rfl] at hused
    apply (close_ends ha.whole (by omega)).mono
    intro _ m' hdisk
    exact ⟨m1, ino1, ha, hdisk⟩
  obtain ⟨_, m', hrun, hadds⟩ := hends.returns
  exact ⟨m', hrun, hadds⟩

/-- `mkfs` and the kernel agree on the format of files: a file that is written in chunks is read as
the bytes of the chunks. Behind the end of the file, and where the end of the range does not fit in
32 bits, the read is refused. -/
theorem appendAll_readFile (h : Whole m ino) (ht : nd.type ≠ 0) (hdev : nd.type ≠ T_DEV)
    (hc : m.contents ino inum = fill nd []) (chunks : List (List UInt8))
    (hmax : chunks.flatten.length ≤ MAXFILE * BSIZE)
    (hroom : m.usedblocks + fileBlocks chunks.flatten.length ≤ size) :
    ∃ m', (appendAll inum chunks >>= fun _ => close) m = .ok () m' ∧
      ∀ k, Mounted m' k → ∀ off n, Act.Ends (readFile inum off n) k (fun x k' es =>
        x = (if chunks.flatten.length < off ∨ 2 ^ 32 ≤ off + n then none
          else some ((chunks.flatten.drop off).take n)) ∧
        es = [] ∧ Sees k' m'.disk) Never := by
  obtain ⟨m', hrun, m1, ino1, ha, hdisk⟩ := appendAll_close h ht hc chunks hmax hroom
  refine ⟨m', hrun, fun k hk off n => ?_⟩
  rw [hdisk]
  exact readFile_ends ha.whole (hdisk ▸ hk.sees) hk.idle hk.unused ht hdev ha.file

end

/-- The kernel on an image, just loaded. -/
def mount (m : Mkfs) : Kernel := .loaded { disk := m.disk, disksize := size, bcache := binit }
  (.initlog size nlog) { junk := fun _ _ => 0, input := fun _ => none, memory := fun _ => false }

theorem mounted_mount (m : Mkfs) : Mounted m (mount m) where
  sees := sees_loaded rfl
  idle := ⟨fun _ => rfl, (by decide : region.top ≤ size), (by decide : 0 + 3 ≤ NBUF)⟩
  unused := fun _ => rfl

theorem start_ialloc : ∃ m ino, ialloc T_FILE start = .ok 1 m ∧ Whole m ino ∧
    m.contents ino 1 = fill (newNode T_FILE) [] ∧ m.usedblocks = metablocks := by
  have hends : Prog.Ends (ialloc T_FILE) start _ fun _ => False :=
    ialloc_ends start_whole (by decide) (by decide) (by decide)
  obtain ⟨_, m, hrun, rfl, ino, hw, hc, -, hused⟩ := hends.returns
  refine ⟨m, ino, hrun, hw, ?_, hused⟩
  rw [hc]
  rfl

theorem appendAll_readFile_three : ∃ m m' k', ialloc T_FILE start = .ok 1 m ∧
    (appendAll 1 [[7], [8, 9]] >>= fun _ => close) m = .ok () m' ∧
    readFile 1 1 5 (mount m') = .ok (some [8, 9]) k' [] := by
  obtain ⟨m, ino, hnew, hw, hc, hused⟩ := start_ialloc
  obtain ⟨m', hrun, hread⟩ := appendAll_readFile hw (by decide) (by decide) hc
    [[7], [8, 9]] (by decide) (by rw [hused]; decide)
  have hends := hread (mount m') (mounted_mount m') 1 5
  cases hfile : readFile 1 1 5 (mount m') with
  | ok x k' es =>
    obtain ⟨rfl, rfl, -⟩ := hends.of_ok hfile
    exact ⟨m, m', k', hnew, hrun, hfile⟩
  | halt why es => exact (hends.of_halt hfile).elim

/-- A read that starts behind the end of the file is an error and not the empty string. -/
theorem readFile_behind_end : ∃ m m' k', ialloc T_FILE start = .ok 1 m ∧
    (appendAll 1 [[7]] >>= fun _ => close) m = .ok () m' ∧
    readFile 1 2 5 (mount m') = .ok none k' [] := by
  obtain ⟨m, ino, hnew, hw, hc, hused⟩ := start_ialloc
  obtain ⟨m', hrun, m1, ino1, ha, hdisk⟩ := appendAll_close hw (by decide) hc [[7]]
    (by decide) (by rw [hused]; decide)
  have hk := mounted_mount m'
  have hends : Act.Ends (readFile 1 2 5) (mount m') _ _ :=
    readFile_ends ha.whole (hdisk ▸ hk.sees) hk.idle hk.unused (by decide) (by decide) ha.file
  cases hfile : readFile 1 2 5 (mount m') with
  | ok x k' es =>
    obtain ⟨rfl, rfl, -⟩ := hends.of_ok hfile
    exact ⟨m, m', k', hnew, hrun, hfile⟩
  | halt why es => exact (hends.of_halt hfile).elim

/-! ## Calls on the image -/

/-- The image is one that the kernel can start from. Its log, too, belongs to the blocks that the
bitmap of the kernel covers; none of them is marked. -/
theorem Finished.mountable {m : Mkfs} {fs : List HostFile} (h : Finished m fs)
    (hc : Consistent m.disk fs) : Xv6.Consistent region m.disk := by
  obtain ⟨m', ino, d, hh, hr, -⟩ := h.rounds
  have hbuilt := hh.whole.built
  have hsound := hbuilt.sound.writeInode (d := d) hr.root.onDisk
  rw [← hr.disk] at hsound
  refine ⟨hsound.super, hsound.reserved, fun b hlo hhi => ?_, fun p b hp => ?_, hc.distinct,
    fun j hj bn hbn => hc.mapped j hj bn ?_⟩
  · change _ ↔ ∃ p, imageRefs m.disk p = some b
    rw [hr.refs_eq hh.whole]
    constructor
    · intro hbit
      exact hbuilt.exact b ⟨hlo, hhi, by rw [bit_view hhi, ← hr.bit_eq hhi]; exact hbit⟩
    · rintro ⟨p, hp⟩
      exact (hr.bit_eq hhi).trans (decide_eq_true (hbuilt.ref_lt hp).2)
  · obtain ⟨hlo, hhi⟩ := hc.area p b hp
    exact ⟨hlo, lt_of_lt_of_le hhi (Nat.sub_le ..)⟩
  · simp only [BSIZE] at hbn ⊢
    omega

/-- Whatever calls a kernel makes on an image of `mkfs` that leaves room in the last block of the
root directory, the file system stays consistent, and every block that `balloc` gives is the first
free one and lies behind the bitmap. -/
theorem mkfs_image_served {files : List HostFile} {m : Mkfs} {k k' : Kernel} {es : List FsEvent}
    (hrun : main files start = .ok () m) (hn : files.length + 1 < NINODES)
    (hb : blocksOf files ≤ nblocks) (hpart : (files.length + 2) % (BSIZE / DIRENTSZ) ≠ 0)
    (hk : Mounted m k) (hfs : FsRun region k es k') :
    (∃ v, Sees k' v ∧ Xv6.Consistent region v) ∧ ∀ ev ∈ es, Honest region ev := by
  have hroom : metablocks + blocksOf files ≤ size :=
    le_trans (Nat.add_le_add_left hb _) (by decide)
  have hfin := (main_ends hn hroom).1 () m hrun
  have himage := hfin.mountable ((hfin.consistent_iff hn hb).mpr hpart)
  obtain ⟨howns, hhon⟩ := (himage.owns hk.sees hk.unused).run hfs
  obtain ⟨v, ino, hcoh⟩ := howns.coherent
  exact ⟨⟨v, hcoh.sees, .of_owns howns hcoh.sees⟩, hhon⟩

theorem mkfs_image_served_oneFile : ∃ k' es, FsRun region (mount (written oneFile)) es k' ∧
    (∃ v, Sees k' v ∧ Xv6.Consistent region v) ∧ ∀ ev ∈ es, Honest region ev := by
  have hfs : ∃ k' es, FsRun region (mount (written oneFile)) es k' :=
    ⟨_, _, (FsRun.refl _).calls (show runCalls _ [.iget 1, .iget 2, .idup ⟨1, by decide⟩,
      .iput ⟨1, by decide⟩, .iput ⟨0, NINODE_pos⟩] _ = some _ from rfl)⟩
  obtain ⟨k', es, hfs⟩ := hfs
  have hrun : main oneFile start = .ok () (written oneFile) :=
    main_eq_written (by decide) (by decide) (by unfold Refused; decide)
  exact ⟨k', es, hfs,
    mkfs_image_served hrun (by decide) (by decide) (by decide) (mounted_mount _) hfs⟩

end Xv6.Mkfs
