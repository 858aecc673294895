import Xv6.Sys.Chunks

/-!
# The log and the free blocks

`initlog` puts the log at the end of the disk, and the bitmap that `mkfs` writes does not mark it.
`balloc` looks at all blocks below `sb.size`, so when the blocks in front of the log are used up it
hands out the log.
-/

namespace Xv6.Mkfs

open Function List

open Lib Kernel

section

variable {m : Mkfs} {ino : Nat → Dinode} {d : Dinode} {v : Nat → Block} {k k' : Kernel}
  {es : List FsEvent} {files : List HostFile}

theorem Rounds.coherent (h : Whole m ino) (hr : Rounds v m ino d) (hsees : Sees k v)
    (hunused : ∀ e, (k.icache e).ref = 0) :
    Coherent (Xv6.plain region False) k v (update ino ROOTINO d) :=
  coherent_of_stored (hr.sound h).1 (fun _ => hr.dino_eq h) hsees hunused

/-- On every image, `balloc` spares the metadata, and it spares the log exactly if a block in front
of it is free. -/
theorem balloc_before_log_iff {st : Store} {b : Nat} (hrun : main files start = .ok () m)
    (hn : files.length + 1 < NINODES) (hroom : metablocks + blocksOf files ≤ size)
    (hk : Mounted m k) (hfs : FsRun region k es k') (hb : .balloc st b ∈ es) :
    metablocks ≤ b ∧ (b < (Log.initlog size nlog).start ↔
      ∃ c < (Log.initlog size nlog).start, Kernel.bit st.peek NINODES c = false) := by
  obtain ⟨m', ino, d, hh, hr, -⟩ := ((main_ends hn hroom).1 () m hrun).rounds
  have howns : Owns region False k := by
    refine ⟨⟨_, _, hr.coherent hh.whole hk.sees hk.unused⟩, fun e he => ?_⟩
    rw [hk.unused e] at he
    exact absurd he (lt_irrefl 0)
  obtain ⟨hlo, -, hfree, hfirst⟩ := (howns.run hfs).2 _ hb
  refine ⟨hlo, fun hlt => ⟨b, hlt, hfree⟩, ?_⟩
  rintro ⟨c, hc, hcfree⟩
  by_contra hlt
  exact Bool.false_ne_true (hcfree.symm.trans (hfirst c (hc.trans_le (not_lt.mp hlt))))

/-! ## The first write on an image -/

theorem fsRun_load {e : Fin NINODE} {l : Kernel} {inum : Nat} (h : FsRun region k es l)
    (hi : OnDisk region.sb.ninodes inum) (hload : Act.Gives (load inum) l e k') :
    ∃ fs, FsRun region k fs k' := by
  obtain ⟨f, l1, ⟨gs, hget⟩, hrest⟩ := hload.of_bind
  obtain ⟨_, l2, ⟨gs', hlock⟩, hs, hret⟩ := hrest.of_bind
  cases hret
  have hcall : (FsCall.iget inum).run l = .ok () l1 (gs ++ []) := by
    rw [FsCall.run, Act.bind_run, hget]
    rfl
  exact ⟨_, (h.call (c := .iget inum) hi hcall).call (c := .ilock e) trivial hlock⟩

theorem Rounds.freeBlocks_eq (hr : Rounds v m ino d) (hused : m.usedblocks ≤ size) :
    freeBlocks region.sb v = range' m.usedblocks (size - m.usedblocks) := by
  have hsplit := range'_append_1 (s := 0) (m := m.usedblocks) (n := size - m.usedblocks)
  rw [Nat.zero_add, Nat.add_sub_of_le hused, ← range_eq_range', ← range_eq_range'] at hsplit
  change (range size).filter (fun b => !Kernel.bit v NINODES b) = _
  rw [filter_congr (q := fun b => decide (m.usedblocks ≤ b)), ← hsplit, filter_append,
    filter_eq_nil_iff.mpr, filter_eq_self.mpr, nil_append]
  · exact fun b hb => decide_eq_true (mem_range'_1.mp hb).1
  · simp
  · intro b hb
    rw [hr.bit_eq (mem_range.mp hb), ← decide_not]
    simp only [not_lt]

/-- The first file of the image, if it is empty, and the blocks that no file has. -/
theorem Finished.empty {f : HostFile} (h : Finished m files)
    (hroom : metablocks + blocksOf files ≤ size) (hf : files[0]? = some f) (hempty : f.bytes = [])
    (hsees : Sees k m.disk) (hunused : ∀ e, (k.icache e).ref = 0) :
    ∃ ino, Coherent (Xv6.plain region False) k m.disk ino ∧
      Allocated region.sb.ninodes ino 2 ∧ (ino 2).type = T_FILE ∧
      blockAt region 2 m.disk ino 0 = none ∧ freeBlocks region.sb m.disk =
        range' (metablocks + blocksOf files) (size - (metablocks + blocksOf files)) := by
  obtain ⟨m', ino, d, hh, hr, -⟩ := h.rounds
  have hfile : m'.contents ino 2 = fill (newNode T_FILE) [] := by
    rw [hh.contents]
    simp [image, hf, hempty, ROOTINO]
  have hl : Allocated region.sb.ninodes ino 2 :=
    allocated_of_contents (m := m') (by rw [hfile]; decide)
  have hnode : (ino 2).node (byteAt m'.view region.sb.ninodes ino 2) = fill (newNode T_FILE) [] :=
    (nodes_of_allocated hl).symm.trans hfile
  have hino : update ino ROOTINO d 2 = ino 2 := update_of_ne (by decide) ..
  refine ⟨_, hr.coherent hh.whole hsees hunused, ⟨hl.1, hl.2.1, hino ▸ hl.2.2⟩,
    hino ▸ congrArg Vnode.type hnode, ?_, hh.used ▸ hr.freeBlocks_eq (hh.used ▸ hroom)⟩
  by_contra hsome
  obtain ⟨b, hb⟩ := Option.ne_none_iff_exists'.mp hsome
  obtain ⟨s, hs, href⟩ := Option.bind_eq_some_iff.mp hb
  have hlt := (hh.whole.mapped hl).mp ⟨s, b, hs, (hr.sound hh.whole).2 ▸ href⟩
  rw [show (ino 2).size.toNat = 0 from congrArg Vnode.size hnode] at hlt
  cases hlt

/-- The kernel on an image, when a process has opened a transaction. -/
def begun (m : Mkfs) : Kernel :=
  { mount m with log := { (mount m).log with outstanding := 1 } }

/-- A process writes a byte to the first file, which is empty: `balloc` takes the block behind
those of the image. -/
theorem balloc_first {f : HostFile} (hrun : main files start = .ok () m)
    (hn : files.length + 1 < NINODES) (hroom : metablocks + blocksOf files + 15 ≤ size)
    (hf : files[0]? = some f) (hempty : f.bytes = []) :
    ∃ es k' st, FsRun region (mount m) es k' ∧ .balloc st (metablocks + blocksOf files) ∈ es := by
  have hk := mounted_mount m
  obtain ⟨ino, hco, hl, htype, hnone, hfree⟩ :=
    ((main_ends hn (by omega)).1 () m hrun).empty (k := begun m) (by omega) hf hempty hk.sees
      hk.unused
  have hload : Act.Ends (load 2) (begun m) _ _ :=
    load_ends hco ⟨hk.idle.free, hk.idle.disk, hk.idle.clean⟩ hk.unused hl
  cases hx : load 2 (begun m) with
  | halt why es => exact (hload.of_halt hx).elim
  | ok e k1 es =>
    obtain ⟨-, hco1, hst, hbusy, hp, hlog⟩ := hload.of_ok hx
    obtain ⟨n, hn⟩ := Nat.exists_eq_add_of_le hroom
    obtain ⟨x, k2, es2, st, hwrite, hb⟩ := writei_first (fun _ => 0) hco1 hst
      (by rw [← (hco1.entry e _ hst).1, htype]; decide)
      (room_of_chunk (by decide) hp (hlog ▸ rfl) (hlog ▸ rfl) (hlog ▸ rfl) (by decide)
        (by rw [hfree, length_range']; omega)) hnone
      (hfree.trans (by rw [hn, show ∀ a, a + 15 + n - a = n + 14 + 1 by omega, range'_succ]))
    obtain ⟨fs, hfs⟩ := fsRun_load (k := mount m) (l := begun m) (.other (.refl _)
      ⟨rfl, _, _, hk.sees, hk.sees, fun _ _ => rfl, fun _ _ _ => rfl⟩) hl.onDisk ⟨es, hx⟩
    have hcall : (FsCall.writei e (fun _ => 0) 0 1).run k1 = .ok () k2 (es2 ++ []) := by
      rw [FsCall.run, Act.bind_run, hwrite]
      rfl
    exact ⟨_, k2, st, hfs.call (c := .writei e _ 0 1) ⟨hst.ref, hbusy, hst.valid⟩ hcall,
      mem_append_right _ (mem_append_left _ hb)⟩

end

def zeroFile (name : UInt8) (n : Nat) : HostFile := { name := [name], bytes := .replicate n 0 }

theorem balloc_before_log_zeroFile : ∃ es k' st,
    FsRun region (mount (written [zeroFile 97 0])) es k' ∧ .balloc st (metablocks + 1) ∈ es ∧
    ∃ c < (Log.initlog size nlog).start, Kernel.bit st.peek NINODES c = false := by
  have hrun : main [zeroFile 97 0] start = .ok () (written [zeroFile 97 0]) :=
    main_eq_written (by decide) (by decide) (by unfold Refused; decide)
  obtain ⟨es, k', st, hfs, hb⟩ := balloc_first hrun (by decide) (by decide) rfl rfl
  exact ⟨es, k', st, hfs, hb, (balloc_before_log_iff hrun (by decide) (by decide)
    (mounted_mount _) hfs hb).2.mp (by decide)⟩

/-- An empty file, and files that take all the other blocks in front of the log. -/
def fullFiles : List HostFile :=
  [(97, 0), (98, 59904), (99, 71680), (100, 71680), (101, 71680), (102, 71680), (103, 71680),
    (104, 71680)].map fun p => zeroFile p.1 p.2

/-- The first block that the kernel takes on a full image is the header of the log. -/
theorem balloc_takes_log_header : blocksOf fullFiles = nblocks ∧
    main fullFiles start = .ok () (written fullFiles) ∧
    ∃ es k' st, FsRun region (mount (written fullFiles)) es k' ∧
      .balloc st (Log.initlog size nlog).start ∈ es := by
  have hblocks : blocksOf fullFiles = nblocks := by
    simp only [blocksOf, fullFiles, zeroFile, map_map, length_map, comp_def,
      length_replicate]
    decide
  have hroom : metablocks + blocksOf fullFiles + 15 ≤ size := by
    rw [hblocks]
    decide
  have hrun : main fullFiles start = .ok () (written fullFiles) := by
    refine main_eq_written (by decide) (by omega) (forall_mem_map.mpr ?_)
    simp only [Refused, zeroFile, length_replicate]
    decide
  obtain ⟨es, k', st, hfs, hb⟩ := balloc_first hrun (by decide) hroom rfl rfl
  rw [hblocks] at hb
  exact ⟨hblocks, hrun, es, k', st, hfs, hb⟩

end Xv6.Mkfs
