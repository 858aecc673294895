import Xv6.Fs.Dir
import Xv6.Mkfs.Append

/-!
# The finished image

What `mkfs` leaves on the disk for a list of files of the build host. The files of the image are
followed through the run as nodes, so that the blocks only matter again at the end, when the root
directory's size is rounded up and the bitmap is written.
-/

namespace Xv6.Mkfs

open Function List

open Lib Prog

/-! ## Files with given contents -/

/-- The file with these bytes. -/
def fill (nd : Vnode) (bs : List UInt8) : Vnode := { nd with size := bs.length, byte := bytesOf bs }

/-- A new inode (`mkfs.c:219-231`). -/
def newNode (type : BitVec 16) : Vnode := { Vnode.free with type := type, nlink := 1 }

theorem put_fill (nd : Vnode) (bs cs : List UInt8) :
    (fill nd bs).put (bytesOf cs) bs.length cs.length = fill nd (bs ++ cs) := by
  apply Vnode.ext
  case size =>
    by_cases hcs : cs = []
    · simp [fill, Vnode.put, hcs]
    · have hpos : 0 < cs.length := length_pos_iff.mpr hcs
      simp [fill, Vnode.put, hpos]
  case byte =>
    funext o
    simp only [fill, Vnode.put, bytesOf, getD_eq_getElem?_getD]
    by_cases hlt : o < bs.length
    · rw [if_neg (by omega), getElem?_append_left hlt]
    · rw [getElem?_append_right (by omega)]
      by_cases hin : o < bs.length + cs.length
      · rw [if_pos ⟨by omega, hin⟩]
      · rw [if_neg (by omega), getElem?_eq_none (by omega), getElem?_eq_none (by omega)]
  all_goals rfl

/-! ## One file -/

section

variable {m : Mkfs} {ino : Nat → Dinode} {inum : Nat} {nd : Vnode} {E : Halt → Prop}

/-- Bytes have been added to the file `inum`, which held `bs`. -/
structure Adds (m : Mkfs) (ino : Nat → Dinode) (inum : Nat) (nd : Vnode) (bs cs : List UInt8)
    (m' : Mkfs) (ino' : Nat → Dinode) : Prop where
  whole : Whole m' ino'
  contents : m'.contents ino' = update (m.contents ino) inum (fill nd (bs ++ cs))
  freeinode : m'.freeinode = m.freeinode
  used : m'.usedblocks + fileBlocks bs.length = m.usedblocks + fileBlocks (bs.length + cs.length)

namespace Adds

variable {m' m'' : Mkfs} {ino' ino'' : Nat → Dinode} {bs cs ds : List UInt8}

theorem refl (h : Whole m ino) (hc : m.contents ino inum = fill nd bs) :
    Adds m ino inum nd bs [] m ino := by
  refine ⟨h, ?_, rfl, rfl⟩
  rw [append_nil, ← hc, update_eq_self]

theorem trans (h : Adds m ino inum nd bs cs m' ino')
    (h' : Adds m' ino' inum nd (bs ++ cs) ds m'' ino'') :
    Adds m ino inum nd bs (cs ++ ds) m'' ino'' := by
  refine ⟨h'.whole, ?_, h'.freeinode.trans h.freeinode, ?_⟩
  · rw [h'.contents, h.contents, update_idem, append_assoc]
  · have hused := h.used
    have hused' := h'.used
    rw [length_append, Nat.add_assoc] at hused'
    rw [length_append]
    omega

theorem file (h : Adds m ino inum nd bs cs m' ino') :
    m'.contents ino' inum = fill nd (bs ++ cs) := by
  rw [h.contents, update_self]

end Adds

theorem iappend_adds {bs : List UInt8} (cs : List UInt8) (h : Whole m ino)
    (hl : Allocated region.sb.ninodes ino inum) (hc : m.contents ino inum = fill nd bs)
    (hroom : m.usedblocks + fileBlocks (bs.length + cs.length) ≤ size + fileBlocks bs.length) :
    Ends (iappend inum (bytesOf cs) cs.length) m (fun _ m' => ∃ ino', Adds m ino inum nd bs cs m' ino')
      fun _ => MAXFILE * BSIZE < bs.length + cs.length := by
  have hsize : (m.contents ino inum).size = bs.length := by rw [hc]; rfl
  have hends : Ends (iappend inum (bytesOf cs) cs.length) m _ _ :=
    iappend_ends h hl (by rw [hsize]; exact hroom)
  rw [hsize] at hends
  apply hends.mono
  rintro _ m' ⟨ino', hw, hcont, hfree, hused⟩
  refine ⟨ino', hw, ?_, hfree, hused⟩
  rw [hcont, hc, put_fill]

theorem allocated_of_contents (hn : (m.contents ino inum).type ≠ 0) :
    Allocated region.sb.ninodes ino inum := allocated_iff_type_ne.mpr hn

theorem copyFile_ends (turns : Nat) : ∀ {m : Mkfs} {ino : Nat → Dinode} (bs cs : List UInt8),
    cs.length ≤ turns → Whole m ino → nd.type ≠ 0 → m.contents ino inum = fill nd bs →
    m.usedblocks + fileBlocks (bs.length + cs.length) ≤ size + fileBlocks bs.length →
    Ends (copyFile inum turns cs) m (fun _ m' => ∃ ino', Adds m ino inum nd bs cs m' ino')
      fun _ => MAXFILE * BSIZE < bs.length + cs.length := by
  induction turns with
  | zero =>
    intro m ino bs cs hle h _ hc _
    obtain rfl : cs = [] := eq_nil_of_length_eq_zero (by omega)
    exact ends_pure ⟨ino, .refl h hc⟩
  | succ turns ih =>
    intro m ino bs cs hle h ht hc hroom
    unfold copyFile
    by_cases hcs : cs = []
    · subst hcs
      rw [if_pos rfl]
      exact ends_pure ⟨ino, .refl h hc⟩
    rw [if_neg hcs]
    have hlen : (cs.take BSIZE).length + (cs.drop BSIZE).length = cs.length := by
      rw [← length_append, take_append_drop]
    have hpos : 0 < cs.length := length_pos_iff.mpr hcs
    have htake : 0 < (cs.take BSIZE).length := by
      rw [length_take]
      exact Nat.lt_min.mpr ⟨by decide, hpos⟩
    have hmono : fileBlocks (bs.length + (cs.take BSIZE).length) ≤
        fileBlocks (bs.length + cs.length) := fileBlocks_mono (by omega)
    have hl : Allocated region.sb.ninodes ino inum :=
      allocated_of_contents (m := m) (by rw [hc]; exact ht)
    refine ((iappend_adds (cs.take BSIZE) h hl hc (by omega)).weaken ?_).bind ?_
    · intro _ hlarge
      omega
    rintro _ m1 ⟨ino1, ha⟩
    have hused := ha.used
    have hih := ih (bs ++ cs.take BSIZE) (cs.drop BSIZE) (by omega) ha.whole ht ha.file
      (by rw [length_append, Nat.add_assoc, hlen]; omega)
    rw [length_append, Nat.add_assoc, hlen] at hih
    apply hih.mono
    rintro _ m2 ⟨ino2, hb⟩
    have hab := ha.trans hb
    rw [take_append_drop] at hab
    exact ⟨ino2, hab⟩

/-- `ialloc` makes an empty file. -/
theorem ialloc_ends {type : BitVec 16} (h : Whole m ino) (hlo : 1 ≤ m.freeinode)
    (hhi : m.freeinode < NINODES) (ht : type ≠ 0) :
    Ends (ialloc type) m (fun inum m' => m.freeinode = inum ∧ ∃ ino', Whole m' ino' ∧
      m'.contents ino' = update (m.contents ino) m.freeinode (newNode type) ∧
      m'.freeinode = m.freeinode + 1 ∧ m'.usedblocks = m.usedblocks) E := by
  obtain ⟨j, hj⟩ : ∃ j, m.freeinode = j := ⟨_, rfl⟩
  have hd : OnDisk region.sb.ninodes j := ⟨hj ▸ hlo, hj ▸ hhi⟩
  obtain ⟨d, hdd⟩ : ∃ d, { Dinode.zero with type := type, nlink := 1 } = d := ⟨_, rfl⟩
  have hfree : ¬ Allocated region.sb.ninodes ino j := by
    rw [h.numbered]
    omega
  have hrefs : ∀ s, refs m.view region.sb.ninodes (update ino j d) (j, s) = none := by
    intro s
    have hl : Allocated region.sb.ninodes (update ino j d) j := by
      refine ⟨hd.1, hd.2, ?_⟩
      rw [update_self, ← hdd]
      exact ht
    rw [refs_of_allocated hl, update_self, ← hdd]
    cases s <;> rfl
  have hsame : refs m.view region.sb.ninodes (update ino j d) =
      refs m.view region.sb.ninodes ino := refs_update_congr fun s => by
    rw [hrefs s]
    exact (if_neg hfree).symm
  unfold ialloc
  apply (ends_get (Q := fun a t => m = a ∧ m = t) ⟨rfl, rfl⟩).bind
  rintro _ _ ⟨rfl, rfl⟩
  apply (ends_modify (Q := fun _ t => { m with freeinode := m.freeinode + 1 } = t) rfl).bind
  rintro _ m1 hm1
  have hview : m1.view = m.view := by rw [← hm1]; rfl
  have hbuilt : Built m1 ino := by
    have hb := h.built
    rw [← hm1]
    exact ⟨hb.length, hb.free, hb.lo, hb.fresh, hb.sound, hb.exact⟩
  rw [hdd, hj]
  apply (winode_ends hbuilt hd).bind
  rintro _ _ rfl
  have hbuilt2 := hbuilt.setInode (d := d) hd (by rw [hview]; exact hsame)
  have hrefs2 : ∀ p, refs (m1.setInode j d).view region.sb.ninodes (update ino j d) p =
      refs m.view region.sb.ninodes ino p := fun p => by
    rw [refs_setInode (hbuilt.sound.of_refs (by rw [hview]; exact hsame)) hd, hview, hsame]
  have hothers : ∀ i, i ≠ j → Allocated region.sb.ninodes (update ino j d) i →
      Allocated region.sb.ninodes ino i := by
    intro i hij hi
    refine ⟨hi.1, hi.2.1, ?_⟩
    have ht := hi.2.2
    rwa [update_of_ne hij] at ht
  refine ends_pure ⟨rfl, update ino j d, ⟨hbuilt2, ?_, ?_, ?_, ?_⟩, ?_, ?_, ?_⟩
  · intro i hi
    refine dino_setInode hd (fun i _ hi => ?_) hi
    rw [hview, h.stored i hi]
  · intro i hi
    rw [filled_congr fun s => hrefs2 (i, s)]
    by_cases hij : i = j
    · subst hij
      rw [update_self, ← hdd]
      intro s
      have hnone : refs m.view region.sb.ninodes ino (i, s) = none := if_neg hfree
      rw [hnone]
      simp [Dinode.zero]
    · rw [update_of_ne hij]
      exact h.filled i (hothers i hij hi)
  · intro i hi
    by_cases hij : i = j
    · subst hij
      rw [update_self, ← hdd]
      exact Nat.zero_le _
    · rw [update_of_ne hij]
      exact h.fits i (hothers i hij hi)
  · intro i
    have hnum : (m1.setInode j d).freeinode = j + 1 := by
      rw [← hm1, ← hj]
      rfl
    rw [hnum]
    by_cases hij : i = j
    · subst hij
      refine ⟨fun hi => ⟨hi.1, Nat.lt_succ_self i⟩, fun _ => ⟨hd.1, hd.2, ?_⟩⟩
      rw [update_self, ← hdd]
      exact ht
    · have hiff : Allocated region.sb.ninodes (update ino j d) i ↔
          Allocated region.sb.ninodes ino i := by
        unfold Allocated
        rw [update_of_ne hij]
      rw [hiff, h.numbered i]
      omega
  · have hsound : Sound region m.view (update ino j d) := h.built.sound.of_refs hsame
    have hl : Allocated region.sb.ninodes (update ino j d) j := by
      refine ⟨hd.1, hd.2, ?_⟩
      rw [update_self, ← hdd]
      exact ht
    have hupdate : nodes m.view region.sb.ninodes (update ino j d) =
        update (nodes m.view region.sb.ninodes ino) j
          (nodes m.view region.sb.ninodes (update ino j d) j) :=
      nodes_update (fun p _ => by rw [hsame]) (fun _ _ _ _ => rfl)
        fun i hi => update_of_ne hi ..
    unfold contents
    rw [view_setInode hd, hview, hsound.nodes_writeInode hd, hupdate]
    congr 1
    rw [nodes_of_allocated hl, update_self, ← hdd]
    apply Vnode.ext
    case byte =>
      funext o
      rw [hdd]
      exact byteAt_of_none fun s _ => hrefs s
    all_goals rfl
  · rw [← hm1, ← hj]
    rfl
  · rw [← hm1]
    rfl

end

/-! ## All files -/

/-- The directory entry of a file (`mkfs.c:137-139`). -/
def fileDirent (inum : Nat) (f : HostFile) : Dirent :=
  { inum := BitVec.ofNat 16 inum, name := strncpyName f.stripped }

/-- The entries of the root directory. -/
def rootDirents (fs : List HostFile) : List Dirent :=
  [{ inum := BitVec.ofNat 16 ROOTINO, name := strncpyName (cstr ".") },
    { inum := BitVec.ofNat 16 ROOTINO, name := strncpyName (cstr "..") }] ++
  fs.mapIdx fun i f => fileDirent (i + 2) f

/-- The bytes of the root directory. -/
def rootBytes (fs : List HostFile) : List UInt8 := (rootDirents fs).flatMap Dirent.bytes

/-- The files of the image: the root directory, and from inode 2 on the files in order. -/
def image (fs : List HostFile) (j : Nat) : Vnode :=
  if j = ROOTINO then fill (newNode T_DIR) (rootBytes fs)
  else if 2 ≤ j then
    match fs[j - 2]? with
    | some f => fill (newNode T_FILE) f.bytes
    | none => .free
  else .free

/-- The blocks that the files need. -/
def blocksOf (fs : List HostFile) : Nat :=
  fileBlocks (DIRENTSZ * (fs.length + 2)) + (fs.map fun f => fileBlocks f.bytes.length).sum

theorem rootDirents_concat (fs : List HostFile) (f : HostFile) :
    rootDirents (fs ++ [f]) = rootDirents fs ++ [fileDirent (fs.length + 2) f] := by
  simp [rootDirents, mapIdx_append]

theorem length_rootDirents (fs : List HostFile) : (rootDirents fs).length = fs.length + 2 := by
  simp [rootDirents]

theorem length_rootBytes (fs : List HostFile) :
    (rootBytes fs).length = DIRENTSZ * (fs.length + 2) := by
  rw [rootBytes, Dirent.length_flatMap_bytes, length_rootDirents]

theorem rootBytes_concat (fs : List HostFile) (f : HostFile) :
    rootBytes (fs ++ [f]) = rootBytes fs ++ (fileDirent (fs.length + 2) f).bytes := by
  simp [rootBytes, rootDirents_concat]

theorem image_nil :
    image [] = update (fun _ => .free) ROOTINO (fill (newNode T_DIR) (rootBytes [])) := by
  funext j
  by_cases hj : j = ROOTINO
  · subst hj
    rw [update_self]
    exact if_pos rfl
  · rw [update_of_ne hj]
    simp [image, hj]

theorem image_concat (fs : List HostFile) (f : HostFile) :
    image (fs ++ [f]) = update
      (update (image fs) ROOTINO (fill (newNode T_DIR) (rootBytes (fs ++ [f]))))
      (fs.length + 2) (fill (newNode T_FILE) f.bytes) := by
  funext j
  by_cases hj : j = fs.length + 2
  · subst hj
    rw [update_self]
    simp [image, ROOTINO]
  rw [update_of_ne hj]
  by_cases hroot : j = ROOTINO
  · subst hroot
    rw [update_self]
    exact if_pos rfl
  rw [update_of_ne hroot]
  unfold image
  rw [if_neg hroot, if_neg hroot]
  by_cases h2 : 2 ≤ j
  · rw [if_pos h2, if_pos h2]
    by_cases hlt : j - 2 < fs.length
    · rw [getElem?_append_left hlt]
    · rw [getElem?_eq_none (by simp; omega), getElem?_eq_none (by omega)]
  · rw [if_neg h2, if_neg h2]

/-- The image holds these files and has used the blocks for them. -/
structure Holds (m : Mkfs) (ino : Nat → Dinode) (fs : List HostFile) : Prop where
  whole : Whole m ino
  contents : m.contents ino = image fs
  freeinode : m.freeinode = fs.length + 2
  used : m.usedblocks = metablocks + blocksOf fs

/-- The files that `mkfs` does not take. -/
def Refused (f : HostFile) : Prop := 47 ∈ f.name ∨ MAXFILE * BSIZE < f.bytes.length

theorem blocksOf_concat (fs : List HostFile) (f : HostFile) :
    blocksOf (fs ++ [f]) + fileBlocks (DIRENTSZ * (fs.length + 2)) =
      blocksOf fs + fileBlocks (DIRENTSZ * (fs.length + 2) + DIRENTSZ) +
        fileBlocks f.bytes.length := by
  unfold blocksOf
  simp only [length_append, map_append, sum_append, length_singleton,
    map_singleton, sum_singleton]
  have hmul : DIRENTSZ * (fs.length + 1 + 2) = DIRENTSZ * (fs.length + 2) + DIRENTSZ := by ring
  rw [hmul]
  omega

variable {m : Mkfs} {ino : Nat → Dinode} {fs : List HostFile}

/-- One turn of the loop over the files. -/
theorem addFile_ends {f : HostFile} (h : Holds m ino fs) (hn : fs.length + 2 < NINODES)
    (hroom : metablocks + blocksOf (fs ++ [f]) ≤ size) :
    Ends (addFile f) m (fun _ m' => ∃ ino', Holds m' ino' (fs ++ [f])) fun _ => Refused f := by
  have hblocks := blocksOf_concat fs f
  have hused := h.used
  unfold addFile
  by_cases hslash : 47 ∈ f.name
  · rw [if_pos hslash]
    exact ends_panic (.inl hslash)
  rw [if_neg hslash]
  apply (ialloc_ends h.whole (by rw [h.freeinode]; omega) (by rw [h.freeinode]; exact hn)
    (by decide)).bind
  rintro _ m1 ⟨rfl, ino1, hw1, hc1, hfree1, hused1⟩
  rw [h.freeinode] at hc1 hfree1 ⊢
  -- the root directory gets an entry
  obtain ⟨cs, hcs⟩ : ∃ cs, (fileDirent (fs.length + 2) f).bytes = cs := ⟨_, rfl⟩
  have hlen : cs.length = DIRENTSZ := by rw [← hcs]; exact Dirent.length_bytes _
  have hroot : m1.contents ino1 ROOTINO = fill (newNode T_DIR) (rootBytes fs) := by
    rw [hc1, update_of_ne (by simp [ROOTINO]), h.contents]
    exact if_pos rfl
  have hroom1 : m1.usedblocks + fileBlocks ((rootBytes fs).length + cs.length) ≤
      size + fileBlocks (rootBytes fs).length := by
    rw [length_rootBytes, hlen]
    omega
  have hadd := iappend_adds cs hw1
    (allocated_of_contents (by rw [hroot]; exact (by decide : T_DIR ≠ 0))) hroot hroom1
  rw [hlen, length_rootBytes] at hadd
  unfold addEntry
  rw [show ({ inum := BitVec.ofNat 16 (fs.length + 2), name := strncpyName f.stripped } : Dirent) =
    fileDirent (fs.length + 2) f from rfl, hcs]
  refine (hadd.weaken ?_).bind ?_
  · intro _ hlarge
    simp only [NINODES, MAXFILE, NINDIRECT, NDIRECT, BSIZE, DIRENTSZ] at hlarge hn
    omega
  rintro _ m2 ⟨ino2, ha⟩
  -- and the file its bytes
  have hfile : m2.contents ino2 (fs.length + 2) = fill (newNode T_FILE) [] := by
    rw [ha.contents, update_of_ne (by simp [ROOTINO]), hc1, update_self]
    rfl
  have hused2 := ha.used
  rw [length_rootBytes, hlen] at hused2
  have hzero : fileBlocks ([] : List UInt8).length = 0 := rfl
  have hcopy : Ends (copyFile (fs.length + 2) f.bytes.length f.bytes) m2 _ _ :=
    copyFile_ends f.bytes.length [] f.bytes le_rfl ha.whole (by exact (by decide : T_FILE ≠ 0)) hfile
      (by rw [hzero, length_nil, Nat.zero_add]; omega)
  refine (hcopy.weaken ?_).mono ?_
  · intro _ hlarge
    rw [length_nil, Nat.zero_add] at hlarge
    exact .inr hlarge
  rintro _ m3 ⟨ino3, hb⟩
  refine ⟨ino3, hb.whole, ?_, ?_, ?_⟩
  · rw [hb.contents, ha.contents, hc1, h.contents, image_concat, rootBytes_concat, hcs,
      nil_append, update_comm (by simp [ROOTINO]), update_idem,
      update_comm (by simp [ROOTINO])]
  · rw [hb.freeinode, ha.freeinode, hfree1]
    simp
  · have hused3 := hb.used
    rw [hzero, length_nil, Nat.zero_add] at hused3
    omega

theorem addFiles_ends : ∀ (gs : List HostFile) {m : Mkfs} {ino : Nat → Dinode}
    {fs : List HostFile}, Holds m ino fs → (fs ++ gs).length + 1 < NINODES →
    metablocks + blocksOf (fs ++ gs) ≤ size →
    Ends (addFiles gs) m (fun _ m' => ∃ ino', Holds m' ino' (fs ++ gs))
      fun _ => ∃ f ∈ gs, Refused f := by
  intro gs
  induction gs with
  | nil =>
    intro m ino fs h _ _
    rw [append_nil]
    exact ends_pure ⟨ino, h⟩
  | cons f gs ih =>
    intro m ino fs h hn hroom
    rw [append_cons] at hn hroom ⊢
    have hle : blocksOf (fs ++ [f]) ≤ blocksOf (fs ++ [f] ++ gs) := by
      unfold blocksOf
      have hmono : fileBlocks (DIRENTSZ * ((fs ++ [f]).length + 2)) ≤
          fileBlocks (DIRENTSZ * ((fs ++ [f] ++ gs).length + 2)) :=
        fileBlocks_mono (Nat.mul_le_mul_left _ (by simp))
      have hsplit : ((fs ++ [f] ++ gs).map fun f => fileBlocks f.bytes.length).sum =
          ((fs ++ [f]).map fun f => fileBlocks f.bytes.length).sum +
            (gs.map fun f => fileBlocks f.bytes.length).sum := by
        rw [map_append, sum_append]
      rw [hsplit]
      omega
    unfold addFiles
    refine ((addFile_ends h (by simp at hn; omega) (by omega)).weaken ?_).bind ?_
    · intro _ hf
      exact ⟨f, mem_cons_self .., hf⟩
    rintro _ m1 ⟨ino1, h1⟩
    apply (ih h1 hn hroom).weaken
    rintro _ ⟨g, hg, hrefused⟩
    exact ⟨g, mem_cons_of_mem _ hg, hrefused⟩

/-! ## The whole run -/

theorem disk_start {s : Nat} (h : s ≠ 1) : start.disk s = Bytes.zero BSIZE := by
  change update (fun _ => Bytes.zero BSIZE) 1 sbBlock s = _
  rw [update_of_ne h]

theorem dino_start (j : Nat) : dino start.disk j = Dinode.zero := by
  have hge : 2 ≤ iblock j := Nat.le_add_left 2 (j / IPB)
  unfold dino
  rw [disk_start (by omega)]
  simp [getDinode, Bytes.u16, Bytes.u32, Dinode.zero]

theorem start_whole : Whole start fun _ => Dinode.zero := by
  have hfree : ∀ j, ¬ Allocated region.sb.ninodes (fun _ => Dinode.zero) j :=
    fun j hj => hj.2.2 rfl
  have hnone : ∀ p, refs start.view region.sb.ninodes (fun _ => Dinode.zero) p = none :=
    fun p => if_neg (hfree p.1)
  refine ⟨⟨rfl, rfl, le_rfl, ?_, ⟨?_, ?_, ?_⟩, ?_⟩, ?_, fun j hj => absurd hj (hfree j),
    fun j hj => absurd hj (hfree j), ?_⟩
  · intro b hb
    have hb : metablocks ≤ b := hb
    have : 1 < metablocks := by decide
    exact disk_start (by omega)
  · rw [view_of_ne (by decide)]
    decide +kernel
  · intro b hb hout
    have hlt : b < size := hb
    rw [bit_view hlt, decide_eq_true_iff]
    by_contra hge
    exact hout ⟨not_lt.mp hge, hlt⟩
  · refine ⟨fun {p b} hp => ?_, fun {p q b} hp _ => ?_⟩
    · cases (hnone p).symm.trans hp
    · cases (hnone p).symm.trans hp
  · rintro b ⟨hlo, hhi, hbit⟩
    rw [bit_view hhi, decide_eq_true_iff] at hbit
    exact absurd hlo (not_le.mpr hbit)
  · intro j hj
    rw [dino_view hj, dino_start]
  · intro j
    refine ⟨fun hj => absurd hj (hfree j), fun hj => ?_⟩
    have hlt : j < 1 := hj.2
    omega

theorem contents_start : (start.contents fun _ => Dinode.zero) = fun _ => .free :=
  funext fun _ => nodes_of_not_allocated fun hj => hj.2.2 rfl

/-- The image when `mkfs` is done: the files are there, the size of the root directory is rounded
up, and the bitmap is on the disk. -/
def Finished (m : Mkfs) (fs : List HostFile) : Prop :=
  ∃ m' ino, Holds m' ino fs ∧ m.disk = writeInode m'.view ROOTINO { ino ROOTINO with
    size := BitVec.ofNat 32 ((DIRENTSZ * (fs.length + 2) / BSIZE + 1) * BSIZE) }

theorem addEntry_root_ends {name bs : List UInt8} {E : Halt → Prop} (h : Whole m ino)
    (hc : m.contents ino ROOTINO = fill (newNode T_DIR) bs)
    (hlen : bs.length + DIRENTSZ ≤ MAXFILE * BSIZE)
    (hroom : m.usedblocks + fileBlocks (bs.length + DIRENTSZ) ≤ size + fileBlocks bs.length) :
    Ends (addEntry ROOTINO name) m (fun _ m' => ∃ ino', Adds m ino ROOTINO (newNode T_DIR) bs
      ({ inum := BitVec.ofNat 16 ROOTINO, name := strncpyName name } : Dirent).bytes m' ino') E := by
  obtain ⟨cs, hcs⟩ : ∃ cs, Dirent.bytes ⟨BitVec.ofNat 16 ROOTINO, strncpyName name⟩ = cs := ⟨_, rfl⟩
  have hlength : cs.length = DIRENTSZ := by rw [← hcs]; exact Dirent.length_bytes _
  have hadd := iappend_adds cs h
    (allocated_of_contents (by rw [hc]; exact (by decide : T_DIR ≠ 0))) hc
    (by rw [hlength]; exact hroom)
  unfold addEntry
  rw [hcs]
  rw [hlength] at hadd
  exact hadd.weaken fun _ hlarge => absurd hlen (not_le.mpr hlarge)

/-- `mkfs` stops for a name with a slash or a file that is too large, and for no other reason. -/
theorem main_ends (hn : fs.length + 1 < NINODES) (hroom : metablocks + blocksOf fs ≤ size) :
    Ends (main fs) start (fun _ m => Finished m fs) fun _ => ∃ f ∈ fs, Refused f := by
  unfold main
  apply (ialloc_ends start_whole (by decide) (by decide) (by decide)).bind
  rintro _ m1 ⟨rfl, ino1, hw1, hc1, hfree1, hused1⟩
  have hfirst : start.freeinode = ROOTINO := rfl
  rw [hfirst] at hc1 hfree1 ⊢
  rw [if_pos rfl]
  have hroot1 : m1.contents ino1 ROOTINO = fill (newNode T_DIR) [] := by
    rw [hc1, update_self]
    rfl
  have hused1 : m1.usedblocks = metablocks := hused1
  apply (addEntry_root_ends hw1 hroot1 (by decide) (by rw [hused1]; decide)).bind
  rintro _ m2 ⟨ino2, ha2⟩
  have hroot2 := congrFun ha2.contents ROOTINO
  rw [update_self, nil_append] at hroot2
  have hused2 := ha2.used
  rw [hused1, Dirent.length_bytes, length_nil, Nat.zero_add] at hused2
  have hnone : fileBlocks 0 = 0 := rfl
  have hone : fileBlocks DIRENTSZ = 1 := rfl
  have htwo : fileBlocks (DIRENTSZ + DIRENTSZ) = 1 := rfl
  refine (addEntry_root_ends ha2.whole hroot2 (by rw [Dirent.length_bytes]; decide) ?_).bind ?_
  · have : metablocks + 1 ≤ size := by decide
    rw [Dirent.length_bytes]
    omega
  rintro _ m3 ⟨ino3, ha3⟩
  have hholds : Holds m3 ino3 [] := by
    refine ⟨ha3.whole, ?_, ?_, ?_⟩
    · rw [ha3.contents, ha2.contents, hc1, contents_start, update_idem,
        update_idem, image_nil]
      rfl
    · rw [ha3.freeinode, ha2.freeinode, hfree1]
      rfl
    · have hused3 := ha3.used
      have : blocksOf [] = 1 := rfl
      simp only [Dirent.length_bytes] at hused3
      omega
  apply (addFiles_ends fs hholds hn hroom).bind
  rintro _ m4 ⟨ino4, h4⟩
  rw [nil_append] at h4
  have hroot : Allocated region.sb.ninodes ino4 ROOTINO :=
    allocated_of_contents (by rw [h4.contents]; exact (by decide : T_DIR ≠ 0))
  have hsize : (ino4 ROOTINO).size.toNat = DIRENTSZ * (fs.length + 2) := by
    have hc := congrArg Vnode.size (congrFun h4.contents ROOTINO)
    unfold contents at hc
    rw [nodes_of_allocated hroot] at hc
    exact hc.trans (length_rootBytes fs)
  obtain ⟨d, hd⟩ : ∃ d, { ino4 ROOTINO with
    size := BitVec.ofNat 32 ((DIRENTSZ * (fs.length + 2) / BSIZE + 1) * BSIZE) } = d := ⟨_, rfl⟩
  have hfix : Ends fixRoot m4 (fun _ m => m4.setInode ROOTINO d = m)
      fun _ => ∃ f ∈ fs, Refused f := by
    unfold fixRoot
    apply (rinode_ends h4.whole.built hroot.onDisk).bind
    rintro _ _ ⟨rfl, rfl⟩
    rw [h4.whole.stored _ hroot.onDisk, hsize, hd]
    exact winode_ends h4.whole.built hroot.onDisk
  apply hfix.bind
  rintro _ _ rfl
  apply (ends_get (Q := fun a t => m4.setInode ROOTINO d = a ∧ m4.setInode ROOTINO d = t)
    ⟨rfl, rfl⟩).bind
  rintro _ _ ⟨rfl, rfl⟩
  have hused : (m4.setInode ROOTINO d).usedblocks < 512 * 8 := by
    have h4used := h4.used
    have : size < 512 * 8 := by decide
    change m4.usedblocks < 512 * 8
    omega
  unfold balloc
  rw [if_pos hused]
  refine (wsect_ends ?_).mono ?_
  · exact (show NINODES / IPB + 3 < size by decide).trans_eq h4.whole.built.length.symm
  rintro _ _ rfl
  refine ⟨m4, ino4, h4, ?_⟩
  rw [hd, ← view_setInode hroot.onDisk]
  rfl

/-! ## Consistency -/

/-- The block of an image at each position of its inodes. -/
def imageRefs (v : Nat → Block) : Pos → Option Nat := refs v NINODES (dino v)

/-- Entry `i` of the root directory. -/
def rootDirent (v : Nat → Block) (i : Nat) : Dirent :=
  Kernel.toDirent ((List.range DIRENTSZ).map fun k =>
    byteAt v NINODES (dino v) ROOTINO (DIRENTSZ * i + k))

/-- The entries of the root directory that are in use. -/
def rootEntries (v : Nat → Block) : List Dirent :=
  ((List.range ((dino v ROOTINO).size.toNat / DIRENTSZ)).map (rootDirent v)).filter
    fun d => d.inum ≠ 0

/-- The image is consistent, and its root directory lists these files. -/
structure Consistent (v : Nat → Block) (fs : List HostFile) : Prop where
  mapped : ∀ inum, Allocated NINODES (dino v) inum → ∀ bn, bn * BSIZE < (dino v inum).size.toNat →
    ∃ s b, slotOf bn = some s ∧ imageRefs v (inum, s) = some b
  distinct : ∀ p q b, imageRefs v p = some b → imageRefs v q = some b → p = q
  area : ∀ p b, imageRefs v p = some b → metablocks ≤ b ∧ b < size - nlog
  bits : ∀ b < size - nlog, Kernel.bit v NINODES b = true ↔
    b < metablocks ∨ ∃ p, imageRefs v p = some b
  root : rootEntries v = rootDirents fs

theorem getD_flatMap_bytes (ds : List Dirent) : ∀ {i k : Nat}, k < DIRENTSZ →
    (ds.flatMap Dirent.bytes).getD (DIRENTSZ * i + k) 0 =
      if h : i < ds.length then (ds[i]).bytes.getD k 0 else 0 := by
  induction ds with
  | nil => intro i k _; rfl
  | cons d ds ih =>
    intro i k hk
    rw [flatMap_cons]
    cases i with
    | zero =>
      rw [Nat.mul_zero, Nat.zero_add, getD_append _ _ _ _ (by rw [Dirent.length_bytes]; exact hk)]
      simp
    | succ i =>
      have hlen : d.bytes.length ≤ DIRENTSZ * (i + 1) + k := by
        rw [Dirent.length_bytes, Nat.mul_succ]
        omega
      have hsub : DIRENTSZ * (i + 1) + k - d.bytes.length = DIRENTSZ * i + k := by
        rw [Dirent.length_bytes, Nat.mul_succ]
        omega
      rw [getD_append_right _ _ _ _ hlen, hsub, ih hk]
      simp only [length_cons, Nat.add_lt_add_iff_right, getElem_cons_succ]

theorem inum_ne_zero (hn : fs.length + 1 < NINODES) {d : Dirent} (hd : d ∈ rootDirents fs) :
    d.inum ≠ 0 := by
  simp only [rootDirents, mem_append, mem_cons, not_mem_nil, or_false,
    mem_mapIdx] at hd
  rcases hd with (rfl | rfl) | ⟨i, hi, rfl⟩
  · decide
  · decide
  · intro hzero
    have hnat : (i + 2) % 2 ^ 16 = 0 := congrArg BitVec.toNat hzero
    simp only [NINODES] at hn
    omega

theorem filter_map_range {ds : List Dirent} {n : Nat} {f : Nat → Dirent} (hn : ds.length ≤ n)
    (hin : ∀ i (h : i < ds.length), f i = ds[i]) (hused : ∀ d ∈ ds, d.inum ≠ 0)
    (hout : ∀ i, ds.length ≤ i → (f i).inum = 0) :
    ((List.range n).map f).filter (fun d => d.inum ≠ 0) = ds := by
  obtain ⟨k, rfl⟩ := Nat.exists_eq_add_of_le hn
  have hfirst : (List.range ds.length).map f = ds := by
    apply ext_getElem
    · simp
    · intro i h1 h2
      simpa using hin i h2
  rw [range_add, map_append, filter_append, hfirst,
    filter_eq_self.mpr (by simpa using hused), filter_eq_nil_iff.mpr, append_nil]
  intro d hd
  simp only [map_map, mem_map, Function.comp] at hd
  obtain ⟨i, -, rfl⟩ := hd
  simp [hout (ds.length + i) (Nat.le_add_right ..)]

section

variable {m : Mkfs} {ino : Nat → Dinode} {fs : List HostFile} {d : Dinode} {v : Nat → Block}

/-- The finished image in terms of the files before the root directory's size was rounded up. -/
structure Rounds (v : Nat → Block) (m : Mkfs) (ino : Nat → Dinode) (d : Dinode) : Prop where
  disk : v = writeInode m.view ROOTINO d
  root : Allocated region.sb.ninodes ino ROOTINO
  addrs : d.addrs = (ino ROOTINO).addrs
  type : d.type = (ino ROOTINO).type

namespace Rounds

theorem dino_eq (h : Whole m ino) (hr : Rounds v m ino d) {j : Nat}
    (hj : OnDisk region.sb.ninodes j) : dino v j = update ino ROOTINO d j := by
  rw [hr.disk, ← view_setInode hr.root.onDisk]
  exact dino_setInode hr.root.onDisk (fun i _ hi => h.stored i hi) hj

theorem allocated_iff (h : Whole m ino) (hr : Rounds v m ino d) {j : Nat} :
    Allocated region.sb.ninodes (dino v) j ↔ Allocated region.sb.ninodes ino j := by
  have hiff : OnDisk region.sb.ninodes j → ((dino v j).type ≠ 0 ↔ (ino j).type ≠ 0) := by
    intro hj
    rw [hr.dino_eq h hj]
    by_cases hroot : j = ROOTINO
    · rw [hroot, update_self, hr.type]
    · rw [update_of_ne hroot]
  constructor
  · intro hj
    exact ⟨hj.1, hj.2.1, (hiff hj.onDisk).mp hj.2.2⟩
  · intro hj
    exact ⟨hj.1, hj.2.1, (hiff hj.onDisk).mpr hj.2.2⟩

theorem sound (h : Whole m ino) (hr : Rounds v m ino d) :
    Sound region v (update ino ROOTINO d) ∧
      refs v region.sb.ninodes (update ino ROOTINO d) = refs m.view region.sb.ninodes ino := by
  have hrefs : refs m.view region.sb.ninodes (update ino ROOTINO d) =
      refs m.view region.sb.ninodes ino :=
    refs_setFields hr.root (by rw [hr.type]; exact hr.root.2.2) hr.addrs
  have hsound := h.built.sound.of_refs hrefs
  rw [hr.disk]
  exact ⟨hsound.writeInode hr.root.onDisk,
    (congrArg Heap.ref (hsound.heap_writeInode hr.root.onDisk)).trans hrefs⟩

theorem refs_eq (h : Whole m ino) (hr : Rounds v m ino d) :
    imageRefs v = refs m.view region.sb.ninodes ino :=
  (refs_congr_ino fun _ hj => hr.dino_eq h hj).trans (hr.sound h).2

theorem byte_eq (h : Whole m ino) (hr : Rounds v m ino d) :
    byteAt v NINODES (dino v) ROOTINO = (m.contents ino ROOTINO).byte := by
  have hrefs : refs v NINODES (dino v) = refs m.view region.sb.ninodes ino := hr.refs_eq h
  have hdisk : ∀ p b, refs m.view region.sb.ninodes ino p = some b → v b = m.view b := by
    intro p b hp
    have hlt := (h.built.ref_lt hp).1
    have hblock := iblock_lt hr.root.onDisk
    have : bitmapSector < metablocks := by decide
    rw [hr.disk]
    exact update_of_ne (by omega) ..
  unfold contents
  rw [nodes_of_allocated hr.root]
  funext o
  apply byteAt_congr
  · intro s a hs ha
    rw [byteAt_of_ref hs (by rw [hrefs]; exact ha), hdisk _ _ ha]
  · intro s hs ha
    apply byteAt_of_none
    intro t ht
    obtain rfl := Option.some.inj (hs.symm.trans ht)
    rw [hrefs]
    exact ha
  · exact byteAt_of_slotOf_none

theorem bit_eq (hr : Rounds v m ino d) {b : Nat} (hb : b < size) :
    Kernel.bit v NINODES b = decide (b < m.usedblocks) := by
  rw [← bit_view hb]
  apply bit_congr
  rw [hr.disk]
  exact update_of_ne (bblock_ne_iblock hr.root.onDisk) ..

end Rounds

/-- What holds of the image of every list of files that fits. -/
theorem Finished.rounds (h : Finished m fs) : ∃ m' ino d, Holds m' ino fs ∧ Rounds m.disk m' ino d ∧
    d.size = BitVec.ofNat 32 ((DIRENTSZ * (fs.length + 2) / BSIZE + 1) * BSIZE) := by
  obtain ⟨m', ino, hh, hdisk⟩ := h
  refine ⟨m', ino, _, hh, ⟨hdisk, ?_, rfl, rfl⟩, rfl⟩
  apply allocated_of_contents (m := m')
  rw [hh.contents]
  exact (by decide : T_DIR ≠ 0)

theorem Whole.mapped (h : Whole m ino) {j bn : Nat} (hl : Allocated region.sb.ninodes ino j) :
    (∃ s b, slotOf bn = some s ∧ refs m.view region.sb.ninodes ino (j, s) = some b) ↔
      bn * BSIZE < (ino j).size.toNat := by
  constructor
  · rintro ⟨s, b, hs, hb⟩
    exact ((h.filled j hl).slot hs).mp ⟨b, hb⟩
  · intro hlt
    have hbn : bn < NDIRECT + NINDIRECT :=
      Nat.lt_of_mul_lt_mul_right (lt_of_lt_of_le hlt (h.fits j hl))
    obtain ⟨s, hs⟩ : ∃ s, slotOf bn = some s := by
      unfold slotOf
      split
      · exact ⟨_, rfl⟩
      · rw [dif_pos (by omega)]
        exact ⟨_, rfl⟩
    obtain ⟨b, hb⟩ := ((h.filled j hl).slot hs).mpr hlt
    exact ⟨s, b, hs, hb⟩

/-- The root directory lists the files. -/
theorem Holds.root (h : Holds m ino fs) (hr : Rounds v m ino d) (hn : fs.length + 1 < NINODES)
    (hsize : DIRENTSZ * (fs.length + 2) ≤ d.size.toNat) : rootEntries v = rootDirents fs := by
  have hbyte : byteAt v NINODES (dino v) ROOTINO = bytesOf (rootBytes fs) := by
    rw [hr.byte_eq h.whole, h.contents]
    rfl
  have hdirent : ∀ i, rootDirent v i = Kernel.toDirent ((List.range DIRENTSZ).map fun k =>
      if h : i < (rootDirents fs).length then ((rootDirents fs)[i]).bytes.getD k 0 else 0) := by
    intro i
    unfold rootDirent
    rw [hbyte]
    congr 1
    apply map_congr_left
    intro k hk
    exact getD_flatMap_bytes _ (mem_range.mp hk)
  unfold rootEntries
  rw [hr.dino_eq h.whole hr.root.onDisk, update_self]
  apply filter_map_range
  · rw [length_rootDirents]
    exact (Nat.le_div_iff_mul_le (by decide)).mpr (by rw [Nat.mul_comm]; exact hsize)
  · intro i hi
    rw [hdirent]
    simp only [hi, dif_pos]
    exact Kernel.toDirent_bytes _
  · intro e he
    exact inum_ne_zero hn he
  · intro i hi
    rw [hdirent]
    simp only [not_lt.mpr hi, dif_neg, not_false_eq_true]
    exact Kernel.inum_toDirent_zero

/-- The image is consistent unless the root directory ends at the end of a block: then rounding up
its size adds a block that it does not have. -/
theorem Finished.consistent_iff (h : Finished m fs) (hn : fs.length + 1 < NINODES)
    (hb : blocksOf fs ≤ nblocks) :
    Consistent m.disk fs ↔ (fs.length + 2) % (BSIZE / DIRENTSZ) ≠ 0 := by
  obtain ⟨m', ino, d, hh, hr, hsize⟩ := h.rounds
  have hwhole := hh.whole
  have hrefs := hr.refs_eq hwhole
  have hn' : fs.length + 1 < 200 := hn
  have hused : m'.usedblocks ≤ size - nlog := by
    have hlast : metablocks + nblocks = size - nlog := by decide
    rw [hh.used]
    omega
  have hrounded : d.size.toNat = (DIRENTSZ * (fs.length + 2) / BSIZE + 1) * BSIZE := by
    rw [hsize, BitVec.toNat_ofNat]
    apply Nat.mod_eq_of_lt
    simp only [DIRENTSZ, BSIZE]
    omega
  have hroot : (ino ROOTINO).size.toNat = DIRENTSZ * (fs.length + 2) := by
    have hc := congrArg Vnode.size (congrFun hh.contents ROOTINO)
    unfold contents at hc
    rw [nodes_of_allocated hr.root] at hc
    exact hc.trans (length_rootBytes fs)
  constructor
  · intro hc hfull
    obtain ⟨s, b, hs, href⟩ := hc.mapped ROOTINO ((hr.allocated_iff hwhole).mpr hr.root)
      (DIRENTSZ * (fs.length + 2) / BSIZE) (by
        rw [hr.dino_eq hwhole hr.root.onDisk, update_self, hrounded]
        exact Nat.mul_lt_mul_of_pos_right (Nat.lt_succ_self _) (by decide))
    rw [hrefs] at href
    have hlt := (hwhole.mapped hr.root).mp ⟨s, b, hs, href⟩
    rw [hroot] at hlt
    simp only [DIRENTSZ, BSIZE] at hlt hfull
    omega
  · intro hpart
    refine ⟨?_, ?_, ?_, ?_, hh.root hr hn ?_⟩
    · intro inum hl bn hbn
      have hl' := (hr.allocated_iff hwhole).mp hl
      rw [hrefs]
      apply (hwhole.mapped hl').mpr
      rw [hr.dino_eq hwhole hl'.onDisk] at hbn
      by_cases hinum : inum = ROOTINO
      · subst hinum
        rw [update_self, hrounded] at hbn
        rw [hroot]
        simp only [DIRENTSZ, BSIZE] at hbn hpart ⊢
        omega
      · rwa [update_of_ne hinum] at hbn
    · intro p q b hp hq
      rw [hrefs] at hp hq
      exact hwhole.built.sound.owned.inj hp hq
    · intro p b hp
      rw [hrefs] at hp
      have hlt := hwhole.built.ref_lt hp
      exact ⟨hlt.1, lt_of_lt_of_le hlt.2 hused⟩
    · intro b hb
      have hlt : b < size := lt_of_lt_of_le hb (Nat.sub_le ..)
      rw [hr.bit_eq hlt, decide_eq_true_iff, hrefs]
      constructor
      · intro hbused
        by_cases hlo : b < metablocks
        · exact .inl hlo
        · refine .inr (hwhole.built.exact b ⟨not_lt.mp hlo, hlt, ?_⟩)
          rw [bit_view hlt]
          exact decide_eq_true hbused
      · rintro (hlo | ⟨p, hp⟩)
        · exact lt_of_lt_of_le hlo hwhole.built.lo
        · exact (hwhole.built.ref_lt hp).2
    · rw [hrounded]
      simp only [DIRENTSZ, BSIZE]
      omega

end

/-- The image that `mkfs` writes; if it stops, what it starts from. -/
def written (files : List HostFile) : Mkfs :=
  match main files start with
  | .ok _ m => m
  | .halt _ => start

/-- `mkfs` takes every list of files that fits. -/
theorem main_eq_written {files : List HostFile} (hn : files.length + 1 < NINODES)
    (hroom : metablocks + blocksOf files ≤ size) (hok : ∀ f ∈ files, ¬ Refused f) :
    main files start = .ok () (written files) := by
  have hends := (main_ends hn hroom).weaken (F := fun _ => False) fun _ ⟨f, hf, hrefused⟩ =>
    hok f hf hrefused
  obtain ⟨_, m, hrun, -⟩ := hends.returns
  unfold written
  rw [hrun]

/-- The image that `mkfs` writes is consistent exactly if the last block of the root directory is
not full. -/
theorem mkfs_consistent_iff {files : List HostFile} {m : Mkfs}
    (hrun : main files start = .ok () m) (hn : files.length + 1 < NINODES)
    (hb : blocksOf files ≤ nblocks) :
    Consistent m.disk files ↔ (files.length + 2) % (BSIZE / DIRENTSZ) ≠ 0 := by
  have hroom : metablocks + blocksOf files ≤ size := by
    have : metablocks + nblocks ≤ size := by decide
    omega
  exact ((main_ends hn hroom).1 () m hrun).consistent_iff hn hb

/-- A single small program. -/
def oneFile : List HostFile := [{ name := cstr "_cat", bytes := cstr "text" }]

theorem oneFile_consistent : Consistent (written oneFile).disk oneFile :=
  (mkfs_consistent_iff
    (main_eq_written (by decide) (by decide) (by unfold Refused; decide)) (by decide)
    (by decide)).mpr (by decide)

/-- Thirty empty files: with `.` and `..` their entries fill a block of the root directory. -/
def thirtyFiles : List HostFile :=
  (List.range 30).map fun i => { name := [UInt8.ofNat (97 + i)], bytes := [] }

/-- Rounding up the size of the full root directory adds a block that is not there. -/
theorem thirtyFiles_not_consistent :
    (thirtyFiles.map HostFile.name).Nodup ∧ thirtyFiles.length + 1 < NINODES ∧
      blocksOf thirtyFiles ≤ nblocks ∧ main thirtyFiles start = .ok () (written thirtyFiles) ∧
      ¬ Consistent (written thirtyFiles).disk thirtyFiles := by
  have hn : thirtyFiles.length + 1 < NINODES := by decide
  have hb : blocksOf thirtyFiles ≤ nblocks := by decide
  have hroom : metablocks + blocksOf thirtyFiles ≤ size := by decide
  have hrun := main_eq_written hn hroom (by unfold Refused; decide)
  refine ⟨by decide, hn, hb, hrun, fun hc => ?_⟩
  exact (((main_ends hn hroom).1 () _ hrun).consistent_iff hn hb).mp hc (by decide)

end Xv6.Mkfs
