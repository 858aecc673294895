import Xv6.Fs.Content
import Xv6.Fs.Itrunc

/-!
# The inode cache and the disk

`Coherent` relates the kernel to the flat disk `v` it stands for and to the inodes `ino` that the
file system has: a valid entry of the cache is the inode, and the disk may lag behind a cached
inode by some of its addresses, because `bmap` does not write the inode back. What is asked of an
image beyond that differs from use to use, and is a parameter.
-/

namespace Xv6

open Function

open Lib Act

/-- Inode numbers of the disk. -/
def OnDisk (n j : Nat) : Prop := 1 ≤ j ∧ j < n

instance (n j : Nat) : Decidable (OnDisk n j) := inferInstanceAs (Decidable (_ ∧ _))

variable {n j : Nat} {ino ino' : Nat → Dinode} {v : Nat → Block} {r : Region} {d d' : Dinode}

theorem Allocated.onDisk (h : Allocated n ino j) : OnDisk n j :=
  ⟨h.1, h.2.1⟩

theorem refs_congr_ino (h : ∀ j, OnDisk n j → ino' j = ino j) : refs v n ino' = refs v n ino := by
  funext ⟨j, s⟩
  by_cases hj : OnDisk n j
  · have hiff : Allocated n ino' j ↔ Allocated n ino j := by
      unfold Allocated
      rw [h j hj]
    simp only [refs, hiff, h j hj]
  · have hno : ∀ f, ¬ Allocated n f j := fun f hf => hj hf.onDisk
    simp only [refs, hno, if_false]

theorem bblock_ne_iblock {c : Nat} (hj : OnDisk n j) : bblock c n ≠ iblock j := by
  have : j / IPB ≤ n / IPB := Nat.div_le_div_right hj.2.le
  have : n / IPB ≤ c / BPB + n / IPB := Nat.le_add_left ..
  unfold bblock iblock
  omega

/-- Writing an inode back changes neither the bitmap nor indirect blocks. -/
theorem Sound.heap_writeInode (h : Sound r v ino) (hj : OnDisk r.sb.ninodes j) :
    r.heap (writeInode v j d) ino = r.heap v ino :=
  h.heap_meta (r.iblock_lt hj.2) fun _ _ => bblock_ne_iblock hj

theorem Sound.writeInode (h : Sound r v ino) (hj : OnDisk r.sb.ninodes j) :
    Sound r (writeInode v j d) ino := by
  have hone : 1 < iblock j := Nat.le_add_left 2 (j / IPB)
  refine h.of_heap (update_of_ne hone.ne ..) (fun c _ _ => ?_)
    (by rw [h.heap_writeInode hj])
  exact bit_congr (update_of_ne (bblock_ne_iblock hj) ..)

/-- Soundness depends on the references that the inodes have. -/
theorem Sound.of_refs (h : Sound r v ino)
    (hrefs : refs v r.sb.ninodes ino' = refs v r.sb.ninodes ino) : Sound r v ino' := by
  apply h.of_heap rfl (fun _ _ _ => rfl)
  rw [show r.heap v ino' = r.heap v ino from Heap.ext rfl hrefs]

theorem Extends.dino {inum : Nat} {c : Scope} {v' : Nat → Block} {es : List FsEvent}
    (h : Extends r inum c v ino v' d' es) (hj : OnDisk r.sb.ninodes j) :
    dino v' j = dino v j :=
  dino_congr (h.metadata _ (r.iblock_lt hj.2) fun _ _ => bblock_ne_iblock hj)

/-- `d` is `d'` without some of its addresses. -/
structure Dinode.Sub (d d' : Dinode) : Prop where
  fields : d = { d' with addrs := d.addrs }
  addrs : ∀ i, d.addrs i = 0 ∨ d.addrs i = d'.addrs i

theorem Dinode.Sub.refl (d : Dinode) : d.Sub d := ⟨rfl, fun _ => .inr rfl⟩

theorem Dinode.Sub.type (h : d.Sub d') : d.type = d'.type := by rw [h.fields]

theorem slotRef_of_sub {s : Slot} {b : Nat} (h : d.Sub d') (hs : slotRef v d s = some b) :
    slotRef v d' s = some b := by
  have hptr : ∀ {i c}, ptr (d.addrs i) = some c → ptr (d'.addrs i) = some c := by
    intro i c hi
    rcases h.addrs i with h0 | heq
    · rw [h0] at hi
      cases hi
    · rwa [← heq]
  cases s with
  | addr i => exact hptr hs
  | entry j =>
    obtain ⟨a, ha, hb⟩ := Option.bind_eq_some_iff.mp hs
    exact Option.bind_eq_some_iff.mpr ⟨a, hptr ha, hb⟩

/-- What is required of an image beyond soundness. -/
structure Rules where
  region : Region
  /-- The blocks of files lie below this one. -/
  limit : Nat
  /-- Whether no block is lost and no file has a hole. -/
  exact : Prop
  /-- What the data blocks of an inode of this type hold. -/
  content : BitVec 16 → Block → Prop
  content_zero : ∀ t, content t (Bytes.zero BSIZE)

/-- The inodes of the disk. -/
abbrev Rules.ninodes (ru : Rules) : Nat := ru.region.sb.ninodes

/-- A new block lies below the limit. -/
def Within (limit : Nat) : FsEvent → Prop
  | .balloc _ b => b < limit
  | _ => True

namespace Kernel

/-- The cache entry stands for an inode of the disk. -/
structure Stands (n : Nat) (ip : Inode) (j : Nat) : Prop where
  ref : 0 < ip.ref
  valid : ip.valid = true
  inum : ip.inum = j
  onDisk : OnDisk n j

/-- Kernel, flat disk and inodes fit together. -/
structure Coherent (ru : Rules) (k : Kernel) (v : Nat → Block) (ino : Nat → Dinode) : Prop where
  sees : Sees k v
  sound : Sound ru.region v ino
  root : ∀ e, 0 < (k.icache e).ref → (k.icache e).dev = ROOTDEV
  unique : ∀ e f, 0 < (k.icache e).ref → 0 < (k.icache f).ref →
    (k.icache e).inum = (k.icache f).inum → e = f
  entry : ∀ e j, Stands ru.ninodes (k.icache e) j →
    ino j = (k.icache e).d ∧ (ino j).type ≠ 0
  disk : ∀ j, OnDisk ru.ninodes j → (dino v j).Sub (ino j)
  loose : ∀ j, OnDisk ru.ninodes j →
    (∀ e, ¬ Stands ru.ninodes (k.icache e) j) → ino j = dino v j
  below : ∀ p b, refs v ru.ninodes ino p = some b → b < ru.limit
  content : ∀ j s b, s ≠ .addr (Fin.last NDIRECT) →
    refs v ru.ninodes ino (j, s) = some b → ru.content (ino j).type (v b)
  whole : ru.exact → (∀ j, OnDisk ru.ninodes j → ino j = dino v j) ∧
    (ru.region.heap v ino).Exact ∧
    ∀ j, Allocated ru.ninodes ino j →
      Mapped ru.region j v ino 0 (ino j).size.toNat

/-- On the flat disk `v'` the inode `j` has become `d'`, and nothing else has changed. -/
structure Replaces (ru : Rules) (v v' : Nat → Block) (ino : Nat → Dinode) (j : Nat)
    (d' : Dinode) : Prop where
  sound : Sound ru.region v' (update ino j d')
  disk : (dino v' j).Sub d'
  others : ∀ i, OnDisk ru.ninodes i → i ≠ j → dino v' i = dino v i
  below : ∀ p b, refs v' ru.ninodes (update ino j d') p = some b → b < ru.limit
  content : ∀ i s b, s ≠ .addr (Fin.last NDIRECT) →
    refs v' ru.ninodes (update ino j d') (i, s) = some b →
    ru.content (update ino j d' i).type (v' b)
  whole : ru.exact → dino v' j = d' ∧ (ru.region.heap v' (update ino j d')).Exact ∧
    ∀ i, Allocated ru.ninodes (update ino j d') i →
      Mapped ru.region i v' (update ino j d') 0 (update ino j d' i).size.toNat

namespace Coherent

variable {ru : Rules} {k k' : Kernel} {v v' : Nat → Block} {ino ino' : Nat → Dinode}
  {e : Fin NINODE} {j : Nat}

theorem allocated (h : Coherent ru k v ino) (he : Stands ru.ninodes (k.icache e) j) :
    Allocated ru.ninodes ino j :=
  ⟨he.onDisk.1, he.onDisk.2, (h.entry e j he).2⟩

theorem congr (h : Coherent ru k v ino) (hic : k'.icache = k.icache) (hsees : Sees k' v) :
    Coherent ru k' v ino := by
  obtain ⟨-, sound, root, unique, entry, disk, loose, below, content, whole⟩ := h
  rw [← hic] at root unique entry loose
  exact ⟨hsees, sound, root, unique, entry, disk, loose, below, content, whole⟩

/-- Blocks that are neither metadata nor in use may change. -/
theorem of_view (h : Coherent ru k v ino) (hic : k'.icache = k.icache) (hsees : Sees k' v')
    (hmeta : ∀ s < ru.region.lo, v' s = v s)
    (hkeep : ∀ {p b}, refs v ru.ninodes ino p = some b → v' b = v b) :
    Coherent ru k' v' ino := by
  have hrefs : refs v' ru.ninodes ino = refs v ru.ninodes ino :=
    refs_congr_view fun _ _ hp => hkeep hp
  have hbit : ∀ c < ru.region.top, bit v' ru.ninodes c = bit v ru.ninodes c :=
    fun c hc => bit_congr (hmeta _ (ru.region.bitmap c hc))
  have hdino : ∀ j, OnDisk ru.ninodes j → dino v' j = dino v j := fun j hj =>
    dino_congr (hmeta _ (ru.region.iblock_lt hj.2))
  have hheap : ru.region.heap v' ino = ru.region.heap v ino := by
    refine Heap.ext ?_ hrefs
    ext c
    simp only [Region.heap, Set.mem_ofPred_eq]
    refine and_congr_right fun _ => and_congr_right fun hc => ?_
    rw [hbit c (lt_of_lt_of_le hc ru.region.hi_le)]
  obtain ⟨-, sound, root, unique, entry, disk, loose, below, content, whole⟩ := h
  rw [← hic] at root unique entry loose
  refine ⟨hsees, ?_, root, unique, entry, fun j hj => ?_, fun j hj hn => ?_, ?_,
    fun j s b hs hp => ?_, fun hx => ⟨fun j hj => ?_, ?_, ?_⟩⟩
  · apply sound.of_heap (hmeta 1 (by have := ru.region.two_lt; omega)) (fun c hc _ => hbit c hc)
    rw [hheap]
  · rw [hdino j hj]; exact disk j hj
  · rw [hdino j hj]; exact loose j hj hn
  · rw [hrefs]; exact below
  · rw [hrefs] at hp
    rw [hkeep hp]
    exact content j s b hs hp
  · rw [hdino j hj]; exact (whole hx).1 j hj
  · rw [hheap]; exact (whole hx).2.1
  · unfold Mapped
    rw [hrefs]
    exact (whole hx).2.2

variable {ip : Inode} {c : Scope} {d' d1 d2 : Dinode} {es : List FsEvent} {v1 : Nat → Block}

theorem set_entry (h : Coherent ru k v ino) (hic : k'.icache = update k.icache e ip)
    (hsees : Sees k' v)
    (hroot : 0 < ip.ref → ip.dev = ROOTDEV)
    (hunique : 0 < ip.ref → ∀ f ≠ e, 0 < (k.icache f).ref → (k.icache f).inum ≠ ip.inum)
    (hval : ∀ j, Stands ru.ninodes ip j → ino j = ip.d ∧ (ino j).type ≠ 0)
    (hloose : ∀ j, Stands ru.ninodes (k.icache e) j →
      Stands ru.ninodes ip j ∨ ino j = dino v j) :
    Coherent ru k' v ino := by
  have hent : k'.icache e = ip := by rw [hic, update_self]
  have hne : ∀ {f}, f ≠ e → k'.icache f = k.icache f := fun hf => by
    rw [hic, update_of_ne hf]
  refine ⟨hsees, h.sound, fun f hf => ?_, fun f g hf hg heq => ?_, fun f j hf => ?_, h.disk,
    fun j hj hnone => ?_, h.below, h.content, h.whole⟩
  · by_cases hfe : f = e
    · subst hfe; rw [hent] at hf ⊢; exact hroot hf
    · rw [hne hfe] at hf ⊢; exact h.root f hf
  · by_cases hfe : f = e <;> by_cases hge : g = e
    · rw [hfe, hge]
    · rw [hfe, hent] at hf
      rw [hne hge] at hg
      rw [hfe, hent, hne hge] at heq
      exact absurd heq.symm (hunique hf g hge hg)
    · rw [hge, hent] at hg
      rw [hne hfe] at hf
      rw [hge, hent, hne hfe] at heq
      exact absurd heq (hunique hg f hfe hf)
    · rw [hne hfe] at hf
      rw [hne hge] at hg
      rw [hne hfe, hne hge] at heq
      exact h.unique f g hf hg heq
  · by_cases hfe : f = e
    · subst hfe; rw [hent] at hf ⊢; exact hval j hf
    · rw [hne hfe] at hf ⊢; exact h.entry f j hf
  · by_cases hex : ∃ f, Stands ru.ninodes (k.icache f) j
    · obtain ⟨f, hf⟩ := hex
      by_cases hfe : f = e
      · subst hfe
        exact (hloose j hf).resolve_left fun hs => hnone f (by rw [hent]; exact hs)
      · exact absurd (by rw [hne hfe]; exact hf) (hnone f)
    · exact h.loose j hj fun f hf => hex ⟨f, hf⟩

theorem set_ref {ref : Int} {busy : Bool} (h : Coherent ru k v ino)
    (hic : k'.icache = update k.icache e { k.icache e with ref := ref, busy := busy })
    (hsees : Sees k' v) (hold : 0 < (k.icache e).ref) (hnew : 0 < ref) : Coherent ru k' v ino := by
  refine h.set_entry hic hsees (fun _ => h.root e hold) (fun _ f hf hr heq => ?_) ?_ ?_
  · exact hf (h.unique f e hr hold heq)
  · exact fun j hj => h.entry e j ⟨hold, hj.valid, hj.inum, hj.onDisk⟩
  · exact fun j hj => .inl ⟨hnew, hj.valid, hj.inum, hj.onDisk⟩

/-- One inode changes, on the flat disk and in the cache. -/
theorem replace (h : Coherent ru k v ino) (hr : Replaces ru v v' ino j d') (hsees : Sees k' v')
    (hroot : ∀ f, 0 < (k'.icache f).ref → (k'.icache f).dev = ROOTDEV)
    (hunique : ∀ f g, 0 < (k'.icache f).ref → 0 < (k'.icache g).ref →
      (k'.icache f).inum = (k'.icache g).inum → f = g)
    (hentry : ∀ f i, Stands ru.ninodes (k'.icache f) i →
      update ino j d' i = (k'.icache f).d ∧ (update ino j d' i).type ≠ 0)
    (hstill : ∀ f i, i ≠ j → Stands ru.ninodes (k.icache f) i →
      Stands ru.ninodes (k'.icache f) i)
    (hself : (∃ f, Stands ru.ninodes (k'.icache f) j) ∨ d' = dino v' j) :
    Coherent ru k' v' (update ino j d') := by
  refine ⟨hsees, hr.sound, hroot, hunique, hentry, fun i hi => ?_, fun i hi hnone => ?_,
    hr.below, hr.content, fun hx => ?_⟩
  · by_cases hij : i = j
    · subst hij; rw [update_self]; exact hr.disk
    · rw [update_of_ne hij, hr.others i hi hij]; exact h.disk i hi
  · by_cases hij : i = j
    · subst hij
      rw [update_self]
      exact hself.resolve_left fun ⟨f, hf⟩ => hnone f hf
    · rw [update_of_ne hij, hr.others i hi hij]
      exact h.loose i hi fun f hf => hnone f (hstill f i hij hf)
  · obtain ⟨h1, h2, h3⟩ := hr.whole hx
    refine ⟨fun i hi => ?_, h2, h3⟩
    by_cases hij : i = j
    · subst hij; rw [update_self]; exact h1.symm
    · rw [update_of_ne hij, hr.others i hi hij]; exact (h.whole hx).1 i hi

/-- An inode leaves the cache, and is on the flat disk what it is said to be. -/
theorem drop (h : Coherent ru k v ino) (he : Stands ru.ninodes (k.icache e) j)
    (hic : k'.icache = update k.icache e ip) (hfree : ¬ 0 < ip.ref)
    (hr : Replaces ru v v' ino j d') (hsees : Sees k' v') (hself : d' = dino v' j) :
    Coherent ru k' v' (update ino j d') := by
  have hent : k'.icache e = ip := by rw [hic, update_self]
  have hne : ∀ {f}, f ≠ e → k'.icache f = k.icache f := fun hf => by
    rw [hic, update_of_ne hf]
  have hfe : ∀ {f}, 0 < (k'.icache f).ref → f ≠ e := fun hf heq => by
    rw [heq, hent] at hf
    exact hfree hf
  refine h.replace hr hsees (fun f hf => ?_) (fun f g hf hg heq => ?_) (fun f i hf => ?_)
    (fun f i hij hf => ?_) (.inr hself)
  · have hne' := hfe hf
    rw [hne hne'] at hf ⊢
    exact h.root f hf
  · rw [hne (hfe hf), hne (hfe hg)] at heq
    rw [hne (hfe hf)] at hf
    rw [hne (hfe hg)] at hg
    exact h.unique f g hf hg heq
  · have hne' := hfe hf.ref
    rw [hne hne'] at hf ⊢
    have hij : i ≠ j := fun heq =>
      hne' (h.unique f e hf.ref he.ref (by rw [hf.inum, he.inum, heq]))
    rw [update_of_ne hij]
    exact h.entry f i hf
  · have : f ≠ e := fun heq => hij (by rw [← hf.inum, heq, he.inum])
    rw [hne this]
    exact hf

theorem allocated_of_update {i : Nat} (hij : i ≠ j)
    (hi : Allocated ru.ninodes (update ino j d') i) :
    Allocated ru.ninodes ino i :=
  ⟨hi.1, hi.2.1, by have := hi.2.2; rwa [update_of_ne hij] at this⟩

/-- When an inode leaves the cache, what the disk does not know of it is forgotten. -/
theorem forget (h : Coherent ru k v ino) (he : Stands ru.ninodes (k.icache e) j)
    (hic : k'.icache = update k.icache e ip) (hsees : Sees k' v) (hfree : ¬ 0 < ip.ref) :
    Coherent ru k' v (update ino j (dino v j)) := by
  have hsub := h.disk j he.onDisk
  have hl := h.allocated he
  have hrefs : ∀ p b, refs v ru.ninodes (update ino j (dino v j)) p = some b →
      refs v ru.ninodes ino p = some b := by
    rintro ⟨i, s⟩ b hp
    by_cases hi : i = j
    · subst hi
      rw [refs_update_self hl (by rw [hsub.type]; exact hl.2.2)] at hp
      rw [refs_of_allocated hl]
      exact slotRef_of_sub hsub hp
    · rwa [refs_update_of_ne hi] at hp
  refine h.drop he hic hfree ⟨⟨h.sound.super, h.sound.reserved,
    fun hp => h.sound.owned.mem (hrefs _ _ hp),
    fun hp hq => h.sound.owned.inj (hrefs _ _ hp) (hrefs _ _ hq)⟩, .refl _, fun _ _ _ => rfl,
    fun p b hp => h.below p b (hrefs p b hp), fun i s b hs hp => ?_, fun hx => ?_⟩ hsees rfl
  · have := h.content i s b hs (hrefs _ _ hp)
    by_cases hij : i = j
    · subst hij; rw [update_self, hsub.type]; exact this
    · rw [update_of_ne hij]; exact this
  · have hino : update ino j (dino v j) = ino := by
      rw [← (h.whole hx).1 j he.onDisk, update_eq_self]
    rw [hino]
    exact ⟨rfl, (h.whole hx).2⟩

theorem extends_below (h : Coherent ru k v ino) (hext : Extends ru.region j c v ino v' d' es)
    (hwithin : ∀ ev ∈ es, Within ru.limit ev) (p : Pos) (b : Nat)
    (hp : refs v' ru.ninodes (update ino j d') p = some b) : b < ru.limit := by
  rcases hext.fresh p b hp with hp | ⟨-, -, st, hst⟩
  · exact h.below p b hp
  · exact hwithin _ hst

theorem extends_content (h : Coherent ru k v ino) (hext : Extends ru.region j c v ino v' d' es)
    (hF : ∀ f ∈ c.edits, ∀ b, ru.content (ino j).type b → ru.content (ino j).type (f b))
    (i : Nat) (s : Slot) (b : Nat) (hs : s ≠ .addr (Fin.last NDIRECT))
    (hp : refs v' ru.ninodes (update ino j d') (i, s) = some b) :
    ru.content (update ino j d' i).type (v' b) := by
  by_cases hi : i = j
  · subst hi
    have htype : d'.type = (ino i).type := by rw [hext.inode]
    rw [update_self, htype]
    exact hext.data (ru.content (ino i).type) (ru.content_zero _) hF
      (fun s a hs ha => h.content i s a hs ha) s b hs hp
  · have hold := (hext.fresh _ _ hp).resolve_right fun hf => hi hf.1
    rw [update_of_ne hi, hext.others _ _ hold hi]
    exact h.content i s b hs hold

theorem extends_mapped {i off n : Nat} (hext : Extends ru.region j c v ino v' d' es)
    (hm : Mapped ru.region i v ino off n) :
    Mapped ru.region i v' (update ino j d') off n := fun bn hbn => by
  obtain ⟨s, a, hs, ha⟩ := hm bn hbn
  exact ⟨s, a, hs, hext.keeps _ _ ha⟩

/-- The cached inode of `e` becomes `d'`, and the flat disk `v'`. -/
theorem rewrite (h : Coherent ru k v ino) (he : Stands ru.ninodes (k.icache e) j)
    (hic : k'.icache = update k.icache e { k.icache e with d := d' })
    (hsees : Sees k' v') (htype : d'.type = (ino j).type) (hr : Replaces ru v v' ino j d') :
    Coherent ru k' v' (update ino j d') := by
  have hent : k'.icache e = { k.icache e with d := d' } := by rw [hic, update_self]
  have hne : ∀ f, f ≠ e → k'.icache f = k.icache f := fun f hf => by
    rw [hic, update_of_ne hf]
  have hsame : ∀ f, (k'.icache f).ref = (k.icache f).ref ∧
      (k'.icache f).dev = (k.icache f).dev ∧ (k'.icache f).inum = (k.icache f).inum ∧
      (k'.icache f).valid = (k.icache f).valid := fun f => by
    by_cases hf : f = e
    · subst hf; rw [hent]; exact ⟨rfl, rfl, rfl, rfl⟩
    · rw [hne f hf]; exact ⟨rfl, rfl, rfl, rfl⟩
  have hstands : ∀ f i, Stands ru.ninodes (k'.icache f) i ↔
      Stands ru.ninodes (k.icache f) i := fun f i => by
    obtain ⟨h1, -, h3, h4⟩ := hsame f
    constructor
    · exact fun ⟨a, b, c, d⟩ => ⟨h1 ▸ a, h4 ▸ b, h3 ▸ c, d⟩
    · exact fun ⟨a, b, c, d⟩ => ⟨h1 ▸ a, h4 ▸ b, h3 ▸ c, d⟩
  refine h.replace hr hsees ?_ ?_ ?_ (fun f i _ hf => (hstands f i).mpr hf)
    (.inl ⟨e, (hstands e j).mpr he⟩)
  · intro f hf
    rw [(hsame f).1] at hf
    rw [(hsame f).2.1]
    exact h.root f hf
  · intro f g hf hg heq
    rw [(hsame f).1] at hf
    rw [(hsame g).1] at hg
    rw [(hsame f).2.2.1, (hsame g).2.2.1] at heq
    exact h.unique f g hf hg heq
  · intro f i hf
    rw [hstands] at hf
    by_cases hi : i = j
    · subst hi
      obtain rfl : f = e := h.unique f e hf.ref he.ref (hf.inum.trans he.inum.symm)
      rw [update_self, hent]
      exact ⟨rfl, by rw [htype]; exact (h.entry f i hf).2⟩
    · have hfe : f ≠ e := fun heq => hi (by rw [← hf.inum, heq, he.inum])
      rw [update_of_ne hi, hne f hfe]
      exact h.entry f i hf

/-- A file grows without being written back. -/
theorem grows (h : Coherent ru k v ino) (he : Stands ru.ninodes (k.icache e) j)
    (hw : Works k k' e v') (hext : Extends ru.region j c v ino v' (k'.icache e).d es)
    (hwithin : ∀ ev ∈ es, Within ru.limit ev)
    (hF : ∀ f ∈ c.edits, ∀ b, ru.content (ino j).type b → ru.content (ino j).type (f b))
    (hsame : ru.exact → (k'.icache e).d = (k.icache e).d) :
    Coherent ru k' v' (update ino j (k'.icache e).d) := by
  have hd := (h.entry e j he).1
  refine h.rewrite he hw.icache hw.sees (by rw [hext.inode]) ⟨hext.sound, ?_,
    fun i hi _ => hext.dino hi, h.extends_below hext hwithin, h.extends_content hext hF, ?_⟩
  · rw [hext.dino he.onDisk]
    have hsub := h.disk j he.onDisk
    refine ⟨?_, fun i => ?_⟩
    · rw [hsub.fields, hext.inode]
    · -- an address that the inode had is kept
      by_cases hzero : (dino v j).addrs i = 0
      · exact .inl hzero
      · have heq := (hsub.addrs i).resolve_left hzero
        have href : refs v ru.ninodes ino (j, .addr i) =
            some ((ino j).addrs i).toNat := by
          rw [refs_of_allocated (h.allocated he)]
          exact ptr_of_ne (heq ▸ hzero)
        have hkeep := (refs_eq_some (hext.keeps _ _ href)).2
        rw [show (j, Slot.addr i).1 = j from rfl, update_self] at hkeep
        exact .inr (heq.trans (BitVec.eq_of_toNat_eq (ptr_eq_some hkeep).2.symm))
  · intro hx
    obtain ⟨h1, h2, h3⟩ := h.whole hx
    have hino : update ino j (k'.icache e).d = ino := by
      rw [hsame hx, ← hd, update_eq_self]
    refine ⟨?_, h2.steps hext.steps, fun i hi => ?_⟩
    · rw [hext.dino he.onDisk, ← h1 j he.onDisk, hsame hx, hd]
    · have := extends_mapped hext (h3 i (by rwa [hino] at hi))
      rw [hino] at this ⊢
      exact this

/-- A file grows, some fields of its inode are set, and the inode is written back. -/
theorem written (h : Coherent ru k v ino) (he : Stands ru.ninodes (k.icache e) j)
    (hic : k'.icache = update k.icache e { k.icache e with d := d2 })
    (hsees : Sees k' (writeInode v1 j d2)) (hext : Extends ru.region j c v ino v1 d1 es)
    (hwithin : ∀ ev ∈ es, Within ru.limit ev)
    (hF : ∀ f ∈ c.edits, ∀ b, ru.content (ino j).type b → ru.content (ino j).type (f b))
    (htype : d2.type = d1.type) (haddrs : d2.addrs = d1.addrs)
    (hmapped : ru.exact → Mapped ru.region j v1 (update ino j d1) 0 d2.size.toNat) :
    Coherent ru k' (writeInode v1 j d2) (update ino j d2) := by
  have hl := h.allocated he
  have htype1 : d1.type = (ino j).type := by rw [hext.inode]
  -- the new fields are none that references look at
  have hrefs1 : refs v1 ru.ninodes (update ino j d2) =
      refs v1 ru.ninodes (update ino j d1) := by
    have : refs v1 ru.ninodes (update (update ino j d1) j d2) =
        refs v1 ru.ninodes (update ino j d1) := refs_update_congr fun s => by
        rw [update_idem, refs_update_self hl (by rw [htype, htype1]; exact hl.2.2),
          refs_update_self hl (by rw [htype1]; exact hl.2.2)]
        cases s <;> simp only [slotRef, haddrs]
    rwa [update_idem] at this
  have hsound1 : Sound ru.region v1 (update ino j d2) := hext.sound.of_refs hrefs1
  have hheap := hsound1.heap_writeInode (d := d2) he.onDisk
  have hrefs : refs (writeInode v1 j d2) ru.ninodes (update ino j d2) =
      refs v1 ru.ninodes (update ino j d1) :=
    (congrArg Heap.ref hheap).trans hrefs1
  refine h.rewrite he hic hsees (htype.trans htype1)
    ⟨hsound1.writeInode he.onDisk, ?_, ?_, ?_, ?_, ?_⟩
  · rw [dino_writeInode_self]; exact .refl d2
  · intro i hi hij
    rw [dino_writeInode_of_ne hij, hext.dino hi]
  · intro p b hp
    rw [hrefs] at hp
    exact h.extends_below hext hwithin p b hp
  · intro i s b hs hp
    rw [hrefs] at hp
    have hlo := (hext.sound.lo_le hp).1
    have hib := ru.region.iblock_lt he.onDisk.2
    have hb : writeInode v1 j d2 b = v1 b := update_of_ne (by omega) ..
    have := h.extends_content hext hF i s b hs hp
    rw [hb]
    by_cases hi : i = j
    · subst hi; rw [update_self] at this ⊢; rw [htype]; exact this
    · rw [update_of_ne hi] at this ⊢; exact this
  · intro hx
    obtain ⟨h1, h2, h3⟩ := h.whole hx
    refine ⟨dino_writeInode_self, ?_, fun i hi => ?_⟩
    · have : ru.region.heap (writeInode v1 j d2) (update ino j d2) =
          ru.region.heap v1 (update ino j d1) := hheap.trans (Heap.ext rfl hrefs1)
      rw [this]
      exact h2.steps hext.steps
    · unfold Mapped
      rw [hrefs]
      by_cases hij : i = j
      · subst hij; rw [update_self]; exact hmapped hx
      · rw [update_of_ne hij]
        exact extends_mapped hext (h3 i (allocated_of_update hij hi))

/-- A file has given back all its blocks, and its inode is free. -/
theorem freed {d3 : Dinode} (h : Coherent ru k v ino)
    (he : Stands ru.ninodes (k.icache e) j)
    (hic : k'.icache = update k.icache e ip) (hfree : ¬ 0 < ip.ref)
    (hsees : Sees k' (writeInode (writeInode v1 j d2) j d3))
    (htrim : Trims ru.region j v ino v1 d1) (h1 : d1.addrs = fun _ => 0) (h3 : d3.type = 0) :
    Coherent ru k' (writeInode (writeInode v1 j d2) j d3) (update ino j d3) := by
  have hl := h.allocated he
  have hl1 := htrim.allocated hl
  have hnone3 : ¬ Allocated ru.ninodes (update ino j d3) j := fun hal =>
    hal.2.2 (by rw [update_self]; exact h3)
  -- a truncated inode has no references, and neither has a free one
  have hrefs1 : refs v1 ru.ninodes (update ino j d3) =
      refs v1 ru.ninodes (update ino j d1) := by
    have : refs v1 ru.ninodes (update (update ino j d1) j d3) =
        refs v1 ru.ninodes (update ino j d1) := refs_update_congr fun s => by
        rw [update_idem, refs, if_neg hnone3, refs_of_allocated hl1, update_self]
        cases s <;> simp [slotRef, h1, ptr]
    rwa [update_idem] at this
  have hsound1 : Sound ru.region v1 (update ino j d3) := htrim.sound.of_refs hrefs1
  have hsound2 := hsound1.writeInode (d := d2) he.onDisk
  have hheap : ru.region.heap (writeInode (writeInode v1 j d2) j d3) (update ino j d3) =
      ru.region.heap v1 (update ino j d1) := by
    rw [hsound2.heap_writeInode he.onDisk, hsound1.heap_writeInode he.onDisk]
    exact Heap.ext rfl hrefs1
  have hrefs : refs (writeInode (writeInode v1 j d2) j d3) ru.ninodes
      (update ino j d3) = refs v1 ru.ninodes (update ino j d1) :=
    congrArg Heap.ref hheap
  -- the references that are left are those of other inodes
  have hold : ∀ {i s b}, refs v1 ru.ninodes (update ino j d1) (i, s) = some b →
      i ≠ j ∧ refs v ru.ninodes ino (i, s) = some b := by
    intro i s b hp
    have hij : i ≠ j := by
      rintro rfl
      rw [← hrefs1, refs, if_neg hnone3] at hp
      cases hp
    rw [refs_update_of_ne hij, htrim.bits.refs_eq h.sound] at hp
    exact ⟨hij, hp⟩
  have hdino : ∀ i, OnDisk ru.ninodes i → i ≠ j →
      dino (writeInode (writeInode v1 j d2) j d3) i = dino v i := fun i hi hij => by
    rw [dino_writeInode_of_ne hij, dino_writeInode_of_ne hij]
    exact dino_congr (htrim.bits.metadata _ fun _ _ => bblock_ne_iblock hi)
  refine h.drop he hic hfree ⟨hsound2.writeInode he.onDisk, ?_, hdino, fun p b hp => ?_,
    fun i s b hs hp => ?_, fun hx => ⟨dino_writeInode_self, ?_, fun i hi => ?_⟩⟩ hsees
    dino_writeInode_self.symm
  · rw [dino_writeInode_self]; exact .refl _
  · rw [hrefs] at hp
    exact h.below p b (hold hp).2
  · rw [hrefs] at hp
    obtain ⟨hij, hp⟩ := hold hp
    have hlo := (h.sound.lo_le hp).1
    have hib := ru.region.iblock_lt he.onDisk.2
    have hb : writeInode (writeInode v1 j d2) j d3 b = v b := by
      rw [writeInode, update_of_ne (by omega), writeInode,
        update_of_ne (by omega)]
      exact htrim.bits.blocks b hlo
    rw [hb, update_of_ne hij]
    exact h.content i s b hs hp
  · rw [hheap]
    exact (h.whole hx).2.1.steps htrim.steps
  · have hij : i ≠ j := by
      rintro rfl
      exact hnone3 hi
    intro bn hbn
    rw [update_of_ne hij] at hbn
    obtain ⟨s, a, hs, ha⟩ := (h.whole hx).2.2 i (allocated_of_update hij hi) bn hbn
    refine ⟨s, a, hs, ?_⟩
    rw [hrefs, refs_update_of_ne hij, htrim.bits.refs_eq h.sound]
    exact ha

/-- A free inode of the disk becomes an empty file. -/
theorem created {t : BitVec 16} (h : Coherent ru k v ino) (hj : OnDisk ru.ninodes j)
    (hfree : (dino v j).type = 0) (hic : k'.icache = k.icache)
    (hsees : Sees k' (writeInode v j { Dinode.zero with type := t })) :
    Coherent ru k' (writeInode v j { Dinode.zero with type := t })
      (update ino j { Dinode.zero with type := t }) := by
  have htype : (ino j).type = 0 := by rw [← (h.disk j hj).type]; exact hfree
  have hnot : ¬ Allocated ru.ninodes ino j := fun hal => hal.2.2 htype
  have hnone : ∀ e, ¬ Stands ru.ninodes (k.icache e) j := fun e he =>
    (h.entry e j he).2 htype
  -- neither a free inode nor an empty file has references
  have hempty : ∀ s, refs v ru.ninodes
      (update ino j { Dinode.zero with type := t }) (j, s) = none := fun s => by
    unfold refs
    split
    · simp only [update_self]
      cases s <;> simp [slotRef, ptr, Dinode.zero]
    · rfl
  have hrefs1 : refs v ru.ninodes
      (update ino j { Dinode.zero with type := t }) = refs v ru.ninodes ino :=
    refs_update_congr fun s => by rw [hempty s, refs, if_neg hnot]
  have hsound1 := h.sound.of_refs hrefs1
  have hheap : ru.region.heap (writeInode v j { Dinode.zero with type := t })
      (update ino j { Dinode.zero with type := t }) = ru.region.heap v ino :=
    (hsound1.heap_writeInode hj).trans (Heap.ext rfl hrefs1)
  have hrefs := congrArg Heap.ref hheap
  change refs _ _ _ = refs v ru.ninodes ino at hrefs
  refine h.replace ⟨hsound1.writeInode hj, ?_, fun i _ hij => dino_writeInode_of_ne hij,
    fun p b hp => ?_, fun i s b hs hp => ?_, fun hx => ⟨dino_writeInode_self, ?_, fun i hi => ?_⟩⟩
    hsees ?_ ?_ (fun f i hf => ?_) (fun f i _ hf => by rwa [hic])
    (.inr dino_writeInode_self.symm)
  · rw [dino_writeInode_self]; exact .refl _
  · rw [hrefs] at hp
    exact h.below p b hp
  · rw [hrefs] at hp
    have hij : i ≠ j := by
      rintro rfl
      rw [refs, if_neg hnot] at hp
      cases hp
    have hlo := (h.sound.lo_le hp).1
    have hib := ru.region.iblock_lt hj.2
    have hb : writeInode v j { Dinode.zero with type := t } b = v b :=
      update_of_ne (by omega) ..
    rw [hb, update_of_ne hij]
    exact h.content i s b hs hp
  · rw [hheap]; exact (h.whole hx).2.1
  · by_cases hij : i = j
    · subst hij
      rw [update_self]
      exact fun bn hbn => absurd hbn (not_touches_zero 0 bn)
    · unfold Mapped
      rw [hrefs, update_of_ne hij]
      exact (h.whole hx).2.2 i (allocated_of_update hij hi)
  · rw [hic]; exact h.root
  · rw [hic]; exact h.unique
  · rw [hic] at hf ⊢
    have hij : i ≠ j := fun heq => hnone f (heq ▸ hf)
    rw [update_of_ne hij]
    exact h.entry f i hf

end Coherent

end Kernel

end Xv6
