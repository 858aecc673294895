import Xv6.Fs.Filled
import Xv6.Fs.Vnode

/-!
# The functions of `fs.c` on a coherent file system

One lemma for each function on inodes: it keeps `Coherent`, it calls `bfree` on blocks in use only,
and it changes one entry of the inode cache in the way that the lemma says.
-/

namespace Xv6.Kernel

open Function List

open Lib Act

/-- Of the tables, only entry `e` of the inode cache changes. -/
structure Touched (k k' : Kernel) (e : Fin NINODE) : Prop where
  frame : k' = { k with
    store := k'.store
    log := k'.log
    icache := update k.icache e (k'.icache e)
    currentInode := k'.currentInode
    tick := k'.tick }
  log : k'.log = { k.log with lh := k'.log.lh }

section

variable {ru : Rules} {k k' l : Kernel} {v v' : Nat → Block} {ino ino' : Nat → Dinode}
  {e : Fin NINODE} {j : Nat}

theorem Touched.icache (h : Touched k k' e) :
    k'.icache = update k.icache e (k'.icache e) := congrArg Kernel.icache h.frame

theorem Touched.trans (h : Touched k l e) (h' : Touched l k' e) : Touched k k' e := by
  refine ⟨?_, by rw [h'.log, h.log]⟩
  rw [h'.frame, h.frame]
  simp only [update_idem, update_self]

theorem Works.touched (h : Works k k' e v) : Touched k k' e := by
  refine ⟨?_, h.log⟩
  have hcur : k'.currentInode = k.currentInode := by rw [h.frame]
  have htick : k'.tick = k.tick := by rw [h.frame]
  rw [hcur, htick, h.entry]
  exact h.frame

theorem Goes.touched (h : Goes k k' v) (e : Fin NINODE) : Touched k k' e := (h.works e).touched

theorem Touched.set (ip : Inode) :
    Touched k { k with icache := update k.icache e ip } e :=
  ⟨by simp, rfl⟩

theorem Sees.set_icache (h : Sees k v) (ic : Icache) : Sees { k with icache := ic } v := h

/-! ## References and locks -/

variable {inum n off size dev : Nat} {r : Region} {src : Nat → UInt8} {d' : Dinode}
    {type : BitVec 16}

theorem iget_ends (h : Coherent ru k v ino) :
    Ends (iget ROOTDEV inum) k (fun e k' es => Coherent ru k' v ino ∧ es = [] ∧
      k' = { k with icache := k'.icache } ∧
      Xv6.iget k.icache ROOTDEV inum = some (e, k'.icache)) Benign := by
  apply ends_get_bind
  cases hget : Xv6.iget k.icache ROOTDEV inum with
  | none => exact ends_panic (by unfold Benign; decide)
  | some p =>
    obtain ⟨e, ic⟩ := p
    refine ends_modify_bind (ends_pure ⟨?_, rfl, rfl, rfl⟩)
    rcases iget_eq_some hget with ⟨href, -, -, rfl⟩ | ⟨hnone, href, rfl⟩
    · exact h.set_ref rfl (h.sees.set_icache _) href (by omega)
    · refine h.set_entry rfl (h.sees.set_icache _) (fun _ => rfl) (fun _ f _ hf heq => ?_) ?_ ?_
      · exact hnone f ⟨hf, h.root f hf, heq⟩
      · exact fun j hj => absurd hj.valid (by simp)
      · exact fun j hj => absurd hj.ref (by rw [href]; simp)

theorem idup_ends (h : Coherent ru k v ino) (href : 0 < (k.icache e).ref) :
    Ends (idup e) k (fun f k' es => Coherent ru k' v ino ∧ es = [] ∧ f = e ∧
      k' = { k with
        icache := update k.icache e { k.icache e with ref := (k.icache e).ref + 1 } })
      Benign := by
  apply setInode_ends.bind
  rintro _ k1 _ ⟨hk1, rfl⟩
  refine ends_pure ⟨?_, rfl, rfl, hk1⟩
  exact h.set_ref (by rw [hk1]) (by rw [hk1]; exact h.sees) href
    (by omega)

theorem ilock_ends (h : Coherent ru k v ino) :
    Ends (ilock e) k (fun _ k' es => Coherent ru k' v ino ∧ es = [] ∧ Touched k k' e ∧
      0 < (k.icache e).ref ∧ (k.icache e).busy = false ∧
      k'.icache e = { k.icache e with busy := true, valid := true, d := (k'.icache e).d } ∧
      ((k.icache e).valid = true → k'.icache e = { k.icache e with busy := true })) Benign := by
  apply ends_inode_bind
  by_cases href : (k.icache e).ref < 1
  · rw [if_pos href]; exact ends_panic (by unfold Benign; decide)
  rw [if_neg href]
  have hpos : 0 < (k.icache e).ref := by omega
  by_cases hbusy : (k.icache e).busy = true
  · rw [if_pos hbusy]
    exact (show Benign .sleep by unfold Benign; decide)
  rw [if_neg hbusy]
  have hfree : (k.icache e).busy = false := by simpa using hbusy
  apply setInode_ends.bind
  rintro _ k1 _ ⟨hk1, rfl⟩
  have hent1 : k1.icache e = { k.icache e with busy := true } := by rw [hk1]; simp
  have htouch1 : Touched k k1 e := by rw [hk1]; exact .set _
  have hsees1 : Sees k1 v := by rw [hk1]; exact h.sees
  by_cases hvalid : (k.icache e).valid = true
  · rw [if_pos hvalid]
    refine ends_pure ⟨?_, rfl, htouch1, hpos, hfree, ?_, fun _ => hent1⟩
    · exact h.set_ref (by rw [hk1]) hsees1 hpos hpos
    · rw [hent1, ← hvalid]
  · rw [if_neg hvalid]
    apply ends_inode_bind
    apply (bread_ends hsees1).bind
    rintro bp k2 _ ⟨-, hh, rfl⟩
    apply ends_data_bind
    rw [hh.data]
    apply setInode_ends.bind
    rintro _ k3 _ ⟨hk3, rfl⟩
    have hc : Caches k3.store bp (iblock (k1.icache e).inum) := by
      rw [hk3]; exact hh.handed.caches
    apply (brelse_ends (show Sees k3 v by rw [hk3]; exact hh.sees) hc).bind
    rintro _ k4 _ ⟨hf4, hsees4, -, rfl⟩
    apply setInode_ends.bind
    rintro _ k5 _ ⟨hk5, rfl⟩
    apply ends_inode_bind
    have hent2 : k2.icache = k1.icache := by rw [hh.frame]
    have hent4 : k4.icache = update k1.icache e { k1.icache e with
        d := getDinode (v (iblock (k1.icache e).inum)) ((k1.icache e).inum % IPB) } := by
      rw [hf4, hk3, hent2]
    have hent5 : k5.icache e = { k.icache e with
        busy := true, valid := true, d := dino v (k.icache e).inum } := by
      rw [hk5]
      simp only [hent4, update_self, hent1, dino]
    by_cases htype : (k5.icache e).d.type = 0
    · rw [if_pos htype]; exact ends_panic (by unfold Benign; decide)
    rw [if_neg htype]
    rw [hent5] at htype
    have hsees5 : Sees k5 v := by rw [hk5]; exact hsees4
    have htouch : Touched k k5 e := by
      have h12 : Touched k1 k2 e := by
        rw [hh.frame]; exact ⟨by simp, rfl⟩
      have h23 : Touched k2 k3 e := by rw [hk3]; exact .set _
      have h34 : Touched k3 k4 e := by rw [hf4]; exact ⟨by simp, rfl⟩
      have h45 : Touched k4 k5 e := by rw [hk5]; exact .set _
      exact (((htouch1.trans h12).trans h23).trans h34).trans h45
    refine ends_pure ⟨?_, rfl, htouch, hpos, hfree, by rw [hent5],
      fun hv => absurd hv hvalid⟩
    have hic : k5.icache = update k.icache e { k.icache e with
        busy := true, valid := true, d := dino v (k.icache e).inum } := by
      rw [htouch.icache, hent5]
    refine h.set_entry hic hsees5 (fun _ => h.root e hpos)
      (fun _ f hf hr heq => hf (h.unique f e hr hpos heq)) ?_ ?_
    · -- no other entry stands for the inode, so the disk has it as it is
      intro j hj
      have hnone : ∀ f, ¬ Stands ru.ninodes (k.icache f) j := fun f hf => by
        have hfe : f = e := h.unique f e hf.ref hpos (hf.inum.trans hj.inum.symm)
        exact hvalid (hfe ▸ hf.valid)
      obtain rfl : (k.icache e).inum = j := hj.inum
      rw [h.loose _ hj.onDisk hnone]
      exact ⟨rfl, htype⟩
    · exact fun j hj => absurd hj.valid hvalid

theorem iunlock_ends (h : Coherent ru k v ino) :
    Ends (iunlock e) k (fun _ k' es => Coherent ru k' v ino ∧ es = [] ∧
      k' = { k with icache := update k.icache e { k.icache e with busy := false } } ∧
      0 < (k.icache e).ref ∧ (k.icache e).busy = true) Benign := by
  apply ends_inode_bind
  by_cases hbad : (k.icache e).busy = false ∨ (k.icache e).ref < 1
  · rw [if_pos hbad]; exact ends_panic (by unfold Benign; decide)
  rw [if_neg hbad]
  have hpos : 0 < (k.icache e).ref := by
    have := fun h => hbad (.inr h)
    omega
  have hbusy : (k.icache e).busy = true := by
    have := fun h => hbad (.inl h)
    simpa using this
  apply setInode_ends.mono
  rintro _ k1 _ ⟨hk1, rfl⟩
  refine ⟨?_, rfl, hk1, hpos, hbusy⟩
  exact h.set_ref (by rw [hk1]) (by rw [hk1]; exact h.sees) hpos hpos

/-- What the disk does not know of an inode lies behind the end of the file. -/
theorem Coherent.nodes_forget (h : Coherent ru k v ino) (hf : Filled ru.region v)
    (he : Stands ru.ninodes (k.icache e) j) (i : Nat) :
    (nodes v ru.ninodes ino i).Like
      (nodes v ru.ninodes (update ino j (dino v j)) i) := by
  have hsub := h.disk j he.onDisk
  have hl := h.allocated he
  have htype : (dino v j).type ≠ 0 := by
    rw [hsub.type]
    exact hl.2.2
  by_cases hij : i = j
  · subst hij
    have hl' : Allocated ru.ninodes (update ino i (dino v i)) i :=
      ⟨hl.1, hl.2.1, by rw [update_self]; exact htype⟩
    rw [nodes_of_allocated hl, nodes_of_allocated hl', update_self]
    refine ⟨by rw [hsub.fields]; rfl, fun o ho => ?_⟩
    have hsize : (dino v i).size = (ino i).size := by rw [hsub.fields]
    have ho' : o < (ino i).size.toNat := ho
    have hblock := Nat.div_mul_le_self o BSIZE
    obtain ⟨s, a, hs, ha⟩ := hf i ⟨hl.1, hl.2.1, htype⟩ (o / BSIZE)
      ⟨by rw [hsize]; omega, by simp, by rw [hsize]; omega⟩
    rw [refs_of_allocated ⟨hl.1, hl.2.1, htype⟩] at ha
    have hnew : refs v ru.ninodes (update ino i (dino v i)) (i, s) = some a := by
      rw [refs_update_self hl htype]
      exact ha
    have hold : refs v ru.ninodes ino (i, s) = some a := by
      rw [refs_of_allocated hl]
      exact slotRef_of_sub hsub ha
    exact (byteAt_of_ref hs hnew).trans (byteAt_of_ref hs hold).symm
  · rw [nodes_update (j := j) (fun p hp => refs_update_of_ne hp) (fun _ _ _ _ => rfl)
      (fun x hx => update_of_ne hx ..), update_of_ne hij]
    exact .refl _

/-- `iput` drops a reference, and frees the inode with its blocks when it was the last one to a
file without links. -/
theorem iput_ends (h : Coherent ru k v ino) (href : 0 < (k.icache e).ref)
    (hon : (k.icache e).valid = true → (k.icache e).d.nlink = 0 →
      OnDisk ru.ninodes (k.icache e).inum) :
    Ends (iput e) k (fun _ k' es => (∃ v' ino', Coherent ru k' v' ino' ∧
      (Filled ru.region v → Filled ru.region v') ∧ Touched k k' e ∧
      (k'.icache e = { k.icache e with ref := (k.icache e).ref - 1 } ∧
        ¬ ((k.icache e).ref = 1 ∧ (k.icache e).valid = true ∧ (k.icache e).d.nlink = 0) ∧
        (ru.exact → nodes v' ru.ninodes ino' = nodes v ru.ninodes ino) ∧
        (Filled ru.region v → ∀ i, (nodes v ru.ninodes ino i).Like
          (nodes v' ru.ninodes ino' i)) ∨
      ((k.icache e).ref = 1 ∧ (k.icache e).valid = true ∧ (k.icache e).d.nlink = 0) ∧
        (k.icache e).busy = false ∧ (k'.icache e).ref = 0 ∧ (k'.icache e).busy = false ∧
        (k'.icache e).valid = false ∧ nodes v' ru.ninodes ino' =
          update (nodes v ru.ninodes ino) (k.icache e).inum .free)) ∧
      ∀ ev ∈ es, Quiet ru.region ev) Benign := by
  apply ends_inode_bind
  by_cases hlast : (k.icache e).ref = 1 ∧ (k.icache e).valid = true ∧ (k.icache e).d.nlink = 0
  · rw [if_pos hlast]
    obtain ⟨hone, hvalid, hnlink⟩ := hlast
    by_cases hbusy : (k.icache e).busy = true
    · rw [if_pos hbusy]; exact ends_panic (by unfold Benign; decide)
    rw [if_neg hbusy]
    have hst : Stands ru.ninodes (k.icache e) (k.icache e).inum :=
      ⟨href, hvalid, rfl, hon hvalid hnlink⟩
    apply setInode_ends.bind
    rintro _ k1 _ ⟨hk1, rfl⟩
    have hent1 : k1.icache e = { k.icache e with busy := true } := by rw [hk1]; simp
    have htouch1 : Touched k k1 e := by rw [hk1]; exact .set _
    have hsees1 : Sees k1 v := by rw [hk1]; exact h.sees
    have hd := (h.entry e _ hst).1
    apply (itrunc_ends hsees1 h.sound (by rw [hent1]) (h.allocated hst)
      (by rw [hent1]; exact hd)).bind
    rintro _ k2 es2 ⟨⟨v2, hw2, htrim, hd2⟩, hquiet⟩
    apply (setDinode_ends hw2.sees).bind
    rintro _ k3 _ ⟨hw3, hd3, rfl⟩
    have hinum3 : (k3.icache e).inum = (k.icache e).inum := by rw [hw3.inum, hw2.inum, hent1]
    apply (iupdate_ends hw3.sees).bind
    rintro _ k4 _ ⟨hgo4, rfl⟩
    rw [hinum3] at hgo4 ⊢
    apply setInode_ends.bind
    rintro _ k5 _ ⟨hk5, rfl⟩
    apply setInode_ends.mono
    rintro _ k6 _ ⟨hk6, rfl⟩
    have hent3 : k3.icache e = { k.icache e with busy := true, d := (k3.icache e).d } := by
      rw [hw3.entry, hw2.entry, hent1]
    have hent6 : k6.icache e = { k.icache e with
        ref := (k.icache e).ref - 1, busy := false, valid := false, d := (k3.icache e).d } := by
      rw [hk6, hk5]
      simp only [update_self, hgo4.icache]
      rw [hent3]
    have htouch : Touched k k6 e := by
      have h45 : Touched k4 k5 e := by rw [hk5]; exact .set _
      have h56 : Touched k5 k6 e := by rw [hk6]; exact .set _
      exact ((((htouch1.trans hw2.touched).trans hw3.touched).trans (hgo4.touched e)).trans
        h45).trans h56
    have hsees6 : Sees k6 (writeInode (writeInode v2 (k.icache e).inum (k2.icache e).d)
        (k.icache e).inum (k3.icache e).d) := by
      rw [hk6, hk5]; exact hgo4.sees
    refine ⟨⟨_, _, h.freed hst htouch.icache ?_ hsees6 htrim rfl (by rw [hd3]),
      fun hf => h.filled_freed hf hst.onDisk htrim (by rw [hd3]), htouch,
      .inr ⟨⟨hone, hvalid, hnlink⟩, by simpa using hbusy, ?_, ?_, ?_,
        h.nodes_freed hst htrim (by rw [hd3])⟩⟩, ?_⟩
    · rw [hent6, hone]; simp
    · rw [hent6, hone]; rfl
    · rw [hent6]
    · rw [hent6]
    · intro ev hev
      simp only [nil_append, append_nil, mem_append, mem_cons,
        not_mem_nil, or_false] at hev
      rcases hev with hev | rfl | rfl
      · exact hquiet ev hev
      · trivial
      · exact ru.region.iblock_lt hst.onDisk.2
  · rw [if_neg hlast]
    apply setInode_ends.mono
    rintro _ k1 _ ⟨hk1, rfl⟩
    have hsees1 : Sees k1 v := by rw [hk1]; exact h.sees
    have htouch : Touched k k1 e := by rw [hk1]; exact .set _
    have hent1 : k1.icache e = { k.icache e with ref := (k.icache e).ref - 1 } := by rw [hk1]; simp
    suffices hc : ∃ ino', Coherent ru k1 v ino' ∧
        (ru.exact → nodes v ru.ninodes ino' = nodes v ru.ninodes ino) ∧
        (Filled ru.region v → ∀ i, (nodes v ru.ninodes ino i).Like
          (nodes v ru.ninodes ino' i)) by
      obtain ⟨ino', hc, hsame⟩ := hc
      exact ⟨⟨v, ino', hc, id, htouch, .inl ⟨hent1, hlast, hsame⟩⟩, by simp⟩
    by_cases hone : (k.icache e).ref = 1
    · by_cases hst : Stands ru.ninodes (k.icache e) (k.icache e).inum
      · refine ⟨_, h.forget hst (by rw [hk1]) hsees1 (by rw [hone]; simp), fun hx => ?_,
          fun hf => h.nodes_forget hf hst⟩
        rw [← (h.whole hx).1 _ hst.onDisk, update_eq_self]
      · refine ⟨_, h.set_entry (by rw [hk1]) hsees1 ?_ ?_ ?_ ?_, fun _ => rfl, fun _ _ => .refl _⟩
        · intro hp; simp [hone] at hp
        · intro hp; simp [hone] at hp
        · intro j hj; have := hj.ref; simp [hone] at this
        · intro j hj
          exact absurd (hj.inum ▸ hj) hst
    · exact ⟨_, h.set_ref (by rw [hk1]) hsees1 href (by omega), fun _ => rfl, fun _ _ => .refl _⟩

/-! ## Devices -/

/-- A device call leaves the file system and the inode cache alone. -/
abbrev DevKeeps (ru : Rules) (v : Nat → Block) (ino : Nat → Dinode) (e : Fin NINODE) (k k' : Kernel)
    (es : List FsEvent) : Prop :=
  Coherent ru k' v ino ∧ Touched k k' e ∧ k'.icache = k.icache ∧ es = []

theorem tickOnce_ends (h : Coherent ru k v ino) (e : Fin NINODE) :
    Ends tickOnce k (fun _ => DevKeeps ru v ino e k) Benign := by
  refine ends_get_bind (ends_modify_bind (ends_pure ⟨h.congr rfl h.sees, ⟨?_, rfl⟩, rfl, rfl⟩))
  simp

/-- A device function lets its inode go and takes it back. -/
theorem relocked {k1 k2 k3 : Kernel} (hvalid : (k.icache e).valid = true)
    (hbusy : (k.icache e).busy = true)
    (hk1 : k1 = { k with icache := update k.icache e { k.icache e with busy := false } })
    (ht2 : Touched k1 k2 e) (hic2 : k2.icache = k1.icache) (ht3 : Touched k2 k3 e)
    (hent : (k2.icache e).valid = true → k3.icache e = { k2.icache e with busy := true }) :
    Touched k k3 e ∧ k3.icache = k.icache := by
  have ht1 : Touched k k1 e := by rw [hk1]; exact .set _
  have ht := (ht1.trans ht2).trans ht3
  have hent1 : k1.icache e = { k.icache e with busy := false } := by rw [hk1]; simp
  have hent3 : k3.icache e = k.icache e := by
    rw [hent (by rw [hic2, hent1]; exact hvalid), hic2, hent1, ← hbusy]
  exact ⟨ht, by rw [ht.icache, hent3, update_eq_self]⟩

theorem consoleread_ends (h : Coherent ru k v ino) (hvalid : (k.icache e).valid = true) :
    Ends (consoleread e n) k (fun _ => DevKeeps ru v ino e k) Benign := by
  apply (iunlock_ends h).bind
  rintro _ k1 _ ⟨hc1, rfl, hk1, -, hbusy⟩
  apply (tickOnce_ends hc1 e).bind
  rintro _ k2 _ ⟨hc2, ht2, hic2, rfl⟩
  apply (ilock_ends hc2).bind
  rintro _ k3 _ ⟨hc3, rfl, ht3, -, -, -, hent⟩
  obtain ⟨ht, hic⟩ := relocked hvalid hbusy hk1 ht2 hic2 ht3 hent
  exact ends_get_bind (ends_pure ⟨hc3, ht, hic, rfl⟩)

theorem consolewrite_ends (h : Coherent ru k v ino) (hvalid : (k.icache e).valid = true) :
    Ends (consolewrite e n) k (fun _ => DevKeeps ru v ino e k) Benign := by
  apply (iunlock_ends h).bind
  rintro _ k1 _ ⟨hc1, rfl, hk1, -, hbusy⟩
  apply (ilock_ends hc1).bind
  rintro _ k3 _ ⟨hc3, rfl, ht3, -, -, -, hent⟩
  obtain ⟨ht, hic⟩ := relocked hvalid hbusy hk1 ((Goes.refl hc1.sees).touched e) rfl ht3 hent
  exact ends_pure ⟨hc3, ht, hic, rfl⟩

theorem procfsread_ends (h : Coherent ru k v ino) (e : Fin NINODE) :
    Ends (procfsread inum off n) k (fun _ => DevKeeps ru v ino e k) Benign := by
  have hundef : Benign .undefined := by unfold Benign; decide
  refine Ends.bind (R := fun _ => DevKeeps ru v ino e k) (ends_modify ?_) ?_
  · by_cases hp : command inum = .proc
    · rw [if_pos hp]
      exact ⟨h.congr rfl h.sees, ⟨by simp, rfl⟩, rfl, rfl⟩
    · rw [if_neg hp]
      exact ⟨h, (Goes.refl h.sees).touched e, rfl, rfl⟩
  rintro _ k1 _ ⟨hc1, ht1, hic1, rfl⟩
  apply ends_get_bind
  cases procfsContent k1 inum with
  | none => exact hundef
  | some content =>
    dsimp only
    split
    · exact hundef
    · apply (tickOnce_ends hc1 e).bind
      rintro _ k2 _ ⟨hc2, ht2, hic2, rfl⟩
      exact ends_pure ⟨hc2, ht1.trans ht2, hic2.trans hic1, rfl⟩

theorem devRead_ends (h : Coherent ru k v ino) (hvalid : (k.icache e).valid = true) :
    Ends (devRead e off n) k (fun _ => DevKeeps ru v ino e k) Benign := by
  apply ends_inode_bind
  split_ifs
  · exact consoleread_ends h hvalid
  · exact procfsread_ends h e
  · exact ends_pure ⟨h, (Goes.refl h.sees).touched e, rfl, rfl⟩

theorem devWrite_ends (h : Coherent ru k v ino) (hvalid : (k.icache e).valid = true) :
    Ends (devWrite e n) k (fun _ => DevKeeps ru v ino e k) Benign := by
  apply ends_inode_bind
  split_ifs
  · exact consolewrite_ends h hvalid
  · exact ends_pure ⟨h, (Goes.refl h.sees).touched e, rfl, rfl⟩
  · exact ends_pure ⟨h, (Goes.refl h.sees).touched e, rfl, rfl⟩

/-! ## Reading and writing -/

theorem Mapped.mono (h : Mapped r j v ino 0 size) (hle : off + n ≤ size) :
    Mapped r j v ino off n := fun bn hbn =>
  h bn ⟨by have := hbn.1; omega, by simp, by have := hbn.2.2; omega⟩

theorem Mapped.append (h : Mapped r j v ino 0 size) (h' : Mapped r j v ino off n)
    (hle : off ≤ size) (hn : 0 < n) :
    Mapped r j v ino 0 (off + n) := by
  rintro bn ⟨-, -, hbn⟩
  by_cases hlt : off / BSIZE ≤ bn
  · exact h' bn ⟨hn, hlt, by omega⟩
  · have : bn * BSIZE < size := by simp only [BSIZE] at *; omega
    exact h bn ⟨by omega, by simp, by omega⟩

/-- `readi` on an inode with a device or a file of the disk. It returns the bytes of a file and
leaves all files as they are, and if there are no holes in it, it changes nothing but a device. -/
theorem readi_ends (h : Coherent ru k v ino) (href : 0 < (k.icache e).ref)
    (hvalid : (k.icache e).valid = true)
    (hon : (k.icache e).d.type ≠ T_DEV → OnDisk ru.ninodes (k.icache e).inum) :
    Ends (readi e off n) k (fun x k' es =>
      ((∀ ev ∈ es, Within ru.limit ev) → ∃ v' ino', Coherent ru k' v' ino' ∧
        nodes v' ru.ninodes ino' = nodes v ru.ninodes ino) ∧
      Touched k k' e ∧
      k'.icache e = { k.icache e with
        d := { (k.icache e).d with addrs := (k'.icache e).d.addrs } } ∧
      (∀ ev ∈ es, Honest ru.region ev) ∧
      ((k.icache e).d.type ≠ T_DEV →
        x = (nodes v ru.ninodes ino (k.icache e).inum).read off n) ∧
      (((k.icache e).d.type ≠ T_DEV →
          Mapped ru.region (k.icache e).inum v ino 0 (k.icache e).d.size.toNat) →
        Coherent ru k' v ino ∧ k'.icache = k.icache ∧ es = [])) Benign := by
  apply ends_inode_bind
  by_cases htype : (k.icache e).d.type = T_DEV
  · rw [if_pos htype]
    apply (devRead_ends h hvalid).mono
    rintro _ k' _ ⟨hc, ht, hic, rfl⟩
    exact ⟨fun _ => ⟨v, ino, hc, rfl⟩, ht, by rw [hic], by simp, fun hne => absurd htype hne,
      fun _ => ⟨hc, hic, rfl⟩⟩
  rw [if_neg htype]
  have hst : Stands ru.ninodes (k.icache e) (k.icache e).inum :=
    ⟨href, hvalid, rfl, hon htype⟩
  have hsize : (nodes v ru.ninodes ino (k.icache e).inum).size =
      (k.icache e).d.size.toNat := by rw [h.node hst]; rfl
  by_cases hout : (k.icache e).d.size.toNat < off ∨ 2 ^ 32 ≤ off + n
  · rw [if_pos hout]
    exact ends_pure ⟨fun _ => ⟨v, ino, h, rfl⟩, (Goes.refl h.sees).touched e, rfl, by simp,
      fun _ => by rw [Vnode.read, hsize, if_pos hout], fun _ => ⟨h, rfl, rfl⟩⟩
  rw [if_neg hout]
  have hd := (h.entry e _ hst).1
  have hl := h.allocated hst
  have hbytes : some ((List.range (min n ((k.icache e).d.size.toNat - off))).map fun i =>
        byteAt v ru.ninodes ino (k.icache e).inum (off + i)) =
      (nodes v ru.ninodes ino (k.icache e).inum).read off n := by
    rw [Vnode.read, hsize, if_neg hout, nodes_of_allocated hl]
    rfl
  by_cases hmap : Mapped ru.region (k.icache e).inum v ino 0 (k.icache e).d.size.toNat
  · -- a file without holes: nothing changes
    refine ((readiLoop_mapped_holds (r := ru.region) _ off _ le_rfl rfl h.sees hd
      (hmap.mono (by omega))).ends.weaken fun _ => BioHalt.benign).bind ?_
    rintro _ k1 _ ⟨⟨hgo, rfl⟩, rfl⟩
    have hc1 := h.congr hgo.icache hgo.sees
    exact ends_pure ⟨fun _ => ⟨v, ino, hc1, rfl⟩, hgo.touched e, by rw [hgo.icache], by simp,
      fun _ => hbytes, fun _ => ⟨hc1, hgo.icache, rfl⟩⟩
  · apply (readiLoop_ends _ off _ le_rfl rfl h.sees h.sound hl hd).bind
    rintro _ k1 es ⟨rfl, v1, hw, hext⟩
    refine ends_pure ⟨fun hwithin => ⟨v1, update ino (k.icache e).inum (k1.icache e).d, ?_,
      hext.nodes_eq hl⟩, hw.touched, ?_, ?_, fun _ => hbytes, fun hmap' => absurd (hmap' htype) hmap⟩
    · rw [append_nil] at hwithin
      refine h.grows hst hw hext hwithin (fun f hf => absurd hf (Set.notMem_empty f)) fun hx => ?_
      have hwhole := (h.whole hx).2.2 _ hl
      rw [hd] at hwhole
      exact absurd hwhole hmap
    · have hfields := hext.inode
      rw [hd] at hfields
      rw [hw.entry]
      dsimp only
      exact congrArg (fun d => { k.icache e with d := d }) hfields
    · rw [append_nil]
      exact hext.honest

/-- The result of `writei` and the files afterwards. -/
def Wrote (v : Nat → Block) (n : Nat) (ino : Nat → Dinode) (ip : Inode) (src : Nat → UInt8)
    (off m : Nat) (x : Option Nat) (v' : Nat → Block) (ino' : Nat → Dinode) : Prop :=
  if ip.d.type = T_DEV then nodes v' n ino' = nodes v n ino
  else if (nodes v n ino ip.inum).Accepts off m then x = some m ∧ nodes v' n ino' =
    update (nodes v n ino) ip.inum ((nodes v n ino ip.inum).put src off m)
  else x = none ∧ nodes v' n ino' = nodes v n ino

theorem node_put {m : Nat} {d : Dinode} {byte : Nat → UInt8} {nd : Vnode}
    (hnd : nd = d.node nd.byte) (hd : d' = { d with size := d'.size, addrs := d'.addrs })
    (hsize : d'.size.toNat = if 0 < m ∧ d.size.toNat < off + m then off + m else d.size.toNat)
    (hbyte : ∀ o, byte o = if off ≤ o ∧ o < off + m then src (o - off) else nd.byte o) :
    d'.node byte = nd.put src off m := by
  have hfun : byte = fun o => if off ≤ o ∧ o < off + m then src (o - off) else nd.byte o :=
    funext hbyte
  rw [hnd, Vnode.put, hfun]
  refine Vnode.ext ?_ ?_ ?_ ?_ hsize rfl <;> rw [hd] <;> rfl

/-- The sectors that are logged when a file is written: metadata, or blocks below the limit. -/
theorem Coherent.logged_lt {es : List FsEvent} (h : Coherent ru k v ino)
    (hext : Extends ru.region j (writeScope ru.region j v'
      (update ino j d') src off n) v ino v' d' es)
    (hwithin : ∀ ev ∈ es, Within ru.limit ev) {s : Nat} (hs : .logWrite s ∈ es) :
    s < max ru.region.lo ru.limit := by
  have hbelow : ∀ p b, refs v' ru.ninodes (update ino j d') p = some b →
      b < max ru.region.lo ru.limit := fun p b hp =>
    (h.extends_below hext hwithin p b hp).trans_le (le_max_right ..)
  rcases (hext.logs s).mp hs with ⟨b, hfresh, rfl | rfl⟩ | ⟨-, -, -, -, hs⟩ | ⟨-, t, -, -, hs⟩
  · obtain ⟨t, ht⟩ := hext.placed b hfresh
    exact (ru.region.bitmap b ((hext.sound.lo_le ht).2.1.trans_le ru.region.hi_le)).trans_le
      (le_max_left ..)
  · obtain ⟨t, ht⟩ := hext.placed s hfresh
    exact hbelow _ _ ht
  · exact hbelow _ _ hs
  · exact hbelow _ _ hs

/-- `writei` on an inode with a device or a file of the disk, if the bytes may be written there. -/
theorem writei_ends (h : Coherent ru k v ino) (href : 0 < (k.icache e).ref)
    (hvalid : (k.icache e).valid = true)
    (hon : (k.icache e).d.type ≠ T_DEV → OnDisk ru.ninodes (k.icache e).inum)
    (hF : ∀ f ∈ Splices src off n, ∀ b, ru.content (k.icache e).d.type b →
      ru.content (k.icache e).d.type (f b)) :
    Ends (writei e src off n) k (fun x k' es =>
      ((∀ ev ∈ es, Within ru.limit ev) → (∃ v' ino', Coherent ru k' v' ino' ∧
        Wrote v ru.ninodes ino (k.icache e) src off n x v' ino' ∧
        (Filled ru.region v → Filled ru.region v') ∧
        (Mapped ru.region (k.icache e).inum v ino 0 (ino (k.icache e).inum).size.toNat →
          Mapped ru.region (k.icache e).inum v' ino' 0 (ino' (k.icache e).inum).size.toNat)) ∧
        ∀ s, .logWrite s ∈ es → s < max ru.region.lo ru.limit) ∧ Touched k k' e ∧
      k'.icache e = { k.icache e with
        d := { (k.icache e).d with size := (k'.icache e).d.size, addrs := (k'.icache e).d.addrs } } ∧
      ∀ ev ∈ es, Honest ru.region ev) Benign := by
  have hnothing : Touched k k e := (Goes.refl h.sees).touched e
  by_cases htype : (k.icache e).d.type = T_DEV
  · apply ends_inode_bind
    rw [if_pos htype]
    apply (devWrite_ends h hvalid).mono
    rintro _ k' _ ⟨hc, ht, hic, rfl⟩
    exact ⟨fun _ => ⟨⟨v, ino, hc, by rw [Wrote, if_pos htype], id, id⟩, by simp⟩, ht, by rw [hic],
      by simp⟩
  have hst : Stands ru.ninodes (k.icache e) (k.icache e).inum :=
    ⟨href, hvalid, rfl, hon htype⟩
  have hnd := h.node hst
  have hsize : (nodes v ru.ninodes ino (k.icache e).inum).size =
      (k.icache e).d.size.toNat := by rw [hnd]; rfl
  have hrefuse : ¬ (nodes v ru.ninodes ino (k.icache e).inum).Accepts off n →
      Wrote v ru.ninodes ino (k.icache e) src off n none v ino := fun hno => by
    rw [Wrote, if_neg htype, if_neg hno]
    exact ⟨rfl, rfl⟩
  refine ends_writei htype (fun hout => ⟨fun _ => ⟨⟨v, ino, h, hrefuse fun hacc => ?_, id, id⟩,
    by simp⟩, hnothing, rfl, by simp⟩) fun hoff hsum hmax => ?_
  · rw [Vnode.Accepts, hsize] at hacc
    omega
  have hacc : (nodes v ru.ninodes ino (k.icache e).inum).Accepts off n :=
    ⟨hsize ▸ hoff, hsum, hmax⟩
  have hd := (h.entry e _ hst).1
  have hl := h.allocated hst
  rw [← hd] at hF
  apply (writeiLoop_ends n src off n le_rfl rfl h.sees h.sound hl
    hd).bind
  rintro _ k1 es1 ⟨v1, hw1, hext, hmap1, hstay, hbyte⟩
  have hfields := hext.inode
  rw [hd] at hfields
  have hnodes1 := hext.nodes_grown hl
  have hl1 := hext.allocated hl
  have hbyte1 : ∀ o, byteAt v1 ru.ninodes
      (update ino (k.icache e).inum (k1.icache e).d) (k.icache e).inum o =
      if off ≤ o ∧ o < off + n then src (o - off)
      else (nodes v ru.ninodes ino (k.icache e).inum).byte o := fun o => by
    rw [hbyte o, nodes_of_allocated hl]
    rfl
  refine Ends.bind (R := fun _ k2 es2 =>
    ((∀ ev ∈ es1 ++ es2, Within ru.limit ev) → (∃ v' ino', Coherent ru k2 v' ino' ∧
      nodes v' ru.ninodes ino' = update (nodes v ru.ninodes ino)
        (k.icache e).inum ((nodes v ru.ninodes ino (k.icache e).inum).put src off n) ∧
      (Filled ru.region v → Filled ru.region v') ∧
      (Mapped ru.region (k.icache e).inum v ino 0 (ino (k.icache e).inum).size.toNat →
        Mapped ru.region (k.icache e).inum v' ino' 0 (ino' (k.icache e).inum).size.toNat)) ∧
      ∀ s, .logWrite s ∈ es1 ++ es2 → s < max ru.region.lo ru.limit) ∧
    Touched k k2 e ∧ k2.icache e = { k.icache e with
      d := { (k.icache e).d with size := (k2.icache e).d.size, addrs := (k2.icache e).d.addrs } } ∧
    ∀ ev ∈ es1 ++ es2, Honest ru.region ev) ?_ fun _ k2 es2 hpost => ends_pure (by
      rw [append_nil]
      refine ⟨fun hwithin => ?_, hpost.2⟩
      obtain ⟨⟨v', ino', hc, hn, hfill⟩, hlog⟩ := hpost.1 hwithin
      exact ⟨⟨v', ino', hc, by rw [Wrote, if_neg htype, if_pos hacc]; exact ⟨rfl, hn⟩, hfill⟩, hlog⟩)
  apply ends_inode_bind
  have hsize1 : (k1.icache e).d.size = (k.icache e).d.size := by rw [hfields]
  by_cases hgrow : 0 < n ∧ (k1.icache e).d.size.toNat < off + n
  · rw [if_pos hgrow]
    apply (setDinode_ends hw1.sees).bind
    rintro _ k2 _ ⟨hw2, hd2, rfl⟩
    have hw12 := hw1.trans hw2
    apply (iupdate_ends hw2.sees).mono
    rintro _ k3 _ ⟨hgo3, rfl⟩
    have hw := hw12.trans (hgo3.works e)
    have hd3 : (k3.icache e).d = (k2.icache e).d := by rw [hgo3.icache]
    have hsize2 : (k2.icache e).d.size.toNat = off + n := by
      rw [hd2, BitVec.toNat_ofNat]
      exact Nat.mod_eq_of_lt (by omega)
    have hd2' : (k2.icache e).d = { (k.icache e).d with
        size := (k2.icache e).d.size, addrs := (k2.icache e).d.addrs } := by
      rw [hd2, hfields]
    refine ⟨fun hwithin => ⟨?_, fun s hs => ?_⟩, hw.touched, ?_, ?_⟩
    · have hsees3 := hgo3.sees
      rw [hw12.inum] at hsees3
      have hmap2 : Mapped ru.region (k.icache e).inum v ino 0
          (ino (k.icache e).inum).size.toNat → Mapped ru.region (k.icache e).inum v1
          (update ino (k.icache e).inum (k1.icache e).d) 0
          (k2.icache e).d.size.toNat := by
        intro hold
        rw [hsize2]
        exact (Coherent.extends_mapped hext hold).append hmap1 (by rw [hd]; omega) hgrow.1
      have hc3 := h.written hst
        (by rw [hw.icache, hd3]) hsees3 hext
        (fun ev hev => hwithin ev (mem_append_left _ hev)) hF (by rw [hd2]) (by rw [hd2])
        fun hx => hmap2 ((h.whole hx).2.2 _ hl)
      refine ⟨_, _, hc3, ?_, fun hf => ?_, fun hold => ?_⟩
      rotate_left
      · exact h.filled_written hf hl hext (by rw [hd2]) (hmap2 (h.mapped_of_filled hf hl))
      · have hl2 : Allocated ru.ninodes
            (update ino (k.icache e).inum (k2.icache e).d) (k.icache e).inum := by
          refine ⟨hl.1, hl.2.1, ?_⟩
          rw [update_self, hd2, hfields, ← hd]
          exact hl.2.2
        rw [update_self]
        refine hext.sound.mapped_writeInode hst.onDisk hl2 ?_ (hmap2 hold)
        rw [update_self, update_self, hd2]
      have htype2 : (k2.icache e).d.type ≠ 0 := by
        rw [hd2', ← hd]
        exact hl.2.2
      have haddrs2 : (k2.icache e).d.addrs =
          (update ino (k.icache e).inum (k1.icache e).d (k.icache e).inum).addrs := by
        rw [update_self, hd2]
      have hfields2 := nodes_setFields (v := v1) hl1 htype2 haddrs2
      rw [update_idem] at hfields2
      have hsound2 : Sound ru.region v1
          (update ino (k.icache e).inum (k2.icache e).d) := by
        apply hext.sound.of_refs
        have hrefs : ∀ s, refs v1 ru.ninodes
            (update (update ino (k.icache e).inum (k1.icache e).d)
              (k.icache e).inum (k2.icache e).d) ((k.icache e).inum, s) =
            refs v1 ru.ninodes (update ino (k.icache e).inum (k1.icache e).d)
              ((k.icache e).inum, s) := fun s => by
          rw [refs_update_self hl1 htype2, refs_of_allocated hl1]
          cases s <;> simp only [slotRef, haddrs2]
        have := refs_update_congr hrefs
        rwa [update_idem] at this
      rw [hsound2.nodes_writeInode hst.onDisk, hfields2, hnodes1, update_idem,
        update_self]
      congr 1
      refine node_put hnd hd2' ?_ hbyte1
      rw [hsize2, if_pos (by rw [← hsize1]; exact hgrow)]
    · simp only [nil_append, mem_append, mem_cons, not_mem_nil, or_false,
        reduceCtorEq, false_or, FsEvent.logWrite.injEq] at hs
      rcases hs with hs | rfl
      · exact h.logged_lt hext (fun ev hev => hwithin ev (mem_append_left _ hev)) hs
      · rw [hw12.inum]
        exact (ru.region.iblock_lt hst.onDisk.2).trans_le (le_max_left ..)
    · rw [hw.entry, hd3, hd2, hfields]
    · intro ev hev
      simp only [nil_append, mem_append, mem_cons, not_mem_nil,
        or_false] at hev
      rcases hev with hev | rfl | rfl
      · exact hext.honest ev hev
      · trivial
      · trivial
  · rw [if_neg hgrow]
    refine ends_pure ⟨fun hwithin => ⟨⟨v1, update ino (k.icache e).inum (k1.icache e).d,
      ?_, ?_, fun hf => h.filled_grown hf hl hext, fun hold => ?_⟩, fun s hs => ?_⟩, hw1.touched, ?_, ?_⟩
    · refine h.grows hst hw1 hext (fun ev hev => hwithin ev (mem_append_left _ hev)) hF ?_
      -- nothing was written behind the end, where every block was there already
      intro hx
      refine hstay fun bn hbn => ?_
      have hold := (h.whole hx).2.2 _ hl
      rw [hd] at hold
      rw [hsize1] at hgrow
      exact hold.mono (by have := hbn.1; omega) bn hbn
    · rw [hnodes1]
      congr 1
      have hself : ∀ byte, { nodes v ru.ninodes ino (k.icache e).inum with
          byte := byte } = (k.icache e).d.node byte := fun byte => by rw [hnd]; rfl
      rw [hself]
      refine node_put hnd rfl ?_ hbyte1
      rw [if_neg (by rw [← hsize1]; exact hgrow)]
    · rw [update_self, hsize1, ← hd]
      exact Coherent.extends_mapped hext hold
    · rw [append_nil] at hs
      exact h.logged_lt hext (fun ev hev => hwithin ev (mem_append_left _ hev)) hs
    · rw [hw1.entry, hfields]
    · simpa using hext.honest

/-! ## Inodes of the disk -/

/-- Setting fields of an inode other than its type, size and addresses. -/
theorem setMeta_ends {f : Dinode → Dinode} (h : Coherent ru k v ino)
    (hst : Stands ru.ninodes (k.icache e) j) (htype : ∀ d, (f d).type = d.type)
    (hsize : ∀ d, (f d).size = d.size) (haddrs : ∀ d, (f d).addrs = d.addrs) :
    Ends (setDinode e f >>= fun _ => iupdate e) k (fun _ k' es =>
      (∃ v' ino', Coherent ru k' v' ino' ∧ nodes v' ru.ninodes ino' =
        update (nodes v ru.ninodes ino) j
          ((f (k.icache e).d).node (nodes v ru.ninodes ino j).byte) ∧
        (Filled ru.region v → Filled ru.region v')) ∧ Touched k k' e ∧
      k'.icache e = { k.icache e with d := f (k.icache e).d } ∧
      es = [.iupdate j, .logWrite (iblock j)]) Benign := by
  have hd := (h.entry e j hst).1
  apply (setDinode_ends h.sees).bind
  rintro _ k1 _ ⟨hw1, hd1, rfl⟩
  apply (iupdate_ends hw1.sees).mono
  rintro _ k2 _ ⟨hgo2, rfl⟩
  have hw := hw1.trans (hgo2.works e)
  have hinum : (k1.icache e).inum = j := by rw [hw1.inum, hst.inum]
  have hd2 : (k2.icache e).d = (k1.icache e).d := by rw [hgo2.icache]
  have hsees2 := hgo2.sees
  rw [hinum] at hsees2 ⊢
  have hl := h.allocated hst
  have hmap1 : Mapped ru.region j v ino 0 (ino j).size.toNat → Mapped ru.region j v
      (update ino j (ino j)) 0 (k1.icache e).d.size.toNat := by
    rw [update_eq_self, hd1, hsize, ← hd]
    exact id
  have hc2 := h.written hst (by rw [hw.icache, hd2]) hsees2
    (Extends.refl h.sound) (by simp) (fun f hf => absurd hf (Set.notMem_empty f))
    (by rw [hd1, htype, hd]) (by rw [hd1, haddrs, hd]) fun hx => hmap1 ((h.whole hx).2.2 j hl)
  refine ⟨⟨_, _, hc2, ?_, fun hf => h.filled_written hf hl (Extends.refl h.sound)
    (by rw [hd1, haddrs, hd]) (hmap1 (h.mapped_of_filled hf hl))⟩, hw.touched,
    by rw [hw.entry, hd2, hd1], rfl⟩
  have htype1 : (k1.icache e).d.type ≠ 0 := by rw [hd1, htype, ← hd]; exact hl.2.2
  have haddrs1 : (k1.icache e).d.addrs = (ino j).addrs := by rw [hd1, haddrs, hd]
  have hsound1 : Sound ru.region v (update ino j (k1.icache e).d) :=
    h.sound.of_refs (refs_update_congr fun s => by
      rw [refs_update_self hl htype1, refs_of_allocated hl]
      cases s <;> simp only [slotRef, haddrs1])
  rw [hsound1.nodes_writeInode hst.onDisk, nodes_setFields hl htype1 haddrs1, hd1]

/-- The loop of `ialloc` over inodes of the disk. -/
theorem iallocLoop_ends : ∀ (inums : List Nat) {k : Kernel},
    Coherent ru k v ino → (∀ i ∈ inums, OnDisk ru.ninodes i) →
    Ends (iallocLoop dev type inums) k (fun e k' es => dev = ROOTDEV ∧ ∃ j v' ino',
      Coherent ru k' v' ino' ∧ OnDisk ru.ninodes j ∧
      Xv6.iget k.icache ROOTDEV j = some (e, k'.icache) ∧ ∀ ev ∈ es, Quiet ru.region ev) Benign
  | [], k, _, _ => ends_panic (by unfold Benign; decide)
  | i :: inums, k, h, hall => by
    have hi := hall i (mem_cons_self ..)
    apply (bread_ends h.sees).bind
    rintro bp k1 _ ⟨hdev, hh, rfl⟩
    apply ends_data_bind
    rw [hh.data]
    by_cases hfree : (getDinode (v (iblock i)) (i % IPB)).type = 0
    · rw [if_pos hfree]
      apply (writeBack_ends hh.sees hh.handed.caches hh.handed.busy).bind
      rintro _ k2 _ ⟨hf2, hs2, ho2, rfl⟩
      have hgo := hh.updated (.refl hh.sees) hf2 hs2 ho2
      have hc2 := h.created (t := type) hi hfree hgo.icache hgo.sees
      subst hdev
      apply (iget_ends hc2).mono
      rintro e k3 _ ⟨hc3, rfl, -, hget⟩
      exact ⟨rfl, i, _, _, hc3, hi, by rw [← hgo.icache]; exact hget,
        by simpa [Quiet] using ru.region.iblock_lt hi.2⟩
    · rw [if_neg hfree]
      apply (brelse_ends hh.sees hh.handed.caches).bind
      rintro _ k2 _ ⟨hf2, hs2, ho2, rfl⟩
      have hgo := hh.released hf2 hs2 ho2
      refine (iallocLoop_ends inums (h.congr hgo.icache hgo.sees)
        fun i hi => hall i (mem_cons_of_mem _ hi)).mono ?_
      rintro e k3 es ⟨hdev, j, v', ino', hc, hj, hget, hquiet⟩
      exact ⟨hdev, j, v', ino', hc, hj, by rw [← hgo.icache]; exact hget, hquiet⟩

theorem ialloc_ends (h : Coherent ru k v ino) :
    Ends (ialloc dev type) k (fun e k' es => dev = ROOTDEV ∧ ∃ j v' ino',
      Coherent ru k' v' ino' ∧ OnDisk ru.ninodes j ∧
      Xv6.iget k.icache ROOTDEV j = some (e, k'.icache) ∧ ∀ ev ∈ es, Quiet ru.region ev) Benign := by
  apply (readsb_ends h.sees).bind
  rintro sb k1 _ ⟨-, rfl, hgo, rfl⟩
  rw [h.sound.super]
  refine (iallocLoop_ends _ (h.congr hgo.icache hgo.sees) fun i hi => ?_).mono ?_
  · rw [mem_range'_1] at hi
    exact ⟨hi.1, show i < ru.region.sb.ninodes by omega⟩
  · rintro e k3 es ⟨hdev, j, v', ino', hc, hj, hget, hquiet⟩
    exact ⟨hdev, j, v', ino', hc, hj, by rw [← hgo.icache]; exact hget, hquiet⟩

end

end Xv6.Kernel
