import Mathlib.Data.Fintype.Card
import Xv6.Log.Commit

/-!
# When buffers do not run out

`Xv6.Bio.Flat` says what the block layer has done when it returns. Here are the conditions under
which it does return: no buffer is held by another process, the disk has the sectors, and the cache
has room beside the sectors that wait for a commit.
-/

namespace Xv6

open Lib Finset Prog

/-- Exactly the buffers of `H` are held, each with its sector; the disk has the sectors below
`top`, and at most the sectors of `L` are pinned, which leaves room in the cache. -/
structure Spare (top : Nat) (L : Finset Nat) (pinned : Set Nat) (H : List (Fin NBUF × Nat))
    (st : Store) : Prop where
  held : ∀ b, (st.buf b).busy = true → ∃ s, (b, s) ∈ H
  caches : ∀ b s, (b, s) ∈ H → Caches st b s ∧ (st.buf b).busy = true
  once : (H.map Prod.fst).Nodup
  disk : top ≤ st.disksize
  logged : ∀ s ∈ pinned, s ∈ L
  room : L.card + 3 ≤ NBUF

section

variable {st st' : Store} {view : Nat → Block} {pinned pinned' : Set Nat}
  {edited : Set (Fin NBUF)} {top s : Nat} {L : Finset Nat} {H H' : List (Fin NBUF × Nat)}
  {b : Fin NBUF}

namespace Spare

theorem perm (hr : Spare top L pinned H st) (hp : H.Perm H') : Spare top L pinned H' st where
  held := fun b hb => (hr.held b hb).imp fun _ hs => hp.mem_iff.mp hs
  caches := fun b s hs => hr.caches b s (hp.mem_iff.mpr hs)
  once := (hp.map Prod.fst).nodup_iff.mp hr.once
  disk := hr.disk
  logged := hr.logged
  room := hr.room

theorem unpin (hr : Spare top L pinned H st) (hsub : pinned' ⊆ pinned) :
    Spare top L pinned' H st :=
  { hr with logged := fun s hs => hr.logged s (hsub hs) }

/-- While few buffers are held, one can be recycled. -/
theorem exists_recyclable (hr : Spare top L pinned H st) (h : Flat st view pinned edited)
    (hH : H.length ≤ 2) : ∃ b, isRecyclable st.bcache b = true := by
  by_contra hno
  have hall : ∀ b, (st.buf b).busy = true ∨ (st.buf b).dirty = true := by
    intro b
    by_contra hb
    simp only [not_or, Bool.not_eq_true] at hb
    refine hno ⟨b, ?_⟩
    unfold isRecyclable
    rw [show (st.bcache.buf b) = st.buf b from rfl, hb.1, hb.2]
    rfl
  -- the dirty buffers have different sectors, all of them pinned
  have hdirty : (Finset.univ.filter fun b => (st.buf b).dirty = true).card ≤ L.card := by
    apply card_le_card_of_injOn fun b => (st.buf b).sector
    · intro b hb
      obtain ⟨s, hs, hc⟩ := h.dirty b (mem_filter.mp hb).2
      have := hr.logged s hs
      rwa [← hc.2] at this
    · intro b hb c hc heq
      obtain ⟨s, -, hcb⟩ := h.dirty b (mem_filter.mp hb).2
      obtain ⟨t, -, hcc⟩ := h.dirty c (mem_filter.mp hc).2
      have hst : t = s := by
        rw [← hcc.2, ← hcb.2]
        exact heq.symm
      exact h.unique b c s hcb (hst ▸ hcc)
  have hcover : (Finset.univ : Finset (Fin NBUF)) ⊆
      (H.map Prod.fst).toFinset ∪ Finset.univ.filter fun b => (st.buf b).dirty = true := by
    intro b _
    rcases hall b with hb | hb
    · obtain ⟨s, hs⟩ := hr.held b hb
      apply mem_union_left
      exact List.mem_toFinset.mpr (List.mem_map_of_mem (f := Prod.fst) hs)
    · exact mem_union_right _ (mem_filter.mpr ⟨mem_univ b, hb⟩)
  have hcard := card_le_card hcover
  have hunion := card_union_le (H.map Prod.fst).toFinset
    (Finset.univ.filter fun b => (st.buf b).dirty = true)
  have hlist := List.toFinset_card_le (H.map Prod.fst)
  rw [List.length_map] at hlist
  rw [card_univ, Fintype.card_fin] at hcard
  have := hr.room
  omega

theorem release (hr : Spare top L pinned ((b, s) :: H) st)
    (hothers : ∀ c, c ≠ b → st'.buf c = st.buf c) (hbusy : (st'.buf b).busy = false)
    (hdisk : st'.disksize = st.disksize) : Spare top L pinned H st' := by
  have hne : ∀ c t, (c, t) ∈ H → c ≠ b := by
    intro c t hc heq
    have hmap : c ∈ H.map Prod.fst := List.mem_map_of_mem (f := Prod.fst) hc
    exact (List.nodup_cons.mp hr.once).1 (heq ▸ hmap)
  refine ⟨fun c hc => ?_, fun c t hc => ?_, (List.nodup_cons.mp hr.once).2, ?_, hr.logged, hr.room⟩
  · have hcb : c ≠ b := by
      intro heq
      rw [heq, hbusy] at hc
      exact Bool.false_ne_true hc
    rw [hothers c hcb] at hc
    obtain ⟨t, ht⟩ := hr.held c hc
    rcases List.mem_cons.mp ht with heq | ht
    · exact absurd (Prod.mk.inj heq).1 hcb
    · exact ⟨t, ht⟩
  · unfold Caches
    rw [hothers c (hne c t hc)]
    exact hr.caches c t (List.mem_cons_of_mem _ hc)
  · rw [hdisk]
    exact hr.disk

theorem set (hr : Spare top L pinned H st) (hbuf : ∀ c, (st'.buf c).dev = (st.buf c).dev ∧
      (st'.buf c).sector = (st.buf c).sector ∧ (st'.buf c).busy = (st.buf c).busy)
    (hdisk : st'.disksize = st.disksize) : Spare top L pinned H st' := by
  refine ⟨fun c hc => ?_, fun c t hc => ?_, hr.once, ?_, hr.logged, hr.room⟩
  · rw [(hbuf c).2.2] at hc
    exact hr.held c hc
  · unfold Caches
    rw [(hbuf c).1, (hbuf c).2.1, (hbuf c).2.2]
    exact hr.caches c t hc
  · rw [hdisk]
    exact hr.disk

end Spare

/-- A sector that nobody holds can be read. -/
theorem bread_spare (h : Flat st view pinned edited) (hr : Spare top L pinned H st)
    (hH : H.length ≤ 2) (hs : s < top) (hfree : ∀ b, (b, s) ∉ H) :
    Prog.Ends (bread ROOTDEV s) st (fun b st' => Spare top L pinned ((b, s) :: H) st')
      fun _ => False := by
  refine ⟨fun b st' hok => ?_, fun why hw => ?_⟩
  · obtain ⟨hh, -, -, -⟩ := bread_flat h hok
    refine ⟨fun c hc => ?_, fun c t hc => ?_, ?_, ?_, hr.logged, hr.room⟩
    · by_cases hcb : c = b
      · exact ⟨s, hcb ▸ List.mem_cons_self ..⟩
      · rw [hh.others c hcb] at hc
        obtain ⟨t, ht⟩ := hr.held c hc
        exact ⟨t, List.mem_cons_of_mem _ ht⟩
    · rcases List.mem_cons.mp hc with heq | hc
      · obtain ⟨rfl, rfl⟩ := Prod.mk.inj heq
        exact ⟨hh.caches, hh.busy⟩
      · obtain ⟨hct, hbusy⟩ := hr.caches c t hc
        have hcb : c ≠ b := by
          intro heq
          rw [heq, hh.wasFree] at hbusy
          exact Bool.false_ne_true hbusy
        unfold Caches
        rw [hh.others c hcb]
        exact ⟨hct, hbusy⟩
    · rw [List.map_cons, List.nodup_cons]
      refine ⟨fun hmem => ?_, hr.once⟩
      obtain ⟨⟨c, t⟩, hp, heq⟩ := List.mem_map.mp hmem
      change c = b at heq
      subst heq
      have hbusy := (hr.caches c t hp).2
      rw [hh.wasFree] at hbusy
      exact Bool.false_ne_true hbusy
    · rw [hh.disksize]
      exact hr.disk
  · rcases bind_eq_halt.mp hw with hw | ⟨b, m, hget, hw⟩
    · -- a buffer that has the sector is not held, and otherwise one can be recycled
      simp only [bget] at hw
      split at hw
      · rename_i b hfound
        have hc : Caches st b s := isCached_iff.mp (List.find?_some hfound)
        split_ifs at hw with hbusy
        obtain ⟨t, ht⟩ := hr.held b hbusy
        obtain rfl : t = s := by
          rw [← ((hr.caches b t ht).1).2]
          exact hc.2
        exact hfree b ht
      · split at hw
        · cases hw
        · rename_i hnone
          obtain ⟨b, hb⟩ := hr.exists_recyclable h hH
          have := List.find?_eq_none.mp hnone b (List.mem_reverse.mpr (h.listed b))
          exact this hb
    · rcases bind_eq_halt.mp hw with hw | ⟨m2, m', hm, hw⟩
      · simp at hw
      obtain ⟨rfl, rfl⟩ := get_eq_ok.mp hm
      simp only [bget] at hget
      split at hget
      · -- what is cached is valid
        rename_i c hfound
        have hc : Caches st c s := isCached_iff.mp (List.find?_some hfound)
        split_ifs at hget
        obtain ⟨rfl, rfl⟩ := Res.ok.inj hget
        have hvalid := (h.rootdev c ROOTDEV hc.1).2
        rw [if_pos (by simpa [Store.buf] using hvalid)] at hw
        simp at hw
      · split at hget
        · obtain ⟨rfl, rfl⟩ := Res.ok.inj hget
          rw [if_neg (by simp [Store.buf])] at hw
          rcases bind_eq_halt.mp hw with hw | ⟨_, _, -, hw⟩
          · have hsize : ¬ st.disksize ≤ s := not_le.mpr (hs.trans_le hr.disk)
            simp [iderw, Store.buf, hsize] at hw
          · simp at hw
        · cases hget

theorem brelse_spare (hr : Spare top L pinned ((b, s) :: H) st) :
    Prog.Ends (brelse b) st (fun _ st' => Spare top L pinned H st') fun _ => False := by
  have hbusy := (hr.caches b s (List.mem_cons_self ..)).2
  unfold brelse
  apply (ends_get (Q := fun a t => st = a ∧ st = t) ⟨rfl, rfl⟩).bind
  rintro _ _ ⟨rfl, rfl⟩
  rw [if_neg (by simp [hbusy])]
  refine ends_modify (hr.release (fun c hc => ?_) ?_ rfl)
  · simp [Store.buf, Function.update_of_ne hc]
  · simp [Store.buf]

theorem setData_spare {d : Block} (hr : Spare top L pinned H st) :
    Prog.Ends (setData b d) st (fun _ st' => Spare top L pinned H st') fun _ => False := by
  refine ends_modify (hr.set (fun c => ?_) rfl)
  by_cases hcb : c = b
  · subst hcb
    simp
  · simp [hcb]

/-- A held buffer can be written to the disk. -/
theorem bwrite_spare (hr : Spare top L pinned H st) (hb : (b, s) ∈ H) (hs : s < top) :
    Prog.Ends (bwrite b) st (fun _ st' => Spare top L pinned H st') fun _ => False := by
  obtain ⟨hc, hbusy⟩ := hr.caches b s hb
  unfold bwrite
  apply (ends_get (Q := fun a t => st = a ∧ st = t) ⟨rfl, rfl⟩).bind
  rintro _ _ ⟨rfl, rfl⟩
  rw [if_neg (by simp [hbusy])]
  apply (ends_modify (Q := fun _ t => st.setBuf b { st.buf b with dirty := true } = t)
    rfl).bind
  rintro _ _ rfl
  have hsize : ¬ st.disksize ≤ s := not_le.mpr (hs.trans_le hr.disk)
  have hrun : iderw b (st.setBuf b { st.buf b with dirty := true }) = .ok ()
      { (st.setBuf b { st.buf b with dirty := true }).setBuf b
          { st.buf b with dirty := false, valid := true } with
        disk := Function.update st.disk (st.buf b).sector (st.buf b).data } := by
    have hdisksize : ∀ v, (st.setBuf b v).disksize = st.disksize := fun _ => rfl
    simp [iderw, hbusy, hc.1, hc.2, hdisksize, hsize]
  refine ⟨fun _ st' hok => ?_, fun why hw => ?_⟩
  · rw [hrun] at hok
    obtain ⟨-, rfl⟩ := Res.ok.inj hok
    refine hr.set (fun c => ?_) rfl
    by_cases hcb : c = b
    · subst hcb
      simp [Store.buf, Store.setBuf]
    · simp [Store.buf, Store.setBuf, hcb]
  · rw [hrun] at hw
    cases hw

section

variable {start tail : Nat} {lh : List Nat}

/-- Two sectors that nobody holds can be read one after the other. -/
theorem bread_bread_spare {t : Nat} {α : Type} {f : Fin NBUF → Fin NBUF → Prog Store α}
    {Q : α → Store → Prop} (h : Flat st view pinned edited) (hr : Spare top L pinned [] st)
    (hs : s < top) (ht : t < top) (hne : s ≠ t)
    (hf : ∀ b c st', Spare top L pinned [(c, t), (b, s)] st' →
      Prog.Ends (f b c) st' Q fun _ => False) :
    Prog.Ends (bread ROOTDEV s >>= fun b => bread ROOTDEV t >>= fun c => f b c) st Q
      fun _ => False := by
  have hflat : Prog.Ends (bread ROOTDEV s) st (fun b st' => Flat st' view pinned edited ∧
      Spare top L pinned [(b, s)] st') fun _ => False := by
    have hb := bread_spare h hr (Nat.zero_le 2) hs fun _ => List.not_mem_nil
    exact ⟨fun b st' hok => ⟨(bread_flat h hok).2.1, hb.1 b st' hok⟩, hb.2⟩
  apply hflat.bind
  rintro b st1 ⟨hf1, hr1⟩
  refine (bread_spare hf1 hr1 (by simp) ht fun c hc => ?_).bind fun c st2 hr2 => hf b c st2 hr2
  rcases List.mem_singleton.mp hc with heq
  exact hne (Prod.mk.inj heq).2.symm

theorem writeLogBody_spare (h : Flat st view pinned edited) (hr : Spare top L pinned [] st)
    (hto : start + tail + 1 < top) (hfrom : lh.getD tail 0 < start) :
    Prog.Ends (writeLogBody start lh tail) st (fun _ st' => Spare top L pinned [] st')
      fun _ => False := by
  refine bread_bread_spare h hr hto (by omega) (by omega) fun dst src st1 hr1 => ?_
  apply (ends_get (Q := fun a t => st1 = a ∧ st1 = t) ⟨rfl, rfl⟩).bind
  rintro _ _ ⟨rfl, rfl⟩
  refine (setData_spare hr1).bind fun _ st2 hr2 => ?_
  refine (bwrite_spare hr2 (by simp) hto).bind fun _ st3 hr3 => ?_
  exact (brelse_spare hr3).bind fun _ st4 hr4 => brelse_spare hr4

theorem installBody_spare (h : Flat st view pinned edited) (hr : Spare top L pinned [] st)
    (hfrom : start + tail + 1 < top) (hto : lh.getD tail 0 < start) :
    Prog.Ends (installBody start lh tail) st (fun _ st' => Spare top L pinned [] st')
      fun _ => False := by
  refine bread_bread_spare h hr hfrom (by omega) (by omega) fun lbuf dbuf st1 hr1 => ?_
  apply (ends_get (Q := fun a t => st1 = a ∧ st1 = t) ⟨rfl, rfl⟩).bind
  rintro _ _ ⟨rfl, rfl⟩
  refine (setData_spare hr1).bind fun _ st2 hr2 => ?_
  have hwrite : lh.getD tail 0 < top := by omega
  refine (bwrite_spare hr2 (List.mem_cons_self ..) hwrite).bind fun _ st3 hr3 => ?_
  exact (brelse_spare (hr3.perm (.swap ..))).bind fun _ st4 hr4 => brelse_spare hr4

theorem writeHead_spare (h : Flat st view pinned edited) (hr : Spare top L pinned [] st)
    (hs : start < top) :
    Prog.Ends (writeHead start lh) st (fun _ st' => Spare top L pinned [] st')
      fun _ => False := by
  refine (bread_spare h hr (Nat.zero_le 2) hs fun _ => List.not_mem_nil).bind fun b st1 hr1 => ?_
  apply (ends_get (Q := fun a t => st1 = a ∧ st1 = t) ⟨rfl, rfl⟩).bind
  rintro _ _ ⟨rfl, rfl⟩
  refine (setData_spare hr1).bind fun _ st2 hr2 => ?_
  exact (bwrite_spare hr2 (List.mem_cons_self ..) hs).bind fun _ st3 hr3 => brelse_spare hr3

end

end

end Xv6
