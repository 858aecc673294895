import Mathlib.Data.Set.Insert
import Xv6.Bio

/-!
# The buffer cache in front of a flat disk

`Flat st view pinned edited` says that the cache and the disk together stand for the flat disk
`view`: a `bread` of any sector gives its contents there. `pinned` are the sectors whose latest
contents exist only in a dirty buffer, and `edited` the buffers that their holder has changed
without having logged or written them yet. Each operation of `bio.c` has one lemma about what it
does to the three.
-/

namespace Xv6

open Function

open Lib

/-- Buffer `b` caches sector `s` of the root disk. -/
def Caches (st : Store) (b : Fin NBUF) (s : Nat) : Prop :=
  (st.buf b).dev = some ROOTDEV ∧ (st.buf b).sector = s

/-- The cache and the disk stand for the flat disk `view`. -/
structure Flat (st : Store) (view : Nat → Block) (pinned : Set Nat)
    (edited : Set (Fin NBUF)) : Prop where
  listed : ∀ b, b ∈ st.bcache.mru
  rootdev : ∀ b d, (st.buf b).dev = some d → d = ROOTDEV ∧ (st.buf b).valid = true
  unique : ∀ b c s, Caches st b s → Caches st c s → b = c
  held : ∀ b ∈ edited, (st.buf b).busy = true
  data : ∀ b s, Caches st b s → b ∉ edited → (st.buf b).data = view s
  dirty : ∀ b, (st.buf b).dirty = true → ∃ s ∈ pinned, Caches st b s
  pin : ∀ s ∈ pinned, ∃ b, Caches st b s ∧ (st.buf b).dirty = true
  disk : ∀ s, s ∉ pinned → st.disk s = view s

/-- A freshly started cache stands for the disk itself. -/
theorem flat_binit (disk : Nat → Block) (disksize : Nat) :
    Flat { disk := disk, disksize := disksize, bcache := binit } disk ∅ ∅ where
  listed := by simp [binit]
  rootdev := by simp [Store.buf, binit]
  unique := by simp [Caches, Store.buf, binit]
  held := by simp
  data := by simp [Caches, Store.buf, binit]
  dirty := by simp [Store.buf, binit]
  pin := by simp
  disk := by simp

/-- What `bget` and `bread` do to the store besides handing out `b`. -/
structure Handed (st st' : Store) (b : Fin NBUF) (s : Nat) : Prop where
  caches : Caches st' b s
  busy : (st'.buf b).busy = true
  wasFree : (st.buf b).busy = false
  others : ∀ c, c ≠ b → st'.buf c = st.buf c
  disk : st'.disk = st.disk
  disksize : st'.disksize = st.disksize

section

variable {st st' : Store} {view : Nat → Block} {pinned : Set Nat} {edited : Set (Fin NBUF)}
  {b : Fin NBUF} {s : Nat}

theorem iderw_read (hd : (st.buf b).dirty = false) (hok : iderw b st = .ok () st') :
    st' = st.setBuf b { st.buf b with data := st.disk (st.buf b).sector, valid := true } := by
  simp only [iderw] at hok
  split_ifs at hok with h1 h2 h3 h4 h5
  · simp [hd] at h5
  · exact (Res.ok.inj hok).2.symm

theorem iderw_write (hd : (st.buf b).dirty = true) (hok : iderw b st = .ok () st') :
    st' = { st.setBuf b { st.buf b with dirty := false, valid := true } with
      disk := update st.disk (st.buf b).sector (st.buf b).data } := by
  simp only [iderw, hd, if_true] at hok
  split_ifs at hok
  exact (Res.ok.inj hok).2.symm

theorem isCached_iff : isCached st.bcache ROOTDEV s b = true ↔ Caches st b s := by
  simp [isCached, Caches, Store.buf]

theorem Flat.dirty_iff (h : Flat st view pinned edited) (hc : Caches st b s) :
    (st.buf b).dirty = true ↔ s ∈ pinned := by
  constructor
  · intro hd
    obtain ⟨t, ht, hct⟩ := h.dirty b hd
    obtain rfl : t = s := hct.2.symm.trans hc.2
    exact ht
  · intro hs
    obtain ⟨c, hct, hd⟩ := h.pin s hs
    exact h.unique c b s hct hc ▸ hd

/-- Changing one buffer that keeps its sector, and with it the flat disk at that sector only.
Every operation on a buffer the caller holds is an instance. -/
theorem Flat.update {v : Buf} {view' : Nat → Block} {pinned' : Set Nat}
    {edited' : Set (Fin NBUF)} (h : Flat st view pinned edited) (hc : Caches st b s)
    (hbuf : st'.buf = update st.buf b v) (hmru : ∀ c, c ∈ st'.bcache.mru)
    (hself : v.dev = some ROOTDEV ∧ v.sector = s ∧ v.valid = true)
    (hview : ∀ t, t ≠ s → view' t = view t) (hpin : ∀ t, t ≠ s → (t ∈ pinned' ↔ t ∈ pinned))
    (hedited : ∀ c, c ≠ b → (c ∈ edited' ↔ c ∈ edited))
    (hdirty : v.dirty = true ↔ s ∈ pinned') (hheld : b ∈ edited' → v.busy = true)
    (hdata : b ∉ edited' → v.data = view' s) (hdisk : ∀ t, t ≠ s → st'.disk t = st.disk t)
    (hdiskS : s ∉ pinned' → st'.disk s = view' s) : Flat st' view' pinned' edited' := by
  have hb : st'.buf b = v := by rw [hbuf, update_self]
  have hother : ∀ c, c ≠ b → st'.buf c = st.buf c := fun c hcb => by
    rw [hbuf, update_of_ne hcb]
  have hcb' : Caches st' b s := by unfold Caches; rw [hb]; exact ⟨hself.1, hself.2.1⟩
  have hcaches : ∀ c t, Caches st' c t ↔ Caches st c t := by
    intro c t
    by_cases hcb : c = b
    · subst hcb
      exact ⟨fun hct => hcb'.2.symm.trans hct.2 ▸ hc, fun hct => hc.2.symm.trans hct.2 ▸ hcb'⟩
    · unfold Caches; rw [hother c hcb]
  have hne : ∀ c t, c ≠ b → Caches st' c t → t ≠ s := by
    intro c t hcb hct hts
    exact hcb (h.unique c b s ((hcaches c s).mp (hts ▸ hct)) hc)
  refine ⟨hmru, ?_, ?_, ?_, ?_, ?_, ?_, ?_⟩
  · intro c d hd
    by_cases hcb : c = b
    · subst hcb
      rw [hb] at hd ⊢
      exact ⟨(Option.some.inj (hself.1.symm.trans hd)).symm, hself.2.2⟩
    · rw [hother c hcb] at hd ⊢
      exact h.rootdev c d hd
  · intro c e t hct het
    exact h.unique c e t ((hcaches c t).mp hct) ((hcaches e t).mp het)
  · intro c hcE
    by_cases hcb : c = b
    · subst hcb; rw [hb]; exact hheld hcE
    · rw [hother c hcb]; exact h.held c ((hedited c hcb).mp hcE)
  · intro c t hct hcE
    by_cases hcb : c = b
    · subst hcb
      obtain rfl : s = t := hcb'.2.symm.trans hct.2
      rw [hb]; exact hdata hcE
    · rw [hother c hcb, hview t (hne c t hcb hct)]
      exact h.data c t ((hcaches c t).mp hct) (fun hE => hcE ((hedited c hcb).mpr hE))
  · intro c hd
    by_cases hcb : c = b
    · subst hcb
      rw [hb] at hd
      exact ⟨s, hdirty.mp hd, hcb'⟩
    · rw [hother c hcb] at hd
      obtain ⟨t, ht, hct⟩ := h.dirty c hd
      have hct' := (hcaches c t).mpr hct
      exact ⟨t, (hpin t (hne c t hcb hct')).mpr ht, hct'⟩
  · intro t ht
    by_cases hts : t = s
    · subst hts
      exact ⟨b, hcb', by rw [hb]; exact hdirty.mpr ht⟩
    · obtain ⟨c, hct, hd⟩ := h.pin t ((hpin t hts).mp ht)
      have hcb : c ≠ b := fun heq => hts ((heq ▸ hct).2.symm.trans hc.2)
      exact ⟨c, (hcaches c t).mpr hct, by rw [hother c hcb]; exact hd⟩
  · intro t ht
    by_cases hts : t = s
    · subst hts; exact hdiskS ht
    · rw [hdisk t hts, hview t hts]
      exact h.disk t (fun hp => ht ((hpin t hts).mpr hp))

theorem bget_hit {a : Int} (h : Flat st view pinned edited)
    (hfound : st.bcache.mru.find? (isCached st.bcache ROOTDEV s) = some b)
    (hfree : (st.buf b).busy = false)
    (hst : st' = { st with bcache := { st.bcache with
      buf := update st.bcache.buf b { st.bcache.buf b with busy := true }
      numberOfBlockAcsses := st.bcache.numberOfBlockAcsses + 1
      numberOfHits := st.bcache.numberOfHits + 1
      freeBlockNumber := a } }) :
    Handed st st' b s ∧ (st'.buf b).valid = true ∧ Flat st' view pinned edited := by
  have hc : Caches st b s := isCached_iff.mp (List.find?_some hfound)
  have hvalid := (h.rootdev b _ hc.1).2
  have hbuf : st'.buf = update st.buf b { st.buf b with busy := true } := by
    subst hst; rfl
  have hdisk : st'.disk = st.disk := by subst hst; rfl
  refine ⟨⟨by simpa [Caches, hbuf] using hc, by simp [hbuf], hfree,
    fun c hcb => by simp [hbuf, hcb], hdisk, by subst hst; rfl⟩, by simp [hbuf, hvalid], ?_⟩
  exact h.update hc hbuf (by subst hst; exact h.listed) ⟨hc.1, hc.2, hvalid⟩ (fun _ _ => rfl)
    (fun _ _ => Iff.rfl) (fun _ _ => Iff.rfl) (h.dirty_iff hc) (fun _ => rfl) (h.data b s hc)
    (fun _ _ => by rw [hdisk]) (fun hs => by rw [hdisk]; exact h.disk s hs)

/-- Recycling a clean buffer and filling it from the disk: nothing else cached the sector, so
the disk has its latest contents. -/
theorem bget_recycle {v : Buf} {n : Int} {a : Int} (h : Flat st view pinned edited)
    (hmiss : st.bcache.mru.find? (isCached st.bcache ROOTDEV s) = none)
    (hfound : st.bcache.mru.reverse.find? (isRecyclable st.bcache) = some b)
    (hv : v = { st.buf b with dev := some ROOTDEV, sector := s, busy := true, valid := true,
                              dirty := false, data := st.disk s })
    (hst : st' = { st with bcache := { st.bcache with
      buf := update st.bcache.buf b v
      numberOfBlockAcsses := n
      freeBlockNumber := a } }) :
    Handed st st' b s ∧ Flat st' view pinned edited := by
  have hrec : (st.buf b).busy = false ∧ (st.buf b).dirty = false := by
    have := List.find?_some hfound
    simpa [isRecyclable, Store.buf] using this
  have hnone : ∀ c, ¬ Caches st c s := by
    intro c hc
    have := List.find?_eq_none.mp hmiss c (h.listed c)
    rw [isCached_iff] at this
    exact this hc
  have hunpinned : s ∉ pinned := fun hs => by
    obtain ⟨c, hc, -⟩ := h.pin s hs
    exact hnone c hc
  have hbuf : st'.buf = update st.buf b v := by subst hst; rfl
  have hdisk : st'.disk = st.disk := by subst hst; rfl
  have hself : Caches st' b s := by
    unfold Caches
    rw [hbuf, update_self, hv]
    exact ⟨rfl, rfl⟩
  have hother : ∀ c, c ≠ b → ∀ t, Caches st' c t ↔ Caches st c t := by
    intro c hcb t
    unfold Caches
    rw [hbuf, update_of_ne hcb]
  have hedited : b ∉ edited := fun hE => by
    have := h.held b hE
    rw [hrec.1] at this
    simp at this
  refine ⟨⟨hself, by simp [hbuf, hv], hrec.1, fun c hcb => by simp [hbuf, hcb], hdisk,
    by subst hst; rfl⟩, ?_⟩
  refine ⟨by subst hst; exact h.listed, ?_, ?_, ?_, ?_, ?_, ?_, by rw [hdisk]; exact h.disk⟩
  · intro c d hd
    by_cases hcb : c = b
    · subst hcb
      rw [hbuf, update_self, hv] at hd ⊢
      exact ⟨(Option.some.inj hd).symm, rfl⟩
    · rw [hbuf, update_of_ne hcb] at hd ⊢
      exact h.rootdev c d hd
  · -- a second buffer for the same sector would have been found by the first loop
    intro c e t hct het
    by_cases hcb : c = b <;> by_cases heb : e = b
    · rw [hcb, heb]
    · subst hcb
      obtain rfl : s = t := hself.2.symm.trans hct.2
      exact absurd ((hother e heb s).mp het) (hnone e)
    · subst heb
      obtain rfl : s = t := hself.2.symm.trans het.2
      exact absurd ((hother c hcb s).mp hct) (hnone c)
    · exact h.unique c e t ((hother c hcb t).mp hct) ((hother e heb t).mp het)
  · intro c hcE
    have hcb : c ≠ b := fun heq => hedited (heq ▸ hcE)
    rw [hbuf, update_of_ne hcb]
    exact h.held c hcE
  · intro c t hct hcE
    by_cases hcb : c = b
    · subst hcb
      obtain rfl : s = t := hself.2.symm.trans hct.2
      rw [hbuf, update_self, hv]
      exact h.disk s hunpinned
    · rw [hbuf, update_of_ne hcb]
      exact h.data c t ((hother c hcb t).mp hct) hcE
  · intro c hd
    by_cases hcb : c = b
    · subst hcb
      rw [hbuf, update_self, hv] at hd
      simp at hd
    · rw [hbuf, update_of_ne hcb] at hd
      obtain ⟨t, ht, hct⟩ := h.dirty c hd
      exact ⟨t, ht, (hother c hcb t).mpr hct⟩
  · intro t ht
    obtain ⟨c, hct, hd⟩ := h.pin t ht
    have hcb : c ≠ b := fun heq => by
      rw [heq, hrec.2] at hd
      simp at hd
    exact ⟨c, (hother c hcb t).mpr hct, by rw [hbuf, update_of_ne hcb]; exact hd⟩

/-- `bread` hands out a busy buffer with the sector's contents in the flat disk. -/
theorem bread_flat (h : Flat st view pinned edited) (hok : bread ROOTDEV s st = .ok b st') :
    Handed st st' b s ∧ Flat st' view pinned edited ∧ b ∉ edited ∧ (st'.buf b).data = view s := by
  have key : Handed st st' b s ∧ Flat st' view pinned edited := by
    obtain ⟨c, m, hget, hrest⟩ := Prog.bind_eq_ok.mp hok
    obtain ⟨_, _, hm, hrest⟩ := Prog.bind_eq_ok.mp hrest
    obtain ⟨rfl, rfl⟩ := Prog.get_eq_ok.mp hm
    simp only [bget] at hget
    split at hget
    · rename_i hfound
      split at hget
      · simp at hget
      · rename_i hfree
        simp only [Res.ok.injEq] at hget
        obtain ⟨rfl, hm⟩ := hget
        have hit := bget_hit h hfound (by simpa [Store.buf] using hfree) hm.symm
        rw [if_pos hit.2.1] at hrest
        obtain ⟨rfl, rfl⟩ := Prog.pure_eq_ok.mp hrest
        exact ⟨hit.1, hit.2.2⟩
    · rename_i hmiss
      split at hget
      · rename_i hfound
        simp only [Res.ok.injEq] at hget
        obtain ⟨rfl, rfl⟩ := hget
        rw [if_neg (by simp [Store.buf])] at hrest
        obtain ⟨_, _, hrw, hrest⟩ := Prog.bind_eq_ok.mp hrest
        obtain ⟨rfl, rfl⟩ := Prog.pure_eq_ok.mp hrest
        have hst := iderw_read (by simp [Store.buf]) hrw
        refine bget_recycle (n := st.bcache.numberOfBlockAcsses + 1)
          (a := st.bcache.freeBlockNumber - 1) h hmiss hfound rfl (hst.trans ?_)
        simp only [Store.setBuf, Store.buf, update_self, update_idem]
      · simp at hget
  have hE : b ∉ edited := fun hE => by
    have := h.held b hE
    rw [key.1.wasFree] at this
    simp at this
  exact ⟨key.1, key.2, hE, key.2.data b s key.1.caches hE⟩

/-- What an operation on a held buffer leaves alone. -/
structure OnBuf (st st' : Store) (b : Fin NBUF) : Prop where
  others : ∀ c, c ≠ b → st'.buf c = st.buf c
  caches : ∀ s, Caches st b s → Caches st' b s
  disksize : st'.disksize = st.disksize

theorem setData_flat {data : Block} (h : Flat st view pinned edited) (hc : Caches st b s)
    (hbusy : (st.buf b).busy = true) (hok : setData b data st = .ok () st') :
    OnBuf st st' b ∧ Flat st' view pinned (insert b edited) ∧ (st'.buf b).data = data ∧
      (st'.buf b).busy = true ∧ st'.disk = st.disk := by
  obtain rfl := Prog.modify_eq_ok.mp hok
  refine ⟨⟨fun c hcb => by simp [hcb], fun t ht => by simpa [Caches] using ht, rfl⟩, ?_, by simp,
    by simp [hbusy], rfl⟩
  exact h.update hc (Store.setBuf_buf st b _) h.listed ⟨hc.1, hc.2, (h.rootdev b _ hc.1).2⟩
    (fun _ _ => rfl) (fun _ _ => Iff.rfl) (fun c hcb => by simp [hcb]) (h.dirty_iff hc)
    (fun _ => hbusy) (fun hE => absurd (Set.mem_insert b edited) hE) (fun _ _ => rfl)
    (fun hs => h.disk s hs)

/-- `bwrite` sends the buffer's data to the disk and to the flat disk at once. -/
theorem bwrite_flat (h : Flat st view pinned edited) (hc : Caches st b s)
    (hok : bwrite b st = .ok () st') :
    OnBuf st st' b ∧
    Flat st' (update view s (st.buf b).data) (pinned \ {s}) (edited \ {b}) ∧
    st'.disk = update st.disk s (st.buf b).data ∧
    (st'.buf b).data = (st.buf b).data ∧ (st'.buf b).busy = true := by
  obtain ⟨_, _, hm, hrest⟩ := Prog.bind_eq_ok.mp hok
  obtain ⟨rfl, rfl⟩ := Prog.get_eq_ok.mp hm
  by_cases hbusy : (st.buf b).busy = true
  · rw [if_neg (by simpa using hbusy)] at hrest
    obtain ⟨_, m, hm, hrest⟩ := Prog.bind_eq_ok.mp hrest
    obtain rfl := Prog.modify_eq_ok.mp hm
    have hst := iderw_write (by simp) hrest
    simp only [Store.setBuf_buf, update_self] at hst
    have hbuf : st'.buf = update st.buf b
        { st.buf b with dirty := false, valid := true } := by
      rw [hst]; exact update_idem _ _ _
    have hdisk : st'.disk = update st.disk s (st.buf b).data := by
      rw [hst, ← hc.2]; rfl
    refine ⟨⟨fun c hcb => by simp [hbuf, hcb], fun t ht => by simpa [Caches, hbuf] using ht,
      by rw [hst]; rfl⟩, ?_, hdisk, by simp [hbuf], by simp [hbuf, hbusy]⟩
    exact h.update hc hbuf (by rw [hst]; exact h.listed) ⟨hc.1, hc.2, rfl⟩
      (fun t ht => update_of_ne ht _ _) (fun t ht => by simp [ht])
      (fun c hcb => by simp [hcb]) (by simp) (fun _ => hbusy) (fun _ => by simp)
      (fun t ht => by rw [hdisk, update_of_ne ht]) (fun _ => by simp [hdisk])
  · rw [if_pos (by simpa using hbusy)] at hrest
    simp at hrest

/-- `brelse` changes neither the disk nor what the cache stands for. -/
theorem brelse_flat (h : Flat st view pinned edited) (hc : Caches st b s) (hE : b ∉ edited)
    (hok : brelse b st = .ok () st') :
    OnBuf st st' b ∧ Flat st' view pinned edited ∧ st'.disk = st.disk ∧
      (st'.buf b).busy = false := by
  obtain ⟨_, _, hm, hrest⟩ := Prog.bind_eq_ok.mp hok
  obtain ⟨rfl, rfl⟩ := Prog.get_eq_ok.mp hm
  by_cases hbusy : (st.buf b).busy = true
  · rw [if_neg (by simpa using hbusy)] at hrest
    have hst := Prog.modify_eq_ok.mp hrest
    have hbuf : st'.buf = update st.buf b { st.buf b with busy := false } := by
      rw [← hst]; rfl
    have hdisk : st'.disk = st.disk := by rw [← hst]
    refine ⟨⟨fun c hcb => by simp [hbuf, hcb], fun t ht => by simpa [Caches, hbuf] using ht,
      by rw [← hst]⟩, ?_, hdisk, by simp [hbuf]⟩
    refine h.update hc hbuf ?_ ⟨hc.1, hc.2, (h.rootdev b _ hc.1).2⟩ (fun _ _ => rfl)
      (fun _ _ => Iff.rfl) (fun _ _ => Iff.rfl) (h.dirty_iff hc) (fun hin => absurd hin hE)
      (h.data b s hc) (fun _ _ => by rw [hdisk]) (fun hs => by rw [hdisk]; exact h.disk s hs)
    intro c
    rw [← hst]
    by_cases hcb : c = b
    · subst hcb; exact List.mem_cons_self
    · exact List.mem_cons_of_mem _ ((List.mem_erase_of_ne hcb).mpr (h.listed c))
  · rw [if_pos (by simpa using hbusy)] at hrest
    simp at hrest

/-- The `B_DIRTY` mark of `log_write` pins the sector: the flat disk now has the buffer's data,
and the disk keeps the old contents. -/
theorem pin_flat (h : Flat st view pinned edited) (hc : Caches st b s) :
    Flat (st.setBuf b { st.buf b with dirty := true })
      (update view s (st.buf b).data) (insert s pinned) (edited \ {b}) :=
  h.update hc (Store.setBuf_buf st b _) h.listed ⟨hc.1, hc.2, (h.rootdev b _ hc.1).2⟩
    (fun t ht => update_of_ne ht _ _) (fun t ht => by simp [ht])
    (fun c hcb => by simp [hcb]) (by simp) (fun hin => absurd rfl hin.2) (fun _ => by simp)
    (fun _ _ => rfl) (fun hs => absurd (Set.mem_insert s pinned) hs)

/-- What a `bread` of the sector would give. -/
def Store.peek (st : Store) (s : Nat) : Block :=
  match st.bcache.mru.find? (isCached st.bcache ROOTDEV s) with
  | some b => (st.buf b).data
  | none => st.disk s

theorem Flat.peek (h : Flat st view pinned ∅) : st.peek = view := by
  funext s
  unfold Store.peek
  split
  · rename_i b hb
    exact h.data b s (isCached_iff.mp (List.find?_some hb)) (Set.notMem_empty b)
  · rename_i hnone
    refine h.disk s fun hs => ?_
    obtain ⟨b, hc, -⟩ := h.pin s hs
    exact List.find?_eq_none.mp hnone b (h.listed b) (isCached_iff.mpr hc)

end

end Xv6
