import Xv6.Bio.Flat
import Xv6.Log.Basic

/-!
# The sector writes of a commit

The loops of `write_log` and `install_trans` one iteration at a time, and the header block.
Each of them makes exactly one sector write. The lemmas give its effect on the flat disk the
cache stands for and on the disk itself.
-/

namespace Xv6

open Function

open Lib

/-- The header block with `lh` stored in it (`log.c:103-109`): `n`, then `sector[0..n)`. The
words behind keep what they had. -/
def putHead (lh : List Nat) (b : Block) : Block := Bytes.putWords 0 (lh.length :: lh) b

/-- The sectors a header block lists (`log.c:88-93`); `n` is a signed `int`. -/
def headSectors (b : Block) : List Nat :=
  (List.range (b.u32 0).toInt.toNat).map fun i => (b.u32 (4 + 4 * i)).toNat

/-- One iteration of `write_log` (`log.c:179-186`). -/
def writeLogBody (start : Nat) (lh : List Nat) (tail : Nat) : Prog Store Unit := do
  let dst ← bread ROOTDEV (start + tail + 1)
  let src ← bread ROOTDEV (lh.getD tail 0)
  let st ← Prog.get
  setData dst (st.buf src).data
  bwrite dst
  brelse src
  brelse dst

/-- One iteration of `install_trans` (`log.c:73-80`). -/
def installBody (start : Nat) (lh : List Nat) (tail : Nat) : Prog Store Unit := do
  let lbuf ← bread ROOTDEV (start + tail + 1)
  let dbuf ← bread ROOTDEV (lh.getD tail 0)
  let st ← Prog.get
  setData dbuf (st.buf lbuf).data
  bwrite dbuf
  brelse lbuf
  brelse dbuf

/-- `write_head` (`log.c:99-112`). -/
def writeHead (start : Nat) (lh : List Nat) : Prog Store Unit := do
  let buf ← bread ROOTDEV start
  let st ← Prog.get
  setData buf (putHead lh (st.buf buf).data)
  bwrite buf
  brelse buf

/-- `read_head` (`log.c:84-96`). -/
def readHead (start : Nat) : Prog Store (List Nat) := do
  let buf ← bread ROOTDEV start
  let st ← Prog.get
  let lh := headSectors (st.buf buf).data
  brelse buf
  return lh

theorem headSectors_putHead {lh : List Nat} {b : Block} (hlen : lh.length < 127)
    (hlt : ∀ s ∈ lh, s < 2 ^ 32) : headSectors (putHead lh b) = lh := by
  have hroom : 0 + 4 * (lh.length :: lh).length ≤ BSIZE := by
    simp only [List.length_cons, BSIZE]; omega
  have hword : ∀ k, (hk : k < (lh.length :: lh).length) →
      (putHead lh b).u32 (0 + 4 * k) = BitVec.ofNat 32 ((lh.length :: lh)[k]) := fun k hk =>
    Bytes.u32_putWords hk hroom
  have hn : ((putHead lh b).u32 0).toInt.toNat = lh.length := by
    have := hword 0 (by simp)
    simp only [Nat.mul_zero, Nat.add_zero, List.getElem_cons_zero] at this
    rw [this, BitVec.toInt_eq_toNat_of_lt (by simp only [BitVec.toNat_ofNat]; omega)]
    simp only [BitVec.toNat_ofNat, Int.toNat_natCast]
    omega
  unfold headSectors
  rw [hn]
  apply List.ext_getElem
  · simp
  · intro i h1 h2
    have := hword (i + 1) (by simpa using h2)
    rw [List.getElem_map, List.getElem_range, show 4 + 4 * i = 0 + 4 * (i + 1) by omega, this]
    simp only [List.getElem_cons_succ, BitVec.toNat_ofNat]
    exact Nat.mod_eq_of_lt (hlt _ (List.getElem_mem _))

@[simp] theorem headSectors_putHead_nil (b : Block) : headSectors (putHead [] b) = [] :=
  headSectors_putHead (by simp) (by simp)

/-- Buffers that somebody holds are as before. -/
structure Kept (st st' : Store) : Prop where
  held : ∀ c, (st.buf c).busy = true → st'.buf c = st.buf c
  disksize : st'.disksize = st.disksize

section

variable {st st' : Store} {view : Nat → Block} {pinned : Set Nat} {edited : Set (Fin NBUF)}

/-- Copying one cached sector over another and writing it out: the shape of both loops. -/
theorem copySector_flat {src dst : Nat} {bs bd : Fin NBUF} (h : Flat st view pinned edited)
    (hs : Caches st bs src) (hd : Caches st bd dst) (hne : bs ≠ bd) (hsE : bs ∉ edited)
    (hdE : bd ∉ edited) (hbusy : (st.buf bd).busy = true) (hdata : (st.buf bs).data = view src)
    (hok : (do setData bd (st.buf bs).data; bwrite bd; brelse bs; brelse bd :
      Prog Store Unit) st = .ok () st') :
    Flat st' (update view dst (view src)) (pinned \ {dst}) edited ∧
    st'.disk = update st.disk dst (view src) ∧
    (∀ c, c ≠ bs → c ≠ bd → st'.buf c = st.buf c) ∧ st'.disksize = st.disksize := by
  obtain ⟨_, m1, h1, hok⟩ := Prog.bind_eq_ok.mp hok
  obtain ⟨_, m2, h2, hok⟩ := Prog.bind_eq_ok.mp hok
  obtain ⟨_, m3, h3, h4⟩ := Prog.bind_eq_ok.mp hok
  obtain ⟨o1, f1, d1, b1, k1⟩ := setData_flat h hd hbusy h1
  obtain ⟨o2, f2, k2, d2, b2⟩ := bwrite_flat f1 (o1.caches _ hd) h2
  rw [Set.insert_sdiff_self_of_notMem hdE, d1, hdata] at f2
  have hs2 : Caches m2 bs src := by
    unfold Caches
    rw [o2.others bs hne, o1.others bs hne]
    exact hs
  obtain ⟨o3, f3, k3, -⟩ := brelse_flat f2 hs2 hsE h3
  have hd3 : Caches m3 bd dst := by
    unfold Caches
    rw [o3.others bd (Ne.symm hne)]
    exact o2.caches _ (o1.caches _ hd)
  obtain ⟨o4, f4, k4, -⟩ := brelse_flat f3 hd3 hdE h4
  refine ⟨f4, by rw [k4, k3, k2, k1, d1, hdata], ?_, ?_⟩
  · intro c hcs hcd
    rw [o4.others c hcd, o3.others c hcs, o2.others c hcd, o1.others c hcd]
  · rw [o4.disksize, o3.disksize, o2.disksize, o1.disksize]

/-- Two `bread`s in a row give two different buffers, both with current contents. -/
theorem bread_bread_flat {s t : Nat} {b c : Fin NBUF} {m : Store} (h : Flat st view pinned edited)
    (h1 : bread ROOTDEV s st = .ok b m) (h2 : bread ROOTDEV t m = .ok c st') :
    Flat st' view pinned edited ∧ Caches st' b s ∧ Caches st' c t ∧ b ≠ c ∧ b ∉ edited ∧
    c ∉ edited ∧ (st'.buf b).busy = true ∧ (st'.buf c).busy = true ∧
    (st'.buf b).data = view s ∧ (st'.buf c).data = view t ∧ st'.disk = st.disk ∧
    st'.disksize = st.disksize ∧
    ∀ x, (st.buf x).busy = true → st'.buf x = st.buf x ∧ x ≠ b ∧ x ≠ c := by
  obtain ⟨g1, f1, e1, d1⟩ := bread_flat h h1
  obtain ⟨g2, f2, e2, d2⟩ := bread_flat f1 h2
  have hne : b ≠ c := fun heq => by
    have := g1.busy
    rw [heq, g2.wasFree] at this
    simp at this
  have hb : st'.buf b = m.buf b := g2.others b hne
  refine ⟨f2, by unfold Caches; rw [hb]; exact g1.caches, g2.caches, hne, e1, e2,
    by rw [hb]; exact g1.busy, g2.busy, by rw [hb]; exact d1, d2, by rw [g2.disk, g1.disk],
    by rw [g2.disksize, g1.disksize], ?_⟩
  intro x hx
  have hxb : x ≠ b := fun heq => by
    rw [heq, g1.wasFree] at hx
    simp at hx
  have hmx : m.buf x = st.buf x := g1.others x hxb
  have hxc : x ≠ c := fun heq => by
    rw [← hmx, heq, g2.wasFree] at hx
    simp at hx
  exact ⟨by rw [g2.others x hxc, hmx], hxb, hxc⟩

variable {start tail : Nat} {lh : List Nat}

/-- `write_log` copies the current contents of a logged sector to its log block. -/
theorem writeLogBody_flat (h : Flat st view pinned edited)
    (hok : writeLogBody start lh tail st = .ok () st') :
    Flat st' (update view (start + tail + 1) (view (lh.getD tail 0)))
      (pinned \ {start + tail + 1}) edited ∧
    st'.disk = update st.disk (start + tail + 1) (view (lh.getD tail 0)) ∧
    Kept st st' := by
  obtain ⟨dst, m1, h1, hok⟩ := Prog.bind_eq_ok.mp hok
  obtain ⟨src, m2, h2, hok⟩ := Prog.bind_eq_ok.mp hok
  obtain ⟨_, _, hm, hok⟩ := Prog.bind_eq_ok.mp hok
  obtain ⟨rfl, rfl⟩ := Prog.get_eq_ok.mp hm
  obtain ⟨f, cto, csrc, hne, eto, esrc, bto, -, -, dsrc, hdisk, hsize, hkept⟩ :=
    bread_bread_flat h h1 h2
  obtain ⟨g1, g2, g3, g4⟩ := copySector_flat f csrc cto (Ne.symm hne) esrc eto bto dsrc hok
  refine ⟨g1, by rw [g2, hdisk], ⟨?_, by rw [g4, hsize]⟩⟩
  intro x hx
  obtain ⟨hx1, hx2, hx3⟩ := hkept x hx
  rw [g3 x hx3 hx2, hx1]

/-- `install_trans` copies a log block to the sector it belongs to. -/
theorem installBody_flat (h : Flat st view pinned edited)
    (hok : installBody start lh tail st = .ok () st') :
    Flat st' (update view (lh.getD tail 0) (view (start + tail + 1)))
      (pinned \ {lh.getD tail 0}) edited ∧
    st'.disk = update st.disk (lh.getD tail 0) (view (start + tail + 1)) ∧
    Kept st st' := by
  obtain ⟨lbuf, m1, h1, hok⟩ := Prog.bind_eq_ok.mp hok
  obtain ⟨dbuf, m2, h2, hok⟩ := Prog.bind_eq_ok.mp hok
  obtain ⟨_, _, hm, hok⟩ := Prog.bind_eq_ok.mp hok
  obtain ⟨rfl, rfl⟩ := Prog.get_eq_ok.mp hm
  obtain ⟨f, cl, cd, hne, el, ed, -, bd, dl, -, hdisk, hsize, hkept⟩ :=
    bread_bread_flat h h1 h2
  obtain ⟨g1, g2, g3, g4⟩ := copySector_flat f cl cd hne el ed bd dl hok
  refine ⟨g1, by rw [g2, hdisk], ⟨?_, by rw [g4, hsize]⟩⟩
  intro x hx
  obtain ⟨hx1, hx2, hx3⟩ := hkept x hx
  rw [g3 x hx2 hx3, hx1]

theorem writeHead_flat (h : Flat st view pinned edited) (hok : writeHead start lh st = .ok () st') :
    Flat st' (update view start (putHead lh (view start))) (pinned \ {start}) edited ∧
    st'.disk = update st.disk start (putHead lh (view start)) ∧ Kept st st' := by
  obtain ⟨b, m, h1, hok⟩ := Prog.bind_eq_ok.mp hok
  obtain ⟨_, _, hm, hok⟩ := Prog.bind_eq_ok.mp hok
  obtain ⟨rfl, rfl⟩ := Prog.get_eq_ok.mp hm
  obtain ⟨_, m1, h2, hok⟩ := Prog.bind_eq_ok.mp hok
  obtain ⟨_, m2, h3, h4⟩ := Prog.bind_eq_ok.mp hok
  obtain ⟨g, f, hE, hd⟩ := bread_flat h h1
  obtain ⟨o1, f1, d1, b1, k1⟩ := setData_flat f g.caches g.busy h2
  obtain ⟨o2, f2, k2, d2, b2⟩ := bwrite_flat f1 (o1.caches _ g.caches) h3
  rw [Set.insert_sdiff_self_of_notMem hE, d1, hd] at f2
  obtain ⟨o3, f3, k3, -⟩ := brelse_flat f2 (o2.caches _ (o1.caches _ g.caches)) hE h4
  refine ⟨f3, by rw [k3, k2, k1, d1, hd, g.disk], ⟨?_, ?_⟩⟩
  · intro x hx
    have hxb : x ≠ b := fun heq => by
      rw [heq, g.wasFree] at hx
      simp at hx
    rw [o3.others x hxb, o2.others x hxb, o1.others x hxb, g.others x hxb]
  · rw [o3.disksize, o2.disksize, o1.disksize, g.disksize]

theorem readHead_flat (h : Flat st view pinned edited) (hok : readHead start st = .ok lh st') :
    lh = headSectors (view start) ∧ Flat st' view pinned edited ∧ st'.disk = st.disk ∧
    Kept st st' := by
  obtain ⟨b, m, h1, hok⟩ := Prog.bind_eq_ok.mp hok
  obtain ⟨_, _, hm, hok⟩ := Prog.bind_eq_ok.mp hok
  obtain ⟨rfl, rfl⟩ := Prog.get_eq_ok.mp hm
  obtain ⟨_, m1, h2, hok⟩ := Prog.bind_eq_ok.mp hok
  obtain ⟨rfl, rfl⟩ := Prog.pure_eq_ok.mp hok
  obtain ⟨g, f, hE, hd⟩ := bread_flat h h1
  obtain ⟨o1, f1, k1, -⟩ := brelse_flat f g.caches hE h2
  refine ⟨by rw [hd], f1, by rw [k1, g.disk], ⟨?_, by rw [o1.disksize, g.disksize]⟩⟩
  intro x hx
  have hxb : x ≠ b := fun heq => by
    rw [heq, g.wasFree] at hx
    simp at hx
  rw [o1.others x hxb, g.others x hxb]

end

end Xv6
