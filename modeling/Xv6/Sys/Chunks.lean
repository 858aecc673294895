import Xv6.Mkfs.Agree
import Xv6.Sys.Still

/-!
# Writing in chunks

`filewrite` cuts a write into transactions of at most `filewriteMax` bytes. Each `writei` only looks
at its own chunk, so a write that goes beyond the largest file is cut off at a chunk and not refused
as a whole.
-/

namespace Xv6

open Function List

open Lib Act Kernel

/-! ## The file -/

/-- What a write gives: its result, the file, and the offset behind it. -/
@[ext] structure Written where
  result : Int
  file : Vnode
  off : Nat

namespace Vnode

/-- One `writei` of all the bytes, with the offset moved on if it succeeds. -/
def write (nd : Vnode) (src : Nat → UInt8) (off n : Nat) : Written :=
  if nd.Accepts off n then ⟨n, nd.put src off n, off + n⟩ else ⟨-1, nd, off⟩

theorem put_zero (nd : Vnode) (src : Nat → UInt8) (off : Nat) : nd.put src off 0 = nd := by
  apply Vnode.ext
  case size => simp [put]
  case byte =>
    funext o
    simp only [put]
    rw [if_neg (by omega)]
  all_goals rfl

theorem put_put (nd : Vnode) (src : Nat → UInt8) (off n m : Nat) :
    (nd.put src off n).put (fun i => src (i + n)) (off + n) m = nd.put src off (n + m) := by
  apply Vnode.ext
  case size =>
    simp only [put]
    split_ifs <;> omega
  case byte =>
    funext o
    simp only [put]
    by_cases hin : off + n ≤ o ∧ o < off + n + m
    · rw [if_pos hin, if_pos (by omega)]
      congr 1
      omega
    · rw [if_neg hin]
      by_cases hold : off ≤ o ∧ o < off + n
      · rw [if_pos hold, if_pos (by omega)]
      · rw [if_neg hold, if_neg (by omega)]
  all_goals rfl

theorem Accepts.mono {nd : Vnode} {off n m : Nat} (h : nd.Accepts off n) (hm : m ≤ n) :
    nd.Accepts off m := by
  obtain ⟨h1, h2, h3⟩ := h
  exact ⟨h1, by omega, by omega⟩

/-- A chunk that starts behind one that was written. -/
theorem accepts_put {nd : Vnode} {src : Nat → UInt8} {off n m : Nat} (hn : 0 < n)
    (h : nd.Accepts off n) :
    (nd.put src off n).Accepts (off + n) m ↔ nd.Accepts off (n + m) := by
  have hsize : off + n ≤ (nd.put src off n).size := by
    simp only [put]
    split_ifs <;> omega
  have hoff := h.1
  unfold Accepts
  constructor
  · rintro ⟨-, h2, h3⟩
    exact ⟨hoff, by omega, by omega⟩
  · rintro ⟨-, h2, h3⟩
    exact ⟨hsize, by omega, by omega⟩

end Vnode

/-- Of a write of `n` bytes in chunks, `m` bytes have been written at the end. -/
structure Cut (nd : Vnode) (off n m : Nat) : Prop where
  le : m ≤ n
  accepted : 0 < m → nd.Accepts off m ∧ min n filewriteMax ≤ m
  refused : m < n → ¬ nd.Accepts off n
  first : m = 0 → 0 < n → ¬ nd.Accepts off (min n filewriteMax)

namespace Cut

variable {nd : Vnode} {off n m : Nat} {src : Nat → UInt8}

theorem done (nd : Vnode) (off : Nat) : Cut nd off 0 0 :=
  ⟨le_rfl, fun h => absurd h (lt_irrefl 0), fun h => absurd h (lt_irrefl 0),
    fun _ h => absurd h (lt_irrefl 0)⟩

theorem stop (h : ¬ nd.Accepts off (min n filewriteMax)) : Cut nd off n 0 :=
  ⟨Nat.zero_le n, fun h => absurd h (lt_irrefl 0), fun _ hn => h (hn.mono (Nat.min_le_left ..)),
    fun _ _ => h⟩

/-- The next chunk is accepted, and the rest of the write goes on behind it. -/
theorem step (hn : 0 < n) (hacc : nd.Accepts off (min n filewriteMax))
    (h : Cut (nd.put src off (min n filewriteMax)) (off + min n filewriteMax)
      (n - min n filewriteMax) m) : Cut nd off n (min n filewriteMax + m) := by
  have hmax : 0 < filewriteMax := by decide
  have hpos : 0 < min n filewriteMax := Nat.lt_min.mpr ⟨hn, hmax⟩
  have hle : min n filewriteMax ≤ n := Nat.min_le_left ..
  have hrest := h.le
  refine ⟨by omega, fun _ => ⟨?_, Nat.le_add_right ..⟩, fun hlt hall => ?_, fun hzero => by omega⟩
  · by_cases hm : m = 0
    · rw [hm, Nat.add_zero]
      exact hacc
    · exact (Vnode.accepts_put hpos hacc).mp (h.accepted (by omega)).1
  · refine h.refused (by omega) ((Vnode.accepts_put hpos hacc).mpr ?_)
    rwa [Nat.add_sub_cancel' hle]

/-- When the chunks make one write. -/
theorem write_iff (h : Cut nd off n m) :
    (⟨if m = n then n else -1, nd.put src off m, off + m⟩ : Written) = nd.write src off n ↔
      (0 < n ∨ nd.Accepts off 0) ∧
        (nd.Accepts off n ∨ ¬ nd.Accepts off (min n filewriteMax)) := by
  have hle := h.le
  unfold Vnode.write
  by_cases hall : nd.Accepts off n
  · have hmn : m = n := by
      by_contra hne
      exact h.refused (by omega) hall
    rw [if_pos hall, hmn, if_pos rfl]
    exact iff_of_true rfl ⟨.inr (hall.mono (Nat.zero_le n)), .inl hall⟩
  rw [if_neg hall]
  have hzero : m = n → n = 0 := by
    intro hmn
    by_contra hn
    exact hall (hmn ▸ (h.accepted (by omega)).1)
  by_cases hm : m = 0
  · subst hm
    by_cases hn : n = 0
    · subst hn
      rw [if_pos rfl]
      refine iff_of_false (fun heq => ?_) fun hc => (hc.1.resolve_left (lt_irrefl 0)) |> hall
      have := congrArg Written.result heq
      simp at this
    · rw [if_neg (by omega), Nat.add_zero, Vnode.put_zero]
      exact iff_of_true rfl ⟨.inl (by omega), .inr (h.first rfl (by omega))⟩
  · refine iff_of_false (fun heq => ?_) fun hc => ?_
    · have hoff : off + m = off := congrArg Written.off heq
      omega
    · obtain ⟨hacc, hmin⟩ := h.accepted (by omega)
      exact (hc.2.resolve_left hall) (hacc.mono hmin)

end Cut

/-! ## What one transaction takes -/

section

variable {r : Region} {inum : Nat} {v v' : Nat → Block} {ino : Nat → Dinode} {off n : Nat}

theorem card_touched_le (hn : n ≤ filewriteMax) : (touched off n).card ≤ 14 := by
  have hsub : touched off n ⊆ Finset.Ico (off / BSIZE) (off / BSIZE + 14) := by
    intro bn hbn
    obtain ⟨-, h2, h3⟩ := touches_of_mem hbn
    have hmax : filewriteMax = 6656 := rfl
    simp only [BSIZE] at h2 h3 ⊢
    rw [Finset.mem_Ico]
    omega
  exact (Finset.card_le_card hsub).trans (by simp)

theorem card_newPositions_le (hn : n ≤ filewriteMax) :
    (newPositions r inum v ino off n).card ≤ 15 := by
  have hmissing : (missing r inum v ino off n).card ≤ (touched off n).card :=
    Finset.card_le_card (Finset.filter_subset ..)
  have htouched : (touched off n).card ≤ 14 := card_touched_le hn
  rw [card_newPositions]
  split_ifs <;> omega

/-- With one bitmap block, a chunk logs at most 17 sectors. -/
theorem budget_le (hn : n ≤ filewriteMax) (hone : r.sb.size ≤ BPB) :
    budget r inum v ino off n ≤ 17 := by
  have hbitmap : (bitmapSectors r inum v ino off n).card ≤ 1 := by
    refine Finset.card_le_one.mpr fun s hs t ht => ?_
    obtain ⟨b, hb, rfl⟩ := mem_bitmapSectors.mp hs
    obtain ⟨c, hc, rfl⟩ := mem_bitmapSectors.mp ht
    have := lt_of_mem_newBlocks hb
    have := lt_of_mem_newBlocks hc
    unfold bblock
    rw [show b / BPB = 0 from Nat.div_eq_of_lt (by omega),
      show c / BPB = 0 from Nat.div_eq_of_lt (by omega)]
  have htouched : (touched off n).card ≤ 14 := card_touched_le hn
  unfold budget
  split_ifs <;> omega

/-- The free blocks in front of the log. -/
def freeBelow (r : Region) (start : Nat) (v : Nat → Block) : List Nat :=
  (freeBlocks r.sb v).filter (· < start)

/-- The blocks that are taken are the first free ones, so they lie in front of the log while there
are enough of them. -/
theorem lt_of_taken {start : Nat} {taken : List Nat}
    (h : freeBlocks r.sb v = taken ++ freeBlocks r.sb v')
    (henough : taken.length ≤ (freeBelow r start v).length) : ∀ b ∈ taken, b < start := by
  intro b hb
  by_contra hge
  have hsorted : (freeBlocks r.sb v).Pairwise (· < ·) := pairwise_lt_range.filter _
  rw [h, pairwise_append] at hsorted
  have hrest : (freeBlocks r.sb v').filter (· < start) = [] := by
    refine filter_eq_nil_iff.mpr fun c hc hlt => ?_
    have := hsorted.2.2 b hb c hc
    have := of_decide_eq_true hlt
    omega
  have hless : (taken.filter (· < start)).length < taken.length := by
    refine length_filter_lt_length_iff_exists.mpr ⟨b, hb, ?_⟩
    simpa using hge
  rw [freeBelow, h, filter_append, hrest, append_nil] at henough
  omega

theorem length_freeBelow {start : Nat} {taken : List Nat}
    (h : freeBlocks r.sb v = taken ++ freeBlocks r.sb v') :
    (freeBelow r start v).length ≤ taken.length + (freeBelow r start v').length := by
  unfold freeBelow
  rw [h, filter_append, length_append]
  exact Nat.add_le_add_right (length_filter_le ..) _

end

/-! ## One transaction -/

/-- The blocks of files lie in front of the log. -/
def below (r : Region) (start : Nat) : Rules where
  region := r
  limit := start
  exact := False
  content := fun _ _ => True
  content_zero := fun _ => trivial

namespace Kernel

/-- Entry `e` of the inode cache is the regular file `j` of a file system with a log behind it. -/
structure Regular (r : Region) (start : Nat) (e : Fin NINODE) (j : Nat) (v : Nat → Block)
    (ino : Nat → Dinode) (k : Kernel) : Prop where
  coherent : Coherent (below r start) k v ino
  stands : Stands r.sb.ninodes (k.icache e) j
  type : (k.icache e).d.type ≠ T_DEV
  order : r.lo ≤ start
  listed : ∀ s ∈ k.log.lh, s < start
  idle : k.log.committing = false
  start : k.log.start = start

/-- There is room for transactions that take `blocks` blocks in all: nobody else uses the log, the
buffers or the inode, and the bitmap is one block. -/
structure Space (r : Region) (start : Nat) (e : Fin NINODE) (v : Nat → Block) (blocks : Nat)
    (k : Kernel) : Prop where
  free : ∀ b, (k.store.buf b).busy = false
  disk : r.top ≤ k.store.disksize
  log : start + LOGSIZE ≤ r.top
  size : k.log.size = LOGSIZE
  outstanding : k.log.outstanding = 0
  empty : k.log.lh = []
  unlocked : (k.icache e).busy = false
  bitmap : r.sb.size ≤ BPB
  blocks : blocks ≤ (freeBelow r start v).length

section

variable {r : Region} {start j : Nat} {e : Fin NINODE} {v v' : Nat → Block} {ino : Nat → Dinode}
  {k k' : Kernel} {src : Nat → UInt8} {off n blocks : Nat}

theorem Poised.free {top : Nat} {L : Finset Nat} (h : Poised top L [] k) (b : Fin NBUF) :
    (k.store.buf b).busy = false := by
  by_contra hb
  obtain ⟨s, hs⟩ := h.held b (by simpa using hb)
  exact not_mem_nil hs

theorem beginOp_never (hidle : k.log.committing = false) (hout : k.log.outstanding = 0)
    (hlh : k.log.lh = []) : Ends beginOp k (fun _ _ _ => True) Never := by
  apply ends_get_bind
  have hbegin : k.log.beginOp = some { k.log with outstanding := k.log.outstanding + 1 } := by
    rw [Log.beginOp_eq_some]
    refine ⟨hidle, ?_, rfl⟩
    rw [hlh, hout]
    decide
  rw [hbegin]
  exact ends_modify trivial

theorem iunlock_never (hbusy : (k.icache e).busy = true) (href : 0 < (k.icache e).ref) :
    Ends (iunlock e) k (fun _ k' _ => k'.store = k.store ∧ k'.log = k.log) Never := by
  apply ends_inode_bind
  rw [if_neg (by rw [hbusy]; simp; omega)]
  apply setInode_ends.mono
  rintro _ _ _ ⟨rfl, -⟩
  exact ⟨rfl, rfl⟩

/-- A transaction has room for a chunk if nobody else uses the log and the buffers. -/
theorem room_of_chunk (hn : n ≤ filewriteMax) (hp : Poised r.top ∅ [] k) (hlh : k.log.lh = [])
    (hout : k.log.outstanding = 1) (hsize : k.log.size = LOGSIZE) (hmap : r.sb.size ≤ BPB)
    (hblocks : 15 ≤ (freeBlocks r.sb v).length) : Room r k v ino j off n := by
  have hbudget : budget r j v ino off n ≤ 17 := budget_le hn hmap
  refine ⟨hp.free, hp.disk, by omega, by rw [hlh]; exact nodup_nil, ?_, ?_,
    (card_newPositions_le hn).trans hblocks⟩
  · rw [hlh, length_nil]
    exact (Nat.add_le_add_right (Nat.add_le_add_left hbudget 0) 3).trans (by decide)
  · rw [hlh, length_nil, hsize]
    exact (Nat.add_le_add_left hbudget 0).trans_lt (by decide)

/-- The end of a transaction: the file stays as it is, and with room there is room again. -/
theorem leave_ends {α : Type} {x : α} {P : Prop} (h : Regular r start e j v ino k)
    (hbusy : (k.icache e).busy = true)
    (hroom : P → ∃ L, Poised r.top L [] k ∧ InTrans L k ∧ start + LOGSIZE ≤ r.top) :
    Ends (do iunlock e; endOp; return x : K α) k (fun y k' es => y = x ∧ es = [] ∧
      k'.ftable = k.ftable ∧
      (∃ v', Regular r start e j v' ino k' ∧ nodes v' r.sb.ninodes ino = nodes v r.sb.ninodes ino ∧
        freeBlocks r.sb v' = freeBlocks r.sb v) ∧
      (k'.icache e).busy = false ∧ k'.log = { k.log with
        outstanding := k.log.outstanding - 1
        lh := if k.log.outstanding = 1 then [] else k.log.lh } ∧
      (P → ∃ L, Poised r.top L [] k')) fun _ => ¬ P := by
  have hunlock : P → Ends (iunlock e) k _ Never := fun _ => iunlock_never hbusy h.stands.ref
  refine ((iunlock_ends h.coherent).when hunlock fun _ => id).bind ?_
  rintro _ k1 _ ⟨⟨hco1, rfl, hk1, -, -⟩, -⟩
  have hent1 : k1.icache e = { k.icache e with busy := false } := by
    rw [hk1]
    simp
  have hlog1 : k1.log = k.log := by rw [hk1]
  have hend : Ends endOp k1 (fun _ k2 es =>
      (∃ v', Sees k2 v' ∧ ∀ s < start, v' s = v s) ∧
      k2 = { k1 with
        store := k2.store
        log := { k.log with
          outstanding := k.log.outstanding - 1
          lh := if k.log.outstanding = 1 then [] else k.log.lh } } ∧ es = [] ∧
      (P → ∃ L, Poised r.top L [] k2)) fun _ => ¬ P := by
    have hall : ∀ (top : Nat) (L : Finset Nat), Ends endOp k1 _ fun _ =>
        ¬ Flushes top L k1.log.start k1.log.lh k1.store := fun top L =>
      endOp_ends hco1.sees (by rw [hlog1, h.start]; exact h.listed) (by rw [hlog1]; exact h.idle)
    rw [hlog1, h.start] at hall
    by_cases hP : P
    · obtain ⟨L, hp, ho, htop⟩ := hroom hP
      have hfl : Flushes r.top L start k.log.lh k1.store := by
        refine ⟨by rw [hk1]; exact hp, ?_⟩
        have := ho.length_le hp
        have := hp.room
        have hmax : NBUF = LOGSIZE := rfl
        omega
      refine ((hall r.top L).weaken fun _ hno => absurd hfl hno).mono ?_
      rintro _ k2 _ ⟨hv2, hk2, hes, hspare⟩
      exact ⟨hv2, hk2, hes, fun _ => ⟨L, hspare hfl⟩⟩
    · refine ((hall 0 ∅).weaken fun _ _ => hP).mono ?_
      rintro _ k2 _ ⟨hv2, hk2, hes, -⟩
      exact ⟨hv2, hk2, hes, fun hp => absurd hp hP⟩
  apply hend.bind
  rintro _ k2 _ ⟨⟨v2, hsees2, hv2⟩, hk2, rfl, hroom2⟩
  have hic2 : k2.icache = k1.icache := by rw [hk2]
  have hlog2 : k2.log = { k.log with
      outstanding := k.log.outstanding - 1
      lh := if k.log.outstanding = 1 then [] else k.log.lh } := by rw [hk2]
  have hmeta : ∀ s < r.lo, v2 s = v s := fun s hs => hv2 s (hs.trans_le h.order)
  have hkeep : ∀ {p b}, refs v r.sb.ninodes ino p = some b → v2 b = v b := fun hp =>
    hv2 _ (h.coherent.below _ _ hp)
  refine ends_pure ⟨rfl, rfl, ?_, ⟨v2, ?_, nodes_congr fun _ _ hp => hkeep hp, ?_⟩, ?_, hlog2, hroom2⟩
  · rw [hk2, hk1]
  · refine ⟨hco1.of_view hic2 hsees2 hmeta hkeep, ?_, ?_, h.order, ?_, ?_, ?_⟩
    · rw [hic2, hent1]
      exact ⟨h.stands.ref, h.stands.valid, h.stands.inum, h.stands.onDisk⟩
    · rw [hic2, hent1]
      exact h.type
    · rw [hlog2]
      intro s hs
      by_cases hone : k.log.outstanding = 1
      · rw [show (if k.log.outstanding = 1 then [] else k.log.lh) = [] from if_pos hone] at hs
        exact absurd hs not_mem_nil
      · rw [show (if k.log.outstanding = 1 then [] else k.log.lh) = k.log.lh from if_neg hone] at hs
        exact h.listed s hs
    · rw [hlog2]
      exact h.idle
    · rw [hlog2]
      exact h.start
  · exact freeBlocks_congr fun b hb =>
      bit_congr (hmeta _ (r.bitmap b (hb.trans_le r.size_le)))
  · rw [hic2, hent1]

/-- The file, the offset and the result after `writei` has been asked to write a chunk. -/
structure Chunked (r : Region) (j : Nat) (f : Fin NFILE) (src : Nat → UInt8) (n : Nat)
    (v : Nat → Block) (ino : Nat → Dinode) (k : Kernel) (x : Option Nat) (v' : Nat → Block)
    (ino' : Nat → Dinode) (k' : Kernel) : Prop where
  taken : (nodes v r.sb.ninodes ino j).Accepts (k.ftable f).off n → x = some n ∧
    nodes v' r.sb.ninodes ino' = update (nodes v r.sb.ninodes ino) j
      ((nodes v r.sb.ninodes ino j).put src (k.ftable f).off n) ∧
    k'.ftable = update k.ftable f { k.ftable f with off := (k.ftable f).off + n }
  refused : ¬ (nodes v r.sb.ninodes ino j).Accepts (k.ftable f).off n → x = none ∧
    nodes v' r.sb.ninodes ino' = nodes v r.sb.ninodes ino ∧ k'.ftable = k.ftable

/-- What `writei` does to a regular file, and to the free blocks. -/
theorem writei_regular (h : Regular r start e j v ino k) :
    Ends (writei e src off n) k (fun x k' es => Touched k k' e ∧
      (k'.icache e).busy = (k.icache e).busy ∧
      (∃ v', Sees k' v' ∧ freeBlocks r.sb v = ballocs es ++ freeBlocks r.sb v' ∧
        (ballocs es).length ≤ (newPositions r j v ino off n).card) ∧
      ((∀ ev ∈ es, Within start ev) → ∃ v' ino', Regular r start e j v' ino' k' ∧
        if (nodes v r.sb.ninodes ino j).Accepts off n then x = some n ∧
          nodes v' r.sb.ninodes ino' = update (nodes v r.sb.ninodes ino) j
            ((nodes v r.sb.ninodes ino j).put src off n)
        else x = none ∧ nodes v' r.sb.ninodes ino' = nodes v r.sb.ninodes ino)) Benign := by
  obtain rfl := h.stands.inum
  have hd := (h.coherent.entry e _ h.stands).1
  have hlist : Ends (writei e src off n) k (fun _ k' es =>
      ∀ s ∈ k'.log.lh, s ∈ k.log.lh ∨ .logWrite s ∈ es) fun _ => True :=
    (stillOn_writei (D := {e}) e src off n rfl k h.stands.valid).mono (fun _ _ _ ht => ht.listed)
      fun _ _ _ => trivial
  apply (((writei_ends h.coherent h.stands.ref h.stands.valid (fun _ => h.stands.onDisk)
    fun _ _ _ _ => trivial).and (writei_takes h.coherent.sees h.coherent.sound
      (h.coherent.allocated h.stands) hd h.type)).and hlist).mono
  rintro x k' es ⟨⟨⟨hpost, ht, hent, -⟩, w, hsees, hfree, hle, -⟩, hlisted⟩
  refine ⟨ht, by rw [hent], ⟨w, hsees, hfree, hle⟩, fun hwithin => ?_⟩
  obtain ⟨⟨v', ino', hco, hwrote, -⟩, hlow⟩ := hpost hwithin
  refine ⟨v', ino', ⟨hco, ?_, ?_, h.order, fun s hs => ?_, ?_, ?_⟩, ?_⟩
  · rw [hent]
    exact ⟨h.stands.ref, h.stands.valid, rfl, h.stands.onDisk⟩
  · rw [hent]
    exact h.type
  · rcases hlisted s hs with hs | hs
    · exact h.listed s hs
    · exact (hlow s hs).trans_le (max_le h.order le_rfl)
  · rw [ht.log]
    exact h.idle
  · rw [ht.log]
    exact h.start
  · rwa [Wrote, if_neg h.type] at hwrote

theorem ilock_valid (hv : (k.icache e).valid = true) :
    Ends (ilock e) k (fun _ k' es => k' = { k with
      icache := update k.icache e { k.icache e with busy := true } } ∧ es = [])
      Quietly := by
  apply ends_inode_bind
  refine ends_ite (fun _ => ends_panic (by decide)) fun _ => ?_
  refine ends_ite (fun _ => ends_sleep (by decide)) fun _ => ends_modify_bind ?_
  rw [if_pos hv]
  exact ends_pure ⟨rfl, rfl⟩

/-- One transaction of `filewrite`. -/
theorem filewriteChunk_ends {f : Fin NFILE} (h : Regular r start e j v ino k)
    (hoff : (k.ftable f).off < 2 ^ 32) (hn : n ≤ filewriteMax) :
    Ends (filewriteChunk f e src n) k (fun x k' es =>
      (Space r start e v (blocks + 16) k → (∀ ev ∈ es, Within start ev) ∧
        ∀ v', Sees k' v' → Space r start e v' blocks k') ∧
      ((∀ ev ∈ es, Within start ev) → ∃ v' ino', Regular r start e j v' ino' k' ∧
        Chunked r j f src n v ino k x v' ino' k'))
      fun _ => ¬ Space r start e v (blocks + 16) k := by
  have hbegin : Space r start e v (blocks + 16) k → Ends beginOp k _ Never := fun hs =>
    beginOp_never h.idle hs.outstanding hs.empty
  refine ((beginOp_ends h.coherent.sees).when hbegin fun _ => id).bind ?_
  rintro _ k1 _ ⟨⟨hsees1, hk1, hlog1, -, rfl⟩, -⟩
  have hic1 : k1.icache = k.icache := by rw [hk1]
  have hco1 : Coherent (below r start) k1 v ino := h.coherent.congr hic1 hsees1
  have hp1 : Space r start e v (blocks + 16) k → Poised r.top ∅ [] k1 := fun hs => by
    refine poised_of_free (by rw [hk1]; exact hs.free) (by rw [hk1]; exact hs.disk) ?_ (by decide)
    rw [hlog1]
    intro s hs'
    rw [show s ∈ k.log.lh ↔ s ∈ ([] : List Nat) by rw [hs.empty]] at hs'
    exact absurd hs' not_mem_nil
  have hlock : Space r start e v (blocks + 16) k → Ends (ilock e) k1 _ Never := fun hs =>
    ilock_poised hsees1 (hp1 hs) (hco1.root e (by rw [hic1]; exact h.stands.ref))
      (by rw [hic1]; exact h.stands.ref) (by rw [hic1]; exact hs.unlocked)
      (by
        rw [hic1, h.stands.inum]
        exact (r.iblock_lt h.stands.onDisk.2).trans_le (r.order.trans r.hi_le))
      fun hv => absurd (hic1 ▸ h.stands.valid) (by rw [hv]; exact Bool.false_ne_true)
  have hlist : Ends (ilock e) k1 (fun _ k' _ => k'.log.lh = k1.log.lh) Quietly := by
    apply (ilock_valid (by rw [hic1]; exact h.stands.valid)).mono
    rintro _ k' _ ⟨rfl, -⟩
    rfl
  refine (((ilock_ends hco1).and hlist).when hlock fun _ => id).bind ?_
  rintro _ k2 _ ⟨⟨⟨hco2, rfl, ht2, -, -, -, hent2⟩, hlh2⟩, hp2⟩
  have hentry2 : k2.icache e = { k.icache e with busy := true } := by
    rw [hent2 (by rw [hic1]; exact h.stands.valid), hic1]
  have hlog2 : k2.log = k1.log := by rw [ht2.log, hlh2]
  have hreg2 : Regular r start e j v ino k2 := by
    refine ⟨hco2, ?_, ?_, h.order, ?_, ?_, ?_⟩
    · rw [hentry2]
      exact ⟨h.stands.ref, h.stands.valid, h.stands.inum, h.stands.onDisk⟩
    · rw [hentry2]
      exact h.type
    · rw [hlog2, hlog1]
      exact h.listed
    · rw [hlog2, hlog1]
      exact h.idle
    · rw [hlog2, hlog1]
      exact h.start
  have hft2 : k2.ftable = k.ftable := by rw [ht2.frame, hk1]
  apply ends_get_bind
  rw [hft2]
  have hwrite : Space r start e v (blocks + 16) k →
      Ends (writei e src (k.ftable f).off n) k2 _ Never := fun hs =>
    writei_returns hreg2.coherent hreg2.stands hreg2.type
      (room_of_chunk hn (hp2 hs).1 (by rw [hlog2, hlog1]; exact hs.empty)
        (by rw [hlog2, hlog1]; simp [hs.outstanding]) (by rw [hlog2, hlog1]; exact hs.size)
        hs.bitmap ((by have := hs.blocks; omega : 15 ≤ (freeBelow r start v).length).trans
          (length_filter_le ..)))
  refine ((writei_regular hreg2).when hwrite fun _ => id).bind ?_
  rintro x k3 es ⟨⟨ht3, hbusy3, ⟨w, hsees3, htaken, hcount⟩, hpost⟩, hroom3⟩
  have hcount' : (ballocs es).length ≤ 15 := hcount.trans (card_newPositions_le hn)
  have hwithin : Space r start e v (blocks + 16) k → ∀ ev ∈ es, Within start ev := by
    intro hs ev hev
    cases ev with
    | balloc st b =>
      have := hs.blocks
      exact lt_of_taken htaken (by omega) b (mem_ballocs.mpr ⟨st, hev⟩)
    | _ => trivial
  by_cases hin : ∀ ev ∈ es, Within start ev
  case neg =>
    refine (ends_true.weaken fun _ _ hs => hin (hwithin hs)).mono ?_
    rintro y k' es' -
    refine ⟨fun hs => absurd (hwithin hs) hin, fun hall => absurd (fun ev hev => ?_) hin⟩
    exact hall ev (by simp [hev])
  obtain ⟨v3, ino3, hreg3, hwrote⟩ := hpost hin
  obtain rfl : w = v3 := (Flat.peek hsees3).symm.trans (Flat.peek hreg3.coherent.sees)
  apply ends_modify_bind
  obtain ⟨k4, hk4⟩ : ∃ k4, { k3 with
      ftable := update k3.ftable f
        { k3.ftable f with off := ((k3.ftable f).off + x.getD 0) % 2 ^ 32 } } = k4 := ⟨_, rfl⟩
  rw [hk4]
  have hreg4 : Regular r start e j w ino3 k4 := by
    subst hk4
    exact ⟨hreg3.coherent.congr rfl hreg3.coherent.sees, hreg3.stands, hreg3.type, hreg3.order,
      hreg3.listed, hreg3.idle, hreg3.start⟩
  have hroom4 : Space r start e v (blocks + 16) k →
      ∃ L, Poised r.top L [] k4 ∧ InTrans L k4 ∧ start + LOGSIZE ≤ r.top := by
    intro hs
    obtain ⟨L, hp, ho⟩ := hroom3 hs
    subst hk4
    exact ⟨L, hp.congr rfl rfl, ho.congr rfl, hs.log⟩
  have hbusy4 : (k4.icache e).busy = true := by
    subst hk4
    rw [hbusy3, hentry2]
  have hft4 : k4.ftable = update k.ftable f
      { k.ftable f with off := ((k.ftable f).off + x.getD 0) % 2 ^ 32 } := by
    have hft3 : k3.ftable = k.ftable := by rw [ht3.frame, hft2]
    rw [← hk4, ← hft3]
  have hlog4 : k4.log = { k1.log with lh := k3.log.lh } := by
    rw [← hk4]
    change k3.log = _
    rw [ht3.log, hlog2]
  apply (leave_ends hreg4 hbusy4 hroom4).mono
  rintro _ k5 _ ⟨rfl, rfl, hft5, ⟨v5, hreg5, hnodes5, hfree5⟩, hbusy5, hlog5, hroom5⟩
  refine ⟨fun hs => ⟨fun ev hev => hwithin hs ev (by simpa using hev), fun v' hv' => ?_⟩,
    fun _ => ⟨v5, ino3, hreg5, ⟨fun hacc => ?_, fun hno => ?_⟩⟩⟩
  · obtain rfl : v5 = v' := (Flat.peek hreg5.coherent.sees).symm.trans (Flat.peek hv')
    obtain ⟨L, hp5⟩ := hroom5 hs
    have hout : k4.log.outstanding = 1 := by
      rw [hlog4, hlog1]
      simp [hs.outstanding]
    rw [hout] at hlog5
    refine ⟨hp5.free, hp5.disk, hs.log, ?_, ?_, ?_, hbusy5, hs.bitmap, ?_⟩
    · rw [hlog5, hlog4, hlog1]
      exact hs.size
    · rw [hlog5]
      rfl
    · rw [hlog5]
      rfl
    · have hlen : (freeBelow r start v).length ≤ _ := length_freeBelow htaken
      have := hs.blocks
      unfold freeBelow at hlen this ⊢
      rw [hfree5]
      omega
  · rw [if_pos hacc] at hwrote
    obtain ⟨rfl, hnodes⟩ := hwrote
    refine ⟨rfl, hnodes5.trans hnodes, ?_⟩
    rw [hft5, hft4, Option.getD_some, Nat.mod_eq_of_lt hacc.2.1]
  · rw [if_neg hno] at hwrote
    obtain ⟨rfl, hnodes⟩ := hwrote
    refine ⟨rfl, hnodes5.trans hnodes, ?_⟩
    rw [hft5, hft4, Option.getD_none, Nat.add_zero, Nat.mod_eq_of_lt hoff]
    exact update_eq_self f k.ftable

/-! ## The loop -/

/-- The transactions for `n` bytes. -/
def transactions (n : Nat) : Nat := (n + filewriteMax - 1) / filewriteMax

theorem transactions_step {left : Nat} (h : left ≠ 0) :
    16 * transactions left = 16 * transactions (left - min left filewriteMax) + 16 := by
  have hmax : filewriteMax = 6656 := rfl
  unfold transactions
  rw [hmax]
  omega

/-- What the loop of `filewrite` has done when it ends: `m` bytes are in the file, and the offset
is behind them. -/
theorem filewriteLoop_ends {f : Fin NFILE} (turns : Nat) : ∀ {k : Kernel} {v : Nat → Block}
    {ino : Nat → Dinode} (src : Nat → UInt8) (i left : Nat), left ≤ turns →
    Regular r start e j v ino k → (k.ftable f).off < 2 ^ 32 →
    Ends (filewriteLoop f e turns src i left) k (fun x k' es =>
      (Space r start e v (16 * transactions left) k → ∀ ev ∈ es, Within start ev) ∧
      ((∀ ev ∈ es, Within start ev) → ∃ v' ino' m, Coherent (below r start) k' v' ino' ∧
        x = i + m ∧ Cut (nodes v r.sb.ninodes ino j) (k.ftable f).off left m ∧
        nodes v' r.sb.ninodes ino' = update (nodes v r.sb.ninodes ino) j
          ((nodes v r.sb.ninodes ino j).put src (k.ftable f).off m) ∧
        (k'.ftable f).off = (k.ftable f).off + m))
      fun _ => ¬ Space r start e v (16 * transactions left) k := by
  have hstop : ∀ {v : Nat → Block} {ino : Nat → Dinode} {src : Nat → UInt8} {off : Nat},
      nodes v r.sb.ninodes ino = update (nodes v r.sb.ninodes ino) j
        ((nodes v r.sb.ninodes ino j).put src off 0) := by
    intro v ino src off
    rw [Vnode.put_zero, update_eq_self]
  induction turns with
  | zero =>
    intro k v ino src i left hle h _
    obtain rfl : left = 0 := by omega
    exact ends_pure ⟨by simp, fun _ => ⟨v, ino, 0, h.coherent, rfl, .done .., hstop, rfl⟩⟩
  | succ turns ih =>
    intro k v ino src i left hle h hoff
    unfold filewriteLoop
    by_cases hleft : left = 0
    · rw [if_pos hleft]
      subst hleft
      exact ends_pure ⟨by simp, fun _ => ⟨v, ino, 0, h.coherent, rfl, .done .., hstop, rfl⟩⟩
    rw [if_neg hleft, transactions_step hleft]
    obtain ⟨n, hn⟩ : ∃ n, min left filewriteMax = n := ⟨_, rfl⟩
    have hmax : n ≤ filewriteMax := hn ▸ Nat.min_le_right ..
    have hpos : 0 < n := hn ▸ Nat.lt_min.mpr ⟨by omega, by decide⟩
    simp only [hn]
    apply (filewriteChunk_ends h hoff hmax).bind
    rintro x k1 es ⟨hspace, hpost⟩
    by_cases hin : ∀ ev ∈ es, Within start ev
    case neg =>
      refine (ends_true.weaken fun _ _ hs => hin (hspace hs).1).mono ?_
      rintro y k' es' -
      exact ⟨fun hs => absurd (hspace hs).1 hin,
        fun hall => absurd (fun ev hev => hall ev (mem_append_left _ hev)) hin⟩
    obtain ⟨v1, ino1, hreg1, hchunk⟩ := hpost hin
    by_cases hacc : (nodes v r.sb.ninodes ino j).Accepts (k.ftable f).off n
    · obtain ⟨rfl, hnodes1, hft1⟩ := hchunk.taken hacc
      have hoff1 : (k1.ftable f).off = (k.ftable f).off + n := by
        rw [hft1, update_self]
      have hself : nodes v1 r.sb.ninodes ino1 j =
          (nodes v r.sb.ninodes ino j).put src (k.ftable f).off n := by
        rw [hnodes1, update_self]
      dsimp only
      rw [if_pos rfl]
      have hih := ih (fun i => src (i + n)) (i + n) (left - n) (by omega) hreg1
        (by rw [hoff1]; exact hacc.2.1)
      refine (hih.weaken fun _ hno hs => hno ((hspace hs).2 v1 hreg1.coherent.sees)).mono ?_
      rintro y k2 es2 ⟨hin2, hrest⟩
      refine ⟨fun hs ev hev => (mem_append.mp hev).elim (hin ev)
        (hin2 ((hspace hs).2 v1 hreg1.coherent.sees) ev), fun hall => ?_⟩
      obtain ⟨v2, ino2, m, hco2, rfl, hcut, hnodes2, hoff2⟩ :=
        hrest fun ev hev => hall ev (mem_append_right _ hev)
      rw [hself, hoff1] at hcut hnodes2
      refine ⟨v2, ino2, n + m, hco2, Nat.add_assoc .., ?_, ?_, ?_⟩
      · subst hn
        exact .step (by omega) hacc hcut
      · rw [hnodes2, hnodes1, update_idem, Vnode.put_put]
      · rw [hoff2, hoff1, Nat.add_assoc]
    · obtain ⟨rfl, hnodes1, hft1⟩ := hchunk.refused hacc
      refine ends_pure ⟨fun _ => by rw [append_nil]; exact hin,
        fun _ => ⟨v1, ino1, 0, hreg1.coherent, rfl, .stop (hn ▸ hacc), ?_, ?_⟩⟩
      · rw [hnodes1]
        exact hstop
      · rw [hft1]
        rfl

end

end Kernel

/-! ## All of `filewrite` -/

/-- File `f` is open for writing the regular file `j`. -/
structure Kernel.Opens (r : Region) (start : Nat) (f : Fin NFILE) (e : Fin NINODE) (j : Nat)
    (v : Nat → Block) (ino : Nat → Dinode) (k : Kernel) : Prop where
  regular : Regular r start e j v ino k
  type : (k.ftable f).type = .inode
  writable : (k.ftable f).writable = true
  ip : (k.ftable f).ip = some e
  word : (k.ftable f).off < 2 ^ 32

section

variable {r : Region} {start j : Nat} {f : Fin NFILE} {e : Fin NINODE} {v : Nat → Block}
  {ino : Nat → Dinode} {k : Kernel}

theorem filewrite_ends (h : Opens r start f e j v ino k) (src : Nat → UInt8) (n : Nat) :
    Ends (filewrite f src n) k (fun x k' es =>
      (Space r start e v (16 * transactions n) k → ∀ ev ∈ es, Within start ev) ∧
      ((∀ ev ∈ es, Within start ev) → ∃ v' ino' m, Coherent (below r start) k' v' ino' ∧
        x = (if m = n then (n : Int) else -1) ∧
        Cut (nodes v r.sb.ninodes ino j) (k.ftable f).off n m ∧
        nodes v' r.sb.ninodes ino' = update (nodes v r.sb.ninodes ino) j
          ((nodes v r.sb.ninodes ino j).put src (k.ftable f).off m) ∧
        (k'.ftable f).off = (k.ftable f).off + m))
      fun _ => ¬ Space r start e v (16 * transactions n) k := by
  apply ends_get_bind
  rw [if_neg (by rw [h.writable]; simp), h.type, h.ip]
  dsimp only
  apply (filewriteLoop_ends n src 0 n le_rfl h.regular h.word).bind
  rintro x k' es ⟨hin, hpost⟩
  apply ends_pure
  rw [append_nil]
  refine ⟨hin, fun hall => ?_⟩
  obtain ⟨v', ino', m, hco, rfl, hcut, hnodes, hoff⟩ := hpost hall
  exact ⟨v', ino', m, hco, by rw [Nat.zero_add], hcut, hnodes, hoff⟩

/-- When writing in chunks is writing at once: not for an empty write behind the end of the file,
and not for a write that is too long and whose first chunk is not. -/
theorem filewrite_write_iff (h : Opens r start f e j v ino k) (src : Nat → UInt8) (n : Nat) :
    Ends (filewrite f src n) k (fun x k' es =>
      (Space r start e v (16 * transactions n) k → ∀ ev ∈ es, Within start ev) ∧
      ((∀ ev ∈ es, Within start ev) → ∃ v' ino', Coherent (below r start) k' v' ino' ∧
        (∀ i, i ≠ j → nodes v' r.sb.ninodes ino' i = nodes v r.sb.ninodes ino i) ∧
        ((⟨x, nodes v' r.sb.ninodes ino' j, (k'.ftable f).off⟩ : Written) =
            (nodes v r.sb.ninodes ino j).write src (k.ftable f).off n ↔
          (0 < n ∨ (nodes v r.sb.ninodes ino j).Accepts (k.ftable f).off 0) ∧
            ((nodes v r.sb.ninodes ino j).Accepts (k.ftable f).off n ∨
              ¬ (nodes v r.sb.ninodes ino j).Accepts (k.ftable f).off (min n filewriteMax)))))
      fun _ => ¬ Space r start e v (16 * transactions n) k := by
  apply (filewrite_ends h src n).mono
  rintro x k' es ⟨hin, hpost⟩
  refine ⟨hin, fun hall => ?_⟩
  obtain ⟨v', ino', m, hco, rfl, hcut, hnodes, hoff⟩ := hpost hall
  refine ⟨v', ino', hco, fun i hi => ?_, ?_⟩
  · rw [hnodes, update_of_ne hi]
  · rw [hnodes, update_self, hoff]
    exact hcut.write_iff

end

/-! ## A file of the first image -/

/-- The first block of the log of the image. -/
def logStart : Nat := Mkfs.size - Mkfs.nlog

theorem length_freeBelow_view {m : Mkfs} :
    logStart - m.usedblocks ≤ (freeBelow Mkfs.region logStart m.view).length := by
  have hmem : ∀ b ∈ List.range' m.usedblocks (logStart - m.usedblocks),
      b ∈ freeBelow Mkfs.region logStart m.view := by
    intro b hb
    rw [mem_range'_1] at hb
    have hlt : b < logStart := by omega
    have hsize : b < Mkfs.size := hlt.trans_le (Nat.sub_le ..)
    refine mem_filter.mpr ⟨mem_filter.mpr ⟨mem_range.mpr hsize, ?_⟩, by simpa using hlt⟩
    rw [Mkfs.bit_view hsize]
    simpa using hb.1
  have hnodup : (List.range' m.usedblocks (logStart - m.usedblocks)).Nodup := nodup_range'
  have hle := (subperm_of_subset hnodup hmem).length_le
  rwa [length_range'] at hle

/-- The entry of the file table for the inode `e`, opened for reading and writing. -/
def openFile (e : Fin NINODE) (off : Nat) : File where
  type := .inode
  ref := 1
  readable := true
  writable := true
  pipe := none
  ip := some e
  off := off

/-- A kernel on an image with one file of these bytes, which is open for writing. -/
theorem exists_opens (bs : List UInt8) (off blocks : Nat) (hlen : bs.length ≤ MAXFILE * BSIZE)
    (hoff : off < 2 ^ 32)
    (hroom : Mkfs.metablocks + Mkfs.fileBlocks bs.length + blocks ≤ logStart) :
    ∃ e v ino k, Opens Mkfs.region logStart file0 e 1 v ino k ∧ (k.ftable file0).off = off ∧
      nodes v Mkfs.region.sb.ninodes ino 1 = Mkfs.fill (Mkfs.newNode T_FILE) bs ∧
      Space Mkfs.region logStart e v blocks k := by
  obtain ⟨m, ino0, -, hw0, hc0, hused0⟩ := Mkfs.start_ialloc
  have hflat : [bs].flatten = bs := flatten_singleton
  obtain ⟨m', -, m1, ino, ha, hdisk⟩ := Mkfs.appendAll_close hw0 (by decide) hc0 [bs]
    (by rw [hflat]; exact hlen)
    (by rw [hflat, hused0]; exact (by omega : _ ≤ logStart).trans (Nat.sub_le ..))
  rw [hflat] at ha
  have hused : m1.usedblocks = Mkfs.metablocks + Mkfs.fileBlocks bs.length := by
    have := ha.used
    rw [length_nil, Nat.zero_add, hused0] at this
    exact this
  have hmount := Mkfs.mounted_mount m'
  have hsees : (Mkfs.mount m').Sees m1.view := hdisk ▸ hmount.sees
  have hl : Allocated Mkfs.region.sb.ninodes ino 1 :=
    Mkfs.allocated_of_contents (m := m1) (by rw [ha.file]; exact (by decide : T_FILE ≠ 0))
  have hload := Mkfs.load_ends (ha.whole.coherent hsees hmount.unused) hmount.idle hmount.unused hl
  cases hrun : Mkfs.load 1 (Mkfs.mount m') with
  | halt why es => exact (hload.of_halt hrun).elim
  | ok e k1 es =>
    obtain ⟨-, hco, hst, -, hp, hlog⟩ := hload.of_ok hrun
    -- the lock is given back, and the inode is behind an open file
    obtain ⟨k, hk⟩ : ∃ k, { k1 with
        icache := update k1.icache e { k1.icache e with busy := false }
        ftable := update k1.ftable file0 (openFile e off) } = k := ⟨_, rfl⟩
    have hent : k.icache e = { k1.icache e with busy := false } := by
      rw [← hk]
      simp
    have hft : k.ftable file0 = openFile e off := by
      rw [← hk]
      simp
    have hlogk : k.log = .initlog Mkfs.size Mkfs.nlog := by
      rw [← hk]
      exact hlog
    have hcok : Coherent (plain Mkfs.region False) k m1.view ino :=
      hco.set_ref (by rw [← hk]) (by rw [← hk]; exact hco.sees) hst.ref hst.ref
    have hnode : nodes m1.view Mkfs.region.sb.ninodes ino 1 = Mkfs.fill (Mkfs.newNode T_FILE) bs :=
      ha.file
    have htype : (k1.icache e).d.type = T_FILE := by
      have := congrArg Vnode.type (hco.node hst)
      exact this.symm.trans (congrArg Vnode.type hnode)
    refine ⟨e, m1.view, ino, k, ⟨⟨?_, ?_, ?_, by decide, ?_, ?_, ?_⟩, ?_, ?_, ?_, ?_⟩, ?_, hnode, ?_⟩
    · refine ⟨hcok.sees, hcok.sound, hcok.root, hcok.unique, hcok.entry, hcok.disk, hcok.loose,
        fun p b hp => ?_, fun _ _ _ _ _ => trivial, fun hx => absurd hx id⟩
      have hlt : b < m1.usedblocks := (ha.whole.built.ref_lt hp).2
      change b < logStart
      omega
    · rw [hent]
      exact ⟨hst.ref, hst.valid, hst.inum, hst.onDisk⟩
    · rw [hent, htype]
      decide
    · rw [hlogk]
      exact fun s hs => absurd hs not_mem_nil
    · rw [hlogk]
      rfl
    · rw [hlogk]
      rfl
    · rw [hft]
      rfl
    · rw [hft]
      rfl
    · rw [hft]
      rfl
    · rw [hft]
      exact hoff
    · rw [hft]
      rfl
    · have hfree := hp.free
      have hdisksize := hp.disk
      have hstore : k.store = k1.store := by rw [← hk]
      rw [← hstore] at hfree hdisksize
      refine ⟨hfree, hdisksize, by decide, ?_, ?_, ?_, ?_, by decide, ?_⟩
      · rw [hlogk]
        rfl
      · rw [hlogk]
        rfl
      · rw [hlogk]
        rfl
      · rw [hent]
      · refine le_trans ?_ length_freeBelow_view
        omega

/-- A write that fits and takes two transactions. -/
theorem filewrite_write_chunks : ∃ e v ino k x k' es v' ino',
    Opens Mkfs.region logStart file0 e 1 v ino k ∧
    filewrite file0 (fun _ => 7) 7000 k = .ok x k' es ∧ transactions 7000 = 2 ∧
    (⟨x, nodes v' Mkfs.region.sb.ninodes ino' 1, (k'.ftable file0).off⟩ : Written) =
      (nodes v Mkfs.region.sb.ninodes ino 1).write (fun _ => 7) 0 7000 := by
  obtain ⟨e, v, ino, k, hopen, hoff, hnode, hspace⟩ :=
    exists_opens [] 0 (16 * transactions 7000) (by decide) (by decide) (by decide)
  have hends := filewrite_write_iff hopen (fun _ => 7) 7000
  cases hrun : filewrite file0 (fun _ => 7) 7000 k with
  | halt why es => exact absurd hspace (hends.of_halt hrun)
  | ok x k' es =>
    obtain ⟨hin, hpost⟩ := hends.of_ok hrun
    obtain ⟨v', ino', -, -, hiff⟩ := hpost (hin hspace)
    rw [hoff, hnode] at hiff
    refine ⟨e, v, ino, k, x, k', es, v', ino', hopen, hrun, by decide, ?_⟩
    rw [hnode]
    exact hiff.mpr ⟨.inl (by decide), .inl (by decide)⟩

/-- A file of 127 blocks, and a write of 10000 bytes at its end: the first chunk fills the file up to
its largest size, the second one is refused, and the result is -1. -/
theorem filewrite_cut_off : ∃ e v ino k k' es v' ino',
    Opens Mkfs.region logStart file0 e 1 v ino k ∧
    filewrite file0 (fun _ => 7) 10000 k = .ok (-1) k' es ∧
    Coherent (below Mkfs.region logStart) k' v' ino' ∧
    (k.ftable file0).off = 65024 ∧ (k'.ftable file0).off = 71680 ∧
    (nodes v Mkfs.region.sb.ninodes ino 1).size = 65024 ∧
    (nodes v' Mkfs.region.sb.ninodes ino' 1).size = 71680 := by
  obtain ⟨e, v, ino, k, hopen, hoff, hnode, hspace⟩ :=
    exists_opens (List.replicate 65024 0) 65024 (16 * transactions 10000)
      (by rw [length_replicate]; decide) (by decide) (by rw [length_replicate]; decide)
  have hsize : (nodes v Mkfs.region.sb.ninodes ino 1).size = 65024 := by
    rw [hnode]
    exact length_replicate
  have hends := filewrite_ends hopen (fun _ => 7) 10000
  cases hrun : filewrite file0 (fun _ => 7) 10000 k with
  | halt why es => exact absurd hspace (hends.of_halt hrun)
  | ok x k' es =>
    obtain ⟨hin, hpost⟩ := hends.of_ok hrun
    obtain ⟨v', ino', m, hco, rfl, hcut, hnodes, hoff'⟩ := hpost (hin hspace)
    rw [hoff] at hcut hoff' hnodes
    have hm : m = 6656 := by
      have hmax : filewriteMax = 6656 := rfl
      have hlimit : MAXFILE * BSIZE = 71680 := by decide
      have hpos : 0 < m := by
        refine Nat.pos_of_ne_zero fun hzero => hcut.first hzero (by decide) ?_
        unfold Vnode.Accepts
        rw [hsize, hmax, hlimit]
        decide
      obtain ⟨hacc, hmin⟩ := hcut.accepted hpos
      have := hacc.2.2
      omega
    subst hm
    refine ⟨e, v, ino, k, k', es, v', ino', hopen, hrun, hco, hoff, hoff', hsize, ?_⟩
    rw [hnodes, update_self]
    simp [Vnode.put, hsize]

end Xv6
