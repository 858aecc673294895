import Xv6.Fs.Bmap
import Xv6.Log.Spare

/-!
# When the block layer does not stop

The lemmas of `Xv6.Fs.Sees` say what the block layer has done when it returns. Here are the
conditions under which it does return: no buffer is held by another process, the disk has the
sectors, and the cache and the log have room for the sectors that are logged on the way.
-/

namespace Xv6.Kernel

open Lib Act List

/-- The computation cannot stop. -/
def Never (_ : Halt) : Prop := False

/-- Exactly the buffers of `H` are held, and there is room if only the sectors of `L` are
logged. -/
abbrev Poised (top : Nat) (L : Finset Nat) (H : List (Fin NBUF × Nat)) (k : Kernel) : Prop :=
  Spare top L {s | s ∈ k.log.lh} H k.store

/-- A transaction is open, and the log has room for the sectors of `L`. -/
structure InTrans (L : Finset Nat) (k : Kernel) : Prop where
  nodup : k.log.lh.Nodup
  trans : 1 ≤ k.log.outstanding
  space : L.card < k.log.size - 1

section

variable {k k' : Kernel} {v : Nat → Block} {top s : Nat} {L : Finset Nat}
  {H : List (Fin NBUF × Nat)} {b : Fin NBUF}

theorem Poised.congr (h : Poised top L H k) (hst : k'.store = k.store) (hlog : k'.log = k.log) :
    Poised top L H k' := by
  unfold Poised
  rw [hst, hlog]
  exact h

theorem InTrans.congr (h : InTrans L k) (hlog : k'.log = k.log) : InTrans L k' := by
  obtain ⟨h1, h2, h3⟩ := h
  rw [← hlog] at h1 h2 h3
  exact ⟨h1, h2, h3⟩

theorem onStore_never {α : Type} {x : Prog Store α} {Q : α → Store → Prop}
    (h : Prog.Ends x k.store Q fun _ => False) :
    Ends (onStore x) k (fun a k' es => Q a k'.store ∧ k' = { k with store := k'.store } ∧ es = [])
      Never :=
  ends_lift (fun a st hok => ⟨h.1 a st hok, rfl, rfl⟩) h.2

/-- A sector that nobody holds can be read. -/
theorem bread_poised (h : Sees k v) (hr : Poised top L H k) (hH : H.length ≤ 2) (hs : s < top)
    (hfree : ∀ b, (b, s) ∉ H) :
    Ends (bread ROOTDEV s) k (fun b k' _ => Poised top L ((b, s) :: H) k' ∧ k'.log = k.log)
      Never := by
  apply (onStore_never (bread_spare h hr hH hs hfree)).mono
  rintro b k' _ ⟨hr', hk', -⟩
  have hlog : k'.log = k.log := by rw [hk']
  refine ⟨?_, hlog⟩
  unfold Poised
  rw [hlog]
  exact hr'

theorem brelse_poised (hr : Poised top L ((b, s) :: H) k) :
    Ends (brelse b) k (fun _ k' _ => Poised top L H k' ∧ k'.log = k.log) Never := by
  apply (onStore_never (brelse_spare hr)).mono
  rintro _ k' _ ⟨hr', hk', -⟩
  have hlog : k'.log = k.log := by rw [hk']
  refine ⟨?_, hlog⟩
  unfold Poised
  rw [hlog]
  exact hr'

theorem InTrans.length_le (ho : InTrans L k) (hr : Poised top L H k) :
    k.log.lh.length ≤ L.card := by
  rw [← toFinset_card_of_nodup ho.nodup]
  apply Finset.card_le_card
  intro t ht
  exact hr.logged t (mem_toFinset.mp ht)

theorem InTrans.logWriteTests (ho : InTrans L k) (hr : Poised top L H k) :
    k.log.logWriteTests = none := by
  have hlen := ho.length_le hr
  have hroom := hr.room
  have hspace := ho.space
  have htrans := ho.trans
  have hmax : NBUF = LOGSIZE := rfl
  unfold Log.logWriteTests
  rw [if_neg (by omega), if_neg (by omega)]

/-- A held buffer can be logged and let go. -/
theorem writeBack_poised {d : Block} (hr : Poised top L ((b, s) :: H) k) (ho : InTrans L k)
    (hs : s ∈ L) :
    Ends (writeBack b d) k (fun _ k' _ => Poised top L H k' ∧ InTrans L k') Never := by
  obtain ⟨hcaches, hbusy⟩ := hr.caches b s (mem_cons_self ..)
  have hset : Ends (setData b d) k (fun _ t _ =>
      t = { k with store := k.store.setBuf b { k.store.buf b with data := d } }) Never := by
    refine ends_lift (y := Xv6.setData b d) (fun _ st hok => ?_) fun why hw => ?_
    · obtain ⟨-, rfl⟩ := Prog.modify_eq_ok.mp hok
      rfl
    · simp [Xv6.setData] at hw
  apply hset.bind
  rintro _ _ _ rfl
  have hlog : Ends (logWrite b) { k with store := k.store.setBuf b { k.store.buf b with data := d } }
      (fun _ t _ => t = { k with
        store := (k.store.setBuf b { k.store.buf b with data := d }).setBuf b
          { k.store.buf b with data := d, dirty := true }
        log := k.log.logWrite s }) Never := by
    apply ends_get_bind
    rw [show Kernel.log { k with store := k.store.setBuf b { k.store.buf b with data := d } } =
      k.log from rfl, ho.logWriteTests hr]
    apply Ends.bind (R := fun _ t _ =>
      t = { k with store := k.store.setBuf b { k.store.buf b with data := d } })
      (ends_emit rfl)
    rintro _ _ _ rfl
    apply ends_modify
    rw [← hcaches.2]
    simp [Store.setBuf_buf]
  apply hlog.bind
  rintro _ k1 _ hk1
  have hr1 : Poised top L ((b, s) :: H) k1 := by
    subst hk1
    refine ⟨fun c hc => ?_, fun c t hc => ?_, hr.once, hr.disk, fun t ht => ?_, hr.room⟩
    · by_cases hcb : c = b
      · exact ⟨s, hcb ▸ mem_cons_self ..⟩
      · apply hr.held c
        simpa [Store.setBuf_buf, Function.update_of_ne hcb] using hc
    · by_cases hcb : c = b
      · subst hcb
        obtain ⟨hct, -⟩ := hr.caches c t hc
        exact ⟨by simpa [Caches] using hct, by simpa using hbusy⟩
      · have := hr.caches c t hc
        simpa [Caches, Store.setBuf_buf, Function.update_of_ne hcb] using this
    · rcases Log.mem_absorb.mp ht with rfl | ht
      · exact hs
      · exact hr.logged t ht
  have ho1 : InTrans L k1 := by
    subst hk1
    exact ⟨Log.absorb_nodup ho.nodup, ho.trans, ho.space⟩
  apply (brelse_poised hr1).mono
  rintro _ k2 _ ⟨hr2, hlog2⟩
  exact ⟨hr2, ho1.congr hlog2⟩

/-! ## The allocator -/

theorem readsb_poised (h : Sees k v) (hr : Poised top L H k) (hH : H.length ≤ 2) (htop : 1 < top)
    (hfree : ∀ b, (b, 1) ∉ H) :
    Ends (readsb ROOTDEV) k (fun _ k' _ => Poised top L H k' ∧ k'.log = k.log) Never := by
  apply (bread_poised h hr hH htop hfree).bind
  rintro bp k1 _ ⟨hr1, hlog1⟩
  apply data_ends.bind
  rintro _ _ _ ⟨-, rfl, -⟩
  apply (brelse_poised hr1).bind
  rintro _ k2 _ ⟨hr2, hlog2⟩
  exact ends_pure ⟨hr2, hlog2.trans hlog1⟩

theorem bzero_poised (h : Sees k v) (hr : Poised top L H k) (ho : InTrans L k) (hH : H.length ≤ 2)
    (hs : s < top) (hL : s ∈ L) (hfree : ∀ b, (b, s) ∉ H) :
    Ends (bzero ROOTDEV s) k (fun _ k' _ => Poised top L H k' ∧ InTrans L k') Never := by
  apply (bread_poised h hr hH hs hfree).bind
  rintro bp k1 _ ⟨hr1, hlog1⟩
  exact writeBack_poised hr1 (ho.congr hlog1) hL

/-- One bitmap block, if the next free block may be logged. -/
theorem ballocBlock_poised {sb : Superblock} {j b : Nat} (h : Sees k v) (hr : Poised top L H k)
    (ho : InTrans L k) (hH : H.length ≤ 2) (hmap : bblock (j * BPB) sb.ninodes < top)
    (hfree : ∀ c, (c, bblock (j * BPB) sb.ninodes) ∉ H)
    (hall : ∀ c < j * BPB, c < sb.size → bit v sb.ninodes c = true)
    (hlt : b < sb.size) (hclear : bit v sb.ninodes b = false)
    (hbelow : ∀ c < b, bit v sb.ninodes c = true) (htop : b < top) (hb : b ∈ L)
    (hbit : bblock b sb.ninodes ∈ L) (hbfree : ∀ c, (c, b) ∉ H) :
    Ends (ballocBlock ROOTDEV sb (j * BPB)) k (fun _ k' _ => Poised top L H k' ∧ InTrans L k')
      Never := by
  apply ((bread_poised h hr hH hmap hfree).and (bread_ends h)).bind
  rintro bp k1 _ ⟨⟨hr1, hlog1⟩, -, hh, rfl⟩
  apply ends_data_bind
  rw [hh.data]
  cases hfind : findClear (v (bblock (j * BPB) sb.ninodes)) (j * BPB) sb.size with
  | some bi =>
    obtain ⟨hbi, hsize, hcl, hbel⟩ := findClear_eq_some hfind
    obtain ⟨hblk, hmod⟩ := bit_eq (n := sb.ninodes) (j := j) hbi
    -- the bit found is that of the next free block
    have hbit' : bit v sb.ninodes (j * BPB + bi) = false := by
      rw [bit, hblk, hmod]
      exact hcl
    have heq : j * BPB + bi = b := by
      rcases Nat.lt_trichotomy (j * BPB + bi) b with hlt' | heq | hgt
      · rw [hbelow _ hlt'] at hbit'
        cases hbit'
      · exact heq
      · exfalso
        have hset : bit v sb.ninodes b = true := by
          by_cases hbj : b < j * BPB
          · exact hall b hbj hlt
          · rw [bit_of_mem (j := j) (by omega) (by omega)]
            exact hbel _ (by omega)
        rw [hclear] at hset
        cases hset
    rw [← heq, hblk] at hbit
    apply ((writeBack_poised hr1 (ho.congr hlog1) hbit).and
      (writeBack_ends hh.sees hh.handed.caches hh.handed.busy)).bind
    rintro _ k2 _ ⟨⟨hr2, ho2⟩, -, hs2, -, rfl⟩
    rw [heq]
    apply (bzero_poised hs2 hr2 ho2 hH htop hb hbfree).bind
    rintro _ k3 _ hp
    exact ends_pure hp
  | none =>
    apply (brelse_poised hr1).bind
    rintro _ k2 _ ⟨hr2, hlog2⟩
    exact ends_pure ⟨hr2, ho.congr (hlog2.trans hlog1)⟩

/-- The outer loop of `balloc`, if the next free block is among those that are left. -/
theorem ballocLoop_poised {sb : Superblock} {b : Nat} (hlt : b < sb.size)
    (hclear : bit v sb.ninodes b = false) (hbelow : ∀ c < b, bit v sb.ninodes c = true)
    (hH : H.length ≤ 2) (hmap : ∀ c < sb.size, bblock c sb.ninodes < top)
    (hmapfree : ∀ c d, c < sb.size → (d, bblock c sb.ninodes) ∉ H) (htop : b < top) (hb : b ∈ L)
    (hbit : bblock b sb.ninodes ∈ L) (hbfree : ∀ c, (c, b) ∉ H) (m : Nat) :
    ∀ {k : Kernel} (j : Nat), Sees k v → Poised top L H k → InTrans L k →
    (∀ c < j * BPB, c < sb.size → bit v sb.ninodes c = true) → b < (j + m) * BPB →
    Ends (ballocLoop ROOTDEV sb ((List.range' j m).map (· * BPB))) k
      (fun _ k' _ => Poised top L H k' ∧ InTrans L k') Never := by
  -- nothing before bitmap block `j` is free
  have hge : ∀ j, (∀ c < j * BPB, c < sb.size → bit v sb.ninodes c = true) → j * BPB ≤ b := by
    intro j hall
    by_contra hlt'
    have := hall b (by omega) hlt
    rw [hclear] at this
    cases this
  induction m with
  | zero =>
    intro k j _ _ _ hall hend
    have := hge j hall
    rw [Nat.add_zero] at hend
    omega
  | succ m ih =>
    intro k j h hr ho hall hend
    have hj := hge j hall
    rw [List.range'_succ, map_cons]
    apply ((ballocBlock_poised h hr ho hH (hmap _ (by omega)) (fun c => hmapfree _ c (by omega)) hall
      hlt hclear hbelow htop hb hbit hbfree).and (ballocBlock_ends h hall)).bind
    rintro r k1 es ⟨⟨hr1, ho1⟩, ⟨c, rfl, -, rfl⟩ | ⟨rfl, rfl, hgo, hall'⟩⟩
    · exact ends_pure ⟨hr1, ho1⟩
    · refine ih (j + 1) hgo.sees hr1 ho1 ?_ ?_
      · intro c hc
        rw [Nat.succ_mul] at hc
        exact hall' c hc
      · rw [show j + 1 + m = j + (m + 1) by omega]
        exact hend

end

/-- The file system has the sectors of its metadata, and none of the buffers held is for them. -/
structure Aside (r : Region) (v : Nat → Block) (H : List (Fin NBUF × Nat)) : Prop where
  few : H.length ≤ 2
  used : ∀ b s, (b, s) ∈ H → r.lo ≤ s ∧ bit v r.sb.ninodes s = true

theorem aside_nil {r : Region} {v : Nat → Block} : Aside r v [] :=
  ⟨Nat.zero_le 2, fun _ _ h => absurd h (not_mem_nil)⟩

section

variable {k : Kernel} {v : Nat → Block} {r : Region} {ino : Nat → Dinode} {L : Finset Nat}
  {H : List (Fin NBUF × Nat)} {e : Fin NINODE}

/-- There is a free block, and the first one may be logged. -/
def NextIn (r : Region) (v : Nat → Block) (L : Finset Nat) : Prop :=
  ∃ b rest, freeBlocks r.sb v = b :: rest ∧ b ∈ L ∧ bblock b r.sb.ninodes ∈ L

theorem freeBlocks_cons {sb : Superblock} {b : Nat} {rest : List Nat}
    (h : freeBlocks sb v = b :: rest) : b < sb.size ∧ bit v sb.ninodes b = false ∧
      ∀ c < b, bit v sb.ninodes c = true := by
  have hmem : b ∈ freeBlocks sb v := by
    rw [h]
    exact mem_cons_self ..
  obtain ⟨hlt, hclear⟩ := mem_filter.mp hmem
  refine ⟨mem_range.mp hlt, by simpa using hclear, fun c hc => ?_⟩
  by_contra hset
  have hcmem : c ∈ freeBlocks sb v :=
    mem_filter.mpr ⟨mem_range.mpr (hc.trans (mem_range.mp hlt)), by simpa using hset⟩
  have hsorted : (freeBlocks sb v).Pairwise (· < ·) := pairwise_lt_range.filter _
  rw [h] at hsorted hcmem
  rcases mem_cons.mp hcmem with rfl | hcmem
  · exact lt_irrefl _ hc
  · exact absurd ((pairwise_cons.mp hsorted).1 c hcmem) (by omega)

/-- `balloc` returns when there is a free block. -/
theorem balloc_poised (h : Sees k v) (hs : Sound r v ino) (hr : Poised r.top L H k)
    (ho : InTrans L k) (hside : Aside r v H) (hnext : NextIn r v L) :
    Ends (balloc ROOTDEV) k (fun _ k' _ => Poised r.top L H k' ∧ InTrans L k') Never := by
  obtain ⟨b, rest, hfree, hb, hbit⟩ := hnext
  obtain ⟨hlt, hclear, hbelow⟩ := freeBlocks_cons hfree
  have hmap : ∀ c < r.sb.size, bblock c r.sb.ninodes < r.lo := fun c hc =>
    r.bitmap c (lt_of_lt_of_le hc (le_max_right ..))
  have hlo : r.lo ≤ r.top := r.order.trans r.hi_le
  refine ends_get_bind (((readsb_poised h hr hside.few ?_ ?_).and (readsb_ends h)).bind ?_)
  · have := r.two_lt
    omega
  · intro c hc
    have := (hside.used c 1 hc).1
    have := r.two_lt
    omega
  rintro sb k1 _ ⟨⟨hr1, hlog1⟩, -, rfl, hgo, rfl⟩
  rw [hs.super, range_eq_range']
  refine (ballocLoop_poised hlt hclear hbelow hside.few (fun c hc => (hmap c hc).trans_le hlo)
    (fun c d hc hd => ?_) (hlt.trans_le r.size_le) hb hbit (fun c hc => ?_) _ 0 hgo.sees hr1
    (ho.congr hlog1) (fun c hc => absurd hc (by omega)) ?_).bind ?_
  · have := (hside.used d _ hd).1
    have := hmap c hc
    omega
  · have := (hside.used c b hc).2
    rw [hclear] at this
    cases this
  · simp only [BPB, BSIZE]
    omega
  rintro c k2 _ hp
  apply Ends.bind (R := fun _ t _ => t = k2) (ends_emit rfl)
  rintro _ _ _ rfl
  exact ends_pure hp

end

end Xv6.Kernel
