import Xv6.Fs.Block
import Xv6.Log.Spare

/-!
# Block operations on the flat disk

`Sees k v` says that the kernel's cache and disk stand for the flat disk `v`, where the sectors in
the log header are exactly those that only the cache has. Every function of `Xv6.Fs.Block` has one
lemma that gives its effect on `v` and the events it emits.
-/

namespace Xv6.Kernel

open Function List

open Lib Act

/-- The kernel stands for the flat disk `v`, and no buffer has changes that are not logged. -/
def Sees (k : Kernel) (v : Nat → Block) : Prop := Flat k.store v {s | s ∈ k.log.lh} ∅

theorem sees_loaded {disk : Nat → Block} {disksize : Nat} {log : Log} {env : Env}
    (h : log.lh = []) :
    Sees (.loaded { disk := disk, disksize := disksize, bcache := binit } log env) disk := by
  have hlh : {s | s ∈ log.lh} = ∅ := by simp [h]
  unfold Sees
  rw [show (loaded { disk := disk, disksize := disksize, bcache := binit } log env).log = log
    from rfl, hlh]
  exact flat_binit disk disksize

/-- A computation of the block layer: the rest of the kernel is as before, and so are the buffers
that were held. The kernel now stands for `v`. -/
structure Goes (k k' : Kernel) (v : Nat → Block) : Prop where
  frame : k' = { k with store := k'.store, log := k'.log }
  log : k'.log = { k.log with lh := k'.log.lh }
  sees : Sees k' v
  kept : Kept k.store k'.store

/-- All reasons to stop but one. -/
def Benign (why : Halt) : Prop := why ≠ .panic "freeing free block"

theorem Goes.refl {k : Kernel} {v : Nat → Block} (h : Sees k v) : Goes k k v :=
  ⟨rfl, rfl, h, ⟨fun _ _ => rfl, rfl⟩⟩

theorem Goes.trans {k l m : Kernel} {v w : Nat → Block} (h : Goes k l v) (h' : Goes l m w) :
    Goes k m w := by
  refine ⟨?_, ?_, h'.sees, ⟨?_, by rw [h'.kept.disksize, h.kept.disksize]⟩⟩
  · rw [h'.frame, h.frame]
  · rw [h'.log, h.log]
  · intro c hc
    have hl := h.kept.held c hc
    rw [h'.kept.held c (by rw [hl]; exact hc), hl]

theorem Goes.icache {k k' : Kernel} {v : Nat → Block} (h : Goes k k' v) : k'.icache = k.icache := by
  rw [h.frame]

/-! ## Buffers -/

section

variable {st st' : Store} {dev s : Nat} {why : Halt}

/-- The ways in which `bio.c` stops. -/
def BioHalt (why : Halt) : Prop :=
  why = .sleep ∨ ∃ msg ∈ ["bget: no buffers", "iderw: buf not busy", "iderw: nothing to do",
    "iderw: request not for disk 1", "iderw: sector out of range", "bwrite", "brelse"],
    why = .panic msg

theorem BioHalt.benign {why : Halt} (h : BioHalt why) : Benign why := by
  rcases h with rfl | ⟨msg, hmsg, rfl⟩
  · simp [Benign]
  · rintro ⟨rfl⟩
    simp at hmsg

theorem bget_stops {dev sector : Nat} : Prog.Stops BioHalt (bget dev sector) := by
  intro st why h
  unfold bget at h
  simp only at h
  split at h
  · split at h <;> cases h
    exact .inl rfl
  · split at h <;> cases h
    exact .inr ⟨_, by simp, rfl⟩

theorem iderw_stops {b : Fin NBUF} : Prog.Stops BioHalt (iderw b) := by
  intro st why h
  simp only [iderw] at h
  split_ifs at h <;> cases h <;> exact .inr ⟨_, by simp, rfl⟩

theorem bread_stops {dev sector : Nat} : Prog.Stops BioHalt (Xv6.bread dev sector) :=
  bget_stops.bind fun _ => Prog.stops_get.bind fun _ =>
    Prog.Stops.ite Prog.stops_pure (iderw_stops.bind fun _ => Prog.stops_pure)

theorem brelse_stops {b : Fin NBUF} : Prog.Stops BioHalt (Xv6.brelse b) :=
  Prog.stops_get.bind fun _ => Prog.Stops.ite (Prog.stops_panic (.inr ⟨_, by simp, rfl⟩))
    Prog.stops_modify

theorem bread_dev {v : Nat → Block} {pinned : Set Nat} {edited : Set (Fin NBUF)} {b : Fin NBUF}
    (h : Flat st v pinned edited) (hok : Xv6.bread dev s st = .ok b st') : dev = ROOTDEV := by
  obtain ⟨c, m, hget, hrest⟩ := Prog.bind_eq_ok.mp hok
  obtain ⟨_, _, hm, hrest⟩ := Prog.bind_eq_ok.mp hrest
  obtain ⟨rfl, rfl⟩ := Prog.get_eq_ok.mp hm
  simp only [bget] at hget
  split at hget
  · rename_i hfound
    have hc := find?_some hfound
    simp only [isCached, Bool.and_eq_true, decide_eq_true_eq] at hc
    exact (h.rootdev _ _ hc.1).1
  · split at hget
    · simp only [Res.ok.injEq] at hget
      obtain ⟨rfl, rfl⟩ := hget
      rw [if_neg (by simp [Store.buf])] at hrest
      obtain ⟨_, _, hrw, -⟩ := Prog.bind_eq_ok.mp hrest
      simp only [iderw] at hrw
      split_ifs at hrw with h1 h2 h3 h4 h5
      · simpa [Store.buf] using h3
      · simpa [Store.buf] using h3
    · simp at hget

end

section

variable {k : Kernel} {v : Nat → Block} {dev s : Nat} {b : Fin NBUF}

/-- The caller of `bread` holds buffer `b` with the contents of sector `s`. -/
structure Holds (k k' : Kernel) (b : Fin NBUF) (s : Nat) (v : Nat → Block) : Prop where
  frame : k' = { k with store := k'.store }
  handed : Handed k.store k'.store b s
  sees : Sees k' v
  data : (k'.store.buf b).data = v s

theorem bread_holds (h : Sees k v) :
    Hush (bread dev s) k (fun b k' => dev = ROOTDEV ∧ Holds k k' b s v) BioHalt := by
  refine hush_lift (fun b st hok => ?_) (bread_stops k.store)
  obtain rfl := bread_dev h hok
  obtain ⟨hh, hf, -, hd⟩ := bread_flat h hok
  exact ⟨rfl, rfl, hh, hf, hd⟩

theorem bread_ends (h : Sees k v) :
    Ends (bread dev s) k (fun b k' es => dev = ROOTDEV ∧ Holds k k' b s v ∧ es = []) Benign :=
  ((bread_holds h).ends.weaken fun _ => BioHalt.benign).mono fun _ _ _ hb => and_assoc.mp hb

variable {E : Halt → Prop} {α : Type} {Q : α → Kernel → List FsEvent → Prop} {d : Block}
    {k1 k2 k3 : Kernel} {w w' : Nat → Block} {size bi n j m start : Nat} {sb : Superblock}
    {lh : List Nat}

theorem data_holds : Hush (data b) k (fun d k' => d = (k.store.buf b).data ∧ k = k') E :=
  hush_get_bind (hush_pure ⟨rfl, rfl⟩)

theorem data_ends :
    Ends (data b) k (fun d k' es => d = (k.store.buf b).data ∧ k = k' ∧ es = []) E :=
  ends_get_bind (ends_pure ⟨rfl, rfl, rfl⟩)

theorem ends_data_bind {f : Block → K α} (h : Ends (f (k.store.buf b).data) k Q E) : Ends
    (data b >>= f) k Q E := by
  apply data_ends.bind
  rintro _ _ _ ⟨rfl, rfl, rfl⟩
  exact h

theorem brelse_frees (h : Sees k v) (hc : Caches k.store b s) :
    Hush (brelse b) k (fun _ k' => k' = { k with store := k'.store } ∧ Sees k' v ∧
      OnBuf k.store k'.store b) BioHalt := by
  refine hush_lift (fun _ st hok => ?_) (brelse_stops k.store)
  obtain ⟨ho, hf, -, -⟩ := brelse_flat h hc (Set.notMem_empty b) hok
  exact ⟨rfl, hf, ho⟩

theorem brelse_ends (h : Sees k v) (hc : Caches k.store b s) :
    Ends (brelse b) k (fun _ k' es => k' = { k with store := k'.store } ∧ Sees k' v ∧
      OnBuf k.store k'.store b ∧ es = []) Benign :=
  ((brelse_frees h hc).ends.weaken fun _ => BioHalt.benign).mono fun _ _ _ hb =>
    ⟨hb.1.1, hb.1.2.1, hb.1.2.2, hb.2⟩

/-- `writeBack` gives the sector new contents. -/
theorem writeBack_ends (h : Sees k v) (hc : Caches k.store b s) (hbusy : (k.store.buf b).busy = true) :
    Ends (writeBack b d) k (fun _ k' es =>
      k' = { k with store := k'.store, log := k.log.logWrite s } ∧
      Sees k' (update v s d) ∧ OnBuf k.store k'.store b ∧ es = [.logWrite s]) Benign := by
  have hset : Ends (setData b d) k (fun _ t es => ∃ st, t = { k with store := st } ∧
      Flat st v {s | s ∈ k.log.lh} {b} ∧ OnBuf k.store st b ∧ (st.buf b).data = d ∧
      (st.buf b).busy = true ∧ es = []) Benign := by
    refine ends_lift (y := Xv6.setData b d) (fun _ st hok => ?_) fun why hw => ?_
    swap
    · simp [Xv6.setData] at hw
    obtain ⟨ho, hf, hd, hb, -⟩ := setData_flat h hc hbusy hok
    rw [insert_empty_eq] at hf
    exact ⟨st, rfl, hf, ho, hd, hb, rfl⟩
  apply hset.bind
  rintro _ _ _ ⟨st, rfl, hf, ho, hd, hb, rfl⟩
  have hcs := ho.caches s hc
  refine Ends.bind (R := fun _ t es => t = { k with
    store := st.setBuf b { st.buf b with dirty := true }
    log := k.log.logWrite s } ∧ es = [.logWrite s]) ?_ ?_
  · apply ends_get_bind
    cases ht : k.log.logWriteTests with
    | some msg =>
      apply ends_panic
      unfold Log.logWriteTests at ht
      unfold Benign
      split_ifs at ht <;> cases ht <;> decide
    | none =>
      apply Ends.bind (R := fun _ t es => t = { k with store := st } ∧
        es = [.logWrite (st.buf b).sector]) (ends_emit ⟨rfl, rfl⟩)
      rintro _ _ _ ⟨rfl, rfl⟩
      refine ends_modify ⟨?_, ?_⟩
      · rw [hcs.2]
      · rw [hcs.2]; rfl
  rintro _ _ _ ⟨rfl, rfl⟩
  have hpin := pin_flat hf hcs
  rw [hd] at hpin
  have hlh : insert s {x | x ∈ k.log.lh} = {x | x ∈ (k.log.logWrite s).lh} := by
    ext x
    simp [Log.logWrite, Log.mem_absorb]
  rw [hlh, Set.sdiff_self] at hpin
  have hcs' : Caches (st.setBuf b { st.buf b with dirty := true }) b s := by
    simpa [Caches] using hcs
  refine Ends.mono (brelse_ends hpin hcs') ?_
  rintro _ k' es ⟨hk, hs, hob, rfl⟩
  refine ⟨hk, hs, ⟨?_, ?_, ?_⟩, rfl⟩
  · intro c hcb
    rw [hob.others c hcb]
    simp only [Store.setBuf_buf, update_of_ne hcb]
    exact ho.others c hcb
  · intro t ht
    have := ho.caches t ht
    exact hob.caches t (by simpa [Caches] using this)
  · rw [hob.disksize]
    exact ho.disksize

/-- The holder of a buffer lets it go, after other work of the block layer. -/
theorem Holds.done (h : Holds k k1 b s v) (hgo : Goes k1 k2 w')
    (hf : k3 = { k2 with store := k3.store, log := k3.log })
    (hl : k3.log = { k2.log with lh := k3.log.lh }) (hs : Sees k3 w)
    (ho : OnBuf k2.store k3.store b) : Goes k k3 w := by
  refine ⟨by rw [hf, hgo.frame, h.frame], by rw [hl, hgo.log, h.frame], hs, ⟨?_, ?_⟩⟩
  · intro c hc
    have hcb : c ≠ b := fun heq => by
      rw [heq, h.handed.wasFree] at hc
      simp at hc
    have h1 := h.handed.others c hcb
    rw [ho.others c hcb, hgo.kept.held c (by rw [h1]; exact hc), h1]
  · rw [ho.disksize, hgo.kept.disksize, h.handed.disksize]

theorem Holds.released (h : Holds k k1 b s v) (hf : k2 = { k1 with store := k2.store })
    (hs : Sees k2 v) (ho : OnBuf k1.store k2.store b) :
    Goes k k2 v := by
  have hlog : k2.log = k1.log := by rw [hf]
  exact h.done (.refl h.sees) (by rw [hlog]; exact hf) (by rw [hlog]) hs ho

theorem Holds.updated (h : Holds k k1 b s v) (hgo : Goes k1 k2 w')
    (hf : k3 = { k2 with store := k3.store, log := k2.log.logWrite s })
    (hs : Sees k3 w) (ho : OnBuf k2.store k3.store b) : Goes k k3 w := by
  have hlog : k3.log = k2.log.logWrite s := by rw [hf]
  exact h.done hgo (by rw [hlog]; exact hf) (by rw [hlog]; rfl) hs ho

/-- The common shape of an update: read a sector, change it, log it and release it. -/
theorem modify_ends (h : Sees k v) (f : Block → Block) :
    Ends (bread dev s >>= fun bp => data bp >>= fun d => writeBack bp (f d)) k (fun _ k' es =>
      dev = ROOTDEV ∧ Goes k k' (update v s (f (v s))) ∧ es = [.logWrite s]) Benign := by
  apply (bread_ends h).bind
  rintro bp k1 _ ⟨hdev, hh, rfl⟩
  apply ends_data_bind
  rw [hh.data]
  apply (writeBack_ends hh.sees hh.handed.caches hh.handed.busy).mono
  rintro _ k2 _ ⟨hf, hs, ho, rfl⟩
  exact ⟨hdev, hh.updated (.refl hh.sees) hf hs ho, rfl⟩

/-! ## The allocator -/

theorem readsb_ends (h : Sees k v) :
    Ends (readsb dev) k (fun sb k' es => dev = ROOTDEV ∧ sb = getSuperblock (v 1) ∧
      Goes k k' v ∧ es = []) Benign := by
  apply (bread_ends h).bind
  rintro bp k1 _ ⟨hdev, hh, rfl⟩
  apply ends_data_bind
  apply (brelse_ends hh.sees hh.handed.caches).bind
  rintro _ k2 _ ⟨hf, hs, ho, rfl⟩
  exact ends_pure ⟨hdev, by rw [hh.data], hh.released hf hs ho, rfl⟩

theorem bzero_ends (h : Sees k v) :
    Ends (bzero dev s) k (fun _ k' es => dev = ROOTDEV ∧
      Goes k k' (update v s (Bytes.zero BSIZE)) ∧ es = [.logWrite s]) Benign := by
  apply (bread_ends h).bind
  rintro bp k1 _ ⟨hdev, hh, rfl⟩
  apply (writeBack_ends hh.sees hh.handed.caches hh.handed.busy).mono
  rintro _ k2 _ ⟨hf, hs, ho, rfl⟩
  exact ⟨hdev, hh.updated (.refl hh.sees) hf hs ho, rfl⟩

/-- The bitmap's bit for block `b`, in a file system with `n` inodes. -/
def bit (v : Nat → Block) (n b : Nat) : Bool := testBit (v (bblock b n)) (b % BPB)

/-- The flat disk after block `b` has been allocated. -/
def markUsed (v : Nat → Block) (n b : Nat) : Nat → Block :=
  update v (bblock b n) (setBit (v (bblock b n)) (b % BPB))

/-- The flat disk after block `b` has been freed. -/
def markFree (v : Nat → Block) (n b : Nat) : Nat → Block :=
  update v (bblock b n) (clearBit (v (bblock b n)) (b % BPB))

theorem findClear_eq_some {b : Nat} (h : findClear d b size = some bi) :
    bi < BPB ∧ b + bi < size ∧ testBit d bi = false ∧ ∀ bj < bi, testBit d bj = true := by
  unfold findClear at h
  obtain ⟨hp, i, hi, hget, hbefore⟩ := find?_eq_some_iff_getElem.mp h
  simp only [length_range] at hi
  simp only [getElem_range] at hget
  subst hget
  simp only [Bool.and_eq_true, decide_eq_true_eq, Bool.not_eq_true'] at hp
  refine ⟨hi, hp.1, hp.2, fun bj hj => ?_⟩
  have := hbefore bj hj
  simp only [getElem_range, Bool.not_eq_true', Bool.and_eq_false_iff, decide_eq_false_iff_not,
    Bool.not_eq_false'] at this
  exact this.resolve_left (by omega)

theorem findClear_eq_none {b : Nat} (h : findClear d b size = none) (hi : bi < BPB)
    (hb : b + bi < size) : testBit d bi = true := by
  unfold findClear at h
  have := find?_eq_none.mp h bi (mem_range.mpr hi)
  simpa [hb] using this

theorem bit_eq (hi : bi < BPB) :
    bblock (j * BPB + bi) n = bblock (j * BPB) n ∧ (j * BPB + bi) % BPB = bi := by
  simp only [bblock, BPB, BSIZE] at *
  omega

theorem bit_of_mem {c : Nat} (h1 : j * BPB ≤ c) (h2 : c < j * BPB + BPB) :
    bit v n c = testBit (v (bblock (j * BPB) n)) (c - j * BPB) := by
  obtain ⟨ci, rfl⟩ : ∃ ci, c = j * BPB + ci := ⟨c - j * BPB, by omega⟩
  have hci : ci < BPB := by omega
  obtain ⟨hblk, hmod⟩ := bit_eq (n := n) (j := j) hci
  rw [bit, hblk, hmod, Nat.add_sub_cancel_left]

/-- What the allocator has done when it returns block `b`. -/
structure Balloced (k k' : Kernel) (v : Nat → Block) (sb : Superblock) (b : Nat) : Prop where
  lt : b < sb.size
  clear : bit v sb.ninodes b = false
  below : ∀ c < b, bit v sb.ninodes c = true
  goes : Goes k k' (update (markUsed v sb.ninodes b) b (Bytes.zero BSIZE))

/-- Bitmap block `j`, if everything before is in use. -/
theorem ballocBlock_ends (h : Sees k v)
    (hall : ∀ c < j * BPB, c < sb.size → bit v sb.ninodes c = true) :
    Ends (ballocBlock dev sb (j * BPB)) k (fun r k' es =>
      (∃ b, r = some b ∧ Balloced k k' v sb b ∧
        es = [.logWrite (bblock b sb.ninodes), .logWrite b]) ∨
      (r = none ∧ es = [] ∧ Goes k k' v ∧
        ∀ c < j * BPB + BPB, c < sb.size → bit v sb.ninodes c = true)) Benign := by
  apply (bread_ends h).bind
  rintro bp k1 _ ⟨-, hh, rfl⟩
  apply ends_data_bind
  rw [hh.data]
  cases hfind : findClear (v (bblock (j * BPB) sb.ninodes)) (j * BPB) sb.size with
  | some bi =>
    obtain ⟨hbi, hsize, hclear, hbelow⟩ := findClear_eq_some hfind
    obtain ⟨hblk, hmod⟩ := bit_eq (n := sb.ninodes) (j := j) hbi
    apply (writeBack_ends hh.sees hh.handed.caches hh.handed.busy).bind
    rintro _ k2 _ ⟨hf, hs, ho, rfl⟩
    apply (bzero_ends hs).bind
    rintro _ k3 _ ⟨-, hgo, rfl⟩
    refine ends_pure (.inl ⟨_, rfl, ⟨hsize, ?_, fun c hc => ?_, ?_⟩, ?_⟩)
    · rw [bit, hblk, hmod]; exact hclear
    · by_cases hcj : c < j * BPB
      · exact hall c hcj (by omega)
      · rw [bit_of_mem (j := j) (by omega) (by omega)]
        exact hbelow _ (by omega)
    · rw [markUsed, hblk, hmod]
      exact (hh.updated (.refl hh.sees) hf hs ho).trans hgo
    · rw [hblk]; rfl
  | none =>
    apply (brelse_ends hh.sees hh.handed.caches).bind
    rintro _ k2 _ ⟨hf, hs, ho, rfl⟩
    refine ends_pure (.inr ⟨rfl, rfl, hh.released hf hs ho, fun c hc hsize => ?_⟩)
    by_cases hcj : c < j * BPB
    · exact hall c hcj hsize
    · rw [bit_of_mem (j := j) (by omega) (by omega)]
      exact findClear_eq_none hfind (by omega) (by omega)

/-- From bitmap block `j` on. -/
theorem ballocLoop_ends (m : Nat) : ∀ {k : Kernel} (j : Nat), Sees k v →
    (∀ c < j * BPB, c < sb.size → bit v sb.ninodes c = true) →
    Ends (ballocLoop dev sb ((List.range' j m).map (· * BPB))) k (fun b k' es =>
      Balloced k k' v sb b ∧ es = [.logWrite (bblock b sb.ninodes), .logWrite b]) Benign := by
  induction m with
  | zero => intro k j _ _; exact ends_panic (by unfold Benign; decide)
  | succ m ih =>
    intro k j h hall
    rw [List.range'_succ, map_cons]
    apply (ballocBlock_ends h hall).bind
    rintro r k1 es (⟨b, rfl, hb, rfl⟩ | ⟨rfl, rfl, hgo, hall'⟩)
    · exact ends_pure ⟨hb, rfl⟩
    · refine (ih (j + 1) hgo.sees ?_).mono ?_
      · intro c hc
        rw [Nat.succ_mul] at hc
        exact hall' c hc
      · rintro b k2 es ⟨hb, rfl⟩
        exact ⟨⟨hb.lt, hb.clear, hb.below, hgo.trans hb.goes⟩, rfl⟩

/-- `balloc` takes the first free block and clears it. -/
theorem balloc_ends (h : Sees k v) :
    Ends (balloc dev) k (fun b k' es => dev = ROOTDEV ∧
      Balloced k k' v (getSuperblock (v 1)) b ∧
      es = [.logWrite (bblock b (getSuperblock (v 1)).ninodes), .logWrite b,
        .balloc k.store b]) Benign := by
  refine ends_get_bind ((readsb_ends h).bind ?_)
  rintro sb k1 _ ⟨hdev, rfl, hgo, rfl⟩
  rw [range_eq_range']
  refine (ballocLoop_ends _ 0 hgo.sees (fun c hc => absurd hc (by omega))).bind ?_
  rintro b k2 _ ⟨hb, rfl⟩
  apply Ends.bind (R := fun _ t es => t = k2 ∧ es = [.balloc k.store b])
    (ends_emit ⟨rfl, rfl⟩)
  rintro _ _ _ ⟨rfl, rfl⟩
  exact ends_pure ⟨hdev, ⟨hb.lt, hb.clear, hb.below, hgo.trans hb.goes⟩, rfl⟩

/-- `bfree` of a block that is in use. -/
theorem bfree_ends {b : Nat} (h : Sees k v)
    (hbit : bit v (getSuperblock (v 1)).ninodes b = true) :
    Ends (bfree dev b) k (fun _ k' es => dev = ROOTDEV ∧
      Goes k k' (markFree v (getSuperblock (v 1)).ninodes b) ∧
      es = [.logWrite (bblock b (getSuperblock (v 1)).ninodes)]) Benign := by
  apply (readsb_ends h).bind
  rintro sb k1 _ ⟨hdev, rfl, hgo, rfl⟩
  apply (bread_ends hgo.sees).bind
  rintro bp k2 _ ⟨-, hh, rfl⟩
  apply ends_data_bind
  rw [hh.data, if_pos (by exact hbit)]
  apply (writeBack_ends hh.sees hh.handed.caches hh.handed.busy).mono
  rintro _ k3 _ ⟨hf, hs, ho, rfl⟩
  exact ⟨hdev, hgo.trans (hh.updated (.refl hh.sees) hf hs ho), rfl⟩

/-! ## Transactions -/

/-- A computation on the store that stops only if `P` is false. -/
theorem onStore_ends {x : Prog Store α} {P : Prop} {R : Store → Prop}
    (h : ∀ a st, x k.store = .ok a st → Q a (setStore st k) [])
    (hP : P → Prog.Ends x k.store (fun _ st => R st) fun _ => False) :
    Ends (onStore x) k (fun a k' es => Q a k' es ∧ (P → R k'.store)) fun _ => ¬ P :=
  ends_lift (fun a st hok => ⟨h a st hok, fun hp => (hP hp).1 a st hok⟩)
    fun why hw hp => (hP hp).2 why hw

theorem beginOp_ends (h : Sees k v) :
    Ends beginOp k (fun _ k' es => Sees k' v ∧ k' = { k with log := k'.log } ∧
      k'.log = { k.log with outstanding := k.log.outstanding + 1 } ∧
      k.log.committing = false ∧ es = []) fun _ => True := by
  apply ends_get_bind
  cases hl : k.log.beginOp with
  | none => exact ends_sleep trivial
  | some l =>
    obtain ⟨hc, -, rfl⟩ := Log.beginOp_eq_some.mp hl
    exact ends_modify ⟨h, rfl, rfl, hc, rfl⟩

theorem next_of_cons {b : Nat} {bs : List Nat} (h : b :: bs = List.range' m (n - m)) :
    m = b ∧ m < n ∧ List.range' (m + 1) (n - (m + 1)) = bs := by
  rcases Nat.lt_or_ge m n with hlt | hge
  · rw [show n - m = n - (m + 1) + 1 by omega, List.range'_succ] at h
    exact ⟨(List.cons.inj h).1.symm, hlt, (List.cons.inj h).2.symm⟩
  · rw [Nat.sub_eq_zero_of_le hge] at h
    cases h

theorem done_of_nil (h : [] = List.range' m (n - m)) (hm : m ≤ n) : m = n := by
  have := congrArg List.length h
  simp only [length_nil, length_range'] at this
  omega

/-- There is room for a commit of the sectors `lh`. -/
def Flushes (top : Nat) (L : Finset Nat) (start : Nat) (lh : List Nat) (st : Store) : Prop :=
  Spare top L {s | s ∈ lh} [] st ∧ start + lh.length < top

variable {top : Nat} {L : Finset Nat}

theorem getD_mem (h : m < lh.length) : lh.getD m 0 ∈ lh := by
  rw [getD_eq_getElem lh 0 h]
  exact getElem_mem h

/-- The loop of `write_log` copies the logged sectors behind the log header. -/
theorem writeLog_ends (h : Flat k.store v {s | s ∈ lh} ∅) (hlh : ∀ s ∈ lh, s < start) :
    Ends (forEach (fun tail => onStore (writeLogBody start lh tail)) (List.range lh.length)) k
      (fun _ k' es => (∃ v', Flat k'.store v' {s | s ∈ lh} ∅ ∧ (∀ s < start, v' s = v s) ∧
        (∀ i < lh.length, v' (start + i + 1) = v (lh.getD i 0)) ∧
        k' = { k with store := k'.store } ∧
        (Flushes top L start lh k.store → Flushes top L start lh k'.store)) ∧
        ∀ ev ∈ es, ev ∈ ([] : List FsEvent))
      fun _ => ¬ Flushes top L start lh k.store := by
  -- the sectors before the first one in the list have been copied
  refine (ends_forEach (I := fun bs k' => ∃ m, bs = List.range' m (lh.length - m) ∧
    m ≤ lh.length ∧ ∃ v', Flat k'.store v' {s | s ∈ lh} ∅ ∧ (∀ s < start, v' s = v s) ∧
    (∀ i < m, v' (start + i + 1) = v (lh.getD i 0)) ∧ k' = { k with store := k'.store } ∧
    (Flushes top L start lh k.store → Flushes top L start lh k'.store))
    (P := fun ev => ev ∈ ([] : List FsEvent)) ?_ _ k
    ⟨0, by rw [range_eq_range', Nat.sub_zero], Nat.zero_le _, v, h, fun _ _ => rfl,
      fun i hi => absurd hi (Nat.not_lt_zero i), rfl, id⟩).mono ?_
  · rintro b bs k1 ⟨m, hbs, hm, v1, hf1, hv1, hlog1, hk1, hroom1⟩
    obtain ⟨rfl, hlt, rfl⟩ := next_of_cons hbs
    have hmem := getD_mem hlt
    have hbody : Ends (onStore (writeLogBody start lh m)) k1 (fun _ k' es =>
        ((∃ v', Flat k'.store v' {s | s ∈ lh} ∅ ∧ (∀ s < start, v' s = v s) ∧
          (∀ i < m + 1, v' (start + i + 1) = v (lh.getD i 0)) ∧ k' = { k with store := k'.store }) ∧
          es = []) ∧
        (Flushes top L start lh k.store → Spare top L {s | s ∈ lh} [] k'.store))
        fun _ => ¬ Flushes top L start lh k.store := by
      refine onStore_ends (fun _ st hok => ?_) fun hp => ?_
      · obtain ⟨hf, -, -⟩ := writeLogBody_flat hf1 hok
        have hpin : {s | s ∈ lh} \ {start + m + 1} = {s | s ∈ lh} :=
          Set.sdiff_singleton_eq_self fun hin => absurd (hlh _ hin) (by omega)
        rw [hpin] at hf
        refine ⟨⟨_, hf, fun s hs => ?_, fun i hi => ?_, by rw [hk1]; rfl⟩, rfl⟩
        · rw [update_of_ne (by omega), hv1 s hs]
        · by_cases hib : i = m
          · subst hib
            rw [update_self, hv1 _ (hlh _ hmem)]
          · rw [update_of_ne (by omega)]
            exact hlog1 i (by omega)
      · have hr := hroom1 hp
        exact writeLogBody_spare hf1 hr.1 (by have := hr.2; omega) (hlh _ hmem)
    apply hbody.mono
    rintro _ k2 _ ⟨⟨⟨v2, hf2, hv2, hlog2, hk2⟩, rfl⟩, hroom2⟩
    exact ⟨⟨m + 1, rfl, hlt, v2, hf2, hv2, hlog2, hk2, fun hp => ⟨hroom2 hp, hp.2⟩⟩, by simp⟩
  · rintro _ k1 es ⟨⟨m, hbs, hm, v1, hf1, hv1, hlog1, hk1, hroom1⟩, hes⟩
    have hmn := done_of_nil hbs hm
    exact ⟨⟨v1, hf1, hv1, hmn ▸ hlog1, hk1, hroom1⟩, hes⟩

/-- The loop of `install_trans` brings home what the log has. -/
theorem installTrans_ends {v1 : Nat → Block} (h : Flat k.store v1 {s | s ∈ lh} ∅)
    (hlh : ∀ s ∈ lh, s < start)
    (hlog : ∀ i < lh.length, v1 (start + i + 1) = v (lh.getD i 0))
    (hv : ∀ s < start, v1 s = v s) :
    Ends (forEach (fun tail => onStore (installBody start lh tail)) (List.range lh.length)) k
      (fun _ k' es => (∃ v', Flat k'.store v' ∅ ∅ ∧ (∀ s < start, v' s = v s) ∧
        k' = { k with store := k'.store } ∧
        (Flushes top L start lh k.store → Spare top L ∅ [] k'.store)) ∧
        ∀ ev ∈ es, ev ∈ ([] : List FsEvent))
      fun _ => ¬ Flushes top L start lh k.store := by
  refine (ends_forEach (I := fun bs k' => ∃ m, bs = List.range' m (lh.length - m) ∧
    m ≤ lh.length ∧ ∃ v', Flat k'.store v' {s | s ∈ lh ∧ s ∉ lh.take m} ∅ ∧
    (∀ s < start, v' s = v s) ∧ (∀ i < lh.length, v' (start + i + 1) = v (lh.getD i 0)) ∧
    k' = { k with store := k'.store } ∧
    (Flushes top L start lh k.store → Spare top L {s | s ∈ lh ∧ s ∉ lh.take m} [] k'.store))
    (P := fun ev => ev ∈ ([] : List FsEvent)) ?_ _ k
    ⟨0, by rw [range_eq_range', Nat.sub_zero], Nat.zero_le _, v1, by simpa using h, hv,
      hlog, rfl, fun hp => by simpa using hp.1⟩).mono ?_
  · rintro b bs k1 ⟨m, hbs, hm, v2, hf2, hv2, hlog2, hk1, hroom1⟩
    obtain ⟨rfl, hlt, rfl⟩ := next_of_cons hbs
    have hmem := getD_mem hlt
    have hpin : {s | s ∈ lh ∧ s ∉ lh.take m} \ {lh.getD m 0} =
        {s | s ∈ lh ∧ s ∉ lh.take (m + 1)} := by
      ext s
      rw [take_add_one, getElem?_eq_getElem hlt, getD_eq_getElem lh 0 hlt]
      simp only [Set.mem_sdiff, Set.mem_ofPred_eq, Set.mem_singleton_iff, mem_append,
        Option.toList_some, mem_singleton, not_or, and_assoc]
    have hbody : Ends (onStore (installBody start lh m)) k1 (fun _ k' es =>
        ((∃ v', Flat k'.store v' {s | s ∈ lh ∧ s ∉ lh.take (m + 1)} ∅ ∧
          (∀ s < start, v' s = v s) ∧ (∀ i < lh.length, v' (start + i + 1) = v (lh.getD i 0)) ∧
          k' = { k with store := k'.store }) ∧ es = []) ∧
        (Flushes top L start lh k.store →
          Spare top L {s | s ∈ lh ∧ s ∉ lh.take m} [] k'.store))
        fun _ => ¬ Flushes top L start lh k.store := by
      refine onStore_ends (fun _ st hok => ?_) fun hp => ?_
      · obtain ⟨hf, -, -⟩ := installBody_flat hf2 hok
        rw [hpin, hlog2 m hlt] at hf
        refine ⟨⟨_, hf, fun s hs => ?_, fun i hi => ?_, by rw [hk1]; rfl⟩, rfl⟩
        · by_cases hsb : s = lh.getD m 0
          · rw [hsb, update_self]
          · rw [update_of_ne hsb, hv2 s hs]
        · have := hlh _ hmem
          rw [update_of_ne (by omega)]
          exact hlog2 i hi
      · exact installBody_spare hf2 (hroom1 hp) (by have := hp.2; omega) (hlh _ hmem)
    apply hbody.mono
    rintro _ k2 _ ⟨⟨⟨v3, hf3, hv3, hlog3, hk2⟩, rfl⟩, hroom2⟩
    refine ⟨⟨m + 1, rfl, hlt, v3, hf3, hv3, hlog3, hk2, fun hp => ?_⟩, by simp⟩
    exact (hroom2 hp).unpin (hpin ▸ Set.sdiff_subset)
  · rintro _ k1 es ⟨⟨m, hbs, hm, v2, hf2, hv2, -, hk1, hroom1⟩, hes⟩
    have hmn := done_of_nil hbs hm
    have hempty : {s | s ∈ lh ∧ s ∉ lh.take m} = ∅ := by
      rw [hmn, take_length]
      exact Set.eq_empty_of_forall_notMem fun s hs => hs.2 hs.1
    rw [hempty] at hf2 hroom1
    exact ⟨⟨v2, hf2, hv2, hk1, hroom1⟩, hes⟩

/-- `commit` leaves the flat disk as it is, up to the log itself. -/
theorem commit_ends (h : Sees k v) (hlh : ∀ s ∈ k.log.lh, s < k.log.start) :
    Ends commit k (fun _ k' es => (∃ v', Sees k' v' ∧ ∀ s < k.log.start, v' s = v s) ∧
      k' = { k with store := k'.store, log := { k.log with lh := [] } } ∧ es = [] ∧
      (Flushes top L k.log.start k.log.lh k.store → Spare top L ∅ [] k'.store))
      fun _ => ¬ Flushes top L k.log.start k.log.lh k.store := by
  apply ends_get_bind
  dsimp only
  by_cases hpos : 0 < k.log.lh.length
  · rw [if_pos hpos]
    apply (writeLog_ends h hlh).bind
    rintro _ k1 es1 ⟨⟨v1, hf1, hv1, hlog1, hk1, hroom1⟩, hes1⟩
    obtain rfl : es1 = [] := eq_nil_iff_forall_not_mem.mpr fun ev hev => by
      simpa using hes1 ev hev
    have hhead : Ends (onStore (writeHead k.log.start k.log.lh)) k1 (fun _ k2 es =>
        ((∃ v2, Flat k2.store v2 {s | s ∈ k.log.lh} ∅ ∧ (∀ s, s ≠ k.log.start → v2 s = v1 s)) ∧
          k2 = { k with store := k2.store } ∧ es = []) ∧
        (Flushes top L k.log.start k.log.lh k.store →
          Spare top L {s | s ∈ k.log.lh} [] k2.store))
        fun _ => ¬ Flushes top L k.log.start k.log.lh k.store := by
      refine onStore_ends (fun _ st hok => ?_) fun hp => ?_
      · obtain ⟨hf, -, -⟩ := writeHead_flat hf1 hok
        have hpin : {s | s ∈ k.log.lh} \ {k.log.start} = {s | s ∈ k.log.lh} :=
          Set.sdiff_singleton_eq_self fun hin => absurd (hlh _ hin) (lt_irrefl _)
        rw [hpin] at hf
        exact ⟨⟨_, hf, fun s hs => update_of_ne hs ..⟩, by rw [hk1]; rfl, rfl⟩
      · exact writeHead_spare hf1 (hroom1 hp).1 (by have := hp.2; omega)
    apply hhead.bind
    rintro _ k2 _ ⟨⟨⟨v2, hf2, hv2⟩, hk2, rfl⟩, hroom2⟩
    have hinstall : Ends (forEach (fun tail => onStore (installBody k.log.start k.log.lh tail))
        (List.range k.log.lh.length)) k2 _ fun _ => ¬ Flushes top L k.log.start k.log.lh k2.store :=
      installTrans_ends hf2 hlh (fun i hi => (hv2 _ (by omega)).trans (hlog1 i hi))
        fun s hs => (hv2 _ (by omega)).trans (hv1 s hs)
    apply (hinstall.weaken fun _ hno hp => hno ⟨hroom2 hp, hp.2⟩).bind
    rintro _ k3 es3 ⟨⟨v3, hf3, hv3, hk3, hroom3⟩, hes3⟩
    obtain rfl : es3 = [] := eq_nil_iff_forall_not_mem.mpr fun ev hev => by
      simpa using hes3 ev hev
    apply ends_modify_bind
    have hclear : Ends (onStore (writeHead k.log.start []))
        { k3 with log := { k3.log with lh := [] } } (fun _ k' es =>
        ((∃ v', Sees k' v' ∧ ∀ s < k.log.start, v' s = v s) ∧
          k' = { k with store := k'.store, log := { k.log with lh := [] } } ∧ es = []) ∧
        (Flushes top L k.log.start k.log.lh k.store → Spare top L ∅ [] k'.store))
        fun _ => ¬ Flushes top L k.log.start k.log.lh k.store := by
      refine onStore_ends (fun _ st hok => ?_) fun hp => ?_
      · obtain ⟨hf, -, -⟩ := writeHead_flat hf3 hok
        rw [Set.empty_sdiff] at hf
        refine ⟨⟨_, by simpa [Sees, setStore] using hf, fun s hs => ?_⟩, ?_, rfl⟩
        · rw [update_of_ne (by omega), hv3 s hs]
        · rw [hk3, hk2]
          rfl
      · exact writeHead_spare hf3 (hroom3 ⟨hroom2 hp, hp.2⟩) (by have := hp.2; omega)
    apply hclear.mono
    rintro _ k4 _ ⟨⟨hv4, hk4, rfl⟩, hroom4⟩
    exact ⟨hv4, hk4, rfl, hroom4⟩
  · rw [if_neg hpos]
    have hnil : k.log.lh = [] := eq_nil_of_length_eq_zero (by omega)
    refine ends_pure ⟨⟨v, h, fun _ _ => rfl⟩, ?_, rfl, fun hp => hp.1.unpin (Set.empty_subset _)⟩
    rw [← hnil]

/-- `end_op` commits if it is the last one. -/
theorem endOp_ends (h : Sees k v) (hlh : ∀ s ∈ k.log.lh, s < k.log.start)
    (hidle : k.log.committing = false) :
    Ends endOp k (fun _ k' es => (∃ v', Sees k' v' ∧ ∀ s < k.log.start, v' s = v s) ∧
      k' = { k with
        store := k'.store
        log := { k.log with
          outstanding := k.log.outstanding - 1
          lh := if k.log.outstanding = 1 then [] else k.log.lh } } ∧ es = [] ∧
      (Flushes top L k.log.start k.log.lh k.store →
        Spare top L {s | s ∈ k'.log.lh} [] k'.store))
      fun _ => ¬ Flushes top L k.log.start k.log.lh k.store := by
  apply ends_get_bind
  by_cases hone : k.log.outstanding = 1
  · rw [Log.endOp_of_not_committing hidle, hone]
    apply ends_modify_bind
    have hcommit : Ends commit (setLog { k.log with outstanding := 0, committing := true } k) _
        fun _ => ¬ Flushes top L k.log.start k.log.lh k.store := commit_ends h hlh
    apply hcommit.bind
    rintro _ k1 _ ⟨⟨v1, hs1, hv1⟩, hk1, rfl, hroom1⟩
    have hlh1 : {s | s ∈ k1.log.lh} = ∅ := by
      rw [hk1]
      simp
    refine ends_modify ⟨⟨v1, hs1, hv1⟩, ?_, rfl, fun hp => ?_⟩
    · rw [hk1]
      simp [setLog, hidle]
    · rw [show ({ k1 with log := { k1.log with committing := false } } : Kernel).log.lh =
        k1.log.lh from rfl, hlh1]
      exact hroom1 hp
  · rw [Log.endOp_of_not_committing hidle, decide_eq_false hone]
    refine ends_modify ⟨⟨v, h, fun _ _ => rfl⟩, ?_, rfl, fun hp => hp.1⟩
    rw [if_neg hone, ← hidle]
    rfl

end

end Xv6.Kernel
