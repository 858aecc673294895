import Xv6.Fs.Owner

/-!
# Mapping the blocks of a file

What `bmap` does to the flat disk and to the references of one inode. `Extends` is the shape that
`bmap` and the loops over it share: the inode only gains blocks, all from `balloc`, and nothing
else changes but the data of the blocks that are written.
-/

namespace Xv6

open Function List

open Lib Act

/-- What `balloc` guarantees about the block it returns. -/
def Honest (r : Region) : FsEvent → Prop
  | .balloc st b => r.lo ≤ b ∧ b < r.sb.size ∧ Kernel.bit st.peek r.sb.ninodes b = false ∧
      ∀ c < b, Kernel.bit st.peek r.sb.ninodes c = true
  | _ => True

/-- Block `b` was returned by one of the calls of `balloc`. -/
def Fresh (es : List FsEvent) (b : Nat) : Prop := ∃ st, .balloc st b ∈ es

/-- The blocks that `balloc` returned, in order. -/
def ballocs (es : List FsEvent) : List Nat :=
  es.filterMap fun
    | .balloc _ b => some b
    | _ => none

theorem mem_ballocs {es : List FsEvent} {b : Nat} : b ∈ ballocs es ↔ Fresh es b := by
  unfold ballocs Fresh
  rw [mem_filterMap]
  constructor
  · rintro ⟨ev, hev, heq⟩
    cases ev with
    | balloc st c =>
      cases heq
      exact ⟨st, hev⟩
    | _ => cases heq
  · rintro ⟨st, hst⟩
    exact ⟨_, hst, rfl⟩

theorem ballocs_append {es es' : List FsEvent} : ballocs (es ++ es') = ballocs es ++ ballocs es' :=
  filterMap_append

/-- The free blocks, lowest first. -/
def freeBlocks (sb : Superblock) (v : Nat → Block) : List Nat :=
  (List.range sb.size).filter fun b => !Kernel.bit v sb.ninodes b

theorem freeBlocks_congr {sb : Superblock} {v v' : Nat → Block}
    (h : ∀ b < sb.size, Kernel.bit v' sb.ninodes b = Kernel.bit v sb.ninodes b) :
    freeBlocks sb v' = freeBlocks sb v :=
  filter_congr fun b hb => by rw [h b (mem_range.mp hb)]

/-- The sectors that a computation of this shape logs: the new blocks and their bitmap blocks, the
indirect block if it gets new entries, and the data blocks written. -/
def Logs (r : Region) (inum : Nat) (v : Nat → Block) (ino : Nat → Dinode) (data : Set Nat)
    (es : List FsEvent) (s : Nat) : Prop :=
  (∃ b, Fresh es b ∧ (s = bblock b r.sb.ninodes ∨ s = b)) ∨
  (∃ j b, refs v r.sb.ninodes ino (inum, .entry j) = some b ∧ Fresh es b ∧
    refs v r.sb.ninodes ino (inum, .addr (Fin.last NDIRECT)) = some s) ∨ s ∈ data

/-- What a computation on one file works on. -/
structure Scope where
  /-- The positions that may get a new block. -/
  slots : Set Slot
  /-- The data blocks that are written. -/
  data : Set Nat
  /-- The changes that are made to data blocks. -/
  edits : Set (Block → Block)

/-- Nothing at all. -/
def Scope.none : Scope := ⟨∅, ∅, ∅⟩

/-- Two computations one after the other. -/
def Scope.also (c c' : Scope) : Scope :=
  ⟨c.slots ∪ c'.slots, c.data ∪ c'.data, c.edits ∪ c'.edits⟩

/-- Inode `inum` becomes `d'`: it gains blocks, and data blocks are written. -/
structure Extends (r : Region) (inum : Nat) (c : Scope) (v : Nat → Block) (ino : Nat → Dinode)
    (v' : Nat → Block) (d' : Dinode) (es : List FsEvent) : Prop where
  sound : Sound r v' (update ino inum d')
  steps : Heap.Steps (r.heap v ino) (r.heap v' (update ino inum d'))
  inode : d' = { ino inum with addrs := d'.addrs }
  keeps : ∀ p b, refs v r.sb.ninodes ino p = some b →
    refs v' r.sb.ninodes (update ino inum d') p = some b
  fresh : ∀ p b, refs v' r.sb.ninodes (update ino inum d') p = some b →
    refs v r.sb.ninodes ino p = some b ∨ p.1 = inum ∧ p.2 ∈ c.slots ∧ Fresh es b
  placed : ∀ b, Fresh es b →
    ∃ s, refs v' r.sb.ninodes (update ino inum d') (inum, s) = some b
  taken : freeBlocks r.sb v = ballocs es ++ freeBlocks r.sb v'
  honest : ∀ ev ∈ es, Honest r ev
  metadata : ∀ s < r.lo, (∀ c < r.top, bblock c r.sb.ninodes ≠ s) → v' s = v s
  others : ∀ p a, refs v r.sb.ninodes ino p = some a → p.1 ≠ inum → v' a = v a
  data : ∀ P : Block → Prop, P (Bytes.zero BSIZE) → (∀ f ∈ c.edits, ∀ d, P d → P (f d)) →
    (∀ s a, s ≠ .addr (Fin.last NDIRECT) → refs v r.sb.ninodes ino (inum, s) = some a →
      P (v a)) →
    ∀ s a, s ≠ .addr (Fin.last NDIRECT) →
      refs v' r.sb.ninodes (update ino inum d') (inum, s) = some a → P (v' a)
  own : ∀ s a, s ≠ .addr (Fin.last NDIRECT) → refs v r.sb.ninodes ino (inum, s) = some a →
    a ∉ c.data → v' a = v a
  zeroed : ∀ s a, s ≠ .addr (Fin.last NDIRECT) →
    refs v' r.sb.ninodes (update ino inum d') (inum, s) = some a → Fresh es a →
    a ∉ c.data → v' a = Bytes.zero BSIZE
  logs : ∀ s, .logWrite s ∈ es ↔ Logs r inum v' (update ino inum d') c.data es s

namespace Extends

variable {r : Region} {inum : Nat} {c c' : Scope} {v v' v'' : Nat → Block} {ino : Nat → Dinode}
  {d d' : Dinode} {es es' : List FsEvent}

theorem allocated (h : Extends r inum c v ino v' d' es) (hl : Allocated r.sb.ninodes ino inum) :
    Allocated r.sb.ninodes (update ino inum d') inum :=
  ⟨hl.1, hl.2.1, by rw [update_self, h.inode]; exact hl.2.2⟩

theorem refl (h : Sound r v ino) : Extends r inum .none v ino v (ino inum) [] where
  sound := by rw [update_eq_self]; exact h
  steps := by rw [update_eq_self]
  inode := rfl
  keeps := by rw [update_eq_self]; exact fun _ _ => id
  fresh := by rw [update_eq_self]; exact fun _ _ => .inl
  placed := by simp [Fresh]
  taken := rfl
  honest := by simp
  metadata := fun _ _ _ => rfl
  others := fun _ _ _ _ => rfl
  data := by rw [update_eq_self]; exact fun _ _ _ => id
  own := fun _ _ _ _ _ => rfl
  zeroed := fun _ _ _ _ h => by simp [Fresh] at h
  logs := by simp [Logs, Fresh, Scope.none]

variable {b a : Nat} {st : Store}

theorem fresh_append : Fresh (es ++ es') b ↔ Fresh es b ∨ Fresh es' b := by
  simp only [Fresh, mem_append]
  exact exists_or

theorem trans (h : Extends r inum c v ino v' d es)
    (h' : Extends r inum c' v' (update ino inum d) v'' d' es') :
    Extends r inum (c.also c') v ino v'' d' (es ++ es') := by
  have hidem : update (update ino inum d) inum d' = update ino inum d' :=
    update_idem ..
  obtain ⟨sound, steps, inode, keeps, fresh, placed, taken, honest, metadata, others, data, own,
    zeroed, logs⟩ := h'
  rw [hidem] at sound steps keeps fresh placed data zeroed logs
  rw [update_self] at inode
  refine ⟨sound, h.steps.trans steps, ?_, ?_, ?_, ?_, ?_, ?_, ?_, ?_, ?_, ?_, ?_, ?_⟩
  · rw [inode, h.inode]
  · exact fun p b hp => keeps p b (h.keeps p b hp)
  · intro p b hp
    rcases fresh p b hp with hp | ⟨hp, hs, hb⟩
    · exact (h.fresh p b hp).imp_right fun hf =>
        ⟨hf.1, .inl hf.2.1, fresh_append.mpr (.inl hf.2.2)⟩
    · exact .inr ⟨hp, .inr hs, fresh_append.mpr (.inr hb)⟩
  · intro b hb
    rcases fresh_append.mp hb with hb | hb
    · obtain ⟨s, hs⟩ := h.placed b hb
      exact ⟨s, keeps _ _ hs⟩
    · exact placed b hb
  · rw [h.taken, taken, ballocs_append, append_assoc]
  · intro ev hev
    rcases mem_append.mp hev with hev | hev
    · exact h.honest ev hev
    · exact honest ev hev
  · exact fun s hs hb => (metadata s hs hb).trans (h.metadata s hs hb)
  · intro p a hp hne
    rw [others p a (h.keeps p a hp) hne, h.others p a hp hne]
  · intro P h0 hF hv
    refine data P h0 (fun f hf => hF f (.inr hf)) ?_
    exact h.data P h0 (fun f hf => hF f (.inl hf)) hv
  · intro s a hs ha hno
    rw [own s a hs (h.keeps _ _ ha) fun hc => hno (.inr hc)]
    exact h.own s a hs ha fun hc => hno (.inl hc)
  · intro s a hs ha hf hno
    have hno' : a ∉ c'.data := fun hc => hno (.inr hc)
    by_cases hf' : Fresh es' a
    · exact zeroed s a hs ha hf' hno'
    · have ha' := (fresh _ _ ha).resolve_right fun hn => hf' hn.2.2
      rw [own s a hs ha' hno']
      exact h.zeroed s a hs ha' ((fresh_append.mp hf).resolve_right hf') fun hc => hno (.inl hc)
  · intro s
    rw [mem_append, h.logs, logs]
    constructor
    · rintro ((⟨b, hb, hs⟩ | ⟨j, b, hj, hb, hs⟩ | hs) | (⟨b, hb, hs⟩ | ⟨j, b, hj, hb, hs⟩ | hs))
      · exact .inl ⟨b, fresh_append.mpr (.inl hb), hs⟩
      · exact .inr (.inl ⟨j, b, keeps _ _ hj, fresh_append.mpr (.inl hb), keeps _ _ hs⟩)
      · exact .inr (.inr (.inl hs))
      · exact .inl ⟨b, fresh_append.mpr (.inr hb), hs⟩
      · exact .inr (.inl ⟨j, b, hj, fresh_append.mpr (.inr hb), hs⟩)
      · exact .inr (.inr (.inr hs))
    · rintro (⟨b, hb, hs⟩ | ⟨j, b, hj, hb, hs⟩ | (hs | hs))
      · rcases fresh_append.mp hb with hb | hb
        · exact .inl (.inl ⟨b, hb, hs⟩)
        · exact .inr (.inl ⟨b, hb, hs⟩)
      · by_cases hb' : Fresh es' b
        · exact .inr (.inr (.inl ⟨j, b, hj, hb', hs⟩))
        · -- the entry was there after the first part already, and with it the indirect block
          have hb := (fresh_append.mp hb).resolve_right hb'
          have hj' := (fresh _ _ hj).resolve_right fun hf => hb' hf.2.2
          obtain ⟨a, ha, -⟩ := refs_entry hj'
          obtain rfl : s = a := Option.some.inj (hs.symm.trans (keeps _ _ ha))
          exact .inl (.inr (.inl ⟨j, b, hj', hb, ha⟩))
      · exact .inl (.inr (.inr hs))
      · exact .inr (.inr (.inr hs))

theorem mono (h : Extends r inum c v ino v' d es) (hslots : c.slots ⊆ c'.slots)
    (hdata : c.data = c'.data) (hedits : c.edits ⊆ c'.edits) :
    Extends r inum c' v ino v' d es :=
  { h with
    fresh := fun p b hp => (h.fresh p b hp).imp_right fun hf => ⟨hf.1, hslots hf.2.1, hf.2.2⟩
    data := fun P h0 hP => h.data P h0 fun f hf => hP f (hedits hf)
    own := fun s a hs ha hno => h.own s a hs ha (hdata ▸ hno)
    zeroed := fun s a hs ha hf hno => h.zeroed s a hs ha hf (hdata ▸ hno)
    logs := hdata ▸ h.logs }

theorem write (h : Sound r v ino) {s : Slot} (hs : s ≠ .addr (Fin.last NDIRECT))
    (ha : refs v r.sb.ninodes ino (inum, s) = some a) (f : Block → Block) :
    Extends r inum ⟨∅, {a}, {f}⟩ v ino (update v a (f (v a))) (ino inum)
      [.logWrite a] := by
  have hheap := h.heap_write (d := f (v a)) ha hs
  have hrefs : refs (update v a (f (v a))) r.sb.ninodes ino = refs v r.sb.ninodes ino :=
    congrArg Heap.ref hheap
  have hlo := h.lo_le ha
  have htwo := r.two_lt
  have hnofresh : ∀ b, ¬ Fresh [FsEvent.logWrite a] b := by simp [Fresh]
  refine ⟨?_, ?_, rfl, ?_, ?_, fun b hb => absurd hb (hnofresh b), ?_, ?_, ?_, ?_, ?_,
    fun _ b _ _ hno => update_of_ne hno .., fun _ b _ _ hb => absurd hb (hnofresh b), ?_⟩
  · rw [update_eq_self]; exact h.write ha hs
  · rw [update_eq_self, hheap]
  · rw [update_eq_self, hrefs]; exact fun _ _ => id
  · rw [update_eq_self, hrefs]; exact fun _ _ => .inl
  · exact (freeBlocks_congr fun b hb =>
      Sound.bit_update_of_ge hlo.1 (lt_of_lt_of_le hb r.size_le)).symm
  · intro ev hev
    rw [mem_singleton.mp hev]
    trivial
  · intro t ht _
    exact update_of_ne (by omega) ..
  · intro p b hp hne
    refine update_of_ne (fun hba => hne ?_) ..
    have heq : p = (inum, s) := h.owned.inj (hba ▸ hp) ha
    rw [heq]
  · intro P h0 hF hv t b ht hb
    rw [update_eq_self, hrefs] at hb
    by_cases hba : b = a
    · subst hba
      rw [update_self]
      exact hF f rfl _ (hv t b ht hb)
    · rw [update_of_ne hba]
      exact hv t b ht hb
  · intro t
    simp only [mem_singleton, FsEvent.logWrite.injEq, Logs]
    constructor
    · exact fun heq => .inr (.inr heq)
    · rintro (⟨b, hb, -⟩ | ⟨j, b, -, hb, -⟩ | heq)
      · exact absurd hb (hnofresh b)
      · exact absurd hb (hnofresh b)
      · exact heq

/-- `b` is the block that `balloc` returns on a store that stands for `v`. -/
structure Next (r : Region) (v : Nat → Block) (st : Store) (b : Nat) : Prop where
  peek : st.peek = v
  lt : b < r.sb.size
  clear : Kernel.bit v r.sb.ninodes b = false
  below : ∀ c < b, Kernel.bit v r.sb.ninodes c = true

theorem Next.mem (h : Sound r v ino) (hb : Next r v st b) :
    r.lo ≤ b ∧ b < r.hi := h.mem_of_clear hb.lt hb.clear

theorem Next.honest (h : Sound r v ino) (hb : Next r v st b) : Honest r (.balloc st b) := by
  refine ⟨(hb.mem h).1, hb.lt, ?_, ?_⟩
  · rw [hb.peek]; exact hb.clear
  · rw [hb.peek]; exact hb.below

/-- The next block is the first of the free ones. -/
theorem Next.freeBlocks_eq (h : Sound r v ino) (hb : Next r v st b) :
    freeBlocks r.sb v = b :: freeBlocks r.sb (Sound.allocated v r.sb.ninodes b) := by
  have hbit : ∀ c < r.sb.size, Kernel.bit (Sound.allocated v r.sb.ninodes b) r.sb.ninodes c =
      (decide (c = b) || Kernel.bit v r.sb.ninodes c) := fun c hc =>
    Sound.bit_allocated (hb.mem h).1 (lt_of_lt_of_le hc r.size_le)
  have hsplit : List.range r.sb.size =
      List.range b ++ b :: List.range' (b + 1) (r.sb.size - (b + 1)) := by
    have hlt := hb.lt
    rw [range_eq_range', range_eq_range', ← List.range'_succ]
    have := List.range'_append_1 (s := 0) (m := b) (n := r.sb.size - (b + 1) + 1)
    rw [Nat.zero_add] at this
    rw [this]
    congr 1
    omega
  unfold freeBlocks
  rw [hsplit, filter_append, filter_append, filter_cons, filter_cons,
    hb.clear, hbit b hb.lt, decide_eq_true rfl]
  have hbefore : ∀ p : Nat → Bool, (∀ c < b, p c = false) → (List.range b).filter p = [] :=
    fun p hp => filter_eq_nil_iff.mpr fun c hc => by simp [hp c (mem_range.mp hc)]
  have hlt := hb.lt
  rw [hbefore _ fun c hc => by rw [hb.below c hc]; rfl, hbefore _ fun c hc => by
    rw [hbit c (by omega), hb.below c hc, Bool.or_true]; rfl]
  simp only [Bool.not_false, if_true, Bool.true_or, Bool.not_true, nil_append]
  congr 1
  refine filter_congr fun c hc => ?_
  rw [mem_range'_1] at hc
  rw [hbit c (by omega), decide_eq_false (by omega), Bool.false_or]

theorem mem_logs_of_next {s n : Nat} :
    FsEvent.logWrite s ∈ [.logWrite (bblock b n), .logWrite b, .balloc st b] ↔
      s = bblock b n ∨ s = b := by
  simp

theorem assignAddr {i : Fin (NDIRECT + 1)} (h : Sound r v ino) (hb : Next r v st b)
    (hl : Allocated r.sb.ninodes ino inum) (hi : (ino inum).addrs i = 0) :
    Extends r inum ⟨{.addr i}, ∅, ∅⟩ v ino (Sound.allocated v r.sb.ninodes b)
      { ino inum with addrs := update (ino inum).addrs i (BitVec.ofNat 32 b) }
      [.logWrite (bblock b r.sb.ninodes), .logWrite b, .balloc st b] := by
  have hmem := hb.mem h
  have hheap := h.heap_assign_addr hmem hb.clear hl hi
  have hrefs := congrArg Heap.ref hheap
  change refs _ _ _ = update (refs v r.sb.ninodes ino) (inum, .addr i) (some b) at hrefs
  have hnone : refs v r.sb.ninodes ino (inum, .addr i) = none := by
    rw [refs_of_allocated hl]; exact congrArg ptr hi
  have htwo := r.two_lt
  have htop : b < r.top := lt_of_lt_of_le hmem.2 r.hi_le
  have hbm := r.bitmap b htop
  have hfresh : ∀ c, Fresh [.logWrite (bblock b r.sb.ninodes), .logWrite b, .balloc st b] c ↔
      c = b := by simp [Fresh]
  refine ⟨?_, ?_, rfl, ?_, ?_, ?_, hb.freeBlocks_eq h, ?_, ?_, ?_, ?_,
    fun _ _ _ ha _ => h.allocated_of_ref hmem hb.clear ha, fun _ a _ _ ha _ => ?_, ?_⟩
  · exact h.assignAddr hmem hb.clear hl hi
  · exact .single (h.step_assign_addr hmem hb.clear hl hi)
  · intro p c hp
    rw [hrefs, update_of_ne (fun heq => by rw [heq, hnone] at hp; cases hp)]
    exact hp
  · intro p c hp
    rw [hrefs] at hp
    by_cases hpi : p = (inum, .addr i)
    · rw [hpi, update_self] at hp
      exact .inr ⟨by rw [hpi], by rw [hpi]; rfl, (hfresh c).mpr (Option.some.inj hp).symm⟩
    · rw [update_of_ne hpi] at hp
      exact .inl hp
  · intro c hc
    rw [(hfresh c).mp hc]
    exact ⟨.addr i, by rw [hrefs, update_self]⟩
  · intro ev hev
    simp only [mem_cons, not_mem_nil, or_false] at hev
    rcases hev with rfl | rfl | rfl
    · trivial
    · trivial
    · exact hb.honest h
  · intro s hs hsb
    exact Sound.allocated_of_ne (by omega) (Ne.symm (hsb b htop))
  · exact fun p a hp _ => h.allocated_of_ref hmem hb.clear hp
  · intro P h0 _ hv s a hs ha
    rw [hrefs] at ha
    by_cases hpi : (inum, s) = (inum, Slot.addr i)
    · rw [hpi, update_self] at ha
      cases ha
      unfold Sound.allocated
      rw [update_self]
      exact h0
    · rw [update_of_ne hpi] at ha
      rw [h.allocated_of_ref hmem hb.clear ha]
      exact hv s a hs ha
  · rw [(hfresh a).mp ha]
    exact update_self ..
  · intro s
    rw [mem_logs_of_next]
    constructor
    · exact fun hs => .inl ⟨b, (hfresh b).mpr rfl, hs⟩
    · rintro (⟨c, hc, hs⟩ | ⟨j, c, hj, hc, -⟩ | hs)
      · rw [(hfresh c).mp hc] at hs; exact hs
      · -- the new block is not an entry
        rw [hrefs, update_of_ne (by simp), (hfresh c).mp hc] at hj
        exact absurd rfl (h.ne_of_clear hb.clear hj)
      · exact absurd hs (Set.notMem_empty s)

theorem assignEntry {j : Fin NINDIRECT} (h : Sound r v ino) (hb : Next r v st b)
    (hj : refs v r.sb.ninodes ino (inum, .entry j) = none)
    (ha : refs v r.sb.ninodes ino (inum, .addr (Fin.last NDIRECT)) = some a) :
    Extends r inum ⟨{.entry j}, ∅, ∅⟩ v ino
      (update (Sound.allocated v r.sb.ninodes b) a
        (putAddr (v a) j (BitVec.ofNat 32 b))) (ino inum)
      [.logWrite (bblock b r.sb.ninodes), .logWrite b, .balloc st b, .logWrite a] := by
  have hmem := hb.mem h
  have hheap := h.heap_assign_entry (e := j) hmem hb.clear ha
  have hrefs := congrArg Heap.ref hheap
  change refs _ _ _ = update (refs v r.sb.ninodes ino) (inum, .entry j) (some b) at hrefs
  have halo := h.lo_le ha
  have htwo := r.two_lt
  have htop : b < r.top := lt_of_lt_of_le hmem.2 r.hi_le
  have hab : a ≠ b := h.ne_of_clear hb.clear ha
  have hfresh : ∀ c, Fresh [.logWrite (bblock b r.sb.ninodes), .logWrite b, .balloc st b,
      .logWrite a] c ↔ c = b := by simp [Fresh]
  have hkeep : ∀ s c, s ≠ .addr (Fin.last NDIRECT) → refs v r.sb.ninodes ino (inum, s) = some c →
      update (Sound.allocated v r.sb.ninodes b) a (putAddr (v a) j (BitVec.ofNat 32 b)) c =
        v c := by
    intro s c hs hc
    rw [update_of_ne, h.allocated_of_ref hmem hb.clear hc]
    intro hca
    have heq : (inum, s) = (inum, Slot.addr (Fin.last NDIRECT)) := h.owned.inj (hca ▸ hc) ha
    exact hs (Prod.mk.inj heq).2
  have hzero : update (Sound.allocated v r.sb.ninodes b) a
      (putAddr (v a) j (BitVec.ofNat 32 b)) b = Bytes.zero BSIZE := by
    rw [update_of_ne (Ne.symm hab)]
    exact update_self ..
  refine ⟨?_, ?_, rfl, ?_, ?_, ?_, ?_, ?_, ?_, ?_, ?_, fun s c hs hc _ => hkeep s c hs hc,
    fun _ c _ _ hc _ => by rw [(hfresh c).mp hc]; exact hzero, ?_⟩
  · rw [update_eq_self]
    exact h.assignEntry hmem hb.clear hj ha
  · rw [update_eq_self]
    exact .single (h.step_assign_entry hmem hb.clear hj ha)
  · intro p c hp
    rw [update_eq_self, hrefs,
      update_of_ne (fun heq => by rw [heq, hj] at hp; cases hp)]
    exact hp
  · intro p c hp
    rw [update_eq_self, hrefs] at hp
    by_cases hpi : p = (inum, .entry j)
    · rw [hpi, update_self] at hp
      exact .inr ⟨by rw [hpi], by rw [hpi]; rfl, (hfresh c).mpr (Option.some.inj hp).symm⟩
    · rw [update_of_ne hpi] at hp
      exact .inl hp
  · intro c hc
    rw [(hfresh c).mp hc]
    exact ⟨.entry j, by rw [update_eq_self, hrefs, update_self]⟩
  · rw [hb.freeBlocks_eq h, freeBlocks_congr (v := Sound.allocated v r.sb.ninodes b) fun c hc =>
      Sound.bit_update_of_ge halo.1 (lt_of_lt_of_le hc r.size_le)]
    rfl
  · intro ev hev
    simp only [mem_cons, not_mem_nil, or_false] at hev
    rcases hev with rfl | rfl | rfl | rfl
    · trivial
    · trivial
    · exact hb.honest h
    · trivial
  · intro s hs hsb
    rw [update_of_ne (by omega)]
    exact Sound.allocated_of_ne (by omega) (Ne.symm (hsb b htop))
  · intro p c hp hne
    rw [update_of_ne (fun hca => hne ?_), h.allocated_of_ref hmem hb.clear hp]
    have heq : p = (inum, .addr (Fin.last NDIRECT)) := h.owned.inj (hca ▸ hp) ha
    rw [heq]
  · intro P h0 _ hv s c hs hc
    rw [update_eq_self, hrefs] at hc
    by_cases hpi : (inum, s) = (inum, Slot.entry j)
    · rw [hpi, update_self] at hc
      cases hc
      rw [hzero]
      exact h0
    · rw [update_of_ne hpi] at hc
      rw [hkeep s c hs hc]
      exact hv s c hs hc
  · intro s
    have hmem : FsEvent.logWrite s ∈ [.logWrite (bblock b r.sb.ninodes), .logWrite b,
        .balloc st b, .logWrite a] ↔ (s = bblock b r.sb.ninodes ∨ s = b) ∨ s = a := by
      simp [or_assoc]
    have hlast : refs (update (Sound.allocated v r.sb.ninodes b) a
        (putAddr (v a) j (BitVec.ofNat 32 b))) r.sb.ninodes ino
        (inum, .addr (Fin.last NDIRECT)) = some a := by
      rw [hrefs, update_of_ne (by simp)]
      exact ha
    rw [hmem, update_eq_self, Logs, hlast]
    constructor
    · rintro (hs | rfl)
      · exact .inl ⟨b, (hfresh b).mpr rfl, hs⟩
      · exact .inr (.inl ⟨j, b, by rw [hrefs, update_self], (hfresh b).mpr rfl, rfl⟩)
    · rintro (⟨c, hc, hs⟩ | ⟨j', c, -, -, hs⟩ | hs)
      · rw [(hfresh c).mp hc] at hs; exact .inl hs
      · exact .inr (Option.some.inj hs).symm
      · exact absurd hs (Set.notMem_empty s)

end Extends

/-- The position of block `bn` of a file. -/
def slotOf (bn : Nat) : Option Slot :=
  if h : bn < NDIRECT then some (.addr ⟨bn, Nat.lt_succ_of_lt h⟩)
  else if h : bn - NDIRECT < NINDIRECT then some (.entry ⟨bn - NDIRECT, h⟩)
  else none

theorem slotOf_ne_last {bn : Nat} {s : Slot} (h : slotOf bn = some s) :
    s ≠ .addr (Fin.last NDIRECT) := by
  unfold slotOf at h
  split at h
  · rename_i hbn
    rw [← Option.some.inj h]
    intro heq
    have := congrArg Fin.val (Slot.addr.inj heq)
    simp at this
    omega
  · split at h
    · rw [← Option.some.inj h]
      simp
    · cases h

theorem slotOf_inj {bn bn' : Nat} {s : Slot} (h : slotOf bn = some s) (h' : slotOf bn' = some s) :
    bn = bn' := by
  unfold slotOf at h h'
  split_ifs at h with h1 h2 <;> split_ifs at h' with h3 h4 <;>
    rw [← h'] at h <;> simp at h <;> omega

/-- The positions that `bmap` looks at for block `bn`. -/
def slotsOf (bn : Nat) : Set Slot :=
  {s | slotOf bn = some s ∨ NDIRECT ≤ bn ∧ s = .addr (Fin.last NDIRECT)}

namespace Kernel

/-- A computation on the contents of the inode `e`: of the rest of the kernel, only the copy of the
disk inode in the cache may change. The kernel now stands for `v`. -/
structure Works (k k' : Kernel) (e : Fin NINODE) (v : Nat → Block) : Prop where
  frame : k' = { k with
    store := k'.store
    log := k'.log
    icache := update k.icache e { k.icache e with d := (k'.icache e).d } }
  log : k'.log = { k.log with lh := k'.log.lh }
  sees : Sees k' v
  kept : Kept k.store k'.store

section

variable {k l m : Kernel} {e : Fin NINODE} {v w : Nat → Block}

theorem Goes.works (h : Goes k l v) (e : Fin NINODE) : Works k l e v := by
  refine ⟨?_, h.log, h.sees, h.kept⟩
  rw [h.icache, update_eq_self]
  exact h.frame

theorem Works.icache (h : Works k l e v) :
    l.icache = update k.icache e { k.icache e with d := (l.icache e).d } :=
  congrArg Kernel.icache h.frame

theorem Works.entry (h : Works k l e v) :
    l.icache e = { k.icache e with d := (l.icache e).d } := by
  have := congrFun h.icache e
  rwa [update_self] at this

theorem Works.inum (h : Works k l e v) : (l.icache e).inum = (k.icache e).inum := by
  rw [h.entry]

theorem Works.trans (h : Works k l e v) (h' : Works l m e w) : Works k m e w := by
  refine ⟨?_, by rw [h'.log, h.log], h'.sees,
    ⟨?_, by rw [h'.kept.disksize, h.kept.disksize]⟩⟩
  · rw [h'.frame, h.frame]
    simp only [update_self, update_idem]
  · intro c hc
    have hl := h.kept.held c hc
    rw [h'.kept.held c (by rw [hl]; exact hc), hl]

end

section

variable {k : Kernel} {e : Fin NINODE} {v : Nat → Block} {r : Region} {ino : Nat → Dinode}

variable {E : Halt → Prop} {k1 : Kernel} {a bn : Nat}

theorem inode_ends : Ends (inode e) k (fun ip k' es => ip = k.icache e ∧ k = k' ∧ es = []) E :=
  ends_get_bind (ends_pure ⟨rfl, rfl, rfl⟩)

theorem ends_inode_bind {α : Type} {f : Inode → K α} {Q : α → Kernel → List FsEvent → Prop}
    (h : Ends (f (k.icache e)) k Q E) : Ends (inode e >>= f) k Q E := by
  apply inode_ends.bind
  rintro _ _ _ ⟨rfl, rfl, rfl⟩
  exact h

theorem inode_holds : Hush (inode e) k (fun ip k' => ip = k.icache e ∧ k = k') E :=
  hush_get_bind (hush_pure ⟨rfl, rfl⟩)

theorem setInode_ends {f : Inode → Inode} : Ends (setInode e f) k (fun _ k' es =>
      k' = { k with icache := update k.icache e (f (k.icache e)) } ∧ es = []) E :=
  ends_modify ⟨rfl, rfl⟩

theorem Goes.set (h : Goes k k1 v) (d : Dinode) :
    Works k { k1 with icache := update k1.icache e { k1.icache e with d := d } } e v := by
  refine ⟨?_, h.log, h.sees, h.kept⟩
  rw [h.icache]
  simp only [update_self]
  rw [h.frame]

theorem Balloced.next {b : Nat} (hs : Sound r v ino) (h : Sees k v)
    (hb : Balloced k k1 v (getSuperblock (v 1)) b) : Extends.Next r v k.store b := by
  rw [hs.super] at hb
  exact ⟨Flat.peek h, hb.lt, hb.clear, hb.below⟩

theorem bmapAddr_ends {i : Fin (NDIRECT + 1)} (h : Sees k v) (hs : Sound r v ino)
    (hl : Allocated r.sb.ninodes ino (k.icache e).inum)
    (hd : ino (k.icache e).inum = (k.icache e).d) :
    Ends (bmapAddr e i) k (fun addr k' es => ∃ v', Works k k' e v' ∧
      Extends r (k.icache e).inum ⟨{.addr i}, ∅, ∅⟩ v ino v' (k'.icache e).d es ∧
      refs v' r.sb.ninodes (update ino (k.icache e).inum (k'.icache e).d)
        ((k.icache e).inum, .addr i) = some addr ∧
      ((k.icache e).d.addrs i ≠ 0 → (k'.icache e).d = (k.icache e).d)) Benign := by
  apply ends_inode_bind
  by_cases hi : (k.icache e).d.addrs i = 0
  · rw [if_pos hi]
    apply (balloc_ends h).bind
    rintro addr k1 _ ⟨-, hb, rfl⟩
    have hnext := hb.next hs h
    have hgo := hb.goes
    rw [hs.super] at hgo ⊢
    apply setInode_ends.bind
    rintro _ _ _ ⟨rfl, rfl⟩
    have hext := Extends.assignAddr (i := i) hs hnext hl (by rw [hd]; exact hi)
    rw [hd] at hext
    have hdin : k1.icache e = k.icache e := by rw [hgo.icache]
    refine ends_pure ⟨_, hgo.set _, ?_, ?_, fun hne => absurd hi hne⟩
    · simp only [update_self, hdin]
      exact hext
    · have htype : (k.icache e).d.type ≠ 0 := hd ▸ hl.2.2
      simp only [update_self, hdin]
      rw [refs_update_self hl (by exact htype)]
      simp only [slotRef, update_self]
      have hmem := hnext.mem hs
      exact ptr_ofNat (by have := r.two_lt; omega) (lt_of_lt_of_le hmem.2 r.word)
  · rw [if_neg hi]
    refine ends_pure ⟨v, (Goes.refl h).works e, ?_, ?_, fun _ => rfl⟩
    · rw [← hd]
      exact (Extends.refl hs).mono (Set.empty_subset _) rfl (Set.empty_subset _)
    · rw [← hd, update_eq_self, refs_of_allocated hl, hd]
      exact ptr_of_ne hi

theorem bmapEntry_ends {dev inum : Nat} {j : Fin NINDIRECT} (h : Sees k v) (hs : Sound r v ino)
    (ha : refs v r.sb.ninodes ino (inum, .addr (Fin.last NDIRECT)) = some a) :
    Ends (bmapEntry dev a j) k (fun addr k' es => ∃ v', Goes k k' v' ∧
      Extends r inum ⟨{.entry j}, ∅, ∅⟩ v ino v' (ino inum) es ∧
      refs v' r.sb.ninodes ino (inum, .entry j) = some addr) Benign := by
  have hl := (refs_eq_some ha).1
  have hptr : ptr ((ino inum).addrs (Fin.last NDIRECT)) = some a := (refs_eq_some ha).2
  have hentry : refs v r.sb.ninodes ino (inum, .entry j) = ptr (getAddr (v a) j) := by
    rw [refs_of_allocated hl]
    simp only [slotRef, hptr, Option.bind_some]
  apply (bread_ends h).bind
  rintro bp k1 _ ⟨-, hh, rfl⟩
  apply ends_data_bind
  rw [hh.data]
  by_cases hj : getAddr (v a) j = 0
  · rw [if_pos hj]
    apply (balloc_ends hh.sees).bind
    rintro addr k2 _ ⟨-, hb, rfl⟩
    have hnext := hb.next hs hh.sees
    have hgo := hb.goes
    rw [hs.super] at hgo ⊢
    -- the buffer of the indirect block was held all the time
    have hbuf := hgo.kept.held bp hh.handed.busy
    apply ends_data_bind
    rw [hbuf, hh.data]
    have hc : Caches k2.store bp a := by
      unfold Caches
      rw [hbuf]
      exact hh.handed.caches
    apply (writeBack_ends hgo.sees hc (by rw [hbuf]; exact hh.handed.busy)).bind
    rintro _ k3 _ ⟨hf, hsees, ho, rfl⟩
    have hext := Extends.assignEntry (j := j) hs hnext (by rw [hentry, hj]; rfl) ha
    refine ends_pure ⟨_, ?_, hext, ?_⟩
    · exact hh.updated hgo hf hsees ho
    · have hheap := congrArg Heap.ref (hs.heap_assign_entry (e := j) (hnext.mem hs) hnext.clear ha)
      have := congrFun hheap (inum, .entry j)
      simpa [Region.heap, Heap.assign] using this
  · rw [if_neg hj]
    apply (brelse_ends hh.sees hh.handed.caches).bind
    rintro _ k2 _ ⟨hf, hsees, ho, rfl⟩
    refine ends_pure ⟨v, hh.released hf hsees ho,
      (Extends.refl hs).mono (Set.empty_subset _) rfl (Set.empty_subset _), ?_⟩
    rw [hentry]
    exact ptr_of_ne hj

/-- `bmap` finds the block of the file, or gives it one. -/
theorem bmap_ends (h : Sees k v) (hs : Sound r v ino)
    (hl : Allocated r.sb.ninodes ino (k.icache e).inum)
    (hd : ino (k.icache e).inum = (k.icache e).d) :
    Ends (bmap e bn) k (fun addr k' es => ∃ v' s, Works k k' e v' ∧
      Extends r (k.icache e).inum ⟨slotsOf bn, ∅, ∅⟩ v ino v' (k'.icache e).d es ∧
      slotOf bn = some s ∧
      refs v' r.sb.ninodes (update ino (k.icache e).inum (k'.icache e).d)
        ((k.icache e).inum, s) = some addr ∧
      (∀ a, refs v r.sb.ninodes ino ((k.icache e).inum, s) = some a →
        (k'.icache e).d = (k.icache e).d)) Benign := by
  unfold bmap slotsOf slotOf
  by_cases hbn : bn < NDIRECT
  · rw [dif_pos hbn, dif_pos hbn]
    apply (bmapAddr_ends h hs hl hd).mono
    rintro addr k' es ⟨v', hw, hext, href, hstay⟩
    refine ⟨v', _, hw, hext.mono ?_ rfl (Set.empty_subset _), rfl, href, fun a ha => hstay ?_⟩
    · rintro _ rfl
      exact .inl rfl
    exact hd ▸ (ptr_eq_some (refs_eq_some ha).2).1
  · rw [dif_neg hbn, dif_neg hbn]
    by_cases hj : bn - NDIRECT < NINDIRECT
    · rw [if_pos hj, dif_pos hj]
      apply (bmapAddr_ends h hs hl hd).bind
      rintro a k1 es ⟨v1, hw1, hext1, href1, hstay⟩
      apply ends_inode_bind
      apply (bmapEntry_ends (j := ⟨bn - NDIRECT, hj⟩) hw1.sees hext1.sound href1).mono
      rintro addr k2 es' ⟨v2, hgo, hext2, href2⟩
      have hsame : (k2.icache e).d = (k1.icache e).d := by rw [hgo.icache]
      rw [update_self] at hext2
      have hext : Extends _ _ ⟨{s | some (.entry ⟨bn - NDIRECT, hj⟩) = some s ∨
          NDIRECT ≤ bn ∧ s = .addr (Fin.last NDIRECT)}, ∅, ∅⟩ _ _ _ _ _ :=
        (hext1.trans hext2).mono ?_ (Set.empty_union _)
          (Set.union_subset (Set.empty_subset _) (Set.empty_subset _))
      swap
      · rintro _ (rfl | rfl)
        · exact .inr ⟨by omega, rfl⟩
        · exact .inl rfl
      refine ⟨v2, _, hw1.trans (hgo.works e), by rw [hsame]; exact hext, rfl,
        by rw [hsame]; exact href2, fun b hb => hsame.trans (hstay ?_)⟩
      obtain ⟨a', ha', -⟩ := refs_entry hb
      exact hd ▸ (ptr_eq_some (refs_eq_some ha').2).1
    · rw [if_neg hj]
      exact ends_panic (by unfold Benign; decide)

/-- `bmap` of a block that is there changes nothing. -/
theorem bmap_mapped_holds {s : Slot} (h : Sees k v) (hd : ino (k.icache e).inum = (k.icache e).d)
    (hslot : slotOf bn = some s)
    (ha : refs v r.sb.ninodes ino ((k.icache e).inum, s) = some a) :
    Hush (bmap e bn) k (fun addr k' => addr = a ∧ Goes k k' v) BioHalt := by
  obtain ⟨hl, hslotref⟩ := refs_eq_some ha
  simp only [hd] at hslotref
  -- the address of the inode that `bmap` looks at first is there
  have haddr : ∀ {i : Fin (NDIRECT + 1)} {b : Nat}, ptr ((k.icache e).d.addrs i) = some b →
      Hush (bmapAddr e i) k (fun addr k' => addr = b ∧ k = k') BioHalt := by
    intro i b hi
    obtain ⟨hne, hb⟩ := ptr_eq_some hi
    apply inode_holds.bind
    rintro _ _ ⟨rfl, rfl⟩
    rw [if_neg hne]
    exact hush_pure ⟨hb, rfl⟩
  unfold slotOf at hslot
  unfold bmap
  by_cases hbn : bn < NDIRECT
  · rw [dif_pos hbn] at hslot ⊢
    cases hslot
    refine (haddr hslotref).mono ?_ fun _ => id
    rintro _ _ ⟨rfl, rfl⟩
    exact ⟨rfl, .refl h⟩
  · rw [dif_neg hbn] at hslot ⊢
    by_cases hj : bn - NDIRECT < NINDIRECT
    · rw [dif_pos hj] at hslot
      rw [if_pos hj]
      cases hslot
      obtain ⟨b, hb, hentry⟩ := Option.bind_eq_some_iff.mp hslotref
      obtain ⟨hne, hval⟩ := ptr_eq_some hentry
      apply (haddr hb).bind
      rintro _ _ ⟨rfl, rfl⟩
      apply inode_holds.bind
      rintro _ _ ⟨rfl, rfl⟩
      apply (bread_holds h).bind
      rintro bp k1 ⟨-, hh⟩
      apply data_holds.bind
      rintro _ _ ⟨rfl, rfl⟩
      rw [hh.data, if_neg hne]
      apply (brelse_frees hh.sees hh.handed.caches).bind
      rintro _ k2 ⟨hf, hsees, ho⟩
      exact hush_pure ⟨hval, hh.released hf hsees ho⟩
    · rw [dif_neg hj] at hslot
      cases hslot

end

end Kernel

end Xv6
