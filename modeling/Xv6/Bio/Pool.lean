import Mathlib.Data.Fintype.Card
import Xv6.Lib.Ring
import Xv6.Lib.Trans
import Xv6.Bio

/-!
# The list of buffers

`bio.c` down to the links of its list and its three counters, under any interleaving of processes.
A section under `bcache.lock` is one step. A process that finds its sector busy sleeps inside
`bget` and, woken up, searches the list again from the label `loop`; the access has been counted
already.

The list in `Xv6.Bcache` is what these links hold (`Pool.Shows`), and the two agree on what `bget`
and `brelse` do to it.
-/

namespace Xv6

open Function Finset

open Lib

/-- `bcache` (`bio.c:36-43`) with the links of the buffers and of `head`, and the counters beside
it (`bio.c:31-33`). -/
structure Pool where
  buf : Fin NBUF → Buf
  ring : Links (Fin NBUF)
  freeBlockNumber : BitVec 32
  numberOfHits : BitVec 32
  numberOfBlockAcsses : BitVec 32

/-- What the two loops of `bget` find. -/
inductive Lookup where
  /-- The sector is cached and its buffer free. -/
  | hit (b : Fin NBUF)
  /-- The sector is cached and its buffer busy. -/
  | busy (b : Fin NBUF)
  /-- The sector is not cached and this buffer is taken for it. -/
  | recycle (b : Fin NBUF)
  /-- The panic "bget: no buffers". -/
  | full
  deriving DecidableEq, Repr

namespace Pool

/-- `binit` (`bio.c:45-68`). -/
def start : Pool where
  buf := binit.buf
  ring := (List.finRange NBUF).foldl Links.pushFront .empty
  freeBlockNumber := BitVec.ofNat 32 NBUF
  numberOfHits := 0
  numberOfBlockAcsses := 0

/-- The test of the first loop; a device number -1 is `none`. -/
def isFor (c : Pool) (dev : Option Nat) (sector : Nat) (b : Fin NBUF) : Bool :=
  decide ((c.buf b).dev = dev) && decide ((c.buf b).sector = sector)

/-- The test of the second loop. -/
def isClean (c : Pool) (b : Fin NBUF) : Bool := !(c.buf b).busy && !(c.buf b).dirty

/-- The two loops of `bget` (`bio.c:83-116`), along `next` and along `prev`. -/
def lookup (c : Pool) (dev : Option Nat) (sector : Nat) : Lookup :=
  match Links.scan c.ring.next (c.isFor dev sector) NBUF (c.ring.next none) with
  | some b => if (c.buf b).busy then .busy b else .hit b
  | none =>
    match Links.scan c.ring.prev c.isClean NBUF (c.ring.prev none) with
    | some b => .recycle b
    | none => .full

/-- `number_of_block_acsses++` (`bio.c:80`). -/
def access (c : Pool) : Pool := { c with numberOfBlockAcsses := c.numberOfBlockAcsses + 1 }

/-- A cached buffer is handed out (`bio.c:88-91`). -/
def hit (c : Pool) (b : Fin NBUF) : Pool :=
  { c with
    buf := update c.buf b { c.buf b with busy := true }
    numberOfHits := c.numberOfHits + 1
    freeBlockNumber := c.freeBlockNumber - 1 }

/-- A buffer is recycled (`bio.c:106-110`). -/
def recycle (c : Pool) (dev : Option Nat) (sector : Nat) (b : Fin NBUF) : Pool :=
  { c with
    buf := update c.buf b
      { c.buf b with dev := dev, sector := sector, busy := true, valid := false, dirty := false }
    freeBlockNumber := c.freeBlockNumber - 1 }

/-- The other flags and the data of a buffer change. -/
def use (c : Pool) (b : Fin NBUF) (valid dirty : Bool) (data : Block) : Pool :=
  { c with
    buf := update c.buf b { c.buf b with valid := valid, dirty := dirty, data := data } }

/-- The locked section of `brelse` (`bio.c:151-160`). -/
def brelse (c : Pool) (b : Fin NBUF) : Pool :=
  { c with
    ring := (c.ring.unlink b).pushFront b
    buf := update c.buf b { c.buf b with busy := false }
    freeBlockNumber := c.freeBlockNumber + 1 }

end Pool

/-- Where a process stands with respect to `bget`. -/
inductive BgetPc where
  | out
  /-- At the label `loop`, looking for this sector. -/
  | inside (dev : Option Nat) (sector : Nat)
  deriving DecidableEq, Repr

/-- The cache and the processes around it. -/
structure PoolSys where
  pool : Pool
  pc : Nat → BgetPc
  /-- The process that `bget` gave the buffer to. -/
  holder : Fin NBUF → Option Nat
  panicked : Option String

/-- One step of one process. -/
inductive PoolStep where
  /-- `bget` is called. -/
  | bget (p : Nat) (dev : Option Nat) (sector : Nat)
  /-- A process that slept in `bget` goes back to `loop`. -/
  | retry (p : Nat)
  /-- The holder of a buffer changes its data and its other flags, as `iderw`, `bwrite` and
  `log_write` do. -/
  | use (p : Nat) (b : Fin NBUF) (valid dirty : Bool) (data : Block)
  | brelse (p : Nat) (b : Fin NBUF)

namespace PoolSys

/-- After `binit`. -/
def boot : PoolSys where
  pool := .start
  pc := fun _ => .out
  holder := fun _ => none
  panicked := none

/-- One pass of `bget` from `loop` on. -/
def loop (s : PoolSys) (p : Nat) (dev : Option Nat) (sector : Nat) : PoolSys :=
  match s.pool.lookup dev sector with
  | .hit b => { s with
      pool := s.pool.hit b
      pc := update s.pc p .out
      holder := update s.holder b (some p) }
  | .busy _ => s
  | .recycle b => { s with
      pool := s.pool.recycle dev sector b
      pc := update s.pc p .out
      holder := update s.holder b (some p) }
  | .full => { s with panicked := some "bget: no buffers" }

/-- One step; `none` when it cannot happen. Only the holder of a buffer uses and releases it. -/
def step : PoolStep → PoolSys → Option PoolSys
  | .bget p dev sector, s =>
    if s.panicked = none ∧ s.pc p = .out then
      some (PoolSys.loop { s with
        pool := s.pool.access
        pc := update s.pc p (.inside dev sector) } p dev sector)
    else none
  | .retry p, s =>
    match s.pc p with
    | .inside dev sector => if s.panicked = none then some (s.loop p dev sector) else none
    | .out => none
  | .use p b valid dirty data, s =>
    if s.panicked = none ∧ s.holder b = some p then
      some { s with pool := s.pool.use b valid dirty data }
    else none
  | .brelse p b, s =>
    if s.panicked = none ∧ s.pc p = .out ∧ s.holder b = some p then
      if (s.pool.buf b).busy then
        some { s with pool := s.pool.brelse b, holder := update s.holder b none }
      else some { s with panicked := some "brelse" }
    else none

end PoolSys

/-! ## What a history says -/

/-- The step gives buffer `b` back. -/
def PoolStep.releases (b : Fin NBUF) : PoolStep → Bool
  | .brelse _ c => decide (c = b)
  | _ => false

/-- The step is a call of `bget`. -/
def PoolStep.isBget : PoolStep → Bool
  | .bget .. => true
  | _ => false

/-- The number of the last step that gave `b` back, counted from one, and zero if there is none;
`ls` has the steps with the latest one in front. -/
def lastReleaseRev (b : Fin NBUF) : List PoolStep → Nat
  | [] => 0
  | l :: ls => if l.releases b then ls.length + 1 else lastReleaseRev b ls

/-- The number of the last step that gave `b` back. -/
def lastRelease (ls : List PoolStep) (b : Fin NBUF) : Nat := lastReleaseRev b ls.reverse

/-- Buffer `b` was given back after `c` was. Those never given back are in the order in which `binit`
left them. -/
def Newer (ls : List PoolStep) (b c : Fin NBUF) : Prop :=
  lastRelease ls c < lastRelease ls b ∨ lastRelease ls c = 0 ∧ lastRelease ls b = 0 ∧ c < b

/-- The calls of `bget`. -/
def accesses (ls : List PoolStep) : Nat := ls.countP PoolStep.isBget

/-- The buffers in the order that the releases make. -/
def order : List PoolStep → List (Fin NBUF) :=
  List.foldl (fun l step => match step with
    | .brelse _ b => b :: l.erase b
    | _ => l) (List.finRange NBUF).reverse

theorem lastRelease_snoc (ls : List PoolStep) (l : PoolStep) (b : Fin NBUF) :
    lastRelease (ls ++ [l]) b = if l.releases b then ls.length + 1 else lastRelease ls b := by
  simp [lastRelease, lastReleaseRev]

theorem lastRelease_le (ls : List PoolStep) (b : Fin NBUF) : lastRelease ls b ≤ ls.length := by
  induction ls using List.reverseRecOn with
  | nil => exact le_rfl
  | append_singleton ls l ih =>
    rw [lastRelease_snoc, List.length_append, List.length_singleton]
    split
    · exact le_rfl
    · omega

theorem order_snoc_release (ls : List PoolStep) (p : Nat) (b : Fin NBUF) :
    order (ls ++ [.brelse p b]) = b :: (order ls).erase b := by
  simp [order, List.foldl_append]

theorem order_snoc {ls : List PoolStep} {l : PoolStep} (h : ∀ p b, l ≠ .brelse p b) :
    order (ls ++ [l]) = order ls := by
  simp only [order, List.foldl_append, List.foldl_cons, List.foldl_nil]

/-- The order lists every buffer once. -/
theorem order_perm (ls : List PoolStep) : (order ls).Perm (List.finRange NBUF) := by
  induction ls using List.reverseRecOn with
  | nil => exact List.reverse_perm _
  | append_singleton ls l ih =>
    by_cases hl : ∃ p b, l = .brelse p b
    · obtain ⟨p, b, rfl⟩ := hl
      rw [order_snoc_release]
      have hb : b ∈ order ls := ih.mem_iff.mpr (List.mem_finRange b)
      exact (List.perm_cons_erase hb).symm.trans ih
    · rw [order_snoc fun p b heq => hl ⟨p, b, heq⟩]
      exact ih

theorem order_nodup (ls : List PoolStep) : (order ls).Nodup :=
  (order_perm ls).nodup_iff.mpr (List.nodup_finRange _)

theorem mem_order (ls : List PoolStep) (b : Fin NBUF) : b ∈ order ls :=
  (order_perm ls).mem_iff.mpr (List.mem_finRange b)

theorem order_length (ls : List PoolStep) : (order ls).length = NBUF := by
  rw [(order_perm ls).length_eq, List.length_finRange]

/-- The order is by the last release. -/
theorem order_newer (ls : List PoolStep) : (order ls).Pairwise (Newer ls) := by
  induction ls using List.reverseRecOn with
  | nil =>
    change (List.finRange NBUF).reverse.Pairwise (Newer [])
    rw [List.pairwise_reverse]
    exact (List.pairwise_lt_finRange NBUF).imp fun hlt => .inr ⟨rfl, rfl, hlt⟩
  | append_singleton ls l ih =>
    have hkeep : ∀ {b c}, l.releases b = false → l.releases c = false → Newer ls b c →
        Newer (ls ++ [l]) b c := by
      intro b c hb hc h
      unfold Newer
      simp only [lastRelease_snoc, hb, hc, Bool.false_eq_true, if_false]
      exact h
    by_cases hl : ∃ p b, l = .brelse p b
    · obtain ⟨p, b, rfl⟩ := hl
      rw [order_snoc_release, List.pairwise_cons]
      have hne : ∀ {c}, c ∈ (order ls).erase b → b ≠ c := fun hc heq =>
        (List.Nodup.not_mem_erase (order_nodup ls)) (heq ▸ hc)
      refine ⟨fun c hc => .inl ?_, ?_⟩
      · have := lastRelease_le ls c
        simp only [lastRelease_snoc, PoolStep.releases, hne hc, decide_true, decide_false,
          if_true, Bool.false_eq_true, if_false]
        omega
      · refine (ih.sublist List.erase_sublist).imp_of_mem fun hb hc h => hkeep ?_ ?_ h
        · simpa [PoolStep.releases] using hne hb
        · simpa [PoolStep.releases] using hne hc
    · rw [order_snoc fun p b heq => hl ⟨p, b, heq⟩]
      have hnone : ∀ b, l.releases b = false := by
        intro b
        cases l with
        | brelse p c => exact absurd ⟨p, c, rfl⟩ hl
        | _ => rfl
      exact ih.imp fun h => hkeep (hnone _) (hnone _) h

/-! ## The invariant -/

namespace Pool

variable {c : Pool} {l : List (Fin NBUF)} {dev : Option Nat} {sector : Nat} {b : Fin NBUF}

/-- The buffers that are busy. -/
def busySet (c : Pool) : Finset (Fin NBUF) := Finset.univ.filter fun b => (c.buf b).busy = true

theorem start_holds : start.ring.Holds (order []) := by
  have hfold : ∀ (bs l : List (Fin NBUF)) (r : Links (Fin NBUF)), r.Holds l →
      (bs.reverse ++ l).Nodup → (bs.foldl Links.pushFront r).Holds (bs.reverse ++ l) := by
    intro bs
    induction bs with
    | nil => exact fun l r hr _ => hr
    | cons b bs ih =>
      intro l r hr hnodup
      rw [List.reverse_cons, List.append_assoc] at hnodup ⊢
      have hbl : (b :: l).Nodup := hnodup.of_append_right
      exact ih _ _ (hr.pushFront hbl.of_cons (List.nodup_cons.mp hbl).1) hnodup
  have := hfold (List.finRange NBUF) [] .empty Links.empty_holds
    (by rw [List.append_nil, List.nodup_reverse]; exact List.nodup_finRange _)
  rwa [List.append_nil] at this

/-- The loops of `bget` search the list that the links hold. -/
theorem lookup_eq (h : c.ring.Holds l) (hlen : l.length = NBUF) :
    c.lookup dev sector = match l.find? (c.isFor dev sector) with
      | some b => if (c.buf b).busy then .busy b else .hit b
      | none => match l.reverse.find? c.isClean with
        | some b => .recycle b
        | none => .full := by
  unfold lookup
  rw [h.find?_next hlen.le, h.find?_prev hlen.le]

theorem isFor_iff : c.isFor dev sector b = true ↔
    (c.buf b).dev = dev ∧ (c.buf b).sector = sector := by
  simp [isFor]

theorem isClean_iff : c.isClean b = true ↔ (c.buf b).busy = false ∧ (c.buf b).dirty = false := by
  simp [isClean]

theorem lookup_eq_hit (h : c.ring.Holds l) (hlen : l.length = NBUF)
    (hl : c.lookup dev sector = .hit b) : (c.buf b).busy = false := by
  rw [lookup_eq h hlen] at hl
  split at hl
  · split at hl
    · cases hl
    · rename_i hbusy
      cases hl
      simpa using hbusy
  · split at hl <;> cases hl

/-- A recycled buffer is the last one of the list that is neither busy nor dirty, and nothing else
has its new sector. -/
theorem lookup_eq_recycle (h : c.ring.Holds l) (hlen : l.length = NBUF)
    (hl : c.lookup dev sector = .recycle b) :
    (∀ x ∈ l, ¬ ((c.buf x).dev = dev ∧ (c.buf x).sector = sector)) ∧
      ∃ p q, l = p ++ b :: q ∧ c.isClean b = true ∧ ∀ x ∈ q, c.isClean x = false := by
  rw [lookup_eq h hlen] at hl
  split at hl
  · split at hl <;> cases hl
  · rename_i hnone
    split at hl
    · rename_i x hfound
      cases hl
      refine ⟨fun x hx => ?_, ?_⟩
      · rw [← isFor_iff]
        exact List.find?_eq_none.mp hnone x hx
      · obtain ⟨hb, p, q, hsplit, hq⟩ := List.find?_eq_some_iff_append.mp hfound
        refine ⟨q.reverse, p.reverse, ?_, hb, fun x hx => ?_⟩
        · rw [← List.reverse_reverse l, hsplit]
          simp
        · simpa using hq x (List.mem_reverse.mp hx)
    · cases hl

theorem busySet_insert {buf : Fin NBUF → Buf} {v : Buf} (hbuf : buf = update c.buf b v)
    (hv : v.busy = true) : Finset.univ.filter (fun x => (buf x).busy = true) =
      insert b c.busySet := by
  subst hbuf
  ext x
  by_cases hx : x = b
  · subst hx; simp [hv]
  · simp [busySet, hx]

theorem busySet_erase {buf : Fin NBUF → Buf} {v : Buf} (hbuf : buf = update c.buf b v)
    (hv : v.busy = false) : Finset.univ.filter (fun x => (buf x).busy = true) =
      c.busySet.erase b := by
  subst hbuf
  ext x
  by_cases hx : x = b
  · subst hx; simp [hv]
  · simp [busySet, hx]

end Pool

/-- The state of the cache after the steps `ls`; `a` are the processes inside `bget`. -/
structure Kempt (ls : List PoolStep) (s : PoolSys) (a : Finset Nat) : Prop where
  ring : s.pool.ring.Holds (order ls)
  unique : ∀ b c, (s.pool.buf b).dev ≠ none → (s.pool.buf b).dev = (s.pool.buf c).dev →
    (s.pool.buf b).sector = (s.pool.buf c).sector → b = c
  held : ∀ b p, s.holder b = some p → (s.pool.buf b).busy = true
  free : s.pool.freeBlockNumber + BitVec.ofNat 32 s.pool.busySet.card = BitVec.ofNat 32 NBUF
  inside : ∀ p, p ∈ a ↔ s.pc p ≠ .out
  acsses : s.pool.numberOfBlockAcsses = BitVec.ofNat 32 (accesses ls)
  hits : ∃ n, s.pool.numberOfHits = BitVec.ofNat 32 n ∧ n + a.card ≤ accesses ls

namespace Kempt

variable {ls : List PoolStep} {s : PoolSys} {a : Finset Nat} {p : Nat} {b : Fin NBUF}
  {dev : Option Nat} {sector : Nat}

theorem boot : Kempt [] PoolSys.boot ∅ where
  ring := Pool.start_holds
  unique := by simp [PoolSys.boot, Pool.start, binit]
  free := by
    have hnone : PoolSys.boot.pool.busySet = ∅ := by
      simp [Pool.busySet, PoolSys.boot, Pool.start, binit]
    rw [hnone]
    rfl
  held := by simp [PoolSys.boot]
  inside := by simp [PoolSys.boot]
  acsses := rfl
  hits := ⟨0, rfl, by simp⟩

/-- A step that does not move buffers. -/
theorem snoc {l : PoolStep} (h : Kempt ls s a) (hl : ∀ p b, l ≠ .brelse p b)
    (hcall : l.isBget = false) : Kempt (ls ++ [l]) s a := by
  have hacc : accesses (ls ++ [l]) = accesses ls := by simp [accesses, hcall]
  refine ⟨by rw [order_snoc hl]; exact h.ring, h.unique, h.held, h.free, h.inside, ?_, ?_⟩
  · rw [hacc]; exact h.acsses
  · rw [hacc]; exact h.hits

theorem panic (h : Kempt ls s a) (msg : String) : Kempt ls { s with panicked := some msg } a :=
  ⟨h.ring, h.unique, h.held, h.free, h.inside, h.acsses, h.hits⟩

/-- `bget` is called: the process is on its way into the list, like one that has slept. -/
theorem access (h : Kempt ls s a) (hpc : s.pc p = .out) :
    Kempt (ls ++ [.bget p dev sector])
      { s with
        pool := s.pool.access
        pc := update s.pc p (.inside dev sector) } (insert p a) := by
  have hp : p ∉ a := fun hmem => (h.inside p).mp hmem hpc
  have hacc : accesses (ls ++ [.bget p dev sector]) = accesses ls + 1 := by
    simp [accesses, PoolStep.isBget]
  obtain ⟨n, hn, hle⟩ := h.hits
  refine ⟨by rw [order_snoc (by simp)]; exact h.ring, h.unique, h.held, h.free, fun q => ?_, ?_, n,
    hn, ?_⟩
  · by_cases hq : q = p
    · subst hq; simp
    · simp [hq, h.inside q]
  · rw [hacc, BitVec.ofNat_add]
    exact congrArg (· + 1) h.acsses
  · rw [hacc, card_insert_of_notMem hp]
    omega

theorem hand {c : Pool} {v : Buf} {n : Nat} (h : Kempt ls s a) (hp : p ∈ a)
    (hring : c.ring = s.pool.ring) (hbuf : c.buf = update s.pool.buf b v)
    (hwas : (s.pool.buf b).busy = false) (hbusy : v.busy = true)
    (hunique : ∀ x, x ≠ b → v.dev ≠ none →
      ¬ ((s.pool.buf x).dev = v.dev ∧ (s.pool.buf x).sector = v.sector))
    (hfree : c.freeBlockNumber = s.pool.freeBlockNumber - 1)
    (hacc : c.numberOfBlockAcsses = s.pool.numberOfBlockAcsses) (hn : n ≤ 1)
    (hhits : c.numberOfHits = s.pool.numberOfHits + BitVec.ofNat 32 n) :
    Kempt ls { s with
      pool := c
      pc := update s.pc p .out
      holder := update s.holder b (some p) } (a.erase p) := by
  have hb : c.buf b = v := by rw [hbuf, update_self]
  have hne : ∀ {x}, x ≠ b → c.buf x = s.pool.buf x := fun hx => by
    rw [hbuf, update_of_ne hx]
  obtain ⟨m, hm, hle⟩ := h.hits
  refine ⟨by rw [hring]; exact h.ring, fun x y => ?_, fun x q hx => ?_, ?_, fun q => ?_,
    by rw [hacc]; exact h.acsses, m + n, ?_, ?_⟩
  · intro hdev hxy hsec
    by_cases hxb : x = b <;> by_cases hyb : y = b
    · rw [hxb, hyb]
    · subst hxb
      simp only [hb, hne hyb] at hdev hxy hsec
      exact absurd ⟨hxy.symm, hsec.symm⟩ (hunique y hyb hdev)
    · subst hyb
      simp only [hb, hne hxb] at hdev hxy hsec
      exact absurd ⟨hxy, hsec⟩ (hunique x hxb (hxy ▸ hdev))
    · simp only [hne hxb, hne hyb] at hdev hxy hsec
      exact h.unique x y hdev hxy hsec
  · by_cases hxb : x = b
    · subst hxb
      simp only [hb]
      exact hbusy
    · simp only [update_of_ne hxb] at hx
      simp only [hne hxb]
      exact h.held x q hx
  · have hset : c.busySet = insert b s.pool.busySet := Pool.busySet_insert hbuf hbusy
    have hnot : b ∉ s.pool.busySet := by simp [Pool.busySet, hwas]
    change c.freeBlockNumber + BitVec.ofNat 32 c.busySet.card = _
    rw [hset, card_insert_of_notMem hnot, hfree, BitVec.ofNat_add, ← h.free]
    generalize BitVec.ofNat 32 s.pool.busySet.card = k
    generalize s.pool.freeBlockNumber = f
    bv_omega
  · by_cases hq : q = p
    · subst hq; simp
    · simp [hq, h.inside q]
  · rw [hhits, hm, BitVec.ofNat_add]
  · rw [card_erase_of_mem hp]
    have := card_pos.mpr ⟨p, hp⟩
    omega

theorem loop (h : Kempt ls s a) (hp : p ∈ a) : ∃ a', Kempt ls (s.loop p dev sector) a' := by
  unfold PoolSys.loop
  split
  · rename_i b hl
    refine ⟨_, h.hand (n := 1) hp rfl rfl (Pool.lookup_eq_hit h.ring (order_length ls) hl) rfl
      (fun x hx hdev hsame => hx ?_) rfl rfl le_rfl rfl⟩
    exact h.unique x b (hsame.1 ▸ hdev) hsame.1 hsame.2
  · exact ⟨a, h⟩
  · rename_i b hl
    obtain ⟨hnone, -, -, -, hclean, -⟩ := Pool.lookup_eq_recycle h.ring (order_length ls) hl
    exact ⟨_, h.hand (n := 0) hp rfl rfl (Pool.isClean_iff.mp hclean).1 rfl
      (fun x _ _ => hnone x (mem_order ls x)) rfl rfl (Nat.zero_le 1) (BitVec.add_zero _).symm⟩
  · exact ⟨a, h.panic _⟩

theorem use {valid dirty : Bool} {data : Block} (h : Kempt ls s a) :
    Kempt ls { s with pool := s.pool.use b valid dirty data } a := by
  have hsame : ∀ x, ((s.pool.use b valid dirty data).buf x).dev = (s.pool.buf x).dev ∧
      ((s.pool.use b valid dirty data).buf x).sector = (s.pool.buf x).sector ∧
      ((s.pool.use b valid dirty data).buf x).busy = (s.pool.buf x).busy := by
    intro x
    by_cases hx : x = b
    · subst hx; simp [Pool.use]
    · simp [Pool.use, hx]
  refine ⟨h.ring, fun x y hdev hxy hsec => ?_, fun x q hx => ?_, ?_, h.inside, h.acsses, h.hits⟩
  · simp only [(hsame x).1, (hsame y).1, (hsame x).2.1, (hsame y).2.1] at hdev hxy hsec
    exact h.unique x y hdev hxy hsec
  · simp only [(hsame x).2.2]
    exact h.held x q hx
  · have hset : (s.pool.use b valid dirty data).busySet = s.pool.busySet := by
      simp only [Pool.busySet, (hsame _).2.2]
    rw [hset]
    exact h.free

theorem brelse (h : Kempt ls s a) (hp : s.holder b = some p) :
    Kempt (ls ++ [.brelse p b])
      { s with pool := s.pool.brelse b, holder := update s.holder b none } a := by
  have hacc : accesses (ls ++ [.brelse p b]) = accesses ls := by simp [accesses, PoolStep.isBget]
  have hbusy := h.held b p hp
  refine ⟨?_, fun x y hdev hxy hsec => ?_, fun x q hx => ?_, ?_, h.inside,
    by rw [hacc]; exact h.acsses, by rw [hacc]; exact h.hits⟩
  · rw [order_snoc_release]
    exact h.ring.moveFront (order_nodup ls) (mem_order ls b)
  · have hsame : ∀ x, (update s.pool.buf b { s.pool.buf b with busy := false } x).dev =
          (s.pool.buf x).dev ∧
        (update s.pool.buf b { s.pool.buf b with busy := false } x).sector =
          (s.pool.buf x).sector := by
      intro x
      by_cases hx : x = b
      · subst hx; simp
      · simp [hx]
    simp only [Pool.brelse, (hsame x).1, (hsame y).1, (hsame x).2, (hsame y).2] at hdev hxy hsec
    exact h.unique x y hdev hxy hsec
  · have hxb : x ≠ b := fun heq => by simp [heq] at hx
    simp only [update_of_ne hxb] at hx
    simp only [Pool.brelse, update_of_ne hxb]
    exact h.held x q hx
  · have hset : (s.pool.brelse b).busySet = s.pool.busySet.erase b :=
      Pool.busySet_erase (v := { s.pool.buf b with busy := false }) rfl rfl
    have hmem : b ∈ s.pool.busySet := by simp [Pool.busySet, hbusy]
    change s.pool.freeBlockNumber + 1 + BitVec.ofNat 32 (s.pool.brelse b).busySet.card = _
    have hcard := card_erase_add_one hmem
    rw [hset, ← h.free, ← hcard, BitVec.ofNat_add]
    generalize BitVec.ofNat 32 (s.pool.busySet.erase b).card = k
    generalize s.pool.freeBlockNumber = f
    bv_omega

theorem step {l : PoolStep} {t : PoolSys} (h : ∃ a, Kempt ls s a)
    (hstep : PoolSys.step l s = some t) : ∃ a, Kempt (ls ++ [l]) t a := by
  obtain ⟨a, h⟩ := h
  cases l with
  | bget p dev sector =>
    obtain ⟨hg, ⟨⟩⟩ := Option.ite_none_right_eq_some.mp hstep
    exact (h.access hg.2).loop (mem_insert_self p a)
  | retry p =>
    simp only [PoolSys.step] at hstep
    split at hstep
    · rename_i dev sector hpc
      obtain ⟨-, ⟨⟩⟩ := Option.ite_none_right_eq_some.mp hstep
      exact (h.snoc (l := .retry p) (by simp) rfl).loop ((h.inside p).mpr (by simp [hpc]))
    · cases hstep
  | use p b valid dirty data =>
    obtain ⟨-, ⟨⟩⟩ := Option.ite_none_right_eq_some.mp hstep
    exact ⟨a, (h.snoc (l := .use p b valid dirty data) (by simp) rfl).use⟩
  | brelse p b =>
    obtain ⟨hg, hstep⟩ := Option.ite_none_right_eq_some.mp hstep
    rw [if_pos (h.held b p hg.2.2)] at hstep
    cases hstep
    exact ⟨a, h.brelse hg.2.2⟩

theorem run {t : PoolSys} (hrun : runFrom PoolSys.step ls PoolSys.boot = some t) :
    ∃ a, Kempt ls t a := by
  have hkeep : ∀ pre l (s t : PoolSys), (∃ a, Kempt pre s a) → PoolSys.step l s = some t →
      ∃ a, Kempt (pre ++ [l]) t a := fun _ _ _ _ h hstep => step h hstep
  exact runFrom_history hkeep ⟨∅, boot⟩ hrun

theorem freeBlockNumber_eq (h : Kempt ls s a) :
    s.pool.freeBlockNumber.toInt = (NBUF : Int) - s.pool.busySet.card := by
  have hle : s.pool.busySet.card ≤ NBUF := by
    have := card_le_univ s.pool.busySet
    rwa [Fintype.card_fin] at this
  have hfree : s.pool.freeBlockNumber = BitVec.ofNat 32 (NBUF - s.pool.busySet.card) := by
    have := h.free
    simp only [NBUF, MAXOPBLOCKS] at *
    generalize s.pool.busySet.card = k at *
    generalize s.pool.freeBlockNumber = f at *
    bv_omega
  rw [hfree, BitVec.toInt_ofNat', Int.bmod_eq_of_le] <;>
    simp only [NBUF, MAXOPBLOCKS] at * <;> omega

theorem hits_le (h : Kempt ls s a) (hfew : accesses ls < 2 ^ 31) :
    s.pool.numberOfHits.toInt ≤ s.pool.numberOfBlockAcsses.toInt := by
  obtain ⟨n, hn, hle⟩ := h.hits
  rw [hn, h.acsses, BitVec.toInt_ofNat', BitVec.toInt_ofNat', Int.bmod_eq_of_le,
    Int.bmod_eq_of_le] <;> omega

end Kempt

/-! ## The invariant read off -/

/-- In every state of every interleaving: the links hold every buffer once, the most recently
released first; no two buffers stand for one sector; a buffer that `bget` recycles is neither busy
nor dirty and was released before all others that are neither; and the counters say how many
buffers are not busy, and no more hits than accesses. -/
theorem bcache_kempt (ls : List PoolStep) (s : PoolSys)
    (hrun : runFrom PoolSys.step ls PoolSys.boot = some s) :
    (∃ l, s.pool.ring.Holds l ∧ l.Nodup ∧ (∀ b, b ∈ l) ∧ l.Pairwise (Newer ls)) ∧
    (∀ b c, (s.pool.buf b).dev ≠ none → (s.pool.buf b).dev = (s.pool.buf c).dev →
      (s.pool.buf b).sector = (s.pool.buf c).sector → b = c) ∧
    (∀ dev sector b, s.pool.lookup dev sector = .recycle b →
      (s.pool.buf b).busy = false ∧ (s.pool.buf b).dirty = false ∧
      ∀ c, c ≠ b → (s.pool.buf c).busy = false → (s.pool.buf c).dirty = false → Newer ls c b) ∧
    s.pool.freeBlockNumber.toInt =
      (NBUF : Int) - (Finset.univ.filter fun b => (s.pool.buf b).busy = true).card ∧
    (accesses ls < 2 ^ 31 →
      s.pool.numberOfHits.toInt ≤ s.pool.numberOfBlockAcsses.toInt) := by
  obtain ⟨a, h⟩ := Kempt.run hrun
  refine ⟨⟨order ls, h.ring, order_nodup ls, mem_order ls, order_newer ls⟩, h.unique,
    fun dev sector b hl => ?_, h.freeBlockNumber_eq, h.hits_le⟩
  obtain ⟨-, p, q, hsplit, hclean, hlast⟩ := Pool.lookup_eq_recycle h.ring (order_length ls) hl
  obtain ⟨hbusy, hdirty⟩ := Pool.isClean_iff.mp hclean
  refine ⟨hbusy, hdirty, fun c hc hcb hcd => ?_⟩
  -- nothing clean stands behind `b`, so `c` stands in front of it
  have hnq : c ∉ q := fun hmem => by
    have := hlast c hmem
    rw [Pool.isClean_iff.mpr ⟨hcb, hcd⟩] at this
    cases this
  have hmem := mem_order ls c
  have hnewer := order_newer ls
  rw [hsplit] at hmem hnewer
  have hp : c ∈ p := (List.mem_append.mp hmem).resolve_right fun hr =>
    (List.mem_cons.mp hr).elim hc hnq
  exact (List.pairwise_append.mp hnewer).2.2 c hp b List.mem_cons_self

/-- Two processes ask for a sector; the second sleeps until the first gives it back. -/
def twoReaders : List PoolStep :=
  let b : Fin NBUF := ⟨0, NBUF_pos⟩
  [.bget 0 (some 1) 7, .bget 1 (some 1) 7, .retry 1, .brelse 0 b, .retry 1, .brelse 1 b]

theorem bcache_kempt_twoReaders :
    ∃ s, runFrom PoolSys.step twoReaders PoolSys.boot = some s ∧
      s.pool.numberOfHits = 1 ∧ s.pool.numberOfBlockAcsses = 2 ∧
      ((∃ l, s.pool.ring.Holds l ∧ l.Nodup ∧ (∀ b, b ∈ l) ∧ l.Pairwise (Newer twoReaders)) ∧
      (∀ b c, (s.pool.buf b).dev ≠ none → (s.pool.buf b).dev = (s.pool.buf c).dev →
        (s.pool.buf b).sector = (s.pool.buf c).sector → b = c) ∧
      (∀ dev sector b, s.pool.lookup dev sector = .recycle b →
        (s.pool.buf b).busy = false ∧ (s.pool.buf b).dirty = false ∧
        ∀ c, c ≠ b → (s.pool.buf c).busy = false → (s.pool.buf c).dirty = false →
          Newer twoReaders c b) ∧
      s.pool.freeBlockNumber.toInt =
        (NBUF : Int) - (Finset.univ.filter fun b => (s.pool.buf b).busy = true).card ∧
      (accesses twoReaders < 2 ^ 31 →
        s.pool.numberOfHits.toInt ≤ s.pool.numberOfBlockAcsses.toInt)) := by
  have hrun : (runFrom PoolSys.step twoReaders PoolSys.boot).any (fun s =>
      s.pool.numberOfHits == 1 && s.pool.numberOfBlockAcsses == 2) = true := by decide +kernel
  cases hs : runFrom PoolSys.step twoReaders PoolSys.boot with
  | none => simp [hs] at hrun
  | some s =>
    have hcount : s.pool.numberOfHits = 1 ∧ s.pool.numberOfBlockAcsses = 2 := by
      simpa [hs] using hrun
    exact ⟨s, rfl, hcount.1, hcount.2, bcache_kempt twoReaders s hs⟩

/-! ## The list of `Bcache` -/

namespace Pool

variable {c : Pool} {st st' : Store} {dev sector : Nat} {b : Fin NBUF}

/-- The cache is the one that the links hold. -/
structure Shows (c : Pool) (bc : Bcache) : Prop where
  buf : c.buf = bc.buf
  ring : c.ring.Holds bc.mru
  nodup : bc.mru.Nodup
  all : ∀ b, b ∈ bc.mru

theorem start_shows : start.Shows binit :=
  ⟨rfl, start_holds, List.nodup_reverse.mpr (List.nodup_finRange _), by simp [binit]⟩

theorem Shows.length {bc : Bcache} (h : c.Shows bc) : bc.mru.length = NBUF := by
  have hperm : bc.mru.Perm (List.finRange NBUF) :=
    (List.perm_ext_iff_of_nodup h.nodup (List.nodup_finRange _)).mpr (by simp [h.all])
  rw [hperm.length_eq, List.length_finRange]

theorem bget_shows (h : c.Shows st.bcache) :
    match bget dev sector st with
    | .ok b st' =>
      c.lookup (some dev) sector = .hit b ∧ (c.access.hit b).Shows st'.bcache ∨
      c.lookup (some dev) sector = .recycle b ∧
        (c.access.recycle (some dev) sector b).Shows st'.bcache
    | .halt .sleep => ∃ b, c.lookup (some dev) sector = .busy b
    | .halt _ => c.lookup (some dev) sector = .full := by
  have hfor : c.isFor (some dev) sector = isCached st.bcache dev sector := by
    funext b
    simp only [isFor, isCached, h.buf]
  have hclean : c.isClean = isRecyclable st.bcache := by
    funext b
    simp only [isClean, isRecyclable, h.buf]
  have hlook : c.lookup (some dev) sector = _ := lookup_eq h.ring h.length
  rw [hfor, hclean, h.buf] at hlook
  have hcached : ∀ n, isCached { st.bcache with numberOfBlockAcsses := n } dev sector =
      isCached st.bcache dev sector := fun _ => rfl
  have hrec : ∀ n, isRecyclable { st.bcache with numberOfBlockAcsses := n } =
      isRecyclable st.bcache := fun _ => rfl
  unfold bget
  simp only [hcached, hrec]
  cases hfind : st.bcache.mru.find? (isCached st.bcache dev sector) with
  | some b =>
    rw [hfind] at hlook
    by_cases hbusy : (st.bcache.buf b).busy = true
    · simp only [hbusy, if_true] at hlook ⊢
      exact ⟨b, hlook⟩
    · simp only [hbusy, Bool.false_eq_true, if_false] at hlook ⊢
      exact .inl ⟨hlook, by rw [hit, access]; simp [h.buf], h.ring, h.nodup, h.all⟩
  | none =>
    rw [hfind] at hlook
    cases hfree : st.bcache.mru.reverse.find? (isRecyclable st.bcache) with
    | some b =>
      rw [hfree] at hlook
      exact .inr ⟨hlook, by rw [recycle, access]; simp [h.buf], h.ring, h.nodup, h.all⟩
    | none =>
      rw [hfree] at hlook
      exact hlook

theorem brelse_shows (h : c.Shows st.bcache) (hok : Xv6.brelse b st = .ok () st') :
    (c.brelse b).Shows st'.bcache := by
  obtain ⟨_, _, hm, hrest⟩ := Prog.bind_eq_ok.mp hok
  obtain ⟨rfl, rfl⟩ := Prog.get_eq_ok.mp hm
  split at hrest
  · simp at hrest
  · obtain rfl := Prog.modify_eq_ok.mp hrest
    refine ⟨by rw [brelse]; simp [h.buf], h.ring.moveFront h.nodup (h.all b), ?_, fun x => ?_⟩
    · exact List.nodup_cons.mpr ⟨h.nodup.not_mem_erase, h.nodup.erase b⟩
    · by_cases hx : x = b
      · exact List.mem_cons.mpr (.inl hx)
      · exact List.mem_cons_of_mem _ ((List.mem_erase_of_ne hx).mpr (h.all x))

/-- What the rest of the kernel does with the cache. -/
inductive Call where
  | bget (dev sector : Nat)
  /-- The driver, the log or the holder of a buffer changes it. -/
  | use (b : Fin NBUF) (valid dirty : Bool) (data : Block)
  | brelse (b : Fin NBUF)

/-- A call on the links; `none` when it does not return. -/
def Call.links : Call → Pool → Option Pool
  | .bget dev sector, c =>
    match c.lookup (some dev) sector with
    | .hit b => some (c.access.hit b)
    | .recycle b => some (c.access.recycle (some dev) sector b)
    | _ => none
  | .use b valid dirty data, c => some (c.use b valid dirty data)
  | .brelse b, c => if (c.buf b).busy then some (c.brelse b) else none

/-- The same call on the list. -/
def Call.list (l : Call) (st : Store) : Option Store :=
  match l with
  | .bget dev sector =>
    match Xv6.bget dev sector st with
    | .ok _ st' => some st'
    | .halt _ => none
  | .use b valid dirty data =>
    some (st.setBuf b { st.buf b with valid := valid, dirty := dirty, data := data })
  | .brelse b =>
    match Xv6.brelse b st with
    | .ok _ st' => some st'
    | .halt _ => none

theorem Call.shows (h : c.Shows st.bcache) (l : Call) :
    Option.Rel (fun c st => c.Shows st.bcache) (l.links c) (l.list st) := by
  cases l with
  | bget dev sector =>
    have hb := @bget_shows c st dev sector h
    rw [links, list]
    cases hrun : Xv6.bget dev sector st with
    | ok b st' =>
      rw [hrun] at hb
      obtain ⟨hl, hs⟩ | ⟨hl, hs⟩ := hb
      all_goals
        rw [hl]
        exact .some hs
    | halt why =>
      rw [hrun] at hb
      cases why with
      | sleep =>
        obtain ⟨b, hl⟩ := hb
        rw [hl]
        exact .none
      | _ =>
        simp only at hb
        rw [hb]
        exact .none
  | use b valid dirty data =>
    exact .some ⟨by rw [Pool.use, h.buf]; rfl, h.ring, h.nodup, h.all⟩
  | brelse b =>
    have hrun : Xv6.brelse b st = (if ¬ (st.buf b).busy then Prog.panic "brelse" else _) st := rfl
    rw [links, list, show (c.buf b).busy = (st.buf b).busy by rw [h.buf]; rfl]
    cases hbusy : (st.buf b).busy with
    | false =>
      rw [hrun, hbusy]
      exact .none
    | true =>
      rw [hbusy] at hrun
      rw [hrun]
      exact .some (brelse_shows h hrun)

/-- Any sequence of calls from `binit` on goes on the links as it goes on the list: the list of
`Bcache` refines the pointers of `struct buf`. -/
theorem links_refine_list (ls : List Call) (disk : Nat → Block) (n : Nat) :
    Option.Rel (fun c st => c.Shows st.bcache) (runFrom Call.links ls start)
      (runFrom Call.list ls { disk := disk, disksize := n, bcache := binit }) :=
  runFrom_rel (fun l _ _ h => Call.shows h l) ls start_shows

end Pool

end Xv6
