import Xv6.Fs.Sees
import Xv6.Sys.Process

/-!
# What the file system leaves alone

Most of `fs.c` works on blocks and on the copies of inodes: it leaves the open files and the
processes alone, and in the inode cache everything but the copies. Such a computation is `Still`,
and the still ones are closed under sequencing.
-/

namespace Xv6

open Lib Act List Prog

/-- Not a page of a pipe given out or taken back. -/
def Unpaged : FsEvent → Prop
  | .kalloc _ | .kfree _ => False
  | _ => True

/-- An entry of the inode cache without the copy of the inode. -/
def Inode.tag (ip : Inode) : Inode := { ip with d := .zero }

namespace Kernel

/-- Files, processes and the cache's references, locks and flags are the same. -/
structure Calm (k k' : Kernel) : Prop where
  ftable : k'.ftable = k.ftable
  pipes : k'.pipes = k.pipes
  ptable : k'.ptable = k.ptable
  cur : k'.cur = k.cur
  env : k'.env = k.env
  tick : k.tick ≤ k'.tick
  tag : ∀ e, (k'.icache e).tag = (k.icache e).tag

theorem Calm.refl (k : Kernel) : Calm k k := ⟨rfl, rfl, rfl, rfl, rfl, le_refl _, fun _ => rfl⟩

variable {k k' : Kernel} {why : Halt} {start tail : Nat} {lh : List Nat}

theorem Calm.trans {l m : Kernel} (h : Calm k l) (h' : Calm l m) : Calm k m :=
  ⟨h'.ftable.trans h.ftable, h'.pipes.trans h.pipes, h'.ptable.trans h.ptable, h'.cur.trans h.cur,
    h'.env.trans h.env, h.tick.trans h'.tick, fun e => (h'.tag e).trans (h.tag e)⟩

theorem Calm.valid (h : Calm k k') (e : Fin NINODE) : (k'.icache e).valid = (k.icache e).valid :=
  show (k'.icache e).tag.valid = (k.icache e).tag.valid by rw [h.tag e]

/-- Neither a panic of the functions above the blocks and inodes of `fs.c`, nor that of `ilock` on a
free inode, nor an index outside of `devsw`. -/
def Quietly (why : Halt) : Prop :=
  why ≠ .outside ∧ ∀ msg ∈ ["filedup", "fileclose", "filewrite", "short filewrite", "dirlink",
    "create: dirlink", "create dots", "ilock: no type"], why ≠ .panic msg

instance (why : Halt) : Decidable (Quietly why) := by unfold Quietly; infer_instance

/-- An event that has nothing to do with pages; inodes are written back for entries in `D` only. -/
def Told (D : Set (Fin NINODE)) (k : Kernel) (v : FsEvent) : Prop :=
  Unpaged v ∧ ∀ j, v = .iupdate j → ∃ e ∈ D, (k.icache e).inum = j

/-- A calm computation with its events: the log lists no sector that was not given to
`log_write`. -/
structure Traced (D : Set (Fin NINODE)) (k k' : Kernel) (es : List FsEvent) : Prop where
  calm : Calm k k'
  told : ∀ v ∈ es, Told D k v
  listed : ∀ s ∈ k'.log.lh, s ∈ k.log.lh ∨ .logWrite s ∈ es

theorem Calm.inum (h : Calm k k') (e : Fin NINODE) : (k'.icache e).inum = (k.icache e).inum :=
  show (k'.icache e).tag.inum = (k.icache e).tag.inum by rw [h.tag e]

theorem Told.back {D : Set (Fin NINODE)} {v : FsEvent} (h : Told D k' v) (hc : Calm k k') :
    Told D k v :=
  ⟨h.1, fun j hj => (h.2 j hj).imp fun e he => ⟨he.1, by rw [← hc.inum e]; exact he.2⟩⟩

/-- From any state, `x` is calm. -/
def Still {α : Type} (D : Set (Fin NINODE)) (x : K α) : Prop :=
  ∀ k, Does x k (fun _ k' es => Traced D k k' es) fun why es => Quietly why ∧ ∀ v ∈ es, Told D k v

/-- From any state in which entry `e` is valid, `x` is calm. -/
def StillOn {α : Type} (D : Set (Fin NINODE)) (e : Fin NINODE) (x : K α) : Prop :=
  ∀ k, (k.icache e).valid = true → Does x k (fun _ k' es => Traced D k k' es)
    fun why es => Quietly why ∧ ∀ v ∈ es, Told D k v

section

variable {α β : Type} {x : K α} {f : α → K β} {e : Fin NINODE} {D : Set (Fin NINODE)}
  {k k' l : Kernel} {es fs : List FsEvent}

theorem Traced.refl (k : Kernel) : Traced D k k [] := ⟨.refl k, by simp, fun _ hs => .inl hs⟩

theorem Traced.told_append (h : Traced D k l es) (hfs : ∀ v ∈ fs, Told D l v) :
    ∀ v ∈ es ++ fs, Told D k v := fun v hv =>
  (mem_append.mp hv).elim (h.told v) fun hv => (hfs v hv).back h.calm

theorem Traced.trans (h : Traced D k l es) (h' : Traced D l k' fs) : Traced D k k' (es ++ fs) := by
  refine ⟨h.calm.trans h'.calm, h.told_append h'.told, fun s hs => ?_⟩
  rcases h'.listed s hs with hs | hs
  · exact (h.listed s hs).imp_right (mem_append_left _)
  · exact .inr (mem_append_right _ hs)

theorem Still.after (hx : Still D x) (h : Traced D k l es) :
    Does x l (fun _ k' fs => Traced D k k' (es ++ fs))
      fun why fs => Quietly why ∧ ∀ v ∈ es ++ fs, Told D k v :=
  Does.mono (hx l) (fun _ _ _ h' => h.trans h') fun _ _ hw => ⟨hw.1, h.told_append hw.2⟩

theorem Still.bind (hx : Still D x) (hf : ∀ a, Still D (f a)) : Still D (x >>= f) := fun k =>
  Does.bind (hx k) fun a _ _ h => (hf a).after h

theorem StillOn.bind (hx : StillOn D e x) (hf : ∀ a, StillOn D e (f a)) :
    StillOn D e (x >>= f) := fun k hv =>
  Does.bind (hx k hv) fun a t _ h => Does.mono (hf a t ((h.calm.valid e).trans hv))
    (fun _ _ _ h' => h.trans h') fun _ _ hw => ⟨hw.1, h.told_append hw.2⟩

theorem Still.on (hx : Still D x) (e : Fin NINODE) : StillOn D e x := fun k _ => hx k

theorem still_pure {a : α} : Still D (pure a : K α) := fun k => Traced.refl k

theorem still_panic {msg : String} (h : Quietly (.panic msg)) : Still D (panic msg : K α) :=
  fun _ => ⟨h, by simp⟩

theorem still_sleep : Still D (sleep : K α) := fun _ => ⟨by decide, by simp⟩

theorem still_get : Still D (get : K Kernel) := fun k => Traced.refl k

theorem still_get_bind {f : Kernel → K β} (h : ∀ k, Does (f k) k (fun _ k' es => Traced D k k' es)
    fun why es => Quietly why ∧ ∀ v ∈ es, Told D k v) : Still D (get >>= f) := fun k =>
  Does.bind (R := fun a t es => k = a ∧ k = t ∧ es = []) ⟨rfl, rfl, rfl⟩
    (by rintro _ _ _ ⟨rfl, rfl, rfl⟩; exact h k)

theorem told_of {v : FsEvent} (h : Unpaged v) (hv : ∀ j, v ≠ .iupdate j) : Told D k v :=
  ⟨h, fun j hj => absurd hj (hv j)⟩

theorem still_emit {v : FsEvent} (h : Unpaged v) (hv : ∀ j, v ≠ .iupdate j) :
    Still D (emit v : K Unit) := fun k =>
  ⟨.refl k, by simpa using told_of h hv, fun _ hs => .inl hs⟩

theorem still_modify {g : Kernel → Kernel} (h : ∀ k, Calm k (g k))
    (hlh : ∀ k, (g k).log.lh ⊆ k.log.lh) : Still D (modify g) := fun k =>
  ⟨h k, by simp, fun _ hs => .inl (hlh k hs)⟩

theorem Still.ite {c : Prop} [Decidable c] {y : K α} (hx : Still D x) (hy : Still D y) :
    Still D (if c then x else y) := by
  split
  · exact hx
  · exact hy

theorem StillOn.ite {c : Prop} [Decidable c] {y : K α} (hx : StillOn D e x) (hy : StillOn D e y) :
    StillOn D e (if c then x else y) := by
  split
  · exact hx
  · exact hy

theorem still_forEach {f : β → K Unit} (h : ∀ b, Still D (f b)) (bs : List β) :
    Still D (forEach f bs) := by
  induction bs with
  | nil => exact still_pure
  | cons b bs ih => exact (h b).bind fun _ => ih

end

/-! ## Buffers and the log -/

variable {D : Set (Fin NINODE)}

theorem BioHalt.quietly (h : BioHalt why) : Quietly why := by
  rcases h with rfl | ⟨msg, hmsg, rfl⟩
  · decide
  · simp only [mem_cons, not_mem_nil, or_false] at hmsg
    rcases hmsg with rfl | rfl | rfl | rfl | rfl | rfl | rfl <;> decide

theorem bwrite_stops {b : Fin NBUF} : Prog.Stops BioHalt (bwrite b) :=
  stops_get.bind fun _ => Prog.Stops.ite (stops_panic (.inr ⟨_, by simp, rfl⟩))
    (stops_modify.bind fun _ => iderw_stops)

theorem writeLogBody_stops : Prog.Stops BioHalt (writeLogBody start lh tail) :=
  bread_stops.bind fun _ => bread_stops.bind fun _ => stops_get.bind fun _ =>
    Prog.Stops.bind stops_modify fun _ => bwrite_stops.bind fun _ =>
      brelse_stops.bind fun _ => brelse_stops

theorem installBody_stops : Prog.Stops BioHalt (installBody start lh tail) :=
  bread_stops.bind fun _ => bread_stops.bind fun _ => stops_get.bind fun _ =>
    Prog.Stops.bind stops_modify fun _ => bwrite_stops.bind fun _ =>
      brelse_stops.bind fun _ => brelse_stops

theorem writeHead_stops : Prog.Stops BioHalt (writeHead start lh) :=
  bread_stops.bind fun _ => stops_get.bind fun _ =>
    Prog.Stops.bind stops_modify fun _ => bwrite_stops.bind fun _ => brelse_stops

theorem still_onStore {α : Type} {x : Prog Store α} (h : Prog.Stops BioHalt x) :
    Still D (onStore x) := fun _ =>
  does_lift (fun _ _ _ => ⟨⟨rfl, rfl, rfl, rfl, rfl, le_refl _, fun _ => rfl⟩, by simp,
    fun _ hs => .inl hs⟩) fun why hw => ⟨(h _ why hw).quietly, by simp⟩

theorem still_bread (dev sector : Nat) : Still D (bread dev sector) := still_onStore bread_stops

theorem still_brelse (b : Fin NBUF) : Still D (brelse b) := still_onStore brelse_stops

theorem still_setData (b : Fin NBUF) (d : Block) : Still D (setData b d) :=
  still_onStore stops_modify

theorem still_data (b : Fin NBUF) : Still D (data b) := still_get.bind fun _ => still_pure

theorem still_logWrite (b : Fin NBUF) : Still D (logWrite b) := by
  refine still_get_bind fun k => ?_
  split
  · rename_i msg hmsg
    refine still_panic ?_ k
    unfold Log.logWriteTests at hmsg
    split_ifs at hmsg <;> obtain rfl := Option.some.inj hmsg <;> decide
  · refine Does.bind (R := fun _ t es => k = t ∧ es = [.logWrite (k.store.buf b).sector])
      ⟨rfl, rfl⟩ ?_
    rintro _ _ _ ⟨rfl, rfl⟩
    refine ⟨⟨rfl, rfl, rfl, rfl, rfl, le_refl _, fun _ => rfl⟩, fun v hv => ?_, fun s hs => ?_⟩
    · rw [append_nil, mem_singleton] at hv
      subst hv
      exact told_of trivial (by simp)
    · refine (Log.mem_absorb.mp hs).symm.imp_right fun heq => ?_
      rw [heq]
      exact mem_append_left _ (mem_singleton_self _)

theorem still_writeBack (b : Fin NBUF) (d : Block) : Still D (writeBack b d) :=
  (still_setData b d).bind fun _ => (still_logWrite b).bind fun _ => still_brelse b

theorem still_setLog (l : Kernel → Log) (h : ∀ k, (l k).lh ⊆ k.log.lh) :
    Still D (modify fun k => { k with log := l k }) :=
  still_modify (fun _ => ⟨rfl, rfl, rfl, rfl, rfl, le_refl _, fun _ => rfl⟩) h

theorem traced_setLog {l : Log} (h : l.lh = k.log.lh) : Traced D k (setLog l k) [] :=
  ⟨⟨rfl, rfl, rfl, rfl, rfl, le_refl _, fun _ => rfl⟩, by simp, fun _ hs => .inl (h ▸ hs)⟩

theorem still_beginOp : Still D beginOp := by
  refine still_get_bind fun k => ?_
  split
  · exact still_sleep k
  · rename_i l hl
    obtain ⟨-, -, rfl⟩ := Log.beginOp_eq_some.mp hl
    exact traced_setLog rfl

theorem still_commit : Still D commit := by
  refine still_get.bind fun k => Still.ite ?_ still_pure
  exact (still_forEach (fun _ => still_onStore writeLogBody_stops) _).bind fun _ =>
    (still_onStore writeHead_stops).bind fun _ =>
    (still_forEach (fun _ => still_onStore installBody_stops) _).bind fun _ =>
    (still_setLog (fun k => { k.log with lh := [] }) fun _ => nil_subset _).bind fun _ =>
    still_onStore writeHead_stops

theorem still_endOp : Still D endOp := by
  refine still_get_bind fun k => ?_
  cases hc : k.log.committing with
  | true =>
    rw [show k.log.endOp = .error "log.committing" by simp [Log.endOp, hc]]
    exact still_panic (by decide) k
  | false =>
    rw [Log.endOp_of_not_committing hc]
    cases decide (k.log.outstanding = 1) with
    | false => exact traced_setLog rfl
    | true =>
      exact Does.bind (R := fun _ t es => Traced D k t es) (traced_setLog rfl) fun _ _ _ h =>
        (still_commit.bind fun _ => still_setLog (fun k => { k.log with committing := false })
          fun _ => List.Subset.refl _).after h

/-! ## Blocks and inodes -/

theorem still_inode (e : Fin NINODE) : Still D (inode e) := still_get.bind fun _ => still_pure

theorem still_setDinode (e : Fin NINODE) (f : Dinode → Dinode) : Still D (setDinode e f) := by
  refine still_modify (fun k => ⟨rfl, rfl, rfl, rfl, rfl, le_refl _, fun x => ?_⟩)
    fun _ => List.Subset.refl _
  by_cases hx : x = e
  · subst hx
    simp [Inode.tag]
  · simp [hx]

theorem still_readsb (dev : Nat) : Still D (readsb dev) :=
  (still_bread _ _).bind fun _ => (still_data _).bind fun _ => (still_brelse _).bind fun _ =>
    still_pure

theorem still_bzero (dev b : Nat) : Still D (bzero dev b) :=
  (still_bread _ _).bind fun _ => still_writeBack _ _

theorem still_ballocBlock (dev : Nat) (sb : Superblock) (b : Nat) :
    Still D (ballocBlock dev sb b) := by
  refine (still_bread _ _).bind fun _ => (still_data _).bind fun _ => ?_
  split
  · exact (still_writeBack _ _).bind fun _ => (still_bzero _ _).bind fun _ => still_pure
  · exact (still_brelse _).bind fun _ => still_pure

theorem still_ballocLoop (dev : Nat) (sb : Superblock) (bs : List Nat) :
    Still D (ballocLoop dev sb bs) := by
  induction bs with
  | nil => exact still_panic (by decide)
  | cons b bs ih =>
    refine (still_ballocBlock _ _ _).bind fun r => ?_
    cases r with
    | some b => exact still_pure
    | none => exact ih

theorem still_balloc (dev : Nat) : Still D (balloc dev) :=
  still_get.bind fun _ => (still_readsb _).bind fun _ => (still_ballocLoop _ _ _).bind fun _ =>
    (still_emit (by trivial) (by simp)).bind fun _ => still_pure

theorem still_iupdate (e : Fin NINODE) (he : e ∈ D := by simp) : Still D (iupdate e) := by
  refine still_get_bind fun k => ?_
  refine Does.bind (R := fun _ t es => Traced D k t es) ?_ fun _ _ _ h =>
    ((still_bread _ _).bind fun _ => (still_data _).bind fun _ => still_writeBack _ _).after h
  refine ⟨.refl k, fun v hv => ?_, fun _ hs => .inl hs⟩
  rw [mem_singleton] at hv
  subst hv
  exact ⟨trivial, fun j hj => ⟨e, he, FsEvent.iupdate.inj hj⟩⟩

theorem still_bmapAddr (e : Fin NINODE) (i : Fin (NDIRECT + 1)) : Still D (bmapAddr e i) :=
  (still_inode _).bind fun _ => Still.ite ((still_balloc _).bind fun _ =>
    (still_setDinode _ _).bind fun _ => still_pure) still_pure

theorem still_bmapEntry (dev addr bn : Nat) : Still D (bmapEntry dev addr bn) :=
  (still_bread _ _).bind fun _ => (still_data _).bind fun _ => Still.ite
    ((still_balloc _).bind fun _ => (still_data _).bind fun _ => (still_writeBack _ _).bind fun _ =>
      still_pure) ((still_brelse _).bind fun _ => still_pure)

theorem still_bmap (e : Fin NINODE) (bn : Nat) : Still D (bmap e bn) := by
  unfold bmap
  split
  · exact still_bmapAddr _ _
  · split
    · exact (still_bmapAddr _ _).bind fun _ => (still_inode _).bind fun _ => still_bmapEntry _ _ _
    · exact still_panic (by decide)

/-! ## Devices, reading and writing -/

section

variable {k k' : Kernel} {e : Fin NINODE}

/-- The kernel with entry `e` let go. -/
def unlocked (k : Kernel) (e : Fin NINODE) : Kernel :=
  { k with icache := Function.update k.icache e { k.icache e with busy := false } }

theorem iunlock_does {Q : Unit → Kernel → List FsEvent → Prop}
    {E : Halt → List FsEvent → Prop} (hpanic : E (.panic "iunlock") [])
    (h : (k.icache e).busy = true → Q () (k.unlocked e) []) : Does (iunlock e) k Q E := by
  refine Does.bind (R := fun a t es => k.icache e = a ∧ k = t ∧ es = []) ⟨rfl, rfl, rfl⟩ ?_
  rintro _ _ _ ⟨rfl, rfl, rfl⟩
  refine does_ite (fun _ => hpanic) fun hno => ?_
  rw [not_or] at hno
  exact h (by simpa using hno.1)

theorem Told.unlocked {D : Set (Fin NINODE)} {v : FsEvent} (h : Told D (k.unlocked e) v) :
    Told D k v := by
  refine ⟨h.1, fun j hj => ?_⟩
  obtain ⟨f, hf, hinum⟩ := h.2 j hj
  refine ⟨f, hf, ?_⟩
  rw [← hinum]
  by_cases hfe : f = e
  · subst hfe
    simp [Kernel.unlocked]
  · simp [Kernel.unlocked, hfe]

/-- A valid entry that was let go for a while is locked again. -/
theorem ilock_again {D : Set (Fin NINODE)} {es : List FsEvent} (hv : (k.icache e).valid = true)
    (hbusy : (k.icache e).busy = true) (hc : Traced D (k.unlocked e) k' es) :
    Does (ilock e) k' (fun _ l fs => Traced D k l (es ++ fs))
      fun why fs => Quietly why ∧ ∀ v ∈ es ++ fs, Told D k v := by
  have hv' : (k'.icache e).valid = true := by
    rw [hc.calm.valid e]
    simpa [unlocked] using hv
  have htold : ∀ v ∈ es, Told D k v := fun v hv => (hc.told v hv).unlocked
  refine Does.bind (R := fun a t fs => k'.icache e = a ∧ k' = t ∧ fs = []) ⟨rfl, rfl, rfl⟩ ?_
  rintro _ _ _ ⟨rfl, rfl, rfl⟩
  refine does_ite (fun _ => ⟨by decide, by simpa using htold⟩) fun _ =>
    does_ite (fun _ => ⟨by decide, by simpa using htold⟩) fun _ => ?_
  refine Does.bind (R := fun _ l fs => Traced D k l (es ++ fs)) ?_ fun _ l fs h => ?_
  · refine ⟨⟨hc.calm.ftable, hc.calm.pipes, hc.calm.ptable, hc.calm.cur, hc.calm.env,
      hc.calm.tick, fun y => ?_⟩, by simpa using htold, by simpa [unlocked] using hc.listed⟩
    by_cases hy : y = e
    · subst hy
      have htag := hc.calm.tag y
      simp only [unlocked, Function.update_self, Inode.tag, Inode.mk.injEq] at htag ⊢
      simp [htag, hbusy]
    · simpa [unlocked, hy] using hc.calm.tag y
  · rw [if_pos hv']
    simp only [nil_append, ← append_assoc]
    exact still_pure.after h

end

theorem stillOn_consolewrite (e : Fin NINODE) (n : Nat) : StillOn D e (consolewrite e n) := by
  intro k hv
  apply Does.bind (R := fun _ t es => (k.icache e).busy = true ∧ k.unlocked e = t ∧ es = [])
    (iunlock_does ⟨by decide, by simp⟩ fun hb => ⟨hb, rfl, rfl⟩)
  rintro _ _ _ ⟨hbusy, rfl, rfl⟩
  exact Does.bind (ilock_again hv hbusy (.refl _)) fun _ k3 _ h3 => still_pure.after h3

theorem stillOn_devWrite (e : Fin NINODE) (n : Nat) : StillOn D e (devWrite e n) :=
  ((still_inode e).on e).bind fun _ => StillOn.ite (stillOn_consolewrite e n)
    (StillOn.ite (still_pure.on e) (still_pure.on e))

theorem still_writeiLoop (e : Fin NINODE) :
    ∀ turns src off left, Still D (writeiLoop e turns src off left)
  | 0, _, _, _ => still_pure
  | turns + 1, _, _, _ => Still.ite still_pure ((still_bmap _ _).bind fun _ =>
      (still_inode _).bind fun _ => (still_bread _ _).bind fun _ => (still_data _).bind fun _ =>
      (still_writeBack _ _).bind fun _ => still_writeiLoop e turns _ _ _)

theorem still_writeiGrow (e : Fin NINODE) (off n : Nat) (he : e ∈ D := by simp) :
    Still D (writeiGrow e off n) :=
  (still_inode _).bind fun _ => Still.ite ((still_setDinode _ _).bind fun _ => still_iupdate _ he)
    still_pure

theorem stillOn_writei (e : Fin NINODE) (src : Nat → UInt8) (off n : Nat)
    (he : e ∈ D := by simp) : StillOn D e (writei e src off n) :=
  ((still_inode e).on e).bind fun _ => StillOn.ite (stillOn_devWrite e n)
    (StillOn.ite (still_pure.on e) (StillOn.ite (still_pure.on e)
      (((still_writeiLoop e _ _ _ _).bind fun _ => (still_writeiGrow e _ _ he).bind fun _ =>
        still_pure).on e)))

end Kernel

end Xv6
