import Xv6.Fs.Refs
import Xv6.Procfs.Listing

/-!
# What `inodestat` counts

The counters of `fs.c` look at the flags of the entries of the inode cache, and `iget` recycles an
entry by its reference count. They agree in runs where every entry that `iget` fills is locked before
the counters are read, and no `iput` leaves an entry without references and valid.
-/

namespace Xv6

open Function Option

open Lib

namespace Icache

variable {icache : Icache}

/-- The number of entries with a property. -/
def count (icache : Icache) (p : Inode → Prop) [DecidablePred p] : Nat :=
  (List.finRange NINODE).countP fun e => decide (p (icache e))

/-- What `inodestat` is to say. -/
structure Truthful (icache : Icache) : Prop where
  free : getNumberOfFreeInode icache = icache.count fun ip => ip.ref = 0
  active : getNumberOfActiveInode icache = icache.count fun ip => 0 < ip.ref
  valid : numberOfValidInode icache ≤ icache.count fun ip => 0 < ip.ref

theorem truthful_of_flags
    (h : ∀ e, (icache e).busy = false ∧ (icache e).valid = false ↔ (icache e).ref = 0)
    (hnonneg : ∀ e, 0 ≤ (icache e).ref) : Truthful icache := by
  have hfree : getNumberOfFreeInode icache = icache.count fun ip => ip.ref = 0 := by
    unfold getNumberOfFreeInode count
    congr 2
    funext e
    simp [← h e]
  have hactive : (NINODE : Int) =
      icache.count (fun ip => ip.ref = 0) + icache.count (fun ip => 0 < ip.ref) := by
    have hcount := List.length_eq_countP_add_countP (fun e => decide ((icache e).ref = 0))
      (l := List.finRange NINODE)
    have hpos : (fun e => decide ¬ decide ((icache e).ref = 0) = true) =
        fun e => decide (0 < (icache e).ref) := by
      funext e
      have := hnonneg e
      exact decide_eq_decide.mpr (by simp only [decide_eq_true_eq]; omega)
    rw [List.length_finRange, hpos] at hcount
    exact congrArg Nat.cast hcount
  refine ⟨hfree, ?_, ?_⟩
  · rw [getNumberOfActiveInode, hfree]
    omega
  · refine Int.ofNat_le.mpr (List.countP_mono_left fun e _ hvalid => decide_eq_true ?_)
    have hne : (icache e).ref ≠ 0 := fun href => by simp [((h e).mpr href).2] at hvalid
    have := hnonneg e
    omega

end Icache

/-! ## Runs in which the counters are right -/

namespace RefSys

/-- The entries that `iget` has filled and that nobody has locked since, after one more call. -/
def noteFill (l : RefStep) (s : RefSys) (waiting : List (Fin NINODE)) : List (Fin NINODE) :=
  match l with
  | .iget _ dev inum _ =>
    match igetCached s.icache dev inum with
    | some _ => waiting
    | none => (igetEmpty s.icache).toList ++ waiting
  | .ilock _ e => waiting.filter fun x => decide (x ≠ e)
  | _ => waiting

/-- The system with the entries that wait to be locked. -/
def fillStep (l : RefStep) (x : RefSys × List (Fin NINODE)) :
    Option (RefSys × List (Fin NINODE)) :=
  (step l x.1).map fun t => (t, noteFill l x.1 x.2)

/-- `procfsiread` meets its condition, an `iput` that drops the last reference does so to an inode
that has not been read or has no links, and nobody gets another reference while it is freed. -/
structure Tidy (l : RefStep) (s : RefSys) : Prop where
  reader : SoleReader l s
  last : ∀ p e, l = .iput p e → (s.icache e).ref = 1 →
    (s.icache e).valid = false ∨ (s.icache e).d.nlink = 0
  alone : ∀ p e, l = .free p → s.pc p = .freeing e → (s.icache e).ref = 1

/-- Flags and reference counts go together, but for the entries that wait. -/
structure Marked (s : RefSys) (waiting : List (Fin NINODE)) : Prop where
  accounted : s.Accounted
  unused : ∀ e, (s.icache e).ref = 0 → (s.icache e).valid = false
  locked : ∀ e p, s.lock e = some p → (s.icache e).valid = true ∨ s.pc p = .loading e
  waits : ∀ e, (s.icache e).ref ≠ 0 → (s.icache e).busy = false → (s.icache e).valid = false →
    e ∈ waiting

namespace Marked

variable {s t : RefSys} {waiting waiting' : List (Fin NINODE)} {p : Nat} {e : Fin NINODE}

theorem boot : Marked .boot [] :=
  ⟨.boot, fun _ _ => rfl, fun _ _ h => by simp [RefSys.boot] at h, fun _ h => absurd rfl h⟩

theorem still (h : Marked s waiting) (hacc : t.Accounted) (hic : t.icache = s.icache)
    (hlock : t.lock = s.lock) (hpc : ∀ q x, s.pc q = .loading x → t.pc q = .loading x)
    (hwait : ∀ x ∈ waiting, (s.icache x).ref ≠ 0 → x ∈ waiting') : Marked t waiting' := by
  refine ⟨hacc, hic ▸ h.unused, fun x q hq => ?_, fun x href hbusy hvalid => ?_⟩
  · rw [hlock] at hq
    rw [hic]
    exact (h.locked x q hq).imp id (hpc q x)
  · rw [hic] at href hbusy hvalid
    exact hwait x (h.waits x href hbusy hvalid) href

theorem change {ip : Inode} (h : Marked s waiting) (hacc : t.Accounted)
    (hic : t.icache = update s.icache e ip) (hunused : ip.ref = 0 → ip.valid = false)
    (hself : ∀ q, t.lock e = some q → ip.valid = true ∨ t.pc q = .loading e)
    (hlock : ∀ x ≠ e, t.lock x = s.lock x)
    (hpc : ∀ q x, x ≠ e → s.pc q = .loading x → t.pc q = .loading x)
    (hwaits : ip.ref ≠ 0 → ip.busy = false → ip.valid = false → e ∈ waiting')
    (hsub : ∀ x ∈ waiting, x ≠ e → x ∈ waiting') : Marked t waiting' := by
  refine ⟨hacc, fun x => ?_, fun x q hq => ?_, fun x => ?_⟩
  all_goals
    rw [hic]
    by_cases hx : x = e
  · rw [hx, update_self]
    exact hunused
  · rw [update_of_ne hx]
    exact h.unused x
  · rw [hx, update_self]
    exact hself q (hx ▸ hq)
  · rw [update_of_ne hx]
    rw [hlock x hx] at hq
    exact (h.locked x q hq).imp id (hpc q x hx)
  · rw [hx, update_self]
    exact hwaits
  · rw [update_of_ne hx]
    exact fun href hbusy hvalid => hsub x (h.waits x href hbusy hvalid) hx

theorem loading_update {pc : RefPc} {x : Fin NINODE} (hne : s.pc p ≠ .loading x) (q : Nat)
    (hq : s.pc q = .loading x) : update s.pc p pc q = .loading x := by
  have hqp : q ≠ p := by
    rintro rfl
    exact hne hq
  rw [update_of_ne hqp, hq]

theorem ref_pos {o : Owner} (h : Marked s waiting) (hmem : (o, e) ∈ s.refs) :
    0 < (s.icache e).ref := by
  rw [h.accounted.ref]
  exact Int.natCast_pos.mpr (List.countP_pos_iff.mpr ⟨_, hmem, by simp⟩)

theorem iget {dev inum : Nat} {isDev : Bool} (h : Marked s waiting)
    (hacc : t.Accounted) (hstep : RefSys.step (.iget p dev inum isDev) s = some t) :
    Marked t (noteFill (.iget p dev inum isDev) s waiting) := by
  obtain ⟨hg, hstep⟩ := ite_none_right_eq_some.mp hstep
  have hne : ∀ x, s.pc p ≠ .loading x := by simp [hg.2]
  unfold Xv6.iget at hstep
  cases hc : igetCached s.icache dev inum with
  | some e =>
    rw [hc] at hstep
    cases hstep
    have href := (igetCached_eq_some hc).1
    rw [show noteFill (.iget p dev inum isDev) s waiting = waiting by simp [noteFill, hc]]
    refine h.change hacc rfl (by simp only; omega) (fun q hq => ?_) (fun _ _ => rfl)
      (fun q x _ => loading_update (hne x) q) (fun _ => h.waits e (by omega)) fun x hx _ => hx
    exact (h.locked e q hq).imp id (loading_update (hne e) q)
  | none =>
    rw [hc] at hstep
    cases he : igetEmpty s.icache with
    | none =>
      rw [he] at hstep
      cases hstep
      exact h.still hacc rfl rfl (fun _ _ => id) fun x hx _ => by simpa [noteFill, hc, he] using hx
    | some e =>
      rw [he] at hstep
      cases hstep
      rw [show noteFill (.iget p dev inum isDev) s waiting = e :: waiting by
        simp [noteFill, hc, he]]
      have hfree := h.accounted.unlocked_of_ref (igetEmpty_eq_some he)
      refine h.change hacc rfl (fun _ => rfl) (fun q hq => ?_) (fun _ _ => rfl)
        (fun q x _ => loading_update (hne x) q) (fun _ _ _ => List.mem_cons_self) fun x hx _ =>
          List.mem_cons_of_mem _ hx
      rw [hfree] at hq
      cases hq

theorem step {l : RefStep} (h : Marked s waiting) (hcond : Tidy l s)
    (hstep : RefSys.step l s = some t) : Marked t (noteFill l s waiting) := by
  have hacc := h.accounted.step hcond.reader hstep
  have hkeep : ∀ x ∈ waiting, ∀ e : Fin NINODE, x ≠ e → x ∈ waiting := fun _ hx _ _ => hx
  cases l with
  | iget p dev inum isDev => exact h.iget hacc hstep
  | test p =>
    simp only [RefSys.step] at hstep
    split at hstep
    · rename_i e hpc
      obtain ⟨-, ⟨⟩⟩ := ite_none_right_eq_some.mp hstep
      exact h.still hacc rfl rfl (fun q x => loading_update (by simp [hpc]) q) fun x hx _ => hx
    · simp at hstep
  | procfsiread p =>
    simp only [RefSys.step] at hstep
    split at hstep
    · rename_i e hpc
      obtain ⟨-, ⟨⟩⟩ := ite_none_right_eq_some.mp hstep
      exact h.change hacc rfl (fun href => absurd href (by simp [Xv6.procfsiread]))
        (fun _ _ => .inl rfl) (fun _ _ => rfl) (fun q x _ => loading_update (by simp [hpc]) q)
        (fun _ _ hvalid => absurd hvalid (by simp [Xv6.procfsiread])) fun x hx => hkeep x hx e
    · simp at hstep
  | idup p e =>
    obtain ⟨hg, ⟨⟩⟩ := ite_none_right_eq_some.mp hstep
    obtain ⟨⟨o, x⟩, hmem, hx⟩ := hg.2.2
    obtain rfl : x = e := hx
    have href := h.ref_pos hmem
    exact h.change hacc rfl (by simp only; omega) (h.locked _) (fun _ _ => rfl) (fun _ _ _ => id)
      (fun _ => h.waits _ (by omega)) fun x hx => hkeep x hx _
  | ilock p e =>
    obtain ⟨hg, hstep⟩ := ite_none_right_eq_some.mp hstep
    have href := h.ref_pos hg.2.2
    rw [if_neg (by omega)] at hstep
    split at hstep
    · simp at hstep
    · cases hstep
      refine h.change hacc rfl (h.unused e) (fun q hq => ?_) (fun x hx => update_of_ne hx ..)
        (fun q x _ => loading_update (by simp [hg.2.1]) q) (fun _ hbusy => by simp at hbusy)
        fun x hx hne => by simp [noteFill, hx, hne]
      obtain rfl : p = q := by simpa using hq
      cases hvalid : (s.icache e).valid with
      | true => exact .inl rfl
      | false => exact .inr (by simp)
  | load p d =>
    simp only [RefSys.step] at hstep
    split at hstep
    · rename_i e hpc
      obtain ⟨-, hstep⟩ := ite_none_right_eq_some.mp hstep
      split at hstep
      · cases hstep
        exact h.still hacc rfl rfl (fun _ _ => id) fun x hx _ => hx
      · cases hstep
        have hlock := h.accounted.inside p e (.inl hpc)
        have href := h.ref_pos (h.accounted.holder e p hlock)
        exact h.change hacc rfl (by simp only; omega) (fun _ _ => .inl rfl) (fun _ _ => rfl)
          (fun q x hx => loading_update (by simpa [hpc] using Ne.symm hx) q) (by simp)
          fun x hx => hkeep x hx e
    · simp at hstep
  | iunlock p e =>
    obtain ⟨hg, hstep⟩ := ite_none_right_eq_some.mp hstep
    split at hstep
    · cases hstep
      exact h.still hacc rfl rfl (fun _ _ => id) fun x hx _ => hx
    · cases hstep
      have hvalid := (h.locked e p hg.2.2).resolve_right (by simp [hg.2.1])
      exact h.change hacc rfl (h.unused e) (fun q hq => by simp at hq)
        (fun x hx => update_of_ne hx ..) (fun _ _ _ => id) (by simp [hvalid]) fun x hx => hkeep x hx e
  | iput p e =>
    obtain ⟨hg, hstep⟩ := ite_none_right_eq_some.mp hstep
    split at hstep
    · rename_i hlast
      split at hstep
      · cases hstep
        exact h.still hacc rfl rfl (fun _ _ => id) fun x hx _ => hx
      · cases hstep
        exact h.change hacc rfl (h.unused e) (fun q _ => .inl hlast.2.1)
          (fun x hx => update_of_ne hx ..) (fun q x _ => loading_update (by simp [hg.2.1]) q)
          (by simp) fun x hx => hkeep x hx e
    · rename_i hlast
      cases hstep
      have href := h.ref_pos hg.2.2.1
      refine h.change hacc rfl (fun hzero => ?_) (h.locked e) (fun _ _ => rfl) (fun _ _ _ => id)
        (fun _ => h.waits e (by omega)) fun x hx => hkeep x hx e
      -- the last reference to an inode that stays on the disk
      have hone : (s.icache e).ref = 1 := by simp only at hzero; omega
      rcases hcond.last p e rfl hone with hvalid | hlink
      · exact hvalid
      · exact Bool.eq_false_iff.mpr fun hvalid => hlast ⟨hone, hvalid, hlink⟩
  | free p =>
    simp only [RefSys.step] at hstep
    split at hstep
    · rename_i e hpc
      obtain ⟨-, ⟨⟩⟩ := ite_none_right_eq_some.mp hstep
      have hone := hcond.alone p e rfl hpc
      exact h.change hacc rfl (fun _ => rfl) (fun q hq => by simp at hq)
        (fun x hx => update_of_ne hx ..) (fun q x _ => loading_update (by simp [hpc]) q)
        (fun href => absurd (by simp [hone]) href) fun x hx => hkeep x hx e
    · simp at hstep
  | give p o e | take p o e =>
    obtain ⟨hg, ⟨⟩⟩ := ite_none_right_eq_some.mp hstep
    exact h.still hacc rfl rfl (fun _ _ => id) fun x hx _ => hx

end Marked

/-- In a run of tidy calls, when every entry that `iget` has filled has been locked since, the
counters are right. -/
theorem inodestat_truthful {ls : List RefStep} {s : RefSys}
    (hmeet : StepsMeet fillStep (fun l x => Tidy l x.1) ls (boot, []))
    (hrun : runFrom fillStep ls (boot, []) = some (s, [])) : s.icache.Truthful := by
  have hstep : ∀ l (x y : RefSys × List (Fin NINODE)), Marked x.1 x.2 → Tidy l x.1 →
      fillStep l x = some y → Marked y.1 y.2 := by
    intro l x y h hcond hy
    obtain ⟨t, ht, rfl⟩ := map_eq_some_iff.mp hy
    exact h.step hcond ht
  have h : Marked s [] := runFrom_invariant_of hstep Marked.boot hmeet hrun
  refine Icache.truthful_of_flags (fun e => ⟨?_, fun href => ⟨?_, h.unused e href⟩⟩)
    fun e => (h.accounted.exact e).2.1
  · rintro ⟨hbusy, hvalid⟩
    by_contra href
    exact List.not_mem_nil (h.waits e href hbusy hvalid)
  · refine Bool.eq_false_iff.mpr fun hbusy => ?_
    obtain ⟨p, hp⟩ := (h.accounted.busy e).mp hbusy
    rw [h.accounted.unlocked_of_ref href] at hp
    cases hp

/-- `Tidy` as a check. -/
def isTidy (l : RefStep) (s : RefSys) : Bool :=
  soleReader l s && match l with
    | .iput _ e => decide ((s.icache e).ref = 1 →
      (s.icache e).valid = false ∨ (s.icache e).d.nlink = 0)
    | .free p => match s.pc p with
      | .freeing e => decide ((s.icache e).ref = 1)
      | _ => true
    | _ => true

theorem tidy_of_isTidy {l : RefStep} {s : RefSys} (h : isTidy l s = true) : Tidy l s := by
  obtain ⟨hreader, h⟩ := Bool.and_eq_true_iff.mp h
  refine ⟨soleReader_of_check l s hreader, ?_, ?_⟩
  · rintro p e rfl
    exact of_decide_eq_true h
  · rintro p e rfl hpc
    simpa [hpc] using h

/-- A process looks up an inode without links, locks it and puts it, and then one that it keeps. -/
def lockAndPut : List RefStep :=
  let file : Dinode := { Dinode.zero with type := T_FILE }
  let e : Fin NINODE := ⟨0, NINODE_pos⟩
  [.iget 0 1 3 false, .ilock 0 e, .load 0 file, .iunlock 0 e, .iput 0 e, .free 0,
    .iget 0 1 2 false, .ilock 0 e, .load 0 { file with nlink := 1 }, .iunlock 0 e]

theorem inodestat_truthful_lockAndPut : ∃ s, runFrom fillStep lockAndPut (boot, []) = some (s, []) ∧
    getNumberOfActiveInode s.icache = 1 ∧ s.icache.Truthful := by
  have hmeet : StepsMeet fillStep (fun l x => Tidy l x.1) lockAndPut (boot, []) :=
    StepsMeet.of_meets (fun l x h => tidy_of_isTidy (s := x.1) h) (by decide +kernel)
  have hrun : ((runFrom fillStep lockAndPut (boot, [])).map fun x =>
      (x.2, getNumberOfActiveInode x.1.icache)) = some ([], 1) := by decide +kernel
  obtain ⟨⟨s, w⟩, hs, heq⟩ := map_eq_some_iff.mp hrun
  obtain ⟨rfl, hactive⟩ := Prod.mk.inj heq
  exact ⟨s, hs, hactive, inodestat_truthful hmeet hs⟩

end RefSys

namespace Icache

/-- A process looks up an inode and has not locked it yet: it is counted as free. After it has been
locked, unlocked and put the entry can be recycled, and it is counted as valid and active. -/
theorem inodestat_untruthful :
    ((runFrom RefSys.step [.iget 0 1 2 false] .boot).map fun s =>
      (getNumberOfFreeInode s.icache, s.icache.count fun ip => ip.ref = 0)) = some (50, 49) ∧
    ((runFrom RefSys.step [.iget 0 1 2 false, .ilock 0 ⟨0, by decide⟩,
        .load 0 { Dinode.zero with type := T_FILE, nlink := 1 }, .iunlock 0 ⟨0, by decide⟩,
        .iput 0 ⟨0, by decide⟩] .boot).map fun s =>
      (numberOfValidInode s.icache, s.icache.count fun ip => 0 < ip.ref)) = some (1, 0) := by
  constructor <;> decide +kernel

end Icache

end Xv6
