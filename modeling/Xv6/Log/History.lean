import Xv6.Log.Machine

/-!
# Histories of the log

What a history says about the sectors: as the operations see them, and as they are after the
durable groups. `Grouped` says that no operation is split between groups.
-/

namespace Xv6

open Function List

open Lib

namespace History

variable (h : History) (base : Nat → Block)

/-- The sectors as the operations see them. -/
def latest : Nat → Block := contents base (h.groups.flatten ++ h.cur)

/-- The sectors after the durable groups. -/
def stable : Nat → Block := contents base (h.groups.take h.durable).flatten

/-- The updates that a crash undoes. -/
def pending : List Update := (h.groups.drop h.durable).flatten ++ h.cur

variable {h base}

theorem contents_append (us vs : List Update) :
    contents base (us ++ vs) = contents (contents base us) vs := by
  simp [contents, applyWrites_append]

theorem contents_snoc (us : List Update) (u : Update) :
    contents base (us ++ [u]) = update (contents base us) u.sector u.data := by
  simp [contents, applyWrites_append]

theorem latest_eq : h.latest base = contents (h.stable base) h.pending := by
  rw [latest, stable, pending, ← contents_append, ← append_assoc, ← flatten_append,
    take_append_drop]

theorem latest_of_pending_nil (hp : h.pending = []) : h.latest base = h.stable base := by
  rw [latest_eq, hp]
  rfl

end History

/-! ## No operation is split -/

/-- The groups contain their operations whole. -/
structure Grouped (h : History) (pc : Nat → OpPc) : Prop where
  known : ∀ u ∈ h.groups.flatten ++ h.cur, u ∈ h.logged
  fresh : ∀ u ∈ h.logged, u.op < h.next
  freshOp : ∀ p, (pc p).running = true → h.op p < h.next
  whole : ∀ g ∈ h.groups, ∀ u ∈ g, ∀ v ∈ h.logged, v.op = u.op → v ∈ g
  curWhole : ∀ u ∈ h.cur, ∀ v ∈ h.logged, v.op = u.op → v ∈ h.cur
  inCur : ∀ p, (pc p).running = true → ∀ v ∈ h.logged, v.op = h.op p → v ∈ h.cur
  notClosed : ∀ p, (pc p).running = true → ∀ g ∈ h.groups, ∀ u ∈ g, u.op ≠ h.op p

namespace Grouped

variable {h : History} {pc pc' : Nat → OpPc} {p : Nat}

theorem empty (hout : ∀ p, (pc p).running = false) : Grouped .empty pc where
  known := by simp [History.empty]
  fresh := by simp [History.empty]
  freshOp := by simp [hout]
  whole := by simp [History.empty]
  curWhole := by simp [History.empty]
  inCur := by simp [hout]
  notClosed := by simp [hout]

theorem known_of_group {gr : List Update} {u : Update} (hg : Grouped h pc) (hgr : gr ∈ h.groups)
    (hu : u ∈ gr) : u ∈ h.logged :=
  hg.known u (mem_append.mpr (.inl (mem_flatten.mpr ⟨gr, hgr, hu⟩)))

/-- A step that records nothing and starts no operation. -/
theorem mono (hg : Grouped h pc) (hpc : ∀ p, (pc' p).running = true → (pc p).running = true) :
    Grouped h pc' :=
  ⟨hg.known, hg.fresh, fun p hp => hg.freshOp p (hpc p hp), hg.whole, hg.curWhole,
    fun p hp => hg.inCur p (hpc p hp), fun p hp => hg.notClosed p (hpc p hp)⟩

theorem beginOp (hg : Grouped h pc) :
    Grouped { h with op := update h.op p h.next, next := h.next + 1 }
      (update pc p .inOp) := by
  have hnew : ∀ v ∈ h.logged, v.op ≠ h.next := fun v hv => (hg.fresh v hv).ne
  have hold : ∀ q, q ≠ p → (update pc p .inOp q).running = true →
      (pc q).running = true := by
    intro q hqp hq
    rwa [update_of_ne hqp] at hq
  refine ⟨hg.known, fun u hu => (hg.fresh u hu).trans (Nat.lt_succ_self _), ?_, hg.whole,
    hg.curWhole, ?_, ?_⟩
  · intro q hq
    by_cases hqp : q = p
    · simp [hqp]
    · simp only [update_of_ne hqp]
      exact (hg.freshOp q (hold q hqp hq)).trans (Nat.lt_succ_self _)
  · intro q hq v hv hop
    by_cases hqp : q = p
    · subst hqp
      simp only [update_self] at hop
      exact (hnew v hv hop).elim
    · simp only [update_of_ne hqp] at hop
      exact hg.inCur q (hold q hqp hq) v hv hop
  · intro q hq gr hgr u hu
    by_cases hqp : q = p
    · subst hqp
      simp only [update_self]
      exact hnew u (hg.known_of_group hgr hu)
    · simp only [update_of_ne hqp]
      exact hg.notClosed q (hold q hqp hq) gr hgr u hu

/-- A running operation's update goes to the open group, where its other updates are. -/
theorem logWrite {u : Update} (hg : Grouped h pc) (hp : (pc p).running = true)
    (hu : u.op = h.op p) :
    Grouped { h with logged := h.logged ++ [u], cur := h.cur ++ [u] } pc := by
  refine ⟨?_, ?_, hg.freshOp, ?_, ?_, ?_, hg.notClosed⟩
  · intro v hv
    simp only [mem_append, mem_singleton] at hv ⊢
    rcases hv with hv | hv | hv
    · exact .inl (hg.known v (mem_append.mpr (.inl hv)))
    · exact .inl (hg.known v (mem_append.mpr (.inr hv)))
    · exact .inr hv
  · intro v hv
    rcases mem_append.mp hv with hv | hv
    · exact hg.fresh v hv
    · rw [mem_singleton.mp hv, hu]
      exact hg.freshOp p hp
  · intro gr hgr w hw v hv hop
    rcases mem_append.mp hv with hv | hv
    · exact hg.whole gr hgr w hw v hv hop
    · rw [mem_singleton.mp hv, hu] at hop
      exact (hg.notClosed p hp gr hgr w hw hop.symm).elim
  · intro w hw v hv hop
    rcases mem_append.mp hv with hv | hv
    · refine mem_append.mpr (.inl ?_)
      rcases mem_append.mp hw with hw | hw
      · exact hg.curWhole w hw v hv hop
      · rw [mem_singleton.mp hw, hu] at hop
        exact hg.inCur p hp v hv hop
    · exact mem_append.mpr (.inr hv)
  · intro q hq v hv hop
    rcases mem_append.mp hv with hv | hv
    · exact mem_append.mpr (.inl (hg.inCur q hq v hv hop))
    · exact mem_append.mpr (.inr hv)

/-- The last operation leaves: the group is closed and no operation is left in it. -/
theorem close (hg : Grouped h pc) (hout : ∀ p, (pc' p).running = false) :
    Grouped { h with groups := h.groups ++ [h.cur], cur := [] } pc' := by
  refine ⟨?_, hg.fresh, by simp [hout], ?_, by simp, by simp [hout], by simp [hout]⟩
  · simpa using hg.known
  · intro gr hgr
    rcases mem_append.mp hgr with hgr | hgr
    · exact hg.whole gr hgr
    · rw [mem_singleton.mp hgr]
      exact hg.curWhole

/-- Recovery drops the groups that did not become durable. -/
theorem truncate (hg : Grouped h pc) (hout : ∀ p, (pc p).running = false) :
    Grouped { h with groups := h.groups.take h.durable, cur := [] } pc := by
  refine ⟨?_, hg.fresh, by simp [hout],
    fun gr hgr => hg.whole gr (mem_of_mem_take hgr), by simp, by simp [hout], by simp [hout]⟩
  intro u hu
  simp only [append_nil, mem_flatten] at hu
  obtain ⟨gr, hgr, hu⟩ := hu
  exact hg.known_of_group (mem_of_mem_take hgr) hu

end Grouped

end Xv6
