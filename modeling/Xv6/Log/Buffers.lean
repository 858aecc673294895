import Xv6.Log.Admission
import Xv6.Log.Reads

/-!
# Buffers for the log

A logged sector keeps its buffer until `install_trans`, and a process keeps the buffers it has read
until `brelse`. `bget` panics when that is all of them. `bget_buffers_iff` says when: the sectors
logged and not yet installed, and the buffers held besides, are `NBUF` in number.
-/

namespace Xv6

open Lib Option Finset Prog

/-- The event of the machine with `bwrite`. -/
def Event.toBuf : Event → Option BufEvent
  | .beginOp p => some (.beginOp p)
  | .bread p sector => some (.bread p sector)
  | .modify p b data => some (.modify p b data)
  | .logTests p b => some (.logTests p b)
  | .logWrite p b => some (.logWrite p b)
  | .brelse p b => some (.brelse p b)
  | .endOp p => some (.endOp p)
  | .commit p => some (.commit p)
  | .crash | .recover => none

namespace Machine

/-- The sectors that are logged and not yet installed. -/
def pinList (m : Machine) : List Nat :=
  match m.phase with
  | .install tail => m.ops.log.lh.drop tail
  | _ => m.ops.log.lh

/-- The buffers that somebody holds, without those of logged sectors. -/
def heldClean (m : Machine) : Finset (Fin NBUF) :=
  Finset.univ.filter fun b => (m.store.buf b).busy = true ∧ (m.store.buf b).dirty = false

/-- The sector that the event calls `bget` for, when its buffer may have to be recycled. The other
`bread`s of `commit` are of logged sectors. -/
def wants (m : Machine) : Event → Option Nat
  | .bread _ sector => some sector
  | .commit _ =>
    match m.phase with
    | .writeLog tail | .install tail =>
      if tail < m.ops.log.lh.length then some (m.ops.log.start + tail + 1) else none
    | .writeHead | .erase => some m.ops.log.start
    | _ => none
  | _ => none

/-- The event asks for a sector that is not cached when no buffer is left. -/
def Starved (e : Event) (m : Machine) : Prop :=
  ∃ sector, m.wants e = some sector ∧ (∀ b, ¬ Caches m.store b sector) ∧
    NBUF ≤ m.pinList.length + m.heldClean.card

theorem pins_eq (m : Machine) : m.pins = { s | s ∈ m.pinList } := by
  unfold pins pinList
  cases m.phase <;> rfl

/-- The events without a crash are events of the other machine too. -/
theorem bufStep_of_step {g : Geometry} {e : Event} {m m' : Machine} (hup : m.phase.recovering = false)
    (hstart : m.ops.log.start = g.start) (hc : e ≠ .crash) (hstep : step g e m = some m') :
    ∃ f, e.toBuf = some f ∧ bufStep g f m = some m' ∧ Proper f m := by
  cases e with
  | crash => exact absurd rfl hc
  | recover =>
    obtain ⟨-, hstep⟩ := ite_none_right_eq_some.mp hstep
    unfold recoverStep at hstep
    cases hm : m.phase <;> simp [hm, Phase.recovering] at hup hstep
  | modify p b data =>
    refine ⟨_, rfl, ?_, trivial⟩
    obtain ⟨hs, hstep⟩ := ite_none_right_eq_some.mp hstep
    rw [bufStep, if_pos ⟨hs.1, .inr hs.2.1, hs.2.2⟩]
    exact hstep
  | logTests p b =>
    obtain ⟨hs, hstep⟩ := ite_none_right_eq_some.mp hstep
    refine ⟨_, rfl, ?_, by rw [Proper, hstart]; exact hs.2.2⟩
    rw [bufStep, if_pos ⟨hs.1, hs.2.1⟩]
    exact hstep
  | beginOp p | bread p sector | logWrite p b | brelse p b | endOp p | commit p =>
    exact ⟨_, rfl, hstep, trivial⟩

end Machine

/-! ## When `bget` gives up -/

section

variable {st st' : Store} {view : Nat → Block} {pinned : Set Nat} {edited : Set (Fin NBUF)}
  {s : Nat} {why : Halt}

theorem iderw_halt_ne {b : Fin NBUF} (h : iderw b st = .halt why) :
    why ≠ .panic "bget: no buffers" := by
  simp only [iderw] at h
  split_ifs at h <;> cases h <;> simp

theorem bget_noBuffers_iff (h : Flat st view pinned edited) :
    bget ROOTDEV s st = .halt (.panic "bget: no buffers") ↔
      (∀ b, ¬ Caches st b s) ∧ ∀ b, (st.buf b).busy = true ∨ (st.buf b).dirty = true := by
  have hcached : st.bcache.mru.find? (isCached st.bcache ROOTDEV s) = none ↔
      ∀ b, ¬ Caches st b s := by
    rw [List.find?_eq_none]
    exact ⟨fun hn b hb => hn b (h.listed b) (isCached_iff.mpr hb),
      fun hn b _ hb => hn b (isCached_iff.mp hb)⟩
  have hclean : st.bcache.mru.reverse.find? (isRecyclable st.bcache) = none ↔
      ∀ b, (st.buf b).busy = true ∨ (st.buf b).dirty = true := by
    rw [List.find?_eq_none]
    constructor
    · intro hn b
      have := hn b (List.mem_reverse.mpr (h.listed b))
      simp only [isRecyclable, Bool.and_eq_true, Bool.not_eq_true', not_and,
        Bool.not_eq_false] at this
      cases hb : (st.buf b).busy with
      | true => exact .inl rfl
      | false => exact .inr (this hb)
    · intro hall b _
      simp only [isRecyclable, Bool.and_eq_true, Bool.not_eq_true', not_and, Bool.not_eq_false]
      intro hb
      exact (hall b).resolve_left (by rw [Store.buf, hb]; simp)
  rw [← hcached, ← hclean]
  have hfirst : ∀ n, isCached { st.bcache with numberOfBlockAcsses := n } ROOTDEV s =
      isCached st.bcache ROOTDEV s := fun _ => rfl
  have hsecond : ∀ n, isRecyclable { st.bcache with numberOfBlockAcsses := n } =
      isRecyclable st.bcache := fun _ => rfl
  unfold bget
  simp only [hfirst, hsecond]
  cases st.bcache.mru.find? (isCached st.bcache ROOTDEV s) with
  | some b =>
    simp only [reduceCtorEq, false_and, iff_false]
    split <;> simp
  | none => cases st.bcache.mru.reverse.find? (isRecyclable st.bcache) <;> simp

theorem bread_noBuffers_iff (h : Flat st view pinned edited) :
    bread ROOTDEV s st = .halt (.panic "bget: no buffers") ↔
      (∀ b, ¬ Caches st b s) ∧ ∀ b, (st.buf b).busy = true ∨ (st.buf b).dirty = true := by
  rw [← bget_noBuffers_iff h]
  constructor
  · intro hb
    rcases bind_eq_halt.mp hb with hb | ⟨b, m, -, hb⟩
    · exact hb
    · obtain ⟨_, _, hget, hb⟩ := (bind_eq_halt.mp hb).resolve_left (by simp)
      split at hb
      · simp at hb
      · rcases bind_eq_halt.mp hb with hb | ⟨_, _, -, hb⟩
        · exact absurd rfl (iderw_halt_ne hb)
        · simp at hb
  · exact fun hb => bind_eq_halt.mpr (.inl hb)

theorem bread_pinned_ne (h : Flat st view pinned edited) (hs : s ∈ pinned) :
    bread ROOTDEV s st ≠ .halt (.panic "bget: no buffers") := by
  rw [ne_eq, bread_noBuffers_iff h]
  obtain ⟨b, hb, -⟩ := h.pin s hs
  exact fun hn => hn.1 b hb

theorem brelse_halt_ne {b : Fin NBUF} (h : brelse b st = .halt why) :
    why ≠ .panic "bget: no buffers" := by
  obtain ⟨_, _, -, h⟩ := (bind_eq_halt.mp h).resolve_left (by simp)
  split at h
  · obtain rfl := panic_eq_halt.mp h
    simp
  · simp at h

theorem bwrite_halt_ne {b : Fin NBUF} (h : bwrite b st = .halt why) :
    why ≠ .panic "bget: no buffers" := by
  obtain ⟨_, _, -, h⟩ := (bind_eq_halt.mp h).resolve_left (by simp)
  split at h
  · obtain rfl := panic_eq_halt.mp h
    simp
  · obtain ⟨_, _, -, h⟩ := (bind_eq_halt.mp h).resolve_left (by simp)
    exact iderw_halt_ne h

/-- The end of an iteration of `write_log` or `install_trans`. -/
theorem copySector_halt_ne {bs bd : Fin NBUF} {d : Block}
    (h : (do setData bd d; bwrite bd; brelse bs; brelse bd : Prog Store Unit) st = .halt why) :
    why ≠ .panic "bget: no buffers" := by
  obtain ⟨_, _, -, h⟩ := (bind_eq_halt.mp h).resolve_left (by simp [setData])
  rcases bind_eq_halt.mp h with h | ⟨_, _, -, h⟩
  · exact bwrite_halt_ne h
  · rcases bind_eq_halt.mp h with h | ⟨_, _, -, h⟩
    · exact brelse_halt_ne h
    · exact brelse_halt_ne h

section

variable {start tail : Nat} {lh : List Nat}

/-- An iteration of either loop: a log block is read, then a sector that is pinned. -/
theorem twoBreads_noBuffers_iff {t : Nat} {f : Fin NBUF → Fin NBUF → Store → Prog Store Unit}
    (h : Flat st view pinned edited) (ht : t ∈ pinned)
    (hf : ∀ a b x st, f a b x st ≠ .halt (.panic "bget: no buffers")) :
    (do let a ← bread ROOTDEV s; let b ← bread ROOTDEV t; let x ← Prog.get; f a b x :
      Prog Store Unit) st = .halt (.panic "bget: no buffers") ↔
      bread ROOTDEV s st = .halt (.panic "bget: no buffers") := by
  refine ⟨fun hb => ?_, fun hb => bind_eq_halt.mpr (.inl hb)⟩
  rcases bind_eq_halt.mp hb with hb | ⟨_, _, hok, hb⟩
  · exact hb
  · obtain ⟨_, hflat, -⟩ := bread_flat h hok
    obtain ⟨_, _, -, hb⟩ := (bind_eq_halt.mp hb).resolve_left (bread_pinned_ne hflat ht)
    obtain ⟨_, _, -, hb⟩ := (bind_eq_halt.mp hb).resolve_left (by simp)
    exact (hf _ _ _ _ hb).elim

theorem writeLogBody_noBuffers_iff (h : Flat st view pinned edited)
    (hmem : lh.getD tail 0 ∈ pinned) :
    writeLogBody start lh tail st = .halt (.panic "bget: no buffers") ↔
      bread ROOTDEV (start + tail + 1) st = .halt (.panic "bget: no buffers") :=
  twoBreads_noBuffers_iff h hmem fun _ _ _ _ hb => copySector_halt_ne hb rfl

theorem installBody_noBuffers_iff (h : Flat st view pinned edited)
    (hmem : lh.getD tail 0 ∈ pinned) :
    installBody start lh tail st = .halt (.panic "bget: no buffers") ↔
      bread ROOTDEV (start + tail + 1) st = .halt (.panic "bget: no buffers") :=
  twoBreads_noBuffers_iff h hmem fun _ _ _ _ hb => copySector_halt_ne hb rfl

theorem writeHead_noBuffers_iff :
    writeHead start lh st = .halt (.panic "bget: no buffers") ↔
      bread ROOTDEV start st = .halt (.panic "bget: no buffers") := by
  refine ⟨fun hb => ?_, fun hb => bind_eq_halt.mpr (.inl hb)⟩
  rcases bind_eq_halt.mp hb with hb | ⟨_, _, -, hb⟩
  · exact hb
  · obtain ⟨_, _, -, hb⟩ := (bind_eq_halt.mp hb).resolve_left (by simp)
    obtain ⟨_, _, -, hb⟩ := (bind_eq_halt.mp hb).resolve_left (by simp [setData])
    rcases bind_eq_halt.mp hb with hb | ⟨_, _, -, hb⟩
    · exact absurd rfl (bwrite_halt_ne hb)
    · exact absurd rfl (brelse_halt_ne hb)

end

end

/-! ## Counting buffers -/

namespace Machine

variable {g : Geometry} {m m' : Machine} {e : Event}

/-- The state of a run without a crash. -/
structure Sane (g : Geometry) (m : Machine) : Prop where
  tracks : ∃ written, Tracks m written
  start : m.ops.log.start = g.start

theorem Sane.flat (h : Sane g m) :
    ∃ view, Flat m.store view { s | s ∈ m.pinList } { b | m.edited b = true } := by
  obtain ⟨written, ht⟩ := h.tracks
  exact ⟨written, m.pins_eq ▸ ht.flat⟩

theorem Sane.nodup (h : Sane g m) : m.pinList.Nodup := by
  obtain ⟨_, ht⟩ := h.tracks
  obtain ⟨_, ha⟩ := ht.counted
  unfold pinList
  split
  · exact ha.nodup.sublist (List.drop_sublist ..)
  · exact ha.nodup

/-- The dirty buffers are those of the logged sectors. -/
theorem Sane.card_dirty (h : Sane g m) :
    (Finset.univ.filter fun b => (m.store.buf b).dirty = true).card = m.pinList.length := by
  obtain ⟨view, hf⟩ := h.flat
  have himage : (Finset.univ.filter fun b => (m.store.buf b).dirty = true).image
      (fun b => (m.store.buf b).sector) = m.pinList.toFinset := by
    ext s
    simp only [mem_image, mem_filter, mem_univ, true_and, List.mem_toFinset]
    constructor
    · rintro ⟨b, hb, rfl⟩
      obtain ⟨s, hs, hc⟩ := hf.dirty b hb
      exact hc.2 ▸ hs
    · intro hs
      obtain ⟨b, hc, hd⟩ := hf.pin s hs
      exact ⟨b, hd, hc.2⟩
  rw [← List.toFinset_card_of_nodup h.nodup, ← himage, card_image_of_injOn]
  intro b hb c hc hbc
  obtain ⟨s, -, hs⟩ := hf.dirty b (by simpa using hb)
  obtain ⟨t, -, ht⟩ := hf.dirty c (by simpa using hc)
  have hst : t = s := by rw [← ht.2, ← hs.2]; exact hbc.symm
  exact hf.unique b c s hs (hst ▸ ht)

/-- Every buffer is taken when the logged sectors and the clean buffers in use make `NBUF`. -/
theorem Sane.taken_iff (h : Sane g m) :
    (∀ b, (m.store.buf b).busy = true ∨ (m.store.buf b).dirty = true) ↔
      NBUF ≤ m.pinList.length + m.heldClean.card := by
  have hdisj : Disjoint (Finset.univ.filter fun b => (m.store.buf b).dirty = true)
      m.heldClean := by
    rw [disjoint_left]
    intro b hb hc
    simp only [heldClean, mem_filter, mem_univ, true_and] at hb hc
    simp [hb] at hc
  rw [← h.card_dirty, ← card_union_of_disjoint hdisj]
  have hcard : Fintype.card (Fin NBUF) = NBUF := Fintype.card_fin _
  constructor
  · intro hall
    refine hcard.symm.trans_le (card_univ.symm.trans_le (card_le_card fun b _ => ?_))
    simp only [heldClean, mem_union, mem_filter, mem_univ, true_and]
    cases hd : (m.store.buf b).dirty with
    | true => exact .inl rfl
    | false => exact .inr ⟨(hall b).resolve_right (by simp [hd]), rfl⟩
  · intro hle b
    have huniv := eq_univ_of_card _
      (le_antisymm (card_le_univ _) (hcard.trans_le hle))
    have hb := mem_univ b
    rw [← huniv] at hb
    simp only [heldClean, mem_union, mem_filter, mem_univ, true_and] at hb
    exact hb.elim .inr fun hb => .inl hb.1

theorem Sane.up (g : Geometry) (disk : Nat → Block) : Sane g (.up g disk) :=
  ⟨⟨disk, Tracks.up g disk⟩, rfl⟩

/-- The code runs out of buffers exactly when the event's `bread` does. -/
def RunsOut (m : Machine) (e : Event) {α : Type} (x : Prog Store α) : Prop :=
  x m.store = .halt (.panic "bget: no buffers") ↔
    ∃ sector, m.wants e = some sector ∧
      bread ROOTDEV sector m.store = .halt (.panic "bget: no buffers")

variable {α : Type} {x : Prog Store α}

theorem RunsOut.of_wants {sector : Nat} (hw : m.wants e = some sector)
    (hx : x m.store = .halt (.panic "bget: no buffers") ↔
      bread ROOTDEV sector m.store = .halt (.panic "bget: no buffers")) : m.RunsOut e x := by
  refine hx.trans ⟨fun h => ⟨sector, hw, h⟩, ?_⟩
  rintro ⟨s, hs, h⟩
  rw [hw] at hs
  exact some.inj hs ▸ h

theorem RunsOut.of_none (hw : m.wants e = none)
    (hx : x m.store ≠ .halt (.panic "bget: no buffers")) : m.RunsOut e x := by
  refine ⟨fun h => absurd h hx, ?_⟩
  rintro ⟨s, hs, -⟩
  rw [hw] at hs
  cases hs

theorem step_running (hc : e ≠ .crash) (hstep : step g e m = some m') :
    m.ops.panicked = none := by
  by_contra hp
  cases e <;> simp [step, Serving, hp] at hstep hc

/-- What the event that led from `m` to `m'` did to the log: a step of `OpSys`, some code on the
store, or the end of `install_trans`. -/
def Does (m m' : Machine) (e : Event) : Prop :=
  (∃ l, OpSys.step l m.ops = some m'.ops ∧ m.wants e = none) ∨
  (∃ (α : Type) (x : Prog Store α) (k : α → Store → Machine), m.exec x k = some m' ∧
    (∀ a st, (k a st).ops = m.ops) ∧ m.RunsOut e x) ∨
  (∃ lh, m'.ops = { m.ops with log := { m.ops.log with lh := lh } } ∧ m.wants e = none)

theorem Does.code {k : α → Store → Machine} (hx : m.exec x k = some m')
    (hk : ∀ a st, (k a st).ops = m.ops) (hout : m.RunsOut e x) :
    Does m m' e := .inr (.inl ⟨α, x, k, hx, hk, hout⟩)

theorem Sane.does (h : Sane g m) (hc : e ≠ .crash) (hstep : step g e m = some m') :
    Does m m' e := by
  obtain ⟨view, hf⟩ := h.flat
  have hget : ∀ {tail : Nat} (htail : tail < m.ops.log.lh.length),
      m.ops.log.lh.getD tail 0 = m.ops.log.lh[tail] := fun htail => by
    rw [List.getD_eq_getElem?_getD, List.getElem?_eq_getElem htail, getD_some]
  cases e with
  | crash => exact absurd rfl hc
  | recover =>
    obtain ⟨written, ht⟩ := h.tracks
    obtain ⟨f, hf, -⟩ := bufStep_of_step ht.serving h.start hc hstep
    cases hf
  | beginOp p | logTests p b | logWrite p b | endOp p =>
    obtain ⟨-, hstep⟩ := ite_none_right_eq_some.mp hstep
    obtain ⟨o, ho, rfl⟩ := map_eq_some_iff.mp hstep
    exact .inl ⟨_, ho, rfl⟩
  | bread p sector =>
    obtain ⟨-, hstep⟩ := ite_none_right_eq_some.mp hstep
    exact .code hstep (fun _ _ => rfl) (.of_wants rfl Iff.rfl)
  | modify p b data =>
    obtain ⟨-, hstep⟩ := ite_none_right_eq_some.mp hstep
    exact .code hstep (fun _ _ => rfl) (.of_none rfl (by simp [setData]))
  | brelse p b =>
    obtain ⟨-, hstep⟩ := ite_none_right_eq_some.mp hstep
    exact .code hstep (fun _ _ => rfl) (.of_none rfl fun hb => brelse_halt_ne hb rfl)
  | commit p =>
    obtain ⟨-, hstep⟩ := ite_none_right_eq_some.mp hstep
    unfold commitStep at hstep
    simp only at hstep
    split at hstep
    · rename_i tail hm
      split at hstep
      · rename_i htail
        refine .code hstep (fun _ _ => rfl)
          (.of_wants (by simp [wants, hm, htail]) (writeLogBody_noBuffers_iff hf ?_))
        simp only [pinList, hm, Set.mem_ofPred_eq, hget htail]
        exact List.getElem_mem htail
      · rename_i htail
        cases hstep
        exact .inr (.inr ⟨m.ops.log.lh, rfl, by simp [wants, hm, htail]⟩)
    · rename_i hm
      exact .code hstep (fun _ _ => rfl)
        (.of_wants (by simp [wants, hm]) writeHead_noBuffers_iff)
    · rename_i tail hm
      split at hstep
      · rename_i htail
        refine .code hstep (fun _ _ => rfl)
          (.of_wants (by simp [wants, hm, htail]) (installBody_noBuffers_iff hf ?_))
        simp only [pinList, hm, Set.mem_ofPred_eq, hget htail]
        exact List.mem_drop_iff_getElem.mpr ⟨0, by omega, by simp⟩
      · rename_i htail
        cases hstep
        exact .inr (.inr ⟨[], rfl, by simp [wants, hm, htail]⟩)
    · rename_i hm
      exact .code hstep (fun _ _ => rfl)
        (.of_wants (by simp [wants, hm]) writeHead_noBuffers_iff)
    · rename_i hm
      obtain ⟨o, ho, rfl⟩ := map_eq_some_iff.mp hstep
      exact .inl ⟨_, ho, by simp [wants, hm]⟩
    · cases hstep

theorem Sane.step_start (h : Sane g m) (hc : e ≠ .crash) (hstep : step g e m = some m') :
    m'.ops.log.start = g.start := by
  obtain ⟨written, ht⟩ := h.tracks
  obtain ⟨a, ha⟩ := ht.counted
  rw [← h.start]
  rcases h.does hc hstep with ⟨l, ho, -⟩ | ⟨α, x, k, hx, hk, -⟩ | ⟨lh, hops, -⟩
  · rcases OpSys.step_cases ha ho with ⟨p, lg, -, -, hl, heq⟩ | ⟨p, sector, msg, -, -, -, heq⟩ |
      ⟨p, sector, -, -, -, heq⟩ | ⟨p, sector, -, -, heq⟩ | ⟨p, -, -, heq⟩ | ⟨p, -, -, heq⟩
    · obtain ⟨-, -, rfl⟩ := Log.beginOp_eq_some.mp hl
      rw [heq]
    all_goals rw [heq]
    · rfl
    · rfl
  · exact exec_meets hx (fun _ _ _ => by rw [hk]) fun _ => rfl
  · rw [hops]

theorem Sane.step (h : Sane g m) (hc : e ≠ .crash) (hstep : Machine.step g e m = some m') :
    Sane g m' := by
  obtain ⟨written, ht⟩ := h.tracks
  obtain ⟨f, -, hf, hproper⟩ := bufStep_of_step ht.serving h.start hc hstep
  exact ⟨⟨_, (ht.step hproper hf).1⟩, h.step_start hc hstep⟩

/-- The step lemma: one event panics in `bget` exactly when it is starved. -/
theorem Sane.step_noBuffers_iff (h : Sane g m) (hc : e ≠ .crash) (hp : m.ops.panicked = none)
    (hstep : Machine.step g e m = some m') :
    m'.ops.panicked = some "bget: no buffers" ↔ Starved e m := by
  obtain ⟨written, ht⟩ := h.tracks
  obtain ⟨a, ha⟩ := ht.counted
  obtain ⟨view, hf⟩ := h.flat
  have hnot : m.wants e = none → ¬ Starved e m := fun hw ⟨s, hs, _⟩ => by simp [hw] at hs
  rcases h.does hc hstep with ⟨l, ho, hw⟩ | ⟨α, x, k, hx, hk, hout⟩ | ⟨lh, hops, hw⟩
  · refine iff_of_false ?_ (hnot hw)
    rcases OpSys.step_cases ha ho with ⟨p, lg, -, -, hl, heq⟩ |
      ⟨p, sector, msg, -, -, htests, heq⟩ | ⟨p, sector, -, -, -, heq⟩ | ⟨p, sector, -, -, heq⟩ |
      ⟨p, -, -, heq⟩ | ⟨p, -, -, heq⟩
    · simp [heq, hp]
    · -- the panics of `log_write` say something else
      unfold Log.logWriteTests at htests
      split_ifs at htests <;> obtain rfl := some.inj htests <;> simp [heq]
    · simp [heq, hp]
    · simp [heq, hp]
    · simp [heq, hp]
    · simp [heq, hp]
  · have hpanic : m'.ops.panicked = some "bget: no buffers" ↔
        x m.store = .halt (.panic "bget: no buffers") := by
      unfold exec at hx
      split at hx
      · rename_i a st hxs
        cases hx
        simp [hk, hp, hxs]
      · rename_i msg hxs
        cases hx
        simp [Machine.panic, hxs]
      · cases hx
    refine hpanic.trans (Iff.trans hout (exists_congr fun s => and_congr_right fun _ => ?_))
    rw [bread_noBuffers_iff hf, h.taken_iff]
  · exact iff_of_false (by simp [hops, hp]) (hnot hw)

end Machine

/-! ## Whole runs -/

/-- In every run without a crash, `bget` panics exactly if some event, of a process or of `commit`,
asks for a sector that is not cached when the sectors logged and not yet installed and the
other buffers in use are `NBUF` or more. For a sector that is not cached, this is to say that no
buffer is neither held nor dirty. -/
theorem bget_buffers_iff (g : Geometry) (disk : Nat → Block) (es : List Event) (m : Machine)
    (hes : ∀ e ∈ es, e ≠ .crash) (hrun : runFrom (Machine.step g) es (.up g disk) = some m) :
    (m.ops.panicked ≠ some "bget: no buffers" ↔
      ∀ pre e m', pre ++ [e] <+: es → runFrom (Machine.step g) pre (.up g disk) = some m' →
        ¬ Machine.Starved e m') ∧
    ∀ pre e m' sector, pre ++ [e] <+: es → runFrom (Machine.step g) pre (.up g disk) = some m' →
      m'.wants e = some sector → (∀ b, ¬ Caches m'.store b sector) →
      (¬ Machine.Starved e m' ↔
        ∃ b, (m'.store.buf b).busy = false ∧ (m'.store.buf b).dirty = false) := by
  have hsane : ∀ pre, pre <+: es → ∀ m', runFrom (Machine.step g) pre (.up g disk) = some m' →
      Machine.Sane g m' := by
    intro pre
    induction pre using List.reverseRecOn with
    | nil =>
      intro _ m' hm'
      cases hm'
      exact .up g disk
    | append_singleton pre e ih =>
      intro hpre m' hm'
      obtain ⟨m0, h0, hstep⟩ := runFrom_snoc.mp hm'
      exact (ih ((List.prefix_append ..).trans hpre) m0 h0).step
        (hes e (hpre.subset (by simp))) hstep
  refine ⟨⟨?_, ?_⟩, fun pre e m' sector hpre hm' hw hmiss => ?_⟩
  · rintro hnot pre e m' ⟨post, rfl⟩ hpre hstarved
    obtain ⟨m1, h1, hpost⟩ := runFrom_append.mp hrun
    obtain ⟨m0, h0, hstep⟩ := runFrom_snoc.mp h1
    obtain rfl := some.inj (hpre.symm.trans h0)
    have hc : e ≠ .crash := hes e (by simp)
    have hpanic := ((hsane pre ⟨[e] ++ post, by simp⟩ m' hpre).step_noBuffers_iff hc
      (Machine.step_running hc hstep) hstep).mpr hstarved
    -- the machine has stopped, so the event was the last one
    cases post with
    | nil =>
      cases hpost
      exact hnot hpanic
    | cons f post =>
      obtain ⟨m2, h2, -⟩ := runFrom_cons.mp hpost
      have := Machine.step_running (hes f (by simp)) h2
      rw [hpanic] at this
      cases this
  · intro hall hpanic
    induction es using List.reverseRecOn with
    | nil =>
      cases hrun
      cases hpanic
    | append_singleton pre e _ =>
      obtain ⟨m', hpre, hstep⟩ := runFrom_snoc.mp hrun
      have hc : e ≠ .crash := hes e (by simp)
      exact hall pre e m' (List.prefix_refl _) hpre
        (((hsane pre (List.prefix_append ..) m' hpre).step_noBuffers_iff hc
          (Machine.step_running hc hstep) hstep).mp hpanic)
  · have htaken := (hsane pre ((List.prefix_append ..).trans hpre) m' hm').taken_iff
    have hstarved : Machine.Starved e m' ↔
        ∀ b, (m'.store.buf b).busy = true ∨ (m'.store.buf b).dirty = true := by
      rw [htaken]
      refine ⟨?_, fun hle => ⟨sector, hw, hmiss, hle⟩⟩
      rintro ⟨_, -, -, hle⟩
      exact hle
    simp [hstarved, not_or]

/-- One operation logs a sector and commits. -/
def logAndCommit : List Event :=
  let b : Fin NBUF := ⟨0, NBUF_pos⟩
  [.beginOp 0, .bread 0 3, .modify 0 b (fun _ => 7), .logTests 0 b, .logWrite 0 b, .brelse 0 b,
    .endOp 0, .commit 0, .commit 0, .commit 0, .commit 0, .commit 0, .commit 0, .commit 0]

theorem bget_buffers_logAndCommit :
    ∃ m, runFrom (Machine.step smallDisk) logAndCommit
        (.up smallDisk fun _ => Bytes.zero BSIZE) = some m ∧
      (m.store.disk 3).u8 0 = 7 ∧
      ∀ pre e m', pre ++ [e] <+: logAndCommit →
        runFrom (Machine.step smallDisk) pre (.up smallDisk fun _ => Bytes.zero BSIZE) =
          some m' → ¬ Machine.Starved e m' := by
  have hrun : (runFrom (Machine.step smallDisk) logAndCommit
      (.up smallDisk fun _ => Bytes.zero BSIZE)).any
      (fun m => decide (m.ops.panicked = none) && decide ((m.store.disk 3).u8 0 = 7)) = true := by
    decide +kernel
  cases hm : runFrom (Machine.step smallDisk) logAndCommit
      (.up smallDisk fun _ => Bytes.zero BSIZE) with
  | none => simp [hm] at hrun
  | some m =>
    simp only [hm, Option.any_some, Bool.and_eq_true, decide_eq_true_eq] at hrun
    exact ⟨m, rfl, hrun.2, (bget_buffers_iff smallDisk _ logAndCommit m (by simp [logAndCommit])
      hm).1.mp (by rw [hrun.1]; simp)⟩

/-! ## Three operations within their budgets -/

/-- The calls of `log.c` that a run makes. -/
def opTrace (g : Geometry) : List Event → Machine → List OpStep
  | [], _ => []
  | e :: es, m =>
    (match e with
      | .beginOp p => [.beginOp p]
      | .logTests p b => [.logTests p (m.store.buf b).sector]
      | .logWrite p b => [.logWrite p (m.store.buf b).sector]
      | .endOp p => [.endOp p]
      | .commit p => if m.phase = .committed then [.endCommit p] else []
      | _ => []) ++
    match Machine.step g e m with
    | none => []
    | some m' => opTrace g es m'

/-- The process works inside an operation and holds at most one buffer when it calls `bread`, so
that it never holds more than two. -/
def Frugal (e : Event) (m : Machine) : Prop :=
  ∀ p sector, e = .bread p sector → m.ops.pc p = .inOp ∧
    (Finset.univ.filter fun b => m.holder b = some p).card ≤ 1

/-- `Frugal` as a check. -/
def isFrugal (e : Event) (m : Machine) : Bool :=
  match e with
  | .bread p _ => decide (m.ops.pc p = .inOp) &&
    decide ((Finset.univ.filter fun b => m.holder b = some p).card ≤ 1)
  | _ => true

theorem frugal_of_isFrugal (e : Event) (m : Machine) (h : isFrugal e m = true) : Frugal e m := by
  rintro p sector rfl
  simpa [isFrugal] using h

/-- The geometry `mkfs` writes. -/
def mkfsDisk : Geometry := ⟨1024, LOGSIZE, by decide, by decide⟩

/-- `n` blocks read, logged and released by `p`, on the sectors from `first` on, in the buffers
from `b` on. -/
def logBlocks (p first b n : Nat) : List Event :=
  (List.range n).flatMap fun i =>
    let b : Fin NBUF := ⟨(b + i) % NBUF, Nat.mod_lt _ (by decide)⟩
    [.bread p (first + i), .logTests p b, .logWrite p b, .brelse p b]

/-- Three operations, admitted together, log 29 sectors; then the third reads an indirect block
and, still holding it, the superblock. -/
def fillCache : List Event :=
  [.beginOp 0, .beginOp 1, .beginOp 2] ++ logBlocks 0 100 0 10 ++ logBlocks 1 110 10 10 ++
    logBlocks 2 120 20 9 ++ [.bread 2 200, .bread 2 1]

theorem bget_fillCache_panics :
    Budgeted (opTrace mkfsDisk fillCache (.up mkfsDisk fun _ => Bytes.zero BSIZE)) ∧
    StepsMeet (Machine.step mkfsDisk) Frugal fillCache (.up mkfsDisk fun _ => Bytes.zero BSIZE) ∧
    ∃ m, runFrom (Machine.step mkfsDisk) fillCache (.up mkfsDisk fun _ => Bytes.zero BSIZE) =
        some m ∧ m.ops.panicked = some "bget: no buffers" := by
  have htrace : opTrace mkfsDisk fillCache (.up mkfsDisk fun _ => Bytes.zero BSIZE) =
      [.beginOp 0, .beginOp 1, .beginOp 2] ++ logMany 0 100 10 ++ logMany 1 110 10 ++
        logMany 2 120 9 := by decide +kernel
  have hrun : (runFrom (Machine.step mkfsDisk) fillCache
      (.up mkfsDisk fun _ => Bytes.zero BSIZE)).any
      (fun m => decide (m.ops.panicked = some "bget: no buffers")) = true := by decide +kernel
  refine ⟨?_, StepsMeet.of_meets frugal_of_isFrugal (by decide +kernel), ?_⟩
  · rw [htrace]
    apply Budgeted.of_calls
    rintro (_ | _ | _ | p)
    · decide
    · decide
    · decide
    · simp [calls, logMany, List.range, List.range.loop]
  · cases hm : runFrom (Machine.step mkfsDisk) fillCache
        (.up mkfsDisk fun _ => Bytes.zero BSIZE) with
    | none => simp [hm] at hrun
    | some m => exact ⟨m, rfl, by simpa [hm] using hrun⟩

end Xv6
