import Mathlib.Data.List.Range
import Xv6.Param

/-!
# The table of processors

`mpconfig` and `mpinit` (`mp.c:75-155`): the configuration table that the firmware leaves in memory,
and the walk over its entries. The bytes of the table are counted from its first one.
-/

namespace Xv6.Mp

/-- Maximum number of CPUs (`param.h:3`). -/
def NCPU : Nat := 8

def MPPROC : UInt8 := 0
def MPBUS : UInt8 := 1
def MPIOAPIC : UInt8 := 2
def MPIOINTR : UInt8 := 3
def MPLINTR : UInt8 := 4

/-- `sizeof(struct mpconf)` -/
def MPCONFSZ : Nat := 44
/-- `sizeof(struct mpproc)` -/
def MPPROCSZ : Nat := 20
/-- `sizeof(struct mpioapic)` -/
def MPIOAPICSZ : Nat := 8

abbrev Table := Nat → UInt8

/-- `conf->length` -/
def Table.length (b : Table) : Nat := (b 4).toNat + 256 * (b 5).toNat

/-- `sum` (`mp.c:26-35`). -/
def Table.sum (b : Table) (len : Nat) : UInt8 :=
  UInt8.ofNat ((List.range len).foldl (fun sum i => sum + (b i).toNat) 0)

/-- The checks of `mpconfig` on the table that `mpsearch` leads to (`mp.c:87-94`): `"PCMP"`, the
version and the checksum. -/
def mpconfig (b : Table) : Bool :=
  (List.range 4).map b == [80, 67, 77, 80] && (b 6 == 1 || b 6 == 4) && b.sum b.length == 0

/-- The variables that `mpinit` sets. -/
structure Found where
  ismp : Bool
  ncpu : Nat
  bcpu : Nat
  ioapicid : UInt8

/-- One turn of the loop (`mp.c:114-140`): the place of the next entry, or an error where
`cpus[ncpu]` is not in the array. -/
def entry (b : Table) (p : Nat) (f : Found) : Except Unit (Nat × Found) :=
  if b p = MPPROC then
    if f.ncpu < NCPU then
      .ok (p + MPPROCSZ,
        { f with
          ismp := f.ismp && decide (f.ncpu = (b (p + 1)).toNat)
          bcpu := if b (p + 3) &&& 2 ≠ 0 then f.ncpu else f.bcpu
          ncpu := f.ncpu + 1 })
    else .error ()
  else if b p = MPIOAPIC then .ok (p + MPIOAPICSZ, { f with ioapicid := b (p + 1) })
  else if b p = MPBUS ∨ b p = MPIOINTR ∨ b p = MPLINTR then .ok (p + 8, f)
  else .ok (p, { f with ismp := false })

/-- The loop of `mpinit`; `none` if it has not come to an end after so many turns. -/
def walk (b : Table) (e : Nat) : Nat → Nat → Found → Option (Except Unit Found)
  | 0, _, _ => none
  | turns + 1, p, f =>
    if p < e then
      match entry b p f with
      | .error u => some (.error u)
      | .ok (p, f) => walk b e turns p f
    else some (.ok f)

/-- `mpinit` (`mp.c:99-148`). -/
def mpinit (turns : Nat) (b : Table) : Option (Except Unit Found) :=
  if mpconfig b then
    (walk b b.length turns MPCONFSZ ⟨true, 0, 0, 0⟩).map fun r =>
      r.map fun f => if f.ismp then f else { f with ncpu := 1, ioapicid := 0 }
  else some (.ok ⟨false, 0, 0, 0⟩)

/-- From `p` to `e` there are entries of the known types, `n` of them processors. -/
inductive Entries (b : Table) (e : Nat) : Nat → Nat → Prop
  | done {p : Nat} (hp : e ≤ p) : Entries b e p 0
  | proc {p n : Nat} (hp : p < e) (htype : b p = MPPROC) (rest : Entries b e (p + MPPROCSZ) n) :
      Entries b e p (n + 1)
  | other {p n : Nat} (hp : p < e)
      (htype : b p = MPBUS ∨ b p = MPIOAPIC ∨ b p = MPIOINTR ∨ b p = MPLINTR)
      (rest : Entries b e (p + 8) n) : Entries b e p n

section

variable {b : Table} {e p n turns : Nat} {f g : Found}

theorem walk_of_entries (h : Entries b e p n) (hn : f.ncpu + n ≤ NCPU) :
    ∃ turns g, walk b e turns p f = some (.ok g) := by
  induction h generalizing f with
  | done hp => exact ⟨1, f, if_neg (by omega)⟩
  | @proc p n hp htype _ ih =>
    obtain ⟨turns, g, hwalk⟩ := ih (f := { f with
        ismp := f.ismp && decide (f.ncpu = (b (p + 1)).toNat)
        bcpu := if b (p + 3) &&& 2 ≠ 0 then f.ncpu else f.bcpu
        ncpu := f.ncpu + 1 }) (by simp only; omega)
    refine ⟨turns + 1, g, ?_⟩
    rw [walk, if_pos hp, entry, if_pos htype, if_pos (by omega)]
    exact hwalk
  | @other p n hp htype _ ih =>
    have hproc : b p ≠ MPPROC := by
      rcases htype with h | h | h | h <;> rw [h] <;> decide
    by_cases hio : b p = MPIOAPIC
    · obtain ⟨turns, g, hwalk⟩ := ih (f := { f with ioapicid := b (p + 1) }) hn
      refine ⟨turns + 1, g, ?_⟩
      rw [walk, if_pos hp, entry, if_neg hproc, if_pos hio]
      exact hwalk
    · obtain ⟨turns, g, hwalk⟩ := ih hn
      refine ⟨turns + 1, g, ?_⟩
      rw [walk, if_pos hp, entry, if_neg hproc, if_neg hio, if_pos (by tauto)]
      exact hwalk

theorem entries_of_walk (hf : f.ncpu ≤ NCPU) (h : walk b e turns p f = some (.ok g)) :
    ∃ n, f.ncpu + n ≤ NCPU ∧ Entries b e p n := by
  induction turns generalizing p f with
  | zero => cases h
  | succ turns ih =>
    rw [walk] at h
    by_cases hp : p < e
    · rw [if_pos hp, entry] at h
      by_cases hproc : b p = MPPROC
      · rw [if_pos hproc] at h
        by_cases hroom : f.ncpu < NCPU
        · rw [if_pos hroom] at h
          obtain ⟨n, hn, hrest⟩ := ih (by simp only; omega) h
          simp only at hn
          exact ⟨n + 1, by omega, .proc hp hproc hrest⟩
        · rw [if_neg hroom] at h
          cases h
      · rw [if_neg hproc] at h
        by_cases hio : b p = MPIOAPIC
        · rw [if_pos hio] at h
          obtain ⟨n, hn, hrest⟩ := ih (f := { f with ioapicid := b (p + 1) }) hf h
          exact ⟨n, hn, .other hp (.inr (.inl hio)) hrest⟩
        · rw [if_neg hio] at h
          by_cases hother : b p = MPBUS ∨ b p = MPIOINTR ∨ b p = MPLINTR
          · rw [if_pos hother] at h
            obtain ⟨n, hn, hrest⟩ := ih hf h
            exact ⟨n, hn, .other hp (by tauto) hrest⟩
          · -- The turn has left `p` where it was.
            rw [if_neg hother] at h
            exact ih (f := { f with ismp := false }) hf h
    · exact ⟨0, hf, .done (by omega)⟩

theorem mpinit_ok (hconf : mpconfig b = true) :
    (∃ turns g, mpinit turns b = some (.ok g)) ↔
      ∃ turns g, walk b b.length turns MPCONFSZ ⟨true, 0, 0, 0⟩ = some (.ok g) := by
  have hrun : ∀ turns, mpinit turns b =
      (walk b b.length turns MPCONFSZ ⟨true, 0, 0, 0⟩).map fun r =>
        r.map fun f => if f.ismp then f else { f with ncpu := 1, ioapicid := 0 } :=
    fun turns => if_pos hconf
  constructor
  · rintro ⟨turns, g, h⟩
    rw [hrun] at h
    obtain ⟨r, hwalk, hr⟩ := Option.map_eq_some_iff.mp h
    cases r with
    | error u => cases hr
    | ok f => exact ⟨turns, f, hwalk⟩
  · rintro ⟨turns, g, h⟩
    exact ⟨turns, _, by rw [hrun, h]; rfl⟩

end

/-- `mpinit` returns with all its stores inside of `cpus` just if the table, where it is accepted,
consists of entries of known types with at most `NCPU` processors among them. -/
theorem mpinit_returns_iff (b : Table) :
    (∃ turns f, mpinit turns b = some (.ok f)) ↔
      (mpconfig b = true → ∃ n ≤ NCPU, Entries b b.length MPCONFSZ n) := by
  by_cases hconf : mpconfig b = true
  · rw [mpinit_ok hconf]
    constructor
    · rintro ⟨turns, g, h⟩ _
      obtain ⟨n, hn, hentries⟩ := entries_of_walk (Nat.zero_le _) h
      exact ⟨n, by simpa using hn, hentries⟩
    · intro h
      obtain ⟨n, hn, hentries⟩ := h hconf
      exact walk_of_entries hentries (by simpa using hn)
  · refine iff_of_true ⟨0, ⟨false, 0, 0, 0⟩, ?_⟩ fun h => absurd h hconf
    rw [mpinit, if_neg hconf]

/-- A table with one byte behind the header. -/
def stuckTable : Table := fun i =>
  [80, 67, 77, 80, 45, 0, 1, 157].getD i (if i = 44 then 5 else 0)

/-- The type of its entry is not known, and the loop does not come to an end. -/
theorem mpinit_stuck : mpconfig stuckTable = true ∧ ∀ turns, mpinit turns stuckTable = none := by
  have hconf : mpconfig stuckTable = true := by decide
  refine ⟨hconf, fun turns => ?_⟩
  have hwalk : ∀ turns f, walk stuckTable 45 turns MPCONFSZ f = none := by
    intro turns
    induction turns with
    | zero => exact fun _ => rfl
    | succ turns ih => exact fun f => ih { f with ismp := false }
  rw [mpinit, if_pos hconf]
  exact congrArg (Option.map _) (hwalk turns _)

end Xv6.Mp
