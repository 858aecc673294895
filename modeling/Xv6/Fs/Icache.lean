import Mathlib.Logic.Function.Basic
import Xv6.Procfs.Listing

/-!
# The inode cache

The sections of `fs.c` that run under `icache.lock`, and `procfsiread`, as functions on the
table `icache.inode`.
-/

namespace Xv6

open Function

/-- `icache.inode`. -/
abbrev Icache : Type := Fin NINODE → Inode

/-- The cache as the kernel is loaded. -/
def Icache.empty : Icache := fun _ => .empty

/-- The entry in use for an inode, the first test of `iget`'s loop. -/
def igetCached (ic : Icache) (dev inum : Nat) : Option (Fin NINODE) :=
  (List.finRange NINODE).find? fun e =>
    decide (0 < (ic e).ref) && decide ((ic e).dev = dev) && decide ((ic e).inum = inum)

/-- The first free entry, the second test of the loop. -/
def igetEmpty (ic : Icache) : Option (Fin NINODE) :=
  (List.finRange NINODE).find? fun e => decide ((ic e).ref = 0)

/-- `iget` (`fs.c:223-255`); `none` is the panic "iget: no inodes". -/
def iget (ic : Icache) (dev inum : Nat) : Option (Fin NINODE × Icache) :=
  match igetCached ic dev inum with
  | some e => some (e, update ic e { ic e with ref := (ic e).ref + 1 })
  | none => (igetEmpty ic).map fun e =>
    (e, update ic e
      { ic e with dev := dev, inum := inum, ref := 1, busy := false, valid := false })

/-- `procfsiread` (`procfs.c:199-212`). -/
def procfsiread (ip : Inode) : Inode :=
  { ip with
    d := { ip.d with
      type := T_DEV
      major := BitVec.ofInt 16 PROCFS
      size := 0
      nlink := 1
      minor := procfsMinor ip.inum }
    busy := false
    valid := true
    ref := 1 }

variable {ic : Icache} {dev inum : Nat} {e : Fin NINODE}

theorem igetCached_eq_some (h : igetCached ic dev inum = some e) :
    0 < (ic e).ref ∧ (ic e).dev = dev ∧ (ic e).inum = inum := by
  have := List.find?_some h
  simpa [and_assoc] using this

theorem igetCached_eq_none (h : igetCached ic dev inum = none) (e : Fin NINODE) :
    ¬ (0 < (ic e).ref ∧ (ic e).dev = dev ∧ (ic e).inum = inum) := by
  have := List.find?_eq_none.mp h e (List.mem_finRange e)
  simpa [and_assoc] using this

theorem igetEmpty_eq_some (h : igetEmpty ic = some e) : (ic e).ref = 0 := by
  have := List.find?_some h
  simpa using this

/-- What `iget` does: it takes another reference, or it fills a free entry. -/
theorem iget_eq_some {ic' : Icache} (h : iget ic dev inum = some (e, ic')) :
    (0 < (ic e).ref ∧ (ic e).dev = dev ∧ (ic e).inum = inum ∧
      ic' = update ic e { ic e with ref := (ic e).ref + 1 }) ∨
    ((∀ j, ¬ (0 < (ic j).ref ∧ (ic j).dev = dev ∧ (ic j).inum = inum)) ∧ (ic e).ref = 0 ∧
      ic' = update ic e
        { ic e with dev := dev, inum := inum, ref := 1, busy := false, valid := false }) := by
  unfold iget at h
  split at h
  · rename_i hc
    obtain ⟨rfl, rfl⟩ := Prod.mk.inj (Option.some.inj h)
    obtain ⟨h1, h2, h3⟩ := igetCached_eq_some hc
    exact .inl ⟨h1, h2, h3, rfl⟩
  · rename_i hc
    obtain ⟨x, hx, heq⟩ := Option.map_eq_some_iff.mp h
    obtain ⟨rfl, rfl⟩ := Prod.mk.inj heq
    exact .inr ⟨igetCached_eq_none hc, igetEmpty_eq_some hx, rfl⟩

end Xv6
