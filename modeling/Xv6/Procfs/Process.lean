import Xv6.Procfs.Listing

/-!
# Which process a procfs node reports

`status`, `fdinfo` and `filesContent` take the process number out of the inode number and use
it as an index into `ptable.proc`. In every reachable table a slot's pid exceeds its index, so
the slot they read is never the one of the process.
-/

namespace Xv6

open Lib

variable {t : Ptable} {k : Fin NPROC} {inum : Nat}

/-- The slot with the pid of `k` as its index is not slot `k`. -/
theorem getProc_ne_slot (h : t.Numbered) (hk : (t.proc k).state ≠ .unused)
    (hinum : ((inum / 700 : Nat) : Int) = (t.proc k).pid) {j : Fin NPROC}
    (hj : Ptable.getProc (inum / 700) = some j) :
    (t.proc j).pid ≠ (t.proc k).pid ∧ j ≠ k := by
  have hpos := (h.inUse k hk).1
  have hne := h.getProc_ne (p := inum / 700) (by omega) hj
  rw [hinum] at hne
  exact ⟨hne, fun heq => hne (by rw [heq])⟩

/-- The readers look at the process table only through the slot that `getProc` names. -/
theorem readers_set {q : Proc} (hk : ∀ j, Ptable.getProc (inum / 700) = some j → j ≠ k)
    (ftable : Fin NFILE → File) (icache : Fin NINODE → Inode) :
    status (t.set k q) inum = status t inum ∧ fdinfo (t.set k q) inum = fdinfo t inum ∧
    filesContent (t.set k q) ftable icache inum = filesContent t ftable icache inum := by
  cases hj : Ptable.getProc (inum / 700) with
  | none => simp [status, fdinfo, filesContent, hj]
  | some j =>
    have hproc : (t.set k q).proc j = t.proc j := Function.update_of_ne (hk j hj) _ _
    simp only [status, fdinfo, filesContent, hj, Option.bind_eq_bind, Option.bind_some, hproc,
      and_self]

/-- In no reachable table, for no process in use and none of the inode numbers under its
directory, do `status`, `fdinfo` and `filesContent` use the slot with its pid: if they stay inside
the table at all they use a slot with another pid, and what they return does not depend on the
process. -/
theorem procfs_reads_other_slot {ls : List ProcStep}
    (hrun : runFrom Ptable.step ls .empty = some t) (hk : (t.proc k).state ≠ .unused)
    (hinum : ((inum / 700 : Nat) : Int) = (t.proc k).pid) :
    (∀ j, Ptable.getProc (inum / 700) = some j → (t.proc j).pid ≠ (t.proc k).pid) ∧
    ∀ (q : Proc) (ftable : Fin NFILE → File) (icache : Fin NINODE → Inode),
      status (t.set k q) inum = status t inum ∧ fdinfo (t.set k q) inum = fdinfo t inum ∧
      filesContent (t.set k q) ftable icache inum = filesContent t ftable icache inum := by
  have hne := fun j (hj : Ptable.getProc (inum / 700) = some j) =>
    getProc_ne_slot (Ptable.Numbered.run hrun) hk hinum hj
  exact ⟨fun j hj => (hne j hj).1, fun q ftable icache =>
    readers_set (fun j hj => (hne j hj).2) ftable icache⟩

/-- `/proc/1/status` reports the free slot 1, not the first process. -/
theorem procfs_status_of_init :
    let t := Ptable.booted none
    runFrom Ptable.step [.userinit none] .empty = some t ∧
    (t.proc ⟨0, by decide⟩).pid = 1 ∧ (t.proc ⟨0, by decide⟩).state = .runnable ∧
    Ptable.getProc (710 / 700) = some ⟨1, by decide⟩ ∧
    (t.proc ⟨1, by decide⟩).pid = 0 ∧ status t 710 = some (cstr "Status: UNUSED Size: 0\n") := by
  refine ⟨rfl, by decide, by decide, by decide, by decide, by decide⟩

theorem procfs_reads_other_slot_of_init :
    Ptable.getProc (710 / 700) = some ⟨1, by decide⟩ ∧
      ((Ptable.booted none).proc ⟨1, by decide⟩).pid ≠
        ((Ptable.booted none).proc ⟨0, by decide⟩).pid := by
  have hrun : runFrom Ptable.step [.userinit none] .empty = some (.booted none) := rfl
  have hslot : Ptable.getProc (710 / 700) = some ⟨1, by decide⟩ := by decide
  exact ⟨hslot, (procfs_reads_other_slot hrun (by decide) (by decide)).1 _ hslot⟩

end Xv6
