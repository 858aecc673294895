import Xv6.Vm.Free

/-!
# Memory after a failed call

`fork` and `exec` take pages for the new address space, and on failure give back the pages that they
find in it. The pages that are not entered in it when `walkpgdir` finds no page for a page table are
lost: the whole directory in `setupkvm`, the new page in `allocuvm` and `copyuvm`.
-/

namespace Xv6.Vm

open Lib Act

variable {im : Layout} {h : Nat → Int}

/-! ## User memory -/

variable {newsz sz addr offset uva : Word} {d parent : Pgdir} {rd : Reader}
    {argv : List (List UInt8)}

theorem allocuvmLoop_moves (hsz : newsz.toNat ≤ KERNBASE) (turns : Nat) :
    ∀ {d : Pgdir} {g : Nat}, g < 2 ^ 20 →
    Moves (allocuvmLoop turns d (pageAddr g) newsz : V im (Pgdir × Bool)) (held d + h)
      (fun r h' => held r.1 + h = h') True := by
  induction turns with
  | zero => exact fun _ => moves_pure rfl
  | succ turns ih =>
    intro d g hg
    rw [allocuvmLoop]
    refine moves_ite ?_ fun _ => moves_pure rfl
    intro hlt
    rw [pageAddr_lt_iff hg] at hlt
    have huser : g < KERNBASE / PGSIZE := by
      simp only [PGSIZE, KERNBASE] at *
      omega
    apply kalloc_moves.bind
    rintro (_ | p) _ ⟨rfl, hp⟩
    · exact moves_pure (by simp)
    · apply (moves_emit (by simp)).bind
      rintro _ _ rfl
      apply moves_store.bind
      rintro _ _ rfl
      apply (mappages_page_moves huser (hp p rfl) (by decide)).bind
      rintro ⟨d', ok⟩ _ ⟨rfl, -⟩
      rw [pageAddr_succ]
      exact ih (lt_of_le_of_lt huser (by decide))

theorem allocuvm_moves {oldsz : Word} :
    Moves (allocuvm im d oldsz newsz) (held d + h) (fun r h' => held r.1 + h = h') True := by
  unfold allocuvm
  refine moves_ite (fun _ => moves_pure rfl) fun hnew => ?_
  refine moves_ite (fun _ => moves_pure rfl) fun hold => ?_
  rw [BitVec.le_def, not_le] at hnew
  rw [BitVec.lt_def, not_lt] at hold
  have hsz : newsz.toNat ≤ KERNBASE := hnew.le
  rw [PGROUNDUP_eq (le_trans hold hsz)]
  refine (allocuvmLoop_moves hsz _ ?_).bind ?_
  · simp only [PGSIZE, KERNBASE] at *
    omega
  · rintro ⟨d', ok⟩ _ rfl
    refine moves_ite (fun _ => moves_pure rfl) fun _ => ?_
    apply (deallocuvm_moves hsz fun _ => trivial).bind
    rintro ⟨d'', sz⟩ _ ⟨rfl, -⟩
    exact moves_pure rfl

/-- The pages of the kernel are mapped in the new directory, so the loop of `copyuvm` does not get
past the user's. -/
theorem copyuvmLoop_moves (pages : Nat) : ∀ {d : Pgdir} {k : Nat},
    k ≤ KERNBASE / PGSIZE → present (d.entry (KERNBASE / PGSIZE)) = true →
    Moves (copyuvmLoop parent pages d k : V im (Pgdir × Bool)) (held d + h)
      (fun r h' => held r.1 + h = h') True := by
  induction pages with
  | zero => exact fun _ _ => moves_pure rfl
  | succ pages ih =>
    intro d k hk hkernel
    rw [copyuvmLoop]
    apply walkpgdir_moves.bind
    rintro r _ ⟨rfl, ⟨rfl, -⟩ | ⟨t, rfl, -⟩⟩
    · exact moves_panic trivial
    · refine moves_ite (fun _ => moves_panic trivial) fun _ => ?_
      apply kalloc_moves.bind
      rintro (_ | p) _ ⟨rfl, hp⟩
      · exact moves_pure (by simp)
      · refine moves_get_bind fun s => ?_
        apply moves_store.bind
        rintro _ _ rfl
        rcases Nat.lt_or_eq_of_le hk with hlt | rfl
        · apply (mappages_page_moves hlt (hp p rfl) (PTE_FLAGS_lt _)).bind
          rintro ⟨d', ok⟩ _ ⟨rfl, hsame⟩
          refine moves_ite (fun _ => ?_) fun _ => moves_pure rfl
          apply ih hlt
          rw [hsame _ hlt.ne']
          exact hkernel
        · constructor
          intro s
          refine Ends.bind (Ends.weaken (mappages_ends (covers_page (by decide))) fun _ _ => trivial) ?_
          intro r s' es hr
          rw [hr.absent] at hkernel
          exact absurd hkernel Bool.false_ne_true

theorem copyuvm_moves : Moves (copyuvm im parent sz) h (fun r h' => r = none → h = h') True := by
  unfold copyuvm
  apply setupkvm_moves.bind
  rintro r _ (⟨rfl, rfl⟩ | ⟨d, rfl, hbare, rfl⟩)
  · exact moves_pure fun _ => rfl
  · apply (copyuvmLoop_moves _ (Nat.zero_le _) hbare.first).bind
    rintro ⟨d', ok⟩ _ rfl
    refine moves_ite (fun _ => moves_pure (by simp)) fun _ => ?_
    apply (freevm_moves fun _ => trivial).bind
    rintro _ _ rfl
    exact moves_pure fun _ => rfl

/-! ## Access to user memory -/

theorem loaduvmLoop_moves (turns : Nat) :
    ∀ {i : Nat}, Moves (loaduvmLoop rd d addr offset sz turns i : V im Bool) h
      (fun _ h' => h = h') True := by
  induction turns with
  | zero => exact moves_pure rfl
  | succ turns ih =>
    intro i
    rw [loaduvmLoop]
    refine moves_ite (fun _ => ?_) fun _ => moves_pure rfl
    apply walkpgdir_moves.bind
    rintro r _ ⟨rfl, ⟨rfl, -⟩ | ⟨t, rfl, -⟩⟩
    · exact moves_panic trivial
    · apply (moves_emit (by simp)).bind
      rintro _ _ rfl
      refine moves_ite (fun _ => moves_undefined trivial) fun _ => ?_
      refine moves_get_bind fun s => ?_
      apply moves_store.bind
      rintro _ _ rfl
      exact moves_ite (fun _ => ih) fun _ => moves_pure rfl

theorem loaduvm_moves :
    Moves (loaduvm rd d addr offset sz : V im Bool) h (fun _ h' => h = h') True :=
  moves_ite (fun _ => moves_panic trivial) fun _ => loaduvmLoop_moves _

theorem uva2ka_moves : Moves (uva2ka d uva : V im (Option Nat)) h (fun _ h' => h = h') True := by
  unfold uva2ka
  apply walkpgdir_moves.bind
  rintro r _ ⟨rfl, ⟨rfl, -⟩ | ⟨t, rfl, -⟩⟩
  · exact moves_undefined trivial
  · refine moves_ite (fun _ => moves_pure rfl) fun _ => ?_
    exact moves_ite (fun _ => moves_pure rfl) fun _ => moves_pure rfl

theorem copyoutLoop_moves (turns : Nat) : ∀ {va : Word} {bs : List UInt8},
    Moves (copyoutLoop d turns va bs : V im Bool) h (fun _ h' => h = h') True := by
  induction turns with
  | zero => exact moves_pure rfl
  | succ turns ih =>
    intro va bs
    rw [copyoutLoop]
    refine moves_ite (fun _ => moves_pure rfl) fun _ => ?_
    apply uva2ka_moves.bind
    rintro (_ | p) _ rfl
    · exact moves_pure rfl
    · refine moves_get_bind fun s => ?_
      apply moves_store.bind
      rintro _ _ rfl
      exact ih

theorem clearpteu_moves :
    Moves (clearpteu d uva : V im Pgdir) (held d + h) (fun d' h' => held d' + h = h') True := by
  unfold clearpteu
  apply walkpgdir_moves.bind
  rintro r _ ⟨rfl, ⟨rfl, -⟩ | ⟨t, rfl, ht⟩⟩
  · exact moves_panic trivial
  · apply moves_pure
    have hshare : ∀ g, share g (d.pte uva &&& ~~~PTE_U) = share g (d.pte uva) := by
      intro g
      rw [share, share, frameMark, frameMark, present_clear, PTE_ADDR_clear]
    rw [held_setPte ht, hshare, sub_add_cancel]

/-! ## `exec` and `fork` -/

theorem loadSegment_moves {ph : Proghdr} :
    Moves (loadSegment im rd ph d sz) (held d + h) (fun r h' => held r.1 + h = h') True := by
  unfold loadSegment
  refine moves_ite (fun _ => moves_pure rfl) fun _ => ?_
  refine moves_ite (fun _ => moves_pure rfl) fun _ => ?_
  apply allocuvm_moves.bind
  rintro ⟨d', sz'⟩ _ rfl
  refine moves_ite (fun _ => moves_pure rfl) fun _ => ?_
  apply loaduvm_moves.bind
  rintro _ _ rfl
  exact moves_ite (fun _ => moves_pure rfl) fun _ => moves_pure rfl

theorem loadNext_moves {off : Word} :
    Moves (loadNext im rd off d sz) (held d + h) (fun r h' => held r.1 + h = h') True := by
  unfold loadNext
  cases rd off.toNat PROGHDRSZ with
  | none => exact moves_pure rfl
  | some bs => exact moves_ite (fun _ => moves_pure rfl) fun _ => loadSegment_moves

theorem loadSegments_moves (phnum : Nat) : ∀ {off sz : Word} {d : Pgdir},
    Moves (loadSegments im rd phnum off d sz) (held d + h) (fun r h' => held r.1 + h = h') True := by
  induction phnum with
  | zero => exact moves_pure rfl
  | succ phnum ih =>
    intro off sz d
    rw [loadSegments]
    apply loadNext_moves.bind
    rintro ⟨d', _ | sz'⟩ _ rfl
    · exact moves_pure rfl
    · exact ih

theorem pushArgs_moves (args : List (List UInt8)) : ∀ {argc : Nat} {sp : Word}
    {ustack : List Word}, Moves (pushArgs d args argc sp ustack : V im _) h
      (fun _ h' => h = h') True := by
  induction args with
  | nil => exact moves_pure rfl
  | cons arg args ih =>
    intro argc sp ustack
    rw [pushArgs]
    refine moves_ite (fun _ => moves_pure rfl) fun _ => ?_
    apply (copyoutLoop_moves _).bind
    rintro _ _ rfl
    exact moves_ite (fun _ => ih) fun _ => moves_pure rfl

theorem setupStack_moves {entry : Word} :
    Moves (setupStack im argv entry d sz) (held d + h) (fun r h' => held r.1 + h = h') True := by
  unfold setupStack
  apply allocuvm_moves.bind
  rintro ⟨d', sz'⟩ _ rfl
  refine moves_ite (fun _ => moves_pure rfl) fun _ => ?_
  apply clearpteu_moves.bind
  rintro d'' _ rfl
  apply (pushArgs_moves _).bind
  rintro (_ | ⟨sp, ustack⟩) _ rfl
  · exact moves_pure rfl
  · apply (copyoutLoop_moves _).bind
    rintro _ _ rfl
    exact moves_ite (fun _ => moves_pure rfl) fun _ => moves_pure rfl

theorem buildImage_moves {elf : Elfhdr} :
    Moves (buildImage im rd elf argv d) (held d + h) (fun r h' => held r.1 + h = h') True := by
  unfold buildImage
  apply (loadSegments_moves _).bind
  rintro ⟨d', _ | sz⟩ _ rfl
  · exact moves_pure rfl
  · exact setupStack_moves

theorem exec_moves {stack : List UInt8} {old : Pgdir} :
    Moves (exec im rd stack argv old) h (fun r h' => r = none → h = h') True := by
  unfold exec
  cases readHeader rd stack with
  | none => exact moves_pure fun _ => rfl
  | some elf =>
    apply setupkvm_moves.bind
    rintro r _ (⟨rfl, rfl⟩ | ⟨d, rfl, -, rfl⟩)
    · exact moves_pure fun _ => rfl
    · apply buildImage_moves.bind
      rintro ⟨d, _ | image⟩ _ rfl
      · apply (freevm_moves fun _ => trivial).bind
        rintro _ _ rfl
        exact moves_pure fun _ => rfl
      · rw [show held d + h = held old + (held d + h - held old) by abel]
        apply (freevm_moves fun _ => trivial).bind
        rintro _ _ rfl
        exact moves_pure (by simp)

theorem fork_moves {t : Ptable} : Moves (fork im t parent sz) h (fun r h' => r = none → h = h')
    True := by
  unfold fork
  split
  · exact moves_pure fun _ => rfl
  · apply kalloc_moves.bind
    rintro (_ | p) _ ⟨rfl, -⟩
    · exact moves_pure (by simp)
    · apply copyuvm_moves.bind
      rintro (_ | d) h' heq
      · rw [← heq rfl]
        apply (kfree_moves fun _ => trivial).bind
        rintro _ _ rfl
        exact moves_pure fun _ => rfl
      · exact moves_pure (by simp)

/-! ## The two calls -/

/-- A call that makes an address space. -/
inductive MemCall where
  | fork (t : Ptable) (parent : Pgdir) (sz : Word)
  | exec (rd : Reader) (stack : List UInt8) (argv : List (List UInt8)) (old : Pgdir)

/-- The call; the result is false for -1. -/
def MemCall.run (im : Layout) : MemCall → V im Bool
  | .fork t parent sz => do
    let r ← Vm.fork im t parent sz
    return r.isSome
  | .exec rd stack argv old => do
    let r ← Vm.exec im rd stack argv old
    return r.isSome

theorem MemCall.run_moves (c : MemCall) :
    Moves (c.run im) h (fun ok h' => ok = false → h = h') True := by
  cases c with
  | fork t parent sz =>
    apply fork_moves.bind
    rintro (_ | r) h' heq
    · exact moves_pure fun _ => heq rfl
    · exact moves_pure (by simp)
  | exec rd stack argv old =>
    apply exec_moves.bind
    rintro (_ | r) h' heq
    · exact moves_pure fun _ => heq rfl
    · exact moves_pure (by simp)

theorem MemCall.perm_iff {c : MemCall} {s s' : Kmem im} {es : List VmEvent}
    (hrun : c.run im s = .ok false s' es) : s'.freelist.Perm s.freelist ↔ .tableFail ∉ es := by
  obtain ⟨h', hb, heq⟩ := ((c.run_moves (h := 0)).ends s).of_ok hrun
  rw [← heq rfl] at hb
  exact hb.perm_iff

/-- A failed call gives back every page that it took, exactly if `walkpgdir` did not fail to get a
page for a page table in it. -/
theorem failed_call_returns_pages_iff (c : MemCall) (s : Kmem im) :
    (∀ s' es, c.run im s = .ok false s' es → s'.freelist.Perm s.freelist) ↔
      ∀ s' es, c.run im s = .ok false s' es → .tableFail ∉ es := by
  constructor
  · intro hperm s' es hrun
    exact (MemCall.perm_iff hrun).mp (hperm s' es hrun)
  · intro hno s' es hrun
    exact (MemCall.perm_iff hrun).mpr (hno s' es hrun)

/-- A kernel of 32 pages. -/
def sampleLayout : Layout where
  data := 0x108000
  kend := 0x120000
  aligned := by decide
  above := by decide
  below := by decide
  order := by decide

/-- Two free pages. -/
def twoPages : Kmem sampleLayout where
  freelist := [0x201, 0x200]
  mem := fun _ => Bytes.zero PGSIZE
  physical := by decide

/-- With two free pages `fork` takes one for the kernel stack and one for the page directory, and
there is none for the first page table: only the stack is given back. -/
theorem fork_loses_pgdir : ∃ s' es,
    (MemCall.fork .empty (emptyDir 0x300) 0x1000).run sampleLayout twoPages = .ok false s' es ∧
      ¬ s'.freelist.Perm twoPages.freelist := by
  refine ⟨_, _, rfl, ?_⟩
  decide

end Xv6.Vm
