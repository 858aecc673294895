import Mathlib.Logic.Function.Basic
import Mathlib.Data.Fin.Basic
import Xv6.Param
import Xv6.Lib.Bytes
import Xv6.Lib.Prog

/-!
# The buffer cache

`bio.c` over the disk of `memide.c`. Buffers are named by their index in `bcache.buf`, so a
`struct buf *` stays valid while the buffer moves in the list; `mru` is the list that starts at
`bcache.head.next`. A `bget` that would sleep stops with `Halt.sleep`: the machine is left as it
was, and the caller tries again later.
-/

namespace Xv6

open Function

open Lib

/-- The contents of one disk sector. -/
abbrev Block : Type := Bytes BSIZE

/-- `struct buf` (`buf.h`) without the list links. The three flag bits are three fields, and
`dev` is `none` for the `-1` that `binit` stores. -/
structure Buf where
  dev : Option Nat
  sector : Nat
  busy : Bool
  valid : Bool
  dirty : Bool
  data : Block

/-- `bcache` and the counters beside it (`bio.c:31-43`). -/
structure Bcache where
  buf : Fin NBUF → Buf
  mru : List (Fin NBUF)
  freeBlockNumber : Int
  numberOfHits : Int
  numberOfBlockAcsses : Int

/-- The disk, `memide.c`'s `disksize`, and the cache in front of it. -/
structure Store where
  disk : Nat → Block
  disksize : Nat
  bcache : Bcache

/-- `binit` (`bio.c:45-68`): each buffer is linked in at the head in turn. -/
def binit : Bcache where
  buf := fun _ => { dev := none, sector := 0, busy := false, valid := false, dirty := false,
                    data := Bytes.zero BSIZE }
  mru := (List.finRange NBUF).reverse
  freeBlockNumber := NBUF
  numberOfHits := 0
  numberOfBlockAcsses := 0

namespace Store

/-- Buffer `b`. -/
def buf (st : Store) (b : Fin NBUF) : Buf := st.bcache.buf b

/-- Change one buffer. -/
def setBuf (st : Store) (b : Fin NBUF) (v : Buf) : Store :=
  { st with bcache := { st.bcache with buf := update st.bcache.buf b v } }

@[simp] theorem setBuf_disk (st : Store) (b : Fin NBUF) (v : Buf) :
    (st.setBuf b v).disk = st.disk := rfl
@[simp] theorem setBuf_mru (st : Store) (b : Fin NBUF) (v : Buf) :
    (st.setBuf b v).bcache.mru = st.bcache.mru := rfl
@[simp] theorem setBuf_buf (st : Store) (b : Fin NBUF) (v : Buf) :
    (st.setBuf b v).buf = update st.buf b v := rfl

end Store

/-- The test of `bget`'s first loop. -/
def isCached (c : Bcache) (dev sector : Nat) (b : Fin NBUF) : Bool :=
  decide ((c.buf b).dev = some dev) && decide ((c.buf b).sector = sector)

/-- The test of `bget`'s second loop. -/
def isRecyclable (c : Bcache) (b : Fin NBUF) : Bool := !(c.buf b).busy && !(c.buf b).dirty

/-- `bget` (`bio.c:73-117`). -/
def bget (dev sector : Nat) : Prog Store (Fin NBUF) := fun st =>
  let c := { st.bcache with numberOfBlockAcsses := st.bcache.numberOfBlockAcsses + 1 }
  match c.mru.find? (isCached c dev sector) with
  | some b =>
    if (c.buf b).busy then .halt .sleep
    else .ok b { st with bcache := { c with
      buf := update c.buf b { c.buf b with busy := true }
      numberOfHits := c.numberOfHits + 1
      freeBlockNumber := c.freeBlockNumber - 1 } }
  | none =>
    match c.mru.reverse.find? (isRecyclable c) with
    | some b => .ok b { st with bcache := { c with
        buf := update c.buf b
          { c.buf b with dev := some dev, sector := sector, busy := true, valid := false,
                         dirty := false }
        freeBlockNumber := c.freeBlockNumber - 1 } }
    | none => .halt (.panic "bget: no buffers")

/-- `iderw` of the in-memory disk (`memide.c:36-58`). -/
def iderw (b : Fin NBUF) : Prog Store Unit := fun st =>
  let v := st.buf b
  if ¬ v.busy then .halt (.panic "iderw: buf not busy")
  else if v.valid ∧ ¬ v.dirty then .halt (.panic "iderw: nothing to do")
  else if v.dev ≠ some ROOTDEV then .halt (.panic "iderw: request not for disk 1")
  else if v.sector ≥ st.disksize then .halt (.panic "iderw: sector out of range")
  else if v.dirty then
    .ok () { st.setBuf b { v with dirty := false, valid := true } with
      disk := update st.disk v.sector v.data }
  else .ok () (st.setBuf b { v with data := st.disk v.sector, valid := true })

/-- `bread` (`bio.c:120-129`). -/
def bread (dev sector : Nat) : Prog Store (Fin NBUF) := do
  let b ← bget dev sector
  let st ← Prog.get
  if (st.buf b).valid then
    return b
  else
    iderw b
    return b

/-- `bwrite` (`bio.c:132-139`). -/
def bwrite (b : Fin NBUF) : Prog Store Unit := do
  let st ← Prog.get
  if ¬ (st.buf b).busy then
    Prog.panic "bwrite"
  else
    Prog.modify fun st => st.setBuf b { st.buf b with dirty := true }
    iderw b

/-- `brelse` (`bio.c:143-165`). -/
def brelse (b : Fin NBUF) : Prog Store Unit := do
  let st ← Prog.get
  if ¬ (st.buf b).busy then
    Prog.panic "brelse"
  else
    Prog.modify fun st => { st with bcache := { st.bcache with
      buf := update st.bcache.buf b { st.bcache.buf b with busy := false }
      mru := b :: st.bcache.mru.erase b
      freeBlockNumber := st.bcache.freeBlockNumber + 1 } }

/-- Overwrite the data of a buffer the caller holds. -/
def setData (b : Fin NBUF) (data : Block) : Prog Store Unit :=
  Prog.modify fun st => st.setBuf b { st.buf b with data := data }

end Xv6
