import Xv6.Param
import Xv6.Lib.Outcome

/-! The buffer cache (`bio.c`) over the in-memory disk (`memide.c`). The cache is the array `bcache.buf`
    together with the order of the list through `bcache.head`, most recently used buffer first; a buffer
    pointer is an index into the array. -/

namespace Xv6

/-- `struct buf`; the three bits of `flags` are fields of their own. -/
structure Buf where
  busy : Bool := false
  valid : Bool := false
  dirty : Bool := false
  dev : Nat
  blockno : Nat := 0
  data : Block := Bytes.Buffer.zero

/-- The `dev` of a buffer that caches nothing yet, `(uint)-1`. -/
abbrev NODEV : Nat := 2 ^ 32 - 1

abbrev BufIdx := Fin NBUF

structure Store where
  disk : Nat → Block
  disksize : Nat
  buf : BufIdx → Buf
  /-- The buffers in the order of `bcache.head.next`, `->next`, ... -/
  lru : List BufIdx

namespace Store

/-- `binit`: every buffer is inserted at the head in turn, so the last one of the array comes first. -/
def binit (disk : Nat → Block) (disksize : Nat) : Store where
  disk := disk
  disksize := disksize
  buf := fun _ => { dev := NODEV }
  lru := (List.finRange NBUF).reverse

def setBuf (st : Store) (i : BufIdx) (b : Buf) : Store := { st with buf := Function.update st.buf i b }

def caches (st : Store) (dev blockno : Nat) (i : BufIdx) : Bool :=
  (st.buf i).dev == dev && (st.buf i).blockno == blockno

/-- `bget`: the buffer of the block, made busy; a busy one has to be waited for, and if the block is not
    cached the least recently used buffer that is neither busy nor dirty is recycled. -/
def bget (st : Store) (dev blockno : Nat) : Outcome (BufIdx × Store) :=
  match st.lru.find? (st.caches dev blockno) with
  | some i =>
    if (st.buf i).busy then .sleep
    else .ok (i, st.setBuf i { st.buf i with busy := true })
  | none =>
    match st.lru.reverse.find? fun i => !(st.buf i).busy && !(st.buf i).dirty with
    | some i =>
      .ok (i, st.setBuf i
        { st.buf i with dev := dev, blockno := blockno, busy := true, valid := false, dirty := false })
    | none => .panic "bget: no buffers"

/-- `iderw` of `memide.c`: write a dirty buffer to its block, read an invalid one from it. -/
def iderw (st : Store) (i : BufIdx) : Outcome Store :=
  let b := st.buf i
  if b.busy = false then .panic "iderw: buf not busy"
  else if b.valid = true ∧ b.dirty = false then .panic "iderw: nothing to do"
  else if b.dev ≠ ROOTDEV then .panic "iderw: request not for disk 1"
  else if st.disksize ≤ b.blockno then .panic "iderw: block out of range"
  else if b.dirty then
    .ok { st.setBuf i { b with dirty := false, valid := true } with
      disk := Function.update st.disk b.blockno b.data }
  else .ok (st.setBuf i { b with data := st.disk b.blockno, valid := true })

def bread (st : Store) (dev blockno : Nat) : Outcome (BufIdx × Store) := do
  let (i, st) ← st.bget dev blockno
  if (st.buf i).valid then pure (i, st)
  else
    let st ← st.iderw i
    pure (i, st)

def bwrite (st : Store) (i : BufIdx) : Outcome Store :=
  if (st.buf i).busy = false then .panic "bwrite"
  else (st.setBuf i { st.buf i with dirty := true }).iderw i

/-- `brelse`: give a busy buffer back and move it to the head of the list. -/
def brelse (st : Store) (i : BufIdx) : Outcome Store :=
  if (st.buf i).busy = false then .panic "brelse"
  else .ok { st.setBuf i { st.buf i with busy := false } with lru := i :: st.lru.erase i }

def setData (st : Store) (i : BufIdx) (data : Block) : Store := st.setBuf i { st.buf i with data := data }

end Store
end Xv6
