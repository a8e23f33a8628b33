import Xv6.Bio
import Xv6.Lib.Links

/-! The buffer cache (`bio.c`) with the pointers of its list, used by any number of processes. `Store` has the list
    itself in their place.

    One step is a section under `bcache.lock` or `log.lock`, or what a process does on a buffer that it holds. -/

namespace Xv6
open Function (update)

/-- `bcache` and the disk; node `none` of the list is `bcache.head`. -/
structure Bcache where
  disk : Nat → Block
  disksize : Nat
  buf : BufIdx → Buf
  links : Links BufIdx

namespace Bcache

def binit (disk : Nat → Block) (disksize : Nat) : Bcache where
  disk := disk
  disksize := disksize
  buf := fun _ => { dev := NODEV }
  links := (List.finRange NBUF).foldl Links.push .empty

def setBuf (c : Bcache) (i : BufIdx) (b : Buf) : Bcache := { c with buf := update c.buf i b }

/-- How `bget` ends: with a buffer, or asleep on one that is busy. -/
inductive Get where
  | got (i : BufIdx) (c : Bcache)
  | wait (i : BufIdx)

/-- `bget` from the label `loop` on, until it returns or sleeps. Each loop ends after `NBUF` buffers at most; it would run
    for ever in a list that does not lead back to the head. -/
def bget (c : Bcache) (dev blockno : Nat) : Outcome Get :=
  match Links.scan c.links.next (fun i => (c.buf i).dev == dev && (c.buf i).blockno == blockno) NBUF (c.links.next none) with
  | none => .sleep
  | some (some i) =>
    if (c.buf i).busy = false then .ok (.got i (c.setBuf i { c.buf i with busy := true }))
    else .ok (.wait i)
  | some none =>
    match Links.scan c.links.prev (fun i => !(c.buf i).busy && !(c.buf i).dirty) NBUF (c.links.prev none) with
    | none => .sleep
    | some (some i) =>
      .ok (.got i (c.setBuf i
        { c.buf i with dev := dev, blockno := blockno, busy := true, valid := false, dirty := false }))
    | some none => .panic "bget: no buffers"

def iderw (c : Bcache) (i : BufIdx) : Outcome Bcache := do
  let st ← Store.iderw { disk := c.disk, disksize := c.disksize, buf := c.buf, lru := [] } i
  pure { c with disk := st.disk, buf := st.buf }

/-- The rest of `bread`, with the buffer that `bget` returned. -/
def fill (c : Bcache) (i : BufIdx) : Outcome Bcache := if (c.buf i).valid = false then c.iderw i else .ok c

def bwrite (c : Bcache) (i : BufIdx) : Outcome Bcache :=
  if (c.buf i).busy = false then .panic "bwrite"
  else (c.setBuf i { c.buf i with dirty := true }).iderw i

def brelse (c : Bcache) (i : BufIdx) : Outcome Bcache :=
  if (c.buf i).busy = false then .panic "brelse"
  else .ok { c.setBuf i { c.buf i with busy := false } with links := (c.links.unlink i).push i }

end Bcache

/-! ### Processes -/

/-- How far a process has come with a buffer: `bget` has returned it, `bread` has returned it (or its changes were written
    or logged), it was changed, or it is inside `log_write` behind the tests made without the lock. -/
inductive Grip where
  | got | read | changed | checked
  deriving DecidableEq

/-- What there is to see of the cache: `bread` has returned contents, or contents were given to a block by `bwrite` or
    `log_write`. -/
inductive Event (Pid : Type) where
  | returned (p : Pid) (blockno : Nat) (data : Block)
  | given (p : Pid) (blockno : Nat) (data : Block)

structure Users (Pid : Type) where
  cache : Bcache
  /-- The buffers that each process holds. -/
  grip : Pid → BufIdx → Option Grip
  /-- The block that the process waits for in `bget`. -/
  waits : Pid → Option (Nat × Nat)
  /-- `log.lh.block[0 .. log.lh.n)` -/
  lh : List Nat
  outstanding : Nat
  /-- Ghost: all events, the last one first. -/
  events : List (Event Pid)

namespace Users
variable {Pid : Type} [DecidableEq Pid]

def setGrip (s : Users Pid) (p : Pid) (i : BufIdx) (g : Option Grip) : Users Pid :=
  { s with grip := update s.grip p (update (s.grip p) i g) }

/-- `bget` by process `p`, from the label `loop` on. -/
def bget (s : Users Pid) (p : Pid) (dev blockno : Nat) : Outcome (Users Pid) := do
  match ← s.cache.bget dev blockno with
  | .got i c => pure { s.setGrip p i (some .got) with cache := c, waits := update s.waits p none }
  | .wait _ => pure { s with waits := update s.waits p (some (dev, blockno)) }

/-- The rest of `bread` by process `p`. -/
def fill (s : Users Pid) (p : Pid) (i : BufIdx) : Outcome (Users Pid) := do
  let c ← s.cache.fill i
  pure { s.setGrip p i (some .read) with
    cache := c, events := .returned p (c.buf i).blockno (c.buf i).data :: s.events }

def bwrite (s : Users Pid) (p : Pid) (i : BufIdx) : Outcome (Users Pid) := do
  let c ← s.cache.bwrite i
  pure { s.setGrip p i (some .read) with
    cache := c, events := .given p (c.buf i).blockno (c.buf i).data :: s.events }

/-- The tests of `log_write`; `size` is `log.size`. -/
def logWriteCheck (size : Nat) (s : Users Pid) (p : Pid) (i : BufIdx) : Outcome (Users Pid) :=
  if s.lh.length ≥ LOGSIZE ∨ s.lh.length ≥ size - 1 then .panic "too big a transaction"
  else if s.outstanding < 1 then .panic "log_write outside of trans"
  else .ok (s.setGrip p i (some .checked))

/-- The part of `log_write` under `log.lock`. -/
def logWriteAbsorb (s : Users Pid) (p : Pid) (i : BufIdx) : Users Pid :=
  let b := s.cache.buf i
  { s.setGrip p i (some .read) with
    cache := s.cache.setBuf i { b with dirty := true }
    lh := if b.blockno ∈ s.lh then s.lh else s.lh ++ [b.blockno]
    events := .given p b.blockno b.data :: s.events }

def brelse (s : Users Pid) (p : Pid) (i : BufIdx) : Outcome (Users Pid) := do
  let c ← s.cache.brelse i
  pure { s.setGrip p i none with cache := c }

inductive Act (Pid : Type) where
  | bread (p : Pid) (dev blockno : Nat)
  | retry (p : Pid)
  | fill (p : Pid) (i : BufIdx)
  | modify (p : Pid) (i : BufIdx) (data : Block)
  | bwrite (p : Pid) (i : BufIdx)
  | logWriteCheck (p : Pid) (i : BufIdx)
  | logWriteAbsorb (p : Pid) (i : BufIdx)
  | brelse (p : Pid) (i : BufIdx)
  | log (lh : List Nat) (outstanding : Nat)

/-- One step. A process touches a buffer only between `bread` and `brelse`, and follows every change with `log_write` or
    `bwrite` before `brelse`; a call out of turn is no step. A sleeper may look again at any time, as `kill` wakes it too.
    `commit` and `recover_from_log` read and write blocks by these same calls. Apart from that `begin_op`, `end_op` and
    `commit` set the fields of the log, which may change in any way. -/
def step (size : Nat) (s : Users Pid) : Act Pid → Outcome (Users Pid)
  | .bread p dev blockno => if s.waits p = none then s.bget p dev blockno else .sleep
  | .retry p =>
    match s.waits p with
    | some (dev, blockno) => s.bget p dev blockno
    | none => .sleep
  | .fill p i => if s.waits p = none ∧ s.grip p i = some .got then s.fill p i else .sleep
  | .modify p i data =>
    if s.waits p = none ∧ (s.grip p i = some .read ∨ s.grip p i = some .changed) then
      .ok { s.setGrip p i (some .changed) with cache := s.cache.setBuf i { s.cache.buf i with data := data } }
    else .sleep
  | .bwrite p i =>
    if s.waits p = none ∧ (s.grip p i = some .read ∨ s.grip p i = some .changed) then s.bwrite p i else .sleep
  | .logWriteCheck p i =>
    if s.waits p = none ∧ (s.grip p i = some .read ∨ s.grip p i = some .changed) then s.logWriteCheck size p i else .sleep
  | .logWriteAbsorb p i => if s.waits p = none ∧ s.grip p i = some .checked then .ok (s.logWriteAbsorb p i) else .sleep
  | .brelse p i => if s.waits p = none ∧ s.grip p i = some .read then s.brelse p i else .sleep
  | .log lh outstanding => .ok { s with lh := lh, outstanding := outstanding }

def start (disk : Nat → Block) (disksize : Nat) : Users Pid where
  cache := .binit disk disksize
  grip := fun _ _ => none
  waits := fun _ => none
  lh := []
  outstanding := 0
  events := []

end Users
end Xv6
