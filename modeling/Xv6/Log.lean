import Xv6.Bio

/-! The redo log (`log.c`) as a machine: any number of processes run file system operations over the buffer
    cache, the last one to leave commits, and a crash at any moment is followed by `recover_from_log`.

    One step is one piece of code that no other process can cut into: a section under `log.lock` or
    `bcache.lock`, or work on a buffer its process holds busy. `log_write` tests the log space before it takes
    `log.lock`, so it is two steps. -/

namespace Xv6
open Bytes
open Function (update)

/-- Where the log lies on disk, as `initlog` reads it from the super block `mkfs` wrote: `mkfs` gives the log
    `LOGSIZE` blocks, and the disk of `memide.c` counts its blocks in an `int`. -/
structure LogCfg where
  start : Nat
  size : Nat
  disksize : Nat
  size_ge : LOGSIZE ≤ size
  fits : start + size ≤ disksize
  disksize_lt : disksize < 2 ^ 31

/-- The log of the image `mkfs` makes: it follows the boot block and the super block. -/
def LogCfg.mkfs : LogCfg where
  start := 2
  size := LOGSIZE
  disksize := FSSIZE
  size_ge := by decide
  fits := by decide
  disksize_lt := by decide

def LogCfg.Home (cfg : LogCfg) (b : Nat) : Prop := b < cfg.start ∨ cfg.start + cfg.size ≤ b

instance (cfg : LogCfg) (b : Nat) : Decidable (cfg.Home b) := inferInstanceAs (Decidable (_ ∨ _))

/-! ### The header block: `n`, then `block[0]`, `block[1]`, ... -/

/-- The block numbers of the header in block `b`; a negative `n` counts as none. -/
def decodeHead (b : Block) : List Nat :=
  let n := b.word 4 0
  if n < 2 ^ 31 then (List.range n).map fun i => b.word 4 (4 + 4 * i) else []

def encodeHead (b : Block) (lh : List Nat) : Block := (b.setWord 4 0 lh.length).setWords 4 4 lh

/-! ### Processes -/

/-- How far the holder of a buffer has come: it has read it (or logged its changes), changed it, or is inside
    `log_write` after the tests made without the lock. -/
inductive Stage where
  | read | changed | checked
  deriving DecidableEq, Repr

/-- Where a process is in `commit` or `recover_from_log`. The buffers it holds there stand in the constructor.
    `erase` tells the second `write_head` (the one after `log.lh.n = 0`) from the one that commits. -/
inductive LogPc where
  | readHead
  | readHeadRelse (buf : BufIdx)
  | commit
  | writeLog (tail : Nat)
  | writeLogFrom (tail : Nat) (dst : BufIdx)
  | writeLogCopy (tail : Nat) (dst src : BufIdx)
  | writeLogRelseFrom (tail : Nat) (dst src : BufIdx)
  | writeLogRelseTo (tail : Nat) (dst : BufIdx)
  | writeHead (erase : Bool)
  | writeHeadFill (erase : Bool) (buf : BufIdx)
  | writeHeadRelse (erase : Bool) (buf : BufIdx)
  | installTrans (tail : Nat)
  | installDst (tail : Nat) (lbuf : BufIdx)
  | installCopy (tail : Nat) (lbuf dbuf : BufIdx)
  | installRelseLog (tail : Nat) (lbuf dbuf : BufIdx)
  | installRelseDst (tail : Nat) (dbuf : BufIdx)
  | clear
  | done
  deriving DecidableEq, Repr

/-- A process is outside any operation, between `begin_op` and `end_op` of operation `id`, or runs log code. -/
inductive PState where
  | idle
  | op (id : Nat)
  | log (pc : LogPc)
  deriving DecidableEq, Repr

/-- One call of `log_write`: the operation it belongs to, the block and its contents at the call. -/
structure Rec where
  op : Nat
  blockno : Nat
  data : Block

structure Sys (Pid : Type) where
  st : Store
  /-- The process that holds a busy buffer. -/
  hold : BufIdx → Option (Pid × Stage)
  /-- `log.lh.block[0 .. log.lh.n)` -/
  lh : List Nat
  outstanding : Nat
  committing : Bool
  /-- `recover_from_log` is running, in the only process there is yet. -/
  booting : Bool
  proc : Pid → PState
  /-- Ghost: the number of the next operation. -/
  nextOp : Nat
  /-- Ghost: the `log_write`s since the last commit. -/
  cur : List Rec
  /-- Ghost: the `log_write`s of each commit whose first `write_head` completed. -/
  commits : List (List Rec)
  /-- Ghost: every `log_write` ever made. -/
  history : List Rec

namespace Sys
variable {Pid : Type} [DecidableEq Pid]

def setProc (s : Sys Pid) (p : Pid) (c : PState) : Sys Pid := { s with proc := update s.proc p c }

def goto (s : Sys Pid) (p : Pid) (pc : LogPc) : Sys Pid := s.setProc p (.log pc)

def bread (s : Sys Pid) (p : Pid) (b : Nat) : Outcome (BufIdx × Sys Pid) := do
  let (i, st) ← s.st.bread ROOTDEV b
  pure (i, { s with st := st, hold := update s.hold i (some (p, .read)) })

def brelse (s : Sys Pid) (i : BufIdx) : Outcome (Sys Pid) := do
  let st ← s.st.brelse i
  pure { s with st := st, hold := update s.hold i none }

def fillWrite (s : Sys Pid) (i : BufIdx) (data : Block) : Outcome (Sys Pid) := do
  let st ← (s.st.setData i data).bwrite i
  pure { s with st := st }

/-! ### `begin_op`, `log_write`, `end_op` -/

def beginOp (s : Sys Pid) (p : Pid) : Outcome (Sys Pid) :=
  if s.committing then .sleep
  else if s.lh.length + (s.outstanding + 1) * MAXOPBLOCKS > LOGSIZE then .sleep
  else .ok { s.setProc p (.op s.nextOp) with outstanding := s.outstanding + 1, nextOp := s.nextOp + 1 }

/-- The tests at the head of `log_write`, made without `log.lock`. -/
def logWriteCheck (cfg : LogCfg) (s : Sys Pid) (p : Pid) (i : BufIdx) : Outcome (Sys Pid) :=
  if s.lh.length ≥ LOGSIZE ∨ s.lh.length ≥ cfg.size - 1 then .panic "too big a transaction"
  else if s.outstanding < 1 then .panic "log_write outside of trans"
  else .ok { s with hold := update s.hold i (some (p, .checked)) }

/-- The part of `log_write` under `log.lock`: record the block number unless it is there, pin the buffer. -/
def logWriteAbsorb (s : Sys Pid) (p : Pid) (op : Nat) (i : BufIdx) : Sys Pid :=
  let b := s.st.buf i
  let r : Rec := { op := op, blockno := b.blockno, data := b.data }
  { s with
    st := s.st.setBuf i { b with dirty := true }
    hold := update s.hold i (some (p, .read))
    lh := if b.blockno ∈ s.lh then s.lh else s.lh ++ [b.blockno]
    cur := s.cur ++ [r]
    history := s.history ++ [r] }

def endOp (s : Sys Pid) (p : Pid) : Outcome (Sys Pid) :=
  let outstanding := s.outstanding - 1
  if s.committing then .panic "log.committing"
  else if outstanding = 0 then
    .ok { s.goto p .commit with outstanding := outstanding, committing := true }
  else .ok { s.setProc p .idle with outstanding := outstanding }

/-! ### `commit` and `recover_from_log` -/

def logCode (cfg : LogCfg) (s : Sys Pid) (p : Pid) : LogPc → Outcome (Sys Pid)
  | .readHead => do
    let (buf, s) ← s.bread p cfg.start
    pure ({ s with lh := decodeHead (s.st.buf buf).data }.goto p (.readHeadRelse buf))
  | .readHeadRelse buf => do
    let s ← s.brelse buf
    pure (s.goto p (.installTrans 0))
  | .commit => if s.lh.length > 0 then .ok (s.goto p (.writeLog 0)) else .ok (s.goto p .done)
  | .writeLog tail =>
    if tail < s.lh.length then do
      let (dst, s) ← s.bread p (cfg.start + tail + 1)
      pure (s.goto p (.writeLogFrom tail dst))
    else .ok (s.goto p (.writeHead false))
  | .writeLogFrom tail dst => do
    let (src, s) ← s.bread p (s.lh.getD tail 0)
    pure (s.goto p (.writeLogCopy tail dst src))
  | .writeLogCopy tail dst src => do
    let s ← s.fillWrite dst (s.st.buf src).data
    pure (s.goto p (.writeLogRelseFrom tail dst src))
  | .writeLogRelseFrom tail dst src => do
    let s ← s.brelse src
    pure (s.goto p (.writeLogRelseTo tail dst))
  | .writeLogRelseTo tail dst => do
    let s ← s.brelse dst
    pure (s.goto p (.writeLog (tail + 1)))
  | .writeHead erase => do
    let (buf, s) ← s.bread p cfg.start
    pure (s.goto p (.writeHeadFill erase buf))
  | .writeHeadFill erase buf => do
    let s ← s.fillWrite buf (encodeHead (s.st.buf buf).data s.lh)
    -- The write that commits: from here on the operations of `cur` are on disk.
    let s := if erase then s else { s with commits := s.commits ++ [s.cur], cur := [] }
    pure (s.goto p (.writeHeadRelse erase buf))
  | .writeHeadRelse erase buf => do
    let s ← s.brelse buf
    pure (s.goto p (if erase then .done else .installTrans 0))
  | .installTrans tail =>
    if tail < s.lh.length then do
      let (lbuf, s) ← s.bread p (cfg.start + tail + 1)
      pure (s.goto p (.installDst tail lbuf))
    else .ok (s.goto p .clear)
  | .installDst tail lbuf => do
    let (dbuf, s) ← s.bread p (s.lh.getD tail 0)
    pure (s.goto p (.installCopy tail lbuf dbuf))
  | .installCopy tail lbuf dbuf => do
    let s ← s.fillWrite dbuf (s.st.buf lbuf).data
    pure (s.goto p (.installRelseLog tail lbuf dbuf))
  | .installRelseLog tail lbuf dbuf => do
    let s ← s.brelse lbuf
    pure (s.goto p (.installRelseDst tail dbuf))
  | .installRelseDst tail dbuf => do
    let s ← s.brelse dbuf
    pure (s.goto p (.installTrans (tail + 1)))
  | .clear => .ok ({ s with lh := [] }.goto p (.writeHead true))
  | .done =>
    -- `end_op` clears `committing` after `commit`; `initlog` just returns.
    .ok { s.setProc p .idle with
      committing := if s.booting then s.committing else false
      booting := false }

/-- A crash: only the disk survives. The machine comes up again with `p` in `recover_from_log`. -/
def crash (s : Sys Pid) (p : Pid) : Sys Pid :=
  { st := .binit s.st.disk s.st.disksize
    hold := fun _ => none
    lh := []
    outstanding := 0
    committing := false
    booting := true
    proc := update (fun _ => .idle) p (.log .readHead)
    nextOp := s.nextOp
    cur := []
    commits := s.commits
    history := s.history }

/-! ### The machine -/

inductive Act (Pid : Type) where
  | beginOp (p : Pid)
  | bread (p : Pid) (b : Nat)
  | modify (p : Pid) (i : BufIdx) (data : Block)
  | logWriteCheck (p : Pid) (i : BufIdx)
  | logWriteAbsorb (p : Pid) (i : BufIdx)
  | brelse (p : Pid) (i : BufIdx)
  | endOp (p : Pid)
  | log (p : Pid)
  | crash (p : Pid)

/-- Process `p` has changed a buffer and not yet finished the `log_write` that has to follow. -/
def Unlogged (s : Sys Pid) (p : Pid) : Prop :=
  ∃ i, s.hold i = some (p, .changed) ∨ s.hold i = some (p, .checked)

instance (s : Sys Pid) (p : Pid) : Decidable (s.Unlogged p) := inferInstanceAs (Decidable (∃ _, _))

/-- One step. A process calls the log as file system code does: changes and `log_write`s are of home blocks
    and inside an operation, every change is followed by a `log_write` before the buffer is released or the
    operation ends, and log code runs to its end. A call out of turn is no step. -/
def step (cfg : LogCfg) (s : Sys Pid) : Act Pid → Outcome (Sys Pid)
  | .beginOp p => if s.booting = false ∧ s.proc p = .idle then s.beginOp p else .sleep
  | .bread p b =>
    match s.proc p with
    | .log _ => .sleep
    | _ => if s.booting then .sleep else do
      let (_, s) ← s.bread p b
      pure s
  | .modify p i data =>
    match s.proc p with
    | .op _ =>
      if (s.hold i = some (p, .read) ∨ s.hold i = some (p, .changed)) ∧ cfg.Home (s.st.buf i).blockno then
        .ok { s with
          st := s.st.setData i data
          hold := update s.hold i (some (p, .changed)) }
      else .sleep
    | _ => .sleep
  | .logWriteCheck p i =>
    match s.proc p with
    | .op _ =>
      if (s.hold i = some (p, .read) ∨ s.hold i = some (p, .changed)) ∧ cfg.Home (s.st.buf i).blockno then
        s.logWriteCheck cfg p i
      else .sleep
    | _ => .sleep
  | .logWriteAbsorb p i =>
    match s.proc p with
    | .op id => if s.hold i = some (p, .checked) then .ok (s.logWriteAbsorb p id i) else .sleep
    | _ => .sleep
  | .brelse p i =>
    match s.proc p with
    | .log _ => .sleep
    | _ => if s.hold i = some (p, .read) then s.brelse i else .sleep
  | .endOp p =>
    match s.proc p with
    | .op _ => if s.Unlogged p then .sleep else s.endOp p
    | _ => .sleep
  | .log p =>
    match s.proc p with
    | .log pc => s.logCode cfg p pc
    | _ => .sleep
  | .crash p => .ok (s.crash p)

def start (cfg : LogCfg) (disk : Nat → Block) : Sys Pid :=
  { st := .binit disk cfg.disksize
    hold := fun _ => none
    lh := []
    outstanding := 0
    committing := false
    booting := false
    proc := fun _ => .idle
    nextOp := 0
    cur := []
    commits := []
    history := [] }

end Sys
end Xv6
