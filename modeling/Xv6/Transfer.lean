import Xv6.Calls
import Xv6.Console
import Xv6.Exit
import Xv6.Ptable

/-! System calls that get pointers from user mode (`syscall.c`, `sysfile.c`, `sysproc.c`), as programs whose steps are what
    they do with the caller's memory and what they find in the kernel. What they find is whatever other processes have
    made of it. -/

namespace Xv6

abbrev CONSOLE : Nat := 1

/-- `argptr`: the pointer, or nothing for -1. The size is added without a sign. -/
def argptr (sz : Nat) (m : Space) (esp n size : UInt32) : Outcome (Option UInt32) := do
  match ← argint sz m esp n with
  | none => pure none
  | some i => pure (if sz ≤ i.toNat ∨ sz < (i + size).toNat then none else some i)

/-- `argfd`, with the open files of the process. -/
def argfd (sz : Nat) (m : Space) (ofile : Fin NOFILE → Option File) (esp n : UInt32) : Outcome (Option File) := do
  match ← argint sz m esp n with
  | none => pure none
  | some fd => pure (if h : fd.toNat < NOFILE then ofile ⟨fd.toNat, h⟩ else none)

namespace Transfer

inductive Op where
  | store (addr : UInt32) (bs : List UInt8)
  | load (addr : UInt32) (n : Nat)
  /-- `p->lock` is taken, at first or behind a `sleep`. -/
  | pipe
  | release (p : Pipe)
  | killed
  | beginOp
  | endOp
  | ilock
  | iunlock
  | off
  | setOff (off : UInt32)
  | bread (bn : Nat)
  | logWrite (bn : Nat) (x : Block)
  | iupdate (size : UInt32)
  /-- The next character of the console; none if the process is killed. -/
  | getc
  /-- `input.r--` -/
  | ungetc
  | consputc (c : UInt8)
  /-- `ptable.lock` is taken, at first or behind a `sleep`. -/
  | ptable
  | reap (child : ProcIdx) (c : Ptable.WaitCall)

abbrev Res : Op → Type
  | .load _ _ => Nat → UInt8
  | .pipe => Pipe
  | .killed => Bool
  | .ilock => Inode
  | .off => UInt32
  | .bread _ => Block
  | .getc => Option UInt8
  | .ptable => Ptable
  | _ => Unit

abbrev M := Prog Op Res

def call (o : Op) : M (Res o) := Prog.call o

def int (n : UInt32) : Int := n.toInt32.toInt

/-! ### Pipes -/

/-- The first loop of `piperead`, with a bound on its rounds: the pipe, or nothing for a process that is killed. -/
def pipereadWait : Nat → M (Option Pipe)
  | 0 => .halt none
  | rounds + 1 => do
    let p ← call .pipe
    if p.Empty ∧ p.writeopen = true then
      if ← call .killed then
        call (.release p)
        pure none
      else
        call (.release p)
        pipereadWait rounds
    else pure (some p)

def piperead (rounds : Nat) (addr : UInt32) (n : Int) : M Int := do
  match ← pipereadWait rounds with
  | none => pure (-1)
  | some p =>
    let (cs, p) := p.drain n.toNat
    call (.store addr cs)
    call (.release p)
    pure cs.length

def pipewriteWait : Nat → Pipe → M (Option Pipe)
  | 0, _ => .halt none
  | rounds + 1, p =>
    if p.Full then do
      let killed ← call .killed
      call (.release p)
      if p.readopen = false ∨ killed = true then pure none
      else
        let p ← call .pipe
        pipewriteWait rounds p
    else pure (some p)

/-- The outer loop: `i` bytes are written. -/
def pipewriteFrom (rounds : Nat) (addr : UInt32) : Nat → Nat → Pipe → M (Option Pipe)
  | 0, _, p => pure (some p)
  | left + 1, i, p => do
    match ← pipewriteWait rounds p with
    | none => pure none
    | some p =>
      let c ← call (.load (addr + .ofNat i) 1)
      pipewriteFrom rounds addr left (i + 1) (p.put (c 0))

def pipewrite (rounds : Nat) (addr : UInt32) (n : Int) : M Int := do
  let p ← call .pipe
  match ← pipewriteFrom rounds addr n.toNat 0 p with
  | none => pure (-1)
  | some p =>
    call (.release p)
    pure n

/-! ### The console -/

/-- The loop of `consoleread`: `i` bytes are read, and so many are still wanted. -/
def consolereadFrom (dst : UInt32) (target : Nat) : Nat → Nat → M Int
  | 0, i => pure i
  | n + 1, i => do
    match ← call .getc with
    | none => pure (-1)
    | some c =>
      if c = Console.ctrl 'D' then
        if n + 1 < target then
          call .ungetc
          pure i
        else pure i
      else
        call (.store (dst + .ofNat i) [c])
        if c = Console.nl then pure (i + 1) else consolereadFrom dst target n (i + 1)

def consoleread (dst : UInt32) (n : Int) : M Int := do
  call .iunlock
  let r ← consolereadFrom dst n.toNat n.toNat 0
  let _ ← call .ilock
  pure r

def consolewriteFrom (buf : UInt32) : Nat → Nat → M Unit
  | 0, _ => pure ()
  | left + 1, i => do
    let c ← call (.load (buf + .ofNat i) 1)
    call (.consputc (c 0))
    consolewriteFrom buf left (i + 1)

def consolewrite (buf : UInt32) (n : Int) : M Int := do
  call .iunlock
  consolewriteFrom buf n.toNat 0
  let _ ← call .ilock
  pure n

/-! ### Files -/

/-- The loop of `readi`, with a bound on its rounds. `bmap` knows `MAXFILE` blocks. -/
def readiLoop (dst : UInt32) (n : Nat) : Nat → Nat → Nat → M Unit
  | 0, _, _ => pure ()
  | left + 1, off, tot =>
    if tot < n then
      if MAXFILE ≤ off / BSIZE then .halt (some "bmap: out of range")
      else do
        let x ← call (.bread (off / BSIZE))
        let m := min (n - tot) (BSIZE - off % BSIZE)
        call (.store (dst + .ofNat tot) (x.getBytes (off % BSIZE) m))
        readiLoop dst n left (off + m) (tot + m)
    else pure ()

/-- `devsw` has the console only. -/
def readi (ip : Inode) (dst off n : UInt32) : M Int :=
  if ip.type.toNat = T_DEV then
    if ip.major.toNat = CONSOLE then consoleread dst (int n) else pure (-1)
  else if ip.size < off ∨ off + n < off then pure (-1)
  else do
    let n := if ip.size < off + n then ip.size - off else n
    readiLoop dst n.toNat n.toNat off.toNat 0
    pure (int n)

def writeiLoop (src : UInt32) (n : Nat) : Nat → Nat → Nat → M Nat
  | 0, off, _ => pure off
  | left + 1, off, tot =>
    if tot < n then
      if MAXFILE ≤ off / BSIZE then .halt (some "bmap: out of range")
      else do
        let x ← call (.bread (off / BSIZE))
        let m := min (n - tot) (BSIZE - off % BSIZE)
        let bs ← call (.load (src + .ofNat tot) m)
        call (.logWrite (off / BSIZE) (x.setBytes (off % BSIZE) ((List.range m).map bs)))
        writeiLoop src n left (off + m) (tot + m)
    else pure off

def writei (ip : Inode) (src off n : UInt32) : M Int :=
  if ip.type.toNat = T_DEV then
    if ip.major.toNat = CONSOLE then consolewrite src (int n) else pure (-1)
  else if ip.size < off ∨ off + n < off then pure (-1)
  else if UInt32.ofNat (MAXFILE * BSIZE) < off + n then pure (-1)
  else do
    let off ← writeiLoop src n.toNat n.toNat off.toNat 0
    if 0 < n ∧ ip.size.toNat < off then
      call (.iupdate (.ofNat off))
      pure (int n)
    else pure (int n)

def fileread (rounds : Nat) (f : File) (addr n : UInt32) : M Int :=
  if f.readable = false then pure (-1)
  else match f.type with
    | .pipe => piperead rounds addr (int n)
    | .inode => do
      let ip ← call .ilock
      let off ← call .off
      let r ← readi ip addr off n
      if 0 < r then call (.setOff (off + Calls.uint r))
      call .iunlock
      pure r
    | .none => .halt (some "fileread")

def filewritePart (addr : UInt32) (i n1 : Int) : M Int := do
  call .beginOp
  let ip ← call .ilock
  let off ← call .off
  let r ← writei ip (addr + Calls.uint i) off (Calls.uint n1)
  if 0 < r then call (.setOff (off + Calls.uint r))
  call .iunlock
  call .endOp
  pure r

def filewrite (rounds : Nat) (f : File) (addr n : UInt32) : M Int :=
  if f.writable = false then pure (-1)
  else match f.type with
    | .pipe => pipewrite rounds addr (int n)
    | .inode => Calls.filewriteFrom (filewritePart addr) (int n) (int n).toNat 0
    | .none => .halt (some "filewrite")

/-- The arguments of `sys_read` and `sys_write`: the file, the pointer and the number of bytes. -/
def bufferArgs (sz : Nat) (m : Space) (ofile : Fin NOFILE → Option File) (esp : UInt32) :
    Outcome (Option (File × UInt32 × UInt32)) := do
  match ← argfd sz m ofile esp 0 with
  | none => pure none
  | some f =>
    match ← argint sz m esp 2 with
    | none => pure none
    | some n =>
      match ← argptr sz m esp 1 n with
      | none => pure none
      | some p => pure (some (f, p, n))

def sysRead (rounds : Nat) (sz : Nat) (m : Space) (ofile : Fin NOFILE → Option File) (esp : UInt32) : M Int := do
  match ← Prog.lift (bufferArgs sz m ofile esp) with
  | none => pure (-1)
  | some (f, p, n) => fileread rounds f p n

def sysWrite (rounds : Nat) (sz : Nat) (m : Space) (ofile : Fin NOFILE → Option File) (esp : UInt32) : M Int := do
  match ← Prog.lift (bufferArgs sz m ofile esp) with
  | none => pure (-1)
  | some (f, p, n) => filewrite rounds f p n

/-! ### Waiting for children -/

/-- The loop of `wait` and `wait_stat`, with a bound on its rounds: `tell` stores what the caller wants to know. -/
def scanFrom (i : ProcIdx) (c : Ptable.WaitCall) (tell : Ptable.Slot → M Unit) : Nat → M Int
  | 0 => .halt none
  | rounds + 1 => do
    let s ← call .ptable
    match s.zombieChild i with
    | some p =>
      tell (s.slot p)
      call (.reap p c)
      pure (int (s.slot p).pid)
    | none =>
      if s.havekids i = false ∨ (s.slot i).killed = true then pure (-1) else scanFrom i c tell rounds

def storeWord (addr x : UInt32) : M Unit := call (.store addr (Bytes.toLe 4 x.toNat))

def wait (rounds : Nat) (i : ProcIdx) (status : UInt32) : M Int :=
  scanFrom i (.wait (status ≠ 0)) (fun p => if status ≠ 0 then storeWord status p.status else pure ()) rounds

def waitStat (rounds : Nat) (i : ProcIdx) (status perf : UInt32) : M Int :=
  scanFrom i .waitStat (fun p => do
    storeWord status p.status
    storeWord (perf + 8) p.stime
    storeWord (perf + 12) p.retime
    storeWord (perf + 16) p.rutime
    storeWord (perf + 4) p.ttime
    storeWord perf p.ctime) rounds

def sysWait (rounds : Nat) (i : ProcIdx) (sz : Nat) (m : Space) (esp : UInt32) : M Int := do
  match ← Prog.lift (argptr sz m esp 0 4) with
  | none => pure (-1)
  | some status => wait rounds i status

/-- `sizeof` is of the pointers here. -/
def waitStatArgs (sz : Nat) (m : Space) (esp : UInt32) : Outcome (Option (UInt32 × UInt32)) := do
  match ← argptr sz m esp 0 4 with
  | none => pure none
  | some status =>
    match ← argptr sz m esp 1 4 with
    | none => pure none
    | some perf => pure (some (status, perf))

def sysWaitStat (rounds : Nat) (i : ProcIdx) (sz : Nat) (m : Space) (esp : UInt32) : M Int := do
  match ← Prog.lift (waitStatArgs sz m esp) with
  | none => pure (-1)
  | some (status, perf) => waitStat rounds i status perf

end Transfer
end Xv6
