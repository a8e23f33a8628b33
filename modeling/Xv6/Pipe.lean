import Mathlib
import Xv6.Lib.Outcome
import Xv6.Lib.Ring

/-! Pipes (`pipe.c`), with the `sleep` and `wakeup` (`proc.c`) that they use. A step of a process goes up to its next
    operation on a lock, so that other processes come in between wherever they can. -/

namespace Xv6

abbrev PIPESIZE : Nat := 512

instance : NeZero PIPESIZE := ⟨by decide⟩

structure Pipe where
  data : Fin PIPESIZE → UInt8
  nread : UInt32
  nwrite : UInt32
  readopen : Bool
  writeopen : Bool

namespace Pipe

def alloc (data : Fin PIPESIZE → UInt8) : Pipe :=
  { data := data, nread := 0, nwrite := 0, readopen := true, writeopen := true }

def Full (p : Pipe) : Prop := p.nwrite = p.nread + .ofNat PIPESIZE

instance (p : Pipe) : Decidable p.Full := inferInstanceAs (Decidable (_ = _))

def Empty (p : Pipe) : Prop := p.nread = p.nwrite

instance (p : Pipe) : Decidable p.Empty := inferInstanceAs (Decidable (_ = _))

def put (p : Pipe) (c : UInt8) : Pipe :=
  { p with data := Function.update p.data (Ring.cell PIPESIZE p.nwrite) c, nwrite := p.nwrite + 1 }

/-- The loop of `pipewrite` up to where the pipe is full: the pipe, and what is left to write. -/
def fill : Pipe → List UInt8 → Pipe × List UInt8
  | p, [] => (p, [])
  | p, c :: cs => if p.Full then (p, c :: cs) else fill (p.put c) cs

/-- The second loop of `piperead`: what is read, and the pipe. -/
def drain : Nat → Pipe → List UInt8 × Pipe
  | 0, p => ([], p)
  | n + 1, p =>
    if p.Empty then ([], p)
    else
      let (cs, p') := drain n { p with nread := p.nread + 1 }
      (p.data (Ring.cell PIPESIZE p.nread) :: cs, p')

inductive Chan where
  | nread | nwrite
  deriving DecidableEq

inductive Call where
  | piperead (n : Int)
  | pipewrite (addr : Nat → UInt8) (n : Int)
  | pipeclose (writable : Bool)

/-- Where a process is in a call: before it takes the pipe's lock, or before it takes `ptable.lock`. -/
inductive Pc where
  | returned (r : Int)
  | readAcquire (n : Int)
  | readLoop (n : Int)
  /-- In `sleep`, before it takes `ptable.lock`. -/
  | readSleep (n : Int)
  /-- In `sleep`, when it has released the pipe's lock. -/
  | readDoze (n : Int)
  | readWakeup (i : Nat)
  | writeAcquire (rest : List UInt8) (n : Int)
  | writeLoop (rest : List UInt8) (n : Int)
  /-- The pipe is full. -/
  | writeWakeup (rest : List UInt8) (n : Int)
  | writeSleep (rest : List UInt8) (n : Int)
  | writeDoze (rest : List UInt8) (n : Int)
  /-- All is written. -/
  | writeDone (n : Int)
  | closeAcquire (writable : Bool)
  | closeWakeup (writable : Bool)

structure Task where
  pc : Pc := .returned 0
  /-- The channel, while it is SLEEPING. -/
  sleeping : Option Chan := none
  killed : Bool := false

def start : Call → Pc
  | .piperead n => .readAcquire n
  | .pipewrite addr n => .writeAcquire ((List.range n.toNat).map addr) n
  | .pipeclose writable => .closeAcquire writable

/-- `wakeup1` on the processes of the pipe. -/
def Task.wake (c : Chan) (t : Task) : Task := if t.sleeping = some c then { t with sleeping := none } else t

end Pipe

structure PipeSys (ι : Type) where
  pipe : Pipe
  /-- Its page has been given back. -/
  freed : Bool := false
  /-- Who has `p->lock`. -/
  lock : Option ι := none
  /-- Who has `ptable.lock` between two steps. -/
  ptable : Option ι := none
  task : ι → Pipe.Task := fun _ => {}
  /-- All bytes that writes have stored so far, and all that reads have taken. -/
  stored : List UInt8 := []
  taken : List UInt8 := []

namespace PipeSys
open Pipe
variable {ι : Type} [DecidableEq ι]

inductive Act (ι : Type) where
  | call (i : ι) (c : Call)
  /-- The process goes on. -/
  | run (i : ι)
  /-- `kill` -/
  | kill (i : ι)

def setTask (s : PipeSys ι) (i : ι) (t : Task) : PipeSys ι := { s with task := Function.update s.task i t }

def setPc (s : PipeSys ι) (i : ι) (pc : Pc) : PipeSys ι := s.setTask i { s.task i with pc := pc }

def acquire (s : PipeSys ι) (i : ι) (pc : Pc) : Outcome (PipeSys ι) :=
  if s.freed then .panic "use after free"
  else if s.lock = none then .ok ({ s with lock := some i }.setPc i pc)
  else .sleep

/-- `release(&p->lock)` and return. -/
def release (s : PipeSys ι) (i : ι) (r : Int) : PipeSys ι := { s with lock := none }.setPc i (.returned r)

/-- `wakeup`; it needs `ptable.lock`. -/
def wakeup (s : PipeSys ι) (c : Chan) : Outcome (PipeSys ι) :=
  if s.ptable = none then .ok { s with task := fun i => (s.task i).wake c } else .sleep

/-- The first part of `sleep`: `ptable.lock` is taken and the pipe's lock released. -/
def doze (s : PipeSys ι) (i : ι) (pc : Pc) : Outcome (PipeSys ι) :=
  if s.ptable = none then .ok ({ s with ptable := some i, lock := none }.setPc i pc) else .sleep

/-- The second part: the process is SLEEPING; when it wakes up it has to take the pipe's lock again. -/
def sleep (s : PipeSys ι) (i : ι) (c : Chan) (pc : Pc) : PipeSys ι :=
  { s with ptable := none }.setTask i { s.task i with pc := pc, sleeping := some c }

/-- Process `i` goes on to its next operation on a lock. -/
def run (s : PipeSys ι) (i : ι) : Outcome (PipeSys ι) :=
  match (s.task i).pc with
  | .returned _ => .sleep
  | .readAcquire n => s.acquire i (.readLoop n)
  | .readLoop n =>
    if s.pipe.Empty ∧ s.pipe.writeopen = true then
      if (s.task i).killed then .ok (s.release i (-1)) else .ok (s.setPc i (.readSleep n))
    else
      let (cs, pipe) := s.pipe.drain n.toNat
      .ok ({ s with pipe := pipe, taken := s.taken ++ cs }.setPc i (.readWakeup cs.length))
  | .readSleep n => s.doze i (.readDoze n)
  | .readDoze n => .ok (s.sleep i .nread (.readAcquire n))
  | .readWakeup r => do
    let s ← s.wakeup .nwrite
    .ok (s.release i r)
  | .writeAcquire rest n => s.acquire i (.writeLoop rest n)
  | .writeLoop rest n =>
    let (pipe, left) := s.pipe.fill rest
    let s := { s with pipe := pipe, stored := s.stored ++ rest.take (rest.length - left.length) }
    if left = [] then .ok (s.setPc i (.writeDone n))
    else if s.pipe.readopen = false ∨ (s.task i).killed = true then .ok (s.release i (-1))
    else .ok (s.setPc i (.writeWakeup left n))
  | .writeWakeup rest n => do
    let s ← s.wakeup .nread
    .ok (s.setPc i (.writeSleep rest n))
  | .writeSleep rest n => s.doze i (.writeDoze rest n)
  | .writeDoze rest n => .ok (s.sleep i .nwrite (.writeAcquire rest n))
  | .writeDone n => do
    let s ← s.wakeup .nread
    .ok (s.release i n)
  | .closeAcquire writable =>
    let pipe := if writable then { s.pipe with writeopen := false } else { s.pipe with readopen := false }
    do
      let s ← s.acquire i (.closeWakeup writable)
      .ok { s with pipe := pipe }
  | .closeWakeup writable => do
    let s ← s.wakeup (if writable then .nread else .nwrite)
    let gone := s.pipe.readopen = false ∧ s.pipe.writeopen = false
    .ok { s.release i 0 with freed := gone }

def step (s : PipeSys ι) : Act ι → Outcome (PipeSys ι)
  | .call i c =>
    match (s.task i).pc with
    | .returned _ => .ok (s.setPc i (start c))
    | _ => .sleep
  | .run i => if (s.task i).sleeping = none then s.run i else .sleep
  | .kill i =>
    if s.ptable = none then .ok (s.setTask i { s.task i with killed := true, sleeping := none }) else .sleep

def fresh (data : Fin PIPESIZE → UInt8) : PipeSys ι := { pipe := .alloc data }

end PipeSys
end Xv6
