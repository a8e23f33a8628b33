import Xv6.Pipe
import Xv6.Ptable

/-! Processes that sleep in `pipewrite`, `piperead`, `wait`, `wait_stat` and `sys_sleep`, and `kill`. What is done under
    `ptable.lock` is a step of the process table; a step of a process in a pipe or in `sys_sleep` goes up to its next
    operation on a lock. -/

namespace Xv6
open Function (update)
namespace Kill
open Pipe (Pc)

inductive Place where
  /-- In neither of them. -/
  | elsewhere
  /-- In a function of the pipe with this number. -/
  | pipe (k : Nat) (pc : Pc)
  | napAcquire (n : UInt32)
  | napLoop (ticks0 n : UInt32)
  /-- In `sleep`, before it takes `ptable.lock`. -/
  | napSleep (ticks0 n : UInt32)
  /-- In `sleep`, when it has released `tickslock`. -/
  | napDoze (ticks0 n : UInt32)
  /-- Back in `sleep`, before it takes `tickslock` again. -/
  | napReacquire (ticks0 n : UInt32)

def Place.outside : Place → Bool
  | .elsewhere => true
  | _ => false

/-- The process holds a spinlock there, so that no interrupt takes its processor away. -/
def Place.locked : Place → Bool
  | .pipe _ (.returned _) | .pipe _ (.readAcquire _) | .pipe _ (.writeAcquire ..) | .pipe _ (.closeAcquire _) => false
  | .pipe _ _ | .napLoop .. | .napSleep .. | .napDoze .. => true
  | .elsewhere | .napAcquire _ | .napReacquire .. => false

inductive Call where
  | piperead (k : Nat) (n : Int)
  | pipewrite (k : Nat) (addr : Nat → UInt8) (n : Int)
  | pipeclose (k : Nat) (writable : Bool)
  | sysSleep (n : UInt32)

def Call.start : Call → Place
  | .piperead k n => .pipe k (Pipe.start (.piperead n))
  | .pipewrite k addr n => .pipe k (Pipe.start (.pipewrite addr n))
  | .pipeclose k writable => .pipe k (Pipe.start (.pipeclose writable))
  | .sysSleep n => .napAcquire n

/-- `&p->nread` and `&p->nwrite` of a pipe, and `&ticks`. -/
def chanAddr (k : Nat) : Pipe.Chan → Nat
  | .nread => 2 * k + 2
  | .nwrite => 2 * k + 3

def ticksAddr : Nat := 1

end Kill

structure Kill where
  table : Ptable
  /-- Who has `ptable.lock` between two steps. -/
  ptable : Option ProcIdx := none
  tickslock : Option ProcIdx := none
  pipe : Nat → Pipe
  lock : Nat → Option ProcIdx := fun _ => none
  place : ProcIdx → Kill.Place := fun _ => .elsewhere

namespace Kill
open Pipe (Pc)

def setPlace (s : Kill) (i : ProcIdx) (x : Place) : Kill := { s with place := update s.place i x }

def setPipe (s : Kill) (k : Nat) (p : Pipe) : Kill := { s with pipe := update s.pipe k p }

def acquire (s : Kill) (i : ProcIdx) (k : Nat) (pc : Pc) : Outcome Kill :=
  if s.lock k = none then .ok ({ s with lock := update s.lock k (some i) }.setPlace i (.pipe k pc)) else .sleep

/-- `release(&p->lock)`, and the call returns. -/
def release (s : Kill) (i : ProcIdx) (k : Nat) : Kill :=
  { s with lock := update s.lock k none }.setPlace i .elsewhere

def wakeup (s : Kill) (addr : Nat) : Outcome Kill :=
  if s.ptable = none then .ok { s with table := s.table.wakeup1 (.other addr) } else .sleep

/-- The second part of `sleep`: the process is SLEEPING, and `ptable.lock` free. -/
def sleep (s : Kill) (i : ProcIdx) (addr : Nat) (x : Place) : Outcome Kill := do
  let table ← s.table.step (.sleep i addr)
  .ok ({ s with table := table, ptable := none }.setPlace i x)

def runPipe (s : Kill) (i : ProcIdx) (k : Nat) : Pc → Outcome Kill
  | .returned _ => .sleep
  | .readAcquire n => s.acquire i k (.readLoop n)
  | .readLoop n =>
    if (s.pipe k).Empty ∧ (s.pipe k).writeopen = true then
      if (s.table.slot i).killed then .ok (s.release i k) else .ok (s.setPlace i (.pipe k (.readSleep n)))
    else
      let (cs, pipe) := (s.pipe k).drain n.toNat
      .ok ((s.setPipe k pipe).setPlace i (.pipe k (.readWakeup cs.length)))
  | .readSleep n =>
    if s.ptable = none then
      .ok ({ s with ptable := some i, lock := update s.lock k none }.setPlace i (.pipe k (.readDoze n)))
    else .sleep
  | .readDoze n => s.sleep i (chanAddr k .nread) (.pipe k (.readAcquire n))
  | .readWakeup _ => do
    let s ← s.wakeup (chanAddr k .nwrite)
    .ok (s.release i k)
  | .writeAcquire rest n => s.acquire i k (.writeLoop rest n)
  | .writeLoop rest n =>
    let (pipe, left) := (s.pipe k).fill rest
    let s := s.setPipe k pipe
    if left = [] then .ok (s.setPlace i (.pipe k (.writeDone n)))
    else if (s.pipe k).readopen = false ∨ (s.table.slot i).killed = true then .ok (s.release i k)
    else .ok (s.setPlace i (.pipe k (.writeWakeup left n)))
  | .writeWakeup rest n => do
    let s ← s.wakeup (chanAddr k .nread)
    .ok (s.setPlace i (.pipe k (.writeSleep rest n)))
  | .writeSleep rest n =>
    if s.ptable = none then
      .ok ({ s with ptable := some i, lock := update s.lock k none }.setPlace i (.pipe k (.writeDoze rest n)))
    else .sleep
  | .writeDoze rest n => s.sleep i (chanAddr k .nwrite) (.pipe k (.writeAcquire rest n))
  | .writeDone _ => do
    let s ← s.wakeup (chanAddr k .nread)
    .ok (s.release i k)
  | .closeAcquire writable =>
    let pipe := if writable then { s.pipe k with writeopen := false } else { s.pipe k with readopen := false }
    do
      let s ← s.acquire i k (.closeWakeup writable)
      .ok (s.setPipe k pipe)
  | .closeWakeup writable => do
    let s ← s.wakeup (chanAddr k (if writable then .nread else .nwrite))
    .ok (s.release i k)

/-- Process `i`, which has the processor, goes on to its next operation on a lock. -/
def run (s : Kill) (i : ProcIdx) : Outcome Kill :=
  match s.place i with
  | .elsewhere => .sleep
  | .pipe k pc => s.runPipe i k pc
  | .napAcquire n =>
    if s.tickslock = none then .ok ({ s with tickslock := some i }.setPlace i (.napLoop s.table.ticks n)) else .sleep
  | .napLoop ticks0 n =>
    if s.table.ticks - ticks0 < n ∧ (s.table.slot i).killed = false then .ok (s.setPlace i (.napSleep ticks0 n))
    else .ok ({ s with tickslock := none }.setPlace i .elsewhere)
  | .napSleep ticks0 n =>
    if s.ptable = none then .ok ({ s with ptable := some i, tickslock := none }.setPlace i (.napDoze ticks0 n)) else .sleep
  | .napDoze ticks0 n => s.sleep i ticksAddr (.napReacquire ticks0 n)
  | .napReacquire ticks0 n =>
    if s.tickslock = none then .ok ({ s with tickslock := some i }.setPlace i (.napLoop ticks0 n)) else .sleep

/-- A step of the process table that may come now: the process that makes it is not in the code of a pipe or in `sys_sleep`,
    or it is interrupted there while it holds no lock; the clock takes `tickslock`. -/
def free (s : Kill) : Ptable.Act → Bool
  | .fork i | .forkFails i | .forkCopies i | .forkEnds i | .exit i _ | .wait i _ | .waitAgain i | .sleep i _ | .priority i _ =>
    (s.place i).outside
  | .yield i => !(s.place i).locked
  | .tick => s.tickslock.isNone
  | .wakeup _ | .dispatch _ | .kill _ | .schedp _ => true

inductive Act where
  | table (a : Ptable.Act)
  | call (i : ProcIdx) (c : Call)
  | run (i : ProcIdx)

def step (s : Kill) : Act → Outcome Kill
  | .table a =>
    if s.free a = true ∧ s.ptable = none then do
      let table ← s.table.step a
      .ok { s with table := table }
    else .sleep
  | .call i c => if s.table.At i .user ∧ (s.place i).outside = true then .ok (s.setPlace i c.start) else .sleep
  | .run i => if (s.table.slot i).state = .running then s.run i else .sleep

/-- After boot there is one process, and the pipes are what they are. -/
def Booted (s : Kill) : Prop := ∃ ticks beyond pipe, s = { table := Ptable.boot ticks beyond, pipe := pipe }

/-- The process is in a function of a pipe, in `sys_sleep`, or in `wait` or `wait_stat`. -/
def Inside (s : Kill) (i : ProcIdx) : Prop := (s.place i).outside = false ∨ ∃ c, (s.table.slot i).pc = .waiting c

def SleepsThrough (s : Kill) : Prop :=
  s.ptable = none ∧ ∃ i, (s.table.slot i).killed = true ∧ (s.table.slot i).state = .sleeping ∧ s.Inside i

end Kill
end Xv6
