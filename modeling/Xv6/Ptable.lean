import Xv6.Lib.Traced
import Xv6.Proc

/-! The life of a process (`proc.c`): `fork`, `exit`, `wait` and `wait_stat`, `sleep`, `wakeup` and `kill`, the scheduler and
    the clock. A step is what is done under `ptable.lock`; in `fork` there are also steps without it. -/

namespace Xv6

/-- RUNNABLE, RUNNING or SLEEPING -/
def ProcState.Live : ProcState → Prop
  | .runnable | .running | .sleeping => True
  | _ => False

instance (s : ProcState) : Decidable s.Live := by
  cases s <;> first | exact isTrue trivial | exact isFalse id

namespace Ptable

/-- An address to sleep on: a slot of the table, for `wait`, or another one. -/
inductive Chan where
  | proc (i : ProcIdx)
  | other (addr : Nat)
  deriving DecidableEq

/-- A pointer to a slot as a channel. -/
def chanOf : Option ProcIdx → Chan
  | some i => .proc i
  | none => .other 0

inductive WaitCall where
  /-- `wait`; whether its pointer is not null. -/
  | wait (status : Bool)
  | waitStat
  deriving DecidableEq

inductive Pc where
  /-- In none of the functions here. -/
  | user
  /-- In `fork`, with a slot from `allocproc`. -/
  | allocated (np : ProcIdx)
  /-- In `fork`, when the child has its parent. -/
  | copied (np : ProcIdx)
  /-- Asleep in `wait` or `wait_stat`, or back from there. -/
  | waiting (c : WaitCall)
  deriving DecidableEq

/-- The fields of `struct proc` that matter here. -/
structure Slot where
  state : ProcState := .unused
  pid : UInt32 := 0
  parent : Option ProcIdx := none
  chan : Option Chan := none
  killed : Bool := false
  ntickets : Nat := 0
  priority : Int := 0
  ctime : UInt32 := 0
  ttime : UInt32 := 0
  stime : UInt32 := 0
  retime : UInt32 := 0
  rutime : UInt32 := 0
  status : UInt32 := 0
  pc : Pc := .user
  /-- The number of the process among all that there ever were, and that of the process that forked it. -/
  id : Nat := 0
  forker : Nat := 0

structure Perf where
  ctime : UInt32
  ttime : UInt32
  stime : UInt32
  retime : UInt32
  rutime : UInt32

structure Exit where
  id : Nat
  pid : UInt32
  status : UInt32
  forker : Nat

structure Reap where
  child : Nat
  reaper : Nat
  call : WaitCall
  pid : UInt32
  status : Option UInt32
  perf : Option Perf

end Ptable

structure Ptable where
  slot : ProcIdx → Ptable.Slot
  initproc : ProcIdx
  nextpid : UInt32
  ticks : UInt32
  currentPolicy : Nat
  /-- The word that `ntickets` of a slot behind the last one would be. -/
  beyond : Int
  /-- The number of processes so far. -/
  births : Nat
  exits : List Ptable.Exit := []
  reaps : List Ptable.Reap := []

namespace Ptable

def setSlot (s : Ptable) (i : ProcIdx) (p : Slot) : Ptable := { s with slot := Function.update s.slot i p }

/-- `wakeup1`. Its last statement stands behind the loop, not in it. -/
def wakeup1 (s : Ptable) (c : Chan) : Ptable :=
  let slot p := if (s.slot p).state = .sleeping ∧ (s.slot p).chan = some c then { s.slot p with state := .runnable } else s.slot p
  let beyond := if s.currentPolicy = 3 ∧ s.beyond < 90 then s.beyond + 10 else s.beyond
  { s with slot := slot, beyond := beyond }

/-- The loop of `wakeup1`, with the indices of the slots that it looks at. -/
def wakeupLoop (c : Chan) : List ProcIdx → Ptable → Traced Nat Ptable
  | [], s => pure s
  | p :: ps, s => do
    .tell p.val
    wakeupLoop c ps (if (s.slot p).state = .sleeping ∧ (s.slot p).chan = some c then s.setSlot p { s.slot p with state := .runnable } else s)

/-- `wakeup1` step by step. After the loop its pointer is behind the table, and with policy 3 it is used once more. -/
def wakeupTraced (s : Ptable) (c : Chan) : Traced Nat Ptable := do
  let s ← wakeupLoop c (List.finRange NPROC) s
  if s.currentPolicy = 3 then do
    .tell NPROC
    if s.beyond < 90 then pure { s with beyond := s.beyond + 10 } else pure s
  else pure s

/-- The part of `allocproc` under the lock. -/
def allocproc (s : Ptable) : Option (ProcIdx × Ptable) :=
  match (List.finRange NPROC).find? fun p => (s.slot p).state = .unused with
  | none => none
  | some p => some (p,
      { s with nextpid := s.nextpid + 1, births := s.births + 1 }.setSlot p
        { s.slot p with state := .embryo, pid := s.nextpid, pc := .user, id := s.births })

def forked (s : Ptable) (i np : ProcIdx) : Ptable :=
  let p := { s.slot np with priority := 10 }
  let ntickets := match s.currentPolicy with
    | 1 => 10
    | 2 => p.priority.toNat
    | 3 => 20
    | _ => p.ntickets
  s.setSlot np { p with
    ntickets := ntickets, stime := 0, rutime := 0, retime := 0, state := .runnable, ctime := s.ticks
    forker := (s.slot i).id }

/-- The loop of `exit` that passes the children to init. -/
def adopt (i : ProcIdx) : List ProcIdx → Ptable → Ptable
  | [], s => s
  | p :: ps, s =>
    if (s.slot p).parent = some i then
      let s := s.setSlot p { s.slot p with parent := some s.initproc }
      adopt i ps (if (s.slot p).state = .zombie then s.wakeup1 (.proc s.initproc) else s)
    else adopt i ps s

/-- `exit`, once its files are closed. -/
def exit (s : Ptable) (i : ProcIdx) (status : UInt32) : Ptable :=
  let s := s.wakeup1 (chanOf (s.slot i).parent)
  let s := adopt i (List.finRange NPROC) s
  let p := s.slot i
  { s with exits := ⟨p.id, p.pid, status, p.forker⟩ :: s.exits }.setSlot i
    { p with ttime := s.ticks, state := .zombie, status := status, ntickets := 0 }

def Slot.clear (p : Slot) : WaitCall → Slot
  | .wait _ => { p with status := 0, ntickets := 0, state := .unused, pid := 0, parent := none, killed := false }
  | .waitStat => { p with
      status := 0, stime := 0, retime := 0, rutime := 0, ttime := 0, ctime := 0, ntickets := 0, priority := 0
      state := .unused, pid := 0, parent := none, killed := false }

def Slot.report (p : Slot) (reaper : Nat) (c : WaitCall) : Reap where
  child := p.id
  reaper := reaper
  call := c
  pid := p.pid
  status := if c = .wait false then none else some p.status
  perf := if c = .waitStat then some ⟨p.ctime, p.ttime, p.stime, p.retime, p.rutime⟩ else none

def zombieChild (s : Ptable) (i : ProcIdx) : Option ProcIdx :=
  (List.finRange NPROC).find? fun p => (s.slot p).parent = some i ∧ (s.slot p).state = .zombie

def havekids (s : Ptable) (i : ProcIdx) : Bool := (List.finRange NPROC).any fun p => (s.slot p).parent = some i

/-- One round of the loop of `wait` or `wait_stat`. -/
def scan (s : Ptable) (i : ProcIdx) (c : WaitCall) : Ptable :=
  match s.zombieChild i with
  | some p =>
    let s := { s with reaps := (s.slot p).report (s.slot i).id c :: s.reaps }.setSlot p ((s.slot p).clear c)
    s.setSlot i { s.slot i with pc := .user }
  | none =>
    if s.havekids i = false ∨ (s.slot i).killed = true then s.setSlot i { s.slot i with pc := .user }
    else s.setSlot i { s.slot i with chan := some (.proc i), state := .sleeping, pc := .waiting c }

def kill (s : Ptable) (pid : UInt32) : Ptable :=
  match (List.finRange NPROC).find? fun p => (s.slot p).pid = pid with
  | none => s
  | some p => s.setSlot p { s.slot p with
      killed := true, ttime := s.ticks, state := if (s.slot p).state = .sleeping then .runnable else (s.slot p).state }

/-- `updatePerformanceFields` -/
def Slot.tick (p : Slot) : Slot :=
  match p.state with
  | .running => { p with rutime := p.rutime + 1 }
  | .sleeping => { p with stime := p.stime + 1 }
  | .runnable => { p with retime := p.retime + 1 }
  | _ => p

inductive Act where
  | fork (i : ProcIdx)
  /-- There is no memory for the child. -/
  | forkFails (i : ProcIdx)
  | forkCopies (i : ProcIdx)
  | forkEnds (i : ProcIdx)
  | exit (i : ProcIdx) (status : UInt32)
  | wait (i : ProcIdx) (c : WaitCall)
  /-- The process is back from its sleep in `wait`. -/
  | waitAgain (i : ProcIdx)
  /-- The process sleeps on an address, in any other function. -/
  | sleep (i : ProcIdx) (addr : Nat)
  | wakeup (addr : Nat)
  | yield (i : ProcIdx)
  | dispatch (i : ProcIdx)
  | kill (pid : UInt32)
  /-- `ticks++` and `updatePerformanceFields` -/
  | tick
  | schedp (policy : Nat)
  | priority (i : ProcIdx) (priority : Int)

def At (s : Ptable) (i : ProcIdx) (pc : Pc) : Prop := (s.slot i).state = .running ∧ (s.slot i).pc = pc

instance (s : Ptable) (i : ProcIdx) (pc : Pc) : Decidable (s.At i pc) := inferInstanceAs (Decidable (_ ∧ _))

def step (s : Ptable) : Act → Outcome Ptable
  | .fork i =>
    if s.At i .user then
      match s.allocproc with
      | none => .ok s
      | some (np, s) => .ok (s.setSlot i { s.slot i with pc := .allocated np })
    else .sleep
  | .forkFails i =>
    match (s.slot i).pc with
    | .allocated np =>
      if (s.slot i).state = .running then
        let s := s.setSlot np { s.slot np with state := .unused }
        .ok (s.setSlot i { s.slot i with pc := .user })
      else .sleep
    | _ => .sleep
  | .forkCopies i =>
    match (s.slot i).pc with
    | .allocated np =>
      if (s.slot i).state = .running then
        let s := s.setSlot np { s.slot np with parent := some i }
        .ok (s.setSlot i { s.slot i with pc := .copied np })
      else .sleep
    | _ => .sleep
  | .forkEnds i =>
    match (s.slot i).pc with
    | .copied np =>
      if (s.slot i).state = .running then
        let s := s.forked i np
        .ok (s.setSlot i { s.slot i with pc := .user })
      else .sleep
    | _ => .sleep
  | .exit i status =>
    if s.At i .user then
      if i = s.initproc then .panic "init exiting" else .ok (s.exit i status)
    else .sleep
  | .wait i c => if s.At i .user then .ok (s.scan i c) else .sleep
  | .waitAgain i =>
    match (s.slot i).pc with
    | .waiting c => if (s.slot i).state = .running then .ok (s.scan i c) else .sleep
    | _ => .sleep
  | .sleep i addr =>
    if s.At i .user then .ok (s.setSlot i { s.slot i with chan := some (.other addr), state := .sleeping }) else .sleep
  | .wakeup addr => .ok (s.wakeup1 (.other addr))
  | .yield i =>
    if (s.slot i).state = .running then
      let p := s.slot i
      let ntickets := if s.currentPolicy = 3 ∧ 1 < p.ntickets then p.ntickets - 1 else p.ntickets
      .ok (s.setSlot i { p with state := .runnable, ntickets := ntickets })
    else .sleep
  | .dispatch i =>
    if (s.slot i).state = .runnable then .ok (s.setSlot i { s.slot i with state := .running, chan := none }) else .sleep
  | .kill pid => .ok (s.kill pid)
  | .tick => .ok { s with ticks := s.ticks + 1, slot := fun p => (s.slot p).tick }
  | .schedp policy =>
    if 1 ≤ policy ∧ policy ≤ 3 then .ok { s with currentPolicy := policy } else .panic "schedp: policy needs to be 1/2/3"
  | .priority i priority =>
    if s.At i .user then .ok (s.setSlot i { s.slot i with priority := priority }) else .sleep

def boot (ticks : UInt32) (beyond : Int) : Ptable where
  slot i := if i = 0 then { state := .runnable, pid := 1, ntickets := 10, priority := 10, ctime := ticks } else {}
  initproc := 0
  nextpid := 2
  ticks := ticks
  currentPolicy := 1
  beyond := beyond
  births := 1

end Ptable
end Xv6
