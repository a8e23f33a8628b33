import Xv6.Ptable
import Xv6.Sched

/-! Several processors (`proc.c`): each runs `scheduler`, or a process that its scheduler has switched to. Between two steps
    `ptable.lock` is free. -/

namespace Xv6
open Function (update)

def Ptable.table (s : Ptable) : Sched.Table := fun p =>
  { state := (s.slot p).state, ntickets := (s.slot p).ntickets, priority := (s.slot p).priority, pid := (s.slot p).pid }

/-- The local variables of `scheduler` when it has switched to a process: the slots behind that process are still to be
    looked at. -/
structure DispatchLoop where
  chosenTicket : Nat
  ticketCounter : Nat
  rest : List ProcIdx

structure Smp (ι : Type) where
  ptable : Ptable
  /-- `next` of `rand` -/
  next : UInt32
  /-- `proc` of each processor; with none it is in `scheduler`. -/
  proc : ι → Option ProcIdx
  loop : ι → DispatchLoop

namespace Smp
variable {ι : Type} [DecidableEq ι]

/-- What a processor does between two times that `ptable.lock` is free. -/
inductive Act (ι : Type) where
  | start (c : ι)
  | scheduler (c : ι)
  /-- The process that runs on the processor makes a step, or kernel code does that acts for nobody, such as an
      interrupt handler. -/
  | kernel (c : ι) (a : Ptable.Act)

/-- The dispatch loop of `scheduler`, up to the process that it switches to. -/
def scan (s : Ptable) (chosenTicket : Nat) : List ProcIdx → Nat → Option (ProcIdx × DispatchLoop)
  | [], _ => none
  | p :: ps, ticketCounter =>
    let ticketCounter := ticketCounter + (s.slot p).ntickets
    if ticketCounter ≤ chosenTicket then scan s chosenTicket ps ticketCounter
    else if (s.slot p).state ≠ .runnable then none
    else some (p, ⟨chosenTicket, ticketCounter, ps⟩)

/-- `scheduler` goes on in its loop: it switches to a process, which releases the lock, or it releases the lock itself. -/
def resume (s : Smp ι) (c : ι) (l : DispatchLoop) : Outcome (Smp ι) :=
  match scan s.ptable l.chosenTicket l.rest l.ticketCounter with
  | none => .ok { s with proc := update s.proc c none }
  | some (p, l) => do
    let ptable ← s.ptable.step (.dispatch p)
    pure { s with ptable := ptable, proc := update s.proc c (some p), loop := update s.loop c l }

/-- The steps of a process are made by the processor that runs it; only `scheduler` dispatches. -/
def Runs (s : Smp ι) (c : ι) (a : Ptable.Act) : Prop :=
  match a with
  | .fork i | .forkFails i | .forkCopies i | .forkEnds i | .exit i _ | .wait i _ | .waitAgain i | .sleep i _ | .yield i
  | .priority i _ => s.proc c = some i
  | .dispatch _ => False
  | .wakeup _ | .kill _ | .tick | .schedp _ => True

instance (s : Smp ι) (c : ι) : (a : Ptable.Act) → Decidable (s.Runs c a)
  | .fork _ | .forkFails _ | .forkCopies _ | .forkEnds _ | .exit _ _ | .wait _ _ | .waitAgain _ | .sleep _ _ | .yield _
  | .priority _ _ => inferInstanceAs (Decidable (_ = _))
  | .dispatch _ => inferInstanceAs (Decidable False)
  | .wakeup _ | .kill _ | .tick | .schedp _ => inferInstanceAs (Decidable True)

/-- The process that runs on the processor is about to call `sched`: it has changed its state. -/
def Leaves (s : Smp ι) (c : ι) : Prop := ∃ p, s.proc c = some p ∧ (s.ptable.slot p).state ≠ .running

instance (s : Smp ι) (c : ι) : Decidable (s.Leaves c) :=
  match h : s.proc c with
  | none => isFalse fun ⟨p, hp, _⟩ => by rw [h] at hp; cases hp
  | some p => decidable_of_iff ((s.ptable.slot p).state ≠ .running)
      ⟨fun hne => ⟨p, h, hne⟩, fun ⟨q, hq, hne⟩ => by rw [h] at hq; cases hq; exact hne⟩

def step (s : Smp ι) : Act ι → Outcome (Smp ι)
  | .start c => if s.proc c = none then .ok { s with next := Sched.srand s.ptable.ticks } else .sleep
  | .scheduler c =>
    if s.proc c = none then do
      let ticketCounterAll ← Sched.countTickets s.ptable.table (List.finRange NPROC) 1
      let (chosenTicket, next) ← Sched.rand s.next ticketCounterAll
      { s with next := next }.resume c ⟨chosenTicket, 0, List.finRange NPROC⟩
    else .sleep
  | .kernel c a =>
    if s.Runs c a then do
      let ptable ← s.ptable.step a
      let s := { s with ptable := ptable }
      if s.Leaves c then s.resume c (s.loop c) else pure s
    else .sleep

def boot (ticks : UInt32) (beyond : Int) (loop : ι → DispatchLoop) : Smp ι where
  ptable := .boot ticks beyond
  next := Sched.srand ticks
  proc _ := none
  loop := loop

end Smp
end Xv6
