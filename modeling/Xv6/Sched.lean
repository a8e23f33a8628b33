import Xv6.Proc

/-! The scheduler (`proc.c`): it draws a ticket and walks the process table. -/

namespace Xv6
namespace Sched

abbrev INT_MAX : Nat := 2 ^ 31 - 1

abbrev Table := ProcIdx → Proc

/-- Addition of `int`s, where what overflows has no meaning. -/
def add (a b : Nat) : Outcome Nat := if a + b ≤ INT_MAX then .ok (a + b) else .panic "overflow"

/-- The variable `next` after `srand`. -/
def srand (seed : UInt32) : UInt32 := seed

/-- A number up to `ticketsSum`, and the new value of `next`. -/
def rand (next : UInt32) (ticketsSum : Nat) : Outcome (Nat × UInt32) := do
  let next := next * 1103515245 + 12345
  let n ← add ticketsSum 1
  let twice ← add n n
  .ok (next.toNat / twice % n, next)

def countTickets (table : Table) : List ProcIdx → Nat → Outcome Nat
  | [], all => .ok all
  | p :: ps, all =>
    if (table p).state ≠ .zombie then do
      let all ← add all (table p).ntickets
      countTickets table ps all
    else countTickets table ps all

/-- The table when the scheduler switches to `p`. -/
def switchTo (table : Table) (p : ProcIdx) : Table := Function.update table p { table p with state := .running }

/-- The dispatch loop: the processes that get the processor, and the table at its end. What the table looks like when
    process `p` gives the processor back is `ran p`. -/
def dispatch (ran : ProcIdx → Table → Table) (chosenTicket : Nat) :
    List ProcIdx → Table → Nat → Outcome (List ProcIdx × Table)
  | [], table, _ => .ok ([], table)
  | p :: ps, table, ticketCounter => do
    let ticketCounter ← add ticketCounter (table p).ntickets
    if ticketCounter ≤ chosenTicket then dispatch ran chosenTicket ps table ticketCounter
    else if (table p).state ≠ .runnable then .ok ([], table)
    else
      -- The loop goes on after the context switch.
      let (more, table) ← dispatch ran chosenTicket ps (ran p (switchTo table p)) ticketCounter
      .ok (p :: more, table)

def pass (ran : ProcIdx → Table → Table) (next : UInt32) (table : Table) : Outcome (List ProcIdx × Table × UInt32) := do
  let ticketCounterAll ← countTickets table (List.finRange NPROC) 1
  let (chosenTicket, next) ← rand next ticketCounterAll
  let (dispatched, table) ← dispatch ran chosenTicket (List.finRange NPROC) table 0
  .ok (dispatched, table, next)

end Sched
end Xv6
