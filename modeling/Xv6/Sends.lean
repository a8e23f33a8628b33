import Xv6.Ptable

/-! Whom `kill` and `sigsend` reach (`proc.c`): the process table with the pending signals of each slot. What `kill` does to
    the table is `Ptable.kill`; here it also returns. -/

namespace Xv6
open Function (update)

/-- A child when `fork` makes it runnable, with the signals that have been sent to its pid. -/
structure Sends.Start where
  pid : UInt32
  killed : Bool
  pending : UInt32
  sent : UInt32

structure Sends where
  table : Ptable
  pending : ProcIdx → UInt32 := fun _ => 0
  /-- The signals sent to the pid of the slot since it was allocated; no data of the kernel, as is `started`. -/
  sent : ProcIdx → UInt32 := fun _ => 0
  started : List Sends.Start := []

namespace Sends

def kill (s : Sends) (pid : UInt32) : UInt32 × Sends :=
  match (List.finRange NPROC).find? fun p => (s.table.slot p).pid = pid with
  | none => (0xffffffff, s)
  | some _ => (0, { s with table := s.table.kill pid })

def sigsend (s : Sends) (pid signum : UInt32) : UInt32 × Sends :=
  if NUMSIG ≤ signum.toNat then (0xffffffff, s)
  else match (List.finRange NPROC).find? fun p => (s.table.slot p).pid = pid with
    | none => (0xffffffff, s)
    | some p => (0, { s with
        pending := update s.pending p (s.pending p ||| (1 <<< signum))
        sent := fun q => if (s.table.slot q).pid = pid then s.sent q ||| (1 <<< signum) else s.sent q })

/-- `set_default_handlers`, called by `allocproc`. -/
def setDefaultHandlers (s : Sends) (np : ProcIdx) : Sends :=
  { s with pending := update s.pending np 0, sent := update s.sent np 0 }

def start (s : Sends) (np : ProcIdx) : Start where
  pid := (s.table.slot np).pid
  killed := (s.table.slot np).killed
  pending := s.pending np
  sent := s.sent np

inductive Act where
  /-- A step of the table other than `kill`. -/
  | table (a : Ptable.Act)
  | kill (pid : UInt32)
  | sigsend (pid signum : UInt32)
  /-- `do_signal` takes the first signal that is pending. -/
  | deliver (i : ProcIdx)

def step (s : Sends) : Act → Outcome Sends
  | .table (.kill _) => .sleep
  | .table (.fork i) => do
    let t ← s.table.step (.fork i)
    let s' := { s with table := t }
    match (t.slot i).pc with
    | .allocated np => .ok (s'.setDefaultHandlers np)
    -- `allocproc` has found no slot.
    | _ => .ok s'
  | .table (.forkEnds i) => do
    let t ← s.table.step (.forkEnds i)
    let s' := { s with table := t }
    match (s.table.slot i).pc with
    | .copied np => .ok { s' with started := s'.start np :: s'.started }
    | _ => .ok s'
  | .table a => do
    let t ← s.table.step a
    .ok { s with table := t }
  | .kill pid => .ok (s.kill pid).2
  | .sigsend pid signum => .ok (s.sigsend pid signum).2
  | .deliver i =>
    if s.table.At i .user then
      match Proc.firstPending (s.pending i) with
      | none => .ok s
      | some signum =>
        .ok { s with pending := update s.pending i (s.pending i &&& ~~~(1 <<< UInt32.ofNat signum)) }
    else .sleep

end Sends
end Xv6
