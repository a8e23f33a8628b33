import Xv6.Sysfile

/-! `fork` with the memory that it takes (`proc.c`). Of the times that `fork` records, and of what `allocproc` puts on the
    new kernel stack, nothing is modelled here. -/

namespace Xv6
open Function (update)

structure Forkable where
  os : Os
  vm : Vm
  /-- The page of the kernel stack of each process. -/
  kstack : ProcIdx → Option Nat
  nextpid : UInt32
  currentPolicy : Nat

namespace Forkable

def setProc (k : Forkable) (i : ProcIdx) (p : Proc) : Forkable := { k with os := k.os.setProc i p }

def unused (k : Forkable) : Option ProcIdx := (List.finRange NPROC).find? fun i => (k.os.proc i).state = .unused

def allocproc (k : Forkable) : Option ProcIdx × Forkable :=
  match k.unused with
  | none => (none, k)
  | some i =>
    let p := ({ k.os.proc i with state := .embryo, pid := k.nextpid } : Proc).setDefaultHandlers
    let k := { k with nextpid := k.nextpid + 1 }
    match k.vm.kalloc with
    | none => (none, { k with kstack := update k.kstack i none }.setProc i { p with state := .unused })
    | some (t, vm) => (some i, { k with vm := vm, kstack := update k.kstack i (some t) }.setProc i p)

def finish (k : Forkable) (i np : ProcIdx) (d : Pgdir) : Outcome (Int × Forkable) := do
  let p := k.os.proc i
  let child := { k.os.proc np with pgdir := some d, sz := p.sz, parent := some i, tf := { p.tf with eax := 0 } }
  let os ← Os.forkFiles i np (List.finRange NOFILE) (k.os.setProc np child)
  match p.cwd with
  | none => .panic "trap"
  | some cwd =>
    let os := (os.setFs (os.fs.idup cwd)).setCwd np (some cwd)
    let child := { os.proc np with name := p.name, priority := 10 }
    let os := os.setProc np { child with ntickets := Procs.newTickets k.currentPolicy child, state := .runnable }
    pure (child.pid.toInt32.toInt, { k with os := os })

def fork (k : Forkable) (i : ProcIdx) : Outcome (Int × Forkable) :=
  match k.allocproc with
  | (none, k) => .ok (-1, k)
  | (some np, k) =>
    match (k.os.proc i).pgdir with
    | none => .panic "trap"
    | some pgdir => do
      let (d, vm) ← k.vm.copyuvm pgdir (k.os.proc i).sz
      match d with
      | none => do
        let vm ← vm.kfree ((k.kstack np).getD 0)
        let k := { k with vm := vm, kstack := update k.kstack np none }
        pure (-1, k.setProc np { k.os.proc np with pgdir := none, state := .unused })
      | some d => finish { k with vm := vm } i np d

end Forkable
end Xv6
