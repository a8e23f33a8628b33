import Xv6.Exec
import Xv6.Signal

/-! How a process exits when `main` returns (`exit_ext.S`, `trap.c`, `syscall.c`, `sysproc.c`): the instructions that
    `exec` puts on the stack, on a processor that knows these three, and the system call that they make. -/

namespace Xv6
open Bytes

/-- A byte that is mapped; `user` is `PTE_U`. -/
structure Cell where
  byte : UInt8
  user : Bool
  deriving DecidableEq

abbrev Space := Nat → Option Cell

namespace Space

/-- `n` bytes as the kernel reads them. -/
def kload (m : Space) (a n : Nat) : Option (List UInt8) := (List.range n).mapM fun j => (m (a + j)).map Cell.byte

/-- `n` bytes as the process reads them. -/
def load (m : Space) (a n : Nat) : Option (List UInt8) :=
  (List.range n).mapM fun j => ((m (a + j)).filter Cell.user).map Cell.byte

/-- A store of the process, whose pages can all be written. -/
def store (m : Space) (a : Nat) (bs : List UInt8) : Option Space := do
  let _ ← m.load a bs.length
  pure fun x => if a ≤ x ∧ x < a + bs.length then some ⟨bs.getD (x - a) 0, true⟩ else m x

end Space

def Kernel.space (k : Kernel) : Space := fun va =>
  match k.proc.pgdir with
  | none => none
  | some d =>
    match d.table (va / PGSIZE / NPTENTRIES), d.pte (va / PGSIZE) with
    | some _, some e => some ⟨(k.vm.mem e.page).byte (va % PGSIZE), e.user⟩
    | _, _ => none

/-! ### User mode -/

structure Cpu where
  eip : UInt32
  esp : UInt32
  eax : UInt32
  mem : Space

inductive Instr where
  /-- `pushl %eax` -/
  | push
  /-- `movl $imm,%eax` -/
  | mov (imm : UInt32)
  /-- `int $n` -/
  | int (n : UInt32)

namespace Cpu

/-- The instruction at `eip` and its length; nothing stands for a fault or another instruction. -/
def fetch (c : Cpu) : Option (Instr × UInt32) := do
  match ← c.mem.load c.eip.toNat 1 with
  | [0x50] => pure (.push, 1)
  | [0xb8] =>
    let imm ← c.mem.load (c.eip + 1).toNat 4
    pure (.mov (.ofNat (ofLe imm)), 5)
  | [0xcd] =>
    let n ← c.mem.load (c.eip + 1).toNat 1
    pure (.int (.ofNat (ofLe n)), 2)
  | _ => none

/-- Run up to an `int`: its number, and the registers that the trap frame gets. -/
def run : Nat → Cpu → Option (UInt32 × Cpu)
  | 0, _ => none
  | left + 1, c => do
    let (i, len) ← c.fetch
    match i with
    | .push =>
      let mem ← c.mem.store (c.esp - 4).toNat (toLe 4 c.eax.toNat)
      run left { c with eip := c.eip + len, esp := c.esp - 4, mem := mem }
    | .mov imm => run left { c with eip := c.eip + len, eax := imm }
    | .int n => pure (n, { c with eip := c.eip + len })

def ret (c : Cpu) : Option Cpu := do
  let pc ← c.mem.load c.esp.toNat 4
  pure { c with eip := .ofNat (ofLe pc), esp := c.esp + 4 }

end Cpu

/-! ### System calls -/

abbrev SYS_exit : UInt32 := 2

/-- The int at `addr` of a process of size `sz`, or nothing for -1. -/
def fetchint (sz : Nat) (m : Space) (addr : UInt32) : Outcome (Option UInt32) :=
  if sz ≤ addr.toNat ∨ sz < (addr + 4).toNat then .ok none
  else match m.kload addr.toNat 4 with
    | none => .panic "trap"
    | some bs => .ok (some (.ofNat (ofLe bs)))

def argint (sz : Nat) (m : Space) (esp n : UInt32) : Outcome (Option UInt32) := fetchint sz m (esp + 4 + 4 * n)

/-- The status with which `sys_exit` calls `exit`, or nothing if it returns. -/
def sysExit (sz : Nat) (c : Cpu) : Outcome (Option UInt32) := argint sz c.mem c.esp 0

/-- `trap` for an `int` of process `p`: the status with which it exits, or nothing if it goes on. Of the system calls
    only `exit` is of interest here. The other numbers are not for user mode, and a process that uses them is killed. -/
def trap (p : Proc) (n : UInt32) (c : Cpu) : Outcome (Option UInt32) :=
  if n = T_SYSCALL then
    if p.killed then .ok (some 0)
    else if c.eax = SYS_exit then sysExit p.sz c
    else .ok none
  else .ok (some 0)

/-- The status with which process `p` exits at the next `int` that it gets to in `left` steps. -/
def exitStatus (p : Proc) (left : Nat) (c : Cpu) : Outcome (Option UInt32) :=
  match c.run left with
  | none => .ok none
  | some (n, c) => trap p n c

end Xv6
