import Xv6.Vm

/-! Processes and their signals (`proc.h`, `proc.c`, `trap.c`). A process is a record; pointers into the process table
    are slots. -/

namespace Xv6

/-! ### Records -/

/-- `struct trapframe`; `struct bu_tf` has the same fields. -/
structure TrapFrame where
  edi : UInt32 := 0
  esi : UInt32 := 0
  ebp : UInt32 := 0
  oesp : UInt32 := 0
  ebx : UInt32 := 0
  edx : UInt32 := 0
  ecx : UInt32 := 0
  eax : UInt32 := 0
  gs : UInt16 := 0
  padding1 : UInt16 := 0
  fs : UInt16 := 0
  padding2 : UInt16 := 0
  es : UInt16 := 0
  padding3 : UInt16 := 0
  ds : UInt16 := 0
  padding4 : UInt16 := 0
  trapno : UInt32 := 0
  err : UInt32 := 0
  eip : UInt32 := 0
  cs : UInt16 := 0
  padding5 : UInt16 := 0
  eflags : UInt32 := 0
  esp : UInt32 := 0
  ss : UInt16 := 0
  padding6 : UInt16 := 0
  deriving DecidableEq

inductive ProcState where
  | unused | embryo | sleeping | runnable | running | zombie
  deriving DecidableEq

abbrev ProcIdx := Fin NPROC

/-- `struct proc`; all fields are 0 at boot. -/
structure Proc where
  sz : Nat := 0
  pgdir : Option Pgdir := none
  state : ProcState := .unused
  pid : UInt32 := 0
  parent : Option ProcIdx := none
  tf : TrapFrame := {}
  /-- `backup_tf` -/
  backupTf : TrapFrame := {}
  killed : Bool := false
  ofile : Fin NOFILE → Option Nat := fun _ => none
  cwd : Option InodeIdx := none
  name : List UInt8 := []
  ntickets : Nat := 0
  priority : Int := 0
  status : UInt32 := 0
  pending : UInt32 := 0
  /-- `handling_signal` -/
  handlingSignal : Bool := false
  /-- `handlers_array` -/
  handlers : Fin NUMSIG → UInt32 := fun _ => 0
  /-- `ret_add` -/
  retAdd : UInt32 := 0

/-! ### Selectors and flags (`mmu.h`) -/

abbrev DPL_USER : UInt16 := 3
/-- `(SEG_UCODE << 3) | DPL_USER` -/
abbrev USER_CS : UInt16 := 0x23
/-- `(SEG_UDATA << 3) | DPL_USER` -/
abbrev USER_DS : UInt16 := 0x2b
abbrev FL_IF : UInt32 := 0x200

/-- The frame of a trap from user mode: user selectors, and interrupts enabled. -/
structure UserFrame (tf : TrapFrame) : Prop where
  cs : tf.cs = USER_CS
  ds : tf.ds = USER_DS
  es : tf.es = USER_DS
  ss : tf.ss = USER_DS
  intr : tf.eflags &&& FL_IF ≠ 0

instance (tf : TrapFrame) : Decidable (UserFrame tf) :=
  decidable_of_iff (tf.cs = USER_CS ∧ tf.ds = USER_DS ∧ tf.es = USER_DS ∧ tf.ss = USER_DS ∧ tf.eflags &&& FL_IF ≠ 0)
    ⟨fun ⟨cs, ds, es, ss, intr⟩ => ⟨cs, ds, es, ss, intr⟩, fun ⟨cs, ds, es, ss, intr⟩ => ⟨cs, ds, es, ss, intr⟩⟩

/-! ### Signals -/

namespace Proc

def saveTf (p : Proc) : Proc := { p with backupTf := {
  edi := p.tf.edi, esi := p.tf.esi, ebp := p.tf.ebp, oesp := p.tf.oesp, ebx := p.tf.ebx, edx := p.tf.edx
  ecx := p.tf.ecx, eax := p.tf.eax, gs := p.tf.gs, padding1 := p.tf.padding1, fs := p.tf.fs
  padding2 := p.tf.padding2, es := p.tf.es, padding3 := p.tf.padding3, ds := p.tf.ds, padding4 := p.tf.padding4
  trapno := p.tf.trapno, err := p.tf.err, eip := p.tf.eip, cs := p.tf.cs, padding5 := p.tf.padding5
  eflags := p.tf.eflags, esp := p.tf.esp, ss := p.tf.ss, padding6 := p.tf.padding6 } }

def restoreTf (p : Proc) : Proc := { p with tf := {
  edi := p.backupTf.edi, esi := p.backupTf.esi, ebp := p.backupTf.ebp, oesp := p.backupTf.oesp, ebx := p.backupTf.ebx
  edx := p.backupTf.edx, ecx := p.backupTf.ecx, eax := p.backupTf.eax, gs := p.backupTf.gs
  padding1 := p.backupTf.padding1, fs := p.backupTf.fs, padding2 := p.backupTf.padding2, es := p.backupTf.es
  padding3 := p.backupTf.padding3, ds := p.backupTf.ds, padding4 := p.backupTf.padding4
  trapno := p.backupTf.trapno, err := p.backupTf.err, eip := p.backupTf.eip, cs := p.backupTf.cs
  padding5 := p.backupTf.padding5, eflags := p.backupTf.eflags, esp := p.backupTf.esp, ss := p.backupTf.ss
  padding6 := p.backupTf.padding6 } }

/-- The handler that stands for `default_handler`. -/
abbrev SIG_DFL : UInt32 := 0xffffffff

def setDefaultHandlers (p : Proc) : Proc := { p with pending := 0, handlingSignal := false, handlers := fun _ => SIG_DFL }

/-- `signal`: the former handler, or -1. -/
def signal (p : Proc) (signum handler : UInt32) : UInt32 × Proc :=
  if h : signum.toNat < NUMSIG then
    (p.handlers ⟨signum.toNat, h⟩, { p with handlers := Function.update p.handlers ⟨signum.toNat, h⟩ handler })
  else (0xffffffff, p)

/-- `sys_signal` once its arguments have been fetched: `argptr` wants the handler to lie in the process. -/
def sysSignal (p : Proc) (signum handler : UInt32) : UInt32 × Proc :=
  if p.sz ≤ handler.toNat ∨ p.sz < (handler.toNat + 4) % 2 ^ 32 then (0xffffffff, p) else p.signal signum handler

def sigreturn (p : Proc) : UInt32 × Proc := (0, restoreTf { p with handlingSignal := false })

def defaultHandler (p : Proc) : Proc := { p with handlingSignal := false }

/-- The loop of `do_signal`: the first signal that is pending. -/
def firstPending (pending : UInt32) : Option (Fin NUMSIG) :=
  (List.finRange NUMSIG).find? fun i => pending &&& (1 <<< UInt32.ofNat i) ≠ 0

/-- A word stored to user memory: address and value. -/
abbrev Push := UInt32 × UInt32

/-- `do_signal`, on the frame of a trap; its stores through the user's stack pointer are returned. For a trap from user
    mode the frame is the one that `proc->tf` points to. -/
def doSignal (p : Proc) : Proc × List Push :=
  if p.tf.cs &&& 3 = DPL_USER ∧ p.pending ≠ 0 ∧ p.handlingSignal = false then
    let p := { p with handlingSignal := true }
    match firstPending p.pending with
    | none => (p, [])
    | some signum =>
      let p := { p with pending := p.pending &&& ~~~(1 <<< UInt32.ofNat signum) }
      if p.handlers signum = SIG_DFL then (defaultHandler p, [])
      else
        let p := saveTf p
        ({ p with tf := { p.tf with esp := p.tf.esp - 4 - 4, eip := p.handlers signum } },
          [(p.tf.esp - 4, UInt32.ofNat signum), (p.tf.esp - 4 - 4, p.retAdd)])
  else (p, [])

end Proc
end Xv6
