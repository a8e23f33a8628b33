import Xv6.Proc

/-! Processes that trap into the kernel, call it and return through `trapret` (`trap.c`, `syscall.c`, `proc.c`), as a
    machine. A system call takes effect in one step. What user code does is free: it traps with any frame that the
    hardware can save. Scheduling, sleeping and the memory of processes play no part here; what a call reads from
    user memory or needs memory for is an argument of its step. -/

namespace Xv6
open Function (update)

/-- Where a process is: in user code, in `trap` on behalf of it, or about to return through `trapret`. -/
inductive Phase where
  | user | kernel | leaving
  deriving DecidableEq

/-- The process table. The last four fields are no data of the kernel, they record what has happened. -/
structure Procs where
  proc : ProcIdx → Proc
  phase : ProcIdx → Phase
  nextpid : UInt32
  /-- `currentPolicy` -/
  policy : Nat
  /-- Since boot, a handler has been called in the slot. -/
  saved : ProcIdx → Bool
  /-- Where the `exec` that built the image of the process put the trampoline. -/
  image : ProcIdx → Option UInt32
  /-- Where the last `exec` in the slot put the trampoline. -/
  lastExec : ProcIdx → UInt32
  /-- The process has called `exec` itself. -/
  execd : ProcIdx → Bool

/-- How an `exec` ended; `failedLate` is a failure after the trampoline was copied. -/
inductive ExecResult where
  | ok (eip esp tramp : UInt32) (sz : Nat)
  | failed
  | failedLate (tramp : UInt32)

/-- How a `fork` ended that found a free slot: the kernel stack, then the address space, may not fit in memory. -/
inductive ForkResult where
  | ok | noStack | noMemory

/-- System calls; `badArgs` is one whose arguments cannot be fetched, `other` one that only returns and maybe changes the
    size of the process. -/
inductive Procs.Call where
  | fork (r : ForkResult)
  | wait (child : ProcIdx)
  | exec (r : ExecResult)
  | signal (signum handler : UInt32)
  | sigsend (pid : UInt32) (signum : UInt32)
  | sigreturn
  | badArgs
  | other (result : UInt32) (sz : Nat)

/-- The numbers in `eax` for which the call is made (`syscall.h`). -/
def Procs.Call.Numbered (num : UInt32) : Procs.Call → Prop
  | .fork _ => num = 1
  | .wait _ => num = 3 ∨ num = 24
  | .exec _ => num = 7
  | .signal _ _ => num = 25
  | .sigsend _ _ => num = 26
  | .sigreturn => num = 27
  | .badArgs => num = 7 ∨ num = 25 ∨ num = 26
  | .other _ _ => num ≠ 1 ∧ num ≠ 7 ∧ num ≠ 25 ∧ num ≠ 26 ∧ num ≠ 27

instance (num : UInt32) : (c : Procs.Call) → Decidable (c.Numbered num)
  | .fork _ => inferInstanceAs (Decidable (_ = _))
  | .wait _ => inferInstanceAs (Decidable (_ ∨ _))
  | .exec _ => inferInstanceAs (Decidable (_ = _))
  | .signal _ _ => inferInstanceAs (Decidable (_ = _))
  | .sigsend _ _ => inferInstanceAs (Decidable (_ = _))
  | .sigreturn => inferInstanceAs (Decidable (_ = _))
  | .badArgs => inferInstanceAs (Decidable (_ ∨ _))
  | .other _ _ => inferInstanceAs (Decidable (_ ∧ _))

inductive Procs.Act where
  /-- A trap from user mode: the frame that the hardware and `alltraps` save. -/
  | enter (i : ProcIdx) (tf : TrapFrame)
  /-- `trap` handles an interrupt. -/
  | interrupt (i : ProcIdx)
  /-- `trap` runs `syscall`. -/
  | sys (i : ProcIdx) (c : Procs.Call)
  /-- `exit`, called by the process or in its place after a `kill`. -/
  | exit (i : ProcIdx) (status : UInt32)
  /-- `trapret` -/
  | ret (i : ProcIdx)

abbrev T_SYSCALL : UInt32 := 64

namespace Procs
open Proc

def setProc (s : Procs) (i : ProcIdx) (p : Proc) : Procs := { s with proc := update s.proc i p }

def newTickets (policy : Nat) (p : Proc) : Nat :=
  if policy = 1 then 10 else if policy = 2 then 10 else if policy = 3 then 20 else p.ntickets

def fork (s : Procs) (i : ProcIdx) (r : ForkResult) : UInt32 × Procs :=
  match (List.finRange NPROC).find? fun j => (s.proc j).state = .unused with
  | none => (0xffffffff, s)
  | some j =>
    -- `allocproc`
    let np := ({ s.proc j with state := .embryo, pid := s.nextpid } : Proc).setDefaultHandlers
    let s := { s with nextpid := s.nextpid + 1 }
    match r with
    | .noStack => (0xffffffff, s.setProc j { np with state := .unused })
    | .noMemory => (0xffffffff, s.setProc j { np with state := .unused })
    | .ok =>
      let p := s.proc i
      let np := { np with
        sz := p.sz, parent := some i, tf := { p.tf with eax := 0 }, ofile := p.ofile, cwd := p.cwd, name := p.name
        priority := 10, ntickets := newTickets s.policy np, state := .runnable }
      (np.pid, { s.setProc j np with
        phase := update s.phase j .leaving
        image := update s.image j (s.image i)
        execd := update s.execd j false })

def wait (s : Procs) (child : ProcIdx) : UInt32 × Procs :=
  let p := s.proc child
  (p.pid, s.setProc child
    { p with status := 0, ntickets := 0, state := .unused, pid := 0, parent := none, name := [], killed := false })

def exec (s : Procs) (i : ProcIdx) : ExecResult → UInt32 × Procs
  | .ok eip esp tramp sz =>
    (0, { s.setProc i { s.proc i with retAdd := tramp, sz := sz, tf := { (s.proc i).tf with eip := eip, esp := esp } } with
      image := update s.image i (some tramp)
      lastExec := update s.lastExec i tramp
      execd := update s.execd i true })
  | .failed => (0xffffffff, s)
  | .failedLate tramp =>
    (0xffffffff, { s.setProc i { s.proc i with retAdd := tramp } with lastExec := update s.lastExec i tramp })

def sigsend (s : Procs) (pid : UInt32) (signum : UInt32) : UInt32 × Procs :=
  if NUMSIG ≤ signum.toNat then (0xffffffff, s)
  else match (List.finRange NPROC).find? fun j => (s.proc j).pid = pid with
    | none => (0xffffffff, s)
    | some j => (0, s.setProc j { s.proc j with pending := (s.proc j).pending ||| (1 <<< signum) })

def call (s : Procs) (i : ProcIdx) : Call → UInt32 × Procs
  | .fork r => s.fork i r
  | .wait child => s.wait child
  | .exec r => s.exec i r
  | .signal signum handler => ((s.proc i).sysSignal signum handler).map id (s.setProc i)
  | .sigsend pid signum => s.sigsend pid signum
  | .sigreturn => (s.proc i).sigreturn.map id (s.setProc i)
  | .badArgs => (0xffffffff, s)
  | .other result sz =>
    if 0 < (s.proc i).tf.eax ∧ (s.proc i).tf.eax < 28 then (result, s.setProc i { s.proc i with sz := sz })
    else (0xffffffff, s)

/-- `syscall`: the result goes to the frame as it is after the call. -/
def syscall (s : Procs) (i : ProcIdx) (c : Call) : Procs :=
  let (result, s) := s.call i c
  s.setProc i { s.proc i with tf := { (s.proc i).tf with eax := result } }

abbrev initproc : ProcIdx := 0

def exit (s : Procs) (i : ProcIdx) (status : UInt32) : Procs :=
  { s with proc := fun j =>
      let p := s.proc j
      let p := if p.parent = some i then { p with parent := some initproc } else p
      if j = i then { p with ofile := fun _ => none, cwd := none, state := .zombie, status := status, ntickets := 0 } else p }

def Live (s : Procs) (i : ProcIdx) : Prop := (s.proc i).state ≠ .unused ∧ (s.proc i).state ≠ .zombie

instance (s : Procs) (i : ProcIdx) : Decidable (s.Live i) := inferInstanceAs (Decidable (_ ∧ _))

def Reaps (s : Procs) (i : ProcIdx) : Call → Prop
  | .wait child => (s.proc child).parent = some i ∧ (s.proc child).state = .zombie
  | _ => True

instance (s : Procs) (i : ProcIdx) : (c : Call) → Decidable (s.Reaps i c)
  | .wait _ => inferInstanceAs (Decidable (_ ∧ _))
  | .fork _ | .exec _ | .signal _ _ | .sigsend _ _ | .sigreturn | .badArgs | .other _ _ => inferInstanceAs (Decidable True)

/-- One step, with the stores of `do_signal` left out: they go to the memory of the process if it has room on its stack.
    `stepOn` has them. -/
def step (s : Procs) : Act → Outcome Procs
  | .enter i tf =>
    if s.Live i ∧ s.phase i = .user ∧ UserFrame tf then
      .ok { s.setProc i { s.proc i with tf := tf } with phase := update s.phase i .kernel }
    else .sleep
  | .interrupt i =>
    if s.Live i ∧ s.phase i = .kernel ∧ (s.proc i).tf.trapno ≠ T_SYSCALL then
      .ok { s with phase := update s.phase i .leaving }
    else .sleep
  | .sys i c =>
    if s.Live i ∧ s.phase i = .kernel ∧ (s.proc i).tf.trapno = T_SYSCALL ∧ c.Numbered (s.proc i).tf.eax ∧ s.Reaps i c then
      let s := s.syscall i c
      .ok { s with phase := update s.phase i .leaving }
    else .sleep
  | .exit i status => if s.Live i ∧ s.phase i ≠ .user then .ok (s.exit i status) else .sleep
  | .ret i =>
    if s.Live i ∧ s.phase i = .leaving then
      let (p, stores) := (s.proc i).doSignal
      .ok { s.setProc i p with
        phase := update s.phase i .user
        saved := update s.saved i (s.saved i || !stores.isEmpty) }
    else .sleep

/-! ### Stores through the stack pointer -/

/-- What a store makes of the table, given its address and the word, when it is not to the memory of the process: that depends on
    where the kernel has its data, and the store may fault. -/
abbrev Poke := UInt32 → UInt32 → Procs → Outcome Procs

def store (poke : Poke) (s : Procs) (i : ProcIdx) (addr word : UInt32) : Outcome Procs :=
  if addr.toNat + 4 ≤ (s.proc i).sz then .ok s else poke addr word s

/-- `proc->tf->esp` goes down by 4, and the word is stored there. -/
def push (poke : Poke) (s : Procs) (i : ProcIdx) (word : UInt32) : Outcome (Push × Procs) := do
  let esp := (s.proc i).tf.esp - 4
  let s ← (s.setProc i { s.proc i with tf := { (s.proc i).tf with esp := esp } }).store poke i esp word
  pure ((esp, word), s)

/-- `do_signal` with its stores; what it reads after a store is what the store has left. -/
def doSignal (poke : Poke) (s : Procs) (i : ProcIdx) : Outcome (List Push × Procs) :=
  let p := s.proc i
  if p.tf.cs &&& 3 = DPL_USER ∧ p.pending ≠ 0 ∧ p.handlingSignal = false then
    let p := { p with handlingSignal := true }
    match firstPending p.pending with
    | none => .ok ([], s.setProc i p)
    | some signum =>
      let p := { p with pending := p.pending &&& ~~~(1 <<< UInt32.ofNat signum) }
      if p.handlers signum = SIG_DFL then .ok ([], s.setProc i (defaultHandler p))
      else do
        let (arg, s) ← (s.setProc i (saveTf p)).push poke i (UInt32.ofNat signum)
        let (ret, s) ← s.push poke i (s.proc i).retAdd
        let p := s.proc i
        pure ([arg, ret], s.setProc i { p with tf := { p.tf with eip := p.handlers signum } })
  else .ok ([], s)

/-- One step, with the stores of `do_signal`. -/
def stepOn (poke : Poke) (s : Procs) : Act → Outcome Procs
  | .ret i =>
    if s.Live i ∧ s.phase i = .leaving then do
      let (stores, s) ← s.doSignal poke i
      pure { s with
        phase := update s.phase i .user
        saved := update s.saved i (s.saved i || !stores.isEmpty) }
    else .sleep
  | a => s.step a

/-- If the step calls a handler, the process has room for the two words on its stack. -/
def OnStack (s : Procs) : Act → Prop
  | .ret i => (s.proc i).doSignal.2 ≠ [] → 8 ≤ (s.proc i).tf.esp.toNat ∧ (s.proc i).tf.esp.toNat ≤ (s.proc i).sz
  | _ => True

instance (s : Procs) : (a : Act) → Decidable (s.OnStack a)
  | .ret _ => inferInstanceAs (Decidable (_ → _))
  | .enter _ _ | .interrupt _ | .sys _ _ | .exit _ _ => inferInstanceAs (Decidable True)

/-- The process that `userinit` sets up, about to return to `initcode`. -/
def boot : Procs where
  proc i := if i = initproc then { ({ pid := 1 } : Proc).setDefaultHandlers with
      sz := PGSIZE, state := .runnable, priority := 10, ntickets := 10
      tf := { cs := USER_CS, ds := USER_DS, es := USER_DS, ss := USER_DS, eflags := FL_IF, esp := .ofNat PGSIZE } }
    else {}
  phase _ := .leaving
  nextpid := 2
  policy := 1
  saved _ := false
  image _ := none
  lastExec _ := 0
  execd _ := false

end Procs
end Xv6
