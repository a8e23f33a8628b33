import Xv6.Path
import Xv6.Proc

/-! `exec` (`exec.c`). Addresses and sizes are natural numbers below `2 ^ 32`. -/

namespace Xv6
open Bytes

/-! ### ELF files (`elf.h`) -/

abbrev ELF_MAGIC : Nat := 0x464C457F
abbrev ELF_PROG_LOAD : Nat := 1
/-- `sizeof(struct elfhdr)` -/
abbrev ELFHDR : Nat := 52
/-- `sizeof(struct proghdr)` -/
abbrev PROGHDR : Nat := 32

def field (n o : Nat) (bs : List UInt8) : Nat := ofLe ((bs.drop o).take n)

def elfMagic (elf : List UInt8) : Nat := field 4 0 elf
def elfEntry (elf : List UInt8) : Nat := field 4 24 elf
def elfPhoff (elf : List UInt8) : Nat := field 4 28 elf
def elfPhnum (elf : List UInt8) : Nat := field 2 44 elf

def phType (ph : List UInt8) : Nat := field 4 0 ph
def phOff (ph : List UInt8) : Nat := field 4 4 ph
def phVaddr (ph : List UInt8) : Nat := field 4 8 ph
def phFilesz (ph : List UInt8) : Nat := field 4 16 ph
def phMemsz (ph : List UInt8) : Nat := field 4 20 ph

def fill (buf bs : List UInt8) : List UInt8 := bs ++ buf.drop bs.length

/-! ### The stack -/

def sub32 (a n : Nat) : Nat := (a + (2 ^ 32 - n % 2 ^ 32)) % 2 ^ 32

/-- The code from `exit_start` to `exit_end`: `pushl %eax`, `movl $2,%eax`, `int $64`. -/
def exitCode : List UInt8 := [0x50, 0xb8, 2, 0, 0, 0, 0xcd, 0x40]

/-- The loop of `exec` that finds the last element of the path. -/
def lastElem : List UInt8 → List UInt8 → List UInt8
  | last, [] => last
  | last, c :: s => if c = SLASH then lastElem s s else lastElem last s

structure Kernel where
  fs : Fs
  /-- `log.outstanding` -/
  outstanding : Nat
  vm : Vm
  /-- The process that runs. -/
  proc : Proc

/-- What `exec` finds in the machine and does not change: the drivers, the code that it copies from `_sigreturn` on, and
    what its local variables `elf` and `ph` hold before they are set. -/
structure Build where
  devsw : DevSw
  sigreturnCode : List UInt8
  /-- One byte more is copied than the function has. -/
  code_ne : sigreturnCode ≠ []
  elf : List UInt8
  ph : List UInt8

namespace Kernel

def beginOp (k : Kernel) : Kernel := { k with outstanding := k.outstanding + 1 }

def endOp (k : Kernel) : Kernel := { k with outstanding := k.outstanding - 1 }

def bad (k : Kernel) (pgdir : Option Pgdir) (ip : Option InodeIdx) : Outcome (Int × Kernel) := do
  let vm ← match pgdir with
    | some d => k.vm.freevm d
    | none => pure k.vm
  match ip with
  | some ip =>
    let fs ← k.fs.iunlockput ip
    pure (-1, { k with vm := vm, fs := fs }.endOp)
  | none => pure (-1, { k with vm := vm })

/-- The loop over the program headers: the size of the image, or nothing if it leaves for `bad`. -/
def load (b : Build) (ip : InodeIdx) :
    Nat → Kernel → Pgdir → Nat → UInt32 → List UInt8 → Outcome (Option Nat × Kernel × Pgdir)
  | 0, k, d, sz, _, _ => .ok (some sz, k, d)
  | left + 1, k, d, sz, off, ph => do
    let (r, bs, fs) ← k.fs.readi b.devsw ip off (.ofNat PROGHDR)
    let k := { k with fs := fs }
    let ph := fill ph bs
    if r ≠ PROGHDR then pure (none, k, d)
    else if phType ph ≠ ELF_PROG_LOAD then load b ip left k d sz (off + .ofNat PROGHDR) ph
    else if phMemsz ph < phFilesz ph then pure (none, k, d)
    else
      let (sz, vm, d) ← k.vm.allocuvm d sz ((phVaddr ph + phMemsz ph) % 2 ^ 32)
      let k := { k with vm := vm }
      if sz = 0 then pure (none, k, d)
      else
        let (ok, vm, fs) ← k.vm.loaduvm b.devsw k.fs d ip (phVaddr ph) (phOff ph) (phFilesz ph)
        let k := { k with vm := vm, fs := fs }
        if ok = false then pure (none, k, d)
        else load b ip left k d sz (off + .ofNat PROGHDR) ph

/-- The loop over the arguments: the stack pointer and the addresses of the strings, or nothing if it leaves for `bad`. -/
def pushArgs (cur d : Pgdir) : List (List UInt8) → Vm → Nat → List Nat → Outcome (Option (Nat × List Nat) × Vm)
  | [], vm, sp, addrs => .ok (some (sp, addrs), vm)
  | arg :: argv, vm, sp, addrs =>
    if MAXARG ≤ addrs.length then .ok (none, vm)
    else do
      let sp := sub32 sp (arg.length + 1) / 4 * 4
      let (ok, vm) ← vm.copyout cur d sp (arg ++ [0])
      if ok = false then pure (none, vm) else pushArgs cur d argv vm sp (addrs ++ [sp])

/-- The words below the argument strings: the return address of `main`, its two arguments, and the pointers. -/
def ustack (ret sp : Nat) (addrs : List Nat) : List Nat :=
  [ret, addrs.length, sub32 sp ((addrs.length + 1) * 4)] ++ addrs ++ [0]

/-- The arguments and the commit to the new image of size `sz`, once the code is on its stack; `ret` is the address of
    the exit code and `sp` the stack pointer. -/
def start (k : Kernel) (cur d : Pgdir) (sz ret sp entry : Nat) (path : List UInt8) (argv : List (List UInt8)) :
    Outcome (Int × Kernel) := do
  let (pushed, vm) ← pushArgs cur d argv k.vm sp []
  let k := { k with vm := vm }
  match pushed with
  | none => k.bad (some d) none
  | some (sp, addrs) =>
    let words := ustack ret sp addrs
    let sp := sub32 sp ((3 + addrs.length + 1) * 4)
    let (ok, vm) ← k.vm.copyout cur d sp (words.flatMap (toLe 4))
    let k := { k with vm := vm }
    if ok = false then k.bad (some d) none
    else
      let p := k.proc
      let k := { k with proc := { p with
        name := (lastElem path path).take 15, pgdir := some d, sz := sz
        tf := { p.tf with eip := .ofNat entry, esp := .ofNat sp } } }
      let vm ← k.vm.freevm cur
      pure (0, { k with vm := vm })

def stack (b : Build) (k : Kernel) (cur d : Pgdir) (sz entry : Nat) (path : List UInt8) (argv : List (List UInt8)) :
    Outcome (Int × Kernel) := do
  let sz := pgroundup sz
  let (sz, vm, d) ← k.vm.allocuvm d sz ((sz + 2 * PGSIZE) % 2 ^ 32)
  let k := { k with vm := vm }
  if sz = 0 then k.bad (some d) none
  else
    let d ← k.vm.clearpteu d (sub32 sz (2 * PGSIZE))
    let ret := sub32 sz exitCode.length
    let (ok, vm) ← k.vm.copyout cur d ret exitCode
    let k := { k with vm := vm }
    if ok = false then k.bad (some d) none
    else
      let sp := sub32 ret b.sigreturnCode.length / 4 * 4
      let (ok, vm) ← k.vm.copyout cur d sp b.sigreturnCode
      let k := { k with vm := vm }
      if ok = false then k.bad (some d) none
      else start { k with proc := { k.proc with retAdd := .ofNat sp } } cur d sz ret sp entry path argv

/-- `exec`, in a process whose page directory is `cur`. A negative result of the first `readi` passes for a large one, as
    it is compared with an unsigned size. -/
def execIn (b : Build) (k : Kernel) (cur : Pgdir) (path : List UInt8) (argv : List (List UInt8)) :
    Outcome (Int × Kernel) := do
  let k := k.beginOp
  let (found, fs) ← k.fs.namei b.devsw k.proc.cwd path
  let k := { k with fs := fs }
  match found with
  | none => pure (-1, k.endOp)
  | some ip =>
    let fs ← k.fs.ilock ip
    let (r, bs, fs) ← fs.readi b.devsw ip 0 (.ofNat ELFHDR)
    let k := { k with fs := fs }
    let elf := fill b.elf bs
    if 0 ≤ r ∧ r < ELFHDR then k.bad none (some ip)
    else if elfMagic elf ≠ ELF_MAGIC then k.bad none (some ip)
    else
      let (pgdir, vm) ← k.vm.setupkvm
      let k := { k with vm := vm }
      match pgdir with
      | none => k.bad none (some ip)
      | some d =>
        let (loaded, k, d) ← load b ip (elfPhnum elf) k d 0 (.ofNat (elfPhoff elf)) b.ph
        match loaded with
        | none => k.bad (some d) (some ip)
        | some sz =>
          let fs ← k.fs.iunlockput ip
          stack b { k with fs := fs }.endOp cur d sz (elfEntry elf) path argv

/-- Replace the image of the process; the process that runs has a page directory. -/
def exec (b : Build) (k : Kernel) (path : List UInt8) (argv : List (List UInt8)) : Outcome (Int × Kernel) :=
  match k.proc.pgdir with
  | none => .panic "switchuvm: no pgdir"
  | some cur => k.execIn b cur path argv

end Kernel
end Xv6
