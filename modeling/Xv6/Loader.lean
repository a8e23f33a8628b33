import Xv6.Exec
import Xv6.Lib.Traced

/-! `exec` while other processors take pages and give them back, with the places to which `loaduvm` stores. Between two
    calls of `kalloc` the free list may change in any way. In one `exec` a call by `allocuvm` is known by what it is for, a
    page of the new image or the page table of that page, as each page is asked for only once. The functions behind
    `allocuvm` get it as an argument. -/

namespace Xv6
open Bytes

/-- The free lists that the calls of `kalloc` find: for a page of the image, and for the page table of that page. -/
structure Others where
  page : Nat → List Nat
  table : Nat → List Nat

namespace Loader

/-- `readi` is given physical page `page` to store to, for the address space `pgdir`. -/
structure Dest where
  pgdir : Pgdir
  page : Nat

def allocuvmFrom (o : Others) (oldsz newsz : Nat) : Nat → Vm → Pgdir → Nat → Outcome (Nat × Vm × Pgdir)
  | 0, vm, d, _ => .ok (newsz, vm, d)
  | left + 1, vm, d, a =>
    if a < newsz then
      match Vm.kalloc { vm with free := o.page (a / PGSIZE) } with
      | none => do
        let (_, vm, d) ← Vm.deallocuvm { vm with free := o.page (a / PGSIZE) } d newsz oldsz
        pure (0, vm, d)
      | some (p, vm) => do
        let (_, vm, d) ← Vm.mappages true true 1
          { vm with mem := Function.update vm.mem p .zero, free := o.table (a / PGSIZE) } d (a / PGSIZE) p
        allocuvmFrom o oldsz newsz left vm d (a + PGSIZE)
    else .ok (newsz, vm, d)

def allocuvm (o : Others) (vm : Vm) (d : Pgdir) (oldsz newsz : Nat) : Outcome (Nat × Vm × Pgdir) :=
  if KERNBASE ≤ newsz then .ok (0, vm, d)
  else if newsz < oldsz then .ok (oldsz, vm, d)
  else allocuvmFrom o oldsz newsz (newsz / PGSIZE + 1) vm d (pgroundup oldsz)

def loaduvmFrom (devsw : DevSw) (d : Pgdir) (ip : InodeIdx) (addr offset sz : Nat) :
    Nat → Vm → Fs → Nat → Traced Dest (Bool × Vm × Fs)
  | 0, vm, fs, _ => pure (true, vm, fs)
  | left + 1, vm, fs, i =>
    if i < sz then
      match vm.walkpgdir d ((addr + i) % 2 ^ 32 / PGSIZE) false with
      | none => .lift (.panic "loaduvm: address should exist")
      | some _ => do
        let p := ((d.pte ((addr + i) % 2 ^ 32 / PGSIZE)).map Pte.page).getD 0
        let n := min (sz - i) PGSIZE
        Traced.tell ⟨d, p⟩
        let (r, bs, fs) ← .lift (fs.readi devsw ip (.ofNat (offset + i)) (.ofNat n))
        let vm ← .lift (vm.write p 0 bs)
        if r ≠ n then pure (false, vm, fs)
        else loaduvmFrom devsw d ip addr offset sz left vm fs (i + PGSIZE)
    else pure (true, vm, fs)

def loaduvm (devsw : DevSw) (vm : Vm) (fs : Fs) (d : Pgdir) (ip : InodeIdx) (addr offset sz : Nat) :
    Traced Dest (Bool × Vm × Fs) :=
  if addr % PGSIZE ≠ 0 then .lift (.panic "loaduvm: addr must be page aligned")
  else loaduvmFrom devsw d ip addr offset sz (sz / PGSIZE + 1) vm fs 0

def load (alloc : Vm.Alloc) (b : Build) (ip : InodeIdx) :
    Nat → Kernel → Pgdir → Nat → UInt32 → List UInt8 → Traced Dest (Option Nat × Kernel × Pgdir)
  | 0, k, d, sz, _, _ => pure (some sz, k, d)
  | left + 1, k, d, sz, off, ph => do
    let (r, bs, fs) ← .lift (k.fs.readi b.devsw ip off (.ofNat PROGHDR))
    let k := { k with fs := fs }
    let ph := fill ph bs
    if r ≠ PROGHDR then pure (none, k, d)
    else if phType ph ≠ ELF_PROG_LOAD then load alloc b ip left k d sz (off + .ofNat PROGHDR) ph
    else if phMemsz ph < phFilesz ph then pure (none, k, d)
    else
      let (sz, vm, d) ← .lift (alloc k.vm d sz ((phVaddr ph + phMemsz ph) % 2 ^ 32))
      let k := { k with vm := vm }
      if sz = 0 then pure (none, k, d)
      else
        let (ok, vm, fs) ← loaduvm b.devsw k.vm k.fs d ip (phVaddr ph) (phOff ph) (phFilesz ph)
        let k := { k with vm := vm, fs := fs }
        if ok = false then pure (none, k, d)
        else load alloc b ip left k d sz (off + .ofNat PROGHDR) ph

/-- The rest of `exec`, when the pages for the stack have been allocated. -/
def stackOn (b : Build) (k : Kernel) (cur d : Pgdir) (sz entry : Nat) (path : List UInt8) (argv : List (List UInt8)) :
    Outcome (Int × Kernel) := do
  let d ← k.vm.clearpteu d (sub32 sz (2 * PGSIZE))
  let ret := sub32 sz exitCode.length
  let (ok, vm) ← k.vm.copyout cur d ret exitCode
  let k := { k with vm := vm }
  if ok = false then k.bad (some d) none
  else
    let sp := sub32 ret b.sigreturnCode.length / 4 * 4
    let (ok, vm) ← k.vm.copyout cur d sp b.sigreturnCode
    let k := { k with vm := vm }
    if ok = false then k.bad (some d) none
    else Kernel.start { k with proc := { k.proc with retAdd := .ofNat sp } } cur d sz ret sp entry path argv

def stack (alloc : Vm.Alloc) (b : Build) (k : Kernel) (cur d : Pgdir) (sz entry : Nat) (path : List UInt8) (argv : List (List UInt8)) :
    Outcome (Int × Kernel) := do
  let sz := pgroundup sz
  let (sz, vm, d) ← alloc k.vm d sz ((sz + 2 * PGSIZE) % 2 ^ 32)
  let k := { k with vm := vm }
  if sz = 0 then k.bad (some d) none else stackOn b k cur d sz entry path argv

def execIn (alloc : Vm.Alloc) (b : Build) (k : Kernel) (cur : Pgdir) (path : List UInt8) (argv : List (List UInt8)) :
    Traced Dest (Int × Kernel) := do
  let k := k.beginOp
  let (found, fs) ← .lift (k.fs.namei b.devsw k.proc.cwd path)
  let k := { k with fs := fs }
  match found with
  | none => pure (-1, k.endOp)
  | some ip =>
    let fs ← .lift (k.fs.ilock ip)
    let (r, bs, fs) ← .lift (fs.readi b.devsw ip 0 (.ofNat ELFHDR))
    let k := { k with fs := fs }
    let elf := fill b.elf bs
    if 0 ≤ r ∧ r < ELFHDR then .lift (k.bad none (some ip))
    else if elfMagic elf ≠ ELF_MAGIC then .lift (k.bad none (some ip))
    else
      let (pgdir, vm) ← .lift k.vm.setupkvm
      let k := { k with vm := vm }
      match pgdir with
      | none => .lift (k.bad none (some ip))
      | some d =>
        let (loaded, k, d) ← load alloc b ip (elfPhnum elf) k d 0 (.ofNat (elfPhoff elf)) b.ph
        match loaded with
        | none => .lift (k.bad (some d) (some ip))
        | some sz =>
          let fs ← .lift (k.fs.iunlockput ip)
          .lift (stack alloc b { k with fs := fs }.endOp cur d sz (elfEntry elf) path argv)

def exec (alloc : Vm.Alloc) (b : Build) (k : Kernel) (path : List UInt8) (argv : List (List UInt8)) : Traced Dest (Int × Kernel) :=
  match k.proc.pgdir with
  | none => .lift (.panic "switchuvm: no pgdir")
  | some cur => execIn alloc b k cur path argv

end Loader
end Xv6
