import Xv6.Fs

/-! Physical memory and address spaces (`kalloc.c`, `vm.c`). Pages of physical memory and of an address space go by
    their numbers, that is addresses over `PGSIZE`. A page directory is modelled by what is in it: the pages that it
    and its page tables occupy are accounted for, their bytes are not part of `mem`. -/

namespace Xv6
open Bytes
open Function (update)

def pgroundup (a : Nat) : Nat := (a + PGSIZE - 1) % 2 ^ 32 / PGSIZE * PGSIZE

structure Pte where
  page : Nat
  writable : Bool
  user : Bool
  deriving DecidableEq

structure Pgdir where
  /-- The page of the directory itself. -/
  dir : Nat
  /-- The page of each page table. -/
  table : Nat → Option Nat
  /-- The entry of each page of the address space. -/
  pte : Nat → Option Pte

structure Vm where
  mem : Nat → Page
  /-- `kmem.freelist` -/
  free : List Nat
  /-- The page of the linker symbol `data`. -/
  data : Nat
  /-- The first page behind the kernel, from the linker symbol `end`. -/
  kend : Nat

namespace Vm

def kalloc (vm : Vm) : Option (Nat × Vm) :=
  match vm.free with
  | [] => none
  | p :: free => some (p, { vm with free := free })

def kfree (vm : Vm) (p : Nat) : Outcome Vm :=
  if p < vm.kend ∨ PHYSTOP / PGSIZE ≤ p then .panic "kfree"
  else .ok { vm with mem := update vm.mem p fun _ => 1, free := p :: vm.free }

/-- A store through `p2v`: behind `PHYSTOP` there is nothing mapped. -/
def write (vm : Vm) (p off : Nat) (bs : List UInt8) : Outcome Vm :=
  if PHYSTOP / PGSIZE ≤ p then .panic "trap"
  else .ok { vm with mem := update vm.mem p ((vm.mem p).setBytes off bs) }

/-! ### Page tables -/

/-- `walkpgdir` for page `v`: the state in which the entry of `v` is there to be used, if any. -/
def walkpgdir (vm : Vm) (d : Pgdir) (v : Nat) (alloc : Bool) : Option (Vm × Pgdir) :=
  match d.table (v / NPTENTRIES) with
  | some _ => some (vm, d)
  | none =>
    if alloc = false then none
    else match vm.kalloc with
      | none => none
      | some (t, vm) =>
        some (vm, { d with
          table := update d.table (v / NPTENTRIES) (some t)
          pte := fun u => if u / NPTENTRIES = v / NPTENTRIES then none else d.pte u })

def setPte (d : Pgdir) (v : Nat) (e : Option Pte) : Pgdir := { d with pte := update d.pte v e }

/-- `mappages` for a number of pages from `v` on, to physical pages from `p` on; the result says whether it went
    through. -/
def mappages (writable user : Bool) : Nat → Vm → Pgdir → Nat → Nat → Outcome (Bool × Vm × Pgdir)
  | 0, vm, d, _, _ => .ok (true, vm, d)
  | n + 1, vm, d, v, p =>
    match vm.walkpgdir d v true with
    | none => .ok (false, vm, d)
    | some (vm, d) =>
      if (d.pte v).isSome then .panic "remap"
      else mappages writable user n vm (setPte d v (some ⟨p, writable, user⟩)) (v + 1) (p + 1)

/-- `kmap`: virtual page, physical page, number of pages, `PTE_W`. -/
def kmap (vm : Vm) : List (Nat × Nat × Nat × Bool) :=
  [(KERNBASE / PGSIZE, 0, EXTMEM / PGSIZE, true),
   (KERNLINK / PGSIZE, EXTMEM / PGSIZE, vm.data - EXTMEM / PGSIZE, false),
   (KERNBASE / PGSIZE + vm.data, vm.data, PHYSTOP / PGSIZE - vm.data, true),
   (DEVSPACE / PGSIZE, DEVSPACE / PGSIZE, (2 ^ 32 - DEVSPACE) / PGSIZE, true)]

def setupkvmFrom : List (Nat × Nat × Nat × Bool) → Vm → Pgdir → Outcome (Option Pgdir × Vm)
  | [], vm, d => .ok (some d, vm)
  | (v, p, n, writable) :: ks, vm, d => do
    let (ok, vm, d) ← mappages writable false n vm d v p
    if ok then setupkvmFrom ks vm d else .ok (none, vm)

/-- The kernel part of a page directory. A failure in the middle frees nothing. -/
def setupkvm (vm : Vm) : Outcome (Option Pgdir × Vm) :=
  match vm.kalloc with
  | none => .ok (none, vm)
  | some (p, vm') => setupkvmFrom vm.kmap vm' { dir := p, table := fun _ => none, pte := fun _ => none }

/-! ### User memory -/

/-- The loop of `deallocuvm`; the entries of a missing page table are skipped. -/
def deallocuvmFrom (oldsz : Nat) : Nat → Vm → Pgdir → Nat → Outcome (Vm × Pgdir)
  | 0, vm, d, _ => .ok (vm, d)
  | left + 1, vm, d, a =>
    if a < oldsz then
      match vm.walkpgdir d (a / PGSIZE) false with
      | none => deallocuvmFrom oldsz left vm d (a + (NPTENTRIES - 1) * PGSIZE + PGSIZE)
      | some _ =>
        match d.pte (a / PGSIZE) with
        | none => deallocuvmFrom oldsz left vm d (a + PGSIZE)
        | some e =>
          if e.page = 0 then .panic "kfree"
          else do
            let vm ← vm.kfree e.page
            deallocuvmFrom oldsz left vm (setPte d (a / PGSIZE) none) (a + PGSIZE)
    else .ok (vm, d)

def deallocuvm (vm : Vm) (d : Pgdir) (oldsz newsz : Nat) : Outcome (Nat × Vm × Pgdir) :=
  if oldsz ≤ newsz then .ok (oldsz, vm, d)
  else do
    let (vm, d) ← deallocuvmFrom oldsz (oldsz / PGSIZE + 1) vm d (pgroundup newsz)
    pure (newsz, vm, d)

/-- The loop of `allocuvm`. It does not look at what `mappages` returns. -/
def allocuvmFrom (oldsz newsz : Nat) : Nat → Vm → Pgdir → Nat → Outcome (Nat × Vm × Pgdir)
  | 0, vm, d, _ => .ok (newsz, vm, d)
  | left + 1, vm, d, a =>
    if a < newsz then
      match vm.kalloc with
      | none => do
        let (_, vm, d) ← vm.deallocuvm d newsz oldsz
        pure (0, vm, d)
      | some (p, vm) => do
        let (_, vm, d) ← mappages true true 1 { vm with mem := update vm.mem p .zero } d (a / PGSIZE) p
        allocuvmFrom oldsz newsz left vm d (a + PGSIZE)
    else .ok (newsz, vm, d)

def allocuvm (vm : Vm) (d : Pgdir) (oldsz newsz : Nat) : Outcome (Nat × Vm × Pgdir) :=
  if KERNBASE ≤ newsz then .ok (0, vm, d)
  else if newsz < oldsz then .ok (oldsz, vm, d)
  else allocuvmFrom oldsz newsz (newsz / PGSIZE + 1) vm d (pgroundup oldsz)

abbrev Alloc := Vm → Pgdir → Nat → Nat → Outcome (Nat × Vm × Pgdir)

def freeTables (d : Pgdir) : List Nat → Vm → Outcome Vm
  | [], vm => .ok vm
  | i :: is, vm =>
    match d.table i with
    | none => freeTables d is vm
    | some t => do
      let vm ← vm.kfree t
      freeTables d is vm

def freevm (vm : Vm) (d : Pgdir) : Outcome Vm := do
  let (_, vm, d) ← vm.deallocuvm d KERNBASE 0
  let vm ← freeTables d (List.range NPTENTRIES) vm
  vm.kfree d.dir

def clearpteu (vm : Vm) (d : Pgdir) (va : Nat) : Outcome Pgdir :=
  match vm.walkpgdir d (va / PGSIZE) false with
  | none => .panic "clearpteu"
  | some _ => .ok (setPte d (va / PGSIZE) ((d.pte (va / PGSIZE)).map fun e => { e with user := false }))

/-- The loop of `loaduvm`: `i` bytes are done. An entry without `PTE_P` is taken for physical page 0. -/
def loaduvmFrom (devsw : DevSw) (d : Pgdir) (ip : InodeIdx) (addr offset sz : Nat) :
    Nat → Vm → Fs → Nat → Outcome (Bool × Vm × Fs)
  | 0, vm, fs, _ => .ok (true, vm, fs)
  | left + 1, vm, fs, i =>
    if i < sz then
      match vm.walkpgdir d ((addr + i) % 2 ^ 32 / PGSIZE) false with
      | none => .panic "loaduvm: address should exist"
      | some _ => do
        let p := ((d.pte ((addr + i) % 2 ^ 32 / PGSIZE)).map Pte.page).getD 0
        let n := min (sz - i) PGSIZE
        let (r, bs, fs) ← fs.readi devsw ip (.ofNat (offset + i)) (.ofNat n)
        let vm ← vm.write p 0 bs
        if r ≠ n then .ok (false, vm, fs)
        else loaduvmFrom devsw d ip addr offset sz left vm fs (i + PGSIZE)
    else .ok (true, vm, fs)

def loaduvm (devsw : DevSw) (vm : Vm) (fs : Fs) (d : Pgdir) (ip : InodeIdx) (addr offset sz : Nat) :
    Outcome (Bool × Vm × Fs) :=
  if addr % PGSIZE ≠ 0 then .panic "loaduvm: addr must be page aligned"
  else loaduvmFrom devsw d ip addr offset sz (sz / PGSIZE + 1) vm fs 0

/-- The loop of `copyuvm`: the pages below `i` are copied. When no page table can be had for a page, that page itself is
    not freed. -/
def copyuvmFrom (pgdir : Pgdir) (sz : Nat) : Nat → Vm → Pgdir → Nat → Outcome (Option Pgdir × Vm)
  | 0, vm, d, _ => .ok (some d, vm)
  | left + 1, vm, d, i =>
    if i < sz then
      match vm.walkpgdir pgdir (i / PGSIZE) false with
      | none => .panic "copyuvm: pte should exist"
      | some _ =>
        match pgdir.pte (i / PGSIZE) with
        | none => .panic "copyuvm: page not present"
        | some e =>
          match vm.kalloc with
          | none => do
            let vm ← vm.freevm d
            pure (none, vm)
          | some (p, vm) =>
            if PHYSTOP / PGSIZE ≤ e.page then .panic "trap"
            else do
              let (ok, vm, d) ← mappages e.writable e.user 1
                { vm with mem := update vm.mem p (vm.mem e.page) } d (i / PGSIZE) p
              if ok then copyuvmFrom pgdir sz left vm d (i + PGSIZE)
              else do
                let vm ← vm.freevm d
                pure (none, vm)
    else .ok (some d, vm)

def copyuvm (vm : Vm) (pgdir : Pgdir) (sz : Nat) : Outcome (Option Pgdir × Vm) := do
  let (d, vm) ← vm.setupkvm
  match d with
  | none => pure (none, vm)
  | some d => copyuvmFrom pgdir sz (sz / PGSIZE + 1) vm d 0

/-! ### Copying to user memory -/

/-- `uva2ka` for page `v` of `d`, with `cur` the page directory in use. Without a page table `walkpgdir` returns 0, and
    the entry is read from address 0 of `cur`. -/
def uva2ka (vm : Vm) (cur d : Pgdir) (v : Nat) : Outcome (Option Nat) :=
  match vm.walkpgdir d v false with
  | some _ =>
    match d.pte v with
    | none => .ok none
    | some e => .ok (if e.user then some e.page else none)
  | none =>
    match cur.pte 0 with
    | none => .panic "trap"
    | some e =>
      let x := (vm.mem e.page).word 4 0
      .ok (if x % 2 = 0 ∨ x / 4 % 2 = 0 then none else some (x / PGSIZE))

def copyoutFrom (cur d : Pgdir) : Nat → Vm → Nat → List UInt8 → Outcome (Bool × Vm)
  | 0, vm, _, _ => .ok (true, vm)
  | left + 1, vm, va, bs =>
    if 0 < bs.length then do
      match ← vm.uva2ka cur d (va / PGSIZE) with
      | none => .ok (false, vm)
      | some p =>
        let n := min (PGSIZE - va % PGSIZE) bs.length
        let vm ← vm.write p (va % PGSIZE) (bs.take n)
        copyoutFrom cur d left vm ((va / PGSIZE * PGSIZE + PGSIZE) % 2 ^ 32) (bs.drop n)
    else .ok (true, vm)

def copyout (vm : Vm) (cur d : Pgdir) (va : Nat) (bs : List UInt8) : Outcome (Bool × Vm) :=
  copyoutFrom cur d bs.length vm va bs

end Vm
end Xv6
