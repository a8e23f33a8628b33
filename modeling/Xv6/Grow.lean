import Xv6.Proc

/-! Growing and shrinking a process (`growproc` of `proc.c`), and `allocuvm` while other processors take pages and give
    them back. -/

namespace Xv6

namespace Vm

/-- The loop of `allocuvm` amid other users of the allocator: the call of `kalloc` that `k` others precede finds the free
    list `others k`. The result tells which pages the loop took for memory of the process. -/
def allocuvmAmidFrom (others : Nat → List Nat) (oldsz newsz : Nat) :
    Nat → Nat → List Nat → Vm → Pgdir → Nat → Outcome (Nat × List Nat × Vm × Pgdir)
  | 0, k, taken, vm, d, _ => .ok (newsz, taken, { vm with free := others k }, d)
  | left + 1, k, taken, vm, d, a =>
    if a < newsz then
      match kalloc { vm with free := others k } with
      | none => do
        let (_, vm, d) ← deallocuvm { vm with free := others k } d newsz oldsz
        pure (0, taken, vm, d)
      | some (p, vm) => do
        -- a missing page table makes for one more call
        let next := if (d.table (a / PGSIZE / NPTENTRIES)).isSome then k + 1 else k + 2
        let (_, vm, d) ←
          mappages true true 1 { vm with mem := Function.update vm.mem p .zero, free := others (k + 1) } d (a / PGSIZE) p
        allocuvmAmidFrom others oldsz newsz left next (p :: taken) vm d (a + PGSIZE)
    else .ok (newsz, taken, { vm with free := others k }, d)

def allocuvmAmid (others : Nat → List Nat) (vm : Vm) (d : Pgdir) (oldsz newsz : Nat) :
    Outcome (Nat × List Nat × Vm × Pgdir) :=
  if KERNBASE ≤ newsz then .ok (0, [], vm, d)
  else if newsz < oldsz then .ok (oldsz, [], vm, d)
  else allocuvmAmidFrom others oldsz newsz (newsz / PGSIZE + 1) 0 [] vm d (pgroundup oldsz)

inductive Resize where
  | alloc (oldsz newsz : Nat)
  | dealloc (oldsz newsz : Nat)

def Resize.Succeeds (vm : Vm) (d : Pgdir) (vm' : Vm) (d' : Pgdir) : Resize → Prop
  | .alloc oldsz newsz => ∃ sz, vm.allocuvm d oldsz newsz = .ok (sz, vm', d') ∧ sz ≠ 0
  | .dealloc oldsz newsz => ∃ sz, vm.deallocuvm d oldsz newsz = .ok (sz, vm', d')

/-- What comes of a new address space by calls that succeed, where `allowed` says which calls are made. -/
inductive Resized (allowed : Vm → Pgdir → Resize → Prop) (vm₀ : Vm) : Vm → Pgdir → Prop
  | setup {vm : Vm} {d : Pgdir} (h : vm₀.setupkvm = .ok (some d, vm)) : Resized allowed vm₀ vm d
  | call {vm vm' : Vm} {d d' : Pgdir} (c : Resize) (h : Resized allowed vm₀ vm d) (ha : allowed vm d c)
      (hs : c.Succeeds vm d vm' d') : Resized allowed vm₀ vm' d'

end Vm

/-- `growproc` for the process that runs. `switchuvm` changes nothing that is modelled. -/
def growproc (vm : Vm) (p : Proc) (n : Int32) : Outcome (Int × Vm × Proc) :=
  match p.pgdir with
  | none => .panic "trap"
  | some d =>
    let newsz := ((p.sz + n.toInt) % 2 ^ 32).toNat
    if 0 < n.toInt then do
      let (sz, vm, d) ← vm.allocuvm d p.sz newsz
      pure (if sz = 0 then (-1, vm, { p with pgdir := some d }) else (0, vm, { p with sz := sz, pgdir := some d }))
    else if n.toInt < 0 then do
      let (sz, vm, d) ← vm.deallocuvm d p.sz newsz
      pure (if sz = 0 then (-1, vm, { p with pgdir := some d }) else (0, vm, { p with sz := sz, pgdir := some d }))
    else .ok (0, vm, p)

end Xv6
