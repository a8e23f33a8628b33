import Mathlib.Logic.Function.Basic
import Xv6.Lib.Outcome
import Xv6.Param

/-! Page directories as they are in memory (`vm.c`, `mmu.h`): a page of entries that lead to pages of entries. Pages go by
    their numbers, and `p2v` is left out. -/

namespace Xv6
open Function (update)

/-- The pages as arrays of `pte_t`, and `kmem.freelist`. -/
structure Tables where
  pte : Nat → Nat → Nat
  free : List Nat

namespace Tables

def pdx (va : Nat) : Nat := va / (PGSIZE * NPTENTRIES) % NPTENTRIES

def ptx (va : Nat) : Nat := va / PGSIZE % NPTENTRIES

def pgrounddown (a : Nat) : Nat := a / PGSIZE * PGSIZE

/-- `PTE_ADDR` and `PTE_FLAGS` -/
def pteAddr (e : Nat) : Nat := e / PGSIZE * PGSIZE

def pteFlags (e : Nat) : Nat := e % PGSIZE

def set (s : Tables) (p i e : Nat) : Tables := { s with pte := update s.pte p (update (s.pte p) i e) }

/-- The page that has the entry for `va`, at index `ptx va`. -/
def walkpgdir (s : Tables) (pgdir va : Nat) (alloc : Bool) : Option (Nat × Tables) :=
  let pde := s.pte pgdir (pdx va)
  if pde % 2 = 1 then some (pteAddr pde / PGSIZE, s)
  else if alloc = false then none
  else match s.free with
    | [] => none
    | pgtab :: free =>
      some (pgtab, set { pte := update s.pte pgtab fun _ => 0, free := free } pgdir (pdx va) (pgtab * PGSIZE ||| 7))

/-- The loop of `mappages`, for a number of rounds at most; whether it returns 0. -/
def mappagesFrom (pgdir last perm : Nat) : Nat → Tables → Nat → Nat → Option (Outcome (Bool × Tables))
  | 0, _, _, _ => none
  | rounds + 1, s, a, pa =>
    match s.walkpgdir pgdir a true with
    | none => some (.ok (false, s))
    | some (pgtab, s) =>
      if s.pte pgtab (ptx a) % 2 = 1 then some (.panic "remap")
      else
        let s := s.set pgtab (ptx a) (pa ||| perm ||| 1)
        if a = last then some (.ok (true, s))
        else mappagesFrom pgdir last perm rounds s ((a + PGSIZE) % 2 ^ 32) ((pa + PGSIZE) % 2 ^ 32)

def mappages (rounds : Nat) (s : Tables) (pgdir va size pa perm : Nat) : Option (Outcome (Bool × Tables)) :=
  mappagesFrom pgdir (pgrounddown ((va + size - 1) % 2 ^ 32)) perm rounds s (pgrounddown va) pa

/-- The page table at index `i` of a directory. -/
def table (s : Tables) (pgdir i : Nat) : Option Nat :=
  if s.pte pgdir i % 2 = 1 then some (s.pte pgdir i / PGSIZE) else none

/-- What the processor finds for page `v` of the address space: an entry with `PTE_P`. -/
def translate (s : Tables) (pgdir v : Nat) : Option Nat := do
  let pgtab ← s.table pgdir (v / NPTENTRIES)
  if s.pte pgtab (v % NPTENTRIES) % 2 = 1 then some (s.pte pgtab (v % NPTENTRIES)) else none

end Tables

end Xv6
