import Mathlib
import Xv6.Lib.Outcome

/-! The memory allocator of user programs (`umalloc.c`). Headers lie at a multiple of their size from the start of the heap, so
    memory is given header by header. The loops run for a number of rounds and give `none` if that is not enough. -/

namespace Xv6
open Function (update)
namespace Umalloc

structure Header where
  ptr : Nat
  size : Nat

/-- `sizeof(Header)` -/
abbrev HEADER : Nat := 8

end Umalloc

structure Umalloc where
  mem : Nat → Umalloc.Header
  /-- The address of `base`. -/
  base : Nat
  freep : Nat := 0
  /-- The heap is from `start` to the break. -/
  start : Nat
  brk : Nat
  /-- What `malloc` has returned and was not freed since, with the sizes asked for. -/
  live : List (Nat × Nat) := []

namespace Umalloc

def ptr (s : Umalloc) (p : Nat) : Nat := (s.mem p).ptr

def size (s : Umalloc) (p : Nat) : Nat := (s.mem p).size

def setPtr (s : Umalloc) (p q : Nat) : Umalloc := { s with mem := update s.mem p ⟨q, s.size p⟩ }

def setSize (s : Umalloc) (p n : Nat) : Umalloc := { s with mem := update s.mem p ⟨s.ptr p, n⟩ }

/-- The loop of `free`: the block after which `bp` belongs. -/
def search (s : Umalloc) (bp : Nat) : Nat → Nat → Option Nat
  | 0, _ => none
  | steps + 1, p =>
    if bp > p ∧ bp < s.ptr p then some p
    else if p ≥ s.ptr p ∧ (bp > p ∨ bp < s.ptr p) then some p
    else search s bp steps (s.ptr p)

/-- `bp` and the block behind it become one if they touch; `bp` points to what follows. -/
def joinUpper (s : Umalloc) (bp p : Nat) : Umalloc :=
  if bp + s.size bp * HEADER = s.ptr p then
    let s := s.setSize bp (s.size bp + s.size (s.ptr p))
    s.setPtr bp (s.ptr (s.ptr p))
  else s.setPtr bp (s.ptr p)

/-- `p` and `bp` become one if they touch, or `p` points to `bp`. -/
def joinLower (s : Umalloc) (bp p : Nat) : Umalloc :=
  if p + s.size p * HEADER = bp then
    let s := s.setSize p (s.size p + s.size bp)
    s.setPtr p (s.ptr bp)
  else s.setPtr p bp

def free (s : Umalloc) (steps ap : Nat) : Option Umalloc := do
  let bp := ap - HEADER
  let p ← s.search bp steps s.freep
  let s := (s.joinUpper bp p).joinLower bp p
  some { s with freep := p }

def morecore (s : Umalloc) (steps nu : Nat) (granted : Bool) : Option (Option Nat × Umalloc) :=
  let nu := if nu < 4096 then 4096 else nu
  if granted then do
    let p := s.brk
    let s := { s with brk := s.brk + nu * HEADER % 2 ^ 32 }
    let s := s.setSize p nu
    let s ← s.free steps (p + HEADER)
    some (some s.freep, s)
  else some (none, s)

def take (s : Umalloc) (nunits prevp p : Nat) : Nat × Umalloc :=
  if s.size p = nunits then (p + HEADER, { s.setPtr prevp (s.ptr p) with freep := prevp })
  else
    let s := s.setSize p (s.size p - nunits)
    let p := p + s.size p * HEADER
    (p + HEADER, { s.setSize p nunits with freep := prevp })

/-- The loop of `malloc`; `granted` are the answers of `sbrk`. -/
def mallocFrom (nunits : Nat) : Nat → (Nat → Bool) → Nat → Nat → Umalloc → Option (Option Nat × Umalloc)
  | 0, _, _, _, _ => none
  | steps + 1, granted, prevp, p, s =>
    if nunits ≤ s.size p then
      let (ap, s) := s.take nunits prevp p
      some (some ap, s)
    else if p = s.freep then do
      let (p, s) ← s.morecore steps nunits (granted 0)
      match p with
      | none => some (none, s)
      | some p => mallocFrom nunits steps (fun k => granted (k + 1)) p (s.ptr p) s
    else mallocFrom nunits steps granted p (s.ptr p) s

def nunits (nbytes : Nat) : Nat := (nbytes + HEADER - 1) % 2 ^ 32 / HEADER + 1

/-- What `morecore` gives to `sbrk`, which takes an `int`. -/
def sbrkArg (nu : Nat) : Int32 := .ofNat ((if nu < 4096 then 4096 else nu) * HEADER)

/-- The first call makes `base` the only block. -/
def init (s : Umalloc) : Umalloc :=
  if s.freep = 0 then { (s.setPtr s.base s.base).setSize s.base 0 with freep := s.base } else s

def malloc (s : Umalloc) (steps nbytes : Nat) (granted : Nat → Bool) : Option (Option Nat × Umalloc) :=
  let s := s.init
  mallocFrom (nunits nbytes) steps granted s.freep (s.ptr s.freep) s

inductive Act where
  | malloc (nbytes : Nat) (granted : Nat → Bool) (steps : Nat)
  | free (ap steps : Nat)
  /-- The program writes to a block, `8 * k` bytes from its start. -/
  | store (ap k : Nat) (x : Header)

def step (s : Umalloc) : Act → Outcome Umalloc
  | .malloc nbytes granted steps =>
    match s.malloc steps nbytes granted with
    | none => .sleep
    | some (none, s) => .ok s
    | some (some ap, s) => .ok { s with live := (ap, nbytes) :: s.live }
  | .free ap steps =>
    match s.free steps ap with
    | none => .sleep
    | some s => .ok { s with live := s.live.filter (·.1 ≠ ap) }
  | .store ap k x => .ok { s with mem := update s.mem (ap + HEADER * k) x }

/-- The program asks for less than 2^30 bytes, and uses and frees only what `malloc` has returned. -/
def Legal (s : Umalloc) : Act → Prop
  | .malloc nbytes _ _ => nbytes < 2 ^ 30
  | .free ap _ => ∃ n, (ap, n) ∈ s.live
  | .store ap k _ => ∃ n, (ap, n) ∈ s.live ∧ HEADER * k < n

/-- A new program: the heap is empty, and starts above `base`. -/
def Booted (s : Umalloc) : Prop :=
  ∃ mem base start, 0 < base ∧ base + HEADER ≤ start ∧ s = { mem := mem, base := base, start := start, brk := start }

end Umalloc
end Xv6
