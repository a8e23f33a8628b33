import Mathlib
import Xv6.Param

/-! The configuration table of a multiprocessor, which the firmware supplies (`mp.c`). Positions in it are numbers of bytes from its
    start. What is printed, and the IMCR, are left out. -/

namespace Xv6

abbrev MpTable := Nat → UInt8

structure Mp where
  ismp : Bool := false
  ncpu : Nat := 0
  /-- The index in `cpus` of the processor that booted. -/
  bcpu : Nat := 0
  ioapicid : UInt8 := 0
  lapic : Nat := 0
  /-- The indices of `cpus` that were written to. -/
  written : List Nat := []
  deriving DecidableEq

namespace Mp

abbrev MPPROC : UInt8 := 0
abbrev MPBUS : UInt8 := 1
abbrev MPIOAPIC : UInt8 := 2
abbrev MPIOINTR : UInt8 := 3
abbrev MPLINTR : UInt8 := 4

/-- `sizeof(struct mpconf)` -/
abbrev HEADER : Nat := 44

def length (t : MpTable) : Nat := (t 4).toNat + 256 * (t 5).toNat

def sum (t : MpTable) (len : Nat) : UInt8 := ((List.range len).map t).sum

/-- What `mpconfig` checks: the signature, the version and the checksum. -/
def mpconfig (t : MpTable) : Bool :=
  [t 0, t 1, t 2, t 3] == [0x50, 0x43, 0x4d, 0x50] && (t 6 == 1 || t 6 == 4) && sum t (length t) == 0

/-- One round of the loop of `mpinit`: where it goes on, and what it has set. -/
def entry (t : MpTable) (p : Nat) (s : Mp) : Nat × Mp :=
  if t p = MPPROC then
    (p + 20, { s with
      ismp := s.ismp && s.ncpu == (t (p + 1)).toNat
      bcpu := if t (p + 3) &&& 2 ≠ 0 then s.ncpu else s.bcpu
      written := s.written ++ [s.ncpu]
      ncpu := s.ncpu + 1 })
  else if t p = MPIOAPIC then (p + 8, { s with ioapicid := t (p + 1) })
  else if t p = MPBUS ∨ t p = MPIOINTR ∨ t p = MPLINTR then (p + 8, s)
  else (p, { s with ismp := false })

def walk (t : MpTable) (e : Nat) : Nat → Nat → Mp → Option (Nat × Mp)
  | 0, _, _ => none
  | rounds + 1, p, s =>
    if p < e then walk t e rounds (entry t p s).1 (entry t p s).2
    else some (p, s)

def start (t : MpTable) : Mp where
  ismp := true
  lapic := (t 36).toNat + 2 ^ 8 * (t 37).toNat + 2 ^ 16 * (t 38).toNat + 2 ^ 24 * (t 39).toNat

def mpinit (t : MpTable) (rounds : Nat) : Option Mp :=
  if mpconfig t then do
    let (_, s) ← walk t (length t) rounds HEADER (start t)
    some (if s.ismp then s else { s with ncpu := 1, lapic := 0, ioapicid := 0 })
  else some {}

end Mp
end Xv6
