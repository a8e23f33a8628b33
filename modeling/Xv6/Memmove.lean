import Mathlib

/-! The two functions `memmove`, of the kernel (`string.c`) and of user programs (`ulib.c`). Memory is given by addresses, which are
    computed modulo 2^32. -/

namespace Xv6

abbrev Mem := Nat → UInt8

/-- `while(n-- > 0) *d++ = *s++;` -/
def copyUp : Nat → Mem → Nat → Nat → Mem
  | 0, mem, _, _ => mem
  | n + 1, mem, d, s => copyUp n (Function.update mem d (mem s)) ((d + 1) % 2 ^ 32) ((s + 1) % 2 ^ 32)

/-- `--p` -/
def before (p : Nat) : Nat := if p = 0 then 0xffffffff else p - 1

/-- `while(n-- > 0) *--d = *--s;` -/
def copyDown : Nat → Mem → Nat → Nat → Mem
  | 0, mem, _, _ => mem
  | n + 1, mem, d, s => copyDown n (Function.update mem (before d) (mem (before s))) (before d) (before s)

def memmove (mem : Mem) (dst src n : Nat) : Mem :=
  if src < dst ∧ (src + n) % 2 ^ 32 > dst then copyDown n mem ((dst + n) % 2 ^ 32) ((src + n) % 2 ^ 32)
  else copyUp n mem dst src

/-- `memmove` of user programs, where `n` is an `int`. -/
def Ulib.memmove (mem : Mem) (vdst vsrc : Nat) (n : Int) : Mem := copyUp n.toNat mem vdst vsrc

end Xv6
