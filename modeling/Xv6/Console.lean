import Xv6.Lib.Outcome
import Xv6.Lib.Ring

/-! Input from the console (`console.c`). `consoleintr` holds `cons.lock` throughout, and `consoleread` holds it from one `sleep`
    to the next, so these are the steps. -/

namespace Xv6

abbrev INPUT_BUF : Nat := 128

instance : NeZero INPUT_BUF := ⟨by decide⟩

namespace Console

/-- `C(x)` -/
def ctrl (x : Char) : UInt8 := .ofNat (x.toNat - '@'.toNat)

def nl : UInt8 := 10

def cr : UInt8 := 13

/-- `input`: the read, write and edit index go up for ever, and wrap around. -/
structure Input where
  buf : Fin INPUT_BUF → UInt8
  r : UInt32 := 0
  w : UInt32 := 0
  e : UInt32 := 0

namespace Input

def killLineFrom : Nat → Input → Input
  | 0, i => i
  | n + 1, i =>
    if i.e ≠ i.w ∧ i.buf (Ring.cell INPUT_BUF (i.e - 1)) ≠ nl then killLineFrom n { i with e := i.e - 1 } else i

/-- `e` meets `w` after `e - w` rounds. -/
def killLine (i : Input) : Input := i.killLineFrom (i.e - i.w).toNat

/-- A round of `consoleintr`, and whether it wakes the readers. -/
def type (i : Input) (c : UInt8) : Input × Bool :=
  if c = ctrl 'P' then (i, false)
  else if c = ctrl 'U' then (i.killLine, false)
  else if c = ctrl 'H' ∨ c = 0x7f then (if i.e ≠ i.w then { i with e := i.e - 1 } else i, false)
  else if c ≠ 0 ∧ i.e - i.r < .ofNat INPUT_BUF then
    let c := if c = cr then nl else c
    let i := { i with buf := Function.update i.buf (Ring.cell INPUT_BUF i.e) c, e := i.e + 1 }
    if c = nl ∨ c = ctrl 'D' ∨ i.e = i.r + .ofNat INPUT_BUF then ({ i with w := i.e }, true) else (i, false)
  else (i, false)

def consoleintr (i : Input) : List UInt8 → Input × Bool
  | [] => (i, false)
  | c :: cs =>
    let (i, woken) := i.type c
    let (i, woken') := consoleintr i cs
    (i, woken || woken')

inductive Exit where
  | sleep (n : Nat) (dst : List UInt8)
  | done (dst : List UInt8)
  | killed

/-- The loop of `consoleread`, with `n` bytes to go and `dst` read so far. -/
def consoleread (killed : Bool) (target : Nat) : Nat → List UInt8 → Input → Exit × Input
  | 0, dst, i => (.done dst, i)
  | n + 1, dst, i =>
    if i.r = i.w then (if killed then .killed else .sleep (n + 1) dst, i)
    else
      let c := i.buf (Ring.cell INPUT_BUF i.r)
      let i := { i with r := i.r + 1 }
      if c = ctrl 'D' then
        -- it is saved for the next read, for a result of 0 bytes
        (.done dst, if n + 1 < target then { i with r := i.r - 1 } else i)
      else if c = nl then (.done (dst ++ [c]), i)
      else consoleread killed target n (dst ++ [c]) i

end Input

structure Reader where
  target : Nat
  n : Nat
  dst : List UInt8 := []
  /-- SLEEPING on `&input.r`. -/
  asleep : Bool := false

/-- A read that has returned: `none` is -1. -/
structure Read where
  n : Nat
  got : Option (List UInt8)

end Console

structure Console where
  input : Console.Input
  reader : Option Console.Reader := none
  reads : List Console.Read := []

namespace Console

inductive Act where
  /-- An interrupt, with the characters that `getc` returns. -/
  | intr (cs : List UInt8)
  | read (n : Int)
  /-- The reader goes on, and finds itself killed or not. -/
  | run (killed : Bool)

def Reader.wake (woken : Bool) (p : Reader) : Reader := if woken then { p with asleep := false } else p

def step (s : Console) : Act → Outcome Console
  | .intr cs =>
    let (input, woken) := s.input.consoleintr cs
    .ok { s with input := input, reader := s.reader.map (·.wake woken) }
  | .read n => if s.reader.isNone then .ok { s with reader := some { target := n.toNat, n := n.toNat } } else .sleep
  | .run killed =>
    match s.reader with
    | none => .sleep
    | some p =>
      -- `kill` wakes it, too
      if p.asleep = true ∧ killed = false then .sleep
      else
        match s.input.consoleread killed p.target p.n p.dst with
        | (.sleep n dst, input) => .ok { s with input := input, reader := some { p with n := n, dst := dst, asleep := true } }
        | (.done dst, input) => .ok { s with input := input, reader := none, reads := s.reads ++ [⟨p.target, some dst⟩] }
        | (.killed, input) => .ok { s with input := input, reader := none, reads := s.reads ++ [⟨p.target, none⟩] }

end Console
end Xv6
