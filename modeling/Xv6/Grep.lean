import Xv6.Memmove

/-! The program `grep` (`grep.c`), with `strchr` of the user library. The strings that its matcher gets are lists of bytes, without the
    NUL; the buffer is given by the indices of its bytes. -/

namespace Xv6
namespace Grep

abbrev CARET : UInt8 := 94
abbrev STAR : UInt8 := 42
abbrev DOLLAR : UInt8 := 36
abbrev DOT : UInt8 := 46
abbrev NEWLINE : UInt8 := 10

mutual

def matchhere (re text : List UInt8) : Bool :=
  match re with
  | [] => true
  | c :: re =>
    if re.head? = some STAR then matchstar c re.tail text
    else if c = DOLLAR ∧ re = [] then text.isEmpty
    else match text with
      | [] => false
      | d :: text => if c = DOT ∨ c = d then matchhere re text else false
termination_by (re.length, text.length, 0)

def matchstar (c : UInt8) (re text : List UInt8) : Bool :=
  matchhere re text || match text with
    | [] => false
    | d :: text => if d = c ∨ c = DOT then matchstar c re text else false
termination_by (re.length, text.length, 1)

end

/-- The loop of `match`. -/
def matchAny (re : List UInt8) : List UInt8 → Bool
  | [] => matchhere re []
  | d :: text => matchhere re (d :: text) || matchAny re text

/-- `match` -/
def matchRe (re text : List UInt8) : Bool := if re.head? = some CARET then matchhere re.tail text else matchAny re text

/-! ### Reading -/

/-- `sizeof(buf)` -/
abbrev SIZE : Nat := 1024

/-- `strchr`, for a number of bytes. -/
def strchr (mem : Mem) (c : UInt8) : Nat → Nat → Option Nat
  | 0, _ => none
  | left + 1, s => if mem s = 0 then none else if mem s = c then some s else strchr mem c left (s + 1)

def string (mem : Mem) : Nat → Nat → List UInt8
  | 0, _ => []
  | left + 1, s => if mem s = 0 then [] else mem s :: string mem left (s + 1)

/-- The loop over the lines in the buffer, from `p` on: the buffer, the end of the last line, and what is written. -/
def lines (pattern : List UInt8) : Nat → Mem → Nat → Mem × Nat × List UInt8
  | 0, buf, p => (buf, p, [])
  | left + 1, buf, p =>
    match strchr buf NEWLINE SIZE p with
    | none => (buf, p, [])
    | some q =>
      let buf := Function.update buf q 0
      if matchRe pattern (string buf SIZE p) then
        let buf := Function.update buf q NEWLINE
        let line := (List.range (q + 1 - p)).map fun k => buf (p + k)
        let (buf, p, out) := lines pattern left buf (q + 1)
        (buf, p, line ++ out)
      else lines pattern left buf (q + 1)

end Grep

structure Grep where
  buf : Mem
  m : Nat := 0
  out : List UInt8 := []

namespace Grep

/-- One round of `grep`: `read` has returned `bs`. -/
def round (pattern : List UInt8) (s : Grep) (bs : List UInt8) : Grep :=
  let m := s.m + bs.length
  let buf := fun a => if s.m ≤ a ∧ a < m then bs.getD (a - s.m) 0 else s.buf a
  let buf := Function.update buf m 0
  let (buf, p, out) := lines pattern SIZE buf 0
  let m := if p = 0 then 0 else m
  if 0 < m then { buf := Ulib.memmove buf 0 p (m - p : Nat), m := m - p, out := s.out ++ out }
  else { buf, m, out := s.out ++ out }

/-- The reads return something, and not more than was asked for. -/
def Reads (pattern : List UInt8) : Grep → List (List UInt8) → Prop
  | _, [] => True
  | s, bs :: reads => bs ≠ [] ∧ bs.length ≤ SIZE - s.m - 1 ∧ Reads pattern (round pattern s bs) reads

/-- `grep`, until `read` returns 0. -/
def grep (pattern : List UInt8) (s : Grep) (reads : List (List UInt8)) : Grep := reads.foldl (round pattern) s

end Grep
end Xv6
