import Xv6.Sysfile
import Xv6.Lib.Prog

/-! `filewrite` (`file.c`) as a program of steps, between which those of other processes come. A step is what a function
    does under a lock, or what it reads of an inode that its caller has locked. -/

namespace Xv6
namespace Calls

inductive Op where
  | beginOp
  | endOp
  | ilock (i : InodeIdx)
  | iunlock (i : InodeIdx)
  | inode (i : InodeIdx)
  | writei (i : InodeIdx) (src : Nat → UInt8) (off n : UInt32)
  | off (f : Nat)
  | setOff (f : Nat) (off : UInt32)
  /-- `pipewrite`; what is in the pipe then is given. -/
  | pipeIo (q : Nat) (data : Fin PIPESIZE → UInt8) (nread nwrite : UInt32)

abbrev Res : Op → Type
  | .inode _ => Inode
  | .writei _ _ _ _ => Int
  | .off _ => UInt32
  | _ => Unit

def onFs {α : Type} (os : Os) (x : Outcome (α × Fs)) : Outcome (α × Os) := do
  let (a, fs) ← x
  pure (a, os.setFs fs)

def doFs (os : Os) (x : Outcome Fs) : Outcome (Unit × Os) := do
  let fs ← x
  pure ((), os.setFs fs)

def act (b : Build) : (o : Op) → Os → Outcome (Res o × Os)
  | .beginOp, os => .ok ((), os.beginOp)
  | .endOp, os => .ok ((), os.endOp)
  | .ilock i, os => doFs os (os.fs.ilock i)
  | .iunlock i, os => doFs os (os.fs.iunlock i)
  | .inode i, os => .ok (os.fs.inode i, os)
  | .writei i src off n, os => onFs os (os.fs.writei b.devsw i src off n)
  | .off f, os => .ok ((os.file f).off, os)
  | .setOff f off, os => .ok ((), os.setFile f { os.file f with off := off })
  | .pipeIo q data nread nwrite, os =>
    .ok ((), os.setPipe q { os.pipe q with data := data, nread := nread, nwrite := nwrite })

abbrev M := Prog Op Res

def call (o : Op) : M (Res o) := Prog.call o

def writei (devsw : DevSw) (i : InodeIdx) (src : Nat → UInt8) (off n : UInt32) : M Int := do
  let ip ← call (.inode i)
  if ip.type.toNat = T_DEV then
    if 2 ^ 15 ≤ ip.major.toNat ∨ NDEV ≤ ip.major.toNat then pure (-1)
    else match devsw.write ip.major.toNat with
      | none => pure (-1)
      | some f => do
        call (.iunlock i)
        call (.ilock i)
        pure (f ip src n)
  else call (.writei i src off n)

/-! ### Files (`file.c`) -/

/-- What `pipewrite` returns, and what is in the pipe then. -/
structure PipeIo where
  result : Int
  data : Fin PIPESIZE → UInt8
  nread : UInt32
  nwrite : UInt32

def PipeIo.run (io : PipeIo) (q : Nat) : M Int := do
  call (.pipeIo q io.data io.nread io.nwrite)
  pure io.result

/-- An argument of type `int`, where `uint` is wanted. -/
def uint (n : Int) : UInt32 := UInt32.ofNat (n % 2 ^ 32).toNat

def writeMax : Int := (LOGSIZE - 1 - 1 - 2) / 2 * 512

/-- The loop of `filewrite`, with a bound on its rounds: `i` bytes are written, and `part` is the transaction that writes
    some more. -/
def filewriteFrom {O : Type} {R : O → Type} (part : Int → Int → Prog O R Int) (n : Int) : Nat → Int → Prog O R Int
  | 0, i => pure (if i = n then n else -1)
  | left + 1, i =>
    if i < n then do
      let n1 := if writeMax < n - i then writeMax else n - i
      let r ← part i n1
      if r < 0 then pure (if i = n then n else -1)
      else if r ≠ n1 then .halt (some "short filewrite") else filewriteFrom part n left (i + r)
    else pure (if i = n then n else -1)

def filewritePart (devsw : DevSw) (f : Nat) (ip : InodeIdx) (addr : Nat → UInt8) (i n1 : Int) : M Int := do
  call .beginOp
  call (.ilock ip)
  let off ← call (.off f)
  let r ← writei devsw ip (fun j => addr (i.toNat + j)) off (uint n1)
  if 0 < r then
    let off ← call (.off f)
    call (.setOff f (off + uint r))
  call (.iunlock ip)
  call .endOp
  pure r

def filewrite (devsw : DevSw) (f : Nat) (ff : File) (addr : Nat → UInt8) (n : Int) (io : PipeIo) : M Int :=
  if ff.writable = false then pure (-1)
  else match ff.type with
    | .pipe => io.run ff.pipe
    | .inode => filewriteFrom (filewritePart devsw f ff.ip addr) n n.toNat 0
    | .none => .halt (some "filewrite")

end Calls
end Xv6
