import Xv6.Exec
import Xv6.Pipe
import Xv6.Signal

/-! Open files (`file.c`), with the two ends of pipes (`pipe.c`), in the kernel as the system calls of `sysfile.c` see
    it. A pointer into the file table is an index; so is a pointer to a pipe, the number of its page. -/

namespace Xv6
open Function (update)

inductive FdType where
  | none | pipe | inode
  deriving DecidableEq

/-- `struct file`; `pipe` and `ip` are set for files of their type only. -/
structure File where
  type : FdType := .none
  ref : Nat := 0
  readable : Bool := false
  writable : Bool := false
  pipe : Nat := 0
  ip : InodeIdx := 0
  off : UInt32 := 0

structure Os where
  fs : Fs
  /-- `log.outstanding` -/
  outstanding : Nat := 0
  /-- `ftable.file` -/
  file : Nat → File := fun _ => {}
  /-- The pipe that a page holds, or held last. -/
  pipe : Nat → Pipe := fun _ => ⟨fun _ => 0, 0, 0, false, false⟩
  proc : ProcIdx → Proc := fun _ => {}
  /-- The pages of pipes that were given to `kfree`. -/
  kfrees : List Nat := []

namespace Os

def beginOp (os : Os) : Os := { os with outstanding := os.outstanding + 1 }

def endOp (os : Os) : Os := { os with outstanding := os.outstanding - 1 }

def setFs (os : Os) (fs : Fs) : Os := { os with fs := fs }

def setFile (os : Os) (f : Nat) (file : File) : Os := { os with file := update os.file f file }

def setPipe (os : Os) (q : Nat) (pipe : Pipe) : Os := { os with pipe := update os.pipe q pipe }

def setProc (os : Os) (p : ProcIdx) (proc : Proc) : Os := { os with proc := update os.proc p proc }

def setFd (os : Os) (p : ProcIdx) (fd : Fin NOFILE) (f : Option Nat) : Os :=
  os.setProc p { os.proc p with ofile := update (os.proc p).ofile fd f }

def setCwd (os : Os) (p : ProcIdx) (cwd : Option InodeIdx) : Os := os.setProc p { os.proc p with cwd := cwd }

/-! ### The file table -/

def filealloc (os : Os) : Option Nat × Os :=
  match (List.range NFILE).find? fun f => (os.file f).ref == 0 with
  | some f => (some f, os.setFile f { os.file f with ref := 1 })
  | none => (none, os)

def filedup (os : Os) (f : Nat) : Outcome Os :=
  if (os.file f).ref < 1 then .panic "filedup"
  else .ok (os.setFile f { os.file f with ref := (os.file f).ref + 1 })

/-- `kfree` of the page of a pipe. -/
def kfree (os : Os) (q : Nat) : Os := { os with kfrees := q :: os.kfrees }

def pipeclose (os : Os) (q : Nat) (writable : Bool) : Os :=
  let p := os.pipe q
  let p := if writable then { p with writeopen := false } else { p with readopen := false }
  let os := os.setPipe q p
  if p.readopen = false ∧ p.writeopen = false then os.kfree q else os

def fileclose (os : Os) (f : Nat) : Outcome Os :=
  let ff := os.file f
  if ff.ref < 1 then .panic "fileclose"
  else if 0 < ff.ref - 1 then .ok (os.setFile f { ff with ref := ff.ref - 1 })
  else
    let os := os.setFile f { ff with ref := 0, type := .none }
    match ff.type with
    | .pipe => .ok (os.pipeclose ff.pipe ff.writable)
    | .inode => do
      let os := os.beginOp
      let fs ← os.fs.iput ff.ip
      pure (os.setFs fs).endOp
    | .none => .ok os

end Os
end Xv6
