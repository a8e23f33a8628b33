import Xv6.Param
import Xv6.Sh

/-! How the shell runs a command with redirections (`runcmd` of `sh.c`), with the descriptors that `close` and `open` leave. -/

namespace Xv6
namespace Sh

/-- What a descriptor is attached to: what the shell had there, or a file that was opened. -/
inductive Target where
  | inherited (n : Nat)
  | file (name : List UInt8) (mode : Nat)
  deriving DecidableEq

/-- `proc->ofile` -/
abbrev Fds := Fin NOFILE → Option Target

def close (fds : Fds) (fd : Nat) : Fds := fun i => if i.val = fd then none else fds i

/-- `open` of a file that can be opened. `fdalloc` takes the first free descriptor. -/
def openFile (fds : Fds) (name : List UInt8) (mode : Nat) : Option Fds :=
  ((List.finRange NOFILE).find? fun i => (fds i).isNone).map fun fd => Function.update fds fd (some (.file name mode))

/-- `runcmd` through `n` REDIR commands: the command that it comes to, the descriptors then, and the files that were opened.
    There is none if the shell exits because a file cannot be opened. -/
def runcmd (opens : List UInt8 → Nat → Bool) (es : Nat) (buf : Buf) :
    Nat → Cmd → Fds → List (List UInt8 × Nat) → Option (Cmd × Fds × List (List UInt8 × Nat))
  | n + 1, .redir cmd file _ mode fd, fds, opened =>
    let name := buf.string es file
    if opens name mode then do
      let fds ← openFile (close fds fd) name mode
      runcmd opens es buf n cmd fds (opened ++ [(name, mode)])
    else none
  | _, cmd, fds, opened => some (cmd, fds, opened)

end Sh
end Xv6
