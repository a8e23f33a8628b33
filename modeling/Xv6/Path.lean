import Xv6.Dir

/-! Path names (`fs.c`). A path is the list of its bytes before the NUL. -/

namespace Xv6

/-- `'/'` -/
abbrev SLASH : UInt8 := 47

namespace Fs

def iunlockput (fs : Fs) (i : InodeIdx) : Outcome Fs := do
  let fs ← fs.iunlock i
  fs.iput i

/-- The next path element, cut to `DIRSIZ` bytes, and the path behind it. -/
def skipelem (path : List UInt8) : Option (List UInt8 × List UInt8) :=
  let s := path.dropWhile (· = SLASH)
  if s = [] then none
  else some ((s.takeWhile (· ≠ SLASH)).take DIRSIZ, (s.dropWhile (· ≠ SLASH)).dropWhile (· = SLASH))

/-- The loop of `namex`, with a bound on its rounds; `name` is the last element taken off the path. -/
def namexFrom (devsw : DevSw) (nameiparent : Bool) :
    Nat → Fs → InodeIdx → List UInt8 → List UInt8 → Outcome (Option InodeIdx × List UInt8 × Fs)
  | 0, fs, ip, _, name => leave fs ip name
  | left + 1, fs, ip, path, name =>
    match skipelem path with
    | none => leave fs ip name
    | some (name, path) => do
      let fs ← fs.ilock ip
      if (fs.inode ip).type.toNat ≠ T_DIR then
        let fs ← fs.iunlockput ip
        pure (none, name, fs)
      else if nameiparent ∧ path = [] then
        let fs ← fs.iunlock ip
        pure (some ip, name, fs)
      else
        let (next, fs) ← fs.dirlookup devsw ip fun j => name.getD j 0
        let fs ← fs.iunlockput ip
        match next with
        | none => pure (none, name, fs)
        | some (next, _) => namexFrom devsw nameiparent left fs next path name
where
  /-- Behind the loop. -/
  leave (fs : Fs) (ip : InodeIdx) (name : List UInt8) : Outcome (Option InodeIdx × List UInt8 × Fs) :=
    if nameiparent then do
      let fs ← fs.iput ip
      pure (none, name, fs)
    else pure (some ip, name, fs)

/-- Look up a path name, from the root or from the current directory. Every round takes a byte off the path. -/
def namex (devsw : DevSw) (fs : Fs) (cwd : Option InodeIdx) (path : List UInt8) (nameiparent : Bool) :
    Outcome (Option InodeIdx × List UInt8 × Fs) := do
  let (ip, fs) ← if path.head? = some SLASH then fs.iget ROOTDEV ROOTINO
    else match cwd with
      | none => .panic "trap"
      | some cwd => .ok (cwd, fs.idup cwd)
  namexFrom devsw nameiparent path.length fs ip path []

def namei (devsw : DevSw) (fs : Fs) (cwd : Option InodeIdx) (path : List UInt8) : Outcome (Option InodeIdx × Fs) := do
  let (ip, _, fs) ← fs.namex devsw cwd path false
  pure (ip, fs)

def nameiparent (devsw : DevSw) (fs : Fs) (cwd : Option InodeIdx) (path : List UInt8) :
    Outcome (Option InodeIdx × List UInt8 × Fs) := fs.namex devsw cwd path true

end Fs
end Xv6
