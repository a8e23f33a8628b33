import Xv6.File

/-! `sys_open` (`sysfile.c`), and what `fork` (`proc.c`) does with the files of a process. A path is what `argstr` finds in
    the caller's memory, or nothing if it fails. -/

namespace Xv6

/-! ### `fcntl.h` -/

abbrev O_WRONLY : UInt32 := 0x001
abbrev O_RDWR : UInt32 := 0x002
abbrev O_CREATE : UInt32 := 0x200

namespace Fs

def dots (n : Nat) (j : Nat) : UInt8 := (List.replicate n (46 : UInt8)).getD j 0

def elem (name : List UInt8) (j : Nat) : UInt8 := name.getD j 0

def setNlink (fs : Fs) (i : InodeIdx) (nlink : UInt16) : Fs := fs.setInode i { fs.inode i with nlink := nlink }

/-- If the new inode `ip` in `dp` is a directory: its entries, and the link from it. -/
def createDots (devsw : DevSw) (fs : Fs) (dp ip : InodeIdx) (type : UInt16) : Outcome Fs :=
  if type.toNat = T_DIR then do
    let fs ← (fs.setNlink dp ((fs.inode dp).nlink + 1)).iupdate dp
    let (r, fs) ← fs.dirlink devsw ip (dots 1) (fs.inode ip).inum
    if r < 0 then .panic "create dots"
    else
      let (r, fs) ← fs.dirlink devsw ip (dots 2) (fs.inode dp).inum
      if r < 0 then .panic "create dots" else pure fs
  else .ok fs

/-- `create`, when the directory `dp` is locked and has no entry of the name. -/
def createIn (devsw : DevSw) (fs : Fs) (dp : InodeIdx) (name : List UInt8) (type major minor : UInt16) :
    Outcome (InodeIdx × Fs) := do
  let (ip, fs) ← fs.ialloc (fs.inode dp).dev type
  let fs ← fs.ilock ip
  let fs ← (fs.setInode ip { fs.inode ip with major := major, minor := minor, nlink := 1 }).iupdate ip
  let fs ← fs.createDots devsw dp ip type
  let (r, fs) ← fs.dirlink devsw dp (elem name) (fs.inode ip).inum
  if r < 0 then .panic "create: dirlink"
  else
    let fs ← fs.iunlockput dp
    pure (ip, fs)

def create (devsw : DevSw) (fs : Fs) (cwd : Option InodeIdx) (path : List UInt8) (type major minor : UInt16) :
    Outcome (Option InodeIdx × Fs) := do
  let (dp, name, fs) ← fs.nameiparent devsw cwd path
  match dp with
  | none => pure (none, fs)
  | some dp =>
    let fs ← fs.ilock dp
    let (found, fs) ← fs.dirlookup devsw dp (elem name)
    match found with
    | some (ip, _) =>
      let fs ← fs.iunlockput dp
      let fs ← fs.ilock ip
      if type.toNat = T_FILE ∧ (fs.inode ip).type.toNat = T_FILE then pure (some ip, fs)
      else
        let fs ← fs.iunlockput ip
        pure (none, fs)
    | none =>
      let (ip, fs) ← fs.createIn devsw dp name type major minor
      pure (some ip, fs)

end Fs

namespace Os
variable (devsw : DevSw)

/-! ### Descriptors -/

def fdalloc (os : Os) (p : ProcIdx) (f : Nat) : Option (Fin NOFILE) × Os :=
  match (List.finRange NOFILE).find? fun fd => ((os.proc p).ofile fd).isNone with
  | some fd => (some fd, os.setFd p fd (some f))
  | none => (none, os)

/-! ### Opening files -/

/-- `sys_open`, when the inode is found and locked. -/
def openFile (os : Os) (p : ProcIdx) (ip : InodeIdx) (omode : UInt32) : Outcome (Int × Os) :=
  match os.filealloc with
  | (none, os) => do
    let fs ← os.fs.iunlockput ip
    pure (-1, (os.setFs fs).endOp)
  | (some f, os) =>
    match os.fdalloc p f with
    | (none, os) => do
      let os ← os.fileclose f
      let fs ← os.fs.iunlockput ip
      pure (-1, (os.setFs fs).endOp)
    | (some fd, os) => do
      let fs ← os.fs.iunlock ip
      let os := (os.setFs fs).endOp
      let os := os.setFile f { os.file f with
        type := .inode, ip := ip, off := 0
        readable := omode &&& O_WRONLY = 0
        writable := omode &&& O_WRONLY ≠ 0 ∨ omode &&& O_RDWR ≠ 0 }
      pure (fd.val, os)

def sysOpen (os : Os) (p : ProcIdx) (path : Option (List UInt8)) (omode : UInt32) : Outcome (Int × Os) :=
  match path with
  | none => .ok (-1, os)
  | some path => do
    let os := os.beginOp
    if omode &&& O_CREATE ≠ 0 then
      let (ip, fs) ← os.fs.create devsw (os.proc p).cwd path (.ofNat T_FILE) 0 0
      match ip with
      | none => pure (-1, (os.setFs fs).endOp)
      | some ip => (os.setFs fs).openFile p ip omode
    else
      let (ip, fs) ← os.fs.namei devsw (os.proc p).cwd path
      match ip with
      | none => pure (-1, (os.setFs fs).endOp)
      | some ip =>
        let fs ← fs.ilock ip
        if (fs.inode ip).type.toNat = T_DIR ∧ omode ≠ 0 then
          let fs ← fs.iunlockput ip
          pure (-1, (os.setFs fs).endOp)
        else (os.setFs fs).openFile p ip omode

/-! ### Processes -/

/-- The loop of `fork` that duplicates the open files. -/
def forkFiles (p np : ProcIdx) : List (Fin NOFILE) → Os → Outcome Os
  | [], os => .ok os
  | fd :: fds, os =>
    match (os.proc p).ofile fd with
    | none => forkFiles p np fds os
    | some f => do
      let os ← os.filedup f
      forkFiles p np fds (os.setFd np fd (some f))

end Os
end Xv6
