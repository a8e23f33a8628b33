import Xv6.Fs

/-! Directories (`fs.c`), and the file system as a machine whose steps are the calls that other kernel code
    makes. -/

namespace Xv6
open Bytes

/-! ### Strings (`string.c`); a pointer is the function that gives the bytes from there on -/

def strncmp (p q : Nat → UInt8) : Nat → Nat → Int
  | 0, _ => 0
  | n + 1, k => if p k ≠ 0 ∧ p k = q k then strncmp p q n (k + 1) else (p k).toNat - (q k).toNat

def strncpy (t : Nat → UInt8) : Nat → Nat → List UInt8
  | 0, _ => []
  | n + 1, k => if t k = 0 then List.replicate (n + 1) 0 else t k :: strncpy t n (k + 1)

namespace Fs

/-! ### Directory entries: `inum`, then `name` -/

/-- `sizeof(struct dirent)` -/
abbrev DIRENT : Nat := 2 + DIRSIZ

def direntInum (de : List UInt8) : Nat := ofLe (de.take 2)

def direntName (de : List UInt8) (j : Nat) : UInt8 := de.getD (2 + j) 0

def encodeDirent (name : Nat → UInt8) (inum : Nat) : List UInt8 := toLe 2 inum ++ strncpy name DIRSIZ 0

def namecmp (s t : Nat → UInt8) : Int := strncmp s t DIRSIZ 0

/-- The loop of `dirlookup`, for at most `left` entries. -/
def dirlookupFrom (devsw : DevSw) (fs : Fs) (dp : InodeIdx) (name : Nat → UInt8) :
    Nat → Nat → Outcome (Option (InodeIdx × Nat) × Fs)
  | 0, _ => .ok (none, fs)
  | left + 1, off =>
    if off < (fs.inode dp).size.toNat then do
      let (r, de, fs) ← fs.readi devsw dp (.ofNat off) (.ofNat DIRENT)
      if r ≠ DIRENT then .panic "dirlink read"
      else if direntInum de ≠ 0 ∧ namecmp name (direntName de) = 0 then
        let (i, fs) ← fs.iget (fs.inode dp).dev (direntInum de)
        pure (some (i, off), fs)
      else dirlookupFrom devsw fs dp name left (off + DIRENT)
    else .ok (none, fs)

def dirlookup (devsw : DevSw) (fs : Fs) (dp : InodeIdx) (name : Nat → UInt8) : Outcome (Option (InodeIdx × Nat) × Fs) :=
  if (fs.inode dp).type.toNat ≠ T_DIR then .panic "dirlookup not DIR"
  else fs.dirlookupFrom devsw dp name ((fs.inode dp).size.toNat / DIRENT + 1) 0

/-- The loop of `dirlink` that looks for an empty entry. -/
def dirlinkFrom (devsw : DevSw) (fs : Fs) (dp : InodeIdx) : Nat → Nat → Outcome (Nat × Fs)
  | 0, off => .ok (off, fs)
  | left + 1, off =>
    if off < (fs.inode dp).size.toNat then do
      let (r, de, fs) ← fs.readi devsw dp (.ofNat off) (.ofNat DIRENT)
      if r ≠ DIRENT then .panic "dirlink read"
      else if direntInum de = 0 then pure (off, fs)
      else dirlinkFrom devsw fs dp left (off + DIRENT)
    else .ok (off, fs)

def dirlink (devsw : DevSw) (fs : Fs) (dp : InodeIdx) (name : Nat → UInt8) (inum : Nat) : Outcome (Int × Fs) := do
  let (found, fs) ← fs.dirlookup devsw dp name
  match found with
  | some (i, _) =>
    let fs ← fs.iput i
    pure (-1, fs)
  | none =>
    let (off, fs) ← fs.dirlinkFrom devsw dp ((fs.inode dp).size.toNat / DIRENT + 1) 0
    let (r, fs) ← fs.writei devsw dp (fun j => (encodeDirent name inum).getD j 0) (.ofNat off) (.ofNat DIRENT)
    if r ≠ DIRENT then .panic "dirlink" else pure (0, fs)

/-! ### The machine -/

/-- The calls that the rest of the kernel makes. `setLinks` is a change of the fields that `create`, `link`
    and `unlink` set, with the `iupdate` that follows it. -/
inductive Call where
  | ialloc (type : UInt16)
  | iget (inum : Nat)
  | idup (i : InodeIdx)
  | ilock (i : InodeIdx)
  | iunlock (i : InodeIdx)
  | iput (i : InodeIdx)
  | setLinks (i : InodeIdx) (major minor nlink : UInt16)
  | readi (i : InodeIdx) (off n : UInt32)
  | writei (i : InodeIdx) (src : Nat → UInt8) (off n : UInt32)
  | dirlink (i : InodeIdx) (name : Nat → UInt8) (inum : Nat)

def Locked (fs : Fs) (i : InodeIdx) : Prop := 0 < (fs.inode i).ref ∧ (fs.inode i).busy = true ∧ (fs.inode i).valid = true

instance (fs : Fs) (i : InodeIdx) : Decidable (fs.Locked i) := inferInstanceAs (Decidable (_ ∧ _))

/-- One call. Callers name inodes that the disk has, pass inodes they have a reference to, and lock an inode
    before they use what is in it; a call out of turn is no step. -/
def step (devsw : DevSw) (fs : Fs) : Call → Outcome Fs
  | .ialloc type => do
    let (_, fs) ← fs.ialloc ROOTDEV type
    pure fs
  | .iget inum =>
    if inum < fs.sb.ninodes then do
      let (_, fs) ← fs.iget ROOTDEV inum
      pure fs
    else .sleep
  | .idup i => if 0 < (fs.inode i).ref then .ok (fs.idup i) else .sleep
  | .ilock i => if 0 < (fs.inode i).ref then fs.ilock i else .sleep
  | .iunlock i => if fs.Locked i then fs.iunlock i else .sleep
  | .iput i => if 0 < (fs.inode i).ref then fs.iput i else .sleep
  | .setLinks i major minor nlink =>
    if fs.Locked i then
      (fs.setInode i { fs.inode i with major := major, minor := minor, nlink := nlink }).iupdate i
    else .sleep
  | .readi i off n =>
    if fs.Locked i then do
      let (_, _, fs) ← fs.readi devsw i off n
      pure fs
    else .sleep
  | .writei i src off n =>
    if fs.Locked i then do
      let (_, fs) ← fs.writei devsw i src off n
      pure fs
    else .sleep
  | .dirlink i name inum =>
    if fs.Locked i then do
      let (_, fs) ← fs.dirlink devsw i name inum
      pure fs
    else .sleep

end Fs
end Xv6
