import Xv6.Path

/-! `mkfs` (`mkfs.c`), which runs on the host and writes the image of a file system. The image is a file of sectors; to
    exit with an error, or to fail an assertion, is to panic. -/

namespace Xv6
open Bytes

structure HostFile where
  name : List UInt8
  data : List UInt8

/-- The image file and the static variables of `mkfs`. -/
structure Mkfs where
  blk : Nat → Block
  len : Nat
  freeinode : Nat
  freeblock : Nat

namespace Mkfs

abbrev NINODES : Nat := 200
abbrev nbitmap : Nat := FSSIZE / (BSIZE * 8) + 1
abbrev ninodeblocks : Nat := NINODES / IPB + 1
abbrev nlog : Nat := LOGSIZE
abbrev nmeta : Nat := 2 + nlog + ninodeblocks + nbitmap
abbrev nblocks : Nat := FSSIZE - nmeta

def sb : Superblock where
  size := FSSIZE
  nblocks := nblocks
  ninodes := NINODES
  nlog := nlog
  logstart := 2
  inodestart := 2 + nlog
  bmapstart := 2 + nlog + ninodeblocks

def encodeSb (sb : Superblock) : Block :=
  Buffer.setWords 4 .zero 0 [sb.size, sb.nblocks, sb.ninodes, sb.nlog, sb.logstart, sb.inodestart, sb.bmapstart]

/-- The sector at the byte offset `sec * BSIZE`, which is a `uint`. -/
def sector (sec : Nat) : Nat := sec * BSIZE % 2 ^ 32 / BSIZE

/-- `wsect`: a file that is too short becomes longer. -/
def wsect (m : Mkfs) (sec : Nat) (x : Block) : Mkfs :=
  { m with blk := Function.update m.blk (sector sec) x, len := max m.len (sector sec + 1) }

def rsect (m : Mkfs) (sec : Nat) : Outcome Block :=
  if sector sec < m.len then .ok (m.blk (sector sec)) else .panic "read"

def winode (m : Mkfs) (inum : Nat) (d : Dinode) : Outcome Mkfs := do
  let x ← m.rsect (sb.iblock inum)
  pure (m.wsect (sb.iblock inum) (writeDinode x inum d))

def rinode (m : Mkfs) (inum : Nat) : Outcome Dinode := do
  let x ← m.rsect (sb.iblock inum)
  pure (readDinode x inum)

def ialloc (m : Mkfs) (type : UInt16) : Outcome (Nat × Mkfs) := do
  let inum := m.freeinode
  let m ← { m with freeinode := m.freeinode + 1 }.winode inum { type := type, nlink := 1 }
  pure (inum, m)

def bitmap (used : Nat) : Block := (List.range used).foldl Buffer.setBit .zero

def balloc (m : Mkfs) (used : Nat) : Outcome Mkfs :=
  if used < BSIZE * 8 then .ok (m.wsect sb.bmapstart (bitmap used)) else .panic "assert"

/-- Number `k` of the inode, the next block of the image if there was none. -/
def addrFor (m : Mkfs) (din : Dinode) (k : Fin (NDIRECT + 1)) : Mkfs × Dinode :=
  if din.addrs k = 0 then
    ({ m with freeblock := m.freeblock + 1 }, { din with addrs := Function.update din.addrs k (.ofNat m.freeblock) })
  else (m, din)

def blockFor (m : Mkfs) (din : Dinode) (fbn : Nat) : Outcome (Nat × Mkfs × Dinode) :=
  if fbn < NDIRECT then
    let (m, din) := m.addrFor din (Fin.ofNat (NDIRECT + 1) fbn)
    .ok ((din.addrs (Fin.ofNat (NDIRECT + 1) fbn)).toNat, m, din)
  else
    let (m, din) := m.addrFor din INDIRECT
    let addr := (din.addrs INDIRECT).toNat
    do
      let indirect ← m.rsect addr
      if indirect.word 4 (4 * (fbn - NDIRECT)) = 0 then
        let indirect := indirect.setWord 4 (4 * (fbn - NDIRECT)) m.freeblock
        let m := { m with freeblock := m.freeblock + 1 }.wsect addr indirect
        pure (indirect.word 4 (4 * (fbn - NDIRECT)), m, din)
      else pure (indirect.word 4 (4 * (fbn - NDIRECT)), m, din)

/-- The loop of `iappend`, for the bytes `p` at offset `off`; `left` bounds the rounds. -/
def iappendLoop : Nat → Mkfs → Dinode → Nat → List UInt8 → Outcome (Nat × Mkfs × Dinode)
  | 0, m, din, off, _ => .ok (off, m, din)
  | left + 1, m, din, off, p =>
    if p = [] then .ok (off, m, din)
    else if MAXFILE ≤ off / BSIZE then .panic "assert"
    else do
      let (x, m, din) ← m.blockFor din (off / BSIZE)
      let n1 := min p.length ((off / BSIZE + 1) * BSIZE - off)
      let buf ← m.rsect x
      let m := m.wsect x (buf.setBytes (off - off / BSIZE * BSIZE) (p.take n1))
      iappendLoop left m din (off + n1) (p.drop n1)

def iappend (m : Mkfs) (inum : Nat) (p : List UInt8) : Outcome Mkfs := do
  let din ← m.rinode inum
  let (off, m, din) ← iappendLoop p.length m din din.size.toNat p
  m.winode inum { din with size := .ofNat off }

/-- The loop of `main` that reads a file and appends it, a buffer at a time. -/
def appendAll (inum : Nat) : Nat → Mkfs → List UInt8 → Outcome Mkfs
  | 0, m, _ => .ok m
  | left + 1, m, data =>
    if data = [] then .ok m
    else do
      let m ← m.iappend inum (data.take BSIZE)
      appendAll inum left m (data.drop BSIZE)

/-- `'_'` -/
abbrev UNDERSCORE : UInt8 := 95

/-- The name in the file system: a leading underscore is skipped. -/
def fsName (name : List UInt8) : List UInt8 := if name.head? = some UNDERSCORE then name.tail else name

def dirent (name : List UInt8) (inum : Nat) : List UInt8 := Fs.encodeDirent (fun j => name.getD j 0) inum

def addFile (m : Mkfs) (f : HostFile) : Outcome Mkfs :=
  if SLASH ∈ f.name then .panic "assert"
  else do
    let (inum, m) ← m.ialloc (.ofNat T_FILE)
    let m ← m.iappend ROOTINO (dirent (fsName f.name) inum)
    appendAll inum f.data.length m f.data

def addFiles : Mkfs → List HostFile → Outcome Mkfs
  | m, [] => .ok m
  | m, f :: fs => do
    let m ← m.addFile f
    addFiles m fs

def format : Mkfs :=
  let m : Mkfs := { blk := fun _ => .zero, len := 0, freeinode := 1, freeblock := nmeta }
  ((List.range FSSIZE).foldl (fun m i => m.wsect i .zero) m).wsect 1 (encodeSb sb)

def makeRoot (m : Mkfs) : Outcome Mkfs := do
  let (rootino, m) ← m.ialloc (.ofNat T_DIR)
  if rootino ≠ ROOTINO then .panic "assert"
  else
    let m ← m.iappend rootino (dirent [46] rootino)
    m.iappend rootino (dirent [46, 46] rootino)

def fixRoot (m : Mkfs) : Outcome Mkfs := do
  let din ← m.rinode ROOTINO
  m.winode ROOTINO { din with size := .ofNat ((din.size.toNat / BSIZE + 1) * BSIZE) }

def main (files : List HostFile) : Outcome Mkfs := do
  let m ← format.makeRoot
  let m ← m.addFiles files
  let m ← m.fixRoot
  m.balloc m.freeblock

end Mkfs

/-- The file system that the kernel finds on an image, with an empty inode cache. -/
def Fs.mount (blk : Nat → Block) (disksize : Nat) : Fs where
  blk := blk
  disksize := disksize
  sb := decodeSb (blk 1)
  inode _ := { type := 0, dev := 0, inum := 0, ref := 0, busy := false, valid := false }

end Xv6
