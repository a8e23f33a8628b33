import Xv6.Param
import Xv6.Lib.Outcome

/-! The file system below path names (`fs.c`): the block bitmap, inodes and their cache, file contents and
    directories. A block is what `bread` shows of it; `log_write` and `brelse` make a change visible. A
    pointer into the inode cache is an index. The functions run one at a time, as they do between the locks
    their callers take. -/

namespace Xv6
open Bytes
open Function (update)

/-! ### What is on disk -/

structure Superblock where
  size : Nat
  nblocks : Nat
  ninodes : Nat
  nlog : Nat
  logstart : Nat
  inodestart : Nat
  bmapstart : Nat
  deriving DecidableEq

def decodeSb (x : Block) : Superblock where
  size := x.word 4 0
  nblocks := x.word 4 4
  ninodes := x.word 4 8
  nlog := x.word 4 12
  logstart := x.word 4 16
  inodestart := x.word 4 20
  bmapstart := x.word 4 24

abbrev IPB : Nat := BSIZE / 64
abbrev BPB : Nat := BSIZE * 8

namespace Superblock

def iblock (sb : Superblock) (i : Nat) : Nat := i / IPB + sb.inodestart

def bblock (sb : Superblock) (b : Nat) : Nat := b / BPB + sb.bmapstart

end Superblock

structure Dinode where
  type : UInt16
  major : UInt16 := 0
  minor : UInt16 := 0
  nlink : UInt16 := 0
  size : UInt32 := 0
  addrs : Fin (NDIRECT + 1) → UInt32 := fun _ => 0

def readDinode (x : Block) (i : Nat) : Dinode :=
  let o := i % IPB * 64
  { type := .ofNat (x.word 2 o)
    major := .ofNat (x.word 2 (o + 2))
    minor := .ofNat (x.word 2 (o + 4))
    nlink := .ofNat (x.word 2 (o + 6))
    size := .ofNat (x.word 4 (o + 8))
    addrs := fun k => .ofNat (x.word 4 (o + 12 + 4 * k)) }

def writeDinode (x : Block) (i : Nat) (d : Dinode) : Block :=
  let o := i % IPB * 64
  ((((((x.setWord 2 o d.type.toNat).setWord 2 (o + 2) d.major.toNat).setWord 2 (o + 4) d.minor.toNat).setWord 2 (o + 6)
    d.nlink.toNat).setWord 4 (o + 8) d.size.toNat).setWords 4 (o + 12) (List.ofFn fun k => (d.addrs k).toNat))

/-! ### The state -/

/-- `struct inode`; the two bits of `flags` are fields of their own. -/
structure Inode extends Dinode where
  dev : Nat
  inum : Nat
  ref : Nat
  busy : Bool
  valid : Bool

abbrev InodeIdx := Fin NINODE

structure Fs where
  /-- The blocks as `bread` shows them. -/
  blk : Nat → Block
  disksize : Nat
  /-- The super block in memory. -/
  sb : Superblock
  /-- `icache.inode` -/
  inode : InodeIdx → Inode
  /-- Ghost: the blocks that were given to `log_write`, the last one first. -/
  logged : List Nat := []

/-- The device switch: what the driver of a major number does for a read or a write. -/
structure DevSw where
  read : Nat → Option (Inode → UInt32 → Int × List UInt8)
  write : Nat → Option (Inode → (Nat → UInt8) → UInt32 → Int)

namespace Fs

/-- `bread`, with the checks that `iderw` makes of a block that is not cached. -/
def bread (fs : Fs) (dev b : Nat) : Outcome Block :=
  if dev ≠ ROOTDEV then .panic "iderw: request not for disk 1"
  else if fs.disksize ≤ b then .panic "iderw: block out of range"
  else .ok (fs.blk b)

/-- `log_write` of a block that now holds `x`, without its tests: `inTrans` has them. -/
def logWrite (fs : Fs) (b : Nat) (x : Block) : Fs := { fs with blk := update fs.blk b x, logged := b :: fs.logged }

def setInode (fs : Fs) (i : InodeIdx) (ip : Inode) : Fs := { fs with inode := update fs.inode i ip }

def setAddr (fs : Fs) (i : InodeIdx) (k : Fin (NDIRECT + 1)) (addr : Nat) : Fs :=
  fs.setInode i { fs.inode i with addrs := update (fs.inode i).addrs k (.ofNat addr) }

def readsb (fs : Fs) (dev : Nat) : Outcome Superblock := do
  let x ← fs.bread dev 1
  pure (decodeSb x)

/-! ### Blocks -/

def bzero (fs : Fs) (dev b : Nat) : Outcome Fs := do
  let _ ← fs.bread dev b
  pure (fs.logWrite b .zero)

/-- The inner loop of `balloc`, with `left` bits of the bitmap block still to be looked at. -/
def ballocBit (x : Block) (size b : Nat) : Nat → Option Nat
  | 0 => none
  | left + 1 =>
    let bi := BPB - (left + 1)
    if b + bi < size then
      if x.bit bi then ballocBit x size b left else some bi
    else none

/-- The outer loop of `balloc`, for at most `left` bitmap blocks. -/
def ballocFrom (fs : Fs) (dev : Nat) : Nat → Nat → Outcome (Nat × Fs)
  | 0, _ => .panic "balloc: out of blocks"
  | left + 1, b =>
    if b < fs.sb.size then do
      let x ← fs.bread dev (fs.sb.bblock b)
      match ballocBit x fs.sb.size b BPB with
      | some bi =>
        let fs ← (fs.logWrite (fs.sb.bblock b) (x.setBit bi)).bzero dev (b + bi)
        pure (b + bi, fs)
      | none => ballocFrom fs dev left (b + BPB)
    else .panic "balloc: out of blocks"

def balloc (fs : Fs) (dev : Nat) : Outcome (Nat × Fs) := fs.ballocFrom dev (fs.sb.size / BPB + 1) 0

def bfree (fs : Fs) (dev b : Nat) : Outcome Fs := do
  let sb ← fs.readsb dev
  let fs := { fs with sb := sb }
  let x ← fs.bread dev (fs.sb.bblock b)
  let bi := b % BPB
  if x.bit bi = false then .panic "freeing free block"
  else pure (fs.logWrite (fs.sb.bblock b) (x.clearBit bi))

/-! ### Inodes -/

def iupdate (fs : Fs) (i : InodeIdx) : Outcome Fs := do
  let ip := fs.inode i
  let x ← fs.bread ip.dev (fs.sb.iblock ip.inum)
  pure (fs.logWrite (fs.sb.iblock ip.inum) (writeDinode x ip.inum ip.toDinode))

def iget (fs : Fs) (dev inum : Nat) : Outcome (InodeIdx × Fs) :=
  let hit := fun i => 0 < (fs.inode i).ref ∧ (fs.inode i).dev = dev ∧ (fs.inode i).inum = inum
  match (List.finRange NINODE).find? fun i => decide (hit i) with
  | some i => .ok (i, fs.setInode i { fs.inode i with ref := (fs.inode i).ref + 1 })
  | none =>
    match (List.finRange NINODE).find? fun i => (fs.inode i).ref == 0 with
    | some i =>
      .ok (i, fs.setInode i { fs.inode i with dev := dev, inum := inum, ref := 1, busy := false, valid := false })
    | none => .panic "iget: no inodes"

/-- The loop of `ialloc`, with `left` inodes still to be looked at. -/
def iallocFrom (fs : Fs) (dev : Nat) (type : UInt16) : Nat → Outcome (InodeIdx × Fs)
  | 0 => .panic "ialloc: no inodes"
  | left + 1 => do
    let inum := fs.sb.ninodes - (left + 1)
    let x ← fs.bread dev (fs.sb.iblock inum)
    if (readDinode x inum).type = 0 then
      (fs.logWrite (fs.sb.iblock inum) (writeDinode x inum { type := type })).iget dev inum
    else iallocFrom fs dev type left

def ialloc (fs : Fs) (dev : Nat) (type : UInt16) : Outcome (InodeIdx × Fs) :=
  fs.iallocFrom dev type (fs.sb.ninodes - 1)

def idup (fs : Fs) (i : InodeIdx) : Fs := fs.setInode i { fs.inode i with ref := (fs.inode i).ref + 1 }

def ilock (fs : Fs) (i : InodeIdx) : Outcome Fs :=
  let ip := fs.inode i
  if ip.ref < 1 then .panic "ilock"
  else if ip.busy then .sleep
  else if ip.valid then .ok (fs.setInode i { ip with busy := true })
  else do
    let x ← fs.bread ip.dev (fs.sb.iblock ip.inum)
    let d := readDinode x ip.inum
    if d.type = 0 then .panic "ilock: no type"
    else pure (fs.setInode i { ip with toDinode := d, busy := true, valid := true })

def iunlock (fs : Fs) (i : InodeIdx) : Outcome Fs :=
  let ip := fs.inode i
  if ip.busy = false ∨ ip.ref < 1 then .panic "iunlock"
  else .ok (fs.setInode i { ip with busy := false })

/-! ### File contents -/

/-- Block `k` of the inode's own list, allocated if there is none yet. -/
def addrAlloc (fs : Fs) (i : InodeIdx) (k : Fin (NDIRECT + 1)) : Outcome (Nat × Fs) :=
  let ip := fs.inode i
  if ip.addrs k = 0 then do
    let (addr, fs) ← fs.balloc ip.dev
    pure (addr, fs.setAddr i k addr)
  else .ok ((ip.addrs k).toNat, fs)

def bmap (fs : Fs) (i : InodeIdx) (bn : Nat) : Outcome (Nat × Fs) :=
  if bn < NDIRECT then fs.addrAlloc i (Fin.ofNat (NDIRECT + 1) bn)
  else
    let bn := bn - NDIRECT
    if bn < NINDIRECT then do
      let (addr, fs) ← fs.addrAlloc i INDIRECT
      let x ← fs.bread (fs.inode i).dev addr
      if x.word 4 (4 * bn) = 0 then
        let (addr', fs) ← fs.balloc (fs.inode i).dev
        pure (addr', fs.logWrite addr (x.setWord 4 (4 * bn) addr'))
      else pure (x.word 4 (4 * bn), fs)
    else .panic "bmap: out of range"

def itruncDirect (fs : Fs) (i : InodeIdx) : List (Fin NDIRECT) → Outcome Fs
  | [] => .ok fs
  | k :: ks =>
    if (fs.inode i).addrs k.castSucc = 0 then itruncDirect fs i ks
    else do
      let fs ← fs.bfree (fs.inode i).dev ((fs.inode i).addrs k.castSucc).toNat
      itruncDirect (fs.setAddr i k.castSucc 0) i ks

/-- The loop of `itrunc` over the entries of the indirect block `x`. -/
def itruncIndirect (fs : Fs) (dev : Nat) (x : Block) : List Nat → Outcome Fs
  | [] => .ok fs
  | j :: js =>
    if x.word 4 (4 * j) = 0 then itruncIndirect fs dev x js
    else do
      let fs ← fs.bfree dev (x.word 4 (4 * j))
      itruncIndirect fs dev x js

def itrunc (fs : Fs) (i : InodeIdx) : Outcome Fs := do
  let fs ← fs.itruncDirect i (List.finRange NDIRECT)
  let ip := fs.inode i
  let addr := ip.addrs INDIRECT
  let fs ← if addr = 0 then pure fs else do
    let x ← fs.bread ip.dev addr.toNat
    let fs ← fs.itruncIndirect ip.dev x (List.range NINDIRECT)
    let fs ← fs.bfree ip.dev addr.toNat
    pure (fs.setAddr i INDIRECT 0)
  (fs.setInode i { fs.inode i with size := 0 }).iupdate i

/-- Drop a reference; the last one to an inode without links frees the inode and its contents. -/
def iput (fs : Fs) (i : InodeIdx) : Outcome Fs := do
  let ip := fs.inode i
  let fs ← if ip.ref = 1 ∧ ip.valid = true ∧ ip.nlink = 0 then
      if ip.busy then .panic "iput busy"
      else do
        let fs ← (fs.setInode i { ip with busy := true }).itrunc i
        let fs ← (fs.setInode i { fs.inode i with type := 0 }).iupdate i
        pure (fs.setInode i { fs.inode i with busy := false, valid := false })
    else pure fs
  pure (fs.setInode i { fs.inode i with ref := (fs.inode i).ref - 1 })

/-- The loop of `readi`: `n` bytes from `off` on, of which `tot` are done; `left` bounds the rounds. -/
def readiLoop (fs : Fs) (i : InodeIdx) (n : Nat) : Nat → Nat → Nat → Outcome (List UInt8 × Fs)
  | 0, _, _ => .ok ([], fs)
  | left + 1, off, tot =>
    if tot < n then do
      let (addr, fs) ← fs.bmap i (off / BSIZE)
      let x ← fs.bread (fs.inode i).dev addr
      let m := min (n - tot) (BSIZE - off % BSIZE)
      let (rest, fs) ← readiLoop fs i n left (off + m) (tot + m)
      pure (x.getBytes (off % BSIZE) m ++ rest, fs)
    else .ok ([], fs)

def readi (devsw : DevSw) (fs : Fs) (i : InodeIdx) (off n : UInt32) : Outcome (Int × List UInt8 × Fs) :=
  let ip := fs.inode i
  if ip.type.toNat = T_DEV then
    if 2 ^ 15 ≤ ip.major.toNat ∨ NDEV ≤ ip.major.toNat then .ok (-1, [], fs)
    else match devsw.read ip.major.toNat with
      | none => .ok (-1, [], fs)
      | some f => .ok ((f ip n).1, (f ip n).2, fs)
  else if ip.size < off ∨ off + n < off then .ok (-1, [], fs)
  else do
    let n := if ip.size < off + n then ip.size - off else n
    let (bs, fs) ← fs.readiLoop i n.toNat n.toNat off.toNat 0
    pure (n.toNat, bs, fs)

/-- The loop of `writei`; it returns the offset after the last byte. -/
def writeiLoop (fs : Fs) (i : InodeIdx) (src : Nat → UInt8) (n : Nat) : Nat → Nat → Nat → Outcome (Nat × Fs)
  | 0, off, _ => .ok (off, fs)
  | left + 1, off, tot =>
    if tot < n then do
      let (addr, fs) ← fs.bmap i (off / BSIZE)
      let x ← fs.bread (fs.inode i).dev addr
      let m := min (n - tot) (BSIZE - off % BSIZE)
      let fs := fs.logWrite addr (x.setBytes (off % BSIZE) ((List.range m).map fun j => src (tot + j)))
      writeiLoop fs i src n left (off + m) (tot + m)
    else .ok (off, fs)

def writei (devsw : DevSw) (fs : Fs) (i : InodeIdx) (src : Nat → UInt8) (off n : UInt32) : Outcome (Int × Fs) :=
  let ip := fs.inode i
  if ip.type.toNat = T_DEV then
    if 2 ^ 15 ≤ ip.major.toNat ∨ NDEV ≤ ip.major.toNat then .ok (-1, fs)
    else match devsw.write ip.major.toNat with
      | none => .ok (-1, fs)
      | some f => .ok (f ip src n, fs)
  else if ip.size < off ∨ off + n < off then .ok (-1, fs)
  else if UInt32.ofNat (MAXFILE * BSIZE) < off + n then .ok (-1, fs)
  else do
    let (off, fs) ← fs.writeiLoop i src n.toNat n.toNat off.toNat 0
    if 0 < n ∧ (fs.inode i).size.toNat < off then
      let fs ← (fs.setInode i { fs.inode i with size := .ofNat off }).iupdate i
      pure (n.toNat, fs)
    else pure (n.toNat, fs)

/-! ### The log -/

/-- The blocks that were given to `log_write` on the way from one state to another, the last one first. -/
def loggedSince (fs fs' : Fs) : List Nat := fs'.logged.take (fs'.logged.length - fs.logged.length)

end Fs

/-- What `log_write` tests: `log.outstanding`, and the blocks in the header of the log. -/
structure Trans where
  outstanding : Nat
  lh : List Nat

namespace Trans

def logWrite (size : Nat) (log : Trans) (b : Nat) : Outcome Trans :=
  if log.lh.length ≥ LOGSIZE ∨ log.lh.length ≥ size - 1 then .panic "too big a transaction"
  else if log.outstanding < 1 then .panic "log_write outside of trans"
  else .ok { log with lh := if b ∈ log.lh then log.lh else log.lh ++ [b] }

/-- `log_write` of some blocks, of which the last one comes first. -/
def logWrites (size : Nat) (log : Trans) : List Nat → Outcome Trans
  | [] => .ok log
  | b :: bs => do
    let log ← logWrites size log bs
    log.logWrite size b

end Trans

/-- A call, with the tests of `log_write` for each block that it logs. -/
def Fs.inTrans {α : Type} (fs : Fs) (log : Trans) (call : Outcome (α × Fs)) : Outcome (α × Fs × Trans) := do
  let (r, fs') ← call
  let log ← log.logWrites fs.sb.nlog (fs.loggedSince fs')
  pure (r, fs', log)

end Xv6
