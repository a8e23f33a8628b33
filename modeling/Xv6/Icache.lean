import Xv6.Fs

/-! The inode cache (`fs.c`) used by any number of processes. One step is a section under `icache.lock`, a look at one
    on-disk inode between `bread` and `brelse`, or what a process does to an inode that it has locked. -/

namespace Xv6
open Function (update)

/-- `icache`, and the inodes on disk as `bread` shows them. -/
structure Icache where
  ino : Nat → Dinode
  sb : Superblock
  disksize : Nat
  inode : InodeIdx → Inode

namespace Icache

def setInode (c : Icache) (i : InodeIdx) (ip : Inode) : Icache := { c with inode := update c.inode i ip }

def setIno (c : Icache) (inum : Nat) (d : Dinode) : Icache := { c with ino := update c.ino inum d }

/-- The inode `inum` in the buffer of its block. -/
def bread (c : Icache) (dev inum : Nat) : Outcome Dinode :=
  if dev ≠ ROOTDEV then .panic "iderw: request not for disk 1"
  else if c.disksize ≤ c.sb.iblock inum then .panic "iderw: block out of range"
  else .ok (c.ino inum)

def iget (c : Icache) (dev inum : Nat) : Outcome (InodeIdx × Icache) :=
  let hit := fun i => 0 < (c.inode i).ref ∧ (c.inode i).dev = dev ∧ (c.inode i).inum = inum
  match (List.finRange NINODE).find? fun i => decide (hit i) with
  | some i => .ok (i, c.setInode i { c.inode i with ref := (c.inode i).ref + 1 })
  | none =>
    match (List.finRange NINODE).find? fun i => (c.inode i).ref == 0 with
    | some i =>
      .ok (i, c.setInode i { c.inode i with dev := dev, inum := inum, ref := 1, busy := false, valid := false })
    | none => .panic "iget: no inodes"

/-- The part of `ilock` under `icache.lock`. -/
def acquire (c : Icache) (i : InodeIdx) : Outcome Icache :=
  if (c.inode i).busy then .sleep else .ok (c.setInode i { c.inode i with busy := true })

def fill (c : Icache) (i : InodeIdx) : Outcome Icache :=
  let ip := c.inode i
  if ip.valid then .ok c
  else do
    let d ← c.bread ip.dev ip.inum
    if d.type = 0 then .panic "ilock: no type"
    else pure (c.setInode i { ip with toDinode := d, valid := true })

def iupdate (c : Icache) (i : InodeIdx) : Outcome Icache := do
  let ip := c.inode i
  let _ ← c.bread ip.dev ip.inum
  pure (c.setIno ip.inum ip.toDinode)

def iunlock (c : Icache) (i : InodeIdx) : Outcome Icache :=
  let ip := c.inode i
  if ip.busy = false ∨ ip.ref < 1 then .panic "iunlock"
  else .ok (c.setInode i { ip with busy := false })

end Icache

/-! ### Processes -/

/-- Where a process is that has an inode busy inside a call: in `ilock` before the test of `I_VALID`, or in `iput` before
    `itrunc`, before it clears the type, or before it takes `icache.lock` again. -/
inductive Inside where
  | fill | itrunc | free | last
  deriving DecidableEq

/-- `ialloc` looks at inode `inum` next, or has found it and calls `iget`; `ilock` has not got the inode yet. -/
inductive IPc where
  | idle
  | ialloc (dev : Nat) (type : UInt16) (inum : Nat)
  | iget (dev inum : Nat)
  | ilock (i : InodeIdx)
  | inside (i : InodeIdx) (st : Inside)
  deriving DecidableEq

/-- A process has locked an inode; `changed` is one that it has changed since the last `iupdate`. -/
inductive Lock where
  | clean | changed
  deriving DecidableEq

structure ISys (Pid : Type) where
  cache : Icache
  pc : Pid → IPc
  lock : Pid → InodeIdx → Option Lock
  /-- The processes that have a reference to the inode, once for each. -/
  holders : InodeIdx → List Pid

namespace ISys
variable {Pid : Type} [DecidableEq Pid]

def goto (s : ISys Pid) (p : Pid) (c : IPc) : ISys Pid := { s with pc := update s.pc p c }

def setLock (s : ISys Pid) (p : Pid) (i : InodeIdx) (l : Option Lock) : ISys Pid :=
  { s with lock := update s.lock p (update (s.lock p) i l) }

def setHolders (s : ISys Pid) (i : InodeIdx) (ps : List Pid) : ISys Pid :=
  { s with holders := update s.holders i ps }

def iget (s : ISys Pid) (p : Pid) (dev inum : Nat) : Outcome (ISys Pid) := do
  let (i, c) ← s.cache.iget dev inum
  pure ({ s with cache := c }.setHolders i (p :: s.holders i) |>.goto p .idle)

def iput (s : ISys Pid) (p : Pid) (i : InodeIdx) : Outcome (ISys Pid) :=
  let ip := s.cache.inode i
  if ip.ref = 1 ∧ ip.valid = true ∧ ip.nlink = 0 then
    if ip.busy then .panic "iput busy"
    else .ok ({ s with cache := s.cache.setInode i { ip with busy := true } }.goto p (.inside i .itrunc))
  else .ok ({ s with cache := s.cache.setInode i { ip with ref := ip.ref - 1 } }.setHolders i ((s.holders i).erase p))

def go (s : ISys Pid) (p : Pid) : IPc → Outcome (ISys Pid)
  | .idle => .sleep
  | .ialloc dev type inum =>
    if inum < s.cache.sb.ninodes then do
      let d ← s.cache.bread dev inum
      if d.type = 0 then pure ({ s with cache := s.cache.setIno inum { type := type } }.goto p (.iget dev inum))
      else pure (s.goto p (.ialloc dev type (inum + 1)))
    else .panic "ialloc: no inodes"
  | .iget dev inum => s.iget p dev inum
  | .ilock i => do
    let c ← s.cache.acquire i
    pure ({ s with cache := c }.goto p (.inside i .fill))
  | .inside i .fill => do
    let c ← s.cache.fill i
    pure ({ s with cache := c }.setLock p i (some .clean) |>.goto p .idle)
  | .inside i .itrunc => do
    -- The blocks go back to the bitmap, which is none of the cache's business.
    let c ← (s.cache.setInode i { s.cache.inode i with size := 0, addrs := fun _ => 0 }).iupdate i
    pure ({ s with cache := c }.goto p (.inside i .free))
  | .inside i .free => do
    let c ← (s.cache.setInode i { s.cache.inode i with type := 0 }).iupdate i
    pure ({ s with cache := c }.goto p (.inside i .last))
  | .inside i .last =>
    let ip := s.cache.inode i
    .ok ({ s with cache := s.cache.setInode i { ip with busy := false, valid := false, ref := ip.ref - 1 } }.setHolders i
      ((s.holders i).erase p) |>.goto p .idle)

inductive Act (Pid : Type) where
  | ialloc (p : Pid) (dev : Nat) (type : UInt16)
  | iget (p : Pid) (dev inum : Nat)
  | idup (p : Pid) (i : InodeIdx)
  | ilock (p : Pid) (i : InodeIdx)
  | modify (p : Pid) (i : InodeIdx) (d : Dinode)
  | iupdate (p : Pid) (i : InodeIdx)
  | iunlock (p : Pid) (i : InodeIdx)
  | iput (p : Pid) (i : InodeIdx)
  | pass (p q : Pid) (i : InodeIdx)
  | go (p : Pid)

/-- Process `p` can do without one of its references to `i`: it has another, or has not locked the inode. -/
def Spare (s : ISys Pid) (p : Pid) (i : InodeIdx) : Prop :=
  p ∈ s.holders i ∧ (s.lock p i ≠ none → 2 ≤ (s.holders i).count p)

instance (s : ISys Pid) (p : Pid) (i : InodeIdx) : Decidable (s.Spare p i) := inferInstanceAs (Decidable (_ ∧ _))

/-- One step. A process uses an inode only while it has a reference to it, changes it only while it has it locked, and
    calls `iupdate` before it unlocks it; a call out of turn is no step. After `fork` two processes
    share a `struct file` and its one reference, which is dropped by the last to close it: it passes from one to the other. -/
def step (s : ISys Pid) : Act Pid → Outcome (ISys Pid)
  | .ialloc p dev type => if s.pc p = .idle then .ok (s.goto p (.ialloc dev type 1)) else .sleep
  | .iget p dev inum => if s.pc p = .idle then s.iget p dev inum else .sleep
  | .idup p i =>
    if s.pc p = .idle ∧ p ∈ s.holders i then
      .ok ({ s with cache := s.cache.setInode i { s.cache.inode i with ref := (s.cache.inode i).ref + 1 } }.setHolders i
        (p :: s.holders i))
    else .sleep
  | .ilock p i =>
    if s.pc p = .idle ∧ p ∈ s.holders i then
      if (s.cache.inode i).ref < 1 then .panic "ilock" else .ok (s.goto p (.ilock i))
    else .sleep
  | .modify p i d =>
    if s.pc p = .idle ∧ s.lock p i ≠ none then
      .ok ({ s with cache := s.cache.setInode i { s.cache.inode i with toDinode := d } }.setLock p i (some .changed))
    else .sleep
  | .iupdate p i =>
    if s.pc p = .idle ∧ s.lock p i ≠ none then do
      let c ← s.cache.iupdate i
      pure ({ s with cache := c }.setLock p i (some .clean))
    else .sleep
  | .iunlock p i =>
    if s.pc p = .idle ∧ s.lock p i = some .clean then do
      let c ← s.cache.iunlock i
      pure ({ s with cache := c }.setLock p i none)
    else .sleep
  | .iput p i => if s.pc p = .idle ∧ s.Spare p i then s.iput p i else .sleep
  | .pass p q i => if s.pc p = .idle ∧ s.Spare p i then .ok (s.setHolders i (q :: (s.holders i).erase p)) else .sleep
  | .go p => s.go p (s.pc p)

def start (ino : Nat → Dinode) (sb : Superblock) (disksize : Nat) : ISys Pid where
  cache := { ino, sb, disksize, inode := fun _ => { type := 0, dev := 0, inum := 0, ref := 0, busy := false, valid := false } }
  pc := fun _ => .idle
  lock := fun _ _ => none
  holders := fun _ => []

end ISys
end Xv6
