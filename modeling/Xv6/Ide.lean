import Xv6.Bio
import Xv6.Lib.Chain

/-! The IDE driver (`ide.c`) with its device and any number of processes. One step is a section under `idelock`, a step of
    the device, or what a process does with a buffer that it owns. -/

namespace Xv6
open Function (update)

abbrev SECTOR_SIZE : Nat := 512
abbrev IDE_CMD_READ : Nat := 0x20
abbrev IDE_CMD_WRITE : Nat := 0x30

inductive Port where
  /-- 0x3f6 -/
  | control
  /-- 0x1f2 -/
  | count
  /-- 0x1f3 -/
  | lba0
  /-- 0x1f4 -/
  | lba1
  /-- 0x1f5 -/
  | lba2
  /-- 0x1f6 -/
  | head
  /-- 0x1f7 -/
  | command

structure Command where
  write : Bool
  drive1 : Bool
  sector : Nat
  count : Nat
  deriving DecidableEq

/-- Two drives and the registers. A block is one sector. -/
structure Device where
  /-- The sectors of drive 0 and of drive 1. -/
  drive : Bool → Nat → Block
  count : Nat := 0
  lba0 : Nat := 0
  lba1 : Nat := 0
  lba2 : Nat := 0
  head : Nat := 0
  active : Option Command := none
  /-- The buffer behind port 0x1f0. -/
  data : Block := Bytes.Buffer.zero
  /-- An interrupt is raised that has not been handled. -/
  intr : Bool := false

namespace Device

def sector (d : Device) : Nat := d.lba0 + d.lba1 * 2 ^ 8 + d.lba2 * 2 ^ 16 + d.head % 2 ^ 4 * 2 ^ 24

def drive1 (d : Device) : Bool := d.head.testBit 4

def outb (d : Device) (port : Port) (value : Nat) : Device :=
  match port with
  | .control => d
  | .count => { d with count := value }
  | .lba0 => { d with lba0 := value }
  | .lba1 => { d with lba1 := value }
  | .lba2 => { d with lba2 := value }
  | .head => { d with head := value }
  | .command => { d with
      active := some { write := value == IDE_CMD_WRITE, drive1 := d.drive1, sector := d.sector, count := d.count } }

/-- The status has DRDY and not BSY: no request is being worked on. -/
def ready (d : Device) : Bool := d.active.isNone

/-- The device completes the request, without an error, and raises an interrupt. -/
def complete (d : Device) : Outcome Device :=
  match d.active with
  | none => .sleep
  | some c =>
    if c.count ≠ 1 then .sleep
    else if c.write then
      .ok { d with
        drive := update d.drive c.drive1 (update (d.drive c.drive1) c.sector d.data)
        active := none, intr := true }
    else .ok { d with data := d.drive c.drive1 c.sector, active := none, intr := true }

end Device

/-- Where a process is: not in `iderw`, or in its loop, asleep on its buffer or no longer. -/
inductive Ide.Pc where
  | out
  | sleeping (i : BufIdx)
  | woken (i : BufIdx)
  deriving DecidableEq

/-- What the in-memory disk of `memide.c` is given to do in its turn: a buffer is changed by its owner, or `iderw`. -/
inductive MemAct where
  | set (i : BufIdx) (b : Buf)
  | iderw (i : BufIdx)

def Store.memStep (st : Store) : MemAct → Outcome Store
  | .set i b => .ok (st.setBuf i b)
  | .iderw i => st.iderw i

structure Ide (Pid : Type) where
  buf : BufIdx → Buf
  /-- `idequeue`, and `qnext` of the buffers. -/
  idequeue : Chain BufIdx
  havedisk1 : Bool
  device : Device
  pc : Pid → Ide.Pc
  /-- The process that has got the buffer from `bget`. -/
  owner : BufIdx → Option Pid
  /-- Ghost: the buffers in the order in which they were put in the queue. -/
  queued : List BufIdx := []
  /-- Ghost: those whose requests have ended, in the order in which they did. -/
  completed : List BufIdx := []
  /-- Ghost: what owners did to their buffers, and the requests that ended. -/
  trace : List MemAct := []

namespace Ide
variable {Pid : Type}

/-- `idestart`, for a buffer; it spins in `idewait` until the device is ready. -/
def idestart (s : Ide Pid) (i : BufIdx) : Outcome (Ide Pid) :=
  let b := s.buf i
  if FSSIZE ≤ b.blockno then .panic "incorrect blockno"
  else
    let sectorPerBlock := BSIZE / SECTOR_SIZE
    let sector := b.blockno * sectorPerBlock
    if 7 < sectorPerBlock then .panic "idestart"
    else if s.device.ready = false then .sleep
    else
      let d := s.device.outb .control 0
      let d := d.outb .count sectorPerBlock
      let d := d.outb .lba0 (sector &&& 0xff)
      let d := d.outb .lba1 ((sector >>> 8) &&& 0xff)
      let d := d.outb .lba2 ((sector >>> 16) &&& 0xff)
      let d := d.outb .head (0xe0 ||| ((b.dev &&& 1) <<< 4) ||| ((sector >>> 24) &&& 0x0f))
      if b.dirty then
        let d := d.outb .command IDE_CMD_WRITE
        -- `outsl`
        .ok { s with device := { d with data := b.data } }
      else .ok { s with device := d.outb .command IDE_CMD_READ }

def wakeup (s : Ide Pid) (i : BufIdx) : Ide Pid :=
  { s with pc := fun p => if s.pc p = .sleeping i then .woken i else s.pc p }

def startHead (s : Ide Pid) : Outcome (Ide Pid) :=
  match s.idequeue.head with
  | none => .ok s
  | some i => s.idestart i

def startIfHead (s : Ide Pid) (i : BufIdx) : Outcome (Ide Pid) :=
  if s.idequeue.head = some i then s.idestart i else .ok s

def ideintr (s : Ide Pid) : Outcome (Ide Pid) :=
  match s.idequeue.head with
  | none => .ok s
  | some i =>
    let s := { s with idequeue := ⟨s.idequeue.next i, s.idequeue.next⟩ }
    let b := s.buf i
    -- `idewait` and `insl`
    if b.dirty = false ∧ s.device.ready = false then .sleep
    else
      let b := if b.dirty = false then { b with data := s.device.data } else b
      let b := { b with valid := true, dirty := false }
      let s := { s with
        buf := update s.buf i b, completed := s.completed ++ [i], trace := s.trace ++ [MemAct.iderw i] }
      (s.wakeup i).startHead

variable [DecidableEq Pid]

/-- The loop of `iderw`: it ends when the buffer is valid and not dirty, and sleeps otherwise. -/
def await (s : Ide Pid) (p : Pid) (i : BufIdx) : Ide Pid :=
  if (s.buf i).valid = true ∧ (s.buf i).dirty = false then { s with pc := update s.pc p .out }
  else { s with pc := update s.pc p (.sleeping i) }

/-- `iderw`, until it sleeps. The walk to the end of a queue of more buffers than there are would not end. -/
def iderw (s : Ide Pid) (p : Pid) (i : BufIdx) : Outcome (Ide Pid) :=
  let b := s.buf i
  if b.busy = false then .panic "iderw: buf not busy"
  else if b.valid = true ∧ b.dirty = false then .panic "iderw: nothing to do"
  else if b.dev ≠ 0 ∧ s.havedisk1 = false then .panic "iderw: ide disk 1 not present"
  else
    match s.idequeue.append (NBUF + 1) i with
    | none => .sleep
    | some queue => do
      let s ← { s with idequeue := queue, queued := s.queued ++ [i] }.startIfHead i
      pure (s.await p i)

inductive Act (Pid : Type) where
  /-- `bget` returns the buffer, as it is then. -/
  | bget (p : Pid) (i : BufIdx) (b : Buf)
  | modify (p : Pid) (i : BufIdx) (b : Buf)
  | brelse (p : Pid) (i : BufIdx)
  | iderw (p : Pid) (i : BufIdx)
  | complete
  | ideintr
  | kill (p : Pid)
  | resume (p : Pid)

def setBuf (s : Ide Pid) (i : BufIdx) (b : Buf) : Ide Pid :=
  { s with buf := update s.buf i b, trace := s.trace ++ [MemAct.set i b] }

/-- One step. A process uses a buffer between `bget` and `brelse`, and only outside of `iderw`. -/
def step (s : Ide Pid) : Act Pid → Outcome (Ide Pid)
  | .bget p i b =>
    if s.pc p = .out ∧ s.owner i = none ∧ b.busy = true then
      .ok { s.setBuf i b with owner := update s.owner i (some p) }
    else .sleep
  | .modify p i b => if s.pc p = .out ∧ s.owner i = some p ∧ b.busy = true then .ok (s.setBuf i b) else .sleep
  | .brelse p i =>
    if s.pc p = .out ∧ s.owner i = some p then
      .ok { s.setBuf i { s.buf i with busy := false } with owner := update s.owner i none }
    else .sleep
  | .iderw p i => if s.pc p = .out ∧ s.owner i = some p then s.iderw p i else .sleep
  | .complete => do
    let d ← s.device.complete
    pure { s with device := d }
  | .ideintr => if s.device.intr then { s with device := { s.device with intr := false } }.ideintr else .sleep
  | .kill p =>
    match s.pc p with
    | .sleeping i => .ok { s with pc := update s.pc p (.woken i) }
    | _ => .ok s
  | .resume p =>
    match s.pc p with
    | .woken i => .ok (s.await p i)
    | _ => .sleep

def start (buf : BufIdx → Buf) (drive : Bool → Nat → Block) (havedisk1 : Bool) : Ide Pid where
  buf := buf
  idequeue := ⟨none, fun _ => none⟩
  havedisk1 := havedisk1
  device := { drive := drive }
  pc := fun _ => .out
  owner := fun _ => none

end Ide
end Xv6
