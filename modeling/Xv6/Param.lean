import Xv6.Lib.Bytes

/-! The constants of `param.h`, `fs.h`, `stat.h`, `mmu.h` and `memlayout.h` that the modelled code uses. -/

namespace Xv6

/-! ### `param.h` -/

abbrev NPROC : Nat := 64
abbrev NCPU : Nat := 8
abbrev NOFILE : Nat := 16
abbrev NFILE : Nat := 100
abbrev NINODE : Nat := 50
abbrev NDEV : Nat := 10
abbrev ROOTDEV : Nat := 1
abbrev MAXARG : Nat := 32
abbrev MAXOPBLOCKS : Nat := 10
abbrev LOGSIZE : Nat := MAXOPBLOCKS * 3
abbrev NBUF : Nat := MAXOPBLOCKS * 3
abbrev FSSIZE : Nat := 1000

abbrev NUMSIG : Nat := 32

/-! ### `mmu.h` and `memlayout.h` -/

abbrev PGSIZE : Nat := 4096
abbrev NPTENTRIES : Nat := 1024
abbrev KERNBASE : Nat := 0x80000000
abbrev EXTMEM : Nat := 0x100000
abbrev KERNLINK : Nat := KERNBASE + EXTMEM
abbrev PHYSTOP : Nat := 0xE000000
abbrev DEVSPACE : Nat := 0xFE000000

/-! ### `fs.h` and `stat.h` -/

abbrev ROOTINO : Nat := 1
abbrev BSIZE : Nat := 512
abbrev NDIRECT : Nat := 12

/-- The entry of `addrs` for the indirect block. -/
abbrev INDIRECT : Fin (NDIRECT + 1) := Fin.last NDIRECT
abbrev NINDIRECT : Nat := BSIZE / 4
abbrev MAXFILE : Nat := NDIRECT + NINDIRECT
abbrev DIRSIZ : Nat := 14

abbrev T_DIR : Nat := 1
abbrev T_FILE : Nat := 2
abbrev T_DEV : Nat := 3

instance : NeZero NPROC := ⟨by decide⟩

instance : NeZero NINODE := ⟨by decide⟩

instance : NeZero NBUF := ⟨by decide⟩

instance (priority := 2000) : NeZero (NDIRECT + 1) := ⟨by decide⟩

abbrev Block := Bytes.Buffer BSIZE

abbrev Page := Bytes.Buffer PGSIZE

end Xv6
