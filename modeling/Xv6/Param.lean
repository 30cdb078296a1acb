import Mathlib.Data.Nat.Notation

/-!
# Parameters

The constants of `param.h`, and those of `mmu.h`, `memlayout.h`, `fs.h` and `mkfs.c` that more than
one part of the system uses.
-/

namespace Xv6

/-- The number of processes. -/
abbrev NPROC : ℕ := 64

/-- The number of processors. -/
abbrev NCPU : ℕ := 8

/-- The number of open files of a process. -/
abbrev NOFILE : ℕ := 16

/-- The number of open files of the system. -/
abbrev NFILE : ℕ := 100

/-- The number of inodes with a copy in memory. -/
abbrev NINODE : ℕ := 50

/-- The number of arguments of `exec`. -/
abbrev MAXARG : ℕ := 32

/-- The maximum number of blocks an operation writes. -/
abbrev MAXOPBLOCKS : ℕ := 10

/-- The maximum number of data blocks in the on-disk log. -/
abbrev LOGSIZE : ℕ := MAXOPBLOCKS * 3

/-- The number of buffers. -/
abbrev NBUF : ℕ := MAXOPBLOCKS * 3

/-- The number of blocks of the file system. -/
abbrev FSSIZE : ℕ := 1000

/-- The number of inodes of the file system. -/
abbrev NINODES : ℕ := 200

/-- The number of characters of a name in a directory. -/
abbrev DIRSIZ : ℕ := 14

/-- The size of a page. -/
abbrev PGSIZE : UInt32 := 4096

/-- The first kernel virtual address. -/
abbrev KERNBASE : UInt32 := 0x80000000

/-- The end of the physical memory. -/
abbrev PHYSTOP : UInt32 := 0xE000000

/-- The entry of a page table is present. -/
abbrev PTE_P : UInt32 := 1

/-- The page is writeable. -/
abbrev PTE_W : UInt32 := 2

/-- The page is for user programs. -/
abbrev PTE_U : UInt32 := 4

end Xv6
