/-
  Xv6.Param — the constants of kernel/param.h and kernel/fs.h.
-/

import Xv6.Lib.Bytes

namespace Xv6

/-- The most blocks one file-system operation writes. -/
def maxopblocks : Nat := 10

/-- Data blocks in the on-disk log. -/
def logsize : Nat := maxopblocks * 3

/-- Buffers of the block cache. -/
def nbuf : Nat := maxopblocks * 3

def bsize : Nat := 1024

/-- Slots of the process table. -/
def nproc : Nat := 64

/-- A disk block's bytes; offsets below `bsize` are the block's. -/
abbrev Block := Lib.Bytes

abbrev Disk := Nat → Block

end Xv6
