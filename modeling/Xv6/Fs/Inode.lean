/-
  Xv6.Fs.Inode — blocks and inodes (kernel/fs.c: `balloc`, `bfree`, `ialloc`, `iupdate`,
  `iget`, `idup`, `ilock`, `iunlock`, `iput`, `bmap`, `itrunc`, `readi`, `writei`).

  The state holds the blocks as `bread` returns them, the log's counters, and the table of
  inodes in memory. There is one device, so an inode is named by its number, and the table is
  keyed by it; `nlive` counts its entries with `ref > 0`. `iget` finds no empty slot exactly
  when all `ninode` slots hold such an entry.

  Calls run one at a time: a call that would sleep on an inode lock sleeps on a lock it holds
  itself, for ever (`Stop.deadlock`). Every `panic` of these functions is a `Stop`.

  A copy from or to user memory can fail: `CopyIn` is what `either_copyin` delivers for each
  piece of a source, and a destination is a test of each piece `either_copyout` is given.
-/

import Xv6.Fs.Files
import Xv6.Lib.Wp
import Xv6.Log.Group

namespace Xv6.Fs

open Xv6.Lib
open Xv6.Log.Group (absorb)

/-- Entries of the inode table. -/
def ninode : Nat := 50

/-- A 32-bit unsigned value. -/
def u32 (n : Nat) : Nat := n % 2 ^ 32

inductive Stop
  | tooBig | outsideTrans
  | freeingFreeBlock
  | igetNoInodes
  | ilock | ilockNoType | iunlock
  | bmapOutOfRange
  | dirlookupNotDir | dirlookupRead | dirlinkRead | isdiremptyReadi
  | unlinkNlink | unlinkWritei
  | filedup | fileclose | fileread | filewrite
  | deadlock
  deriving DecidableEq

/-- `struct inode`: the reference count, the sleep-lock, `valid`, and the copy of the disk inode. -/
structure Inode where
  ref : Nat
  locked : Bool
  valid : Bool
  din : Dinode

structure St where
  disk : Disk
  outstanding : Nat
  lh : List Nat
  itab : Nat → Inode
  nlive : Nat

abbrev FsM := StateT St (Except Stop)

def St.setInode (s : St) (i : Nat) (x : Inode) : St := { s with itab := update s.itab i x }

/-- `ip->... = ...` on the copy in memory. -/
def St.setDin (s : St) (i : Nat) (x : Dinode) : St := s.setInode i { s.itab i with din := x }

section

variable (sb : Superblock)

/-! ## The log's interface -/

def beginOp : FsM Unit := modify fun s => { s with outstanding := s.outstanding + 1 }

/-- The last operation to end commits, which empties the log. -/
def endOp : FsM Unit := modify fun s =>
  { s with outstanding := s.outstanding - 1, lh := if s.outstanding - 1 = 0 then [] else s.lh }

def logWrite (b : Nat) : FsM Unit := do
  let s ← get
  if logsize ≤ s.lh.length ∨ sb.nlog - 1 ≤ s.lh.length then throw .tooBig
  else if s.outstanding < 1 then throw .outsideTrans
  else set { s with lh := absorb s.lh b }

/-- Change a block's bytes, then `log_write` it. -/
def store (b : Nat) (v : Block) : FsM Unit := do
  modify fun s => { s with disk := update s.disk b v }
  logWrite sb b

/-! ## Blocks -/

def bzero (b : Nat) : FsM Unit := store sb b zero

/-- The outer loop of `balloc` from map block `k` on, `n` map blocks left. -/
def ballocFrom : Nat → Nat → FsM Nat
  | 0, _ => pure 0
  | n + 1, k => do
    let s ← get
    let bp := s.disk (bblock sb (k * bpb))
    match firstFrom (fun bi => !bitAt bp bi) 0 (min bpb (sb.size - k * bpb)) with
    | some bi => do
      store sb (bblock sb (k * bpb)) (setBit bp bi)
      bzero sb (k * bpb + bi)
      pure (k * bpb + bi)
    | none => ballocFrom n (k + 1)

/-- `for(b = 0; b < sb.size; b += BPB)`; 0 when there is no free block. -/
def balloc : FsM Nat := ballocFrom sb ((sb.size + bpb - 1) / bpb) 0

def bfree (b : Nat) : FsM Unit := do
  let s ← get
  let bp := s.disk (bblock sb b)
  if !bitAt bp (b % bpb) then throw .freeingFreeBlock
  else store sb (bblock sb b) (clearBit bp (b % bpb))

/-! ## Inodes -/

def iget (i : Nat) : FsM Unit := do
  let s ← get
  if 0 < (s.itab i).ref then set (s.setInode i { s.itab i with ref := (s.itab i).ref + 1 })
  else if ninode ≤ s.nlive then throw .igetNoInodes
  else set { s.setInode i { s.itab i with ref := 1, valid := false } with nlive := s.nlive + 1 }

def idup (i : Nat) : FsM Unit := modify fun s => s.setInode i { s.itab i with ref := (s.itab i).ref + 1 }

def iupdate (i : Nat) : FsM Unit := do
  let s ← get
  store sb (iblock sb i) (putDinode (s.disk (iblock sb i)) (i % ipb) (s.itab i).din)

/-- The first inode from `i` on, of `n`, that is free on disk. -/
def iallocFrom (type : Nat) : Nat → Nat → FsM (Option Nat)
  | _, 0 => pure none
  | i, n + 1 => do
    let s ← get
    if (dinodeAt sb s.disk i).type = 0 then do
      store sb (iblock sb i) (putDinode (s.disk (iblock sb i)) (i % ipb) { Dinode.zero with type := type })
      iget i
      pure (some i)
    else iallocFrom type (i + 1) n

def ialloc (type : Nat) : FsM (Option Nat) := iallocFrom sb type 1 (sb.ninodes - 1)

def ilock (i : Nat) : FsM Unit := do
  let s ← get
  if (s.itab i).ref < 1 then throw .ilock
  else if (s.itab i).locked then throw .deadlock
  else if (s.itab i).valid then set (s.setInode i { s.itab i with locked := true })
  else do
    let din := dinodeAt sb s.disk i
    set (s.setInode i { s.itab i with locked := true, valid := true, din := din })
    if din.type = 0 then throw .ilockNoType else pure ()

def iunlock (i : Nat) : FsM Unit := do
  let s ← get
  if !(s.itab i).locked ∨ (s.itab i).ref < 1 then throw .iunlock
  else set (s.setInode i { s.itab i with locked := false })

/-! ## Contents -/

def bmap (i bn : Nat) : FsM Nat := do
  let s ← get
  let ip := (s.itab i).din
  if h : bn < ndirect then do
    if ip.addrs (directIx bn h) = 0 then do
      let addr ← balloc sb
      if addr = 0 then pure 0
      else do
        modify fun s => s.setDin i ((s.itab i).din.setAddr (directIx bn h) addr)
        pure addr
    else pure (ip.addrs (directIx bn h))
  else if bn < maxfile then do
    let ind ← (if ip.indirect = 0 then do
        let addr ← balloc sb
        if addr = 0 then pure 0
        else do
          modify fun s => s.setDin i ((s.itab i).din.setAddr 12 addr)
          pure addr
      else pure ip.indirect)
    if ind = 0 then pure 0
    else do
      let s ← get
      if slot (s.disk ind) bn = 0 then do
        let addr ← balloc sb
        if addr = 0 then pure 0
        else do
          let s ← get
          store sb ind (putSlot (s.disk ind) bn addr)
          pure addr
      else pure (slot (s.disk ind) bn)
  else throw .bmapOutOfRange

/-- The first loop of `itrunc`, at index `k`. -/
def truncDirect (i k : Nat) : FsM Unit := do
  let s ← get
  if h : k < ndirect then
    if (s.itab i).din.addrs (directIx k h) = 0 then pure ()
    else do
      bfree sb ((s.itab i).din.addrs (directIx k h))
      modify fun s => s.setDin i ((s.itab i).din.setAddr (directIx k h) 0)
  else pure ()

/-- The second loop, over the indirect block `a`. -/
def truncSlot (a : Block) (j : Nat) : FsM Unit :=
  if slot a (ndirect + j) = 0 then pure () else bfree sb (slot a (ndirect + j))

def itrunc (i : Nat) : FsM Unit := do
  forTo (truncDirect sb i) ndirect
  let s ← get
  let ind := (s.itab i).din.indirect
  if ind = 0 then pure ()
  else do
    forTo (truncSlot sb (s.disk ind)) nindirect
    bfree sb ind
    modify fun s => s.setDin i ((s.itab i).din.setAddr 12 0)
  modify fun s => s.setDin i { (s.itab i).din with size := 0 }
  iupdate sb i

/-- `ip->ref--`, which empties the slot at 0. -/
def dropRef (i : Nat) : FsM Unit := modify fun s =>
  { s.setInode i { s.itab i with ref := (s.itab i).ref - 1 } with
    nlive := if (s.itab i).ref = 1 then s.nlive - 1 else s.nlive }

def iput (i : Nat) : FsM Unit := do
  let s ← get
  if (s.itab i).ref = 1 ∧ (s.itab i).valid ∧ (s.itab i).din.nlink = 0 then do
    if (s.itab i).locked then throw .deadlock
    else do
      itrunc sb i
      modify fun s => s.setDin i { (s.itab i).din with type := 0 }
      iupdate sb i
      modify fun s => s.setInode i { s.itab i with valid := false }
  else pure ()
  dropRef i

def iunlockput (i : Nat) : FsM Unit := do
  iunlock i
  iput sb i

/-- What `either_copyin` delivers for the piece of `m` bytes at position `p` of a source: the bytes that reached
    the buffer, all `m` of them when it succeeds. -/
structure CopyIn where
  bytes : Nat → Nat → List UInt8
  ok : Nat → Nat → Bool
  le : ∀ p m, (bytes p m).length ≤ m
  eq : ∀ p m, ok p m = true → (bytes p m).length = m

/-- A kernel buffer, of which every byte can be read. -/
def CopyIn.kernel (l : List UInt8) : CopyIn where
  bytes p m := (List.range m).map fun j => l.getD (p + j) 0
  ok _ _ := true
  le _ _ := by simp
  eq _ _ _ := by simp

/-- A destination: does the copy of the `m` bytes at position `p` succeed? -/
abbrev CopyOut := Nat → Nat → Bool

def CopyOut.kernel : CopyOut := fun _ _ => true

/-- The loop of `readi`: the bytes delivered, and `none` for a copy that failed (`tot = -1`). Each iteration
    delivers at least one byte. -/
def readLoop (i n : Nat) (dst : CopyOut) : Nat → Nat → Nat → List UInt8 → FsM (List UInt8 × Bool)
  | 0, _, _, acc => pure (acc, true)
  | fuel + 1, tot, off, acc =>
    if tot < n then do
      let addr ← bmap sb i (off / bsize)
      if addr = 0 then pure (acc, true)
      else do
        let s ← get
        let m := min (n - tot) (bsize - off % bsize)
        if dst tot m then
          readLoop i n dst fuel (tot + m) (off + m)
            (acc ++ (List.range m).map fun j => s.disk addr (off % bsize + j))
        else pure (acc, false)
    else pure (acc, true)

/-- The bytes read, and the value returned: their number, or -1. -/
def readi (i off n : Nat) (dst : CopyOut) : FsM (List UInt8 × Int) := do
  let s ← get
  let size := (s.itab i).din.size
  if size < off ∨ u32 (off + n) < off then pure ([], 0)
  else do
    let n := if size < u32 (off + n) then size - off else n
    let (l, ok) ← readLoop sb i n dst n 0 off []
    pure (l, if ok then l.length else -1)

/-- The loop of `writei`: the final `tot`. -/
def writeLoop (i n : Nat) (src : CopyIn) : Nat → Nat → Nat → FsM Nat
  | 0, tot, _ => pure tot
  | fuel + 1, tot, off =>
    if tot < n then do
      let addr ← bmap sb i (off / bsize)
      if addr = 0 then pure tot
      else do
        let s ← get
        let m := min (n - tot) (bsize - off % bsize)
        if src.ok tot m then do
          store sb addr (putBytes (s.disk addr) (off % bsize) (src.bytes tot m))
          writeLoop i n src fuel (tot + m) (off + m)
        else do
          -- the bytes that were copied before the fault stay in the buffer
          set { s with disk := update s.disk addr (putBytes (s.disk addr) (off % bsize) (src.bytes tot m)) }
          pure tot
    else pure tot

def writei (i off n : Nat) (src : CopyIn) : FsM Int := do
  let s ← get
  if (s.itab i).din.size < off ∨ u32 (off + n) < off then pure (-1)
  else if maxfile * bsize < off + n then pure (-1)
  else do
    let tot ← writeLoop sb i n src n 0 off
    modify fun s => s.setDin i { (s.itab i).din with size := max (s.itab i).din.size (off + tot) }
    iupdate sb i
    pure tot

end

end Xv6.Fs
