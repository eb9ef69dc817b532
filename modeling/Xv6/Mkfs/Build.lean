/-
  Xv6.Mkfs.Build — mkfs (mkfs/mkfs.c): the program that writes the initial disk image.

  The state is the image file and the two counters `freeinode` and `freeblock`. A run that
  fails an assertion or a read stops with a `Die`. The image is zeroed before anything else,
  so it has `fssize` sectors throughout: every later `wsect` follows an `rsect` of the same
  sector, or names the super block or the bit map. `xint` and `xshort` put a number in the
  image's byte order, which is the order of `le16` and `le32`.

  An input file is its name on the command line and the pieces in which `read` returns its
  bytes, each of 1 to `bsize` bytes.
-/

import Xv6.Fs.Files
import Xv6.Lib.Wp

namespace Xv6.Mkfs

open Xv6.Lib Xv6.Fs

def fssize : Nat := 2000
def ninodes : Nat := 200
def nbitmap : Nat := fssize / bpb + 1
def ninodeblocks : Nat := ninodes / ipb + 1
def nlog : Nat := logsize
/-- Boot block, super block, log, inode blocks, bit map. -/
def nmeta : Nat := 2 + nlog + ninodeblocks + nbitmap

def sb : Superblock where
  size := fssize
  nblocks := fssize - nmeta
  ninodes := ninodes
  nlog := nlog
  logstart := 2
  inodestart := 2 + nlog
  bmapstart := 2 + nlog + ninodeblocks
  log_ge := by decide
  inode_ge := by decide
  bmap_ge := by decide
  data_ge := by decide
  nblocks_le := by decide
  size_lt := by decide

def fsmagic : Nat := 0x10203040

/-- `memmove(buf, &sb, sizeof(sb))` into a zeroed block. -/
def sbBlock : Block :=
  [fsmagic, sb.size, sb.nblocks, sb.ninodes, sb.nlog, sb.logstart, sb.inodestart, sb.bmapstart].zipIdx.foldl
    (fun b p => put32 b (4 * p.2) p.1) zero

/-- The words of `struct superblock` on a disk (kernel/fs.c: `readsb`), the magic number first. -/
def readsb (d : Disk) : List Nat := (List.range 8).map fun k => le32 (d 1) (4 * k)

inductive Die
  | assertion
  | read
  deriving DecidableEq

structure St where
  img : Disk
  freeinode : Nat
  freeblock : Nat

abbrev M := StateT St (Except Die)

def check (c : Prop) [Decidable c] : M Unit := if c then pure () else throw .assertion

def wsect (sec : Nat) (buf : Block) : M Unit := modify fun s => { s with img := update s.img sec buf }

def rsect (sec : Nat) : M Block := do
  let s ← get
  if sec < fssize then pure (s.img sec) else throw .read

def winode (inum : Nat) (ip : Dinode) : M Unit := do
  let buf ← rsect (iblock sb inum)
  wsect (iblock sb inum) (putDinode buf (inum % ipb) ip)

def rinode (inum : Nat) : M Dinode := do
  let buf ← rsect (iblock sb inum)
  pure (getDinode buf (inum % ipb))

/-- `freeblock++`. -/
def takeBlock : M Nat := do
  let s ← get
  set { s with freeblock := s.freeblock + 1 }
  pure s.freeblock

def ialloc (type : Nat) : M Nat := do
  let s ← get
  set { s with freeinode := s.freeinode + 1 }
  winode s.freeinode { Dinode.zero with type := type, nlink := 1 }
  pure s.freeinode

/-- The bit map with the first `used` blocks taken. -/
def usedMap : Nat → Block
  | 0 => zero
  | n + 1 => setBit (usedMap n) n

theorem bitAt_usedMap (n c : Nat) : bitAt (usedMap n) c = decide (c < n) := by
  induction n with
  | zero => simp [usedMap, bitAt, zero]
  | succ n ih =>
    rw [usedMap, bitAt_setBit, ih]
    by_cases h : c = n <;> simp [h]
    omega

def balloc (used : Nat) : M Unit := do
  check (used < bpb)
  wsect sb.bmapstart (usedMap used)

/-- The inode with its indirect block, taking a block for it when there is none. -/
def withIndirect (din : Dinode) : M Dinode :=
  if din.indirect = 0 then do
    let b ← takeBlock
    pure (din.setAddr 12 b)
  else pure din

/-- The block for file block `fbn`, taking new blocks for it and for the indirect block as needed. -/
def mapBlock (din : Dinode) (fbn : Nat) : M (Dinode × Nat) :=
  if h : fbn < ndirect then do
    if din.addrs (directIx fbn h) = 0 then
      let b ← takeBlock
      pure (din.setAddr (directIx fbn h) b, b)
    else
      pure (din, din.addrs (directIx fbn h))
  else do
    let din ← withIndirect din
    let indirect ← rsect din.indirect
    if slot indirect fbn = 0 then
      let b ← takeBlock
      wsect din.indirect (putSlot indirect fbn b)
      pure (din, b)
    else
      pure (din, slot indirect fbn)

/-- The loop of `iappend` over the bytes still to append; `fuel` counts iterations, of which each
    consumes at least one byte. -/
def appendLoop : Nat → Dinode → Nat → List UInt8 → M (Dinode × Nat)
  | 0, din, off, _ => pure (din, off)
  | fuel + 1, din, off, p =>
    if p = [] then pure (din, off) else do
      let fbn := off / bsize
      check (fbn < maxfile)
      let (din, x) ← mapBlock din fbn
      let n1 := min p.length ((fbn + 1) * bsize - off)
      let buf ← rsect x
      wsect x (putBytes buf (off - fbn * bsize) (p.take n1))
      appendLoop fuel din (off + n1) (p.drop n1)

def iappend (inum : Nat) (p : List UInt8) : M Unit := do
  let din ← rinode inum
  let (din, off) ← appendLoop p.length din din.size p
  winode inum { din with size := off }

/-- A `struct dirent`: the inode number and the name, zero-padded to `dirsiz` bytes. -/
def dirent (inum : Nat) (name : List UInt8) : List UInt8 :=
  [byteOf inum 0, byteOf inum 1] ++ (name ++ List.replicate dirsiz 0).take dirsiz

structure InFile where
  name : List UInt8
  chunks : List (List UInt8)
  chunk_len : ∀ c ∈ chunks, 0 < c.length ∧ c.length ≤ bsize

/-- "user/". -/
def userDir : List UInt8 := [117, 115, 101, 114, 47]

/-- The name after a leading "user/" is removed. -/
def shortname (name : List UInt8) : List UInt8 := if name.take 5 = userDir then name.drop 5 else name

def slash : UInt8 := 47
def underscore : UInt8 := 95
def dot : UInt8 := 46

def stripUnderscore : List UInt8 → List UInt8
  | c :: rest => if c = underscore then rest else c :: rest
  | [] => []

/-- The `while(read(...) > 0)` loop. -/
def appendChunks (inum : Nat) : List (List UInt8) → M Unit
  | [] => pure ()
  | c :: cs => do
    iappend inum c
    appendChunks inum cs

def addFile (rootino : Nat) (f : InFile) : M Unit := do
  check (slash ∉ shortname f.name)
  let short := stripUnderscore (shortname f.name)
  check (short.length ≤ dirsiz)
  let inum ← ialloc tFile
  iappend rootino (dirent inum short)
  appendChunks inum f.chunks

def addFiles (rootino : Nat) : List InFile → M Unit
  | [] => pure ()
  | f :: fs => do
    addFile rootino f
    addFiles rootino fs

/-- The root's size rounded up: `off = ((off/BSIZE) + 1) * BSIZE`. -/
def fixRoot (rootino : Nat) : M Unit := do
  let din ← rinode rootino
  winode rootino { din with size := (din.size / bsize + 1) * bsize }

def main (files : List InFile) : M Unit := do
  wsect 1 sbBlock
  let ino ← ialloc tDir
  check (ino = rootino)
  iappend ino (dirent ino [dot])
  iappend ino (dirent ino [dot, dot])
  addFiles ino files
  fixRoot ino
  let s ← get
  balloc s.freeblock

/-- The image once its sectors are zeroed. -/
def init : St := ⟨fun _ => zero, 1, nmeta⟩

end Xv6.Mkfs
