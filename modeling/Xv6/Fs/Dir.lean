/-
  Xv6.Fs.Dir — directories and path names (kernel/fs.c: `namecmp`, `dirlookup`, `dirlink`,
  `skipelem`, `namex`; kernel/sysfile.c: `isdirempty`, `create`).

  A path is the list of its bytes before the terminating NUL. `skipelem` cuts an element to
  its first `dirsiz` bytes; `namecmp` and the `strncpy` into a directory entry read a name up
  to its NUL or its `dirsiz`-th byte, so a name is the list of those bytes.

  The loops over a directory's entries run once for each 16 bytes of its size, as the loops
  on `off` do: nothing in them changes the size.
-/

import Xv6.Fs.Inode

namespace Xv6.Fs

open Xv6.Lib

def slash : UInt8 := 47
def dotName : List UInt8 := [46]
def dotdotName : List UInt8 := [46, 46]

/-- `strncmp(p, q, n) == 0`, reading a NUL after each list. -/
def strncmpEq : Nat → List UInt8 → List UInt8 → Bool
  | 0, _, _ => true
  | n + 1, p, q =>
    if p.headD 0 ≠ 0 ∧ p.headD 0 = q.headD 0 then strncmpEq n p.tail q.tail else p.headD 0 == q.headD 0

def namecmp (s t : List UInt8) : Bool := strncmpEq dirsiz s t

/-- `struct dirent`. -/
structure Dirent where
  inum : Nat
  name : List UInt8

/-- The entry in 16 bytes read. -/
def Dirent.ofBytes (l : List UInt8) : Dirent where
  inum := (l.getD 0 0).toNat + 256 * (l.getD 1 0).toNat
  name := (l.drop 2).take dirsiz

/-- `de.inum = inum; strncpy(de.name, name, DIRSIZ)`. -/
def Dirent.toBytes (inum : Nat) (name : List UInt8) : List UInt8 :=
  [byteOf inum 0, byteOf inum 1] ++ (name ++ List.replicate dirsiz 0).take dirsiz

section

variable (sb : Superblock)

/-- `readi(dp, 0, &de, off, sizeof(de)) != sizeof(de)` panics. -/
def readDirent (dp off : Nat) (stop : Stop) : FsM Dirent := do
  let (l, r) ← readi sb dp off 16 CopyOut.kernel
  if r ≠ 16 then throw stop else pure (Dirent.ofBytes l)

/-- The loop of `dirlookup` from `off` on, with `n` entries to go: the inode and the entry's offset. -/
def dirlookupFrom (dp : Nat) (name : List UInt8) : Nat → Nat → FsM (Option (Nat × Nat))
  | 0, _ => pure none
  | n + 1, off => do
    let de ← readDirent sb dp off .dirlookupRead
    if de.inum ≠ 0 ∧ namecmp name de.name then do
      iget de.inum
      pure (some (de.inum, off))
    else dirlookupFrom dp name n (off + 16)

/-- The number of entries that `for(off = 0; off < size; off += sizeof(de))` visits. -/
def entries (size : Nat) : Nat := (size + 15) / 16

def dirlookup (dp : Nat) (name : List UInt8) : FsM (Option (Nat × Nat)) := do
  let s ← get
  if (s.itab dp).din.type ≠ tDir then throw .dirlookupNotDir
  else dirlookupFrom sb dp name (entries (s.itab dp).din.size) 0

/-- The loop of `dirlink`: the offset of the first empty entry, or the offset where it ends. -/
def emptyFrom (dp : Nat) : Nat → Nat → FsM Nat
  | 0, off => pure off
  | n + 1, off => do
    let de ← readDirent sb dp off .dirlinkRead
    if de.inum = 0 then pure off else emptyFrom dp n (off + 16)

/-- `true` for the source's 0, `false` for -1. -/
def dirlink (dp : Nat) (name : List UInt8) (inum : Nat) : FsM Bool := do
  match ← dirlookup sb dp name with
  | some (ip, _) => do
    iput sb ip
    pure false
  | none => do
    let s ← get
    let off ← emptyFrom sb dp (entries (s.itab dp).din.size) 0
    let r ← writei sb dp off 16 (CopyIn.kernel (Dirent.toBytes inum name))
    pure (r == 16)

/-- The loop of `isdirempty`. -/
def isdiremptyFrom (dp : Nat) : Nat → Nat → FsM Bool
  | 0, _ => pure true
  | n + 1, off => do
    let de ← readDirent sb dp off .isdiremptyReadi
    if de.inum ≠ 0 then pure false else isdiremptyFrom dp n (off + 16)

def isdirempty (dp : Nat) : FsM Bool := do
  let s ← get
  isdiremptyFrom sb dp (entries (s.itab dp).din.size - 2) 32

/-! ## Paths -/

/-- The next element, cut to `dirsiz` bytes, and the path after it. -/
def skipelem (path : List UInt8) : Option (List UInt8 × List UInt8) :=
  match path.dropWhile (· == slash) with
  | [] => none
  | c :: rest =>
    some (((c :: rest).takeWhile (· != slash)).take dirsiz,
      ((c :: rest).dropWhile (· != slash)).dropWhile (· == slash))

/-- The loop of `namex` at inode `ip`: for `nameiparent` the directory and the last element. Each iteration takes an
    element off the path, so the path's length bounds them. -/
def namexFrom (parent : Bool) : Nat → Nat → List UInt8 → List UInt8 → FsM (Option (Nat × List UInt8))
  | 0, ip, _, name =>
    if parent then do
      iput sb ip
      pure none
    else pure (some (ip, name))
  | fuel + 1, ip, path, name =>
    match skipelem path with
    | none =>
      if parent then do
        iput sb ip
        pure none
      else pure (some (ip, name))
    | some (name, path) => do
      ilock sb ip
      let s ← get
      if (s.itab ip).din.type ≠ tDir then do
        iunlockput sb ip
        pure none
      else if parent ∧ path = [] then do
        iunlock ip
        pure (some (ip, name))
      else do
        match ← dirlookup sb ip name with
        | none => do
          iunlockput sb ip
          pure none
        | some (next, _) => do
          iunlockput sb ip
          namexFrom parent fuel next path name

def namex (cwd : Nat) (path : List UInt8) (parent : Bool) : FsM (Option (Nat × List UInt8)) :=
  if path.head? = some slash then do
    iget rootino
    namexFrom sb parent (path.length + 1) rootino path []
  else do
    idup cwd
    namexFrom sb parent (path.length + 1) cwd path []

def namei (cwd : Nat) (path : List UInt8) : FsM (Option Nat) := do
  let r ← namex sb cwd path false
  pure (r.map Prod.fst)

def nameiparent (cwd : Nat) (path : List UInt8) : FsM (Option (Nat × List UInt8)) := namex sb cwd path true

/-! ## create -/

/-- `ip->nlink = v; iupdate(ip)`. -/
def setNlink (i v : Nat) : FsM Unit := do
  modify fun s => s.setDin i { (s.itab i).din with nlink := v % 65536 }
  iupdate sb i

/-- The `fail:` path of `create`. -/
def createFail (dp ip : Nat) : FsM (Option Nat) := do
  setNlink sb ip 0
  iunlockput sb ip
  iunlockput sb dp
  pure none

/-- `create` once `name` is known not to be in the locked directory `dp`. -/
def createNew (dp : Nat) (name : List UInt8) (type major minor : Nat) : FsM (Option Nat) := do
  match ← ialloc sb type with
  | none => do
    iunlockput sb dp
    pure none
  | some ip => do
    ilock sb ip
    modify fun s => s.setDin ip { (s.itab ip).din with major := major % 65536, minor := minor % 65536, nlink := 1 }
    iupdate sb ip
    let dots ← (if type = tDir then do
        let ok ← dirlink sb ip dotName ip
        if ok then dirlink sb ip dotdotName dp else pure false
      else pure true)
    if !dots then createFail sb dp ip
    else do
      let ok ← dirlink sb dp name ip
      if !ok then createFail sb dp ip
      else do
        if type = tDir then do
          let s ← get
          setNlink sb dp ((s.itab dp).din.nlink + 1)
        else pure ()
        iunlockput sb dp
        pure (some ip)

/-- The inode created or found, locked. -/
def create (cwd : Nat) (path : List UInt8) (type major minor : Nat) : FsM (Option Nat) := do
  match ← nameiparent sb cwd path with
  | none => pure none
  | some (dp, name) => do
    ilock sb dp
    match ← dirlookup sb dp name with
    | some (ip, _) => do
      iunlockput sb dp
      ilock sb ip
      let s ← get
      if type = tFile ∧ ((s.itab ip).din.type = tFile ∨ (s.itab ip).din.type = tDevice) then pure (some ip)
      else do
        iunlockput sb ip
        pure none
    | none => createNew sb dp name type major minor

end

end Xv6.Fs
