/-
  Xv6.Fs.Sysfile — the file-system calls that follow a path (kernel/sysfile.c; kernel/file.c:
  `filealloc`, `fileclose`).

  A call runs to completion before the next one starts. `argstr` has fetched a path
  argument already: `none` is a path that could not be fetched or has no NUL within
  `maxpath` bytes. Pipes are not modelled here, and devices only as what `open` finds. Reads and
  writes of files are in `Xv6.File.Read` and `Xv6.Fs.Offset`, descriptors in `Xv6.Ftable.Calls`.
-/

import Xv6.Fs.Dir

namespace Xv6.Fs

open Xv6.Lib

def nofile : Nat := 16
def nfile : Nat := 100
def ndev : Nat := 10

inductive FdType
  | none | inode | device
  deriving DecidableEq

/-- `struct file`. -/
structure File where
  type : FdType
  ref : Nat
  readable : Bool
  writable : Bool
  ip : Nat
  off : Nat
  major : Nat

structure Proc where
  alive : Bool
  cwd : Nat
  ofile : Nat → Option Nat

structure Sys where
  fs : St
  ftab : Nat → File
  proc : Nat → Proc

abbrev SysM := StateT Sys (Except Stop)

/-- A file-system function, run on the file-system part of the state. -/
def liftFs {α : Type} (m : FsM α) : SysM α := fun s => do
  let (a, f) ← m s.fs
  pure (a, { s with fs := f })

def setProc (p : Nat) (x : Proc) : SysM Unit := modify fun s => { s with proc := update s.proc p x }

/-! ## file.c -/

section

variable (sb : Superblock)

/-- An `int` passed where a `uint` is expected. -/
def intToU32 (n : Int) : Nat := (n % 2 ^ 32).toNat

/-- The bytes one transaction of `filewrite` writes at most. -/
def writeMax : Nat := (maxopblocks - 1 - 1 - 2) / 2 * bsize

/-! ## sysfile.c -/

/-- The `bad:` path of `sys_link`. -/
def linkBad (ip : Nat) : FsM Int := do
  ilock sb ip
  let s ← get
  setNlink sb ip ((s.itab ip).din.nlink + 65535)
  iunlockput sb ip
  endOp
  pure (-1)

def sysLink (cwd : Nat) (old new : List UInt8) : FsM Int := do
  beginOp
  match ← namei sb cwd old with
  | none => do
    endOp
    pure (-1)
  | some ip => do
    ilock sb ip
    let s ← get
    if (s.itab ip).din.type = tDir then do
      iunlockput sb ip
      endOp
      pure (-1)
    else do
      setNlink sb ip ((s.itab ip).din.nlink + 1)
      iunlock ip
      match ← nameiparent sb cwd new with
      | none => linkBad sb ip
      | some (dp, name) => do
        ilock sb dp
        let ok ← dirlink sb dp name ip
        iunlockput sb dp
        if !ok then linkBad sb ip
        else do
          iput sb ip
          endOp
          pure 0

/-- The `bad:` path of `sys_unlink`. -/
def unlinkBad (dp : Nat) : FsM Int := do
  iunlockput sb dp
  endOp
  pure (-1)

/-- A `short` is below 1 when it is 0 or negative. -/
def nlinkBelow1 (n : Nat) : Bool := n = 0 || 32768 ≤ n

/-- The last part of `sys_unlink`: the entry at `off` goes, and the link it was. -/
def unlinkEntry (dp ip off : Nat) : FsM Int := do
  let r ← writei sb dp off 16 (CopyIn.kernel (List.replicate 16 0))
  if r ≠ 16 then throw .unlinkWritei
  else do
    let s ← get
    if (s.itab ip).din.type = tDir then setNlink sb dp ((s.itab dp).din.nlink + 65535) else pure ()
    iunlockput sb dp
    let s ← get
    setNlink sb ip ((s.itab ip).din.nlink + 65535)
    iunlockput sb ip
    endOp
    pure 0

def sysUnlink (cwd : Nat) (path : List UInt8) : FsM Int := do
  beginOp
  match ← nameiparent sb cwd path with
  | none => do
    endOp
    pure (-1)
  | some (dp, name) => do
    ilock sb dp
    if namecmp name dotName ∨ namecmp name dotdotName then unlinkBad sb dp
    else do
      match ← dirlookup sb dp name with
      | none => unlinkBad sb dp
      | some (ip, off) => do
        ilock sb ip
        let s ← get
        if nlinkBelow1 (s.itab ip).din.nlink then throw .unlinkNlink
        else do
          let empty ← (if (s.itab ip).din.type = tDir then isdirempty sb ip else pure true)
          if !empty then do
            iunlockput sb ip
            unlinkBad sb dp
          else unlinkEntry sb dp ip off

/-- `sys_mkdir` and `sys_mknod`: `create`, then let the new inode go. -/
def makeNode (cwd : Nat) (path : Option (List UInt8)) (type major minor : Nat) : FsM Int := do
  beginOp
  match path with
  | none => do
    endOp
    pure (-1)
  | some path => do
    match ← create sb cwd path type major minor with
    | none => do
      endOp
      pure (-1)
    | some ip => do
      iunlockput sb ip
      endOp
      pure 0

def sysMkdir (cwd : Nat) (path : Option (List UInt8)) : FsM Int := makeNode sb cwd path tDir 0 0

def sysMknod (cwd : Nat) (path : Option (List UInt8)) (major minor : Nat) : FsM Int :=
  makeNode sb cwd path tDevice major minor

/-- `sys_chdir` up to `iput(p->cwd)`: the new directory. -/
def chdirInode (cwd : Nat) (path : Option (List UInt8)) : FsM (Option Nat) := do
  beginOp
  match path with
  | none => do
    endOp
    pure none
  | some path => do
    match ← namei sb cwd path with
    | none => do
      endOp
      pure none
    | some ip => do
      ilock sb ip
      let s ← get
      if (s.itab ip).din.type ≠ tDir then do
        iunlockput sb ip
        endOp
        pure none
      else do
        iunlock ip
        iput sb cwd
        endOp
        pure (some ip)

def sysChdir (p : Nat) (path : Option (List UInt8)) : SysM Int := do
  let s ← get
  match ← liftFs (chdirInode sb (s.proc p).cwd path) with
  | none => pure (-1)
  | some ip => do
    setProc p { s.proc p with cwd := ip }
    pure 0

/-- The state when the first process starts: `/` is its current directory. -/
def boot (disk : Disk) : Sys where
  fs := {
    disk := disk
    outstanding := 0
    lh := []
    itab := update (fun _ => ⟨0, false, false, Dinode.zero⟩) rootino ⟨1, false, false, Dinode.zero⟩
    nlive := 1 }
  ftab _ := ⟨.none, 0, false, false, 0, 0, 0⟩
  proc := update (fun _ => ⟨false, 0, fun _ => none⟩) 0 ⟨true, rootino, fun _ => none⟩

end

end Xv6.Fs
