/-
  Xv6.Exec.Elf — running a program (kernel/exec.c, kernel/elf.h).

  `exec` works on three things: the file system, memory, and the process that calls it. The fields of
  the two headers are numbers of their own width; where the source passes a 64-bit field as an `int` or
  a `uint`, the low 32 bits are taken. Of `p->name` the string is kept. `vmprint` at the end of `exec`
  prints and is left out.
-/

import Xv6.Fs.Path
import Xv6.Vm.Fork
import Xv6.Vm.Pgaccess

namespace Xv6.Exec

open Xv6.Lib Xv6.Fs Xv6.Vm

/-! ## kernel/param.h, kernel/elf.h -/

def maxarg : Nat := 32

def userstack : Nat := 1

def elfMagic : Nat := 0x464C457F

def elfProgLoad : Nat := 1

/-- `struct elfhdr`, the fields that `exec` reads. -/
structure Elfhdr where
  magic : Nat
  entry : Nat
  phoff : Nat
  phnum : Nat

def elfhdrSize : Nat := 64

def Elfhdr.at (b : Bytes) (o : Nat) : Elfhdr := ⟨le32 b o, le64 b (o + 24), le64 b (o + 32), le16 b (o + 56)⟩

/-- `struct proghdr`, the fields that `exec` reads. -/
structure Proghdr where
  type : Nat
  flags : Nat
  off : Nat
  vaddr : Nat
  filesz : Nat
  memsz : Nat

def proghdrSize : Nat := 56

def Proghdr.at (b : Bytes) (o : Nat) : Proghdr :=
  ⟨le32 b o, le32 b (o + 4), le64 b (o + 8), le64 b (o + 16), le64 b (o + 32), le64 b (o + 40)⟩

def flags2perm (flags : Nat) : Nat := (if flags.testBit 0 then pteXBit else 0) ||| (if flags.testBit 1 then pteWBit else 0)

/-! ## The state -/

/-- What `exec` uses of `struct proc`. -/
structure Proc where
  pagetable : Nat
  sz : Nat
  trapframe : Nat
  name : List UInt8
  cwd : Nat
  ofile : List Nat

structure St where
  fs : Fs.St
  vm : Vm.St
  proc : Proc

inductive Panic
  | fs (e : Fs.Stop)
  | vm (e : Vm.Stop)

abbrev ExecM := StateT St (Except Panic)

def onFs {α : Type} (m : FsM α) : ExecM α := fun s =>
  match m s.fs with
  | .ok (a, fs) => .ok (a, { s with fs := fs })
  | .error e => .error (.fs e)

def onVm {α : Type} (m : VmM α) : ExecM α := fun s =>
  match m s.vm with
  | .ok (a, vm) => .ok (a, { s with vm := vm })
  | .error e => .error (.vm e)

/-- The strings that `sys_exec` passes: the array has room for `MAXARG` pointers and the last is 0, and
each string is in a page of its own. -/
structure Argv where
  strs : List (List UInt8)
  few : strs.length < maxarg
  short : ∀ a ∈ strs, a.length < pgsize

/-! ## The file is loaded -/

section

variable (sb : Superblock)

/-- The loop of `loadseg`. -/
def loadsegFrom (pagetable va ip offset sz : Nat) : Nat → Nat → ExecM Bool
  | 0, _ => pure true
  | fuel + 1, i =>
    if i < sz then do
      let pa ← onVm (walkaddr pagetable ((va + i) % 2 ^ 64))
      if pa = 0 then throw (.vm .loadseg)
      else do
        let n := if sz - i < pgsize then sz - i else pgsize
        let (l, r) ← onFs (readi sb ip (u32 (offset + i)) n CopyOut.kernel)
        onVm (modify fun s => { s with mem := putBytes s.mem pa l })
        if r ≠ n then pure false else loadsegFrom pagetable va ip offset sz fuel (u32 (i + pgsize))
    else pure true

/-- `false` for -1. -/
def loadseg (pagetable va ip offset sz : Nat) : ExecM Bool := loadsegFrom sb pagetable va ip offset sz (sz / pgsize + 1) 0

/-- The loop of `exec` over the program headers, with `n` of them to go; `false` for the jump to `bad`. -/
def load (pagetable ip : Nat) : Nat → Nat → Nat → ExecM (Bool × Nat)
  | 0, _, sz => pure (true, sz)
  | n + 1, off, sz => do
    let (l, r) ← onFs (readi sb ip off proghdrSize CopyOut.kernel)
    if r ≠ proghdrSize then pure (false, sz)
    else do
      let ph := Proghdr.at (putBytes zero 0 l) 0
      if ph.type ≠ elfProgLoad then load pagetable ip n (u32 (off + proghdrSize)) sz
      else if ph.memsz < ph.filesz then pure (false, sz)
      else if (ph.vaddr + ph.memsz) % 2 ^ 64 < ph.vaddr then pure (false, sz)
      else if ph.vaddr % pgsize ≠ 0 then pure (false, sz)
      else do
        let sz1 ← onVm (uvmalloc pagetable sz ((ph.vaddr + ph.memsz) % 2 ^ 64) (flags2perm ph.flags))
        if sz1 = 0 then pure (false, sz)
        else do
          let ok ← loadseg sb pagetable ph.vaddr ip (u32 ph.off) (u32 ph.filesz)
          if ok then load pagetable ip n (u32 (off + proghdrSize)) sz1 else pure (false, sz1)

/-- The label `bad`, with the inode still locked. -/
def bad (ip pagetable sz : Nat) : ExecM Int := do
  if pagetable ≠ 0 then onVm (procFreepagetable pagetable sz)
  onFs (iunlockput sb ip)
  onFs endOp
  pure (-1)

end

/-! ## The stack and the arguments -/

def sub64 (a b : Nat) : Nat := (a + 2 ^ 64 - b % 2 ^ 64) % 2 ^ 64

/-- `sp -= n; sp -= sp % 16`. -/
def push (sp n : Nat) : Nat := sub64 sp n - sub64 sp n % 16

/-- The loop that pushes the argument strings: `sp` and the pointers in `ustack`, or `none` for the jump to
`bad`. -/
def pushArgs (pagetable stackbase : Nat) : List (List UInt8) → Nat → List Nat → VmM (Option (Nat × List Nat))
  | [], sp, ustack => pure (some (sp, ustack))
  | a :: rest, sp, ustack =>
    if maxarg ≤ ustack.length then pure none
    else if push sp (a.length + 1) < stackbase then pure none
    else do
      let ok ← copyout pagetable (push sp (a.length + 1)) (a ++ [0])
      if ok then pushArgs pagetable stackbase rest (push sp (a.length + 1)) (ustack ++ [push sp (a.length + 1)])
      else pure none

/-- Strings and pointers are pushed: the final `sp`. -/
def pushAll (pagetable stackbase sp : Nat) (argv : Argv) : VmM (Option Nat) := do
  match ← pushArgs pagetable stackbase argv.strs sp [] with
  | none => pure none
  | some (sp, ustack) =>
    if push sp ((ustack.length + 1) * 8) < stackbase then pure none
    else do
      let ok ← copyout pagetable (push sp ((ustack.length + 1) * 8)) ((ustack ++ [0]).flatMap wordBytes)
      pure (if ok then some (push sp ((ustack.length + 1) * 8)) else none)

/-- The loop that looks for the last element of the path. -/
def lastElem : List UInt8 → List UInt8 → List UInt8
  | last, [] => last
  | last, c :: s => lastElem (if c = slash then s else last) s

/-- The offsets of `epc`, `sp` and `a1` in `struct trapframe`. -/
def trapframeEpc : Nat := 24
def trapframeSp : Nat := 48
def trapframeA1 : Nat := 120

/-- The process gets the new image and the old one is freed. -/
def commit (p : Proc) (path : List UInt8) (entry pagetable sz sp : Nat) : VmM Proc := do
  store (p.trapframe + trapframeA1) sp
  store (p.trapframe + trapframeEpc) entry
  store (p.trapframe + trapframeSp) sp
  procFreepagetable p.pagetable p.sz
  pure { p with name := (lastElem path path).take 15, pagetable := pagetable, sz := sz }

/-- `exec` from the end of the file's transaction on: what it returns, and the process. -/
def enter (p : Proc) (path : List UInt8) (argv : Argv) (entry pagetable sz : Nat) : VmM (Int × Proc) := do
  let sz := pgroundup sz
  let sz1 ← uvmalloc pagetable sz ((sz + (userstack + 1) * pgsize) % 2 ^ 64) pteWBit
  if sz1 = 0 then do
    procFreepagetable pagetable sz
    pure (-1, p)
  else do
    uvmclear pagetable (sub64 sz1 ((userstack + 1) * pgsize))
    match ← pushAll pagetable (sub64 sz1 (userstack * pgsize)) sz1 argv with
    | none => do
      procFreepagetable pagetable sz1
      pure (-1, p)
    | some sp => do
      let p' ← commit p path entry pagetable sz1 sp
      pure (argv.strs.length, p')

/-- `exec` once the program's inode is locked. -/
def execFile (sb : Superblock) (p : Proc) (path : List UInt8) (argv : Argv) (ip : Nat) : ExecM Int := do
  let (l, r) ← onFs (readi sb ip 0 elfhdrSize CopyOut.kernel)
  if r ≠ elfhdrSize then bad sb ip 0 0
  else do
    let elf := Elfhdr.at (putBytes zero 0 l) 0
    if elf.magic ≠ elfMagic then bad sb ip 0 0
    else do
      let pagetable ← onVm (procPagetable p.trapframe)
      if pagetable = 0 then bad sb ip 0 0
      else do
        -- `int off = elf.phoff`
        let (ok, sz) ← load sb pagetable ip elf.phnum (u32 elf.phoff) 0
        if ok then do
          onFs (iunlockput sb ip)
          onFs endOp
          let (r, p) ← onVm (enter p path argv elf.entry pagetable sz)
          modify fun s => { s with proc := p }
          pure r
        else bad sb ip pagetable sz

def exec (sb : Superblock) (path : List UInt8) (argv : Argv) : ExecM Int := do
  onFs beginOp
  let s ← get
  match ← onFs (namei sb s.proc.cwd path) with
  | none => do
    onFs endOp
    pure (-1)
  | some ip => do
    onFs (ilock sb ip)
    execFile sb s.proc path argv ip

end Xv6.Exec
