/-
  Xv6.Ftable.Calls — files, descriptors and pipes (kernel/file.c: `filealloc`, `filedup`,
  `fileclose`; kernel/pipe.c: `pipealloc`, `pipeclose`; kernel/sysfile.c: `fdalloc`, `sys_open`,
  `sys_pipe`, `sys_dup`, `sys_close`; the parts of `fork` and `exit` in kernel/proc.c that use
  the file table).

  Any number of processes run the calls together. One action runs a process up to the end of
  its next section under `ftable.lock`, `pi->lock` or the allocator's lock; what it does to its
  own descriptors, to a file that only it has and to a new process is seen by no other and is
  part of such an action. The calls here are in terms of what they do to descriptors, files
  and pipes: `open` comes with what the file system found, `pipe` with the page that `kalloc`
  gives and with whether its `copyout`s succeed. A `fork` that fails does so before it
  duplicates a file.

  A page is a pipe while `pipe` has an entry for it; to use it otherwise is an error of its own
  (`badPipe`). `allocs` and `frees` count how often a page became a pipe and was freed.
-/

import Xv6.Fs.Sysfile
import Xv6.Lib.Reach

namespace Xv6.Ftable

open Xv6.Lib
open Xv6.Fs (nofile nfile)

inductive FdType
  | none
  | pipe
  | inode
  | device
  deriving DecidableEq

/-- `struct file`. -/
structure File where
  type : FdType
  ref : Nat
  writable : Bool
  pipe : Nat
  deriving DecidableEq

structure Pipe where
  readopen : Bool
  writeopen : Bool
  deriving DecidableEq

inductive Panic
  | filedup
  | fileclose
  | badPipe
  deriving DecidableEq

/-- What a process does after a `fileclose`. -/
inductive Next
  /-- More files to close, then the call returns `r`. -/
  | close (fs : List Nat) (r : Int)
  /-- `exit`, at descriptor `fd`. -/
  | exit (fd : Nat)
  deriving DecidableEq

/-- Where a process is. -/
inductive Pc
  | idle
  /-- `pipealloc`, with its first file; `page` and `copyout` belong to the call. -/
  | pipe1 (f0 : Nat) (page : Option Nat) (copyout : Bool)
  | pipe2 (f0 f1 : Nat) (page : Option Nat) (copyout : Bool)
  | next (n : Next)
  /-- About to `pipeclose`. -/
  | pipeclose (pi : Nat) (writable : Bool) (n : Next)
  /-- `fork`, with the new process, at descriptor `i`. -/
  | fork (np i : Nat)
  deriving DecidableEq

inductive Life
  | dead
  /-- Being set up by `fork`. -/
  | setup
  | live
  deriving DecidableEq

structure Proc where
  life : Life
  ofile : Nat → Option Nat
  pc : Pc
  /-- What the last call returned. -/
  ret : Int

structure St where
  file : Nat → File
  pipe : Nat → Option Pipe
  proc : Nat → Proc
  panic : Option Panic
  allocs : Nat → Nat
  frees : Nat → Nat

def St.setFile (s : St) (f : Nat) (x : File) : St := { s with file := update s.file f x }

def St.setProc (s : St) (p : Nat) (x : Proc) : St := { s with proc := update s.proc p x }

def St.goto (s : St) (p : Nat) (pc : Pc) : St := s.setProc p { s.proc p with pc := pc }

/-- Process `p` returns from its call. -/
def St.ret (s : St) (p : Nat) (r : Int) : St := s.setProc p { s.proc p with pc := .idle, ret := r }

/-- Descriptor `fd` of process `p`. -/
def St.setFd (s : St) (p fd : Nat) (o : Option Nat) : St :=
  s.setProc p { s.proc p with ofile := update (s.proc p).ofile fd o }

/-! ## file.c and pipe.c -/

def filealloc (s : St) : Option (Nat × St) :=
  match firstFrom (fun f => (s.file f).ref == 0) 0 nfile with
  | some f => some (f, s.setFile f { s.file f with ref := 1 })
  | none => none

def filedup (s : St) (f : Nat) : St :=
  if (s.file f).ref < 1 then { s with panic := some .filedup }
  else s.setFile f { s.file f with ref := (s.file f).ref + 1 }

/-- `fileclose(f)` by `p`, which goes on at `n`: the part under `ftable.lock`. A file of the file system is given up
    there. -/
def fileclose (s : St) (p f : Nat) (n : Next) : St :=
  if (s.file f).ref < 1 then { s with panic := some .fileclose }
  else if 1 < (s.file f).ref then (s.setFile f { s.file f with ref := (s.file f).ref - 1 }).goto p (.next n)
  else
    (s.setFile f { s.file f with ref := 0, type := .none }).goto p
      (if (s.file f).type = .pipe then .pipeclose (s.file f).pipe (s.file f).writable n else .next n)

def Pipe.close (x : Pipe) (writable : Bool) : Pipe :=
  if writable then { x with writeopen := false } else { x with readopen := false }

/-- `pipeclose(pi, writable)` by `p`. -/
def pipeclose (s : St) (p pi : Nat) (writable : Bool) (n : Next) : St :=
  match s.pipe pi with
  | none => { s with panic := some .badPipe }
  | some x =>
    if (x.close writable).readopen = false ∧ (x.close writable).writeopen = false then
      { s with pipe := update s.pipe pi none, frees := update s.frees pi (s.frees pi + 1) }.goto p (.next n)
    else { s with pipe := update s.pipe pi (some (x.close writable)) }.goto p (.next n)

/-! ## sysfile.c -/

/-- The first free descriptor of `p`. -/
def fdalloc (s : St) (p f : Nat) : Option (Nat × St) :=
  match firstFrom (fun fd => ((s.proc p).ofile fd).isNone) 0 nofile with
  | some fd => some (fd, s.setFd p fd (some f))
  | none => none

/-- The file behind descriptor `fd`. -/
def argfd (s : St) (p fd : Nat) : Option Nat := if fd < nofile then (s.proc p).ofile fd else none

/-- `sys_open`, from `filealloc` on; `target` is what the path led to. -/
def sysOpen (s : St) (p : Nat) (target : Option FdType) (writable : Bool) : St :=
  match target with
  | none => s.ret p (-1)
  | some type =>
    match filealloc s with
    | none => s.ret p (-1)
    | some (f, s1) =>
      match fdalloc s1 p f with
      | none => s1.goto p (.next (.close [f] (-1)))
      | some (fd, s2) => (s2.setFile f { s2.file f with type := type, writable := writable }).ret p fd

/-- `pipealloc`, once it has two files and a page. -/
def pipeEnds (s : St) (pi f0 f1 : Nat) : St :=
  let s1 := { s with pipe := update s.pipe pi (some ⟨true, true⟩), allocs := update s.allocs pi (s.allocs pi + 1) }
  let s2 := s1.setFile f0 { s1.file f0 with type := .pipe, writable := false, pipe := pi }
  s2.setFile f1 { s2.file f1 with type := .pipe, writable := true, pipe := pi }

/-- The rest of `sys_pipe`, once there are two files: the `kalloc`, and what follows it. -/
def pipeRest (s : St) (p f0 f1 : Nat) (page : Option Nat) (copyout : Bool) : Option St :=
  match page with
  | none => some (s.goto p (.next (.close [f0, f1] (-1))))
  | some pi =>
    -- `kalloc` gives out a page that is not in use
    if s.pipe pi = none then
      match fdalloc (pipeEnds s pi f0 f1) p f0 with
      | none => some ((pipeEnds s pi f0 f1).goto p (.next (.close [f0, f1] (-1))))
      | some (fd0, s1) =>
        match fdalloc s1 p f1 with
        | none => some ((s1.setFd p fd0 none).goto p (.next (.close [f0, f1] (-1))))
        | some (fd1, s2) =>
          if copyout then some (s2.ret p 0)
          else some (((s2.setFd p fd0 none).setFd p fd1 none).goto p (.next (.close [f0, f1] (-1))))
    else none

def sysDup (s : St) (p fd : Nat) : St :=
  match argfd s p fd with
  | none => s.ret p (-1)
  | some f =>
    match fdalloc s p f with
    | none => s.ret p (-1)
    | some (fd', s1) => (filedup s1 f).ret p fd'

def sysClose (s : St) (p fd : Nat) : St :=
  match argfd s p fd with
  | none => s.ret p (-1)
  | some f => (s.setFd p fd none).goto p (.next (.close [f] 0))

/-- The next step of process `p` in its call. -/
def advance (s : St) (p : Nat) : Option St :=
  match (s.proc p).pc with
  | .idle => none
  | .pipe1 f0 page copyout =>
    match filealloc s with
    | none => some (s.goto p (.next (.close [f0] (-1))))
    | some (f1, s1) => some (s1.goto p (.pipe2 f0 f1 page copyout))
  | .pipe2 f0 f1 page copyout => pipeRest s p f0 f1 page copyout
  | .next (.close [] r) => some (s.ret p r)
  | .next (.close (f :: fs) r) => some (fileclose s p f (.close fs r))
  | .next (.exit fd) =>
    if fd < nofile then
      match (s.proc p).ofile fd with
      | none => some (s.goto p (.next (.exit (fd + 1))))
      | some f => some (fileclose (s.setFd p fd none) p f (.exit (fd + 1)))
    else some (s.setProc p { s.proc p with life := .dead, pc := .idle })
  | .pipeclose pi writable n => some (pipeclose s p pi writable n)
  | .fork np i =>
    if i < nofile then
      match (s.proc p).ofile i with
      | none => some (s.goto p (.fork np (i + 1)))
      | some f => some (((filedup s f).setFd np i (some f)).goto p (.fork np (i + 1)))
    else some ((s.setProc np { s.proc np with life := .live }).ret p np)

inductive Act
  | open (p : Nat) (target : Option FdType) (writable : Bool)
  | pipe (p : Nat) (page : Option Nat) (copyout : Bool)
  | dup (p fd : Nat)
  | close (p fd : Nat)
  | fork (p np : Nat)
  | exit (p : Nat)
  | step (p : Nat)

/-- Process `p` runs, and is in none of the calls. -/
def St.free (s : St) (p : Nat) : Prop := p < nproc ∧ (s.proc p).life = .live ∧ (s.proc p).pc = .idle

instance (s : St) (p : Nat) : Decidable (s.free p) := inferInstanceAs (Decidable (_ ∧ _))

/-- The file system gives an inode or a device. -/
def Target (t : Option FdType) : Prop := t = none ∨ t = some .inode ∨ t = some .device

instance (t : Option FdType) : Decidable (Target t) := inferInstanceAs (Decidable (_ ∨ _))

def act (s : St) (a : Act) : Option St :=
  if s.panic ≠ none then none
  else match a with
    | .open p target writable => if s.free p ∧ Target target then some (sysOpen s p target writable) else none
    | .pipe p page copyout =>
      if s.free p then
        match filealloc s with
        | none => some (s.ret p (-1))
        | some (f0, s1) => some (s1.goto p (.pipe1 f0 page copyout))
      else none
    | .dup p fd => if s.free p then some (sysDup s p fd) else none
    | .close p fd => if s.free p then some (sysClose s p fd) else none
    | .fork p np =>
      if s.free p ∧ np < nproc ∧ (s.proc np).life = .dead then
        some ((s.setProc np { s.proc np with life := .setup }).goto p (.fork np 0))
      else none
    | .exit p => if s.free p then some (s.goto p (.next (.exit 0))) else none
    | .step p => if p < nproc then advance s p else none

/-- One process, no file. -/
def init : St where
  file _ := ⟨.none, 0, false, 0⟩
  pipe _ := none
  proc p := ⟨if p = 0 then .live else .dead, fun _ => none, .idle, 0⟩
  panic := none
  allocs _ := 0
  frees _ := 0

/-- Every state that the processes reach. -/
abbrev Reached : St → Prop := Reach act (fun _ _ => True) init

/-! ## What a step does -/

inductive Step (s : St) : St → Prop
  | open {p target} (writable) (hp : s.free p) (htarget : Target target) : Step s (sysOpen s p target writable)
  | pipeFull {p} (hp : s.free p) : Step s (s.ret p (-1))
  | pipe {p f0 s1} (page copyout) (hp : s.free p) (hf : filealloc s = some (f0, s1)) :
      Step s (s1.goto p (.pipe1 f0 page copyout))
  | dup {p} (fd) (hp : s.free p) : Step s (sysDup s p fd)
  | close {p} (fd) (hp : s.free p) : Step s (sysClose s p fd)
  | fork {p np} (hp : s.free p) (hnp : np < nproc) (hdead : (s.proc np).life = .dead) :
      Step s ((s.setProc np { s.proc np with life := .setup }).goto p (.fork np 0))
  | exit {p} (hp : s.free p) : Step s (s.goto p (.next (.exit 0)))
  | pipe1Full {p f0 page copyout} (hp : p < nproc) (hpc : (s.proc p).pc = .pipe1 f0 page copyout) :
      Step s (s.goto p (.next (.close [f0] (-1))))
  | pipe1 {p f0 f1 page copyout s1} (hp : p < nproc) (hpc : (s.proc p).pc = .pipe1 f0 page copyout)
      (hf : filealloc s = some (f1, s1)) : Step s (s1.goto p (.pipe2 f0 f1 page copyout))
  | pipe2 {p f0 f1 page copyout t} (hp : p < nproc) (hpc : (s.proc p).pc = .pipe2 f0 f1 page copyout)
      (ht : pipeRest s p f0 f1 page copyout = some t) : Step s t
  | closed {p r} (hp : p < nproc) (hpc : (s.proc p).pc = .next (.close [] r)) : Step s (s.ret p r)
  | fileclose {p f fs r} (hp : p < nproc) (hpc : (s.proc p).pc = .next (.close (f :: fs) r)) :
      Step s (fileclose s p f (.close fs r))
  | exitFd {p fd} (hp : p < nproc) (hpc : (s.proc p).pc = .next (.exit fd)) (hfd : fd < nofile)
      (hnone : (s.proc p).ofile fd = none) : Step s (s.goto p (.next (.exit (fd + 1))))
  | exitClose {p fd f} (hp : p < nproc) (hpc : (s.proc p).pc = .next (.exit fd)) (hfd : fd < nofile)
      (hf : (s.proc p).ofile fd = some f) : Step s (fileclose (s.setFd p fd none) p f (.exit (fd + 1)))
  | exitEnd {p fd} (hp : p < nproc) (hpc : (s.proc p).pc = .next (.exit fd)) (hfd : nofile ≤ fd) :
      Step s (s.setProc p { s.proc p with life := .dead, pc := .idle })
  | pipeclose {p pi w n} (hp : p < nproc) (hpc : (s.proc p).pc = .pipeclose pi w n) : Step s (pipeclose s p pi w n)
  | forkFd {p np i} (hp : p < nproc) (hpc : (s.proc p).pc = .fork np i) (hi : i < nofile)
      (hnone : (s.proc p).ofile i = none) : Step s (s.goto p (.fork np (i + 1)))
  | forkDup {p np i f} (hp : p < nproc) (hpc : (s.proc p).pc = .fork np i) (hi : i < nofile)
      (hf : (s.proc p).ofile i = some f) : Step s (((filedup s f).setFd np i (some f)).goto p (.fork np (i + 1)))
  | forkEnd {p np i} (hp : p < nproc) (hpc : (s.proc p).pc = .fork np i) :
      Step s ((s.setProc np { s.proc np with life := .live }).ret p np)

variable {s t : St} {p : Nat}

theorem step_of_advance (hp : p < nproc) (h : advance s p = some t) : Step s t := by
  unfold advance at h
  split at h
  · cases h
  · rename_i hpc
    split at h
    · cases h
      exact .pipe1Full hp hpc
    · cases h
      exact .pipe1 hp hpc ‹_›
  · rename_i hpc
    exact .pipe2 hp hpc h
  · rename_i hpc
    cases h
    exact .closed hp hpc
  · rename_i hpc
    cases h
    exact .fileclose hp hpc
  · rename_i hpc
    split at h
    · split at h
      · cases h
        exact .exitFd hp hpc ‹_› ‹_›
      · cases h
        exact .exitClose hp hpc ‹_› ‹_›
    · cases h
      exact .exitEnd hp hpc (by omega)
  · rename_i hpc
    cases h
    exact .pipeclose hp hpc
  · rename_i hpc
    split at h
    · split at h
      · cases h
        exact .forkFd hp hpc ‹_› ‹_›
      · cases h
        exact .forkDup hp hpc ‹_› ‹_›
    · cases h
      exact .forkEnd hp hpc

theorem step_of_act {a : Act} (h : act s a = some t) : Step s t := by
  unfold act at h
  split at h
  · cases h
  · cases a with
    | «open» p target writable =>
      obtain ⟨hg, rfl⟩ := of_guard h
      exact .open writable hg.1 hg.2
    | pipe p page copyout =>
      obtain ⟨hg, h⟩ := Option.ite_none_right_eq_some.mp h
      split at h
      · cases h
        exact .pipeFull hg
      · cases h
        exact .pipe page copyout hg ‹_›
    | dup p fd =>
      obtain ⟨hg, rfl⟩ := of_guard h
      exact .dup fd hg
    | close p fd =>
      obtain ⟨hg, rfl⟩ := of_guard h
      exact .close fd hg
    | fork p np =>
      obtain ⟨hg, rfl⟩ := of_guard h
      exact .fork hg.1 hg.2.1 hg.2.2
    | exit p =>
      obtain ⟨hg, rfl⟩ := of_guard h
      exact .exit hg
    | step p =>
      obtain ⟨hg, h⟩ := Option.ite_none_right_eq_some.mp h
      exact step_of_advance hg h

end Xv6.Ftable
