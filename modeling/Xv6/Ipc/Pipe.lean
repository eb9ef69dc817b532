/-
  Xv6.Ipc.Pipe — a pipe and the processes that use it (kernel/pipe.c: `pipewrite`,
  `piperead`, `pipeclose`; kernel/proc.c: `sleep`, `wakeup`, `kill`).

  The state is one pipe, its lock, and the process table. A process in the pipe's code is at a
  `Pc`; one action `step p` runs it to the next point where another process can interleave:
  one iteration of a loop, one slot of a `wakeup`, one acquisition of `pi->lock`. What a process
  does while it holds a `p->lock` is one action: a slot's turn in `wakeup`, `killed`, `kill`,
  and the part of `sleep` that gives up `pi->lock` and goes to sleep, since `wakeup` and `kill`
  wait for the sleeper's lock.

  `nread` and `nwrite` are 32-bit counters. A copy from or to user memory can fail: a call
  comes with what `copyin` delivers for each byte, or with which `copyout`s succeed.

  A process inside `pipewrite` or `piperead` holds a reference to that end's file, and
  `pipeclose` runs when the last reference is gone. So an end is closed when no process is in
  its code, once, and it is used only while it is open.

  `accepted`, `taken` and `delivered` record the bytes stored, removed and copied out.
-/

import Xv6.Param
import Xv6.Lib.Monitor

namespace Xv6.Ipc

open Xv6.Lib

def pipesize : Nat := 512

structure Pipe where
  data : Nat → UInt8
  nread : Nat
  nwrite : Nat
  readopen : Bool
  writeopen : Bool

/-- `pi->nread == pi->nwrite`. -/
def Pipe.Empty (pi : Pipe) : Prop := pi.nread = pi.nwrite

/-- `pi->nwrite == pi->nread + PIPESIZE`. -/
def Pipe.Full (pi : Pipe) : Prop := pi.nwrite = (pi.nread + pipesize) % 2 ^ 32

instance (pi : Pipe) : Decidable pi.Empty := inferInstanceAs (Decidable (_ = _))
instance (pi : Pipe) : Decidable pi.Full := inferInstanceAs (Decidable (_ = _))

/-- `pi->data[pi->nwrite++ % PIPESIZE] = ch`. -/
def Pipe.put (pi : Pipe) (ch : UInt8) : Pipe :=
  { pi with data := update pi.data (pi.nwrite % pipesize) ch, nwrite := (pi.nwrite + 1) % 2 ^ 32 }

/-- `pi->data[pi->nread % PIPESIZE]`. -/
def Pipe.head (pi : Pipe) : UInt8 := pi.data (pi.nread % pipesize)

/-- `pi->nread++`. -/
def Pipe.drop (pi : Pipe) : Pipe := { pi with nread := (pi.nread + 1) % 2 ^ 32 }

/-- Is the write end (`true`) or the read end open? -/
def Pipe.isOpen (pi : Pipe) (w : Bool) : Bool := if w then pi.writeopen else pi.readopen

def Pipe.shut (pi : Pipe) (w : Bool) : Pipe :=
  if w then { pi with writeopen := false } else { pi with readopen := false }

/-- What a process sleeps on: `&pi->nread`, `&pi->nwrite`, or something that is not the pipe's. -/
inductive Chan
  | nread
  | nwrite
  | other (c : Nat)
  deriving DecidableEq

inductive Run
  | sleeping
  | runnable
  | running
  deriving DecidableEq

/-- What `pipeclose` of an end wakes. -/
def closeChan (w : Bool) : Chan := if w then .nread else .nwrite

/-- What a process does after a `wakeup`: `sleep(&pi->nwrite, &pi->lock)`, or return. -/
inductive Next
  | wsleep (i : Nat) (n : Int) (src : Nat → Option UInt8)
  | wret (i : Nat)
  | rret (i : Nat) (n : Int)
  | cret (w : Bool)

/-- What that `wakeup` is on. -/
def Next.chan : Next → Chan
  | .wsleep .. | .wret _ => .nread
  | .rret .. => .nwrite
  | .cret w => closeChan w

/-- Where a process is in the pipe's code. -/
inductive Pc
  | out
  /-- `pipewrite`, about to acquire the lock with `i` bytes stored: at its start, or in `sleep`. -/
  | wacq (i : Nat) (n : Int) (src : Nat → Option UInt8)
  | wloop (i : Nat) (n : Int) (src : Nat → Option UInt8)
  | racq (n : Int) (dst : Nat → Bool)
  | rloop (n : Int) (dst : Nat → Bool)
  | rcopy (i : Nat) (n : Int) (dst : Nat → Bool)
  | cacq (w : Bool)
  /-- In `wakeup`, at slot `k`. -/
  | waking (k : Nat) (next : Next)

/-- Holds `pi->lock`. -/
def Pc.holds : Pc → Bool
  | .wloop .. | .rloop .. | .rcopy .. | .waking .. => true
  | _ => false

/-- Inside `pipewrite` (`true`) or `piperead`. -/
def Pc.uses (w : Bool) : Pc → Bool
  | .wacq .. | .wloop .. | .waking _ (.wsleep ..) | .waking _ (.wret _) => w
  | .racq .. | .rloop .. | .rcopy .. | .waking _ (.rret ..) => !w
  | _ => false

/-- Inside `pipeclose` of an end. -/
def Pc.closes (w : Bool) : Pc → Bool
  | .cacq v | .waking _ (.cret v) => v == w
  | _ => false

def Pc.isOut : Pc → Bool
  | .out => true
  | _ => false

variable {x : Pc} {p : Nat}

theorem Pc.eq_out (h : x.isOut = true) : x = .out := by cases x <;> simp_all [Pc.isOut]

structure Proc where
  run : Run
  chan : Option Chan
  killed : Bool
  pc : Pc
  /-- What the last call returned. -/
  ret : Int

structure St where
  pipe : Pipe
  lock : Option Nat
  proc : Nat → Proc
  accepted : List UInt8
  taken : List UInt8
  delivered : List UInt8

def St.setProc (s : St) (p : Nat) (x : Proc) : St := { s with proc := update s.proc p x }

/-- Process `p` goes on at `pc`. -/
def St.goto (s : St) (p : Nat) (pc : Pc) : St := s.setProc p { s.proc p with pc := pc }

def St.acquire (s : St) (p : Nat) (pc : Pc) : St :=
  { s with lock := some p, proc := update s.proc p { s.proc p with chan := none, pc := pc } }

/-- `release(&pi->lock); return r`. -/
def St.leave (s : St) (p : Nat) (r : Int) : St :=
  { s with lock := none, proc := update s.proc p { s.proc p with pc := .out, ret := r } }

/-- `sleep(chan, &pi->lock)`, up to the point where it wants the lock again. -/
def St.sleep (s : St) (p : Nat) (c : Chan) (pc : Pc) : St :=
  { s with lock := none, proc := update s.proc p { s.proc p with run := .sleeping, chan := some c, pc := pc } }

/-- Slot `q`'s turn in a `wakeup(chan)` by `p`. -/
def St.wake (s : St) (p q : Nat) (c : Chan) : St :=
  if q ≠ p ∧ (s.proc q).run = .sleeping ∧ (s.proc q).chan = some c then
    s.setProc q { s.proc q with run := .runnable }
  else s

/-- The next step of process `p` in the pipe's code. -/
def advance (s : St) (p : Nat) : Option St :=
  match (s.proc p).pc with
  | .out => none
  | .wacq i n src => if s.lock = none then some (s.acquire p (.wloop i n src)) else none
  | .wloop i n src =>
    if (i : Int) < n then
      if s.pipe.readopen = false ∨ (s.proc p).killed = true then some (s.leave p (-1))
      else if s.pipe.Full then some (s.goto p (.waking 0 (.wsleep i n src)))
      else match src i with
        | none => some (s.goto p (.waking 0 (.wret i)))
        | some ch =>
          some ({ s with pipe := s.pipe.put ch, accepted := s.accepted ++ [ch] }.goto p (.wloop (i + 1) n src))
    else some (s.goto p (.waking 0 (.wret i)))
  | .racq n dst => if s.lock = none then some (s.acquire p (.rloop n dst)) else none
  | .rloop n dst =>
    if s.pipe.Empty ∧ s.pipe.writeopen = true then
      if (s.proc p).killed = true then some (s.leave p (-1)) else some (s.sleep p .nread (.racq n dst))
    else some (s.goto p (.rcopy 0 n dst))
  | .rcopy i n dst =>
    if (i : Int) < n then
      if s.pipe.Empty then some (s.goto p (.waking 0 (.rret i n)))
      else if dst i = true then
        some ({ s with pipe := s.pipe.drop, taken := s.taken ++ [s.pipe.head],
                       delivered := s.delivered ++ [s.pipe.head] }.goto p (.rcopy (i + 1) n dst))
      else
        some ({ s with pipe := s.pipe.drop, taken := s.taken ++ [s.pipe.head] }.goto p (.waking 0 (.rret i n)))
    else some (s.goto p (.waking 0 (.rret i n)))
  | .cacq w =>
    if s.lock = none then some ({ s with pipe := s.pipe.shut w }.acquire p (.waking 0 (.cret w))) else none
  | .waking k next =>
    if k < nproc then some ((s.wake p k next.chan).goto p (.waking (k + 1) next))
    else match next with
      | .wsleep i n src => some (s.sleep p .nwrite (.wacq i n src))
      | .wret i => some (s.leave p i)
      | .rret i _ => some (s.leave p i)
      | .cret _ => some (s.leave p 0)

inductive Act
  | write (p : Nat) (n : Int) (src : Nat → Option UInt8)
  | read (p : Nat) (n : Int) (dst : Nat → Bool)
  | close (p : Nat) (w : Bool)
  | step (p : Nat)
  /-- The scheduler picks `p`. -/
  | sched (p : Nat)
  | yield (p : Nat)
  | kill (p : Nat)
  /-- `p` sleeps on something else, or is woken from that. -/
  | sleepOther (p c : Nat)
  | wakeOther (p : Nat)
  /-- The slot gets a new process. -/
  | recycle (p : Nat)

/-- Process `p` is running and not in the pipe's code. -/
def St.idle (s : St) (p : Nat) : Prop := p < nproc ∧ (s.proc p).run = .running ∧ (s.proc p).pc.isOut = true

instance (s : St) (p : Nat) : Decidable (s.idle p) := inferInstanceAs (Decidable (_ ∧ _))

/-- Process `p` is running. -/
def St.active (s : St) (p : Nat) : Prop := p < nproc ∧ (s.proc p).run = .running

instance (s : St) (p : Nat) : Decidable (s.active p) := inferInstanceAs (Decidable (_ ∧ _))

def act (s : St) : Act → Option St
  | .write p n src =>
    if s.idle p ∧ s.pipe.writeopen = true ∧ ∀ q < nproc, (s.proc q).pc.closes true = false then
      some (s.goto p (.wacq 0 n src))
    else none
  | .read p n dst =>
    if s.idle p ∧ s.pipe.readopen = true ∧ ∀ q < nproc, (s.proc q).pc.closes false = false then
      some (s.goto p (.racq n dst))
    else none
  | .close p w =>
    if s.idle p ∧ s.pipe.isOpen w = true ∧
        ∀ q < nproc, (s.proc q).pc.uses w = false ∧ (s.proc q).pc.closes w = false then
      some (s.goto p (.cacq w))
    else none
  | .step p => if s.active p then advance s p else none
  | .sched p =>
    if p < nproc ∧ (s.proc p).run = .runnable then some (s.setProc p { s.proc p with run := .running }) else none
  | .yield p =>
    -- a process that holds a spinlock has interrupts off
    if p < nproc ∧ (s.proc p).run = .running ∧ (s.proc p).pc.holds = false then
      some (s.setProc p { s.proc p with run := .runnable })
    else none
  | .kill p =>
    if p < nproc then
      some (s.setProc p { s.proc p with
        killed := true, run := if (s.proc p).run = .sleeping then .runnable else (s.proc p).run })
    else none
  | .sleepOther p c =>
    if s.idle p then some (s.setProc p { s.proc p with run := .sleeping, chan := some (.other c) }) else none
  | .wakeOther p =>
    match (s.proc p).chan with
    | some (.other _) =>
      if p < nproc ∧ (s.proc p).run = .sleeping then some (s.setProc p { s.proc p with run := .runnable }) else none
    | _ => none
  | .recycle p =>
    if p < nproc ∧ (s.proc p).pc.isOut = true then
      some (s.setProc p { run := .runnable, chan := none, killed := false, pc := .out, ret := 0 })
    else none

/-- A new pipe. -/
def init : St where
  pipe := ⟨fun _ => 0, 0, 0, true, true⟩
  lock := none
  proc _ := ⟨.runnable, none, false, .out, 0⟩
  accepted := []
  taken := []
  delivered := []

/-- Every state that the processes reach by actions that meet `ok`. -/
abbrev Reached (ok : St → Act → Prop) : St → Prop := Reach act ok init

/-! ## Who holds the lock -/

/-- Where process `p` is. -/
def St.pc (s : St) (p : Nat) : Pc := (s.proc p).pc

section

variable (s : St) (p k : Nat) (c : Chan) (x : Pc) (r : Int)

theorem pc_setProc (y : Proc) : (s.setProc p y).pc = update s.pc p y.pc := by
  funext q
  by_cases h : q = p <;> simp [St.pc, St.setProc, update, h]

@[simp] theorem pc_goto : (s.goto p x).pc = update s.pc p x := pc_setProc s p _

@[simp] theorem pc_acquire : (s.acquire p x).pc = update s.pc p x := pc_setProc s p _

@[simp] theorem pc_leave : (s.leave p r).pc = update s.pc p .out := pc_setProc s p _

@[simp] theorem pc_sleep : (s.sleep p c x).pc = update s.pc p x := pc_setProc s p _

@[simp] theorem pc_wake : (s.wake p k c).pc = s.pc := by
  unfold St.wake
  split
  · rw [pc_setProc]
    exact update_eq_self _ _
  · rfl

@[simp] theorem wake_lock : (s.wake p k c).lock = s.lock := by unfold St.wake; split <;> rfl

@[simp] theorem wake_pipe : (s.wake p k c).pipe = s.pipe := by unfold St.wake; split <;> rfl

end

/-- Process `q` sleeps on `c`. -/
def St.asleep (s : St) (q : Nat) (c : Chan) : Prop := (s.proc q).run = .sleeping ∧ (s.proc q).chan = some c

instance (s : St) (q : Nat) (c : Chan) : Decidable (s.asleep q c) := inferInstanceAs (Decidable (_ ∧ _))

def Chan.isPipe : Chan → Bool
  | .other _ => false
  | _ => true

/-- What `p` does while it is not in the pipe's code, or what happens to it from outside: it stays where it is, keeps
    running if it holds the lock, and does not begin to sleep on the pipe. -/
structure Quiet (x y : Proc) : Prop where
  pc : y.pc = x.pc
  run : x.pc.holds = true → x.run = .running → y.run = .running
  sleep : ∀ c : Chan, c.isPipe = true → y.run = .sleeping → y.chan = some c → x.run = .sleeping ∧ x.chan = some c

/-- The actions, with the tests that let them through. -/
inductive Step (s : St) : Act → St → Prop
  | write (p : Nat) (n : Int) (src : Nat → Option UInt8) : s.idle p → s.pipe.writeopen = true →
      (∀ q < nproc, (s.pc q).closes true = false) → Step s (.write p n src) (s.goto p (.wacq 0 n src))
  | read (p : Nat) (n : Int) (dst : Nat → Bool) : s.idle p → s.pipe.readopen = true →
      (∀ q < nproc, (s.pc q).closes false = false) → Step s (.read p n dst) (s.goto p (.racq n dst))
  | close (p : Nat) (w : Bool) : s.idle p → s.pipe.isOpen w = true →
      (∀ q < nproc, (s.pc q).uses w = false ∧ (s.pc q).closes w = false) → Step s (.close p w) (s.goto p (.cacq w))
  | quiet (p : Nat) (y : Proc) (a : Act) : p < nproc → Quiet (s.proc p) y → (∀ q, a ≠ .step q) → Step s a (s.setProc p y)
  -- pipewrite
  | wacq (p i : Nat) (n : Int) (src : Nat → Option UInt8) : s.active p → s.pc p = .wacq i n src → s.lock = none →
      Step s (.step p) (s.acquire p (.wloop i n src))
  | wstop (p i : Nat) (n : Int) (src : Nat → Option UInt8) : s.active p → s.pc p = .wloop i n src → (i : Int) < n →
      s.pipe.readopen = false ∨ (s.proc p).killed = true → Step s (.step p) (s.leave p (-1))
  | wfull (p i : Nat) (n : Int) (src : Nat → Option UInt8) : s.active p → s.pc p = .wloop i n src →
      s.pipe.readopen = true → s.pipe.Full → Step s (.step p) (s.goto p (.waking 0 (.wsleep i n src)))
  | wput (p i : Nat) (n : Int) (src : Nat → Option UInt8) (ch : UInt8) : s.active p → s.pc p = .wloop i n src →
      ¬ s.pipe.Full → src i = some ch →
      Step s (.step p)
        ({ s with pipe := s.pipe.put ch, accepted := s.accepted ++ [ch] }.goto p (.wloop (i + 1) n src))
  | wend (p i : Nat) (n : Int) (src : Nat → Option UInt8) : s.active p → s.pc p = .wloop i n src →
      Step s (.step p) (s.goto p (.waking 0 (.wret i)))
  -- piperead
  | racq (p : Nat) (n : Int) (dst : Nat → Bool) : s.active p → s.pc p = .racq n dst → s.lock = none →
      Step s (.step p) (s.acquire p (.rloop n dst))
  | rstop (p : Nat) (n : Int) (dst : Nat → Bool) : s.active p → s.pc p = .rloop n dst →
      Step s (.step p) (s.leave p (-1))
  | rsleep (p : Nat) (n : Int) (dst : Nat → Bool) : s.active p → s.pc p = .rloop n dst → s.pipe.Empty →
      s.pipe.writeopen = true → Step s (.step p) (s.sleep p .nread (.racq n dst))
  | rstart (p : Nat) (n : Int) (dst : Nat → Bool) : s.active p → s.pc p = .rloop n dst →
      ¬ (s.pipe.Empty ∧ s.pipe.writeopen = true) → Step s (.step p) (s.goto p (.rcopy 0 n dst))
  | rtake (p i : Nat) (n : Int) (dst : Nat → Bool) : s.active p → s.pc p = .rcopy i n dst → ¬ s.pipe.Empty →
      dst i = true →
      Step s (.step p)
        ({ s with pipe := s.pipe.drop, taken := s.taken ++ [s.pipe.head],
                  delivered := s.delivered ++ [s.pipe.head] }.goto p (.rcopy (i + 1) n dst))
  | rlose (p i : Nat) (n : Int) (dst : Nat → Bool) : s.active p → s.pc p = .rcopy i n dst → ¬ s.pipe.Empty →
      dst i = false →
      Step s (.step p)
        ({ s with pipe := s.pipe.drop, taken := s.taken ++ [s.pipe.head] }.goto p (.waking 0 (.rret i n)))
  | rend (p i : Nat) (n : Int) (dst : Nat → Bool) : s.active p → s.pc p = .rcopy i n dst →
      s.pipe.Empty ∨ n ≤ i → Step s (.step p) (s.goto p (.waking 0 (.rret i n)))
  -- pipeclose
  | cacq (p : Nat) (w : Bool) : s.active p → s.pc p = .cacq w → s.lock = none →
      Step s (.step p) ({ s with pipe := s.pipe.shut w }.acquire p (.waking 0 (.cret w)))
  -- wakeup and what follows it
  | wake (p k : Nat) (next : Next) : s.active p → s.pc p = .waking k next → k < nproc →
      Step s (.step p) ((s.wake p k next.chan).goto p (.waking (k + 1) next))
  | wsleep (p k i : Nat) (n : Int) (src : Nat → Option UInt8) : s.active p → s.pc p = .waking k (.wsleep i n src) →
      nproc ≤ k → Step s (.step p) (s.sleep p .nwrite (.wacq i n src))
  | ret (p k : Nat) (next : Next) (r : Int) : s.active p → s.pc p = .waking k next → nproc ≤ k →
      (∀ i n src, next ≠ .wsleep i n src) → (∀ i n, next = .rret i n → r = i) → Step s (.step p) (s.leave p r)

variable {s s' : St} {a : Act}

theorem step_of_advance (hp : s.active p) (h : advance s p = some s') : Step s (.step p) s' := by
  unfold advance at h
  split at h
  · cases h
  · rename_i i n src hpc
    split at h <;> cases h
    exact .wacq p i n src hp hpc ‹_›
  · rename_i i n src hpc
    split at h
    · split at h
      · cases h
        exact .wstop p i n src hp hpc ‹_› ‹_›
      · rename_i hstop
        simp only [not_or, Bool.not_eq_false] at hstop
        split at h
        · cases h
          exact .wfull p i n src hp hpc hstop.1 ‹_›
        · split at h <;> cases h
          · exact .wend p i n src hp hpc
          · exact .wput p i n src _ hp hpc ‹_› ‹_›
    · cases h
      exact .wend p i n src hp hpc
  · rename_i n dst hpc
    split at h <;> cases h
    exact .racq p n dst hp hpc ‹_›
  · rename_i n dst hpc
    split at h
    · rename_i hwait
      split at h <;> cases h
      · exact .rstop p n dst hp hpc
      · exact .rsleep p n dst hp hpc hwait.1 hwait.2
    · cases h
      exact .rstart p n dst hp hpc ‹_›
  · rename_i i n dst hpc
    split at h
    · split at h
      · cases h
        exact .rend p i n dst hp hpc (Or.inl ‹_›)
      · split at h <;> cases h
        · exact .rtake p i n dst hp hpc ‹_› ‹_›
        · rename_i hd
          exact .rlose p i n dst hp hpc ‹_› (Bool.not_eq_true _ ▸ hd)
    · cases h
      exact .rend p i n dst hp hpc (Or.inr (Int.not_lt.mp ‹_›))
  · rename_i w hpc
    split at h <;> cases h
    exact .cacq p w hp hpc ‹_›
  · rename_i k next hpc
    split at h
    · cases h
      exact .wake p k next hp hpc ‹_›
    · rename_i hk
      split at h <;> cases h
      · exact .wsleep p k _ _ _ hp hpc (Nat.le_of_not_lt hk)
      · exact .ret p k _ _ hp hpc (Nat.le_of_not_lt hk) (by simp) (by simp)
      · exact .ret p k _ _ hp hpc (Nat.le_of_not_lt hk) (by simp) (by simp)
      · exact .ret p k _ _ hp hpc (Nat.le_of_not_lt hk) (by simp) (by simp)

theorem step_of_act (h : act s a = some s') : Step s a s' := by
  cases a with
  | write p n src =>
    obtain ⟨⟨h1, h2, h3⟩, rfl⟩ := of_guard h
    exact .write p n src h1 h2 h3
  | read p n dst =>
    obtain ⟨⟨h1, h2, h3⟩, rfl⟩ := of_guard h
    exact .read p n dst h1 h2 h3
  | close p w =>
    obtain ⟨⟨h1, h2, h3⟩, rfl⟩ := of_guard h
    exact .close p w h1 h2 h3
  | sched p =>
    obtain ⟨⟨h1, h2⟩, rfl⟩ := of_guard h
    exact .quiet p _ _ h1 ⟨rfl, fun _ _ => rfl, fun _ _ hr => by cases hr⟩ (by simp)
  | yield p =>
    obtain ⟨⟨h1, h2, h3⟩, rfl⟩ := of_guard h
    exact .quiet p _ _ h1 ⟨rfl, fun hh => by simp [h3] at hh, fun _ _ hr => by cases hr⟩ (by simp)
  | kill p =>
    obtain ⟨h1, rfl⟩ := of_guard h
    refine .quiet p _ _ h1 ⟨rfl, fun _ hr => by simp [hr], fun c _ hr hc => ?_⟩ (by simp)
    by_cases hs : (s.proc p).run = .sleeping
    · exact ⟨hs, hc⟩
    · simp only [hs, if_false] at hr
  | sleepOther p c =>
    obtain ⟨⟨h1, h2, h3⟩, rfl⟩ := of_guard h
    refine .quiet p _ _ h1 ⟨rfl, fun hh => ?_, fun d hd _ hc => ?_⟩ (by simp)
    · rw [Pc.eq_out h3] at hh
      cases hh
    · cases hc
      cases hd
  | wakeOther p =>
    simp only [act] at h
    split at h
    · obtain ⟨⟨h1, h2⟩, rfl⟩ := of_guard h
      exact .quiet p _ _ h1 ⟨rfl, fun _ hr => by simp [h2] at hr, fun _ _ hr => by cases hr⟩ (by simp)
    · cases h
  | recycle p =>
    obtain ⟨⟨h1, h2⟩, rfl⟩ := of_guard h
    refine .quiet p _ _ h1 ⟨(Pc.eq_out h2).symm, fun hh => ?_, fun _ _ hr => by cases hr⟩ (by simp)
    rw [Pc.eq_out h2] at hh
    cases hh
  | step p =>
    simp only [act, Option.ite_none_right_eq_some] at h
    exact step_of_advance h.1 h.2

/-! ## Who holds the lock -/

structure Locked (s : St) : Prop where
  holder : ∀ p, (s.pc p).holds = true ↔ s.lock = some p
  running : ∀ p, (s.pc p).holds = true → (s.proc p).run = .running

section

variable {s s' : St} {p : Nat} {x : Pc} (h : Locked s) (hpc : s'.pc = update s.pc p x)
include h hpc

theorem Locked.stay (hx : x.holds = (s.pc p).holds) (hlock : s'.lock = s.lock)
    (hrun : ∀ q, (s.pc q).holds = true → (s.proc q).run = .running → (s'.proc q).run = .running) : Locked s' := by
  have hsame : ∀ q, (s'.pc q).holds = (s.pc q).holds := by
    intro q
    by_cases hq : q = p
    · rw [hpc, hq, update_self, hx]
    · rw [hpc, update_of_ne hq]
  refine ⟨fun q => ?_, fun q hq => ?_⟩
  · rw [hsame, hlock]
    exact h.holder q
  · rw [hsame] at hq
    exact hrun q hq (h.running q hq)

theorem Locked.take (hx : x.holds = true) (hfree : s.lock = none) (hlock : s'.lock = some p)
    (hrun : (s'.proc p).run = .running) : Locked s' := by
  have hh : Holder Pc.holds s'.pc s'.lock := by
    have hu := Holder.update (a := p) h.holder (x := x) fun _ => Or.inr hfree
    rwa [if_pos hx, ← hpc, ← hlock] at hu
  refine ⟨hh, fun q hq => ?_⟩
  obtain rfl := Option.some.inj (hlock.symm.trans ((hh q).mp hq))
  exact hrun

theorem Locked.drop (hx : x.holds = false) (hold : (s.pc p).holds = true) (hlock : s'.lock = none) : Locked s' := by
  have hh : Holder Pc.holds s'.pc s'.lock := by
    have hu := Holder.update (a := p) h.holder (x := x) fun _ => Or.inl hold
    rwa [hx, if_neg Bool.false_ne_true, if_pos hold, ← hpc, ← hlock] at hu
  refine ⟨hh, fun q hq => ?_⟩
  have hq := (hh q).mp hq
  rw [hlock] at hq
  cases hq

end

theorem run_wake (s : St) (p k : Nat) (c : Chan) (q : Nat) :
    ((s.wake p k c).proc q).run = (s.proc q).run ∨ (s.asleep q c ∧ ((s.wake p k c).proc q).run = .runnable) := by
  unfold St.wake
  split
  · rename_i hk
    by_cases hq : q = k
    · subst hq
      exact Or.inr ⟨hk.2, by simp [St.setProc, update]⟩
    · exact Or.inl (by simp [St.setProc, update, hq])
  · exact Or.inl rfl

theorem run_goto (s : St) (p : Nat) (x : Pc) (q : Nat) : ((s.goto p x).proc q).run = (s.proc q).run := by
  by_cases hq : q = p <;> simp [St.goto, St.setProc, update, hq]

theorem Locked.goto (h : Locked s) (hx : x.holds = (s.pc p).holds) : Locked (s.goto p x) :=
  h.stay (pc_goto ..) hx rfl fun q _ hr => by rw [run_goto, hr]

theorem Locked.step (h : Locked s) (hs : Step s a s') : Locked s' := by
  cases hs with
  | write p n src hi | read p n dst hi | close p w hi => exact h.goto (by rw [St.pc, Pc.eq_out hi.2.2]; rfl)
  | quiet p y a hp hq =>
    refine h.stay (pc_setProc ..) (by rw [hq.pc]; rfl) rfl fun q hh hr => ?_
    by_cases hqp : q = p
    · subst hqp
      simpa [St.setProc, update] using hq.run hh hr
    · simpa [St.setProc, update, hqp] using hr
  | wacq p i n src hp hpc h0 | racq p n dst hp hpc h0 | cacq p w hp hpc h0 =>
    exact h.take (pc_acquire ..) rfl h0 rfl (by simp [St.acquire, update, hp.2])
  | wstop p i n src hp hpc | rstop p n dst hp hpc | ret p k next r hp hpc => exact h.drop (pc_leave ..) rfl (by rw [hpc]; rfl) rfl
  | rsleep p n dst hp hpc | wsleep p k i n src hp hpc => exact h.drop (pc_sleep ..) rfl (by rw [hpc]; rfl) rfl
  | wake p k next hp hpc =>
    refine h.stay (by rw [pc_goto, pc_wake]) (by rw [hpc]; rfl) (wake_lock ..) fun q hh hr => ?_
    rw [run_goto]
    rcases run_wake s p k next.chan q with hw | ⟨ha, -⟩
    · rw [hw, hr]
    · rw [ha.1] at hr
      cases hr
  | wfull p i n src hp hpc | wend p i n src hp hpc | rstart p n dst hp hpc | rend p i n dst hp hpc =>
    exact h.goto (by rw [hpc]; rfl)
  | wput p i n src ch hp hpc | rtake p i n dst hp hpc | rlose p i n dst hp hpc =>
    exact Locked.goto ⟨h.holder, h.running⟩ (by show _ = (s.pc p).holds; rw [hpc]; rfl)

theorem locked_init : Locked init := ⟨fun _ => by simp [init, St.pc, Pc.holds], fun _ hh => by simp [init, St.pc, Pc.holds] at hh⟩

end Xv6.Ipc
