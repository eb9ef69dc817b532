/-
  Xv6.Proc.Table — the process table (kernel/proc.c: `allocproc`, `freeproc`, `fork`,
  `reparent`, `exit`, `wait`, `sleep`, `wakeup`, `kill`, `scheduler`, `yield`; kernel/trap.c:
  `usertrap`).

  The state is the table, `wait_lock` and `nextpid`. A process in one of the calls is at a
  `Pc`; `step p` runs it to the next point where another process can interleave. What happens
  under one acquisition of a `p->lock` is one action, so a scan of the table takes one action
  a slot. Three such sections reach further: `fork` keeps the new process's lock from
  `allocproc` to its first `release`; `sleep` gives up `wait_lock` inside the sleeper's lock;
  `exit` gives it up inside the lock that the scheduler releases after the last switch.

  What a call depends on outside the table comes with the call: whether the memory for a new
  process can be had, whether `wait` was given an address and the copy to it succeeds.

  Processes also run, sleep and are woken outside these calls (`sleepOther`, `wakeOther`); an
  `exec` changes none of the fields here. `init` is slot 0, and its `exit` panics: there is no
  such step.

  `id`, `blamed`, `born`, `exited` and `reaped` are not in the source. They number the
  processes, since slots are reused, and record what happened to them.
-/

import Xv6.Param
import Xv6.Lib.Update
import Xv6.Lib.Reach

namespace Xv6.Proc

open Xv6.Lib

inductive PState
  | unused
  | used
  | sleeping
  | runnable
  | running
  | zombie
  deriving DecidableEq

/-- The states of a process that runs, now or later. -/
def PState.live : PState → Bool
  | .sleeping | .runnable | .running => true
  | _ => false

/-- What a process sleeps on: a slot of the table (in `wait`), or something else. -/
inductive Chan
  | proc (p : Nat)
  | other (c : Nat)
  deriving DecidableEq

/-- Where a process is. -/
inductive Pc
  /-- In none of the calls; also before a process first runs and after its last switch. -/
  | user
  | forkScan (k : Nat) (mem : Bool)
  | forkParent (np : Nat) (pid : Int)
  | forkReady (np : Nat) (pid : Int)
  /-- `exit`, before it acquires `wait_lock`. -/
  | exitAcq (status : Int)
  | reparent (k : Nat) (status : Int)
  /-- `wakeup(initproc)` at slot `j`, in `reparent` at slot `k`. -/
  | rewake (k j : Nat) (status : Int)
  /-- `wakeup(p->parent)` at slot `j`. -/
  | exitWake (j : Nat) (parent : Option Nat) (status : Int)
  /-- `wait`, about to acquire `wait_lock`: at its start, or in `sleep`. -/
  | waitAcq (copy : Option Bool)
  | waitScan (k : Nat) (havekids : Bool) (copy : Option Bool)
  /-- `wait`, about to `sleep`. -/
  | waitSleep (copy : Option Bool)
  /-- `wait`, about to release `wait_lock` and return. -/
  | waitRet (r : Int)
  | killScan (k : Nat) (pid : Int)
  deriving DecidableEq

/-- Holds `wait_lock`. -/
def Pc.holds : Pc → Bool
  | .reparent .. | .rewake .. | .exitWake .. | .waitScan .. | .waitSleep _ | .waitRet _ => true
  | _ => false

/-- `struct proc`. -/
structure Slot where
  state : PState
  chan : Option Chan
  killed : Bool
  xstate : Int
  pid : Int
  parent : Option Nat
  pc : Pc
  /-- What the last call returned. -/
  ret : Int
  /-- Which process this is. -/
  id : Nat
  /-- It faulted, or `kill` was called with its pid. -/
  blamed : Bool

structure Exit where
  id : Nat
  pid : Int
  status : Int
  deriving DecidableEq

/-- A process returned by a `wait` of the process in slot `parent`, with the status if it was copied out. -/
structure Reap where
  parent : Nat
  child : Exit
  copied : Option Int
  deriving DecidableEq

structure St where
  slot : Nat → Slot
  waitLock : Option Nat
  nextpid : Int
  born : Nat
  exited : List Exit
  reaped : List Reap

/-- `initproc`. -/
def initproc : Nat := 0

def freeproc (x : Slot) : Slot :=
  { x with pid := 0, parent := none, chan := none, killed := false, xstate := 0, state := .unused }

/-- `nextpid + 1` in an `int`. -/
def pidAfter (pid : Int) : Int := Int.bmod (pid + 1) (2 ^ 32)

/-- A slot that `allocproc` has taken: `chan`, `killed`, `xstate` and `parent` stay. -/
def allocated (x : Slot) (pid : Int) (id : Nat) : Slot :=
  { x with pid := pid, state := .used, pc := .user, ret := 0, id := id, blamed := false }

/-- Slot `q` in the `wakeup(chan)` of another process. -/
def Slot.wake (x : Slot) (c : Option Chan) : Slot :=
  if x.state = .sleeping ∧ x.chan = c then { x with state := .runnable } else x

/-- A slot that `kill` has matched. -/
def Slot.kill (x : Slot) : Slot :=
  { x with killed := true, state := if x.state = .sleeping then .runnable else x.state,
           blamed := x.blamed || x.state != .unused }

def Slot.exit (x : Slot) : Exit := ⟨x.id, x.pid, x.xstate⟩

def St.set (s : St) (p : Nat) (x : Slot) : St := { s with slot := update s.slot p x }

/-- Process `p` goes on at `pc`. -/
def St.goto (s : St) (p : Nat) (pc : Pc) : St := s.set p { s.slot p with pc := pc }

/-- Process `p` returns from its call. -/
def St.ret (s : St) (p : Nat) (r : Int) : St := s.set p { s.slot p with pc := .user, ret := r }

/-- `wakeup` by `p`, at slot `j`. -/
def St.wakeup (s : St) (p j : Nat) (c : Option Chan) : St :=
  if j ≠ p then s.set j ((s.slot j).wake c) else s

/-- The next step of process `p` in its call. -/
def advance (s : St) (p : Nat) : Option St :=
  match (s.slot p).pc with
  | .user => none
  | .forkScan k mem =>
    if k < nproc then
      if (s.slot k).state = .unused then
        if mem then
          some ({ s.set k (allocated (s.slot k) s.nextpid s.born) with
            nextpid := pidAfter s.nextpid, born := s.born + 1 }.goto p (.forkParent k s.nextpid))
        else some ({ s.set k (freeproc (s.slot k)) with nextpid := pidAfter s.nextpid }.ret p (-1))
      else some (s.goto p (.forkScan (k + 1) mem))
    else some (s.ret p (-1))
  | .forkParent np pid =>
    if s.waitLock = none then
      some ((s.set np { s.slot np with parent := some p }).goto p (.forkReady np pid))
    else none
  | .forkReady np pid => some ((s.set np { s.slot np with state := .runnable }).ret p pid)
  | .exitAcq status =>
    if s.waitLock = none then some ({ s with waitLock := some p }.goto p (.reparent 0 status)) else none
  | .reparent k status =>
    if k < nproc then
      if (s.slot k).parent = some p then
        some ((s.set k { s.slot k with parent := some initproc }).goto p (.rewake k 0 status))
      else some (s.goto p (.reparent (k + 1) status))
    else some (s.goto p (.exitWake 0 (s.slot p).parent status))
  | .rewake k j status =>
    if j < nproc then some ((s.wakeup p j (some (.proc initproc))).goto p (.rewake k (j + 1) status))
    else some (s.goto p (.reparent (k + 1) status))
  | .exitWake j parent status =>
    if j < nproc then some ((s.wakeup p j (parent.map .proc)).goto p (.exitWake (j + 1) parent status))
    else
      some { s.set p { s.slot p with state := .zombie, xstate := status, pc := .user } with
        waitLock := none, exited := s.exited ++ [⟨(s.slot p).id, (s.slot p).pid, status⟩] }
  | .waitAcq copy =>
    if s.waitLock = none then some ({ s with waitLock := some p }.goto p (.waitScan 0 false copy)) else none
  | .waitScan k havekids copy =>
    if k < nproc then
      if (s.slot k).parent = some p then
        if (s.slot k).state = .zombie then
          if copy = some false then some (s.goto p (.waitRet (-1)))
          else
            some ({ s.set k (freeproc (s.slot k)) with
              reaped := s.reaped ++ [Reap.mk p (s.slot k).exit (copy.map fun _ => (s.slot k).xstate)]
              }.goto p (.waitRet (s.slot k).pid))
        else some (s.goto p (.waitScan (k + 1) true copy))
      else some (s.goto p (.waitScan (k + 1) havekids copy))
    else if havekids = false ∨ (s.slot p).killed = true then some (s.goto p (.waitRet (-1)))
    else some (s.goto p (.waitSleep copy))
  | .waitSleep copy =>
    some { s.set p { s.slot p with state := .sleeping, chan := some (.proc p), pc := .waitAcq copy } with
      waitLock := none }
  | .waitRet r => some ({ s with waitLock := none }.ret p r)
  | .killScan k pid =>
    if k < nproc then
      if (s.slot k).pid = pid then some ((s.set k (s.slot k).kill).ret p 0)
      else some (s.goto p (.killScan (k + 1) pid))
    else some (s.ret p (-1))

inductive Act
  | fork (p : Nat) (mem : Bool)
  | exit (p : Nat) (status : Int)
  | wait (p : Nat) (copy : Option Bool)
  | kill (p : Nat) (pid : Int)
  /-- `usertrap` finds the process killed. -/
  | trap (p : Nat)
  /-- `usertrap` for an exception: `setkilled`, then `exit(-1)`. -/
  | fault (p : Nat)
  | step (p : Nat)
  /-- The scheduler picks `p`, which tidies up if it was in `sleep`. -/
  | sched (p : Nat)
  | yield (p : Nat)
  | sleepOther (p c : Nat)
  | wakeOther (p : Nat)

/-- Process `p` is running. -/
def St.active (s : St) (p : Nat) : Prop := p < nproc ∧ (s.slot p).state = .running

instance (s : St) (p : Nat) : Decidable (s.active p) := inferInstanceAs (Decidable (_ ∧ _))

/-- Process `p` is running and in none of the calls. -/
def St.idle (s : St) (p : Nat) : Prop := s.active p ∧ (s.slot p).pc = .user

instance (s : St) (p : Nat) : Decidable (s.idle p) := inferInstanceAs (Decidable (_ ∧ _))

/-- Outside `fork`, `wait`, `kill` and the locked part of `exit`, a process may sleep. -/
def Pc.maySleep : Pc → Bool
  | .user | .exitAcq _ => true
  | _ => false

def act (s : St) : Act → Option St
  | .fork p mem => if s.idle p then some (s.goto p (.forkScan 0 mem)) else none
  | .exit p status => if s.idle p ∧ p ≠ initproc then some (s.goto p (.exitAcq status)) else none
  | .wait p copy => if s.idle p then some (s.goto p (.waitAcq copy)) else none
  | .kill p pid => if s.idle p then some (s.goto p (.killScan 0 pid)) else none
  | .trap p =>
    if s.idle p ∧ p ≠ initproc ∧ (s.slot p).killed = true then some (s.goto p (.exitAcq (-1))) else none
  | .fault p =>
    if s.idle p ∧ p ≠ initproc then
      some (s.set p { s.slot p with killed := true, blamed := true, pc := .exitAcq (-1) })
    else none
  | .step p => if s.active p then advance s p else none
  | .sched p =>
    if p < nproc ∧ (s.slot p).state = .runnable then
      some (s.set p { s.slot p with state := .running, chan := none })
    else none
  | .yield p =>
    -- a process that holds a spinlock has interrupts off
    if s.active p ∧ (s.slot p).pc.holds = false then some (s.set p { s.slot p with state := .runnable }) else none
  | .sleepOther p c =>
    if s.active p ∧ (s.slot p).pc.maySleep = true then
      some (s.set p { s.slot p with state := .sleeping, chan := some (.other c) })
    else none
  | .wakeOther p =>
    match (s.slot p).chan with
    | some (.other _) =>
      if p < nproc ∧ (s.slot p).state = .sleeping then some (s.set p { s.slot p with state := .runnable }) else none
    | _ => none

/-- A slot that was never used. -/
def blank : Slot := ⟨.unused, none, false, 0, 0, none, .user, 0, 0, false⟩

/-- After `userinit`. -/
def init : St where
  slot := update (fun _ => blank) initproc { blank with state := .runnable, pid := 1 }
  waitLock := none
  nextpid := 2
  born := 1
  exited := []
  reaped := []

/-- Every state that the processes reach by actions that meet `ok`. -/
abbrev Reached (ok : St → Act → Prop) : St → Prop := Reach act ok init

/-! ## Slots after an operation -/

section

variable (s : St) (p q : Nat)

theorem slot_set (x : Slot) : (s.set p x).slot q = if q = p then x else s.slot q := rfl

theorem slot_goto (x : Pc) : (s.goto p x).slot q = if q = p then { s.slot p with pc := x } else s.slot q := rfl

theorem slot_ret (r : Int) :
    (s.ret p r).slot q = if q = p then { s.slot p with pc := .user, ret := r } else s.slot q := rfl

theorem slot_wakeup (j : Nat) (c : Option Chan) :
    (s.wakeup p j c).slot q = if q = j ∧ q ≠ p then (s.slot q).wake c else s.slot q := by
  unfold St.wakeup
  by_cases hj : j = p
  · by_cases hq : q = p <;> simp [hj, hq]
  · by_cases hq : q = j
    · subst hq
      simp [slot_set, hj]
    · simp [slot_set, hj, hq]

@[simp] theorem state_goto (x : Pc) : ((s.goto p x).slot q).state = (s.slot q).state := by
  by_cases h : q = p <;> simp [slot_goto, h]

@[simp] theorem state_ret (r : Int) : ((s.ret p r).slot q).state = (s.slot q).state := by
  by_cases h : q = p <;> simp [slot_ret, h]

@[simp] theorem killed_goto (x : Pc) : ((s.goto p x).slot q).killed = (s.slot q).killed := by
  by_cases h : q = p <;> simp [slot_goto, h]

@[simp] theorem killed_ret (r : Int) : ((s.ret p r).slot q).killed = (s.slot q).killed := by
  by_cases h : q = p <;> simp [slot_ret, h]

@[simp] theorem killed_wakeup (j : Nat) (c : Option Chan) :
    ((s.wakeup p j c).slot q).killed = (s.slot q).killed := by
  rw [slot_wakeup]
  split
  · unfold Slot.wake
    split <;> rfl
  · rfl

variable {s p q}

/-- What every slot has, and the new slot too. -/
theorem forall_set_at {P : Nat → Slot → Prop} {x : Slot} (h : ∀ q, P q (s.slot q)) (hx : P p x) (q : Nat) :
    P q ((s.set p x).slot q) := by
  rw [slot_set]
  split
  · rename_i hq
    rw [hq]
    exact hx
  · exact h q

theorem forall_set {P : Slot → Prop} {x : Slot} (h : ∀ q, P (s.slot q)) (hx : P x) (q : Nat) :
    P ((s.set p x).slot q) :=
  forall_set_at (P := fun _ => P) h hx q

end

/-! ## The actions, with the tests that let them through -/

/-- The places where a call of `p` starts. -/
def Pc.starts (p : Nat) : Pc → Prop
  | .forkScan k _ | .killScan k _ => k = 0
  | .exitAcq _ => p ≠ initproc
  | .waitAcq _ => True
  | _ => False

/-- What happens to a process from outside, or while it is in none of the calls: it sleeps, is woken, is scheduled
    or gives up the processor. -/
structure Quiet (x y : Slot) : Prop where
  same : y = { x with state := y.state, chan := y.chan }
  live : x.state.live = true ∧ y.state.live = true
  run : x.pc.holds = true → x.state = .running → y.state = .running
  sleep : y.state = .sleeping → x.pc.maySleep = true ∧ ∃ c, y.chan = some (.other c)

/-- Steps of `p` that change nothing but where it is. -/
inductive Pass (s : St) (p : Nat) : Pc → Pc → Prop
  | forkScan (k : Nat) (mem : Bool) : (s.slot k).state ≠ .unused → Pass s p (.forkScan k mem) (.forkScan (k + 1) mem)
  | reparent (k : Nat) (status : Int) : k < nproc → (s.slot k).parent ≠ some p →
      Pass s p (.reparent k status) (.reparent (k + 1) status)
  | reparented (k : Nat) (status : Int) : nproc ≤ k →
      Pass s p (.reparent k status) (.exitWake 0 (s.slot p).parent status)
  | rewoken (k j : Nat) (status : Int) : nproc ≤ j → Pass s p (.rewake k j status) (.reparent (k + 1) status)
  /-- The copy of the status fails. -/
  | waitFail (k : Nat) (havekids : Bool) : (s.slot k).parent = some p → (s.slot k).state = .zombie →
      Pass s p (.waitScan k havekids (some false)) (.waitRet (-1))
  | waitScan (k : Nat) (havekids havekids' : Bool) (copy : Option Bool) : k < nproc →
      ((s.slot k).parent = some p → (s.slot k).state ≠ .zombie) →
      Pass s p (.waitScan k havekids copy) (.waitScan (k + 1) havekids' copy)
  | waitNone (k : Nat) (havekids : Bool) (copy : Option Bool) : nproc ≤ k →
      Pass s p (.waitScan k havekids copy) (.waitRet (-1))
  | waitSleep (k : Nat) (havekids : Bool) (copy : Option Bool) : nproc ≤ k →
      Pass s p (.waitScan k havekids copy) (.waitSleep copy)
  | killScan (k : Nat) (pid : Int) : (s.slot k).pid ≠ pid → Pass s p (.killScan k pid) (.killScan (k + 1) pid)

inductive Step (s : St) : Act → St → Prop
  | call (p : Nat) (x : Pc) (a : Act) : s.idle p → x.starts p → (∀ q, a ≠ .step q) → Step s a (s.goto p x)
  | fault (p : Nat) : s.idle p → p ≠ initproc →
      Step s (.fault p) (s.set p { s.slot p with killed := true, blamed := true, pc := .exitAcq (-1) })
  | quiet (p : Nat) (y : Slot) (a : Act) : p < nproc → Quiet (s.slot p) y → (∀ q, a ≠ .step q) → Step s a (s.set p y)
  | pass (p : Nat) (y : Pc) : s.active p → Pass s p (s.slot p).pc y → Step s (.step p) (s.goto p y)
  -- fork
  | alloc (p k : Nat) : s.active p → (s.slot p).pc = .forkScan k true → k < nproc → (s.slot k).state = .unused →
      Step s (.step p) ({ s.set k (allocated (s.slot k) s.nextpid s.born) with
        nextpid := pidAfter s.nextpid, born := s.born + 1 }.goto p (.forkParent k s.nextpid))
  | allocFail (p k : Nat) : s.active p → (s.slot p).pc = .forkScan k false → k < nproc → (s.slot k).state = .unused →
      Step s (.step p) ({ s.set k (freeproc (s.slot k)) with nextpid := pidAfter s.nextpid }.ret p (-1))
  | forkParent (p np : Nat) (pid : Int) : s.active p → (s.slot p).pc = .forkParent np pid → s.waitLock = none →
      Step s (.step p) ((s.set np { s.slot np with parent := some p }).goto p (.forkReady np pid))
  | forkReady (p np : Nat) (pid : Int) : s.active p → (s.slot p).pc = .forkReady np pid →
      Step s (.step p) ((s.set np { s.slot np with state := .runnable }).ret p pid)
  /-- `fork` finds no slot, or `kill` no process. -/
  | missing (p : Nat) : s.active p → (∃ k mem, (s.slot p).pc = .forkScan k mem) ∨ (∃ k pid, (s.slot p).pc = .killScan k pid) →
      Step s (.step p) (s.ret p (-1))
  -- exit
  | exitAcq (p : Nat) (status : Int) : s.active p → (s.slot p).pc = .exitAcq status → s.waitLock = none →
      Step s (.step p) ({ s with waitLock := some p }.goto p (.reparent 0 status))
  | reparent (p k : Nat) (status : Int) : s.active p → (s.slot p).pc = .reparent k status → k < nproc →
      (s.slot k).parent = some p →
      Step s (.step p) ((s.set k { s.slot k with parent := some initproc }).goto p (.rewake k 0 status))
  | rewake (p k j : Nat) (status : Int) : s.active p → (s.slot p).pc = .rewake k j status → j < nproc →
      Step s (.step p) ((s.wakeup p j (some (.proc initproc))).goto p (.rewake k (j + 1) status))
  | exitWake (p j : Nat) (parent : Option Nat) (status : Int) : s.active p → (s.slot p).pc = .exitWake j parent status →
      j < nproc → Step s (.step p) ((s.wakeup p j (parent.map .proc)).goto p (.exitWake (j + 1) parent status))
  | zombie (p j : Nat) (parent : Option Nat) (status : Int) : s.active p → (s.slot p).pc = .exitWake j parent status →
      nproc ≤ j →
      Step s (.step p) { s.set p { s.slot p with state := .zombie, xstate := status, pc := .user } with
        waitLock := none, exited := s.exited ++ [⟨(s.slot p).id, (s.slot p).pid, status⟩] }
  -- wait
  | waitAcq (p : Nat) (copy : Option Bool) : s.active p → (s.slot p).pc = .waitAcq copy → s.waitLock = none →
      Step s (.step p) ({ s with waitLock := some p }.goto p (.waitScan 0 false copy))
  | reap (p k : Nat) (havekids : Bool) (copy : Option Bool) : s.active p → (s.slot p).pc = .waitScan k havekids copy →
      k < nproc → (s.slot k).parent = some p → (s.slot k).state = .zombie → copy ≠ some false →
      Step s (.step p) ({ s.set k (freeproc (s.slot k)) with
        reaped := s.reaped ++ [Reap.mk p (s.slot k).exit (copy.map fun _ => (s.slot k).xstate)]
        }.goto p (.waitRet (s.slot k).pid))
  | waitSleep (p : Nat) (copy : Option Bool) : s.active p → (s.slot p).pc = .waitSleep copy →
      Step s (.step p) { s.set p { s.slot p with state := .sleeping, chan := some (.proc p), pc := .waitAcq copy } with
        waitLock := none }
  | waitRet (p : Nat) (r : Int) : s.active p → (s.slot p).pc = .waitRet r →
      Step s (.step p) ({ s with waitLock := none }.ret p r)
  -- kill
  | killed (p k : Nat) (pid : Int) : s.active p → (s.slot p).pc = .killScan k pid → k < nproc → (s.slot k).pid = pid →
      Step s (.step p) ((s.set k (s.slot k).kill).ret p 0)

theorem step_of_advance {s s' : St} {p : Nat} (hp : s.active p) (h : advance s p = some s') : Step s (.step p) s' := by
  unfold advance at h
  split at h
  · cases h
  · rename_i k mem hpc
    split at h
    · split at h
      · split at h
        · cases h
          exact .alloc p k hp (by simp_all) ‹_› ‹_›
        · cases h
          exact .allocFail p k hp (by simp_all) ‹_› ‹_›
      · cases h
        exact .pass p _ hp (hpc ▸ .forkScan k mem ‹_›)
    · cases h
      exact .missing p hp (Or.inl ⟨k, mem, hpc⟩)
  · rename_i np pid hpc
    split at h <;> cases h
    exact .forkParent p np pid hp hpc ‹_›
  · rename_i np pid hpc
    cases h
    exact .forkReady p np pid hp hpc
  · rename_i status hpc
    split at h <;> cases h
    exact .exitAcq p status hp hpc ‹_›
  · rename_i k status hpc
    split at h
    · split at h <;> cases h
      · exact .reparent p k status hp hpc ‹_› ‹_›
      · exact .pass p _ hp (hpc ▸ .reparent k status ‹_› ‹_›)
    · cases h
      exact .pass p _ hp (hpc ▸ .reparented k status (Nat.le_of_not_lt ‹_›))
  · rename_i k j status hpc
    split at h <;> cases h
    · exact .rewake p k j status hp hpc ‹_›
    · exact .pass p _ hp (hpc ▸ .rewoken k j status (Nat.le_of_not_lt ‹_›))
  · rename_i j parent status hpc
    split at h <;> cases h
    · exact .exitWake p j parent status hp hpc ‹_›
    · exact .zombie p j parent status hp hpc (Nat.le_of_not_lt ‹_›)
  · rename_i copy hpc
    split at h <;> cases h
    exact .waitAcq p copy hp hpc ‹_›
  · rename_i k havekids copy hpc
    split at h
    · split at h
      · split at h
        · split at h
          · rename_i hcopy
            cases h
            subst hcopy
            exact .pass p _ hp (hpc ▸ .waitFail k havekids ‹_› ‹_›)
          · cases h
            exact .reap p k havekids copy hp hpc ‹_› ‹_› ‹_› ‹_›
        · rename_i hz
          cases h
          exact .pass p _ hp (hpc ▸ .waitScan k havekids true copy ‹_› fun _ => hz)
      · rename_i hpar
        cases h
        exact .pass p _ hp (hpc ▸ .waitScan k havekids havekids copy ‹_› fun h => absurd h hpar)
    · split at h <;> cases h
      · exact .pass p _ hp (hpc ▸ .waitNone k havekids copy (Nat.le_of_not_lt ‹_›))
      · exact .pass p _ hp (hpc ▸ .waitSleep k havekids copy (Nat.le_of_not_lt ‹_›))
  · rename_i copy hpc
    cases h
    exact .waitSleep p copy hp hpc
  · rename_i r hpc
    cases h
    exact .waitRet p r hp hpc
  · rename_i k pid hpc
    split at h
    · split at h <;> cases h
      · exact .killed p k pid hp hpc ‹_› ‹_›
      · exact .pass p _ hp (hpc ▸ .killScan k pid ‹_›)
    · cases h
      exact .missing p hp (Or.inr ⟨k, pid, hpc⟩)

theorem step_of_act {s s' : St} {a : Act} (h : act s a = some s') : Step s a s' := by
  cases a with
  | fork p mem | kill p pid =>
    obtain ⟨hi, rfl⟩ := of_guard h
    exact .call p _ _ hi rfl (by simp)
  | exit p status =>
    obtain ⟨⟨hi, hp⟩, rfl⟩ := of_guard h
    exact .call p _ _ hi hp (by simp)
  | wait p copy =>
    obtain ⟨hi, rfl⟩ := of_guard h
    exact .call p _ _ hi trivial (by simp)
  | trap p =>
    obtain ⟨⟨hi, hp, -⟩, rfl⟩ := of_guard h
    exact .call p _ _ hi hp (by simp)
  | fault p =>
    obtain ⟨⟨hi, hp⟩, rfl⟩ := of_guard h
    exact .fault p hi hp
  | step p =>
    simp only [act, Option.ite_none_right_eq_some] at h
    exact step_of_advance h.1 h.2
  | sched p =>
    obtain ⟨⟨hp, hr⟩, rfl⟩ := of_guard h
    exact .quiet p _ _ hp ⟨rfl, ⟨by rw [hr]; rfl, rfl⟩, fun _ _ => rfl, fun h => by cases h⟩ (by simp)
  | yield p =>
    obtain ⟨⟨hp, hh⟩, rfl⟩ := of_guard h
    exact .quiet p _ _ hp.1 ⟨rfl, ⟨by rw [hp.2]; rfl, rfl⟩, fun h => by simp [hh] at h, fun h => by cases h⟩ (by simp)
  | sleepOther p c =>
    obtain ⟨⟨hp, hm⟩, rfl⟩ := of_guard h
    refine .quiet p _ _ hp.1 ⟨rfl, ⟨by rw [hp.2]; rfl, rfl⟩, fun h => ?_, fun _ => ⟨hm, c, rfl⟩⟩ (by simp)
    cases hpc : (s.slot p).pc <;> simp [hpc, Pc.maySleep] at hm <;> simp [hpc, Pc.holds] at h
  | wakeOther p =>
    simp only [act] at h
    split at h
    · obtain ⟨⟨hp, hs⟩, rfl⟩ := of_guard h
      exact .quiet p _ _ hp ⟨rfl, ⟨by rw [hs]; rfl, rfl⟩, fun _ h => by simp [hs] at h, fun h => by cases h⟩ (by simp)
    · cases h

end Xv6.Proc
