/-
  Xv6.Sched.Machine — CPUs, kernel threads and spinlocks (kernel/proc.c: `scheduler`, `sched`, `yield`,
  `sleep`, `wakeup`, `kill`, `killed`, `fork`, `reparent`, `exit`, `wait`, `forkret`; kernel/spinlock.c:
  `acquire`, `release`, `push_off`, `pop_off`; kernel/trap.c: `kerneltrap`).

  Every CPU has a scheduler thread and every process a kernel thread; `on c` is the thread that CPU `c` runs,
  that is, the stack it is on. A step of a CPU takes its thread from one lock operation or switch to the
  next. An `acquire` is a step when the lock is free; a CPU that spins makes none. A lock belongs to a CPU,
  not to a thread: it stays held across `swtch`.

  A thread in other kernel code, or in user mode, is at `run` with the locks it holds there. It may call the
  functions above as their comments demand: `yield` without a lock, `sleep` with the one lock that it
  passes, `wakeup` without a `p->lock`. `poll` is the body of the loops that wait for something and give up
  when killed (`piperead`, `pipewrite`, `consoleread`, `sys_sleep`): test `killed`, then `sleep`; `wait`
  does the same. An interrupt may come whenever interrupts are on; its handler is a thread's new top frame,
  which may take locks, call `wakeup`, and call `yield` in the end if there is a process.

  Of `struct proc` there are the fields that decide when a process runs. `allocpid` and the allocator take
  their locks inside other sections and release them again, which is not shown; nor are the file system and
  `wfi`.
-/

import Xv6.Proc.Table

namespace Xv6.Sched

open Xv6.Lib
open Xv6.Proc (PState Chan initproc pidAfter)

inductive Lock
  | proc (p : Nat)
  /-- `wait_lock`. -/
  | wait
  | other (n : Nat)
  deriving DecidableEq

/-- A call of `sleep`. -/
structure Nap where
  chan : Chan
  lk : Lock
  /-- After a test of `killed`. -/
  polled : Bool
  /-- From `wait`, and whether the address it was given can be written. -/
  inWait : Option Bool
  deriving DecidableEq

/-- Where `sched` was called. -/
inductive After
  | yield
  | sleep (z : Nap)
  | exit
  deriving DecidableEq

/-- Where `wakeup` was called. -/
inductive WakeRet
  | run (held : List Lock)
  | reparent (p k : Nat)
  | exit (p : Nat)
  deriving DecidableEq

/-- Where a thread is. -/
inductive Pc
  | run (held : List Lock)
  | schedTop
  | schedAcq (k : Nat)
  | schedTest (k : Nat)
  /-- After `swtch`. -/
  | schedBack (k : Nat)
  | yieldAcq (p : Nat)
  | yieldSet (p : Nat)
  | sleepAcq (p : Nat) (z : Nap)
  | sleepRel (p : Nat) (z : Nap)
  | sleepSet (p : Nat) (z : Nap)
  /-- About to reacquire the lock. -/
  | sleepRe (p : Nat) (z : Nap)
  /-- In `sched`, before `swtch`. -/
  | sched (p : Nat) (κ : After)
  /-- In `sched`, after `swtch`; `intena` is its local variable. -/
  | away (p : Nat) (κ : After) (intena : Bool)
  | forkret (p : Nat)
  | killedAcq (p : Nat) (z : Nap)
  | killedRead (p : Nat) (z : Nap)
  | wakeAcq (k : Nat) (chan : Option Chan) (κ : WakeRet)
  | wakeSet (k : Nat) (chan : Option Chan) (κ : WakeRet)
  | killAcq (k : Nat) (pid : Int)
  | killTest (k : Nat) (pid : Int)
  | forkAcq (p k : Nat) (mem : Bool)
  | forkTest (p k : Nat) (mem : Bool)
  /-- The slot is USED, and its lock still held. -/
  | forkUsed (p k : Nat) (mem : Bool)
  | forkParent (p np : Nat)
  | forkLink (p np : Nat)
  | forkReady (p np : Nat)
  | forkSet (p np : Nat)
  | exitAcq (p : Nat)
  | reparent (p k : Nat)
  | exitLock (p : Nat)
  | exitSet (p : Nat)
  | waitAcq (p : Nat) (copy : Bool)
  | waitScan (p k : Nat) (havekids copy : Bool)
  | waitTest (p k : Nat) (copy : Bool)
  | waitRet
  deriving DecidableEq

/-- A thread, with the frames of interrupt handlers on top of it. -/
structure Thread where
  base : Pc
  irqs : List Pc

def Thread.pc (t : Thread) : Pc := t.irqs.headD t.base

def Thread.goto (t : Thread) (x : Pc) : Thread :=
  match t.irqs with
  | [] => { t with base := x }
  | _ :: rest => { t with irqs := x :: rest }

inductive Tid
  | cpu (c : Nat)
  | proc (p : Nat)
  deriving DecidableEq

/-- `struct proc`. -/
structure Slot where
  state : PState
  chan : Option Chan
  killed : Bool
  pid : Int
  parent : Option Nat

structure St where
  /-- `struct cpu`: the process, `noff` and `intena`. -/
  proc : Nat → Option Nat
  noff : Nat → Nat
  intena : Nat → Bool
  /-- Interrupts are on. -/
  intr : Nat → Bool
  on : Nat → Tid
  thr : Tid → Thread
  slot : Nat → Slot
  lock : Lock → Option Nat
  nextpid : Int

inductive Panic
  | acquire
  | release
  | popOffInterruptible
  | popOff
  | schedLock
  | schedLocks
  | schedRunning
  | schedInterruptible
  | zombieExit
  | initExiting
  deriving DecidableEq

inductive Stop
  /-- Not a step: the lock is taken, or the code is not there. -/
  | blocked
  | panic (e : Panic)
  deriving DecidableEq

/-- The place of the thread on CPU `c`. -/
def St.pc (s : St) (c : Nat) : Pc := (s.thr (s.on c)).pc

def St.goto (s : St) (c : Nat) (x : Pc) : St := { s with thr := update s.thr (s.on c) ((s.thr (s.on c)).goto x) }

def St.set (s : St) (p : Nat) (x : Slot) : St := { s with slot := update s.slot p x }

/-! ## kernel/spinlock.c -/

def pushOff (s : St) (c : Nat) : St :=
  { s with
    intr := update s.intr c false
    intena := update s.intena c (if s.noff c = 0 then s.intr c else s.intena c)
    noff := update s.noff c (s.noff c + 1) }

def popOff (s : St) (c : Nat) : Except Stop St :=
  if s.intr c = true then .error (.panic .popOffInterruptible)
  else if s.noff c < 1 then .error (.panic .popOff)
  else .ok { s with
    noff := update s.noff c (s.noff c - 1)
    intr := update s.intr c (decide (s.noff c - 1 = 0) && s.intena c) }

def acquire (s : St) (c : Nat) (l : Lock) : Except Stop St :=
  if s.lock l = some c then .error (.panic .acquire)
  else if s.lock l ≠ none then .error .blocked
  else .ok { pushOff s c with lock := update s.lock l (some c) }

def release (s : St) (c : Nat) (l : Lock) : Except Stop St :=
  if s.lock l ≠ some c then .error (.panic .release)
  else popOff { s with lock := update s.lock l none } c

/-- `acquire`, and on to `x`. -/
def lockTo (s : St) (c : Nat) (l : Lock) (x : Pc) : Except Stop St := do
  let s ← acquire s c l
  .ok (s.goto c x)

/-- `release`, and on to `x`. -/
def unlockTo (s : St) (c : Nat) (l : Lock) (x : Pc) : Except Stop St := do
  let s ← release s c l
  .ok (s.goto c x)

/-! ## kernel/proc.c -/

def freeproc (x : Slot) : Slot := { x with pid := 0, parent := none, chan := none, killed := false, state := .unused }

/-- Slot `k` in a `wakeup(chan)`. -/
def Slot.wake (x : Slot) (chan : Option Chan) : Slot :=
  if x.state = .sleeping ∧ x.chan = chan then { x with state := .runnable } else x

/-- A slot that `kill` has matched. -/
def Slot.kill (x : Slot) : Slot := { x with killed := true, state := if x.state = .sleeping then .runnable else x.state }

def WakeRet.next : WakeRet → Pc
  | .run held => .run held
  | .reparent p k => .reparent p k
  | .exit p => .exitLock p

/-- Where a loop goes on when it finds itself killed. -/
def Nap.quit (z : Nap) : Pc := if z.inWait.isSome then .waitRet else .run [z.lk]

/-- Where `sleep` returns to: `wait` scans the table again. -/
def Nap.next (z : Nap) (p : Nat) : Pc :=
  match z.inWait with
  | some copy => .waitScan p 0 false copy
  | none => .run [z.lk]

/-- The switch to thread `t`. -/
def swtch (s : St) (c : Nat) (t : Tid) : St := { s with on := update s.on c t }

/-- A slot that `allocproc` has taken, and its thread. -/
def allocated (s : St) (k : Nat) : St :=
  { s.set k { s.slot k with pid := s.nextpid, state := .used } with
    nextpid := pidAfter s.nextpid
    thr := update s.thr (.proc k) ⟨.forkret k, []⟩ }

/-- `sched`, up to the switch. -/
def sched (s : St) (c p : Nat) (κ : After) : Except Stop St :=
  if s.lock (.proc p) ≠ some c then .error (.panic .schedLock)
  else if s.noff c ≠ 1 then .error (.panic .schedLocks)
  else if (s.slot p).state = .running then .error (.panic .schedRunning)
  else if s.intr c = true then .error (.panic .schedInterruptible)
  else .ok (swtch (s.goto c (.away p κ (s.intena c))) c (.cpu c))

/-- `sched` returns. -/
def schedBack (s : St) (c p : Nat) (κ : After) (intena : Bool) : Except Stop St :=
  let s := { s with intena := update s.intena c intena }
  match κ with
  | .yield => unlockTo s c (.proc p) (.run [])
  | .sleep z => unlockTo (s.set p { s.slot p with chan := none }) c (.proc p) (.sleepRe p z)
  | .exit => .error (.panic .zombieExit)

/-- The next step of the thread on CPU `c`. -/
def advance (s : St) (c : Nat) : Except Stop St :=
  match s.pc c with
  | .run _ => .error .blocked
  | .schedTop => .ok ({ s with intr := update s.intr c true }.goto c (.schedAcq 0))
  | .schedAcq k => if k < nproc then lockTo s c (.proc k) (.schedTest k) else .ok (s.goto c .schedTop)
  | .schedTest k =>
    if (s.slot k).state = .runnable then
      .ok (swtch ({ s.set k { s.slot k with state := .running } with proc := update s.proc c (some k) }.goto c (.schedBack k)) c
          (.proc k))
    else unlockTo s c (.proc k) (.schedAcq (k + 1))
  | .schedBack k => unlockTo { s with proc := update s.proc c none } c (.proc k) (.schedAcq (k + 1))
  | .yieldAcq p => lockTo s c (.proc p) (.yieldSet p)
  | .yieldSet p => .ok ((s.set p { s.slot p with state := .runnable }).goto c (.sched p .yield))
  | .sleepAcq p z => lockTo s c (.proc p) (.sleepRel p z)
  | .sleepRel p z => unlockTo s c z.lk (.sleepSet p z)
  | .sleepSet p z => .ok ((s.set p { s.slot p with chan := some z.chan, state := .sleeping }).goto c (.sched p (.sleep z)))
  | .sleepRe p z => lockTo s c z.lk (z.next p)
  | .sched p κ => sched s c p κ
  | .away p κ intena => schedBack s c p κ intena
  | .forkret p => unlockTo s c (.proc p) (.run [])
  | .killedAcq p z => lockTo s c (.proc p) (.killedRead p z)
  | .killedRead p z => unlockTo s c (.proc p) (if (s.slot p).killed then z.quit else .sleepAcq p z)
  | .wakeAcq k chan κ =>
    if k < nproc then
      if s.proc c = some k then .ok (s.goto c (.wakeAcq (k + 1) chan κ)) else lockTo s c (.proc k) (.wakeSet k chan κ)
    else .ok (s.goto c κ.next)
  | .wakeSet k chan κ => unlockTo (s.set k ((s.slot k).wake chan)) c (.proc k) (.wakeAcq (k + 1) chan κ)
  | .killAcq k pid => if k < nproc then lockTo s c (.proc k) (.killTest k pid) else .ok (s.goto c (.run []))
  | .killTest k pid =>
    if (s.slot k).pid = pid then unlockTo (s.set k (s.slot k).kill) c (.proc k) (.run [])
    else unlockTo s c (.proc k) (.killAcq (k + 1) pid)
  | .forkAcq p k mem => if k < nproc then lockTo s c (.proc k) (.forkTest p k mem) else .ok (s.goto c (.run []))
  | .forkTest p k mem =>
    if (s.slot k).state = .unused then .ok ((allocated s k).goto c (.forkUsed p k mem))
    else unlockTo s c (.proc k) (.forkAcq p (k + 1) mem)
  | .forkUsed p k mem =>
    if mem then unlockTo s c (.proc k) (.forkParent p k)
    else unlockTo (s.set k (freeproc (s.slot k))) c (.proc k) (.run [])
  | .forkParent p np => lockTo s c .wait (.forkLink p np)
  | .forkLink p np => unlockTo (s.set np { s.slot np with parent := some p }) c .wait (.forkReady p np)
  | .forkReady p np => lockTo s c (.proc np) (.forkSet p np)
  | .forkSet _ np => unlockTo (s.set np { s.slot np with state := .runnable }) c (.proc np) (.run [])
  | .exitAcq p => lockTo s c .wait (.reparent p 0)
  | .reparent p k =>
    if k < nproc then
      if (s.slot k).parent = some p then
        .ok ((s.set k { s.slot k with parent := some initproc }).goto c
            (.wakeAcq 0 (some (.proc initproc)) (.reparent p (k + 1))))
      else .ok (s.goto c (.reparent p (k + 1)))
    else .ok (s.goto c (.wakeAcq 0 ((s.slot p).parent.map .proc) (.exit p)))
  | .exitLock p => lockTo s c (.proc p) (.exitSet p)
  | .exitSet p => unlockTo (s.set p { s.slot p with state := .zombie }) c .wait (.sched p .exit)
  | .waitAcq p copy => lockTo s c .wait (.waitScan p 0 false copy)
  | .waitScan p k havekids copy =>
    if k < nproc then
      if (s.slot k).parent = some p then lockTo s c (.proc k) (.waitTest p k copy)
        else .ok (s.goto c (.waitScan p (k + 1) havekids copy))
    else if havekids then .ok (s.goto c (.killedAcq p ⟨.proc p, .wait, true, some copy⟩))
    else .ok (s.goto c .waitRet)
  | .waitTest p k copy =>
    if (s.slot k).state = .zombie then
      if copy then unlockTo (s.set k (freeproc (s.slot k))) c (.proc k) .waitRet else unlockTo s c (.proc k) .waitRet
    else unlockTo s c (.proc k) (.waitScan p (k + 1) true copy)
  | .waitRet => unlockTo s c .wait (.run [])

inductive Act
  | step (c : Nat)
  | acquire (c : Nat) (l : Lock)
  | release (c : Nat) (l : Lock)
  | yield (c : Nat)
  | sleep (c : Nat) (chan : Chan) (l : Lock)
  | poll (c : Nat) (chan : Chan) (l : Lock)
  | wakeup (c : Nat) (chan : Chan)
  | kill (c : Nat) (pid : Int)
  | fork (c : Nat) (mem : Bool)
  | exit (c : Nat)
  | wait (c : Nat) (copy : Bool)
  /-- `intr_on` or `intr_off` in other code. -/
  | setIntr (c : Nat) (b : Bool)
  /-- An interrupt, and the return from it. -/
  | intr (c : Nat)
  | iret (c : Nat)

/-- The process of a thread in other code, with no handler on top: the caller of a system call. -/
def St.caller (s : St) (c : Nat) : Option Nat :=
  if (s.thr (s.on c)).irqs = [] then s.proc c else none

def Lock.isProc : Lock → Bool
  | .proc _ => true
  | _ => false

/-- A call by the process on CPU `c`, which is in other code and holds `held`. -/
def call (s : St) (c : Nat) (held : List Lock) (x : Nat → Pc) : Except Stop St :=
  match s.caller c with
  | some p => if s.pc c = .run held then .ok (s.goto c (x p)) else .error .blocked
  | none => .error .blocked

def exec (s : St) : Act → Except Stop St
  | .step c => advance s c
  | .acquire c l =>
    match s.pc c with
    | .run held => if l.isProc ∨ l ∈ held then .error .blocked else lockTo s c l (.run (l :: held))
    | _ => .error .blocked
  | .release c l =>
    match s.pc c with
    | .run held => if l ∈ held then unlockTo s c l (.run (held.erase l)) else .error .blocked
    | _ => .error .blocked
  | .yield c =>
    match s.proc c with
    | some p => if s.pc c = .run [] then .ok (s.goto c (.yieldAcq p)) else .error .blocked
    | none => .error .blocked
  | .sleep c chan l => if l.isProc then .error .blocked else call s c [l] fun p => .sleepAcq p ⟨chan, l, false, none⟩
  | .poll c chan l => if l.isProc then .error .blocked else call s c [l] fun p => .killedAcq p ⟨chan, l, true, none⟩
  | .wakeup c chan =>
    match s.pc c with
    | .run held => .ok (s.goto c (.wakeAcq 0 (some chan) (.run held)))
    | _ => .error .blocked
  | .kill c pid => call s c [] fun _ => .killAcq 0 pid
  | .fork c mem => call s c [] fun p => .forkAcq p 0 mem
  | .exit c => if s.caller c = some initproc then .error (.panic .initExiting) else call s c [] .exitAcq
  | .wait c copy => call s c [] fun p => .waitAcq p copy
  | .setIntr c b =>
    if (s.caller c).isSome ∧ s.pc c = .run [] then .ok { s with intr := update s.intr c b } else .error .blocked
  | .intr c =>
    if s.intr c = true then
      let t := s.thr (s.on c)
      .ok { s with intr := update s.intr c false, thr := update s.thr (s.on c) { t with irqs := .run [] :: t.irqs } }
    else .error .blocked
  | .iret c =>
    let t := s.thr (s.on c)
    match t.irqs with
    | .run [] :: rest => .ok { s with intr := update s.intr c true, thr := update s.thr (s.on c) { t with irqs := rest } }
    | _ => .error .blocked

/-- A step that does not panic. -/
def step (s : St) (a : Act) : Option St := (exec s a).toOption

/-- After `userinit`: every CPU is about to enter its scheduler's loop. -/
def init : St where
  proc := fun _ => none
  noff := fun _ => 0
  intena := fun _ => false
  intr := fun _ => false
  on := .cpu
  thr
    | .cpu _ => ⟨.schedTop, []⟩
    | .proc p => ⟨.forkret p, []⟩
  slot := fun p => if p = initproc then ⟨.runnable, none, false, 1, none⟩ else ⟨.unused, none, false, 0, none⟩
  lock := fun _ => none
  nextpid := 2

end Xv6.Sched
