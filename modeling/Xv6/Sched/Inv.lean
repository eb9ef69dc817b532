/-
  Xv6.Sched.Inv — what holds in every state of the machine.

  Which locks a CPU holds can be read off the place of its thread (`Pc.locks`), and `noff` counts them: so
  `acquire` never finds its own lock taken, `release` always finds its lock held, and a CPU that holds a lock
  has its interrupts off.

  A process's thread is on at most one CPU. While it is, that CPU's scheduler is at `schedBack` and `c->proc`
  is the process. A process whose state has left RUNNING is still on its CPU only at `sched`, where its
  `p->lock` is held; off a CPU, a process that can run again is inside `sched` or at `forkret`.
-/

import Xv6.Sched.Machine

namespace Xv6.Sched

open Xv6.Lib
open Xv6.Proc (PState Chan initproc pidAfter)

/-! ## The locks of a place -/

@[simp]
def WakeRet.locks : WakeRet → List Lock
  | .run held => held
  | .reparent .. | .exit _ => [.wait]

@[simp]
def Pc.locks : Pc → List Lock
  | .run held => held
  | .schedTop | .schedAcq _ => []
  | .schedTest k | .schedBack k => [.proc k]
  | .yieldAcq _ => []
  | .yieldSet p => [.proc p]
  | .sleepAcq _ z => [z.lk]
  | .sleepRel p z => [.proc p, z.lk]
  | .sleepSet p _ => [.proc p]
  | .sleepRe .. => []
  | .sched p _ | .away p .. | .forkret p => [.proc p]
  | .killedAcq _ z => [z.lk]
  | .killedRead p z => [.proc p, z.lk]
  | .wakeAcq _ _ κ => κ.locks
  | .wakeSet k _ κ => .proc k :: κ.locks
  | .killAcq .. => []
  | .killTest k _ => [.proc k]
  | .forkAcq .. => []
  | .forkTest _ k _ | .forkUsed _ k _ => [.proc k]
  | .forkParent .. => []
  | .forkLink .. => [.wait]
  | .forkReady .. => []
  | .forkSet _ np => [.proc np]
  | .exitAcq _ => []
  | .reparent .. | .exitLock _ => [.wait]
  | .exitSet p => [.proc p, .wait]
  | .waitAcq .. => []
  | .waitScan .. => [.wait]
  | .waitTest _ k _ => [.proc k, .wait]
  | .waitRet => [.wait]

theorem WakeRet.locks_next (κ : WakeRet) : κ.next.locks = κ.locks := by
  cases κ <;> rfl

theorem Thread.goto_pc (t : Thread) (y : Pc) : (t.goto y).pc = y := by
  unfold Thread.goto Thread.pc
  cases t.irqs <;> rfl

/-! ## The locks of the CPUs -/

/-- `L c` are the locks that CPU `c` holds: `lock` agrees with it, `n`, which is `noff`, counts them and the open
    `push_off`s of the CPU, and interrupts are off while it is positive. -/
structure Locks (L : Nat → List Lock) (lock : Lock → Option Nat) (n : Nat → Nat) (intr : Nat → Bool)
    (opens : Nat → Nat := fun _ => 0) : Prop where
  held : ∀ c l, lock l = some c ↔ l ∈ L c
  nodup : ∀ c, (L c).Nodup
  noff : ∀ c, n c = (L c).length + opens c
  quiet : ∀ c, 0 < n c → intr c = false

variable {n : Nat} {b : Bool}

section

variable {L : Nat → List Lock} {lock : Lock → Option Nat} {noff opens : Nat → Nat} {intr : Nat → Bool} {c : Nat}
  {l : Lock} {held : List Lock}

theorem Locks.acquire (h : Locks L lock noff intr opens) (hl : lock l = none) :
    Locks (update L c (l :: L c)) (update lock l (some c)) (update noff c (noff c + 1)) (update intr c false) opens := by
  have hfree : ∀ d, l ∉ L d := by
    intro d hd
    have := (h.held d l).mpr hd
    rw [hl] at this
    cases this
  refine ⟨?_, ?_, ?_, ?_⟩
  · intro d m
    have hd := h.held d m
    have hf := hfree d
    grind [update]
  · intro d
    have hd := h.nodup d
    have hf := hfree c
    grind [update]
  · intro d
    have hd := h.noff d
    grind [update]
  · intro d hd
    have hq := h.quiet d
    grind [update]

theorem Locks.release (h : Locks L lock noff intr opens) (hl : (L c).Perm (l :: held)) (b : Bool) :
    Locks (update L c held) (update lock l none) (update noff c (noff c - 1))
      (update intr c (decide (noff c - 1 = 0) && b)) opens := by
  have hnodup : (l :: held).Nodup := hl.nodup_iff.mp (h.nodup c)
  have hmem : ∀ m, m ∈ L c ↔ m = l ∨ m ∈ held := fun m => by rw [hl.mem_iff, List.mem_cons]
  have hlen : (L c).length = held.length + 1 := by rw [hl.length_eq, List.length_cons]
  -- no other CPU has the lock that is given up
  have hother : ∀ d, d ≠ c → l ∉ L d := by
    intro d hd hm
    have hc := (h.held c l).mpr ((hmem l).mpr (.inl rfl))
    rw [(h.held d l).mpr hm] at hc
    exact hd (Option.some.inj hc)
  refine ⟨?_, ?_, ?_, ?_⟩
  · intro d m
    have hd := h.held d m
    have ho := hother d
    have hm := hmem m
    have hn := (List.nodup_cons.mp hnodup).1
    grind [update]
  · intro d
    have hd := h.nodup d
    have hn := (List.nodup_cons.mp hnodup).2
    grind [update]
  · intro d
    have hd := h.noff d
    grind [update]
  · intro d hd
    have hq := h.quiet d
    grind [update]

theorem Locks.congr {L' : Nat → List Lock} (h : Locks L lock noff intr) (he : ∀ d, L' d = L d) :
    Locks L' lock noff intr := funext he ▸ h

/-- Interrupts go on or off where `noff` is 0. -/
theorem Locks.setIntr (h : Locks L lock noff intr opens) (hc : noff c = 0) (b : Bool) :
    Locks L lock noff (update intr c b) opens := by
  refine ⟨h.held, h.nodup, h.noff, fun d hd => ?_⟩
  have hdc : d ≠ c := by
    rintro rfl
    exact absurd hc (Nat.pos_iff_ne_zero.mp hd)
  rw [update_of_ne hdc]
  exact h.quiet d hd

/-- `noff` and the open `push_off`s of one CPU change together. -/
theorem Locks.open_close {o : Nat} (h : Locks L lock noff intr opens) (ho : n + opens c = noff c + o) (hb : 0 < n → b = false) :
    Locks L lock (update noff c n) (update intr c b) (update opens c o) := by
  refine ⟨h.held, h.nodup, fun d => ?_, fun d => ?_⟩
  · have hd := h.noff d
    grind [update]
  · have hd := h.quiet d
    grind [update]

end

/-! ## The places of a thread -/

/-- Locks of other code: none is a `p->lock`. -/
def Plain (held : List Lock) : Prop := ∀ l ∈ held, l.isProc = false

/-- A place in a handler that does not give up the CPU. -/
@[simp]
def Pc.Serves : Pc → Prop
  | .run held | .wakeAcq _ _ (.run held) | .wakeSet _ _ (.run held) => Plain held
  | _ => False

/-- A place in a `yield` of process `p`. -/
@[simp]
def Pc.Yields (p : Nat) : Pc → Prop
  | .yieldAcq q | .yieldSet q | .sched q .yield | .away q .yield _ => q = p
  | _ => False

/-- A place of the scheduler. -/
@[simp]
def Pc.Schedules : Pc → Prop
  | .schedTop | .schedAcq _ | .schedTest _ | .schedBack _ => True
  | _ => False

/-- The lock given to `sleep`: not a `p->lock`, and `wait_lock` in `wait`. -/
def Nap.Wf (z : Nap) : Prop := z.lk.isProc = false ∧ (z.inWait.isSome → z.lk = .wait)

@[simp]
def After.Wf : After → Prop
  | .sleep z => z.Wf
  | .yield | .exit => True

@[simp]
def WakeRet.Of (p : Nat) : WakeRet → Prop
  | .run held => Plain held
  | .reparent q _ | .exit q => q = p

/-- A place of process `p` outside of handlers. -/
@[simp]
def Pc.Of (p : Nat) : Pc → Prop
  | .schedTop | .schedAcq _ | .schedTest _ | .schedBack _ => False
  | .run held => Plain held
  | .yieldAcq q | .yieldSet q | .forkret q => q = p
  | .sleepAcq q z | .sleepRel q z | .sleepSet q z | .sleepRe q z | .killedAcq q z | .killedRead q z => q = p ∧ z.Wf
  | .sched q κ | .away q κ _ => q = p ∧ κ.Wf
  | .wakeAcq _ _ κ | .wakeSet _ _ κ => κ.Of p
  | .killAcq .. | .killTest .. | .waitRet => True
  | .forkAcq q .. | .forkTest q .. | .forkUsed q .. => q = p
  | .forkParent q _ | .forkLink q _ | .forkReady q _ | .forkSet q _ => q = p
  | .exitAcq q | .reparent q _ | .exitLock q | .exitSet q => q = p
  | .waitAcq q _ | .waitScan q .. | .waitTest q .. => q = p

/-- The new process of a `fork` that has allocated it. -/
@[simp]
def Pc.forks : Pc → Option Nat
  | .forkUsed _ np _ | .forkParent _ np | .forkLink _ np | .forkReady _ np | .forkSet _ np => some np
  | _ => none

/-- The frames below the current one. -/
def Thread.under (t : Thread) : List Pc :=
  match t.irqs with
  | [] => []
  | _ :: rest => rest ++ [t.base]

/-- The frames of a thread are at places of theirs; those that were interrupted hold no lock. -/
structure Thread.At (i : Tid) (t : Thread) : Prop where
  base : match i with
    | .cpu _ => t.base.Schedules
    | .proc p => t.base.Of p
  irqs : ∀ x ∈ t.irqs, x.Serves ∨ ∃ p, i = .proc p ∧ x.Yields p
  under : ∀ x ∈ t.under, x.locks = []

/-- What the state is between the end of RUNNING and the switch. -/
@[simp]
def After.Leaves : After → PState → Prop
  | .exit, st => st = .zombie
  | _, st => st = .runnable ∨ st = .sleeping

/-- Where the scheduler may switch to. -/
def Pc.Resumes (p : Nat) (x : Pc) : Prop := x = .forkret p ∨ ∃ κ b, x = .away p κ b ∧ κ ≠ .exit

/-- In `sched` before the switch, or after the last one. -/
@[simp]
def Pc.leaves : Pc → Bool
  | .sched .. | .away _ .exit _ => true
  | _ => false

variable {x : Pc}

theorem Pc.Resumes.leaves {p : Nat} (h : x.Resumes p) : x.leaves = false := by
  rcases h with rfl | ⟨κ, b, rfl, hκ⟩
  · rfl
  · cases κ <;> simp_all

/-- Which thread is where, and what that says about the states of the processes. -/
structure Modes (on : Nat → Tid) (proc : Nat → Option Nat) (thr : Tid → Thread) (st : Nat → PState) : Prop where
  place : ∀ i, (thr i).At i
  self : ∀ c, on c = .cpu c ∨ ∃ p, on c = .proc p
  alone : ∀ c d p, on c = .proc p → on d = .proc p → c = d
  home : ∀ c p, on c = .proc p → proc c = some p
  sole : ∀ c d p, proc c = some p → on d = .proc p → c = d
  back : ∀ c p, proc c = some p → thr (.cpu c) = ⟨.schedBack p, []⟩
  live : ∀ c p, on c = .proc p → (st p = .running ∧ (thr (.proc p)).pc.leaves = false) ∨
    ∃ κ, (thr (.proc p)).pc = .sched p κ ∧ κ.Leaves (st p)
  off : ∀ p, (∀ c, on c ≠ .proc p) → st p ≠ .running ∧
    (st p = .used ∨ st p = .runnable ∨ st p = .sleeping → (thr (.proc p)).pc.Resumes p)
  born : ∀ p np, (thr (.proc p)).base.forks = some np → st np = .used
  one : ∀ p q np, (thr (.proc p)).base.forks = some np → (thr (.proc q)).base.forks = some np → p = q

section

variable {on : Nat → Tid} {proc : Nat → Option Nat} {thr : Tid → Thread} {st : Nat → PState} {c d k p np : Nat}
  {t : Thread} {i : Tid}

theorem update_cpu (t : Thread) : update thr (.cpu c) t (.proc p) = thr (.proc p) := update_of_ne (by simp) _ _

theorem update_proc (t : Thread) : update thr (.proc p) t (.cpu c) = thr (.cpu c) := update_of_ne (by simp) _ _

/-- One thread changes, to one at its places. -/
theorem place_update (h : ∀ j, (thr j).At j) (ht : t.At i) (j : Tid) :
    (update thr i t j).At j := by
  by_cases hj : j = i
  · rw [hj, update_self]
    exact ht
  · rw [update_of_ne hj]
    exact h j

/-- A thread with one frame. -/
theorem Thread.At.single (hx : match i with | .cpu _ => x.Schedules | .proc p => x.Of p) : Thread.At i ⟨x, []⟩ :=
  ⟨hx, fun _ h => absurd h List.not_mem_nil, fun _ h => absurd h List.not_mem_nil⟩

/-- A thread changes that has made no new process. -/
theorem forks_update {q : Nat} (ht : ∀ np, t.base.forks = some np → (thr (.proc p)).base.forks = some np)
    (h : (update thr (.proc p) t (.proc q)).base.forks = some n) : (thr (.proc q)).base.forks = some n := by
  by_cases hq : Tid.proc q = .proc p
  · rw [hq, update_self] at h
    rw [hq]
    exact ht n h
  · rwa [update_of_ne hq] at h

section

variable (h : Modes on proc thr st) {r : PState} {κ : After}

include h

theorem Modes.inj (hcd : on c = on d) : c = d := by
  rcases h.self c with hc | ⟨p, hc⟩
  · rcases h.self d with hd | ⟨q, hd⟩
    · rw [hc, hd] at hcd
      exact Tid.cpu.inj hcd
    · rw [hc, hd] at hcd
      cases hcd
  · exact h.alone c d p hc (hcd ▸ hc)

/-- A process in a state that no running process has is on no CPU. -/
theorem Modes.idle (hp : st p = .unused ∨ st p = .used) (c : Nat) : on c ≠ .proc p := by
  intro hc
  rcases h.live c p hc with ⟨hr, _⟩ | ⟨κ, _, hl⟩
  · rw [hr] at hp
    simp at hp
  · cases κ <;> simp only [After.Leaves] at hl <;> grind

/-- The thread of CPU `c` changes, and is not about to switch before or after. -/
theorem Modes.thread (ht : t.At (on c)) (hx : (thr (on c)).pc.leaves = false) (hy : t.pc.leaves = false) (hcpu : on c = .cpu c →
      proc c = none) (hforks : ∀ np, t.base.forks = some np → (thr (on c)).base.forks = some np ∨
      (st np = .used ∧ ∀ q, (thr (.proc q)).base.forks ≠ some np)) :
    Modes on proc (update thr (on c) t) st := by
  refine ⟨?_, h.self, h.alone, h.home, h.sole, ?_, ?_, ?_, ?_, ?_⟩
  · exact place_update h.place ht
  · intro d p hd
    have hne : Tid.cpu d ≠ on c := by
      intro he
      rcases h.self c with hc | ⟨q, hc⟩
      · rw [hc] at he
        rw [Tid.cpu.inj he, hcpu hc] at hd
        cases hd
      · rw [hc] at he
        cases he
    rw [update_of_ne hne]
    exact h.back d p hd
  · intro d p hd
    by_cases hdc : d = c
    · subst hdc
      left
      rw [← hd, update_self]
      rcases h.live d p hd with ⟨hr, _⟩ | ⟨κ, hpc, _⟩
      · exact ⟨hr, hy⟩
      · rw [hd, hpc] at hx
        cases hx
    · rw [update_of_ne fun he => hdc (h.inj (hd.trans he))]
      exact h.live d p hd
  · intro p hp
    rw [update_of_ne fun he => hp c he.symm]
    exact h.off p hp
  · intro p np hnp
    have hb := h.born
    have hf := hforks np
    by_cases he : Tid.proc p = on c
    · rw [he, update_self] at hnp
      rcases hf hnp with hold | ⟨hu, _⟩
      · exact hb p np (he ▸ hold)
      · exact hu
    · rw [update_of_ne he] at hnp
      exact hb p np hnp
  · intro p q np hp hq
    have ho := h.one p q np
    have hf := hforks np
    by_cases hep : Tid.proc p = on c <;> by_cases heq : Tid.proc q = on c
    · exact Tid.proc.inj (hep.trans heq.symm)
    · rw [hep, update_self] at hp
      rw [update_of_ne heq] at hq
      rcases hf hp with hold | ⟨_, hno⟩
      · exact ho (hep ▸ hold) hq
      · exact absurd hq (hno q)
    · rw [update_of_ne hep] at hp
      rw [heq, update_self] at hq
      rcases hf hq with hold | ⟨_, hno⟩
      · exact ho hp (heq ▸ hold)
      · exact absurd hp (hno p)
    · rw [update_of_ne hep] at hp
      rw [update_of_ne heq] at hq
      exact ho hp hq

/-- `scheduler` switches to process `k`, which is on no CPU. -/
theorem Modes.enter (hc : on c = .cpu c) (hk : st k = .runnable)
    (hfree : ∀ d, on d ≠ .proc k) (hproc : ∀ d, proc d ≠ some k) :
    Modes (update on c (.proc k)) (update proc c (some k)) (update thr (.cpu c) ⟨.schedBack k, []⟩)
      (update st k .running) := by
  refine ⟨?_, ?_, ?_, ?_, ?_, ?_, ?_, ?_, ?_, ?_⟩
  · exact place_update h.place (.single trivial)
  · intro d
    by_cases hd : d = c
    · exact .inr ⟨k, by rw [hd, update_self]⟩
    · rw [update_of_ne hd]
      exact h.self d
  · intro d e p hd he
    have ha := h.alone d e p
    have hfd := hfree d
    have hfe := hfree e
    grind [update]
  · intro d p hd
    have hh := h.home d p
    grind [update]
  · intro d e p hd he
    have hs := h.sole d e p
    have hpd := hproc d
    have hfe := hfree e
    grind [update]
  · intro d p hd
    have hb := h.back d p
    grind [update]
  · intro d p hd
    rw [update_cpu]
    by_cases hpk : p = k
    · subst hpk
      rw [update_self]
      exact .inl ⟨rfl, ((h.off p hfree).2 (.inr (.inl hk))).leaves⟩
    · rw [update_of_ne hpk]
      exact h.live d p (of_update_eq hd fun e => hpk (Tid.proc.inj e).symm).2
  · intro p hp
    have hpk : p ≠ k := fun e => hp c (by rw [e, update_self])
    have hoff : ∀ d, on d ≠ .proc p := by
      intro d hd
      by_cases hdc : d = c
      · rw [hdc, hc] at hd
        cases hd
      · exact hp d (by rw [update_of_ne hdc, hd])
    rw [update_of_ne hpk, update_cpu]
    exact h.off p hoff
  · intro p np hnp
    rw [update_cpu] at hnp
    have hu := h.born p np hnp
    rw [update_of_ne fun e => by rw [e, hk] at hu; cases hu]
    exact hu
  · intro p q np hp hq
    rw [update_cpu] at hp hq
    exact h.one p q np hp hq

/-- A running process changes its state and calls `sched`. -/
theorem Modes.leave (hc : on c = .proc p) (ht : t.At (.proc p)) (hx : (thr (.proc p)).pc.leaves = false) (hy : t.pc = .sched p κ)
    (hr : κ.Leaves r) (hforks : ∀ np, t.base.forks = some np → (thr (.proc p)).base.forks = some np) :
    Modes on proc (update thr (.proc p) t) (update st p r) := by
  have hrun : st p = .running := by
    rcases h.live c p hc with ⟨hr, _⟩ | ⟨κ, hpc, _⟩
    · exact hr
    · rw [hpc] at hx
      cases hx
  refine ⟨?_, h.self, h.alone, h.home, h.sole, ?_, ?_, ?_, ?_, ?_⟩
  · exact place_update h.place ht
  · intro d q hd
    rw [update_proc]
    exact h.back d q hd
  · intro d q hd
    by_cases hq : q = p
    · rw [hq, update_self, update_self]
      exact .inr ⟨κ, hy, hr⟩
    · rw [update_of_ne hq, update_of_ne fun e => hq (Tid.proc.inj e)]
      exact h.live d q hd
  · intro q hq
    have hqp : q ≠ p := fun e => hq c (e ▸ hc)
    rw [update_of_ne hqp, update_of_ne fun e => hqp (Tid.proc.inj e)]
    exact h.off q hq
  · intro q n hn
    have hu := h.born q n (forks_update hforks hn)
    rw [update_of_ne fun e => by rw [e, hrun] at hu; cases hu]
    exact hu
  · intro q q' n hq hq'
    exact h.one q q' n (forks_update hforks hq) (forks_update hforks hq')

/-- `sched` switches to the scheduler. -/
theorem Modes.out (hc : on c = .proc p) (ht : t.At (.proc p)) (hx : (thr (.proc p)).pc = .sched p κ) (hy : t.pc = .away p κ b)
    (hforks : ∀ np, t.base.forks = some np → (thr (.proc p)).base.forks = some np) :
    Modes (update on c (.cpu c)) proc (update thr (.proc p) t) st := by
  have hleaves : κ.Leaves (st p) := by
    rcases h.live c p hc with ⟨_, hs⟩ | ⟨κ', hpc, hl⟩
    · rw [hx] at hs
      cases hs
    · rw [hx] at hpc
      obtain ⟨_, rfl⟩ := Pc.sched.inj hpc
      exact hl
  have hon : ∀ {d q}, update on c (.cpu c) d = .proc q → d ≠ c ∧ on d = .proc q :=
    fun hd => of_update_eq hd (by simp)
  refine ⟨?_, ?_, ?_, ?_, ?_, ?_, ?_, ?_, ?_, ?_⟩
  · exact place_update h.place ht
  · intro d
    by_cases hd : d = c
    · exact .inl (by rw [hd, update_self])
    · rw [update_of_ne hd]
      exact h.self d
  · intro d e q hd he
    exact h.alone d e q (hon hd).2 (hon he).2
  · intro d q hd
    exact h.home d q (hon hd).2
  · intro d e q hd he
    exact h.sole d e q hd (hon he).2
  · intro d q hd
    rw [update_proc]
    exact h.back d q hd
  · intro d q hd
    obtain ⟨hdc, hd⟩ := hon hd
    have hqp : q ≠ p := fun e => hdc (h.alone d c p (e ▸ hd) hc)
    rw [update_of_ne fun e => hqp (Tid.proc.inj e)]
    exact h.live d q hd
  · intro q hq
    by_cases hqp : q = p
    · subst hqp
      rw [update_self]
      refine ⟨?_, fun hs => .inr ⟨κ, b, hy, ?_⟩⟩
      · intro hr
        cases κ <;> simp [After.Leaves, hr] at hleaves
      · intro he
        subst he
        have hz : st q = .zombie := hleaves
        simp [hz] at hs
    · rw [update_of_ne fun e => hqp (Tid.proc.inj e)]
      refine h.off q fun d hd => hq d ?_
      rw [update_of_ne fun e => hqp (Tid.proc.inj ((e ▸ hd).symm.trans hc)), hd]
  · intro q n hn
    exact h.born q n (forks_update hforks hn)
  · intro q q' n hq hq'
    exact h.one q q' n (forks_update hforks hq) (forks_update hforks hq')

/-- `scheduler` is back from a process: `c->proc = 0`. -/
theorem Modes.done (hc : on c = .cpu c) (hx : x.Schedules) :
    Modes on (update proc c none) (update thr (.cpu c) ⟨x, []⟩) st := by
  refine ⟨?_, h.self, h.alone, ?_, ?_, ?_, ?_, ?_, ?_, ?_⟩
  · exact place_update h.place (.single hx)
  · intro d p hd
    rw [update_of_ne fun e => by rw [e, hc] at hd; cases hd]
    exact h.home d p hd
  · intro d e p hd he
    exact h.sole d e p (of_update_eq hd (by simp)).2 he
  · intro d p hd
    obtain ⟨hdc, hd⟩ := of_update_eq hd (by simp)
    rw [update_of_ne fun e => hdc (Tid.cpu.inj e)]
    exact h.back d p hd
  · intro d p hd
    rw [update_cpu]
    exact h.live d p hd
  · intro p hp
    rw [update_cpu]
    exact h.off p hp
  · intro p np hnp
    rw [update_cpu] at hnp
    exact h.born p np hnp
  · intro p q np hp hq
    rw [update_cpu] at hp hq
    exact h.one p q np hp hq

/-- The state of process `k` changes, from one that no CPU runs it in or from SLEEPING. -/
theorem Modes.state (hrun : r ≠ .running) (hlive : ∀ (c : Nat) (κ : After), on c = .proc k → κ.Leaves (st k) → κ.Leaves r)
    (hnot : ∀ c, on c = .proc k → st k ≠ .running) (hres : r = .used ∨ r = .runnable ∨ r = .sleeping → st k = .used ∨
      st k = .runnable ∨ st k = .sleeping) (hborn : ∀ p, (thr (.proc p)).base.forks = some k → r = .used) :
    Modes on proc thr (update st k r) := by
  refine ⟨h.place, h.self, h.alone, h.home, h.sole, h.back, ?_, ?_, ?_, h.one⟩
  · intro c p hc
    by_cases hpk : p = k
    · subst hpk
      rw [update_self]
      rcases h.live c p hc with ⟨hr, _⟩ | ⟨κ, hpc, hl⟩
      · exact absurd hr (hnot c hc)
      · exact .inr ⟨κ, hpc, hlive c κ hc hl⟩
    · rw [update_of_ne hpk]
      exact h.live c p hc
  · intro p hp
    by_cases hpk : p = k
    · subst hpk
      rw [update_self]
      exact ⟨hrun, fun hr => (h.off p hp).2 (hres hr)⟩
    · rw [update_of_ne hpk]
      exact h.off p hp
  · intro p np hnp
    by_cases hk : np = k
    · subst hk
      rw [update_self]
      exact hborn p hnp
    · rw [update_of_ne hk]
      exact h.born p np hnp

/-- `wakeup` and `kill`. -/
theorem Modes.wake (hk : st k = .sleeping) : Modes on proc thr (update st k .runnable) := by
  refine h.state (by simp) ?_ ?_ (fun _ => .inr (.inr hk)) ?_
  · intro c κ _ hl
    rw [hk] at hl
    cases κ <;> simp_all [After.Leaves]
  · intro c _ hr
    rw [hk] at hr
    cases hr
  · intro p hp
    have hu := h.born p k hp
    rw [hk] at hu
    cases hu

/-- `wait` frees a process that is on no CPU. -/
theorem Modes.free (hk : st k = .zombie) (hfree : ∀ c, on c ≠ .proc k) : Modes on proc thr (update st k .unused) := by
  refine h.state (by simp) (fun c _ hc => absurd hc (hfree c)) (fun c hc => absurd hc (hfree c)) (by simp) ?_
  intro p hp
  have hu := h.born p k hp
  rw [hk] at hu
  cases hu

/-- `fork` makes its new process RUNNABLE, or gives it up, and forgets it. -/
theorem Modes.ready (hr : r ≠ .running) (hk : st k = .used) (hno : ∀ p, (thr (.proc p)).base.forks ≠ some k) :
    Modes on proc thr (update st k r) := by
  have hfree := h.idle (.inr hk)
  exact h.state hr (fun c _ hc => absurd hc (hfree c)) (fun c hc => absurd hc (hfree c)) (fun _ => .inl hk)
    fun p hp => absurd hp (hno p)

/-- `allocproc` takes an unused slot and sets up its thread. -/
theorem Modes.alloc (hk : st k = .unused) :
    Modes on proc (update thr (.proc k) ⟨.forkret k, []⟩) (update st k .used) := by
  have hfree := h.idle (.inl hk)
  have hforks : ∀ np, (Pc.forkret k).forks = some np → (thr (.proc k)).base.forks = some np := fun _ hn => by cases hn
  refine ⟨?_, h.self, h.alone, h.home, h.sole, ?_, ?_, ?_, ?_, ?_⟩
  · exact place_update h.place (.single rfl)
  · intro d q hd
    rw [update_proc]
    exact h.back d q hd
  · intro d q hd
    have hqk : q ≠ k := fun e => hfree d (e ▸ hd)
    rw [update_of_ne hqk, update_of_ne fun e => hqk (Tid.proc.inj e)]
    exact h.live d q hd
  · intro q hq
    by_cases hqk : q = k
    · rw [hqk, update_self, update_self]
      exact ⟨by simp, fun _ => .inl rfl⟩
    · rw [update_of_ne hqk, update_of_ne fun e => hqk (Tid.proc.inj e)]
      exact h.off q hq
  · intro q n hn
    have hu := h.born q n (forks_update hforks hn)
    rw [update_of_ne fun e => by rw [e, hk] at hu; cases hu]
    exact hu
  · intro q q' n hq hq'
    exact h.one q q' n (forks_update hforks hq) (forks_update hforks hq')

end

end

end Xv6.Sched
