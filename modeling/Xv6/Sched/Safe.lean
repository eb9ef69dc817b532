/-
  Xv6.Sched.Safe — every step keeps the invariant, and no step panics.

  A step takes the thread of its CPU from one place to the next. Most do nothing else to the threads
  (`Pc.Next`): they take a lock, give one up, or change a field of a slot whose lock is held. The others are
  the two switches, the changes of state before `sched`, and `allocproc`. The only panic left is that of
  `exit` in `init`.
-/

import Xv6.Sched.Inv

namespace Xv6.Sched

open Xv6.Lib
open Xv6.Proc (PState Chan initproc pidAfter)

/-! ## Threads -/

variable {t : Thread} {x y : Pc} {rest : List Pc} {i : Tid} {np : Nat} {held : List Lock} {v : Slot} {κ : After}
  {z : Nap} {chan : Option Chan}

theorem Thread.goto_nil (ht : t.irqs = []) (y : Pc) : t.goto y = ⟨y, []⟩ := by
  obtain ⟨base, irqs⟩ := t
  subst ht
  rfl

theorem Thread.goto_cons (ht : t.irqs = x :: rest) (y : Pc) : t.goto y = ⟨t.base, y :: rest⟩ := by
  obtain ⟨base, irqs⟩ := t
  subst ht
  rfl

theorem Thread.pc_nil (ht : t.irqs = []) : t.pc = t.base := by
  unfold Thread.pc
  rw [ht]
  rfl

theorem Thread.pc_cons (ht : t.irqs = x :: rest) : t.pc = x := by
  unfold Thread.pc
  rw [ht]
  rfl

/-- A frame at `x` may go on to `y`. -/
structure Pc.Follows (x y : Pc) : Prop where
  of : ∀ p, x.Of p → y.Of p := by simp
  schedules : x.Schedules → y.Schedules := by simp
  serves : x.Serves → y.Serves := by simp
  yields : ∀ p, x.Yields p → y.Yields p ∨ y.Serves := by simp
  forks : ∀ np, y.forks = some np → x.forks = some np := by simp

/-- And no thread is about to switch, or to get its CPU's scheduler back. -/
structure Pc.Next (x y : Pc) : Prop extends Pc.Follows x y where
  before : x.leaves = false ∧ ∀ k, x ≠ .schedBack k := by simp
  after : y.leaves = false := by simp

theorem Thread.At.goto_base (ht : t.irqs = []) (hy : match i with
      | .cpu _ => y.Schedules
      | .proc p => y.Of p) : (t.goto y).At i := by
  rw [Thread.goto_nil ht]
  exact .single hy

theorem Thread.At.goto_irq (h : t.At i) (ht : t.irqs = x :: rest)
    (hy : y.Serves ∨ ∃ p, i = .proc p ∧ y.Yields p) : (t.goto y).At i := by
  rw [Thread.goto_cons ht]
  refine ⟨h.base, ?_, ?_⟩
  · intro z hz
    rcases List.mem_cons.mp hz with rfl | hz
    · exact hy
    · exact h.irqs z (ht ▸ List.mem_cons_of_mem _ hz)
  · intro z hz
    have hu := h.under z
    unfold Thread.under at hu
    rw [ht] at hu
    exact hu hz

theorem Thread.At.next (h : t.At i) (hn : t.pc.Follows y) : (t.goto y).At i := by
  cases hirqs : t.irqs with
  | nil =>
    rw [Thread.pc_nil hirqs] at hn
    refine Thread.At.goto_base hirqs ?_
    have hb := h.base
    cases i with
    | cpu c => exact hn.schedules hb
    | proc p => exact hn.of p hb
  | cons x rest =>
    rw [Thread.pc_cons hirqs] at hn
    refine h.goto_irq hirqs ?_
    rcases h.irqs x (hirqs ▸ List.mem_cons_self) with hx | ⟨p, hi, hx⟩
    · exact .inl (hn.serves hx)
    · rcases hn.yields p hx with hy | hy
      · exact .inr ⟨p, hi, hy⟩
      · exact .inl hy

/-! ## The invariant -/

structure Inv (s : St) : Prop where
  locks : Locks (fun c => (s.pc c).locks) s.lock s.noff s.intr
  modes : Modes s.on s.proc s.thr fun p => (s.slot p).state

theorem init_inv : Inv init := by
  have hpc : ∀ c, (init.pc c).locks = [] := fun _ => rfl
  refine ⟨⟨?_, ?_, ?_, ?_⟩, ⟨?_, fun c => .inl rfl, nofun, nofun, nofun, nofun, nofun, ?_, nofun, nofun⟩⟩
  · intro c l
    rw [hpc]
    constructor
    · intro h
      cases h
    · intro h
      exact absurd h List.not_mem_nil
  · intro c
    rw [hpc]
    exact List.nodup_nil
  · intro c
    rw [hpc]
    rfl
  · intro c hc
    exact absurd hc (Nat.lt_irrefl 0)
  · intro i
    cases i with
    | cpu c => exact .single trivial
    | proc p => exact .single rfl
  · intro p _
    refine ⟨?_, fun _ => .inl rfl⟩
    simp only [init]
    split <;> simp

variable {s s' : St} {c p k : Nat} {l : Lock} {x y : Pc}

/-- The locks of the CPUs after the thread of CPU `c` has changed. -/
theorem held_thread (hinj : ∀ d, s.on d = s.on c → d = c) (t : Thread) (d : Nat) :
    (update s.thr (s.on c) t (s.on d)).pc.locks = update (fun d => (s.pc d).locks) c t.pc.locks d := by
  by_cases hd : d = c
  · rw [hd, update_self, update_self]
  · rw [update_of_ne hd, update_of_ne fun e => hd (hinj d e)]
    rfl

/-- A thread goes to a place with the same locks. -/
theorem Inv.same_locks {intr : Nat → Bool} (h : Inv s) (hl : Locks (fun d => (s.pc d).locks) s.lock s.noff intr)
    (ht : t.pc.locks = (s.pc c).locks) :
    Locks (fun d => (update s.thr (s.on c) t (s.on d)).pc.locks) s.lock s.noff intr := by
  refine hl.congr fun d => ?_
  rw [held_thread fun _ e => h.modes.inj e, ht, update_eq_self]

/-- A scheduler that is not back from a process has none. -/
theorem Inv.proc_none (h : Inv s) (hc : s.on c = .cpu c) (hx : ∀ k, s.pc c ≠ .schedBack k) : s.proc c = none := by
  cases hp : s.proc c with
  | none => rfl
  | some p =>
    refine absurd ?_ (hx p)
    unfold St.pc
    rw [hc, h.modes.back c p hp]
    rfl

/-- The process that a thread's `fork` has made is still the same. -/
theorem Thread.forks_goto (hf : ∀ np, y.forks = some np → t.pc.forks = some np)
    (h : (t.goto y).base.forks = some np) : t.base.forks = some np := by
  cases hirqs : t.irqs with
  | nil =>
    rw [Thread.goto_nil hirqs] at h
    have hx := hf np h
    rwa [Thread.pc_nil hirqs] at hx
  | cons z rest => rwa [Thread.goto_cons hirqs] at h

theorem Inv.modes_next (h : Inv s) (hn : (s.pc c).Next y) :
    Modes s.on s.proc (s.goto c y).thr fun p => (s.slot p).state := by
  refine h.modes.thread ((h.modes.place _).next hn.toFollows) hn.before.1 ?_ (fun hc => h.proc_none hc hn.before.2)
    fun np hnp => .inl (Thread.forks_goto hn.forks hnp)
  rw [Thread.goto_pc]
  exact hn.after

/-- What may come of a step. -/
def Safe : Except Stop St → Prop
  | .ok s' => Inv s'
  | .error (.panic e) => e = .initExiting
  | .error .blocked => True

theorem lockTo_safe (h : Inv s) (hl : l ∉ (s.pc c).locks) (hy : y.locks = l :: (s.pc c).locks)
    (hm : Modes s.on s.proc (s.goto c y).thr fun p => (s.slot p).state) : Safe (lockTo s c l y) := by
  unfold lockTo acquire
  rw [if_neg fun he => hl ((h.locks.held c l).mp he)]
  by_cases hfree : s.lock l = none
  · rw [if_neg (not_not.mpr hfree)]
    refine ⟨(h.locks.acquire (c := c) hfree).congr fun d => ?_, hm⟩
    have he := held_thread (c := c) (fun _ e => h.modes.inj e) ((s.thr (s.on c)).goto y) d
    rw [Thread.goto_pc, hy] at he
    exact he
  · rw [if_pos hfree]
    trivial

/-- A `release`, after changes to slots and threads that no CPU's locks depend on. -/
theorem unlockTo_safe (h : Locks (fun d => (s.pc d).locks) s.lock s.noff s.intr)
    (hinj : ∀ d, s.on d = s.on c → d = c) (hx : (s.pc c).locks.Perm (l :: held)) (hy : y.locks = held)
    (hm : Modes s.on s.proc (s.goto c y).thr fun p => (s.slot p).state) : Safe (unlockTo s c l y) := by
  have hmem : l ∈ (s.pc c).locks := hx.mem_iff.mpr List.mem_cons_self
  have hlock : s.lock l = some c := (h.held c l).mpr hmem
  have hintr : s.intr c = false := h.quiet c (by rw [h.noff]; exact List.length_pos_of_mem hmem)
  have hnoff : ¬ s.noff c < 1 := by
    rw [h.noff c, hx.length_eq, List.length_cons]
    omega
  unfold unlockTo release popOff
  rw [if_neg (not_not.mpr hlock), if_neg (by simp [hintr]), if_neg hnoff]
  refine ⟨(h.release hx (s.intena c)).congr fun d => ?_, hm⟩
  have he := held_thread hinj ((s.thr (s.on c)).goto y) d
  rw [Thread.goto_pc, hy] at he
  exact he

/-- A step with no lock taken or given up. -/
theorem goto_safe (h : Inv s) (hy : y.locks = (s.pc c).locks)
    (hm : Modes s.on s.proc (s.goto c y).thr fun p => (s.slot p).state) : Inv (s.goto c y) :=
  ⟨h.same_locks h.locks (by rw [Thread.goto_pc, hy]), hm⟩

/-! ## Whose thread it is -/

theorem Inv.scheduler (h : Inv s) (hx : s.pc c = x) (hs : x.Schedules) :
    s.on c = .cpu c ∧ (s.thr (.cpu c)).irqs = [] := by
  have hat := h.modes.place (s.on c)
  unfold St.pc at hx
  cases hirqs : (s.thr (s.on c)).irqs with
  | nil =>
    rw [Thread.pc_nil hirqs] at hx
    rcases h.modes.self c with hc | ⟨p, hc⟩
    · exact ⟨hc, hc ▸ hirqs⟩
    · rw [hc] at hat hx
      have hb : (s.thr (.proc p)).base.Of p := hat.base
      rw [hx] at hb
      cases x <;> simp_all
  | cons z rest =>
    rw [Thread.pc_cons hirqs] at hx
    subst hx
    rcases hat.irqs z (hirqs ▸ List.mem_cons_self) with hz | ⟨p, _, hz⟩
    · cases z <;> simp_all
    · cases z <;> simp_all

theorem Inv.process (h : Inv s) (hx : s.pc c = x) (h1 : ¬ x.Schedules) (h2 : ¬ x.Serves) :
    ∃ p, s.on c = .proc p ∧ (x.Of p ∨ x.Yields p) := by
  have hat := h.modes.place (s.on c)
  unfold St.pc at hx
  cases hirqs : (s.thr (s.on c)).irqs with
  | nil =>
    rw [Thread.pc_nil hirqs] at hx
    rcases h.modes.self c with hc | ⟨p, hc⟩
    · rw [hc] at hat hx
      have hb : (s.thr (.cpu c)).base.Schedules := hat.base
      exact absurd (hx ▸ hb) h1
    · rw [hc] at hat hx
      have hb : (s.thr (.proc p)).base.Of p := hat.base
      exact ⟨p, hc, .inl (hx ▸ hb)⟩
  | cons z rest =>
    rw [Thread.pc_cons hirqs] at hx
    subst hx
    rcases hat.irqs z (hirqs ▸ List.mem_cons_self) with hz | ⟨p, hp, hz⟩
    · exact absurd hz h2
    · exact ⟨p, hp, .inr hz⟩

/-- A process whose lock another thread holds is on no CPU, if it is not RUNNING. -/
theorem Inv.off_cpu (h : Inv s) (hl : .proc k ∈ (s.pc c).locks) (hst : (s.slot k).state ≠ .running)
    (hx : (s.pc c).leaves = false) (d : Nat) : s.on d ≠ .proc k := by
  intro hd
  rcases h.modes.live d k hd with ⟨hr, _⟩ | ⟨κ, hpc, _⟩
  · exact hst hr
  · have hpd : s.pc d = .sched k κ := by
      unfold St.pc
      rw [hd, hpc]
    have hheld : s.lock (.proc k) = some d := (h.locks.held d _).mpr (by simp [hpd])
    have hc := (h.locks.held c _).mpr hl
    rw [hheld] at hc
    rw [← Option.some.inj hc, hpd] at hx
    cases hx

/-- A CPU that is off the stack of its current process is in its scheduler, back from it. -/
theorem Inv.back_pc (h : Inv s) (hp : s.proc c = some k) (hc : s.on c ≠ .proc k) : s.pc c = .schedBack k := by
  rcases h.modes.self c with hcpu | ⟨q, hq⟩
  · unfold St.pc
    rw [hcpu, h.modes.back c k hp]
    rfl
  · have hh := h.modes.home c q hq
    rw [hp] at hh
    exact absurd (Option.some.inj hh ▸ hq) hc

/-- And it holds the process's lock. -/
theorem Inv.lock_of_proc {d : Nat} (h : Inv s) (hp : s.proc d = some k) (hd : s.on d ≠ .proc k)
    (hl : .proc k ∈ (s.pc c).locks) : d = c := by
  have hpd := h.back_pc hp hd
  have h1 : s.lock (.proc k) = some d := (h.locks.held d _).mpr (by simp [hpd])
  have h2 := (h.locks.held c _).mpr hl
  rw [h1] at h2
  exact Option.some.inj h2

/-! ## The steps -/

/-- The states after one slot has changed. -/
theorem state_set (s : St) (k : Nat) (v : Slot) :
    (fun p => ((s.set k v).slot p).state) = update (fun p => (s.slot p).state) k v.state := by
  funext p
  unfold St.set update
  dsimp only
  split <;> rfl

section

variable (h : Inv s)

include h

/-- A change of a slot that the threads agree with. -/
theorem Inv.set (hm : Modes s.on s.proc s.thr (update (fun p => (s.slot p).state) k v.state)) : Inv (s.set k v) := by
  refine ⟨h.locks, ?_⟩
  rw [state_set]
  exact hm

theorem Inv.set_same (hv : v.state = (s.slot k).state) : Inv (s.set k v) := by
  have he : update (fun p => (s.slot p).state) k v.state = fun p => (s.slot p).state := update_same hv.symm
  refine h.set ?_
  rw [he]
  exact h.modes

theorem Inv.wake (chan : Option Chan) : Inv (s.set k ((s.slot k).wake chan)) := by
  unfold Slot.wake
  split
  · rename_i hw
    exact h.set (h.modes.wake hw.1)
  · exact h.set_same rfl

theorem Inv.kill : Inv (s.set k (s.slot k).kill) := by
  by_cases hs : (s.slot k).state = .sleeping
  · refine h.set ?_
    have hst : (s.slot k).kill.state = .runnable := by simp [Slot.kill, hs]
    rw [hst]
    exact h.modes.wake hs
  · exact h.set_same (by simp [Slot.kill, hs])

/-- A step that takes a lock. -/
theorem Inv.lock_next (hx : s.pc c = x) (hl : l ∉ x.locks) (hy : y.locks = l :: x.locks)
    (hn : x.Next y) : Safe (lockTo s c l y) := by
  subst hx
  exact lockTo_safe h hl hy (h.modes_next hn)

/-- A step that gives up a lock. -/
theorem Inv.unlock_next (hx : s.pc c = x) (hl : x.locks.Perm (l :: y.locks)) (hn : x.Next y) :
    Safe (unlockTo s c l y) := by
  subst hx
  exact unlockTo_safe h.locks (fun _ e => h.modes.inj e) hl rfl (h.modes_next hn)

theorem Inv.goto_next (hx : s.pc c = x) (hy : y.locks = x.locks) (hn : x.Next y) : Inv (s.goto c y) := by
  subst hx
  exact goto_safe h hy (h.modes_next hn)

/-- A process leaves RUNNING, and is about to switch. -/
theorem Inv.leave (hx : s.pc c = x) (h1 : ¬ x.Schedules) (h2 : ¬ x.Serves)
    (hown : ∀ q, x.Of q ∨ x.Yields q → p = q) (hl : x.leaves = false) (hf : x.Follows (.sched p κ))
    (hr : κ.Leaves v.state) :
    Modes s.on s.proc ((s.set p v).goto c (.sched p κ)).thr fun q => ((s.set p v).slot q).state := by
  obtain ⟨q, hc, hq⟩ := h.process hx h1 h2
  obtain rfl := hown q hq
  rw [state_set]
  have hthr : ((s.set p v).goto c (.sched p κ)).thr =
      update s.thr (.proc p) ((s.thr (.proc p)).goto (.sched p κ)) := by
    unfold St.goto St.set
    dsimp only
    rw [hc]
  subst hx
  unfold St.pc at hl hf
  rw [hc] at hl hf
  rw [hthr]
  exact h.modes.leave hc ((h.modes.place _).next hf) hl (Thread.goto_pc _ _) hr
    fun np hnp => Thread.forks_goto hf.forks hnp

theorem goto_leave_safe (hx : (s.pc c).locks = [.proc p])
    (hm : Modes s.on s.proc ((s.set p v).goto c (.sched p κ)).thr fun q => ((s.set p v).slot q).state) :
    Inv ((s.set p v).goto c (.sched p κ)) :=
  ⟨h.same_locks h.locks (by rw [Thread.goto_pc, hx]; rfl), hm⟩

theorem schedTest_safe (hx : s.pc c = .schedTest k) (hk : (s.slot k).state = .runnable) :
    Inv (swtch ({ s.set k { s.slot k with state := .running } with
      proc := update s.proc c (some k) }.goto c (.schedBack k)) c (.proc k)) := by
  obtain ⟨hc, hirqs⟩ := h.scheduler hx trivial
  have hfree := h.off_cpu (k := k) (c := c) (by simp [hx]) (by simp [hk]) (by simp [hx])
  have hthr : update s.thr (s.on c) ((s.thr (s.on c)).goto (.schedBack k)) =
      update s.thr (.cpu c) ⟨.schedBack k, []⟩ := by
    rw [hc, Thread.goto_nil hirqs]
  -- a CPU that is not done with the process would hold its lock
  have hproc : ∀ d, s.proc d ≠ some k := by
    intro d hd
    have hdc : d ≠ c := by
      intro e
      rw [e, h.proc_none hc (by simp [hx])] at hd
      cases hd
    exact hdc (h.lock_of_proc hd (hfree d) (by simp [hx]))
  have hm := h.modes.enter hc hk hfree hproc
  constructor
  · -- the process was left in `sched` or at `forkret`, with its lock held
    have hres := (h.modes.off k hfree).2 (.inr (.inl hk))
    have hlocks : (s.thr (.proc k)).pc.locks = [.proc k] := by
      rcases hres with hr | ⟨κ, b, hr, _⟩ <;> simp [hr]
    refine h.locks.congr fun d => ?_
    unfold St.pc swtch St.goto St.set
    dsimp only
    rw [hthr]
    by_cases hd : d = c
    · rw [hd, update_self, update_cpu, hlocks]
      unfold St.pc at hx
      rw [hx]
      rfl
    · have hne : s.on d ≠ .cpu c := fun e => hd (h.modes.inj (e.trans hc.symm))
      rw [update_of_ne hd, update_of_ne hne]
  · unfold swtch St.goto
    dsimp only
    have hst := state_set s k { s.slot k with state := .running }
    unfold St.set at hst ⊢
    dsimp only at hst ⊢
    rw [hthr, hst]
    exact hm

theorem sched_safe (hx : s.pc c = .sched p κ) : Safe (sched s c p κ) := by
  obtain ⟨q, hc, hq⟩ := h.process hx (by simp) (by simp)
  have hqp : p = q := by
    cases κ <;> simp_all
  subst hqp
  have hpc : (s.thr (.proc p)).pc = .sched p κ := by
    rw [← hc]
    exact hx
  have hlive : (s.slot p).state ≠ .running := by
    rcases h.modes.live c p hc with ⟨_, hs⟩ | ⟨κ', _, hl⟩
    · rw [hpc] at hs
      cases hs
    · intro hr
      simp only [hr] at hl
      cases κ' <;> simp at hl
  have hlock : s.lock (.proc p) = some c := (h.locks.held c _).mpr (by simp [hx])
  have hnoff : s.noff c = 1 := by
    rw [h.locks.noff c, hx]
    rfl
  have hintr : s.intr c = false := h.locks.quiet c (by omega)
  unfold sched
  rw [if_neg (not_not.mpr hlock), if_neg (not_not.mpr hnoff), if_neg hlive, if_neg (by simp [hintr])]
  have hf : (s.thr (.proc p)).pc.Follows (.away p κ (s.intena c)) := by
    rw [hpc]
    constructor <;> cases κ <;> simp
  have hthr : update s.thr (s.on c) ((s.thr (s.on c)).goto (.away p κ (s.intena c))) =
      update s.thr (.proc p) ((s.thr (.proc p)).goto (.away p κ (s.intena c))) := by
    rw [hc]
  -- the scheduler holds the lock that the process gives it
  have hback := h.modes.back c p (h.modes.home c p hc)
  constructor
  · refine h.locks.congr fun d => ?_
    unfold swtch St.goto
    simp only [St.pc]
    rw [hthr]
    by_cases hd : d = c
    · rw [hd, update_self, update_proc, hback, hc, hpc]
      rfl
    · have hne : s.on d ≠ .proc p := fun e => hd (h.modes.inj (e.trans hc.symm))
      rw [update_of_ne hd, update_of_ne hne]
  · unfold swtch St.goto
    dsimp only
    rw [hthr]
    exact h.modes.out hc ((h.modes.place _).next hf) hpc (Thread.goto_pc _ _)
      fun np hnp => Thread.forks_goto hf.forks hnp

theorem schedBack_scheduler_safe (hx : s.pc c = .schedBack k) :
    Safe (unlockTo { s with proc := update s.proc c none } c (.proc k) (.schedAcq (k + 1))) := by
  obtain ⟨hc, hirqs⟩ := h.scheduler hx trivial
  refine unlockTo_safe h.locks (fun _ e => h.modes.inj e) (hx ▸ List.Perm.refl _) rfl ?_
  change Modes s.on (update s.proc c none) (update s.thr (s.on c) ((s.thr (s.on c)).goto (.schedAcq (k + 1)))) _
  rw [hc, Thread.goto_nil hirqs]
  exact h.modes.done hc trivial

/-- `sched` returns. -/
theorem schedBack_safe {b : Bool} (hx : s.pc c = .away p κ b) : Safe (schedBack s c p κ b) := by
  obtain ⟨q, hc, hq⟩ := h.process hx (by simp) (by cases κ <;> simp)
  have hintena : Inv { s with intena := update s.intena c b } := ⟨h.locks, h.modes⟩
  have hx' : St.pc { s with intena := update s.intena c b } c = .away p κ b := hx
  unfold schedBack
  cases κ with
  | yield =>
    exact hintena.unlock_next hx' (List.Perm.refl _) { of := by simp [Plain], yields := by simp [Plain] }
  | sleep z =>
    have hset := hintena.set_same (k := p) (v := { s.slot p with chan := none }) rfl
    exact hset.unlock_next hx (List.Perm.refl _) {}
  | exit =>
    -- the scheduler does not switch to a process after its last switch
    exfalso
    have hpc : (s.thr (.proc q)).pc = .away p .exit b := by
      rw [← hc]
      exact hx
    rcases h.modes.live c q hc with ⟨_, hl⟩ | ⟨κ, hs, _⟩
    · rw [hpc] at hl
      cases hl
    · rw [hpc] at hs
      cases hs

/-- A system call runs with no handler on top. -/
theorem Inv.no_irqs (hx : s.pc c = x) (h1 : ¬ x.Serves) (h2 : ∀ p, ¬ x.Yields p) : (s.thr (s.on c)).irqs = [] := by
  cases hirqs : (s.thr (s.on c)).irqs with
  | nil => rfl
  | cons z rest =>
    unfold St.pc at hx
    rw [Thread.pc_cons hirqs] at hx
    subst hx
    rcases (h.modes.place _).irqs z (hirqs ▸ List.mem_cons_self) with hz | ⟨p, _, hz⟩
    · exact absurd hz h1
    · exact absurd hz (h2 p)

theorem Inv.allocated (hk : (s.slot k).state = .unused) :
    Inv (allocated s k) ∧ ∀ d, (Sched.allocated s k).pc d = s.pc d := by
  have hpc : ∀ d, (Sched.allocated s k).pc d = s.pc d := by
    intro d
    unfold Sched.allocated St.set St.pc
    dsimp only
    rw [update_of_ne (h.modes.idle (.inl hk) d)]
  refine ⟨⟨h.locks.congr fun d => by rw [hpc], ?_⟩, hpc⟩
  · have hst := state_set s k { s.slot k with pid := s.nextpid, state := .used }
    unfold Sched.allocated
    unfold St.set at hst ⊢
    dsimp only at hst ⊢
    rw [hst]
    exact h.modes.alloc hk

/-- `fork` has its new process, which no other `fork` has. -/
theorem forkTest_safe {mem : Bool} (hx : s.pc c = .forkTest p k mem) (hk : (s.slot k).state = .unused) :
    Inv ((allocated s k).goto c (.forkUsed p k mem)) := by
  obtain ⟨ha, hpc⟩ := h.allocated hk
  have hx' : (allocated s k).pc c = .forkTest p k mem := by rw [hpc, hx]
  have hirqs := ha.no_irqs hx' (by simp) (by simp)
  obtain ⟨q, hc, hq⟩ := ha.process hx' (by simp) (by simp)
  refine goto_safe ha (by rw [hx']; rfl) (ha.modes.thread ?_ ?_ ?_ (fun hc => ha.proc_none hc (by simp [hx'])) ?_)
  · refine Thread.At.goto_base hirqs ?_
    rw [hc]
    simpa using hq
  · change ((allocated s k).pc c).leaves = false
    rw [hx']
    rfl
  · rw [Thread.goto_pc]
    rfl
  · intro np hnp
    right
    rw [Thread.goto_nil hirqs] at hnp
    obtain rfl : k = np := Option.some.inj hnp
    refine ⟨by simp [allocated, St.set, update_self], ?_⟩
    intro q hq
    unfold allocated at hq
    dsimp only at hq
    by_cases hqk : Tid.proc q = .proc k
    · rw [hqk, update_self] at hq
      cases hq
    · rw [update_of_ne hqk] at hq
      have hu := h.modes.born q k hq
      rw [hk] at hu
      cases hu

/-- The process that a `fork` has allocated. -/
theorem Inv.forking (hx : s.pc c = x) (hf : x.forks = some np) (h1 : ¬ x.Serves) (h2 : ∀ p, ¬ x.Yields p)
    (h3 : ¬ x.Schedules) : (s.thr (s.on c)).irqs = [] ∧ ∃ q, s.on c = .proc q ∧ (s.thr (.proc q)).base.forks = some np := by
  have hirqs := h.no_irqs hx h1 h2
  obtain ⟨q, hc, _⟩ := h.process hx h3 h1
  refine ⟨hirqs, q, hc, ?_⟩
  rw [hc] at hirqs
  rw [← Thread.pc_nil hirqs, ← hc, ← hf]
  exact congrArg Pc.forks hx

/-- `fork` makes its new process RUNNABLE, or gives it up. -/
theorem forked_safe (hx : s.pc c = .forkSet p np ∨ s.pc c = .forkUsed p np false) (hv : v.state ≠ .running) :
    Safe (unlockTo (s.set np v) c (.proc np) (.run [])) := by
  obtain ⟨hirqs, q, hc, hforks⟩ : (s.thr (s.on c)).irqs = [] ∧ ∃ q, s.on c = .proc q ∧
    (s.thr (.proc q)).base.forks = some np := by
    rcases hx with hx | hx <;> exact h.forking hx rfl (by simp) (by simp) (by simp)
  have hnext : (s.pc c).Next (.run []) := by
    rcases hx with hx | hx <;> rw [hx] <;> exact { of := by simp [Plain] }
  have hlocks : (s.pc c).locks = [.proc np] := by
    rcases hx with hx | hx <;> rw [hx] <;> rfl
  have hm := h.modes_next hnext
  refine unlockTo_safe h.locks (fun _ e => h.modes.inj e) (hlocks ▸ List.Perm.refl _) rfl ?_
  have hst := state_set s np v
  change Modes s.on s.proc (s.goto c (.run [])).thr fun r => ((s.set np _).slot r).state
  rw [hst]
  refine hm.ready hv (h.modes.born q np hforks) ?_
  intro r hr
  unfold St.goto at hr
  dsimp only at hr
  by_cases he : Tid.proc r = s.on c
  · rw [he, update_self, Thread.goto_nil hirqs] at hr
    cases hr
  · rw [update_of_ne he] at hr
    have hrq := h.modes.one r q np hr hforks
    exact he (hrq ▸ hc.symm)

/-- The process that `wait` frees is off its CPU. -/
theorem waitTest_safe {copy : Bool} (hx : s.pc c = .waitTest p k copy) (hk : (s.slot k).state = .zombie) :
    Safe (unlockTo (s.set k (freeproc (s.slot k))) c (.proc k) .waitRet) := by
  have hfree := h.off_cpu (k := k) (c := c) (by simp [hx]) (by simp [hk]) (by simp [hx])
  have hset : Inv (s.set k (freeproc (s.slot k))) := h.set (h.modes.free hk hfree)
  exact hset.unlock_next hx (List.Perm.refl _) {}

/-! ## What a place says about its own data -/

theorem Inv.nap_wf (hx : s.pc c = x)
    (hz : x = .sleepAcq p z ∨ x = .sleepRel p z ∨ x = .sleepRe p z ∨ x = .killedAcq p z ∨ x = .killedRead p z) :
    z.Wf := by
  rcases hz with rfl | rfl | rfl | rfl | rfl <;>
    · obtain ⟨q, _, hq⟩ := h.process hx (by simp) (by simp)
      rcases hq with hq | hq
      · exact hq.2
      · exact hq.elim

/-- `wakeup` is called without a `p->lock`. -/
theorem Inv.wake_plain {κ : WakeRet} (hx : s.pc c = .wakeAcq k chan κ) : Plain κ.locks := by
  cases κ with
  | run held =>
    by_cases hs : (Pc.wakeAcq k chan (.run held)).Serves
    · exact hs
    · obtain ⟨q, _, hq⟩ := h.process hx (by simp) hs
      rcases hq with hq | hq
      · exact hq
      · exact hq.elim
  | reparent q j | exit q => simp [Plain, Lock.isProc]

end

theorem Plain.not_mem (h : Plain held) : Lock.proc k ∉ held := by
  intro hk
  have := h _ hk
  cases this

theorem Nap.Wf.ne_proc (h : z.Wf) : Lock.proc k ≠ z.lk := by
  intro he
  have := h.1
  rw [← he] at this
  cases this

theorem Nap.Wf.next_locks (h : z.Wf) : (z.next p).locks = [z.lk] := by
  unfold Nap.next
  cases hw : z.inWait with
  | none => rfl
  | some copy => simp [h.2 (by simp [hw])]

theorem Nap.Wf.quit_locks (h : z.Wf) : z.quit.locks = [z.lk] := by
  unfold Nap.quit
  split
  · rename_i hw
    simp [h.2 hw]
  · rfl

theorem Nap.Wf.next_next (h : z.Wf) : (Pc.sleepRe p z).Next (z.next p) := by
  unfold Nap.next
  cases z.inWait <;> refine ⟨⟨?_, ?_, ?_, ?_, ?_⟩, ?_, ?_⟩ <;> simp [Plain, h.1]

theorem Nap.Wf.quit_next (h : z.Wf) : (Pc.killedRead p z).Next z.quit := by
  unfold Nap.quit
  split <;> refine ⟨⟨?_, ?_, ?_, ?_, ?_⟩, ?_, ?_⟩ <;> simp [Plain, h.1]

/-- What follows `wakeup` is at a place of its caller. -/
theorem WakeRet.next_next (κ : WakeRet) : (Pc.wakeAcq k chan κ).Next κ.next := by
  cases κ <;> refine ⟨⟨?_, ?_, ?_, ?_, ?_⟩, ?_, ?_⟩ <;> simp [WakeRet.next]

/-! ## No step panics -/

theorem advance_safe (h : Inv s) (c : Nat) : Safe (advance s c) := by
  unfold advance
  cases hx : s.pc c with dsimp only
  | run held => trivial
  | schedTop =>
    have hintr : Inv { s with intr := update s.intr c true } :=
      ⟨h.locks.setIntr (by rw [h.locks.noff, hx]; rfl) true, h.modes⟩
    exact hintr.goto_next hx rfl {}
  | schedAcq k =>
    split
    · exact h.lock_next hx (by simp) rfl {}
    · exact h.goto_next hx rfl {}
  | schedTest k =>
    split
    · rename_i hk
      exact schedTest_safe h hx hk
    · exact h.unlock_next hx (List.Perm.refl _) {}
  | schedBack k => exact schedBack_scheduler_safe h hx
  | yieldAcq p | forkParent p np | forkReady p np | exitAcq p | exitLock p | waitAcq p copy =>
    exact h.lock_next hx (by simp) rfl {}
  | yieldSet p =>
    exact goto_leave_safe h (by simp [hx]) (h.leave hx (by simp) (by simp) (by simp) rfl {} (.inl rfl))
  | sleepAcq p z =>
    have hz := h.nap_wf hx (.inl rfl)
    exact h.lock_next hx (by simp [hz.ne_proc]) rfl {}
  | sleepRel p z =>
    exact h.unlock_next hx (List.Perm.swap _ _ _) {}
  | sleepSet p z =>
    exact goto_leave_safe h (by simp [hx]) (h.leave hx (by simp) (by simp) (by simp +contextual) rfl {} (.inr rfl))
  | sleepRe p z =>
    have hz := h.nap_wf hx (.inr (.inr (.inl rfl)))
    exact h.lock_next hx (by simp) hz.next_locks hz.next_next
  | sched p κ => exact sched_safe h hx
  | away p κ b => exact schedBack_safe h hx
  | forkret p | waitRet =>
    exact h.unlock_next hx (List.Perm.refl _)
      { of := by simp [Plain] }
  | killedAcq p z =>
    have hz := h.nap_wf hx (.inr (.inr (.inr (.inl rfl))))
    exact h.lock_next hx (by simp [hz.ne_proc]) rfl {}
  | killedRead p z =>
    have hz := h.nap_wf hx (.inr (.inr (.inr (.inr rfl))))
    split
    · exact h.unlock_next hx (by rw [hz.quit_locks]; exact List.Perm.refl _) hz.quit_next
    · exact h.unlock_next hx (List.Perm.refl _) {}
  | wakeAcq k chan κ =>
    have hκ := h.wake_plain hx
    have hnext : ∀ y, y = .wakeAcq (k + 1) chan κ ∨ y = .wakeSet k chan κ → (Pc.wakeAcq k chan κ).Next y := by
      intro y hy
      rcases hy with rfl | rfl <;> cases κ <;> refine ⟨⟨?_, ?_, ?_, ?_, ?_⟩, ?_, ?_⟩ <;> simp
    split
    · split
      · exact h.goto_next hx rfl (hnext _ (.inl rfl))
      · exact h.lock_next hx hκ.not_mem rfl (hnext _ (.inr rfl))
    · exact h.goto_next hx κ.locks_next κ.next_next
  | wakeSet k chan κ =>
    refine (h.wake chan).unlock_next hx (List.Perm.refl _) ?_
    cases κ <;> refine ⟨⟨?_, ?_, ?_, ?_, ?_⟩, ?_, ?_⟩ <;> simp
  | killAcq k pid | forkAcq p k mem =>
    split
    · exact h.lock_next hx (by simp) rfl {}
    · exact h.goto_next hx rfl { of := by simp [Plain] }
  | killTest k pid =>
    split
    · exact h.kill.unlock_next hx (List.Perm.refl _)
        { of := by simp [Plain] }
    · exact h.unlock_next hx (List.Perm.refl _) {}
  | forkTest p k mem =>
    split
    · rename_i hk
      exact forkTest_safe h hx hk
    · exact h.unlock_next hx (List.Perm.refl _) {}
  | forkUsed p k mem =>
    cases mem with
    | true => exact h.unlock_next hx (List.Perm.refl _) {}
    | false => exact forked_safe h (.inr hx) (by simp [freeproc])
  | forkLink p np =>
    have hset := h.set_same (k := np) (v := { s.slot np with parent := some p }) rfl
    exact hset.unlock_next hx (List.Perm.refl _) {}
  | forkSet p np => exact forked_safe h (.inl hx) (by simp)
  | reparent p k =>
    split
    · split
      · have hset := h.set_same (k := k) (v := { s.slot k with parent := some initproc }) rfl
        exact hset.goto_next hx rfl {}
      · exact h.goto_next hx rfl {}
    · exact h.goto_next hx rfl {}
  | exitSet p =>
    exact unlockTo_safe h.locks (fun _ e => h.modes.inj e) (hx ▸ List.Perm.swap _ _ _) rfl
      (h.leave hx (by simp) (by simp) (by simp) rfl {} rfl)
  | waitScan p k havekids copy =>
    split
    · split
      · exact h.lock_next hx (by simp) rfl {}
      · exact h.goto_next hx rfl {}
    · split
      · exact h.goto_next hx rfl
          { of := by simp [Nap.Wf, Lock.isProc] }
      · exact h.goto_next hx rfl {}
  | waitTest p k copy =>
    split
    · rename_i hk
      split
      · exact waitTest_safe h hx hk
      · exact h.unlock_next hx (List.Perm.refl _) {}
    · exact h.unlock_next hx (List.Perm.refl _) {}

/-! ## Calls and interrupts -/

/-- The current process of a CPU in other code is the one whose thread it runs. -/
theorem Inv.current (h : Inv s) (hp : s.proc c = some p) (hx : s.pc c = .run held) : s.on c = .proc p := by
  rcases h.modes.self c with hc | ⟨q, hc⟩
  · have hnone := h.proc_none hc (by simp [hx])
    rw [hp] at hnone
    cases hnone
  · have hq := h.modes.home c q hc
    rw [hp] at hq
    rw [hc, Option.some.inj hq]

theorem call_safe {f : Nat → Pc} (h : Inv s)
    (hof : ∀ p, Plain held → (f p).Of p) (hlocks : ∀ p, (f p).locks = held) (hleaves : ∀ p, (f p).leaves = false)
    (hforks : ∀ p, (f p).forks = none) : Safe (call s c held f) := by
  unfold call
  cases hcall : s.caller c with
  | none => trivial
  | some p =>
    dsimp only
    split
    · rename_i hx
      unfold St.caller at hcall
      split at hcall
      · rename_i hirqs
        have hc := h.current hcall hx
        refine goto_safe h (by rw [hlocks, hx]; rfl) (h.modes.thread (Thread.At.goto_base hirqs ?_) ?_ ?_ ?_ ?_)
        · have hb := (h.modes.place (s.on c)).base
          rw [hc] at hb ⊢
          have hbase : (s.thr (.proc p)).base = .run held := by
            rw [hc] at hirqs
            rw [← Thread.pc_nil hirqs, ← hc]
            exact hx
          dsimp only at hb
          rw [hbase] at hb
          exact hof p hb
        · change (s.pc c).leaves = false
          rw [hx]
          rfl
        · rw [Thread.goto_pc]
          exact hleaves p
        · intro hcpu
          rw [hc] at hcpu
          cases hcpu
        · intro np hnp
          rw [Thread.goto_nil hirqs] at hnp
          rw [hforks p] at hnp
          cases hnp
      · cases hcall
    · trivial

theorem yield_safe (h : Inv s) (hp : s.proc c = some p) (hx : s.pc c = .run []) : Inv (s.goto c (.yieldAcq p)) := by
  have hc := h.current hp hx
  refine goto_safe h (by rw [hx]; rfl) (h.modes.thread ?_ ?_ ?_ ?_ ?_)
  · cases hirqs : (s.thr (s.on c)).irqs with
    | nil =>
      refine Thread.At.goto_base hirqs ?_
      rw [hc]
      rfl
    | cons z rest => exact (h.modes.place _).goto_irq hirqs (.inr ⟨p, hc, rfl⟩)
  · change (s.pc c).leaves = false
    rw [hx]
    rfl
  · rw [Thread.goto_pc]
    rfl
  · intro hcpu
    rw [hc] at hcpu
    cases hcpu
  · intro np hnp
    refine .inl (Thread.forks_goto ?_ hnp)
    simp

/-- A place without a lock is not one where a thread is about to switch. -/
theorem Pc.leaves_of_locks (hx : x.locks = []) : x.leaves = false := by
  cases x <;> simp_all

/-- An interrupt comes when no lock is held. -/
theorem intr_safe (h : Inv s) (hi : s.intr c = true) : Inv { s with
      intr := update s.intr c false
      thr := update s.thr (s.on c) { s.thr (s.on c) with irqs := .run [] :: (s.thr (s.on c)).irqs } } := by
  have hnil : (s.pc c).locks = [] := by
    by_contra hne
    have := h.locks.quiet c (by rw [h.locks.noff]; exact List.length_pos_iff.mpr hne)
    rw [hi] at this
    cases this
  have hat := h.modes.place (s.on c)
  refine ⟨h.same_locks (h.locks.setIntr (by rw [h.locks.noff, hnil]; rfl) false) hnil.symm, ?_⟩
  · refine h.modes.thread ⟨hat.base, ?_, ?_⟩ (Pc.leaves_of_locks hnil) rfl (fun hc => h.proc_none hc ?_)
      fun np hnp => .inl hnp
    · intro z hz
      rcases List.mem_cons.mp hz with rfl | hz
      · exact .inl (by simp [Plain])
      · exact hat.irqs z hz
    · -- the frame that is interrupted, and those below it
      intro z hz
      change z ∈ (s.thr (s.on c)).irqs ++ [(s.thr (s.on c)).base] at hz
      unfold St.pc at hnil
      have hunder := hat.under z
      unfold Thread.under at hunder
      cases hirqs : (s.thr (s.on c)).irqs with
      | nil =>
        rw [hirqs] at hz
        rw [Thread.pc_nil hirqs] at hnil
        rwa [List.mem_singleton.mp hz]
      | cons w rest =>
        rw [hirqs] at hz hunder
        rw [Thread.pc_cons hirqs] at hnil
        rcases List.mem_cons.mp hz with rfl | hz
        · exact hnil
        · exact hunder hz
    · intro k hk
      rw [hk] at hnil
      cases hnil

theorem iret_safe (h : Inv s) (hr : (s.thr (s.on c)).irqs = .run [] :: rest) : Inv { s with
      intr := update s.intr c true
      thr := update s.thr (s.on c) { s.thr (s.on c) with irqs := rest } } := by
  have hat := h.modes.place (s.on c)
  have hx : s.pc c = .run [] := Thread.pc_cons hr
  have hunder : ∀ z ∈ rest ++ [(s.thr (s.on c)).base], z.locks = [] := by
    intro z hz
    have hu := hat.under z
    unfold Thread.under at hu
    rw [hr] at hu
    exact hu hz
  have hpc : (Thread.pc { s.thr (s.on c) with irqs := rest }).locks = [] := by
    cases rest with
    | nil | cons w rest => exact hunder _ (by simp [Thread.pc])
  have hnil : (s.pc c).locks = [] := hx ▸ rfl
  refine ⟨h.same_locks (h.locks.setIntr (by rw [h.locks.noff, hnil]; rfl) true) (hpc.trans hnil.symm), ?_⟩
  · refine h.modes.thread ⟨hat.base, ?_, ?_⟩ (by change (s.pc c).leaves = false; rw [hx]; rfl) (Pc.leaves_of_locks hpc)
      (fun hc => h.proc_none hc (by simp [hx])) fun np hnp => .inl hnp
    · intro z hz
      exact hat.irqs z (hr ▸ List.mem_cons_of_mem _ hz)
    · intro z hz
      refine hunder z ?_
      unfold Thread.under at hz
      cases rest with
      | nil => exact absurd hz List.not_mem_nil
      | cons w rest => exact List.mem_cons_of_mem _ hz

theorem exec_safe (h : Inv s) (a : Act) : Safe (exec s a) := by
  cases a with
  | step c => exact advance_safe h c
  | acquire c l =>
    dsimp only [exec]
    cases hx : s.pc c with
    | run held =>
      dsimp only
      split
      · trivial
      · rename_i hl
        obtain ⟨hproc, hmem⟩ := not_or.mp hl
        have hplain : Plain held → Plain (l :: held) := by
          intro hp m hm
          rcases List.mem_cons.mp hm with rfl | hm
          · simpa using hproc
          · exact hp m hm
        exact h.lock_next hx hmem rfl { of := fun _ => hplain, serves := hplain }
    | _ => trivial
  | release c l =>
    dsimp only [exec]
    cases hx : s.pc c with
    | run held =>
      dsimp only
      split
      · rename_i hl
        have hplain : Plain held → Plain (held.erase l) := fun hp m hm => hp m (List.mem_of_mem_erase hm)
        exact h.unlock_next hx (List.perm_cons_erase hl) { of := fun _ => hplain, serves := hplain }
      · trivial
    | _ => trivial
  | yield c =>
    dsimp only [exec]
    cases hp : s.proc c with
    | none => trivial
    | some p =>
      dsimp only
      split
      · rename_i hx
        exact yield_safe h hp hx
      · trivial
  | sleep c chan l | poll c chan l =>
    dsimp only [exec]
    split
    · trivial
    · rename_i hl
      exact call_safe h (by simp [Nap.Wf, hl]) (by simp) (by simp) (by simp)
  | wakeup c chan =>
    dsimp only [exec]
    cases hx : s.pc c with
    | run held => exact h.goto_next hx rfl {}
    | _ => trivial
  | kill c pid | fork c mem | wait c copy => exact call_safe h (by simp) (by simp) (by simp) (by simp)
  | exit c =>
    dsimp only [exec]
    split
    · rfl
    · exact call_safe h (by simp) (by simp) (by simp) (by simp)
  | setIntr c b =>
    dsimp only [exec]
    split
    · rename_i hx
      exact ⟨h.locks.setIntr (by rw [h.locks.noff, hx.2]; rfl) b, h.modes⟩
    · trivial
  | intr c =>
    dsimp only [exec]
    split
    · rename_i hi
      exact intr_safe h hi
    · trivial
  | iret c =>
    dsimp only [exec]
    split
    · rename_i rest hr
      exact iret_safe h hr
    · trivial

/-- Every state of a run meets the invariant. -/
theorem reach_inv {ok : St → Act → Prop} (h : Reach step ok init s) : Inv s := by
  refine h.inv init_inv ?_
  intro s a s' hi _ hs
  have hsafe := exec_safe hi a
  unfold step at hs
  cases he : exec s a with
  | ok t =>
    rw [he] at hs hsafe
    cases hs
    exact hsafe
  | error e =>
    rw [he] at hs
    cases hs

end Xv6.Sched
