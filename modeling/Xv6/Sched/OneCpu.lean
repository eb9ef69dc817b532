/-
  Xv6.Sched.OneCpu — a process is on one CPU at a time.

  Only a CPU that holds `p->lock` changes the state of a process (`advance_state`). A process that has left
  RUNNING holds its lock until its CPU is off its stack, and the scheduler of that CPU holds it from there:
  so neither another scheduler nor `wait` gets at a process whose stack is in use (`one_cpu_per_process`). The states
  follow one another as in `Turns` (`process_states`).
-/

import Xv6.Sched.Safe

namespace Xv6.Sched

open Xv6.Lib
open Xv6.Proc (PState Chan initproc pidAfter)

variable {s s' : St} {a : Act} {c k p : Nat} {l : Lock} {y : Pc}

/-! ## Who changes a slot -/

theorem lockTo_slot (h : lockTo s c l y = .ok s') : s'.slot = s.slot := by
  unfold lockTo acquire at h
  split at h
  · cases h
  · split at h
    · cases h
    · cases h
      rfl

theorem unlockTo_slot (h : unlockTo s c l y = .ok s') : s'.slot = s.slot := by
  unfold unlockTo release popOff at h
  split at h
  · cases h
  · split at h
    · cases h
    · split at h
      · cases h
      · cases h
        rfl

/-- A change of slot `k` alone. -/
theorem set_slot_ne {v : Slot} (h : ((s.set p v).slot k).state ≠ (s.slot k).state) : k = p := by
  by_contra hk
  exact h (congrArg Slot.state (update_of_ne hk _ _))

theorem set_state_same {v : Slot} (hv : v.state = (s.slot p).state) :
    ((s.set p v).slot k).state = (s.slot k).state := by
  by_contra hne
  obtain rfl := set_slot_ne hne
  refine hne (Eq.trans ?_ hv)
  exact congrArg Slot.state (update_self k v s.slot)

theorem call_slot {held : List Lock} {f : Nat → Pc} (h : call s c held f = .ok s') : s'.slot = s.slot := by
  unfold call at h
  split at h
  · split at h
    · cases h
      rfl
    · cases h
  · cases h

theorem schedBack_slot {κ : After} {b : Bool} (h : schedBack s c p κ b = .ok s') :
    (s'.slot k).state = (s.slot k).state := by
  unfold schedBack at h
  cases κ with
  | yield => rw [unlockTo_slot h]
  | sleep z =>
    rw [unlockTo_slot h]
    exact set_state_same rfl
  | exit => cases h

theorem sched_slot {κ : After} (h : sched s c p κ = .ok s') : s'.slot = s.slot := by
  unfold sched at h
  repeat' split at h
  all_goals cases h
  rfl

/-- A process's state is changed by a CPU that holds its lock, and not in `sched`. -/
theorem advance_state (hs : advance s c = .ok s') (hk : (s'.slot k).state ≠ (s.slot k).state) :
    .proc k ∈ (s.pc c).locks ∧ (s.pc c).leaves = false := by
  have hlock : ∀ {l y}, lockTo s c l y = .ok s' → False := fun h => hk (by rw [lockTo_slot h])
  have hunlock : ∀ {l y}, unlockTo s c l y = .ok s' → False := fun h => hk (by rw [unlockTo_slot h])
  have hgoto : ∀ {y}, s.goto c y = s' → False := fun h => hk (by rw [← h]; rfl)
  have hset : ∀ {p v l y}, unlockTo (s.set p v) c l y = .ok s' → k = p := fun h =>
    set_slot_ne (by rw [unlockTo_slot h] at hk; exact hk)
  unfold advance at hs
  cases hx : s.pc c with simp only [hx] at hs
  -- the steps that change no slot
  | schedAcq j | yieldAcq p | sleepAcq p z | sleepRel p z | sleepRe p z | forkret p | wakeAcq j chan κ
  | killAcq j pid | killedAcq p z | killedRead p z | forkAcq p j mem | forkParent p np | forkReady p np | exitAcq p
  | exitLock p | waitAcq p copy | waitScan p j havekids copy | waitRet =>
    repeat' split at hs
    all_goals first | exact (hlock hs).elim | exact (hunlock hs).elim | exact (hgoto (Except.ok.inj hs)).elim
  | run held => cases hs
  | schedTop =>
    cases hs
    exact absurd rfl hk
  | schedBack j => exact absurd (by rw [unlockTo_slot hs]) hk
  | schedTest j =>
    split at hs
    · cases hs
      obtain rfl : k = j := set_slot_ne (s := s) hk
      simp
    · exact (hunlock hs).elim
  | yieldSet p | sleepSet p z =>
    cases hs
    obtain rfl : k = p := set_slot_ne (s := s) hk
    simp
  | sched p κ => exact absurd (by rw [sched_slot hs]) hk
  | away p κ b => exact absurd (schedBack_slot hs) hk
  | wakeSet j chan κ | forkSet p np | exitSet p =>
    obtain rfl := hset hs
    simp
  | killTest j pid | forkUsed p j mem | waitTest p j copy =>
    repeat' split at hs
    all_goals first
      | exact (hunlock hs).elim
      | obtain rfl := hset hs
        simp
  | forkTest p j mem =>
    split at hs
    · cases hs
      obtain rfl : k = j := set_slot_ne (s := s) hk
      simp
    · exact (hunlock hs).elim
  | forkLink p np =>
    rw [unlockTo_slot hs] at hk
    exact (hk (set_state_same rfl)).elim
  | reparent p j =>
    split at hs
    · split at hs
      · cases hs
        exact (hk (set_state_same rfl)).elim
      · exact (hgoto (Except.ok.inj hs)).elim
    · exact (hgoto (Except.ok.inj hs)).elim

/-- The CPU that acts. -/
def Act.cpu : Act → Nat
  | .step c | .acquire c _ | .release c _ | .yield c | .sleep c .. | .poll c .. | .wakeup c _ | .kill c _
  | .fork c _ | .exit c | .wait c _ | .setIntr c _ | .intr c | .iret c => c

/-- Calls and interrupts change no slot. -/
theorem exec_slot (hs : exec s a = .ok s') (ha : ∀ c, a ≠ .step c) : s'.slot = s.slot := by
  cases a with
  | step c => exact absurd rfl (ha c)
  | acquire c l =>
    dsimp only [exec] at hs
    repeat' split at hs
    all_goals first | exact lockTo_slot hs | cases hs
  | release c l =>
    dsimp only [exec] at hs
    repeat' split at hs
    all_goals first | exact unlockTo_slot hs | cases hs
  | sleep c chan l | poll c chan l | exit c =>
    dsimp only [exec] at hs
    split at hs
    · cases hs
    · exact call_slot hs
  | kill c pid | fork c mem | wait c copy => exact call_slot hs
  | yield c | wakeup c chan | setIntr c b | intr c | iret c =>
    dsimp only [exec] at hs
    repeat' split at hs
    all_goals cases hs
    all_goals rfl

theorem exec_state (hs : exec s a = .ok s') (hk : (s'.slot k).state ≠ (s.slot k).state) :
    .proc k ∈ (s.pc a.cpu).locks ∧ (s.pc a.cpu).leaves = false := by
  by_cases ha : ∃ c, a = .step c
  · obtain ⟨c, rfl⟩ := ha
    exact advance_state hs hk
  · exact absurd (by rw [exec_slot hs fun c e => ha ⟨c, e⟩]) hk

theorem step_exec (h : step s a = some s') : exec s a = .ok s' := by
  unfold step at h
  cases he : exec s a with
  | ok t =>
    rw [he] at h
    exact congrArg Except.ok (Option.some.inj h)
  | error e =>
    rw [he] at h
    cases h

/-! ## One CPU per process -/

structure OneCpu (s : St) : Prop where
  /-- No process is the current one of two CPUs. -/
  current : ∀ c d p, s.proc c = some p → s.proc d = some p → c = d
  running : ∀ p, (s.slot p).state = .running → ∃! c, s.proc c = some p
  /-- From the end of RUNNING to the switch, `p->lock` is held and no other CPU is on the stack. -/
  locked : ∀ c p, s.on c = .proc p → (s.slot p).state ≠ .running →
    s.lock (.proc p) = some c ∧ ∀ d, s.on d = .proc p → d = c
  /-- What `wait` frees is on no stack. -/
  reaped : ∀ a s' p, step s a = some s' → (s.slot p).state = .zombie → (s'.slot p).state ≠ .zombie →
    ∀ c, s.on c ≠ .proc p
  /-- Of all panics, those of `sched` among them, only that of `exit` in `init` can come. -/
  panics : ∀ a e, exec s a = .error (.panic e) → e = .initExiting

theorem Inv.current_unique (h : Inv s) {d : Nat} (hc : s.proc c = some p) (hd : s.proc d = some p) : c = d := by
  by_cases hon : s.on d = .proc p
  · exact h.modes.sole c d p hc hon
  · by_cases hon' : s.on c = .proc p
    · exact (h.modes.sole d c p hd hon').symm
    · -- both are back from the process, with its lock
      have hback := h.back_pc hd hon
      exact h.lock_of_proc hc hon' (by simp [hback])

theorem Inv.lock_of_leaving (h : Inv s) (hc : s.on c = .proc p) (hp : (s.slot p).state ≠ .running) :
    s.lock (.proc p) = some c := by
  rcases h.modes.live c p hc with ⟨hr, _⟩ | ⟨κ, hpc, _⟩
  · exact absurd hr hp
  · refine (h.locks.held c _).mpr ?_
    unfold St.pc
    rw [hc, hpc]
    exact List.mem_cons_self

theorem one_cpu_per_process (h : Reach step (fun _ _ => True) init s) : OneCpu s := by
  have hi := reach_inv h
  refine ⟨fun c d p => hi.current_unique, ?_, ?_, ?_, ?_⟩
  · intro p hp
    have hon : ∃ c, s.on c = .proc p := by
      by_contra hno
      exact (hi.modes.off p fun c hc => hno ⟨c, hc⟩).1 hp
    obtain ⟨c, hc⟩ := hon
    have hproc := hi.modes.home c p hc
    exact ⟨c, hproc, fun d hd => hi.current_unique hd hproc⟩
  · intro c p hc hp
    exact ⟨hi.lock_of_leaving hc hp, fun d hd => hi.modes.alone d c p hd hc⟩
  · intro a s' p hs hz hne
    obtain ⟨hl, hleaves⟩ := exec_state (step_exec hs) (by rw [hz]; exact hne)
    exact hi.off_cpu hl (by simp [hz]) hleaves
  · intro a e he
    have hsafe := exec_safe hi a
    rw [he] at hsafe
    exact hsafe

/-- CPU 0 has switched to `init`. -/
def booted : List Act := [.step 0, .step 0, .step 0]

theorem one_cpu_per_process_booted : ∃ s, Reach step (fun _ _ => True) init s ∧ s.proc 0 = some initproc ∧
    (s.slot initproc).state = .running ∧ OneCpu s := by
  have hrun : (run step init booted).map (fun s => (s.proc 0, (s.slot initproc).state)) =
      some (some initproc, .running) := by
    decide +kernel
  obtain ⟨s, hs, hv⟩ := Option.map_eq_some_iff.mp hrun
  have hreach : Reach step (fun _ _ => True) init s := reach_of_run (fun _ _ _ => trivial) hs
  exact ⟨s, hreach, congrArg Prod.fst hv, congrArg Prod.snd hv, one_cpu_per_process hreach⟩

/-! ## The states of a process -/

/-- The changes of a process's state, by the function that makes them; `kill` wakes too. `allocproc` and `fork` call
`freeproc` when there is no memory, and so does `wait`. -/
inductive Turns : PState → PState → Prop
  | allocproc : Turns .unused .used
  | freeproc : Turns .used .unused
  | fork : Turns .used .runnable
  | scheduler : Turns .runnable .running
  | yield : Turns .running .runnable
  | sleep : Turns .running .sleeping
  | wakeup : Turns .sleeping .runnable
  | exit : Turns .running .zombie
  | wait : Turns .zombie .unused

/-- In its own code a process is RUNNING, up to `sched`. -/
theorem Inv.running {x : Pc} (h : Inv s) (hx : s.pc c = x) (h1 : ¬ x.Schedules) (h2 : ¬ x.Serves)
    (hown : ∀ q, x.Of q ∨ x.Yields q → p = q) (hl : x.leaves = false) :
    (s.slot p).state = .running ∧ s.on c = .proc p := by
  obtain ⟨q, hc, hq⟩ := h.process hx h1 h2
  obtain rfl := hown q hq
  refine ⟨?_, hc⟩
  rcases h.modes.live c p hc with ⟨hr, _⟩ | ⟨κ, hpc, _⟩
  · exact hr
  · unfold St.pc at hx
    rw [hc, hpc] at hx
    subst hx
    cases hl

/-- What `fork` makes RUNNABLE or gives up is what it has allocated. -/
theorem Inv.forked_used (h : Inv s) (hx : s.pc c = .forkSet p k ∨ s.pc c = .forkUsed p k false) :
    (s.slot k).state = .used := by
  obtain ⟨-, q, -, hforks⟩ : (s.thr (s.on c)).irqs = [] ∧ ∃ q, s.on c = .proc q ∧ (s.thr (.proc q)).base.forks = some k := by
    rcases hx with hx | hx <;> exact h.forking hx rfl (by simp) (by simp) (by simp)
  exact h.modes.born q k hforks

theorem Inv.advance_turns (h : Inv s) (hs : advance s c = .ok s') (hk : (s'.slot k).state ≠ (s.slot k).state) :
    Turns (s.slot k).state (s'.slot k).state ∧ ((s.slot k).state = .running → s.on c = .proc k) := by
  have hlock := (advance_state hs hk).1
  have hsame : s'.slot = s.slot → False := fun e => hk (by rw [e])
  suffices hturn : ∃ v : Slot, s'.slot = update s.slot k v ∧
      Turns (s.slot k).state v.state ∧ ((s.slot k).state = .running → s.on c = .proc k) by
    obtain ⟨v, he, hv⟩ := hturn
    rwa [he, update_self]
  unfold advance at hs
  cases hx : s.pc c with simp only [hx] at hs hlock
  | run held => cases hs
  | schedTop | schedAcq j | yieldAcq p | sleepRe p z | killAcq j pid | forkAcq p j mem | forkParent p np | forkLink p np
  | forkReady p np | exitAcq p | reparent p j | waitAcq p copy | waitScan p j havekids copy | waitRet => simp at hlock
  -- the steps under a lock that change no state
  | sleepAcq p z | killedAcq p z | exitLock p => exact (hsame (lockTo_slot hs)).elim
  | sleepRel p z | forkret p | killedRead p z | schedBack j => exact (hsame (unlockTo_slot hs :)).elim
  | sched p κ => exact (hsame (sched_slot hs)).elim
  | away p κ b => exact absurd (schedBack_slot hs) hk
  | wakeAcq j chan κ =>
    repeat' split at hs
    all_goals first | exact (hsame (lockTo_slot hs)).elim | exact (hsame (by cases hs; rfl)).elim
  -- a process leaves RUNNING
  | yieldSet p | sleepSet p z =>
    obtain rfl : k = p := by simpa using hlock
    obtain ⟨hr, hc⟩ := h.running (p := k) hx (by simp) (by simp) (by simp +contextual) rfl
    cases hs
    exact ⟨_, rfl, by rw [hr]; constructor, fun _ => hc⟩
  | exitSet p =>
    obtain rfl : k = p := by simpa using hlock
    obtain ⟨hr, hc⟩ := h.running (p := k) hx (by simp) (by simp) (by simp) rfl
    exact ⟨_, unlockTo_slot hs, by rw [hr]; exact .exit, fun _ => hc⟩
  -- what is done to another process
  | schedTest j =>
    obtain rfl : k = j := by simpa using hlock
    split at hs
    · rename_i hr
      cases hs
      exact ⟨_, rfl, by rw [hr]; exact .scheduler, by simp [hr]⟩
    · exact (hsame (unlockTo_slot hs)).elim
  | wakeSet j chan κ =>
    have he := unlockTo_slot hs
    obtain rfl : k = j := set_slot_ne (by rw [he] at hk; exact hk)
    unfold Slot.wake at he
    split at he
    · rename_i hr
      exact ⟨_, he, by rw [hr.1]; exact .wakeup, by simp [hr.1]⟩
    · exact absurd (by rw [he]; exact set_state_same rfl) hk
  | killTest j pid =>
    obtain rfl : k = j := by simpa using hlock
    split at hs
    · have he := unlockTo_slot hs
      unfold Slot.kill at he
      split at he
      · rename_i hr
        exact ⟨_, he, by rw [hr]; exact .wakeup, by simp [hr]⟩
      · exact absurd (by rw [he]; exact set_state_same rfl) hk
    · exact (hsame (unlockTo_slot hs)).elim
  | forkTest p j mem =>
    obtain rfl : k = j := by simpa using hlock
    split at hs
    · rename_i hu
      cases hs
      exact ⟨_, rfl, by rw [hu]; exact .allocproc, by simp [hu]⟩
    · exact (hsame (unlockTo_slot hs)).elim
  | forkUsed p j mem =>
    obtain rfl : k = j := by simpa using hlock
    cases mem with
    | true => exact (hsame (unlockTo_slot hs)).elim
    | false =>
      have hu := h.forked_used (.inr hx)
      exact ⟨_, unlockTo_slot hs, by rw [hu]; exact .freeproc, by simp [hu]⟩
  | forkSet p np =>
    obtain rfl : k = np := by simpa using hlock
    have hu := h.forked_used (.inl hx)
    exact ⟨_, unlockTo_slot hs, by rw [hu]; exact .fork, by simp [hu]⟩
  | waitTest p j copy =>
    obtain rfl : k = j := by simpa using hlock
    repeat' split at hs
    · rename_i hz _
      exact ⟨_, unlockTo_slot hs, by rw [hz]; exact .wait, by simp [hz]⟩
    all_goals exact (hsame (unlockTo_slot hs)).elim

/-- In every run a process's state changes only along `Turns` and under its lock, and only the process itself
leaves RUNNING. -/
theorem process_states (h : Reach step (fun _ _ => True) init s) (hs : step s a = some s')
    (hk : (s'.slot k).state ≠ (s.slot k).state) :
    Turns (s.slot k).state (s'.slot k).state ∧ s.lock (.proc k) = some a.cpu ∧
      ((s.slot k).state = .running → s.on a.cpu = .proc k) := by
  have hi := reach_inv h
  have he := step_exec hs
  have hlock := (hi.locks.held a.cpu _).mpr (exec_state he hk).1
  by_cases ha : ∃ c, a = .step c
  · obtain ⟨c, rfl⟩ := ha
    obtain ⟨hturns, hself⟩ := hi.advance_turns he hk
    exact ⟨hturns, hlock, hself⟩
  · exact absurd (by rw [exec_slot he fun c e => ha ⟨c, e⟩]) hk

/-- `init` forks with no memory left, up to the slot that is USED. -/
def forksInVain : List Act := booted ++ [.step 0, .fork 0 false, .step 0, .step 0, .step 0, .step 0]

/-- The slot is given back. -/
theorem process_states_in_vain : ∃ s s', Reach step (fun _ _ => True) init s ∧ step s (.step 0) = some s' ∧
    (s.slot 1).state = .used ∧ (s'.slot 1).state = .unused ∧ Turns (s.slot 1).state (s'.slot 1).state ∧
    s.lock (.proc 1) = some 0 := by
  obtain ⟨s, hs, s', hs', hused, hfree⟩ : ∃ s, run step init forksInVain = some s ∧ ∃ s', step s (.step 0) = some s' ∧
      (s.slot 1).state = .used ∧ (s'.slot 1).state = .unused :=
    ⟨_, rfl, _, rfl, by decide +kernel, by decide +kernel⟩
  have hreach : Reach step (fun _ _ => True) init s := reach_of_run (fun _ _ _ => trivial) hs
  obtain ⟨hturns, hlock, -⟩ := process_states hreach hs' (by rw [hused, hfree]; simp)
  exact ⟨s, s', hreach, hs', hused, hfree, hturns, hlock⟩

end Xv6.Sched
