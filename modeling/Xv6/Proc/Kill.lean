/-
  Xv6.Proc.Kill — `kill` and the slots that are not in use.

  An unused slot has pid 0, so `kill(0)` finds one: it sets `killed` there and returns 0.
  `allocproc` does not clear the field, and the next process in the slot is terminated by
  its first trap.

  Proved:
  - `kill_touches_live_iff`: in a run whose calls of `kill` match no unused slot (`Sound`),
    `kill` returns 0 only for a process in the table and changes no other slot, a new process
    starts with `killed` clear, and `usertrap` terminates only a process that faulted or whose
    pid `kill` was called with. A step that breaks the condition breaks one of these.
  - `named_kills_live`: calls with pids other than 0 meet the condition, since an unused slot has pid 0.
  - `kill_zero_terminates_a_child`: a child that nobody killed is terminated.
-/

import Xv6.Proc.Table

namespace Xv6.Proc

open Xv6.Lib

/-- The slot that a `kill` matches is in use. -/
def Sound (s : St) (a : Act) : Prop :=
  ∀ p k pid, a = .step p → (s.slot p).pc = .killScan k pid → k < nproc → (s.slot k).pid = pid →
    (s.slot k).state ≠ .unused

/-- What the step from `s` to `s'` respects. -/
structure KillsLive (s : St) (a : Act) (s' : St) : Prop where
  /-- A step of `kill(pid)` changes its caller alone and does not return 0, or it returns 0 with `killed` set in one
      slot, which is in use and has the pid. -/
  kill : ∀ p k pid, a = .step p → (s.slot p).pc = .killScan k pid →
    ((∀ q, q ≠ p → s'.slot q = s.slot q) ∧ (s'.slot p).killed = (s.slot p).killed ∧
      ((s'.slot p).pc = .user → (s'.slot p).ret = -1)) ∨
    ((s'.slot p).pc = .user ∧ (s'.slot p).ret = 0 ∧
      ∃ q, (s.slot q).state ≠ .unused ∧ (s.slot q).pid = pid ∧ (s'.slot q).killed = true ∧
        ∀ r, r ≠ q → (s'.slot r).killed = (s.slot r).killed ∧ (r ≠ p → s'.slot r = s.slot r))
  /-- A process starts with `killed` clear. -/
  fork : ∀ q, (s.slot q).state = .unused → (s'.slot q).state ≠ .unused → (s'.slot q).killed = false
  /-- `usertrap` terminates a process only for its own fault, or after a `kill` with its pid. -/
  exit : ∀ p, a = .trap p → (s.slot p).blamed = true

/-- A slot whose `killed` is set is in use, and its process was to be killed. -/
def Slot.Just (x : Slot) : Prop := x.killed = true → x.state ≠ .unused ∧ x.blamed = true

section

variable {s s' : St} {a : Act}

theorem Slot.Just.wake {x : Slot} (h : x.Just) (c : Option Chan) : (x.wake c).Just := by
  unfold Slot.wake
  split
  · exact fun hk => ⟨by simp, (h hk).2⟩
  · exact h

theorem just_wakeup (h : ∀ q, (s.slot q).Just) (p j : Nat) (c : Option Chan) (q : Nat) :
    ((s.wakeup p j c).slot q).Just := by
  rw [slot_wakeup]
  split
  · exact (h q).wake c
  · exact h q

theorem just_step (h : ∀ q, (s.slot q).Just) (hs : Step s a s') (hok : Sound s a) : ∀ q, (s'.slot q).Just := by
  cases hs with
  | call p x | pass p y | missing p | exitAcq p | waitAcq p | waitRet p => exact forall_set h (h p)
  | fault p hi => exact forall_set h fun _ => ⟨by simp [hi.1.2], rfl⟩
  | quiet p y a hp hy =>
    refine forall_set h fun hk => ?_
    rw [hy.same] at hk
    refine ⟨fun hu => ?_, ?_⟩
    · have hlive := hy.live.2
      rw [hu] at hlive
      cases hlive
    · rw [hy.same]
      exact (h p hk).2
  | alloc p k hp hpc hk hu =>
    -- the slot was not in use, so `killed` is clear
    have hclear : ¬ (s.slot k).killed = true := fun hkilled => (h k hkilled).1 hu
    have hset := forall_set (p := k) (x := allocated (s.slot k) s.nextpid s.born) h fun hkilled => absurd hkilled hclear
    exact forall_set hset (hset p)
  | allocFail p k | reap p k =>
    have hset := forall_set (p := k) (x := freeproc (s.slot k)) h fun hkilled => by cases hkilled
    exact forall_set hset (hset p)
  | forkParent p np =>
    have hset := forall_set (p := np) (x := { s.slot np with parent := some p }) h (h np)
    exact forall_set hset (hset p)
  | forkReady p np =>
    have hset := forall_set (p := np) (x := { s.slot np with state := .runnable }) h
      fun hkilled => ⟨by simp, (h np hkilled).2⟩
    exact forall_set hset (hset p)
  | reparent p k =>
    have hset := forall_set (p := k) (x := { s.slot k with parent := some initproc }) h (h k)
    exact forall_set hset (hset p)
  | rewake p k j =>
    have hwake := just_wakeup h p j (some (.proc initproc))
    exact forall_set hwake (hwake p)
  | exitWake p j parent =>
    have hwake := just_wakeup h p j (parent.map .proc)
    exact forall_set hwake (hwake p)
  | zombie p | waitSleep p => exact forall_set h fun hkilled => ⟨by simp, (h p hkilled).2⟩
  | killed p k pid hp hpc hk hpid =>
    have hu := hok p k pid rfl hpc hk hpid
    have hset := forall_set (p := k) (x := (s.slot k).kill) h fun _ => by
      refine ⟨?_, by simp [Slot.kill, hu]⟩
      simp only [Slot.kill]
      split <;> simp [hu]
    exact forall_set hset (hset p)

theorem just_reached (h : Reached Sound s) : ∀ q, (s.slot q).Just := by
  refine Reach.inv (I := fun s => ∀ q, (s.slot q).Just) h ?_ fun _ _ _ hi hok hs => just_step hi (step_of_act hs) hok
  intro q hk
  by_cases hq : q = initproc <;> simp [init, update, hq, blank] at hk

/-- A slot that comes into use keeps its `killed`. -/
theorem killed_of_alloc (hs : Step s a s') {q : Nat} (hu : (s.slot q).state = .unused)
    (hu' : (s'.slot q).state ≠ .unused) : (s'.slot q).killed = (s.slot q).killed := by
  have hset : ∀ {k : Nat} {x : Slot}, x.killed = (s.slot k).killed →
      ((s.set k x).slot q).killed = (s.slot q).killed := fun {k x} hx => by
    by_cases hq : q = k <;> simp [slot_set, hq, hx]
  have hfree : ∀ {k : Nat} {x : Slot}, x.state = .unused → ((s.set k x).slot q).state = .unused := fun {k x} hx => by
    by_cases hq : q = k <;> simp [slot_set, hq, hx, hu]
  cases hs with
  | fault p hi =>
    by_cases hq : q = p
    · rw [hq, hi.1.2] at hu
      cases hu
    · simp [slot_set, hq]
  | quiet p y a hp hy => exact hset (by rw [hy.same])
  | alloc p k | forkParent p np | reparent p k => exact (killed_goto ..).trans (hset rfl)
  | allocFail p k => exact absurd ((state_ret ..).trans (hfree rfl)) hu'
  | forkReady p np => exact (killed_ret ..).trans (hset rfl)
  | rewake p k j | exitWake p j => exact (killed_goto ..).trans (killed_wakeup ..)
  | zombie p => exact hset rfl
  | reap p k => exact absurd ((state_goto ..).trans (hfree rfl)) hu'
  | waitSleep p => exact hset rfl
  | killed p k pid hp hpc hk =>
    by_cases hq : q = k
    · subst hq
      refine absurd ((state_ret ..).trans (hfree ?_)) hu'
      simp [Slot.kill, hu]
    · simp [slot_set, hq]
  | _ => first | exact killed_goto .. | exact killed_ret ..

/-- What a step of `kill` does when its condition holds. -/
theorem kill_step {p k : Nat} {pid : Int} (hs : act s (.step p) = some s') (hpc : (s.slot p).pc = .killScan k pid) :
    (s' = (s.set k (s.slot k).kill).ret p 0 ∧ k < nproc ∧ (s.slot k).pid = pid ∧ (s.slot p).state = .running) ∨
    s' = s.goto p (.killScan (k + 1) pid) ∨ s' = s.ret p (-1) := by
  simp only [act, Option.ite_none_right_eq_some, advance, hpc] at hs
  obtain ⟨hp, hs⟩ := hs
  split at hs
  · split at hs <;> cases hs
    · exact Or.inl ⟨rfl, ‹_›, ‹_›, hp.2⟩
    · exact Or.inr (Or.inl rfl)
  · cases hs
    exact Or.inr (Or.inr rfl)

theorem KillsLive.of_sound (h : ∀ q, (s.slot q).Just) (hs : act s a = some s') (hok : Sound s a) :
    KillsLive s a s' where
  kill := by
    rintro p k pid rfl hpc
    obtain ⟨rfl, hk, hpid, hrun⟩ | rfl | rfl := kill_step hs hpc
    · refine Or.inr ⟨?_, ?_, k, hok p k pid rfl hpc hk hpid, hpid, ?_, fun r hr => ⟨?_, fun hrp => ?_⟩⟩
      · simp [slot_ret]
      · simp [slot_ret]
      · simp [slot_set, Slot.kill]
      · simp [slot_set, hr]
      · simp [slot_ret, slot_set, hr, hrp]
    · exact Or.inl ⟨fun q hq => by simp [slot_goto, hq], by simp, fun hx => by simp [slot_goto] at hx⟩
    · exact Or.inl ⟨fun q hq => by simp [slot_ret, hq], by simp, fun _ => by simp [slot_ret]⟩
  fork := fun q hu hu' => by
    rw [killed_of_alloc (step_of_act hs) hu hu', Bool.eq_false_iff]
    exact fun hk => (h q hk).1 hu
  exit := by
    rintro p rfl
    simp only [act, Option.ite_none_right_eq_some] at hs
    exact (h p hs.1.2.2).2

theorem KillsLive.sound (h : ∀ q, (s.slot q).Just) (hs : act s a = some s') (hl : KillsLive s a s') : Sound s a := by
  rintro p k pid rfl hpc hk hpid hu
  have hclear : (s.slot k).killed = false := by
    rw [Bool.eq_false_iff]
    exact fun hkilled => (h k hkilled).1 hu
  -- the scan stops at slot `k`
  have hs' : s' = (s.set k (s.slot k).kill).ret p 0 := by
    simp only [act, Option.ite_none_right_eq_some, advance, hpc, hk, if_true, hpid, Option.some.injEq] at hs
    exact hs.2.symm
  have hset : (s'.slot k).killed = true := by simp [hs', slot_set, Slot.kill]
  obtain ⟨-, -, hret⟩ | ⟨-, -, q, hq, -, -, hother⟩ := hl.kill p k pid rfl hpc
  · have h0 : (s'.slot p).ret = 0 := by simp [hs', slot_ret]
    have := hret (by simp [hs', slot_ret])
    omega
  · have hkq : k ≠ q := by
      rintro rfl
      exact hq hu
    rw [(hother k hkq).1, hclear] at hset
    cases hset

/-- `kill` touches only live processes, exactly as long as the slot that it matches is in use. -/
theorem kill_touches_live_iff (s : St) (h : Reached Sound s) :
    ∀ a s', act s a = some s' → (KillsLive s a s' ↔ Sound s a) :=
  fun _ _ hs => ⟨KillsLive.sound (just_reached h) hs, KillsLive.of_sound (just_reached h) hs⟩

/-! ## Unused slots -/

/-- A slot that is not in use has pid 0. -/
def Slot.Nameless (x : Slot) : Prop := x.state = .unused → x.pid = 0

theorem Slot.Nameless.wake {x : Slot} (h : x.Nameless) (c : Option Chan) : (x.wake c).Nameless := by
  unfold Slot.wake
  split
  · exact fun hu => by cases hu
  · exact h

theorem nameless_step (h : ∀ q, (s.slot q).Nameless) (hs : Step s a s') : ∀ q, (s'.slot q).Nameless := by
  have hwakes : ∀ p j c q, ((s.wakeup p j c).slot q).Nameless := by
    intro p j c q
    rw [slot_wakeup]
    split
    · exact (h q).wake c
    · exact h q
  cases hs with
  | call p x | pass p y | missing p | exitAcq p | waitAcq p | waitRet p => exact forall_set h (h p)
  | fault p hi => exact forall_set h (h p)
  | zombie p | waitSleep p => exact forall_set h fun hu => by cases hu
  | quiet p y a hp hy =>
    refine forall_set h fun hu => ?_
    have hlive := hy.live.2
    rw [hu] at hlive
    cases hlive
  | alloc p k =>
    have hset := forall_set (p := k) (x := allocated (s.slot k) s.nextpid s.born) h fun hu => by cases hu
    exact forall_set hset (hset p)
  | allocFail p k | reap p k =>
    have hset := forall_set (p := k) (x := freeproc (s.slot k)) h fun _ => rfl
    exact forall_set hset (hset p)
  | forkParent p np =>
    have hset := forall_set (p := np) (x := { s.slot np with parent := some p }) h (h np)
    exact forall_set hset (hset p)
  | forkReady p np =>
    have hset := forall_set (p := np) (x := { s.slot np with state := .runnable }) h fun hu => by cases hu
    exact forall_set hset (hset p)
  | reparent p k =>
    have hset := forall_set (p := k) (x := { s.slot k with parent := some initproc }) h (h k)
    exact forall_set hset (hset p)
  | rewake p k j => exact forall_set (hwakes p j _) (hwakes p j _ p)
  | exitWake p j parent => exact forall_set (hwakes p j _) (hwakes p j _ p)
  | killed p k =>
    have hset := forall_set (p := k) (x := (s.slot k).kill) h fun hu => h k (by grind [Slot.kill])
    exact forall_set hset (hset p)

/-- `kill` is called with a pid other than 0. -/
def Named (s : St) (a : Act) : Prop := ∀ p k pid, a = .step p → (s.slot p).pc = .killScan k pid → pid ≠ 0

theorem nameless_reached {ok : St → Act → Prop} (h : Reached ok s) : ∀ q, (s.slot q).Nameless := by
  refine Reach.inv (I := fun s => ∀ q, (s.slot q).Nameless) h ?_ fun _ _ _ hi _ hs => nameless_step hi (step_of_act hs)
  intro q hu
  by_cases hq : q = initproc <;> simp [init, update, hq, blank] at hu ⊢

/-- No unused slot has the pid. -/
theorem Named.sound (h : ∀ q, (s.slot q).Nameless) (ha : Named s a) : Sound s a :=
  fun p k pid hstep hpc _ hpid hu => ha p k pid hstep hpc (hpid.symm.trans (h k hu))

/-- Calls of `kill` with other pids than 0 touch only live processes. -/
theorem named_kills_live (h : Reached Named s) (ha : Named s a) (hs : act s a = some s') : KillsLive s a s' := by
  have hsound : Reached Sound s := by
    clear hs ha
    induction h with
    | refl => exact .refl
    | next hr hok hact ih => exact ih.next (Named.sound (nameless_reached hr) hok) hact
  exact KillsLive.of_sound (just_reached hsound) hs (ha.sound (nameless_reached h))

/-- `init` forks a child, and `kill` is called with the child's pid. -/
def killsChild : List Act := [.sched 0, .fork 0 true, .step 0, .step 0, .step 0, .step 0, .kill 0 2, .step 0]

/-- Does the step match no unused slot? -/
def soundStep (s : St) : Act → Bool
  | .step p =>
    match (s.slot p).pc with
    | .killScan k pid => (s.slot k).pid != pid || (s.slot k).state != .unused
    | _ => true
  | _ => true

theorem sound_of_soundStep (h : soundStep s a = true) : Sound s a := by
  rintro p k pid rfl hpc - hpid hu
  simp [soundStep, hpc, hpid, hu] at h

theorem kill_touches_live_iff_child : ∃ s s', Reached Sound s ∧ act s (.step 0) = some s' ∧
    (s'.slot 1).killed = true ∧ (KillsLive s (.step 0) s' ↔ Sound s (.step 0)) := by
  have hrun : ((run (guarded soundStep act) init killsChild).bind fun s =>
      (act s (.step 0)).map fun s' => (s'.slot 1).killed) = some true := by decide +kernel
  obtain ⟨s, hs, hn⟩ := Option.bind_eq_some_iff.mp hrun
  obtain ⟨s', hs', hk⟩ := Option.map_eq_some_iff.mp hn
  have hr : Reached Sound s := reach_of_guarded (fun _ _ => sound_of_soundStep) hs
  exact ⟨s, s', hr, hs', hk, kill_touches_live_iff s hr (.step 0) s' hs'⟩

/-- `init` calls `kill(0)`. -/
def killZero : List Act := [.sched 0, .kill 0 0, .step 0]

/-- Then it forks, and the child runs. -/
def childTraps : List Act :=
  [.step 0, .fork 0 true, .step 0, .step 0, .step 0, .step 0, .sched 1, .trap 1]

/-- `kill(0)` returns 0 for a slot that is not in use. The next child starts with `killed` set and is terminated. -/
theorem kill_zero_terminates_a_child :
    (∃ s s', Reached (fun _ _ => True) s ∧ act s (.step 0) = some s' ∧ ¬ KillsLive s (.step 0) s') ∧
    ∃ s, Reached (fun _ _ => True) s ∧ (s.slot 1).pc = .exitAcq (-1) ∧ (s.slot 1).blamed = false := by
  constructor
  · have hrun : ((run (guarded soundStep act) init killZero).bind fun s => (act s (.step 0)).map fun _ =>
        ((s.slot 0).pc, (s.slot 1).state, (s.slot 1).pid)) = some (.killScan 1 0, .unused, 0) := by decide +kernel
    obtain ⟨s, hs, hn⟩ := Option.bind_eq_some_iff.mp hrun
    obtain ⟨s', hs', hk⟩ := Option.map_eq_some_iff.mp hn
    simp only [Prod.mk.injEq] at hk
    have hr : Reached Sound s := reach_of_guarded (fun _ _ => sound_of_soundStep) hs
    refine ⟨s, s', hr.mono fun _ _ _ => trivial, hs', fun hl => ?_⟩
    exact KillsLive.sound (just_reached hr) hs' hl 0 1 0 rfl hk.1 (by decide) hk.2.2 hk.2.1
  · have hrun : (run act init (killZero ++ childTraps)).map (fun s => ((s.slot 1).pc, (s.slot 1).blamed)) =
        some (.exitAcq (-1), false) := by decide +kernel
    obtain ⟨s, hs, hk⟩ := Option.map_eq_some_iff.mp hrun
    simp only [Prod.mk.injEq] at hk
    exact ⟨s, reach_of_run (fun _ _ _ => trivial) hs, hk⟩

end

end Xv6.Proc
