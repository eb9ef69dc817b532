/-
  Xv6.Proc.Wait — `exit` and `wait`.

  Proved of every table that is reached, for every interleaving of the calls:
  - `wait_protocol`: whoever has exited is a zombie with a live parent or was returned by one
    `wait`, with its pid and status, never both (`WaitSafe`); a slot is freed by the `wait` of
    the process that is the parent then, and by nothing else (`WaitStep`); a `wait` whose copy
    fails leaves the zombie in place; no parent is a free slot or a zombie; while `wait_lock` is
    free nobody sleeps in `wait` with a zombie child; and a parent that keeps calling `wait`
    gets each of its zombies (`Collects`).
-/

import Xv6.Proc.Refine
import Xv6.Proc.Ledger

namespace Xv6.Proc

open Xv6.Lib

/-! ## The table's ledger -/

def Slot.entry (x : Slot) : Entry :=
  match x.state with
  | .unused => none
  | .zombie => some (x.id, some x.exit)
  | _ => some (x.id, none)

def Booked (s : St) : Prop := Ledger (fun q => (s.slot q).entry) s.born s.exited s.reaped

section

variable {s s' : St} {p k m : Nat} {x : Slot} {a : Act} {copy : Option Bool}

theorem entry_set : (fun q => ((s.set p x).slot q).entry) = update (fun q => (s.slot q).entry) p x.entry := by
  funext q
  by_cases hq : q = p <;> simp [slot_set, update, hq]

theorem Slot.entry_of_live (h : x.state.live = true) : x.entry = some (x.id, none) := by
  unfold Slot.entry
  cases hx : x.state <;> first | rfl | simp [hx, PState.live] at h

theorem Slot.entry_wake (x : Slot) (c : Option Chan) : (x.wake c).entry = x.entry := by
  unfold Slot.wake
  split
  · rename_i hx
    rw [Slot.entry_of_live (by simp [PState.live]), Slot.entry_of_live (by simp [hx.1, PState.live])]
  · rfl

theorem Slot.entry_kill (x : Slot) : x.kill.entry = x.entry := by
  unfold Slot.kill Slot.entry
  cases x.state <;> rfl

theorem Booked.same (h : Booked s) (hx : x.entry = (s.slot p).entry) : Booked (s.set p x) := by
  show Ledger (fun q => ((s.set p x).slot q).entry) s.born s.exited s.reaped
  rw [entry_set, hx, update_eq_self]
  exact h

theorem Booked.wakeup (h : Booked s) (j : Nat) (c : Option Chan) : Booked (s.wakeup p j c) := by
  unfold St.wakeup
  split
  · exact h.same (Slot.entry_wake _ c)
  · exact h

theorem Booked.step (h : Booked s) (ho : Orderly s.view) (hs : Step s a s') : Booked s' := by
  cases hs with
  | call p y => exact h.same rfl
  | fault p => exact h.same rfl
  | quiet p y a hp hy =>
    refine h.same ?_
    rw [Slot.entry_of_live hy.live.1, Slot.entry_of_live hy.live.2, hy.same]
  | pass p y => exact h.same rfl
  | alloc p k hp hpc hk hu =>
    have hnone : (s.slot k).entry = none := by rw [Slot.entry, hu]
    have hb : Booked { s.set k (allocated (s.slot k) s.nextpid s.born) with
        nextpid := pidAfter s.nextpid, born := s.born + 1 } := by
      show Ledger (fun q => ((s.set k _).slot q).entry) (s.born + 1) s.exited s.reaped
      rw [entry_set]
      exact Ledger.birth h hnone
    exact hb.same rfl
  | allocFail p k hp hpc hk hu =>
    have hb : Booked (s.set k (freeproc (s.slot k))) := h.same (by simp [Slot.entry, freeproc, hu])
    exact Booked.same (s := { s.set k (freeproc (s.slot k)) with nextpid := pidAfter s.nextpid }) hb rfl
  | forkParent p np pid =>
    have hb : Booked (s.set np { s.slot np with parent := some p }) := h.same rfl
    exact hb.same rfl
  | forkReady p np pid hp hpc =>
    have hused : (s.slot np).state.phase = .used := ho.forks p np (by simp [St.view, hpc, Pc.forks])
    have hb : Booked (s.set np { s.slot np with state := .runnable }) := by
      refine h.same ?_
      unfold Slot.entry
      cases hst : (s.slot np).state <;> simp [hst, PState.phase] at hused ⊢
    exact hb.same rfl
  | missing p => exact h.same rfl
  | exitAcq p | waitAcq p => exact Booked.same (s := { s with waitLock := some p }) h rfl
  | waitRet p => exact Booked.same (s := { s with waitLock := none }) h rfl
  | reparent p k =>
    have hb : Booked (s.set k { s.slot k with parent := some initproc }) := h.same rfl
    exact hb.same rfl
  | rewake p k j | exitWake p j => exact (h.wakeup j _).same rfl
  | zombie p j parent status hp =>
    have hk : (s.slot p).entry = some ((s.slot p).id, none) := Slot.entry_of_live (by rw [hp.2]; rfl)
    show Ledger (fun q => ((s.set p _).slot q).entry) s.born _ s.reaped
    rw [entry_set]
    exact Ledger.exit (x := ⟨(s.slot p).id, (s.slot p).pid, status⟩) h hk
  | reap p k havekids copy hp hpc hk hpar hz =>
    have hentry : (s.slot k).entry = some ((s.slot k).exit.id, some (s.slot k).exit) := by
      rw [Slot.entry, hz]
      rfl
    have hb : Booked { s.set k (freeproc (s.slot k)) with
        reaped := s.reaped ++ [Reap.mk p (s.slot k).exit (copy.map fun _ => (s.slot k).xstate)] } := by
      show Ledger (fun q => ((s.set k _).slot q).entry) s.born s.exited _
      rw [entry_set]
      exact Ledger.reap h hentry
    exact hb.same rfl
  | waitSleep p copy hp =>
    refine Booked.same (s := { s with waitLock := none }) h ?_
    rw [Slot.entry_of_live rfl, Slot.entry_of_live (by rw [hp.2]; rfl)]
  | killed p k pid =>
    have hb : Booked (s.set k (s.slot k).kill) := h.same (Slot.entry_kill _)
    exact hb.same rfl

theorem booked_init : Booked init := by
  have hentry : (fun q => (init.slot q).entry) = update (fun _ => none) initproc (some (0, none)) := by
    funext q
    by_cases hq : q = initproc <;> simp [init, update, hq, Slot.entry, blank]
  have hempty : Ledger (fun _ => none) 0 [] [] := by constructor <;> simp
  show Ledger (fun q => (init.slot q).entry) 1 [] []
  rw [hentry]
  exact hempty.birth rfl

theorem booked_reached {ok : St → Act → Prop} (h : Reached ok s) : Booked s := by
  induction h with
  | refl => exact booked_init
  | next hr _ hs ih => exact ih.step (orderly_reached hr).1 (step_of_act hs)

/-! ## What holds in every state -/

structure WaitSafe (s : St) : Prop where
  exitedOnce : (s.exited.map (·.id)).Nodup
  reapedOnce : (s.reaped.map (·.child.id)).Nodup
  /-- Who has exited was returned by a `wait` or is a zombie. -/
  account : ∀ e, e ∈ s.exited ↔
    (∃ r ∈ s.reaped, r.child = e) ∨ ∃ q, (s.slot q).state = .zombie ∧ (s.slot q).exit = e
  /-- Not both: who was returned is in no slot. -/
  gone : ∀ r ∈ s.reaped, ∀ q, (s.slot q).state ≠ .unused → (s.slot q).id ≠ r.child.id
  parents : ∀ q r, (s.slot q).parent = some r → (s.slot r).state ≠ .unused ∧ (s.slot r).state ≠ .zombie
  /-- A zombie has a parent to wait for it. -/
  kin : ∀ q, (s.slot q).state = .zombie → ∃ r, (s.slot q).parent = some r
  /-- While `wait_lock` is free, nobody sleeps in `wait` with a zombie child. -/
  awake : s.waitLock = none → ∀ q r, (s.slot r).state = .sleeping → (∃ copy, (s.slot r).pc = .waitAcq copy) →
    (s.slot q).parent = some r → (s.slot q).state ≠ .zombie

theorem Slot.entry_zombie (h : x.state = .zombie) : x.entry = some (x.exit.id, some x.exit) := by
  rw [Slot.entry, h]
  rfl

theorem Slot.zombie_of_entry {i : Nat} {e : Exit} (h : x.entry = some (i, some e)) : x.state = .zombie ∧ x.exit = e := by
  unfold Slot.entry at h
  cases hx : x.state <;> simp_all

theorem waitSafe (ho : Orderly s.view) (hb : Booked s) : WaitSafe s where
  exitedOnce := hb.exitedOnce
  reapedOnce := hb.reapedOnce
  account e := by
    rw [hb.account e]
    refine or_congr_right ⟨fun ⟨q, hq⟩ => ⟨q, Slot.zombie_of_entry hq⟩, ?_⟩
    rintro ⟨q, hz, rfl⟩
    exact ⟨q, Slot.entry_zombie hz⟩
  gone r hr q hq hid := by
    obtain ⟨e, he⟩ : ∃ e, (s.slot q).entry = some ((s.slot q).id, e) := by
      unfold Slot.entry
      cases hx : (s.slot q).state <;> simp_all
    exact hb.buried r hr q e (hid ▸ he)
  parents q r hpar := by
    have hlive : (s.slot r).state.phase = .live := ho.parents q r hpar
    constructor <;> intro hst <;> rw [hst] at hlive <;> cases hlive
  kin q hz := by
    have hz' : s.view.phase q = .zombie := congrArg PState.phase hz
    refine Option.ne_none_iff_exists'.mp (ho.kin q ?_ (Or.inr hz'))
    rintro rfl
    rw [ho.init] at hz'
    cases hz'
  awake hl q r hsl hpc hpar hz :=
    ho.no_lost_wakeup hl (Slot.inWait_iff.mpr ⟨hsl, hpc⟩) hpar (congrArg PState.phase hz)

/-! ## What a step does -/

/-- The step by which a `wait` of `p` takes the zombie in slot `k`. -/
structure Reaps (s s' : St) (p k : Nat) (copy : Option Bool) : Prop where
  parent : (s.slot k).parent = some p
  zombie : (s.slot k).state = .zombie
  reaped : s'.reaped = s.reaped ++ [⟨p, (s.slot k).exit, copy.map fun _ => (s.slot k).xstate⟩]
  /-- `wait` is about to return the pid. -/
  returns : (s'.slot p).pc = .waitRet (s.slot k).pid
  freed : (s'.slot k).state = .unused
  others : ∀ q, q ≠ k → (s.slot q).state ≠ .unused → (s'.slot q).state ≠ .unused

structure WaitStep (s : St) (a : Act) (s' : St) : Prop where
  /-- Processes exit one at a time, each with the status of its own `exit`. -/
  exit : s'.exited = s.exited ∨ ∃ p j parent status, a = .step p ∧ (s.slot p).pc = .exitWake j parent status ∧
    (s'.slot p).state = .zombie ∧ (s'.slot p).exit = ⟨(s.slot p).id, (s.slot p).pid, status⟩ ∧
    s'.exited = s.exited ++ [(s'.slot p).exit]
  /-- A slot is freed by a `wait` that returns its process, and by nothing else. -/
  reap : (s'.reaped = s.reaped ∧ ∀ q, (s.slot q).state ≠ .unused → (s'.slot q).state ≠ .unused) ∨
    ∃ p k havekids copy, a = .step p ∧ (s.slot p).pc = .waitScan k havekids copy ∧ copy ≠ some false ∧
      Reaps s s' p k copy
  /-- If the copy of the status fails, the zombie stays as it is. -/
  fail : ∀ p k havekids, a = .step p → (s.slot p).pc = .waitScan k havekids (some false) → k < nproc →
    (s.slot k).parent = some p → (s.slot k).state = .zombie →
    (s'.slot p).pc = .waitRet (-1) ∧ s'.reaped = s.reaped ∧ ∀ q, q ≠ p → s'.slot q = s.slot q
  returns : ∀ p r, a = .step p → (s.slot p).pc = .waitRet r → (s'.slot p).ret = r ∧ (s'.slot p).pc = .user

theorem Step.exit_cases (hs : Step s a s') : s'.exited = s.exited ∨ ∃ p j parent status, a = .step p ∧
    (s.slot p).pc = .exitWake j parent status ∧ (s'.slot p).state = .zombie ∧
    (s'.slot p).exit = ⟨(s.slot p).id, (s.slot p).pid, status⟩ ∧ s'.exited = s.exited ++ [(s'.slot p).exit] := by
  cases hs with
  | zombie p j parent status hp hpc =>
    exact Or.inr ⟨p, j, parent, status, rfl, hpc, by simp [slot_set], by simp [slot_set, Slot.exit],
      by simp [slot_set, Slot.exit]⟩
  | rewake | exitWake =>
    left
    simp only [St.goto, St.set, St.wakeup]
    split <;> rfl
  | _ => exact Or.inl rfl

theorem Slot.wake_unused {c : Option Chan} (h : (x.wake c).state = .unused) : x.state = .unused := by
  unfold Slot.wake at h
  split at h
  · cases h
  · exact h

theorem Slot.kill_unused (h : x.kill.state = .unused) : x.state = .unused := by
  simp only [Slot.kill] at h
  split at h
  · cases h
  · exact h

/-- Every step but a `wait`'s keeps the slots in use. -/
theorem Step.reap_cases (hs : Step s a s') :
    (s'.reaped = s.reaped ∧ ∀ q, (s.slot q).state ≠ .unused → (s'.slot q).state ≠ .unused) ∨
    ∃ p k havekids copy, a = .step p ∧ (s.slot p).pc = .waitScan k havekids copy ∧ copy ≠ some false ∧
      Reaps s s' p k copy := by
  have hset : ∀ {k : Nat} {x : Slot}, (x.state = .unused → (s.slot k).state = .unused) →
      ∀ q, (s.slot q).state ≠ .unused → ((s.set k x).slot q).state ≠ .unused := fun {k x} hx q hq => by
    by_cases hqk : q = k
    · subst hqk
      simpa [slot_set] using fun h => hq (hx h)
    · simpa [slot_set, hqk] using hq
  have hwake : ∀ (p j : Nat) (c : Option Chan) q, (s.slot q).state ≠ .unused →
      ((s.wakeup p j c).slot q).state ≠ .unused := fun p j c q hq => by
    rw [slot_wakeup]
    split
    · exact fun h => hq (Slot.wake_unused h)
    · exact hq
  cases hs with
  | call p y | pass p y | missing p | exitAcq p | waitAcq p | waitRet p => exact Or.inl ⟨rfl, fun q hq => by simpa using hq⟩
  | fault p hi => exact Or.inl ⟨rfl, hset id⟩
  | quiet p y a hp hy =>
    refine Or.inl ⟨rfl, hset fun hu => ?_⟩
    have hlive := hy.live.2
    rw [hu] at hlive
    cases hlive
  | alloc p k => exact Or.inl ⟨rfl, fun q hq => by simpa using hset (by simp [allocated]) q hq⟩
  | allocFail p k _ _ _ hu => exact Or.inl ⟨rfl, fun q hq => by simpa using hset (fun _ => hu) q hq⟩
  | forkParent p np =>
    refine Or.inl ⟨rfl, fun q hq => ?_⟩
    rw [state_goto]
    exact hset (k := np) (x := { s.slot np with parent := some p }) id q hq
  | forkReady p np => exact Or.inl ⟨rfl, fun q hq => by simpa using hset (k := np) (by simp) q hq⟩
  | reparent p k =>
    refine Or.inl ⟨rfl, fun q hq => ?_⟩
    rw [state_goto]
    exact hset (k := k) (x := { s.slot k with parent := some initproc }) id q hq
  | rewake p k j | exitWake p j =>
    refine Or.inl ⟨?_, fun q hq => by simpa using hwake p j _ q hq⟩
    simp only [St.goto, St.set, St.wakeup]
    split <;> rfl
  | zombie p | waitSleep p => exact Or.inl ⟨rfl, hset (by simp)⟩
  | killed p k => exact Or.inl ⟨rfl, fun q hq => by simpa using hset (k := k) Slot.kill_unused q hq⟩
  | reap p k havekids copy hp hpc hk hpar hz hcopy =>
    refine Or.inr ⟨p, k, havekids, copy, rfl, hpc, hcopy, hpar, hz, rfl, ?_, ?_, fun q hq hu => ?_⟩
    · simp [slot_goto]
    · simp [slot_set, freeproc]
    · simpa [slot_set, hq] using hu

theorem waitStep (hs : act s a = some s') : WaitStep s a s' where
  exit := (step_of_act hs).exit_cases
  reap := (step_of_act hs).reap_cases
  fail := by
    rintro p k havekids rfl hpc hk hpar hz
    simp only [act, Option.ite_none_right_eq_some, advance, hpc, hk, hpar, hz, if_true, Option.some.injEq] at hs
    obtain ⟨-, rfl⟩ := hs
    exact ⟨by simp [slot_goto], rfl, fun q hq => by simp [slot_goto, hq]⟩
  returns := by
    rintro p r rfl hpc
    simp only [act, Option.ite_none_right_eq_some, advance, hpc, Option.some.injEq] at hs
    obtain ⟨-, rfl⟩ := hs
    exact ⟨by simp [slot_ret], by simp [slot_ret]⟩

/-! ## A parent that waits gets its zombies -/

/-- Process `p`, outside the calls, has taken the zombie in slot `m`; all other slots are as before. -/
structure Took (s s' : St) (p m : Nat) (copy : Option Bool) : Prop where
  idle : s'.idle p
  free : s'.waitLock = none
  ret : (s'.slot p).ret = (s.slot m).pid
  reaped : s'.reaped = s.reaped ++ [⟨p, (s.slot m).exit, copy.map fun _ => (s.slot m).xstate⟩]
  freed : (s'.slot m).state = .unused
  others : ∀ q, q ≠ m → q ≠ p → s'.slot q = s.slot q

/-- The scan of a `wait` up to the first zombie child, and the return. -/
theorem scan_takes (hcopy : copy ≠ some false) (hm : m < nproc) :
    ∀ (d k : Nat) (havekids : Bool) (s : St), k + d = m → s.active p → (s.slot p).pc = .waitScan k havekids copy →
      (∀ q, k ≤ q → q < m → (s.slot q).parent = some p → (s.slot q).state ≠ .zombie) →
      (s.slot m).parent = some p → (s.slot m).state = .zombie →
      ∃ s', run act s (List.replicate (d + 2) (.step p)) = some s' ∧ Took s s' p m copy := by
  intro d
  induction d with
  | zero =>
    intro k havekids s hk hp hpc _ hpar hz
    obtain rfl : k = m := hk
    have hne : p ≠ k := by
      rintro rfl
      rw [hp.2] at hz
      cases hz
    obtain ⟨t, hstep, ht, hlock, hreaped⟩ : ∃ t, act s (.step p) = some t ∧
        (∀ q, t.slot q = if q = p then { s.slot p with pc := .waitRet (s.slot k).pid }
          else if q = k then freeproc (s.slot k) else s.slot q) ∧ t.waitLock = s.waitLock ∧
        t.reaped = s.reaped ++ [⟨p, (s.slot k).exit, copy.map fun _ => (s.slot k).xstate⟩] := by
      refine ⟨{ s.set k (freeproc (s.slot k)) with
        reaped := s.reaped ++ [Reap.mk p (s.slot k).exit (copy.map fun _ => (s.slot k).xstate)]
        }.goto p (.waitRet (s.slot k).pid), ?_, fun q => ?_, rfl, rfl⟩
      · simp only [act, hp, advance, hpc, hm, hpar, hz, hcopy, if_true, if_false]
      by_cases hq : q = p <;> simp [slot_goto, slot_set, hq, hne]
    have hactive : t.active p := ⟨hp.1, by simp [ht, hp.2]⟩
    have hret : act t (.step p) = some ({ t with waitLock := none }.ret p (s.slot k).pid) := by
      simp [act, hactive, advance, ht]
    refine ⟨{ t with waitLock := none }.ret p (s.slot k).pid, ?_, ?_⟩
    · show ((act s (.step p)).bind fun t => (act t (.step p)).bind some) = _
      rw [hstep, Option.bind_some, hret, Option.bind_some]
    · refine ⟨⟨⟨hp.1, by simp [hactive.2]⟩, by simp [slot_ret]⟩, rfl, by simp [slot_ret], hreaped, ?_,
        fun q hqk hqp => ?_⟩
      · simp [ht, Ne.symm hne, freeproc]
      · simp [slot_ret, hqp, ht, hqk]
  | succ d ih =>
    intro k havekids s hk hp hpc hnone hpar hz
    have hne : m ≠ p := by
      rintro rfl
      rw [hp.2] at hz
      cases hz
    -- slot `k` is not a zombie child: the scan goes on
    have hnext : ∃ b, act s (.step p) = some (s.goto p (.waitScan (k + 1) b copy)) := by
      have hlt : k < nproc := by omega
      by_cases hkp : (s.slot k).parent = some p
      · have hlive := hnone k (Nat.le_refl k) (by omega) hkp
        exact ⟨true, by simp [act, hp, advance, hpc, hlt, hkp, hlive]⟩
      · exact ⟨havekids, by simp [act, hp, advance, hpc, hlt, hkp]⟩
    obtain ⟨b, hstep⟩ := hnext
    have hsame : ∀ q, ((s.goto p (.waitScan (k + 1) b copy)).slot q).parent = (s.slot q).parent := fun q => by
      by_cases hq : q = p <;> simp [slot_goto, hq]
    have hm' : (s.goto p (.waitScan (k + 1) b copy)).slot m = s.slot m := by simp [slot_goto, hne]
    obtain ⟨s', hrun, htook⟩ := ih (k + 1) b (s.goto p (.waitScan (k + 1) b copy)) (by omega)
      ⟨hp.1, by simp [hp.2]⟩ (by simp [slot_goto])
      (fun q hq hqm hqp => by
        rw [hsame] at hqp
        rw [state_goto]
        exact hnone q (by omega) hqm hqp)
      (by rw [hm', hpar]) (by rw [hm', hz])
    refine ⟨s', ?_, htook.idle, htook.free, ?_, ?_, htook.freed, fun q hqm hqp => ?_⟩
    · rw [List.replicate_succ]
      simp only [run, hstep, Option.bind_some]
      exact hrun
    · rw [htook.ret, hm']
    · rw [htook.reaped, hm']
      rfl
    · rw [htook.others q hqm hqp]
      simp [slot_goto, hqp]

/-- One `wait`, from its call to its return. -/
theorem wait_takes (hcopy : copy ≠ some false) (hm : m < nproc) (hp : s.idle p) (hl : s.waitLock = none) (hfirst : ∀ q, q < m →
      (s.slot q).parent = some p → (s.slot q).state ≠ .zombie) (hpar : (s.slot m).parent = some p)
    (hz : (s.slot m).state = .zombie) :
    ∃ l s', (∀ a ∈ l, a = .wait p copy ∨ a = .step p) ∧ run act s l = some s' ∧ Took s s' p m copy := by
  have hne : m ≠ p := by
    rintro rfl
    rw [hp.1.2] at hz
    cases hz
  -- the call, and the lock
  obtain ⟨t, hrun, ht, hlock, hreaped⟩ : ∃ t, ((act s (.wait p copy)).bind fun t => act t (.step p)) = some t ∧
      (∀ q, t.slot q = if q = p then { s.slot p with pc := .waitScan 0 false copy } else s.slot q) ∧
      t.waitLock = some p ∧ t.reaped = s.reaped := by
    have hcall : act s (.wait p copy) = some (s.goto p (.waitAcq copy)) := by simp [act, hp]
    have hactive : (s.goto p (.waitAcq copy)).active p := ⟨hp.1.1, by simp [hp.1.2]⟩
    refine ⟨{ s.goto p (.waitAcq copy) with waitLock := some p }.goto p (.waitScan 0 false copy), ?_, fun q => ?_,
      rfl, rfl⟩
    · rw [hcall, Option.bind_some]
      have hl' : (s.goto p (.waitAcq copy)).waitLock = none := hl
      simp [act, hactive, advance, slot_goto, hl']
    · by_cases hq : q = p <;> simp [slot_goto, hq]
  have hsame : ∀ q, (t.slot q).parent = (s.slot q).parent ∧ (t.slot q).state = (s.slot q).state := fun q => by
    by_cases hq : q = p <;> simp [ht, hq]
  have hm' : t.slot m = s.slot m := by simp [ht, hne]
  obtain ⟨s', hscan, htook⟩ := scan_takes hcopy hm m 0 false t (Nat.zero_add m)
    ⟨hp.1.1, by rw [(hsame p).2, hp.1.2]⟩ (by simp [ht])
    (fun q _ hqm hqp => by
      rw [(hsame q).1] at hqp
      rw [(hsame q).2]
      exact hfirst q hqm hqp)
    (by rw [hm', hpar]) (by rw [hm', hz])
  refine ⟨.wait p copy :: .step p :: List.replicate (m + 2) (.step p), s', fun a ha => ?_, ?_, htook.idle, htook.free,
    ?_, ?_, htook.freed, fun q hqm hqp => ?_⟩
  · simp only [List.mem_cons, List.mem_replicate] at ha
    obtain rfl | rfl | ⟨-, rfl⟩ := ha
    · exact Or.inl rfl
    · exact Or.inr rfl
    · exact Or.inr rfl
  · obtain ⟨u, hu, hut⟩ := Option.bind_eq_some_iff.mp hrun
    simp only [run, hu, hut, Option.bind_some]
    exact hscan
  · rw [htook.ret, hm']
  · rw [htook.reaped, hm', hreaped]
  · rw [htook.others q hqm hqp]
    simp [ht, hqp]

/-- Calls of `wait` by `p` alone get the zombie child in slot `z`, after those in the slots before it. -/
theorem waits_take {z : Nat} (hcopy : copy ≠ some false) (hz : z < nproc) :
    ∀ (d m : Nat) (s : St), m + d = z → s.idle p → s.waitLock = none →
      (∀ q, q < m → (s.slot q).parent = some p → (s.slot q).state ≠ .zombie) →
      (s.slot z).parent = some p → (s.slot z).state = .zombie →
      ∃ l s', (∀ a ∈ l, a = .wait p copy ∨ a = .step p) ∧ run act s l = some s' ∧
        ⟨p, (s.slot z).exit, copy.map fun _ => (s.slot z).xstate⟩ ∈ s'.reaped := by
  intro d
  induction d with
  | zero =>
    intro m s hm hp hl hfirst hpar hzom
    obtain rfl : m = z := hm
    obtain ⟨l, s', hmine, hrun, htook⟩ := wait_takes hcopy hz hp hl hfirst hpar hzom
    exact ⟨l, s', hmine, hrun, by simp [htook.reaped]⟩
  | succ d ih =>
    intro m s hm hp hl hfirst hpar hzom
    have hne : z ≠ p := by
      rintro rfl
      rw [hp.1.2] at hzom
      cases hzom
    by_cases hm' : (s.slot m).parent = some p ∧ (s.slot m).state = .zombie
    · -- slot `m` comes first
      obtain ⟨l1, s1, hmine1, hrun1, htook⟩ := wait_takes hcopy (by omega) hp hl hfirst hm'.1 hm'.2
      have hz1 : s1.slot z = s.slot z := htook.others z (by omega) hne
      have hfirst1 : ∀ q, q < m + 1 → (s1.slot q).parent = some p → (s1.slot q).state ≠ .zombie := by
        intro q hq hqp hqz
        by_cases hqm : q = m
        · rw [hqm, htook.freed] at hqz
          cases hqz
        · by_cases hqp' : q = p
          · rw [hqp', htook.idle.1.2] at hqz
            cases hqz
          · rw [htook.others q hqm hqp'] at hqp hqz
            exact hfirst q (by omega) hqp hqz
      obtain ⟨l, s', hmine, hrun, hmem⟩ := ih (m + 1) s1 (by omega) htook.idle htook.free hfirst1
        (by rw [hz1, hpar]) (by rw [hz1, hzom])
      rw [hz1] at hmem
      refine ⟨l1 ++ l, s', fun a ha => ?_, ?_, hmem⟩
      · exact (List.mem_append.mp ha).elim (hmine1 a) (hmine a)
      · rw [run_append, hrun1]
        exact hrun
    · refine ih (m + 1) s (by omega) hp hl (fun q hq hqp hqz => ?_) hpar hzom
      obtain hlt | rfl := Nat.lt_succ_iff_lt_or_eq.mp hq
      · exact hfirst q hlt hqp hqz
      · exact hm' ⟨hqp, hqz⟩

/-- A parent outside the calls gets each of its zombies, with the status if it asks for it, by calling `wait`. -/
def Collects (s : St) : Prop :=
  ∀ p z copy, s.idle p → s.waitLock = none → (s.slot z).parent = some p → (s.slot z).state = .zombie →
    copy ≠ some false →
    ∃ l s', (∀ a ∈ l, a = .wait p copy ∨ a = .step p) ∧ run act s l = some s' ∧
      ⟨p, (s.slot z).exit, copy.map fun _ => (s.slot z).xstate⟩ ∈ s'.reaped

/-- Every process that exits is returned by one `wait` of its parent, and no wakeup is lost. -/
theorem wait_protocol (s : St) (h : Reached (fun _ _ => True) s) :
    WaitSafe s ∧ (∀ a s', act s a = some s' → WaitStep s a s') ∧ Collects s := by
  have ho := (orderly_reached h).1
  refine ⟨waitSafe ho (booked_reached h), fun a s' => waitStep, fun p z copy hp hl hpar hz hcopy => ?_⟩
  have hlt : z < nproc := by
    by_contra hge
    have hphase : s.view.phase z = .zombie := congrArg PState.phase hz
    rw [ho.low z (Nat.le_of_not_lt hge)] at hphase
    cases hphase
  exact waits_take hcopy hlt z 0 s (Nat.zero_add z) hp hl (fun q hq => absurd hq (Nat.not_lt_zero q)) hpar hz

/-- `init` forks, and its child exits with status 7. -/
def childExits : List Act :=
  [.sched 0, .fork 0 true, .step 0, .step 0, .step 0, .step 0, .sched 1, .exit 1 7] ++ List.replicate 131 (.step 1)

theorem wait_protocol_zombie : ∃ s, Reached (fun _ _ => True) s ∧ (s.slot 1).state = .zombie ∧
    s.exited = [⟨1, 2, 7⟩] ∧ WaitSafe s ∧ (∀ a s', act s a = some s' → WaitStep s a s') ∧ Collects s := by
  have hrun : (run act init childExits).map (fun s => ((s.slot 1).state, s.exited)) =
      some (.zombie, [⟨1, 2, 7⟩]) := by decide +kernel
  obtain ⟨s, hs, he⟩ := Option.map_eq_some_iff.mp hrun
  simp only [Prod.mk.injEq] at he
  have hr : Reached (fun _ _ => True) s := reach_of_run (fun _ _ _ => trivial) hs
  exact ⟨s, hr, he.1, he.2, wait_protocol s hr⟩

end

end Xv6.Proc
