/-
  Xv6.Proc.Refine — the process table as a state of the protocol in `Xv6.Proc.Protocol`.

  Proved:
  - `Step.move`: every step of the table is a move of the protocol.
  - `orderly_reached`: the protocol's invariant holds of every table that is reached.
-/

import Xv6.Proc.Protocol

namespace Xv6.Proc

open Xv6.Lib

/-! ## The table as a state of the protocol -/

def PState.phase : PState → Phase
  | .unused => .unused
  | .used => .used
  | .zombie => .zombie
  | .sleeping | .runnable | .running => .live

/-- Asleep in `wait`. -/
def Slot.inWait (x : Slot) : Bool :=
  match x.state, x.pc with
  | .sleeping, .waitAcq _ => true
  | _, _ => false

def St.view (s : St) : View where
  pc q := (s.slot q).pc
  phase q := (s.slot q).state.phase
  waiting q := (s.slot q).inWait
  parent q := (s.slot q).parent
  lock := s.waitLock

section

variable {s s' : St} {p k q j : Nat} {x : Slot} {a : Act} {y : Pc} {c : Option Chan}

theorem PState.phase_of_live {st : PState} (h : st.live = true) : st.phase = .live := by
  cases st <;> first | rfl | cases h

theorem Slot.inWait_of_ne (h : x.state ≠ .sleeping) : x.inWait = false := by
  unfold Slot.inWait
  split
  · exact absurd ‹_› h
  · rfl

theorem Slot.inWait_iff : x.inWait = true ↔ x.state = .sleeping ∧ ∃ copy, x.pc = .waitAcq copy := by
  unfold Slot.inWait
  split
  · simp_all
  · rename_i hno
    simp only [Bool.false_eq_true, false_iff]
    rintro ⟨h1, copy, h2⟩
    exact hno copy h1 h2

theorem view_set : (s.set p x).view =
    { pc := update s.view.pc p x.pc, phase := update s.view.phase p x.state.phase,
      waiting := update s.view.waiting p x.inWait, parent := update s.view.parent p x.parent,
      lock := s.view.lock } := by
  have h : ∀ {β : Type} (f : Slot → β), (fun q => f ((s.set p x).slot q)) = update (fun q => f (s.slot q)) p (f x) := by
    intro β f
    funext q
    by_cases hq : q = p <;> simp [slot_set, update, hq]
  exact View.ext (h (·.pc)) (h (·.state.phase)) (h (·.inWait)) (h (·.parent)) rfl

/-- If the new slot sleeps in `wait`, so did the old one. -/
theorem waiting_set (hx : x.inWait = true → (s.slot p).inWait = true) (q : Nat)
    (hq : (s.set p x).view.waiting q = true) : s.view.waiting q = true := by
  rw [view_set] at hq
  by_cases hqp : q = p
  · subst hqp
    exact hx (by simpa [update] using hq)
  · simpa [update, hqp] using hq

/-- A running process goes to another place. -/
theorem view_place (hp : (s.slot p).state = .running) (hx : x.state = .running) (hpar : (s.slot p).parent = x.parent) :
    (s.set p x).view = { s.view with pc := update s.view.pc p x.pc } := by
  have hw : s.view.waiting p = false := Slot.inWait_of_ne (by simp [hp])
  have hph : s.view.phase p = x.state.phase := congrArg PState.phase (hp.trans hx.symm)
  rw [view_set, Slot.inWait_of_ne (by simp [hx])]
  exact View.ext rfl (update_same hph) (update_same hw) (update_same hpar) rfl

theorem runs_of_active (hp : s.active p) : s.view.Runs p where
  lt := hp.1
  live := by
    show (s.slot p).state.phase = .live
    rw [hp.2]
    rfl
  awake := Slot.inWait_of_ne (by simp [hp.2])

/-- A running process goes from one place to another. -/
theorem move_place (hp : s.active p) (hx : x.state = .running) (hpar : (s.slot p).parent = x.parent)
    (hg : Goes s.view p (s.slot p).pc x.pc) : Move s.view (s.set p x).view := by
  rw [view_place hp.2 hx hpar]
  exact .go p x.pc s.view.waiting (runs_of_active hp) hg fun _ hw => hw

section

variable (hp : (s.slot p).state = .running)
include hp

theorem view_goto (y : Pc) :
    (s.goto p y).view = { s.view with pc := update s.view.pc p y } := view_place hp hp rfl

theorem view_ret (r : Int) :
    (s.ret p r).view = { s.view with pc := update s.view.pc p .user } := view_place hp hp rfl

/-- A running process stays running when a slot is changed. -/
theorem running_set (hx : p = k → x.state = .running) :
    ((s.set k x).slot p).state = .running := by
  by_cases hpk : p = k
  · simpa [slot_set, hpk] using hx hpk
  · simp [slot_set, hpk, hp]

theorem running_set_ne (hk : (s.slot k).state ≠ .running) :
    ((s.set k x).slot p).state = .running :=
  running_set hp fun e => absurd (e ▸ hp) hk

end

/-- A slot that keeps its place and is asleep in `wait` neither before nor after. -/
theorem view_slot (hpc : (s.slot k).pc = x.pc) (hw : (s.slot k).inWait = false) (hw' : x.inWait = false) :
    (s.set k x).view =
      { s.view with phase := update s.view.phase k x.state.phase, parent := update s.view.parent k x.parent } := by
  rw [view_set, hw']
  exact View.ext (update_same hpc) rfl (update_same hw) rfl rfl

/-- Every place that a call starts at is plain. -/
theorem Pc.starts_plain (h : y.starts p) : y.plain = true ∧ (y.exits = true → p ≠ initproc) := by
  cases y with
  | exitAcq status => exact ⟨rfl, fun _ => h⟩
  | forkScan | waitAcq | killScan => exact ⟨rfl, fun hx => by cases hx⟩
  | _ => exact h.elim

theorem Pass.goes {z : Pc} (h : Pass s p y z) : Goes s.view p y z := by
  cases h with
  | forkScan k mem | killScan k pid => exact .plain _ _ rfl rfl fun h => by cases h
  | reparent k status _ hk => exact .reparent k status hk
  | reparented k status hk => exact .reparented k status hk
  | rewoken k j status hj => exact .rewoken k j status hj
  | waitFail k havekids => exact .waitFail k havekids _ _
  | waitNone k havekids copy => exact .waitFail k havekids copy _
  | waitSleep k havekids copy hk => exact .waitSleep k havekids copy hk
  | waitScan k havekids havekids' copy _ hk =>
    refine .waitScan k havekids havekids' copy fun hpar hz => hk hpar ?_
    have hz : (s.slot k).state.phase = .zombie := hz
    cases hst : (s.slot k).state <;> simp [hst, PState.phase] at hz ⊢

/-- A slot out of use, and what `allocproc` makes of it. -/
theorem view_alloc (h : Orderly s.view) (hk : (s.slot k).state = .unused) (pid : Int) (id : Nat) :
    (s.set k (allocated (s.slot k) pid id)).view = { s.view with phase := update s.view.phase k .used } := by
  have hpc : (s.slot k).pc = .user := by
    by_contra hne
    have hlive : (s.slot k).state.phase = .live := h.place k hne
    rw [hk] at hlive
    cases hlive
  rw [view_slot (by rw [hpc]; rfl) (Slot.inWait_of_ne (by simp [hk])) (Slot.inWait_of_ne (by simp [allocated]))]
  exact View.ext rfl rfl rfl (update_eq_self s.view.parent k) rfl

theorem view_freeproc (hk : (s.slot k).state ≠ .sleeping) : (s.set k (freeproc (s.slot k))).view =
    { s.view with phase := update s.view.phase k .unused, parent := update s.view.parent k none } :=
  view_slot (x := freeproc (s.slot k)) rfl (Slot.inWait_of_ne hk) (Slot.inWait_of_ne (by simp [freeproc]))

theorem view_ready (hk : (s.slot k).state = .used) : (s.set k { s.slot k with state := .runnable }).view =
    { s.view with phase := update s.view.phase k .live } := by
  rw [view_slot (x := { s.slot k with state := .runnable }) rfl (Slot.inWait_of_ne (by simp [hk]))
    (Slot.inWait_of_ne (by simp))]
  exact View.ext rfl rfl rfl (update_eq_self s.view.parent k) rfl

theorem view_parent (r : Nat) : (s.set k { s.slot k with parent := some r }).view =
    { s.view with parent := update s.view.parent k (some r) } := by
  rw [view_set]
  exact View.ext (update_eq_self s.view.pc k) (update_eq_self s.view.phase k) (update_same rfl) rfl rfl

theorem Slot.phase_wake (x : Slot) (c : Option Chan) : (x.wake c).state.phase = x.state.phase := by
  unfold Slot.wake
  split
  · rename_i hx
    rw [hx.1]
    rfl
  · rfl

theorem Slot.inWait_wake (x : Slot) (c : Option Chan) (h : (x.wake c).inWait = true) :
    x.inWait = true ∧ x.chan ≠ c := by
  unfold Slot.wake at h
  split at h
  · rw [Slot.inWait_of_ne (by simp)] at h
    cases h
  · rename_i hx
    exact ⟨h, fun hc => hx ⟨(Slot.inWait_iff.mp h).1, hc⟩⟩

/-- `wakeup` at slot `j` takes at most that slot from its sleep in `wait`. -/
theorem view_wakeup (j : Nat) (c : Option Chan) :
    (s.wakeup p j c).view = { s.view with waiting := (s.wakeup p j c).view.waiting } := by
  refine View.ext (funext fun q => ?_) (funext fun q => ?_) rfl (funext fun q => ?_) ?_
  · show ((s.wakeup p j c).slot q).pc = (s.slot q).pc
    rw [slot_wakeup]
    split
    · unfold Slot.wake
      split <;> rfl
    · rfl
  · show ((s.wakeup p j c).slot q).state.phase = (s.slot q).state.phase
    rw [slot_wakeup]
    split
    · exact Slot.phase_wake _ c
    · rfl
  · show ((s.wakeup p j c).slot q).parent = (s.slot q).parent
    rw [slot_wakeup]
    split
    · unfold Slot.wake
      split <;> rfl
    · rfl
  · show (s.wakeup p j c).waitLock = s.waitLock
    unfold St.wakeup
    split <;> rfl

theorem waiting_wakeup (hq : (s.wakeup p j c).view.waiting q = true) :
    s.view.waiting q = true ∧ (q = j → q ≠ p → (s.slot q).chan ≠ c) := by
  have hq : ((s.wakeup p j c).slot q).inWait = true := hq
  rw [slot_wakeup] at hq
  split at hq
  · exact ⟨(Slot.inWait_wake _ c hq).1, fun _ _ => (Slot.inWait_wake _ c hq).2⟩
  · rename_i hne
    exact ⟨hq, fun hj hp => absurd ⟨hj, hp⟩ hne⟩

/-- A process that sleeps in `wait` on `c` is woken when its slot is looked at. -/
theorem awake_wakeup (hp : (s.slot p).state = .running) (hc : (s.slot j).inWait = true → (s.slot j).chan = c) :
    (s.wakeup p j c).view.waiting j = false := by
  rw [Bool.eq_false_iff]
  intro hw
  obtain ⟨hold, hno⟩ := waiting_wakeup hw
  refine hno rfl ?_ (hc hold)
  rintro rfl
  have hrun : s.view.waiting j = false := Slot.inWait_of_ne (by simp [hp])
  rw [hrun] at hold
  cases hold

/-- A running process stays running when another is woken. -/
theorem running_wakeup (hp : (s.slot p).state = .running) (j : Nat) (c : Option Chan) :
    ((s.wakeup p j c).slot p).state = .running := by
  rw [slot_wakeup]
  split
  · rename_i h
    exact absurd rfl h.2
  · exact hp

theorem Slot.inWait_kill (h : x.kill.inWait = true) : x.inWait = true := by
  have hsl := (Slot.inWait_iff.mp h).1
  simp only [Slot.kill] at hsl
  split at hsl
  · cases hsl
  · exact absurd hsl ‹_›

/-- `kill` takes at most its victim from its sleep in `wait`. -/
theorem view_kill : (s.set k (s.slot k).kill).view =
    { s.view with waiting := (s.set k (s.slot k).kill).view.waiting } := by
  have hph : s.view.phase k = (s.slot k).kill.state.phase := by
    show (s.slot k).state.phase = _
    simp only [Slot.kill]
    split
    · rename_i hsl
      rw [hsl]
      rfl
    · rfl
  rw [view_set]
  exact View.ext (update_eq_self s.view.pc k) (update_same hph) rfl (update_eq_self s.view.parent k) rfl

theorem Quiet.not_inWait {y : Slot} (h : Quiet x y) : y.inWait = false := by
  rw [Bool.eq_false_iff]
  intro hw
  obtain ⟨hsl, copy, hcopy⟩ := Slot.inWait_iff.mp hw
  have hmay := (h.sleep hsl).1
  have hpc : y.pc = x.pc := by rw [h.same]
  rw [← hpc, hcopy] at hmay
  cases hmay

theorem Move.cast {v v1 v2 : View} (h : Move v v1) (he : v1 = v2) : Move v v2 := he ▸ h

theorem Step.move (h : Orderly s.view) (hchan : ∀ q, (s.slot q).inWait = true → (s.slot q).chan = some (.proc q))
    (hs : Step s a s') : Move s.view s'.view := by
  cases hs with
  | call p y a hi hy =>
    have hstart := Pc.starts_plain hy
    refine move_place hi.1 hi.1.2 rfl ?_
    rw [hi.2]
    exact .plain .user y rfl hstart.1 hstart.2
  | pass p y hp hy => exact move_place hp hp.2 rfl hy.goes
  | missing p hp hpc =>
    refine move_place hp hp.2 rfl (.plain _ _ ?_ rfl nofun)
    obtain ⟨k, mem, hpc⟩ | ⟨k, pid, hpc⟩ := hpc
    · exact (congrArg Pc.plain hpc).trans rfl
    · exact (congrArg Pc.plain hpc).trans rfl
  | fault p hi hne =>
    refine move_place hi.1 hi.1.2 rfl ?_
    rw [hi.2]
    exact .plain _ _ rfl rfl fun _ => hne
  | quiet p y a hp hy =>
    have hpc : s.view.pc p = y.pc := by rw [hy.same]; rfl
    have hpar : s.view.parent p = y.parent := by rw [hy.same]; rfl
    have hlive : s.view.phase p = y.state.phase :=
      (PState.phase_of_live hy.live.1).trans (PState.phase_of_live hy.live.2).symm
    refine (Move.stay (s.set p y).view.waiting (waiting_set fun hw => ?_)).cast ?_
    · rw [hy.not_inWait] at hw
      cases hw
    · rw [view_set]
      exact View.ext (update_same hpc).symm (update_same hlive).symm rfl (update_same hpar).symm rfl
  | alloc p k hp hpc hk hu =>
    refine (Move.alloc p k true s.nextpid (runs_of_active hp) hpc hk (congrArg PState.phase hu)).cast ?_
    rw [view_goto (by exact running_set_ne hp.2 (by simp [hu]))]
    exact (congrArg (fun v : View => { v with pc := update v.pc p (.forkParent k s.nextpid) })
      (view_alloc h hu s.nextpid s.born)).symm
  | allocFail p k hp hpc hk hu =>
    have hu' : s.view.phase k = .unused := congrArg PState.phase hu
    -- the slot was free and is free again
    have hsame : (s.set k (freeproc (s.slot k))).view = s.view := by
      rw [view_freeproc (by simp [hu])]
      exact View.ext rfl (update_same hu') rfl (update_same (h.orphan k hu')) rfl
    refine (Move.go p .user s.view.waiting (runs_of_active hp) ?_ fun _ hw => hw).cast ?_
    · exact .plain _ _ ((congrArg Pc.plain hpc).trans rfl) rfl nofun
    · rw [view_ret (by exact running_set_ne hp.2 (by simp [hu]))]
      exact (congrArg (fun v : View => { v with pc := update v.pc p .user }) hsame).symm
  | forkParent p np pid hp hpc hl =>
    refine (Move.forkParent p np pid (runs_of_active hp) hpc hl).cast ?_
    rw [view_goto (running_set hp.2 fun e => e ▸ hp.2), view_parent]
  | forkReady p np pid hp hpc =>
    have hused : (s.slot np).state.phase = .used := h.forks p np (by simp [St.view, hpc, Pc.forks])
    have hst : (s.slot np).state = .used := by
      cases hst : (s.slot np).state <;> simp [hst, PState.phase] at hused ⊢
    refine (Move.forkReady p np pid (runs_of_active hp) hpc).cast ?_
    rw [view_ret (running_set_ne hp.2 (by simp [hst])), view_ready hst]
  | exitAcq p status hp hpc hl =>
    refine (Move.exitAcq p status (runs_of_active hp) hpc hl).cast ?_
    rw [view_goto (s := { s with waitLock := some p }) hp.2]
    rfl
  | waitAcq p copy hp hpc hl =>
    refine (Move.waitAcq p copy (runs_of_active hp) hpc hl).cast ?_
    rw [view_goto (s := { s with waitLock := some p }) hp.2]
    rfl
  | reparent p k status hp hpc hk hpar =>
    refine (Move.reparent p k status (runs_of_active hp) hpc hpar).cast ?_
    rw [view_goto (running_set hp.2 fun e => e ▸ hp.2), view_parent]
  | rewake p k j status hp hpc =>
    refine (Move.rewake p k j status (s.wakeup p j (some (.proc initproc))).view.waiting (runs_of_active hp) hpc
      (fun q hq => (waiting_wakeup hq).1) ?_).cast ?_
    · rintro rfl
      exact awake_wakeup hp.2 (hchan initproc)
    · rw [view_goto (running_wakeup hp.2 j _), view_wakeup]
  | exitWake p j parent status hp hpc =>
    refine (Move.exitWake p j parent status (s.wakeup p j (parent.map .proc)).view.waiting (runs_of_active hp) hpc
      (fun q hq => (waiting_wakeup hq).1) ?_).cast ?_
    · rintro rfl
      exact awake_wakeup hp.2 (hchan j)
    · rw [view_goto (running_wakeup hp.2 j _), view_wakeup]
  | zombie p j parent status hp hpc hj =>
    have hw := (runs_of_active hp).awake
    refine (Move.zombie p j parent status (runs_of_active hp) hpc hj).cast ?_
    show _ = { (s.set p { s.slot p with state := .zombie, xstate := status, pc := .user }).view with lock := none }
    rw [view_set]
    exact View.ext rfl rfl (update_same hw).symm (update_eq_self s.view.parent p).symm rfl
  | reap p k havekids copy hp hpc hk hpar hz =>
    refine (Move.reap p k havekids copy (s.slot k).pid (runs_of_active hp) hpc hpar (congrArg PState.phase hz)).cast ?_
    rw [view_goto (by exact running_set_ne hp.2 (by simp [hz]))]
    exact (congrArg (fun v : View => { v with pc := update v.pc p (.waitRet (s.slot k).pid) })
      (view_freeproc (s := s) (k := k) (by simp [hz]))).symm
  | waitSleep p copy hp hpc =>
    have hph : s.view.phase p = .live := (runs_of_active hp).live
    refine (Move.sleep p copy (runs_of_active hp) hpc).cast ?_
    show _ = { (s.set p { s.slot p with state := .sleeping, chan := some (.proc p), pc := .waitAcq copy }).view with
      lock := none }
    rw [view_set]
    exact View.ext rfl (update_same hph).symm rfl (update_eq_self s.view.parent p).symm rfl
  | waitRet p r hp hpc =>
    refine (Move.waitRet p r (runs_of_active hp) hpc).cast ?_
    rw [view_ret (s := { s with waitLock := none }) hp.2]
    rfl
  | killed p k pid hp hpc hk hpid =>
    have hrun : ((s.set k (s.slot k).kill).slot p).state = .running :=
      running_set hp.2 fun e => by simp [← e, Slot.kill, hp.2]
    refine (Move.go p .user (s.set k (s.slot k).kill).view.waiting (runs_of_active hp) ?_
      (waiting_set Slot.inWait_kill)).cast ?_
    · exact .plain _ _ ((congrArg Pc.plain hpc).trans rfl) rfl nofun
    · rw [view_ret hrun, view_kill]

/-- A process asleep in `wait` sleeps on its own slot. -/
def Slot.Rests (q : Nat) (x : Slot) : Prop := x.inWait = true → x.chan = some (.proc q)

theorem Slot.Rests.of_ne (h : x.state ≠ .sleeping) : x.Rests q := by
  intro hw
  rw [Slot.inWait_of_ne h] at hw
  cases hw

theorem Slot.Rests.wake (h : x.Rests q) (c : Option Chan) : (x.wake c).Rests q := by
  unfold Slot.wake
  split
  · exact .of_ne (by simp)
  · exact h

/-- A running process goes on, after a change of slot `k`. -/
theorem rests_goto (h : ∀ q, (s.slot q).Rests q) (hp : (s.slot p).state = .running) (hx : x.Rests k)
    (hk : p = k → x.state ≠ .sleeping) (y : Pc) (r : Int) (q : Nat) :
    (((s.set k x).set p { (s.set k x).slot p with pc := y, ret := r }).slot q).Rests q := by
  refine forall_set_at (forall_set_at h hx) (.of_ne ?_) q
  by_cases hpk : p = k
  · simpa [slot_set, hpk] using hk hpk
  · simp [slot_set, hpk, hp]

theorem Slot.kill_not_sleeping (x : Slot) : x.kill.state ≠ .sleeping := by
  simp only [Slot.kill]
  split
  · simp
  · assumption

theorem rests_step (h : ∀ q, (s.slot q).Rests q) (hs : Step s a s') : ∀ q, (s'.slot q).Rests q := by
  cases hs with
  | call p y a hi | fault p hi => exact forall_set_at h (.of_ne (by simp [hi.1.2]))
  | quiet p y a hp hy =>
    refine forall_set_at h fun hw => ?_
    rw [hy.not_inWait] at hw
    cases hw
  | pass p y hp | missing p hp | exitAcq p status hp | waitAcq p copy hp | waitRet p r hp =>
    exact forall_set_at h (.of_ne (by simp [hp.2]))
  | zombie p j parent status => exact forall_set_at h (.of_ne (by simp))
  | waitSleep p copy => exact forall_set_at h fun _ => rfl
  | alloc p k hp => exact rests_goto h hp.2 (.of_ne (by simp [allocated])) (fun _ => by simp [allocated]) _ _
  | allocFail p k hp => exact rests_goto h hp.2 (.of_ne (by simp [freeproc])) (fun _ => by simp [freeproc]) _ _
  | forkReady p np pid hp => exact rests_goto h hp.2 (.of_ne (by simp)) (fun _ => by simp) _ _
  | reap p k havekids copy hp =>
    exact rests_goto h hp.2 (.of_ne (by simp [freeproc])) (fun _ => by simp [freeproc]) _ _
  | killed p k pid hp =>
    exact rests_goto h hp.2 (.of_ne (Slot.kill_not_sleeping _)) (fun _ => Slot.kill_not_sleeping _) _ _
  | forkParent p np pid hp =>
    exact rests_goto (x := { s.slot np with parent := some p }) h hp.2 (h np) (fun e => by simp [← e, hp.2]) _ _
  | reparent p k status hp =>
    exact rests_goto (x := { s.slot k with parent := some initproc }) h hp.2 (h k) (fun e => by simp [← e, hp.2]) _ _
  | rewake p k j status hp | exitWake p j parent status hp =>
    refine forall_set_at (fun q => ?_) (.of_ne (by simp [running_wakeup hp.2]))
    rw [slot_wakeup]
    split
    · exact (h q).wake _
    · exact h q

/-! ## Every table that is reached -/

theorem orderly_init : Orderly init.view := by
  have hpc : ∀ p, init.view.pc p = .user := fun p => by
    by_cases hp : p = initproc <;> simp [init, St.view, update, blank, hp]
  have hparent : ∀ p, init.view.parent p = none := fun p => by
    by_cases hp : p = initproc <;> simp [init, St.view, update, blank, hp]
  have hphase : ∀ p, p ≠ initproc → init.view.phase p = .unused := fun p hp => by
    simp [init, St.view, update, blank, hp, PState.phase]
  constructor
  case place => exact fun p h => absurd (hpc p) h
  case holder =>
    intro p
    have hl : init.view.lock = none := rfl
    simp [hpc p, hl, Pc.holds]
  case waits =>
    intro p h
    by_cases hp : p = initproc <;> simp [init, St.view, update, blank, hp, Slot.inWait] at h
  case low => exact fun p hp => hphase p fun h => absurd (h ▸ hp) (by decide)
  case init => rfl
  case orphan => exact fun q _ => hparent q
  case kin =>
    intro q hq h
    simp [hphase q hq] at h
  all_goals simp [hpc, hparent, Pc.exits, Pc.forks, Pc.given, Pc.scanned]

theorem orderly_reached {ok : St → Act → Prop} (h : Reached ok s) : Orderly s.view ∧ ∀ q, (s.slot q).Rests q := by
  refine Reach.inv (I := fun s => Orderly s.view ∧ ∀ q, (s.slot q).Rests q) h ⟨orderly_init, fun q hw => ?_⟩
    fun s a s' hi _ hs => ⟨hi.1.move ((step_of_act hs).move hi.1 hi.2), rests_step hi.2 (step_of_act hs)⟩
  by_cases hq : q = initproc <;> simp [init, update, blank, hq, Slot.inWait] at hw

end

end Xv6.Proc
