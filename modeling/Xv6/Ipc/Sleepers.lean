/-
  Xv6.Ipc.Sleepers — who may sleep on a pipe.

  A reader sleeps on `&pi->nread` while the pipe is empty and its write end open, a writer on
  `&pi->nwrite` while it is full and its read end open. The process that holds the lock may
  have ended such a wait and still owe the `wakeup`; `Owes` says to whom.

  A `pipewrite` that finds itself killed returns without the `wakeup` for the bytes that it has
  stored since its last one.

  Proved: `no_sleeper_is_stranded`, `killed_writer_strands_a_reader`.
-/

import Xv6.Ipc.Pipe

namespace Xv6.Ipc

open Xv6.Lib

/-- What a process that sleeps on `c` waits for has not happened. -/
def Pipe.Waits (pi : Pipe) : Chan → Prop
  | .nread => pi.Empty ∧ pi.writeopen = true
  | .nwrite => pi.Full ∧ pi.readopen = true
  | .other _ => True

/-- A process at this place will still wake slot `q` from `c` before it gives up the lock. -/
def Pc.Owes (c : Chan) (q : Nat) : Pc → Prop
  | .wloop .. => c = .nread
  | .rcopy .. => c = .nwrite
  | .waking k next => c = next.chan ∧ k ≤ q
  | _ => False

theorem Pc.Owes.holds {c : Chan} {q : Nat} {x : Pc} (h : x.Owes c q) : x.holds = true := by
  cases x <;> first | rfl | cases h

/-- A process is asleep although what it waits for has happened, and nobody is about to wake it. -/
def Stranded (s : St) : Prop := s.lock = none ∧ ∃ q c, c.isPipe = true ∧ s.asleep q c ∧ ¬ s.pipe.Waits c

/-- What a user of an end sleeps on. -/
def endChan (w : Bool) : Chan := if w then .nwrite else .nread

structure Shape (s : St) : Prop where
  locked : Locked s
  low : ∀ q, nproc ≤ q → s.pc q = .out
  sleeper : ∀ q w, s.asleep q (endChan w) → (s.pc q).uses w = true
  /-- An end in use is open and is not being closed. -/
  ends : ∀ q w, (s.pc q).uses w = true → s.pipe.isOpen w = true ∧ ∀ p, (s.pc p).closes w = false
  full : ∀ p k i n src, s.pc p = .waking k (.wsleep i n src) → s.pipe.Full ∧ s.pipe.readopen = true

structure Tended (s : St) : Prop extends Shape s where
  settled : ∀ q c, c.isPipe = true → s.asleep q c → s.pipe.Waits c ∨ ∃ p, (s.pc p).Owes c q

section

variable {s s' : St} {p q : Nat} {c d : Chan} {x : Pc} {a : Act}

theorem Tended.not_stranded (h : Tended s) : ¬ Stranded s := by
  rintro ⟨hl, q, c, hc, hq, hw⟩
  obtain hw' | ⟨p, hp⟩ := h.settled q c hc hq
  · exact hw hw'
  · rw [(h.locked.holder p).mp hp.holds] at hl
    cases hl

/-- While the lock is free nobody owes a wakeup. -/
theorem Tended.waits_of_free (h : Tended s) (hl : s.lock = none) (hc : c.isPipe = true) (hq : s.asleep q c) :
    s.pipe.Waits c := by
  by_contra hw
  exact h.not_stranded ⟨hl, q, c, hc, hq, hw⟩

/-- Only the process that holds the lock owes a wakeup. -/
theorem Tended.waits_or_owes (h : Tended s) (hp : (s.pc p).holds = true) (hc : c.isPipe = true) (hq : s.asleep q c) :
    s.pipe.Waits c ∨ (s.pc p).Owes c q := by
  refine (h.settled q c hc hq).imp_right ?_
  rintro ⟨r, hr⟩
  have h1 := (h.locked.holder r).mp hr.holds
  rw [(h.locked.holder p).mp hp] at h1
  cases h1
  exact hr

theorem Shape.lt_nproc (h : Shape s) (hc : c.isPipe = true) (hq : s.asleep q c) : q < nproc := by
  by_contra hge
  obtain ⟨w, rfl⟩ : ∃ w, c = endChan w := by
    cases c with
    | nread => exact ⟨false, rfl⟩
    | nwrite => exact ⟨true, rfl⟩
    | other n => cases hc
  have hu := h.sleeper q w hq
  rw [h.low q (Nat.le_of_not_lt hge)] at hu
  cases hu

/-! ## What the operations do to the sleepers -/

theorem asleep_goto : (s.goto p x).asleep q c ↔ s.asleep q c := by
  by_cases hq : q = p <;> simp [St.asleep, St.goto, St.setProc, update, hq]

theorem asleep_leave {r : Int} : (s.leave p r).asleep q c ↔ s.asleep q c := by
  by_cases hq : q = p <;> simp [St.asleep, St.leave, update, hq]

theorem asleep_acquire : (s.acquire p x).asleep q c ↔ q ≠ p ∧ s.asleep q c := by
  by_cases hq : q = p <;> simp [St.asleep, St.acquire, update, hq]

theorem asleep_sleep : (s.sleep p d x).asleep q c ↔ (q = p ∧ c = d) ∨ (q ≠ p ∧ s.asleep q c) := by
  by_cases hq : q = p <;> simp [St.asleep, St.sleep, update, hq, eq_comm]

theorem asleep_wake {k : Nat} :
    (s.wake p k d).asleep q c ↔ s.asleep q c ∧ ¬ (q = k ∧ q ≠ p ∧ c = d) := by
  unfold St.wake
  by_cases hk : k ≠ p ∧ (s.proc k).run = .sleeping ∧ (s.proc k).chan = some d
  · rw [if_pos hk]
    by_cases hq : q = k
    · subst hq
      simp [St.asleep, St.setProc, update, hk.1, hk.2.1, hk.2.2, eq_comm]
    · simp [St.asleep, St.setProc, update, hq]
  · rw [if_neg hk]
    refine ⟨fun ha => ⟨ha, ?_⟩, fun ha => ha.1⟩
    rintro ⟨rfl, hp, rfl⟩
    exact hk ⟨hp, ha.1, ha.2⟩

theorem Pc.closes_of_uses {w : Bool} (h : x.uses w = true) : x.closes w = false := by
  cases x with
  | waking k next => cases next <;> first | rfl | cases h
  | _ => first | rfl | cases h

/-! ## Places -/

/-- Process `p` moves to `x`: what it must respect for the shape to stay. -/
structure Fair (s : St) (p : Nat) (x : Pc) (s' : St) : Prop where
  lt : p < nproc
  pc : s'.pc = update s.pc p x
  pipe : s'.pipe = s.pipe ∨ s.lock = none ∨ s.lock = some p
  uses : ∀ w, x.uses w = true →
    (s.pc p).uses w = true ∨ (s.pipe.isOpen w = true ∧ ∀ q, (s.pc q).closes w = false)
  closes : ∀ w, x.closes w = true → (s.pc p).closes w = true ∨ ∀ q, (s.pc q).uses w = false
  isOpen : ∀ w, s'.pipe.isOpen w = s.pipe.isOpen w ∨ ((s.pc p).closes w = true ∧ x.uses w = false)
  full : ∀ k i n src, x = .waking k (.wsleep i n src) → s'.pipe.Full ∧ s'.pipe.readopen = true
  sleep : ∀ q w, s'.asleep q (endChan w) → (q ≠ p ∧ s.asleep q (endChan w)) ∨ (q = p ∧ x.uses w = true)

theorem Fair.shape (hf : Fair s p x s') (h : Shape s) (hl : Locked s') : Shape s' := by
  have hself : s'.pc p = x := by rw [hf.pc, update_self]
  have hother : ∀ q, q ≠ p → s'.pc q = s.pc q := fun q hq => by rw [hf.pc, update_of_ne hq]
  refine ⟨hl, fun q hq => ?_, fun q w hq => ?_, fun q w hq => ?_, fun q k i n src hq => ?_⟩
  · have hlt := hf.lt
    rw [hother q (by omega)]
    exact h.low q hq
  · obtain ⟨hqp, ha⟩ | ⟨rfl, hu⟩ := hf.sleep q w hq
    · rw [hother q hqp]
      exact h.sleeper q w ha
    · rw [hself]
      exact hu
  · -- the user's end is open in `s` and nobody closes it there
    have hold : s.pipe.isOpen w = true ∧ ∀ r, (s.pc r).closes w = false := by
      by_cases hqp : q = p
      · subst hqp
        rw [hself] at hq
        obtain hu | hu := hf.uses w hq
        · exact h.ends q w hu
        · exact hu
      · rw [hother q hqp] at hq
        exact h.ends q w hq
    refine ⟨?_, fun r => ?_⟩
    · obtain ho | ⟨ho, -⟩ := hf.isOpen w
      · rw [ho, hold.1]
      · rw [hold.2 p] at ho
        cases ho
    · by_cases hr : r = p
      · subst hr
        rw [hself, Bool.eq_false_iff]
        intro hc
        by_cases hqr : q = r
        · subst hqr
          rw [hself] at hq
          rw [Pc.closes_of_uses hq] at hc
          cases hc
        · obtain hcl | hnone := hf.closes w hc
          · rw [hold.2 r] at hcl
            cases hcl
          · rw [hother q hqr, hnone q] at hq
            cases hq
      · rw [hother r hr]
        exact hold.2 r
  · by_cases hqp : q = p
    · subst hqp
      rw [hself] at hq
      exact hf.full k i n src hq
    · rw [hother q hqp] at hq
      obtain hpi | hl' := hf.pipe
      · rw [hpi]
        exact h.full q k i n src hq
      · have hh := (h.locked.holder q).mp (by rw [hq]; rfl)
        rw [hh] at hl'
        obtain hl' | hl' := hl'
        · cases hl'
        · exact absurd (Option.some.inj hl') hqp

/-- A running process is not asleep. -/
theorem not_asleep_of_active (hp : s.active p) : ¬ s.asleep p c := by
  rintro ⟨hr, -⟩
  rw [hp.2] at hr
  cases hr

/-- What is so of every slot of the table is so of every place. -/
theorem Shape.forall_pc {P : Pc → Prop} (h : Shape s) (hout : P .out) (hq : ∀ q < nproc, P (s.pc q)) (q : Nat) :
    P (s.pc q) := by
  by_cases hlt : q < nproc
  · exact hq q hlt
  · rw [h.low q (Nat.le_of_not_lt hlt)]
    exact hout

/-- A running process moves on inside the code: it keeps to its end, with the lock free or its own. -/
theorem fair_inside (hp : s.active p) (hpc : s'.pc = update s.pc p x) (hlock : s.lock = none ∨ s.lock = some p)
    (huse : ∀ w, x.uses w = true → (s.pc p).uses w = true)
    (hclose : ∀ w, x.closes w = true → (s.pc p).closes w = true)
    (hopen : ∀ w, s'.pipe.isOpen w = s.pipe.isOpen w ∨ ((s.pc p).closes w = true ∧ x.uses w = false))
    (hfull : ∀ k i n src, x = .waking k (.wsleep i n src) → s'.pipe.Full ∧ s'.pipe.readopen = true)
    (hsleep : ∀ q w, s'.asleep q (endChan w) → s.asleep q (endChan w) ∨ (q = p ∧ x.uses w = true)) :
    Fair s p x s' := by
  refine ⟨hp.1, hpc, Or.inr hlock, fun w hw => Or.inl (huse w hw), fun w hw => Or.inl (hclose w hw), hopen, hfull,
    fun q w hq => (hsleep q w hq).imp_left fun ha => ⟨?_, ha⟩⟩
  rintro rfl
  exact not_asleep_of_active hp ha

/-- A process outside makes a call. -/
theorem fair_call (hi : s.idle p)
    (huse : ∀ w, x.uses w = true → s.pipe.isOpen w = true ∧ ∀ q, (s.pc q).closes w = false)
    (hclose : ∀ w, x.closes w = true → ∀ q, (s.pc q).uses w = false)
    (hx : ∀ k next, x ≠ .waking k next) : Fair s p x (s.goto p x) := by
  refine ⟨hi.1, pc_goto .., Or.inl rfl, fun w hw => Or.inr (huse w hw), fun w hw => Or.inr (hclose w hw),
    fun w => Or.inl rfl, fun k i n src h => absurd h (hx k _), fun q w hq => Or.inl ?_⟩
  have ha := asleep_goto.mp hq
  exact ⟨fun hqp => not_asleep_of_active ⟨hi.1, hi.2.1⟩ (hqp ▸ ha), ha⟩

theorem Shape.step (h : Shape s) (hs : Step s a s') : Shape s' := by
  have hl := h.locked.step hs
  -- who moves from a place that holds the lock has it
  have hmine : ∀ {p x}, s.pc p = x → x.holds = true → s.lock = none ∨ s.lock = some p :=
    fun hpc hx => Or.inr ((h.locked.holder _).mp (by rw [hpc, hx]))
  cases hs with
  | write p n src hi ho hc =>
    refine Fair.shape (fair_call hi (fun w hw => ?_) (by simp [Pc.closes]) (by simp)) h hl
    cases (hw : w = true)
    exact ⟨ho, h.forall_pc (P := fun x => x.closes true = false) rfl hc⟩
  | read p n dst hi ho hc =>
    refine Fair.shape (fair_call hi (fun w hw => ?_) (by simp [Pc.closes]) (by simp)) h hl
    cases w with
    | true => cases hw
    | false => exact ⟨ho, h.forall_pc (P := fun x => x.closes false = false) rfl hc⟩
  | close p v hi ho hc =>
    refine Fair.shape (fair_call hi (by simp [Pc.uses]) (fun w hw => ?_) (by simp)) h hl
    obtain rfl : v = w := by simpa [Pc.closes] using hw
    exact h.forall_pc (P := fun x => x.uses v = false) rfl fun q hq => (hc q hq).1
  | quiet p y a hp hy =>
    have hpc : s.pc p = y.pc := hy.pc.symm
    refine Fair.shape (x := y.pc) ⟨hp, pc_setProc .., Or.inl rfl, fun w hw => Or.inl (hpc ▸ hw),
      fun w hw => Or.inl (hpc ▸ hw), fun w => Or.inl rfl, fun k i n src hx => h.full p k i n src (hpc.trans hx),
      fun q w hq => ?_⟩ h hl
    by_cases hqp : q = p
    · subst hqp
      refine Or.inr ⟨rfl, ?_⟩
      rw [hy.pc]
      refine h.sleeper q w (hy.sleep _ (by cases w <;> rfl) ?_ ?_)
      · simpa [St.setProc, update] using hq.1
      · simpa [St.setProc, update] using hq.2
    · exact Or.inl ⟨hqp, by simpa [St.asleep, St.setProc, update, hqp] using hq⟩
  | wacq p i n src hp hpc h0 | racq p n dst hp hpc h0 =>
    exact Fair.shape (fair_inside hp (pc_acquire ..) (Or.inl h0) (by simp [hpc, Pc.uses]) (by simp [Pc.closes])
      (fun w => Or.inl rfl) (by simp) fun q w hq => Or.inl (asleep_acquire.mp hq).2) h hl
  | cacq p v hp hpc h0 =>
    refine Fair.shape (fair_inside hp (pc_acquire ..) (Or.inl h0) (by simp [Pc.uses]) (by simp [hpc, Pc.closes]) (fun w => ?_)
      (by simp) fun q w hq => Or.inl (asleep_acquire.mp hq).2) h hl
    by_cases hvw : v = w
    · exact Or.inr ⟨by simp [hpc, Pc.closes, hvw], rfl⟩
    · refine Or.inl ?_
      cases v <;> cases w <;> first | rfl | exact absurd rfl hvw
  | wstop p i n src hp hpc | rstop p n dst hp hpc | ret p k next r hp hpc =>
    exact Fair.shape (fair_inside hp (pc_leave ..) (hmine hpc rfl) (by simp [Pc.uses]) (by simp [Pc.closes])
      (fun w => Or.inl rfl) (by simp) fun q w hq => Or.inl (asleep_leave.mp hq)) h hl
  | wfull p i n src hp hpc ho hf =>
    exact Fair.shape (fair_inside hp (pc_goto ..) (hmine hpc rfl) (by simp [hpc, Pc.uses]) (by simp [Pc.closes])
      (fun w => Or.inl rfl) (fun k i n src _ => ⟨hf, ho⟩) fun q w hq => Or.inl (asleep_goto.mp hq)) h hl
  | wput p i n src ch hp hpc | wend p i n src hp hpc | rstart p n dst hp hpc | rtake p i n dst hp hpc
  | rlose p i n dst hp hpc | rend p i n dst hp hpc =>
    exact Fair.shape (fair_inside hp (pc_goto ..) (hmine hpc rfl) (by simp [hpc, Pc.uses]) (by simp [Pc.closes])
      (fun w => Or.inl rfl) (by simp) fun q w hq => Or.inl (asleep_goto.mp hq)) h hl
  | rsleep p n dst hp hpc | wsleep p k i n src hp hpc =>
    refine Fair.shape (fair_inside hp (pc_sleep ..) (hmine hpc rfl) (by simp [hpc, Pc.uses]) (by simp [Pc.closes])
      (fun w => Or.inl rfl) (by simp) fun q w hq => ?_) h hl
    obtain ⟨rfl, hw⟩ | ⟨-, ha⟩ := asleep_sleep.mp hq
    · cases w <;> first | exact Or.inr ⟨rfl, rfl⟩ | cases hw
    · exact Or.inl ha
  | wake p k next hp hpc =>
    refine Fair.shape (fair_inside hp (by rw [pc_goto, pc_wake]) (hmine hpc rfl) ?_ ?_ (fun w => Or.inl ?_) ?_
      fun q w hq => Or.inl (asleep_wake.mp (asleep_goto.mp hq)).1) h hl
    · rw [hpc]
      cases next <;> exact fun w hw => hw
    · rw [hpc]
      cases next <;> exact fun w hw => hw
    · exact congrArg (·.isOpen w) (wake_pipe ..)
    · rintro _ i n src hx
      cases hx
      have hf := h.full p k i n src hpc
      rw [← wake_pipe s p k (Next.chan (.wsleep i n src))] at hf
      exact hf

/-! ## Wakeups -/

/-- A `pipewrite` that stops because its process was killed leaves an empty pipe or no sleeping reader. -/
def Prompt (s : St) (a : Act) : Prop :=
  ∀ p i n src, a = .step p → s.pc p = .wloop i n src → (i : Int) < n → (s.proc p).killed = true →
    s.pipe.Empty ∨ ∀ q, ¬ s.asleep q .nread

/-- The pipe and the sleepers stay, and so does what the lock's holder owes. -/
theorem Tended.keep (h : Tended s) (hsh : Shape s') (hpi : s'.pipe = s.pipe)
    (hsl : ∀ q c, c.isPipe = true → s'.asleep q c → s.asleep q c)
    (how : ∀ r q c, (s.pc r).Owes c q → (s'.pc r).Owes c q) : Tended s' := by
  refine ⟨hsh, fun q c hc hq => ?_⟩
  rw [hpi]
  exact (h.settled q c hc (hsl q c hc hq)).imp_right fun ⟨r, hr⟩ => ⟨r, how r q c hr⟩

/-- A call from outside. -/
theorem Tended.call (h : Tended s) (hi : s.idle p) (hsh : Shape (s.goto p x)) : Tended (s.goto p x) := by
  refine h.keep hsh rfl (fun q c _ hq => asleep_goto.mp hq) fun r q c hr => ?_
  rw [pc_goto, update_of_ne]
  · exact hr
  · rintro rfl
    rw [St.pc, Pc.eq_out hi.2.2] at hr
    exact hr

/-- The lock's holder moves to `x`: every sleeper still waits, or `x` owes it the wakeup. -/
theorem Tended.move (h : Tended s) (hsh : Shape s') (hold : (s.pc p).holds = true) (hpc : s'.pc = update s.pc p x)
    (hset : ∀ q c, c.isPipe = true → s'.asleep q c →
      (s.asleep q c → s.pipe.Waits c ∨ (s.pc p).Owes c q) → s'.pipe.Waits c ∨ x.Owes c q) : Tended s' := by
  refine ⟨hsh, fun q c hc hq => ?_⟩
  refine (hset q c hc hq fun ha => h.waits_or_owes hold hc ha).imp_right fun ho => ⟨p, ?_⟩
  rw [hpc, update_self]
  exact ho

/-- The lock is taken. -/
theorem Tended.take (h : Tended s) (hsh : Shape s') (hfree : s.lock = none) (hpc : s'.pc = update s.pc p x)
    (hset : ∀ q c, c.isPipe = true → s'.asleep q c → s.asleep q c ∧ (s.pipe.Waits c → s'.pipe.Waits c ∨ x.Owes c q)) :
    Tended s' := by
  refine ⟨hsh, fun q c hc hq => ?_⟩
  obtain ⟨ha, hw⟩ := hset q c hc hq
  refine (hw (h.waits_of_free hfree hc ha)).imp_right fun ho => ⟨p, ?_⟩
  rw [hpc, update_self]
  exact ho

theorem Tended.step (h : Tended s) (hs : Step s a s') (hok : Prompt s a) : Tended s' := by
  have hsh := h.toShape.step hs
  have hholds : ∀ {p x}, s.pc p = x → x.holds = true → (s.pc p).holds = true := fun hpc hx => by rw [hpc, hx]
  cases hs with
  | write p n src hi => exact h.call hi hsh
  | read p n dst hi => exact h.call hi hsh
  | close p w hi => exact h.call hi hsh
  | quiet p y a hp hy =>
    refine h.keep hsh rfl (fun q c hc hq => ?_) fun r q c hr => ?_
    · by_cases hqp : q = p
      · subst hqp
        exact hy.sleep c hc (by simpa [St.setProc, update] using hq.1) (by simpa [St.setProc, update] using hq.2)
      · simpa [St.asleep, St.setProc, update, hqp] using hq
    · have hsame : (s.setProc p y).pc = s.pc := by
        rw [pc_setProc, hy.pc]
        exact update_eq_self s.pc p
      rw [hsame]
      exact hr
  | wacq p i n src hp hpc h0 | racq p n dst hp hpc h0 =>
    exact h.take hsh h0 (pc_acquire ..) fun q c hc hq => ⟨(asleep_acquire.mp hq).2, Or.inl⟩
  | cacq p w hp hpc h0 =>
    -- the sleepers on the other end are the ones that the close wakes
    refine h.take hsh h0 (pc_acquire ..) fun q c hc hq => ⟨(asleep_acquire.mp hq).2, fun hw => ?_⟩
    by_cases hcw : c = closeChan w
    · exact Or.inr ⟨hcw, Nat.zero_le q⟩
    · refine Or.inl ?_
      cases c with
      | other d => cases hc
      | nread =>
        cases w with
        | false => exact hw
        | true => exact absurd rfl hcw
      | nwrite =>
        cases w with
        | false => exact absurd rfl hcw
        | true => exact hw
  | wstop p i n src hp hpc hlt hstop =>
    refine h.move hsh (hholds hpc rfl) (pc_leave ..) fun q c hc hq hold => ?_
    have ha := asleep_leave.mp hq
    obtain hw | ho := hold ha
    · exact Or.inl hw
    · rw [hpc] at ho
      cases (ho : c = .nread)
      have hopen := (h.ends p true (by rw [hpc]; rfl)).1
      obtain hro | hk := hstop
      · have := (h.ends q false (h.sleeper q false ha)).1
        rw [Pipe.isOpen, if_neg Bool.false_ne_true, hro] at this
        cases this
      · obtain he | hno := hok p i n src rfl hpc hlt hk
        · exact Or.inl ⟨he, hopen⟩
        · exact absurd ha (hno q)
  | wfull p i n src hp hpc ho hf | wend p i n src hp hpc | rend p i n dst hp hpc =>
    refine h.move hsh (hholds hpc rfl) (pc_goto ..) fun q c hc hq hold => ?_
    refine (hold (asleep_goto.mp hq)).imp_right fun ho => ?_
    rw [hpc] at ho
    exact ⟨ho, Nat.zero_le q⟩
  | wput p i n src ch hp hpc hnf =>
    refine h.move hsh (hholds hpc rfl) (pc_goto ..) fun q c hc hq hold => Or.inr ?_
    obtain hw | ho := hold (asleep_goto.mp hq)
    · cases c with
      | nread => rfl
      | nwrite => exact absurd hw.1 hnf
      | other d => cases hc
    · rw [hpc] at ho
      exact ho
  | rstop p n dst hp hpc =>
    refine h.move hsh (hholds hpc rfl) (pc_leave ..) fun q c hc hq hold => ?_
    refine (hold (asleep_leave.mp hq)).imp_right fun ho => ?_
    rw [hpc] at ho
    exact ho
  | rsleep p n dst hp hpc he ho =>
    refine h.move hsh (hholds hpc rfl) (pc_sleep ..) fun q c hc hq hold => ?_
    obtain ⟨-, rfl⟩ | ⟨-, ha⟩ := asleep_sleep.mp hq
    · exact Or.inl ⟨he, ho⟩
    · refine (hold ha).imp_right fun ho => ?_
      rw [hpc] at ho
      exact ho
  | rstart p n dst hp hpc =>
    refine h.move hsh (hholds hpc rfl) (pc_goto ..) fun q c hc hq hold => ?_
    refine (hold (asleep_goto.mp hq)).imp_right fun ho => ?_
    rw [hpc] at ho
    exact ho.elim
  | rtake p i n dst hp hpc hne =>
    refine h.move hsh (hholds hpc rfl) (pc_goto ..) fun q c hc hq hold => Or.inr ?_
    obtain hw | ho := hold (asleep_goto.mp hq)
    · cases c with
      | nread => exact absurd hw.1 hne
      | nwrite => rfl
      | other d => cases hc
    · rw [hpc] at ho
      exact ho
  | rlose p i n dst hp hpc hne =>
    refine h.move hsh (hholds hpc rfl) (pc_goto ..) fun q c hc hq hold => Or.inr ?_
    obtain hw | ho := hold (asleep_goto.mp hq)
    · cases c with
      | nread => exact absurd hw.1 hne
      | nwrite => exact ⟨rfl, Nat.zero_le q⟩
      | other d => cases hc
    · rw [hpc] at ho
      exact ⟨ho, Nat.zero_le q⟩
  | wake p k next hp hpc hk =>
    refine h.move hsh (hholds hpc rfl) (by rw [pc_goto, pc_wake]) fun q c hc hq hold => ?_
    obtain ⟨ha, hnot⟩ := asleep_wake.mp (asleep_goto.mp hq)
    refine (hold ha).imp (fun hw => ?_) fun ho => ?_
    · show (s.wake p k next.chan).pipe.Waits c
      rw [wake_pipe]
      exact hw
    · rw [hpc] at ho
      refine ⟨ho.1, Nat.lt_of_le_of_ne ho.2 ?_⟩
      rintro rfl
      exact hnot ⟨rfl, fun hkp => not_asleep_of_active hp (hkp ▸ ha), ho.1⟩
  | wsleep p k i n src hp hpc hk =>
    refine h.move hsh (hholds hpc rfl) (pc_sleep ..) fun q c hc hq hold => Or.inl ?_
    obtain ⟨-, rfl⟩ | ⟨-, ha⟩ := asleep_sleep.mp hq
    · exact h.full p k i n src hpc
    · obtain hw | ho := hold ha
      · exact hw
      · rw [hpc] at ho
        exact absurd (h.lt_nproc hc ha) (Nat.not_lt.mpr (Nat.le_trans hk ho.2))
  | ret p k next r hp hpc hk =>
    refine h.move hsh (hholds hpc rfl) (pc_leave ..) fun q c hc hq hold => Or.inl ?_
    have ha := asleep_leave.mp hq
    obtain hw | ho := hold ha
    · exact hw
    · rw [hpc] at ho
      exact absurd (h.lt_nproc hc ha) (Nat.not_lt.mpr (Nat.le_trans hk ho.2))

theorem tended_init : Tended init where
  locked := locked_init
  low _ _ := rfl
  sleeper _ _ h := by cases h.1
  ends _ _ h := by cases h
  full _ _ _ _ _ h := by cases h
  settled _ _ _ h := by cases h.1

theorem tended_reached (h : Reached Prompt s) : Tended s :=
  Reach.inv h tended_init fun _ _ _ hi hok hs => hi.step (step_of_act hs) hok

/-- A killed writer's return is the one step that can leave a sleeper behind. -/
theorem prompt_of_not_stranded (hs : act s a = some s') (h : ¬ Stranded s') : Prompt s a := by
  rintro p i n src rfl hpc hlt hk
  by_contra hno
  obtain ⟨hne, hq⟩ := not_or.mp hno
  obtain ⟨q, hq⟩ := not_forall_not.mp hq
  refine h ?_
  obtain rfl : s.leave p (-1) = s' := by
    have hpc' : (s.proc p).pc = .wloop i n src := hpc
    simp only [act, Option.ite_none_right_eq_some, advance, hpc', hlt, if_true, hk, or_true, Option.some.injEq] at hs
    exact hs.2
  exact ⟨rfl, q, .nread, rfl, asleep_leave.mpr hq, fun hw => hne hw.1⟩

/-- No process is left asleep on a pipe, exactly as long as no killed writer leaves with bytes in the pipe and a reader
    asleep. -/
theorem no_sleeper_is_stranded (s : St) (h : Reached Prompt s) :
    ¬ Stranded s ∧ ∀ a s', act s a = some s' → (¬ Stranded s' ↔ Prompt s a) := by
  have ht := tended_reached h
  exact ⟨ht.not_stranded, fun a s' hs =>
    ⟨prompt_of_not_stranded hs, fun hok => (ht.step (step_of_act hs) hok).not_stranded⟩⟩

/-- Does a process that has not been killed take the step? -/
def alive (s : St) : Act → Bool
  | .step p => !(s.proc p).killed
  | _ => true

theorem prompt_of_alive (h : alive s a = true) : Prompt s a := by
  rintro p i n src rfl - - hk
  simp [alive, hk] at h

/-- A reader finds the pipe empty and sleeps, and a writer stores a byte. -/
def readerAsleep : List Act :=
  [.sched 0, .sched 1, .read 1 1 fun _ => true, .step 1, .step 1, .write 0 2 fun _ => some 7, .step 0, .step 0]

theorem no_sleeper_is_stranded_asleep : ∃ s, Reached Prompt s ∧ s.asleep 1 .nread ∧ ¬ Stranded s ∧
    ∀ a s', act s a = some s' → (¬ Stranded s' ↔ Prompt s a) := by
  have hrun : (run (guarded alive act) init readerAsleep).map (fun s => decide (s.asleep 1 .nread)) = some true := by
    decide +kernel
  obtain ⟨s, hs, hq⟩ := Option.map_eq_some_iff.mp hrun
  have hr : Reached Prompt s := reach_of_guarded (fun _ _ => prompt_of_alive) hs
  exact ⟨s, hr, of_decide_eq_true hq, no_sleeper_is_stranded s hr⟩

/-- The writer is killed before it has stored its second byte: it returns without a `wakeup`. -/
theorem killed_writer_strands_a_reader : ∃ s, Reached (fun _ _ => True) s ∧ Stranded s := by
  have hrun : (run act init (readerAsleep ++ [.kill 0, .step 0])).map
      (fun s => (s.lock, decide (s.asleep 1 .nread), decide s.pipe.Empty)) = some (none, true, false) := by
    decide +kernel
  obtain ⟨s, hs, he⟩ := Option.map_eq_some_iff.mp hrun
  simp only [Prod.mk.injEq, decide_eq_true_eq, decide_eq_false_iff_not] at he
  exact ⟨s, reach_of_run (fun _ _ _ => trivial) hs, he.1, 1, .nread, rfl, he.2.1, fun hw => he.2.2 hw.1⟩

end

end Xv6.Ipc
