/-
  Xv6.Sleeplock — sleep-locks (kernel/sleeplock.c; kernel/proc.c: `sleep`, `wakeup`, `kill`).

  The processes in the `n` slots of the process table use one sleep-lock; `pid p` is the pid of the process in slot `p`.
  A step is what a process does up to the next point where another can come between: an acquisition of `lk->lk`, a test
  of the loop with what follows it, a slot's turn in `wakeup`. In `sleep`, a process has its own `p->lock` from before it
  releases `lk->lk` until it is SLEEPING, and `wakeup` and `kill` wait for that lock, so this is one step too. A sleeper
  that is killed is roused.

  Proved: `sleeplock_excludes`.
-/

import Xv6.Lib.Monitor

namespace Xv6.Sleeplock

open Xv6.Lib

structure Lock where
  locked : Bool
  pid : Nat

def holdingsleep (lk : Lock) (pid : Nat) : Bool := lk.locked && lk.pid == pid

inductive Pc
  | out
  /-- `acquiresleep`, about to acquire `lk->lk`: at its start, or in `sleep`. -/
  | acq
  | loop
  /-- `acquiresleep` has returned. -/
  | inside
  /-- `releasesleep`, about to acquire `lk->lk`. -/
  | racq
  /-- In `wakeup`, at slot `k`. -/
  | waking (k : Nat)

/-- Holds `lk->lk`. -/
def Pc.holds : Pc → Bool
  | .loop | .waking _ => true
  | _ => false

/-- Between its `acquiresleep` and its `releasesleep`. -/
def Pc.between : Pc → Bool
  | .inside | .racq => true
  | _ => false

def next (pid : Nat → Nat) (n p : Nat) (_ : Unit) (x : Pc) (lk : Lock) : Option (Move Pc Lock) :=
  if p < n then
    match x with
    | .out => some { pc := .acq, data := lk }
    | .acq => some { pc := .loop, data := lk }
    | .loop =>
      if lk.locked = true then some { pc := .acq, data := lk, sleeps := true }
      else some { pc := .inside, data := ⟨true, pid p⟩ }
    | .inside => some { pc := .racq, data := lk }
    | .racq => some { pc := .waking 0, data := ⟨false, 0⟩ }
    | .waking k =>
      if k < n then some { pc := .waking (k + 1), data := lk, wakes := some k } else some { pc := .out, data := lk }
  else none

abbrev act (pid : Nat → Nat) (n : Nat) : Monitor Pc Lock → Turn Unit → Option (Monitor Pc Lock) :=
  Monitor.act Pc.holds (next pid n)

/-- After `initsleeplock`. -/
def init : Monitor Pc Lock := ⟨none, fun _ => false, fun _ => .out, ⟨false, 0⟩⟩

/-- Process `q` may sleep on the sleep-lock. -/
def Waits (o : Option Pc) (lk : Lock) (q : Nat) : Prop :=
  match o with
  | some (.waking k) => lk.locked = true ∨ k ≤ q
  | _ => lk.locked = true

variable {pid : Nat → Nat} {n p : Nat} {i : Unit} {x : Pc} {lk : Lock} {m : Move Pc Lock} {s s' : Monitor Pc Lock}

/-- No step strands a sleeper. A process stays in or out of the sleep-lock, goes in or comes out. -/
theorem next_cases (h : next pid n p i x lk = some m) :
    Safe Pc.holds n (fun _ _ => True) Waits p x lk m ∧
    ((m.data = lk ∧ m.pc.between = x.between) ∨
    (lk.locked = false ∧ m.pc.between = true ∧ m.data = ⟨true, pid p⟩) ∨
    (x.between = true ∧ m.pc.between = false ∧ m.data.locked = false)) := by
  obtain ⟨hp, h⟩ := Option.ite_none_right_eq_some.mp h
  cases x with
  | loop =>
    simp only at h
    split at h <;> cases h
    · exact ⟨⟨fun _ _ => rfl, id, fun _ => ⟨rfl, hp, ‹_›⟩, fun _ _ _ => id⟩, Or.inl ⟨rfl, rfl⟩⟩
    · exact ⟨⟨fun hx => (by cases hx), id, fun hs => (by cases hs), fun _ _ _ _ => rfl⟩,
        Or.inr (Or.inl ⟨Bool.not_eq_true _ ▸ ‹_›, rfl, rfl⟩)⟩
  | racq =>
    cases h
    exact ⟨⟨fun _ hy => (by cases hy), id, fun hs => (by cases hs), fun q _ _ _ => Or.inr (Nat.zero_le q)⟩,
      Or.inr (Or.inr ⟨rfl, rfl, rfl⟩)⟩
  | waking k =>
    simp only at h
    split at h <;> cases h
    · refine ⟨⟨fun _ _ => rfl, id, fun hs => (by cases hs), fun q _ hw hq => ?_⟩, Or.inl ⟨rfl, rfl⟩⟩
      exact hq.imp_right fun hk => Nat.lt_of_le_of_ne hk fun he => hw (congrArg some he)
    · exact ⟨.goes id fun q hqn hq => hq.resolve_right (by omega), Or.inl ⟨rfl, rfl⟩⟩
  | _ =>
    cases h
    exact ⟨.goes id fun _ _ => id, Or.inl ⟨rfl, rfl⟩⟩

/-- `o` is in the sleep-lock. -/
structure Owned (pid : Nat → Nat) (s : Monitor Pc Lock) (o : Option Nat) : Prop where
  holder : Holder Pc.between s.pc o
  locked : s.data.locked = o.isSome
  pid : ∀ p, o = some p → s.data.pid = pid p

theorem Owned.move {o : Option Nat} (h : Owned pid s o) (hm : next pid n p i (s.pc p) s.data = some m) :
    ∃ o', Owned pid (s.move Pc.holds p m) o' := by
  have hp := h.holder p
  rcases (next_cases hm).2 with ⟨hd, hb⟩ | ⟨hfree, hb, hd⟩ | ⟨hx, hb, hd⟩
  · have ho := h.holder.update (a := p) (x := m.pc) fun he => Or.inl (hb ▸ he)
    have hsame : (if m.pc.between = true then some p else if (s.pc p).between = true then none else o) = o := by
      rw [hb]
      split
      · exact (hp.mp ‹_›).symm
      · rfl
    refine ⟨o, hsame ▸ ho, (congrArg _ hd).trans h.locked, fun q hq => ?_⟩
    rw [Monitor.move, hd]
    exact h.pid q hq
  · obtain rfl : o = none := by simpa [h.locked] using hfree
    have ho := h.holder.update (a := p) (x := m.pc) fun _ => Or.inr rfl
    rw [if_pos hb] at ho
    refine ⟨some p, ho, by rw [Monitor.move, hd]; rfl, fun q hq => ?_⟩
    cases hq
    rw [Monitor.move, hd]
  · have ho := h.holder.update (a := p) (x := m.pc) fun _ => Or.inl hx
    rw [hb, if_neg Bool.false_ne_true, if_pos hx] at ho
    exact ⟨none, ho, hd, fun q hq => by cases hq⟩

/-- At most one process is between its `acquiresleep` and its `releasesleep`; `locked` and `pid` say whether one is, and
    which, so with distinct pids `holdingsleep` is right; and nobody is left asleep on a lock that is free. -/
theorem sleeplock_excludes (h : Reach (act pid n) (fun _ _ => True) init s) :
    (∀ p q, (s.pc p).between = true → (s.pc q).between = true → p = q) ∧
    (s.data.locked = true ↔ ∃ p, (s.pc p).between = true) ∧
    (∀ p, (s.pc p).between = true → s.data.pid = pid p) ∧
    (Function.Injective pid → ∀ p, holdingsleep s.data (pid p) = true ↔ (s.pc p).between = true) ∧
    (s.lock = none → s.data.locked = false → ∀ p, s.asleep p = false) := by
  obtain ⟨⟨o, ho⟩, ht⟩ : (∃ o, Owned pid s o) ∧ Tended Pc.holds n (fun _ _ => True) Waits s := by
    refine h.inv (I := fun s => (∃ o, Owned pid s o) ∧ Tended Pc.holds n (fun _ _ => True) Waits s)
      ⟨⟨none, fun _ => by simp [init, Pc.between], rfl, fun _ hq => by cases hq⟩,
        fun _ => by simp [init, Pc.holds], trivial, fun _ hq => by cases hq⟩ fun s a s' hi _ hs =>
        ⟨?_, hi.2.act (fun _ _ _ _ _ hm => (next_cases hm).1) hs⟩
    obtain ⟨⟨o, ho⟩, -⟩ := hi
    rcases Monitor.act_cases hs with ⟨p, rfl⟩ | ⟨p, i, m, hm, -, rfl⟩
    · exact ⟨o, ho.holder, ho.locked, ho.pid⟩
    · exact ho.move hm
  refine ⟨fun p q hp hq => ?_, ?_, fun p hp => ho.pid p ((ho.holder p).mp hp), fun hinj p => ?_, fun hl hf p => ?_⟩
  · exact Option.some.inj (((ho.holder p).mp hp).symm.trans ((ho.holder q).mp hq))
  · rw [ho.locked, Option.isSome_iff_exists]
    exact exists_congr fun p => (ho.holder p).symm
  · rw [ho.holder p, holdingsleep, Bool.and_eq_true, beq_iff_eq, ho.locked, Option.isSome_iff_exists]
    constructor
    · rintro ⟨⟨q, rfl⟩, he⟩
      rw [hinj ((ho.pid q rfl).symm.trans he)]
    · exact fun hp => ⟨⟨p, hp⟩, ho.pid p hp⟩
  · rw [Bool.eq_false_iff]
    intro hq
    have hw := (ht.settled p hq).2
    rw [hl] at hw
    exact absurd hw (Bool.eq_false_iff.mp hf)

/-- Process 0 has the lock and process 1 sleeps on it. -/
def waiting : List (Turn Unit) := List.replicate 3 (.step 0 ()) ++ List.replicate 3 (.step 1 ())

theorem sleeplock_excludes_waiter : ∃ s, run (act id 2) init waiting = some s ∧ s.asleep 1 = true ∧
    holdingsleep s.data 0 = true := by
  have hrun : (run (act id 2) init waiting).map (fun s => (s.asleep 1, (s.pc 0).between)) = some (true, true) := by
    decide
  obtain ⟨s, hs, hq⟩ := Option.map_eq_some_iff.mp hrun
  simp only [Prod.mk.injEq] at hq
  exact ⟨s, hs, hq.1,
    ((sleeplock_excludes (reach_of_run (fun _ _ _ => trivial) hs)).2.2.2.1 Function.injective_id 0).mpr hq.2⟩

end Xv6.Sleeplock
