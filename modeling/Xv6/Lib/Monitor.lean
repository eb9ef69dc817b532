/-
  Xv6.Lib.Monitor — one lock, and those who sleep under it.

  Any number of agents run a program. Each of its places is inside or outside the lock (`holds`): a step from outside
  to inside waits until the lock is free, and a step from inside to outside gives it back. A step may also put its
  agent to sleep, or wake one agent. An agent that sleeps takes no step until it is woken, by a step of another or for
  reasons of its own.

  What is said of the data is said together with the place inside the lock, if an agent is there: `K` is an invariant,
  and `waits q` says that `q` may sleep, because what it waits for has not happened or that agent is still to wake it.
  `Safe` is what a step of the program must respect; `Tended` then holds in every run.
-/

import Xv6.Lib.Reach
import Xv6.Lib.Update

namespace Xv6.Lib

/-- `o` is the one whose place holds. -/
def Holder {α β : Type*} (holds : β → Bool) (place : α → β) (o : Option α) : Prop :=
  ∀ a, holds (place a) = true ↔ o = some a

/-- One moves to `x`, and takes, keeps or gives up what is held. -/
theorem Holder.update {α β : Type*} [DecidableEq α] {holds : β → Bool} {place : α → β} {o : Option α} {a : α} {x : β}
    (h : Holder holds place o) (hx : holds x = true → holds (place a) = true ∨ o = none) :
    Holder holds (update place a x) (if holds x then some a else if holds (place a) then none else o) := by
  intro b
  have hb := h b
  by_cases hba : b = a
  · subst hba
    rw [update_self]
    by_cases hnew : holds x = true
    · simp [hnew]
    · by_cases hold : holds (place b) = true
      · simp [hnew, hold]
      · simpa [hnew, hold] using hb
  · rw [update_of_ne hba, hb]
    by_cases hnew : holds x = true
    · rcases hx hnew with hold | hnone
      · simp [hnew, (h a).mp hold]
      · simp [hnew, hnone, Ne.symm hba]
    · by_cases hold : holds (place a) = true
      · simp [hnew, hold, (h a).mp hold, Ne.symm hba]
      · simp [hnew, hold]

structure Move (Pc D : Type) where
  pc : Pc
  data : D
  wakes : Option Nat := none
  sleeps : Bool := false

structure Monitor (Pc D : Type) where
  lock : Option Nat
  asleep : Nat → Bool
  pc : Nat → Pc
  data : D

inductive Turn (I : Type)
  /-- Agent `p` takes a step, with `i` from outside. -/
  | step (p : Nat) (i : I)
  | rouse (p : Nat)

variable {Pc D I : Type} (holds : Pc → Bool)

def Monitor.move (s : Monitor Pc D) (p : Nat) (m : Move Pc D) : Monitor Pc D where
  lock := if holds m.pc then some p else if holds (s.pc p) then none else s.lock
  asleep := update (m.wakes.elim s.asleep fun k => update s.asleep k false) p m.sleeps
  pc := update s.pc p m.pc
  data := m.data

def Monitor.act (next : Nat → I → Pc → D → Option (Move Pc D)) (s : Monitor Pc D) : Turn I → Option (Monitor Pc D)
  | .step p i =>
    if s.asleep p = true then none
    else (next p i (s.pc p) s.data).bind fun m =>
      if holds m.pc = true → holds (s.pc p) = true ∨ s.lock = none then some (s.move holds p m) else none
  | .rouse p => some { s with asleep := update s.asleep p false }

/-- A place inside the lock. -/
def inner (x : Pc) : Option Pc := if holds x then some x else none

section

variable (n : Nat) (K : Option Pc → D → Prop) (waits : Option Pc → D → Nat → Prop)

/-- A step of `p` from `x`. Only the slots below `n` sleep. -/
structure Safe (p : Nat) (x : Pc) (d : D) (m : Move Pc D) : Prop where
  data : holds x = false → holds m.pc = false → m.data = d
  keeps : K (inner holds x) d → K (inner holds m.pc) m.data
  sleeps : m.sleeps = true → holds x = true ∧ p < n ∧ waits (inner holds m.pc) m.data p
  wakes : ∀ q < n, m.wakes ≠ some q → waits (inner holds x) d q → waits (inner holds m.pc) m.data q

structure Tended (s : Monitor Pc D) : Prop where
  holder : Holder holds s.pc s.lock
  data : K (s.lock.map s.pc) s.data
  settled : ∀ q, s.asleep q = true → q < n ∧ waits (s.lock.map s.pc) s.data q

end

variable {holds} {next : Nat → I → Pc → D → Option (Move Pc D)} {s s' : Monitor Pc D} {t : Turn I} {p : Nat}
  {m : Move Pc D}

theorem Monitor.act_cases (h : s.act holds next t = some s') :
    (∃ p, s' = { s with asleep := update s.asleep p false }) ∨
    ∃ p i m, next p i (s.pc p) s.data = some m ∧ (holds m.pc = true → holds (s.pc p) = true ∨ s.lock = none) ∧
      s' = s.move holds p m := by
  cases t with
  | rouse p =>
    cases h
    exact Or.inl ⟨p, rfl⟩
  | step p i =>
    obtain ⟨-, h⟩ := Option.ite_none_left_eq_some.mp h
    obtain ⟨m, hm, h⟩ := Option.bind_eq_some_iff.mp h
    obtain ⟨hlock, rfl⟩ := of_guard h
    exact Or.inr ⟨p, i, m, hm, hlock, rfl⟩

/-- A step is one of the agent inside the lock, or is outside and leaves the data alone. -/
theorem Monitor.move_inner (hh : Holder holds s.pc s.lock)
    (hlock : holds m.pc = true → holds (s.pc p) = true ∨ s.lock = none)
    (hdata : holds (s.pc p) = false → holds m.pc = false → m.data = s.data) :
    s.lock.map s.pc = inner holds (s.pc p) ∧
      (s.move holds p m).lock.map (s.move holds p m).pc = inner holds m.pc ∨
    (s.move holds p m).lock.map (s.move holds p m).pc = s.lock.map s.pc ∧ holds (s.pc p) = false ∧
      m.data = s.data := by
  have hx := hh p
  cases hl : s.lock with
  | none =>
    have hout : holds (s.pc p) = false := by simpa [hl] using hx
    by_cases hy : holds m.pc = true <;> simp [Monitor.move, inner, hl, hout, hy, update_self]
  | some r =>
    by_cases hrp : r = p
    · subst hrp
      by_cases hy : holds m.pc = true <;> simp [Monitor.move, inner, hx.mpr hl, hy, update_self]
    · have hxo : holds (s.pc p) = false := by simpa [hl, hrp] using hx
      have hyo : holds m.pc = false := by simpa [hl, hxo] using hlock
      exact Or.inr (by simp [Monitor.move, hl, hxo, hyo, update_of_ne hrp, hdata hxo hyo])

variable {n : Nat} {K : Option Pc → D → Prop} {waits : Option Pc → D → Nat → Prop}

/-- A step that does nothing but go on. -/
theorem Safe.goes {x y : Pc} {d : D} (hK : K (inner holds x) d → K (inner holds y) d)
    (hw : ∀ q < n, waits (inner holds x) d q → waits (inner holds y) d q) :
    Safe holds n K waits p x d { pc := y, data := d } :=
  ⟨fun _ _ => rfl, hK, fun hs => absurd hs Bool.false_ne_true, fun q hq _ => hw q hq⟩

theorem Tended.act (h : Tended holds n K waits s)
    (hn : ∀ p i x d m, next p i x d = some m → Safe holds n K waits p x d m) (hs : s.act holds next t = some s') :
    Tended holds n K waits s' := by
  rcases Monitor.act_cases hs with ⟨p, rfl⟩ | ⟨p, i, m, hm, hlock, rfl⟩
  · exact ⟨h.holder, h.data, fun q hq => h.settled q (of_update_eq hq (by simp)).2⟩
  have hsafe := hn _ _ _ _ _ hm
  have hold : ∀ q, (s.move holds p m).asleep q = true →
      q = p ∧ m.sleeps = true ∨ m.wakes ≠ some q ∧ q < n ∧ waits (s.lock.map s.pc) s.data q := by
    intro q hq
    refine (update_cases hq).imp_right fun hq => ?_
    cases hw : m.wakes with
    | none =>
      rw [hw] at hq
      exact ⟨by simp, h.settled q hq.2⟩
    | some k =>
      rw [hw] at hq
      obtain ⟨hqk, hq⟩ := of_update_eq hq.2 (by simp)
      exact ⟨fun he => hqk (Option.some.inj he).symm, h.settled q hq⟩
  rcases Monitor.move_inner h.holder hlock hsafe.data with ⟨hx, hy⟩ | ⟨hy, hx, hd⟩
  · rw [hx] at hold
    refine ⟨h.holder.update hlock, hy ▸ hsafe.keeps (hx ▸ h.data), fun q hq => ?_⟩
    rw [hy]
    rcases hold q hq with ⟨rfl, hsl⟩ | ⟨hw, hqn, hq⟩
    · exact (hsafe.sleeps hsl).2
    · exact ⟨hqn, hsafe.wakes q hqn hw hq⟩
  · refine ⟨h.holder.update hlock, ?_, fun q hq => ?_⟩
    · rw [hy, Monitor.move, hd]
      exact h.data
    · rw [hy, Monitor.move, hd]
      rcases hold q hq with ⟨rfl, hsl⟩ | ⟨-, hq⟩
      · rw [(hsafe.sleeps hsl).1] at hx
        cases hx
      · exact hq

end Xv6.Lib
