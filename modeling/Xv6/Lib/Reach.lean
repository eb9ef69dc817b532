/-
  Xv6.Lib.Reach — the states that a transition system reaches.

  `step s a` is the state after action `a`, and `none` when `s` does not allow `a`. `Reach`
  collects the states reached from `s0` by actions that meet `ok` in the state where they are
  taken. `Reach.inv` is the invariant rule, and `reach_of_run` makes a run of given actions a
  computation.
-/

import Mathlib.Algebra.Order.Ring.Nat

namespace Xv6.Lib

variable {σ α : Type} {step : σ → α → Option σ} {ok : σ → α → Prop} {s0 s s' : σ}

inductive Reach (step : σ → α → Option σ) (ok : σ → α → Prop) (s0 : σ) : σ → Prop
  | refl : Reach step ok s0 s0
  | next {s s' : σ} {a : α} : Reach step ok s0 s → ok s a → step s a = some s' → Reach step ok s0 s'

/-- What holds at the start and survives every step holds in every state of the run. -/
theorem Reach.inv {I : σ → Prop} (h : Reach step ok s0 s) (h0 : I s0)
    (hstep : ∀ s a s', I s → ok s a → step s a = some s' → I s') : I s := by
  induction h with
  | refl => exact h0
  | next _ hok hs ih => exact hstep _ _ _ ih hok hs

theorem Reach.mono {ok' : σ → α → Prop} (h : Reach step ok s0 s) (hok : ∀ s a, ok s a → ok' s a) :
    Reach step ok' s0 s := by
  induction h with
  | refl => exact .refl
  | next _ ha hs ih => exact .next ih (hok _ _ ha) hs

/-- The state after a list of actions. -/
def run (step : σ → α → Option σ) : σ → List α → Option σ
  | s, [] => some s
  | s, a :: l => (step s a).bind fun s' => run step s' l

theorem run_append (s : σ) (l l' : List α) : run step s (l ++ l') = (run step s l).bind fun t => run step t l' := by
  induction l generalizing s with
  | nil => rfl
  | cons a l ih =>
    simp only [List.cons_append, run, Option.bind_assoc]
    exact congrArg _ (funext fun t => ih t)

variable {l : List α} {test : σ → α → Bool}

theorem Reach.run (hok : ∀ a ∈ l, ∀ s, ok s a) (h : Reach step ok s0 s)
    (hrun : Lib.run step s l = some s') : Reach step ok s0 s' := by
  induction l generalizing s with
  | nil =>
    cases hrun
    exact h
  | cons a l ih =>
    obtain ⟨t, ht, hl⟩ := Option.bind_eq_some_iff.mp hrun
    exact ih (fun b hb => hok b (List.mem_cons_of_mem _ hb)) (h.next (hok a List.mem_cons_self s) ht) hl

theorem reach_of_run (hok : ∀ a ∈ l, ∀ s, ok s a) (hrun : Lib.run step s0 l = some s') :
    Reach step ok s0 s' :=
  Reach.run hok .refl hrun

/-- A step behind a test. -/
theorem of_guard {c : Prop} [Decidable c] {s t : σ} (h : (if c then some s else none) = some t) : c ∧ s = t :=
  (Option.ite_none_right_eq_some.mp h).imp_right Option.some.inj

/-- Steps that pass a test in the state where they are taken. -/
def guarded (test : σ → α → Bool) (step : σ → α → Option σ) (s : σ) (a : α) : Option σ :=
  if test s a then step s a else none

theorem Reach.guarded (hok : ∀ s a, test s a = true → ok s a)
    (h : Reach step ok s0 s) (hrun : Lib.run (Lib.guarded test step) s l = some s') : Reach step ok s0 s' := by
  induction l generalizing s with
  | nil =>
    cases hrun
    exact h
  | cons a l ih =>
    obtain ⟨t, ht, hl⟩ := Option.bind_eq_some_iff.mp hrun
    obtain ⟨htest, ht⟩ := Option.ite_none_right_eq_some.mp ht
    exact ih (h.next (hok s a htest) ht) hl

theorem reach_of_guarded (hok : ∀ s a, test s a = true → ok s a)
    (hrun : Lib.run (guarded test step) s0 l = some s') : Reach step ok s0 s' :=
  Reach.guarded hok .refl hrun

end Xv6.Lib
