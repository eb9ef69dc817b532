/-
  Xv6.Lib.Update — changing a function at one point.

  `update` is `Function.update` for functions that are not dependent, written without its
  cast: a state that is a chain of updates can then be evaluated.
-/

import Mathlib.Algebra.Order.Ring.Nat

namespace Xv6.Lib

variable {α β : Type*} [DecidableEq α]

def update (f : α → β) (a : α) (v : β) : α → β := fun x => if x = a then v else f x

theorem update_eq (f : α → β) (a : α) (v : β) : update f a v = Function.update f a v := by
  funext x
  by_cases h : x = a
  · rw [h, Function.update_self]
    exact if_pos rfl
  · rw [Function.update_of_ne h]
    exact if_neg h

theorem update_self (a : α) (v : β) (f : α → β) : update f a v a = v := if_pos rfl

theorem update_of_ne {a b : α} (h : b ≠ a) (v : β) (f : α → β) : update f a v b = f b := if_neg h

/-- What holds of the new value and of the others. -/
theorem forall_update {P : α → β → Prop} {f : α → β} {a : α} {v : β} (ha : P a v) (h : ∀ b, b ≠ a → P b (f b)) (b : α) :
    P b (update f a v b) := by
  by_cases hb : b = a
  · rw [hb, update_self]
    exact ha
  · rw [update_of_ne hb]
    exact h b hb

/-- The value at `b` is the new one, or `b` is another point. -/
theorem update_cases {a b : α} {v y : β} {f : α → β} (h : update f a v b = y) : b = a ∧ v = y ∨ b ≠ a ∧ f b = y := by
  by_cases hb : b = a
  · rw [hb, update_self] at h
    exact .inl ⟨hb, h⟩
  · rw [update_of_ne hb] at h
    exact .inr ⟨hb, h⟩

theorem of_update_eq {a b : α} {v y : β} {f : α → β} (h : update f a v b = y) (hv : v ≠ y) : b ≠ a ∧ f b = y :=
  (update_cases h).resolve_left fun e => hv e.2

theorem update_idem (f : α → β) (a : α) (v w : β) : update (update f a v) a w = update f a w := by
  rw [update_eq, update_eq, update_eq, Function.update_idem]

theorem update_comm {a b : α} (h : a ≠ b) (v w : β) (f : α → β) :
    update (update f a v) b w = update (update f b w) a v := by
  simp only [update_eq]
  exact Function.update_comm h v w f

theorem update_eq_self (f : α → β) (a : α) : update f a (f a) = f := by
  rw [update_eq, Function.update_eq_self]

theorem update_same {f : α → β} {a : α} {v : β} (h : f a = v) : update f a v = f := by
  rw [← h, update_eq_self]

end Xv6.Lib
