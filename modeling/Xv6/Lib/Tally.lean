/-
  Xv6.Lib.Tally — what the first `n` cells of a family add up to.

  `tally n g f` is the sum of `g (f i)` over `i < n`. A reference count is right when it is
  such a sum, so what matters is how the sum changes when one cell does (`tally_update`).
-/

import Mathlib.Algebra.BigOperators.Group.Finset.Basic
import Mathlib.Algebra.Order.BigOperators.Group.Finset
import Xv6.Lib.Update

namespace Xv6.Lib

open Finset

variable {β : Type} {n i : Nat} {g : β → Nat} {f : Nat → β} {v : β}

def tally (n : Nat) (g : β → Nat) (f : Nat → β) : Nat := ∑ i ∈ range n, g (f i)

theorem tally_congr {g' : β → Nat} (h : ∀ i < n, g' (f i) = g (f i)) : tally n g' f = tally n g f :=
  sum_congr rfl fun i hi => h i (mem_range.mp hi)

theorem tally_update (hi : i < n) : tally n g (update f i v) + g (f i) = tally n g f + g v := by
  have hmem : i ∈ range n := mem_range.mpr hi
  have hnew := add_sum_erase (range n) (fun x => g (update f i v x)) hmem
  have hold := add_sum_erase (range n) (fun x => g (f x)) hmem
  have hrest : ∑ x ∈ (range n).erase i, g (update f i v x) = ∑ x ∈ (range n).erase i, g (f x) :=
    sum_congr rfl fun x hx => by rw [update_of_ne (ne_of_mem_erase hx)]
  rw [hrest, update_self] at hnew
  unfold tally
  omega

theorem le_tally (hi : i < n) : g (f i) ≤ tally n g f :=
  single_le_sum (f := fun i => g (f i)) (fun _ _ => Nat.zero_le _) (mem_range.mpr hi)

theorem tally_le {m : Nat} (h : ∀ x, g x ≤ m) : tally n g f ≤ n * m := by
  refine (sum_le_card_nsmul (range n) _ m fun i _ => h (f i)).trans (Nat.le_of_eq ?_)
  rw [card_range]
  rfl

/-- Two cells together. -/
theorem add_le_tally {j : Nat} (hi : i < n) (hj : j < n) (hij : i ≠ j) : g (f i) + g (f j) ≤ tally n g f := by
  have hsub : ({i, j} : Finset Nat) ⊆ range n := by
    intro k hk
    rcases mem_insert.mp hk with rfl | hk
    · exact mem_range.mpr hi
    · rw [mem_singleton.mp hk]
      exact mem_range.mpr hj
  calc g (f i) + g (f j) = ∑ k ∈ {i, j}, g (f k) := (sum_pair (f := fun k => g (f k)) hij).symm
    _ ≤ tally n g f := sum_le_sum_of_subset hsub

theorem tally_eq_zero : tally n g f = 0 ↔ ∀ i < n, g (f i) = 0 := by
  simp [tally]

theorem tally_pos : 0 < tally n g f ↔ ∃ i < n, 0 < g (f i) := by
  rw [Nat.pos_iff_ne_zero, ne_eq, tally_eq_zero]
  simp [Nat.pos_iff_ne_zero]

attribute [irreducible] tally

end Xv6.Lib
