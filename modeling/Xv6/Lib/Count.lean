/-
  Xv6.Lib.Count — how many members of a finite family satisfy a test, and their weights added up, under updates.
-/

import Mathlib.Data.Fintype.Card
import Mathlib.Data.Finset.Card
import Mathlib.Algebra.BigOperators.Fin
import Mathlib.Algebra.Order.BigOperators.Group.Finset
import Mathlib.Algebra.Order.Ring.Nat

namespace Xv6.Lib

variable {ι α : Type} [Fintype ι]

/-- The number of indices whose value passes `P`. -/
def countOf (P : α → Bool) (f : ι → α) : Nat := (Finset.univ.filter fun i => P (f i) = true).card

theorem countOf_congr (P : α → Bool) {f g : ι → α} (h : ∀ i, P (f i) = P (g i)) : countOf P f = countOf P g := by
  unfold countOf
  congr 1
  ext i
  simp [h i]

theorem countOf_eq_zero (P : α → Bool) {f : ι → α} : countOf P f = 0 ↔ ∀ i, P (f i) = false := by
  unfold countOf
  rw [Finset.card_eq_zero, Finset.filter_eq_empty_iff]
  simp

theorem countOf_pos (P : α → Bool) {f : ι → α} : 0 < countOf P f ↔ ∃ i, P (f i) = true := by
  unfold countOf
  rw [Finset.card_pos]
  constructor
  · rintro ⟨i, hi⟩; exact ⟨i, (Finset.mem_filter.mp hi).2⟩
  · rintro ⟨i, hi⟩; exact ⟨i, Finset.mem_filter.mpr ⟨Finset.mem_univ _, hi⟩⟩

/-- The weights of the values, added up. -/
def sumOf (g : α → Nat) (f : ι → α) : Nat := ∑ i, g (f i)

theorem sumOf_congr (g : α → Nat) {f f' : ι → α} (h : ∀ i, g (f i) = g (f' i)) : sumOf g f = sumOf g f' :=
  Finset.sum_congr rfl fun i _ => h i

theorem le_sumOf (g : α → Nat) (f : ι → α) (i : ι) : g (f i) ≤ sumOf g f :=
  Finset.single_le_sum (f := fun i => g (f i)) (fun _ _ => Nat.zero_le _) (Finset.mem_univ i)

theorem sumOf_le (g : α → Nat) (P : α → Bool) {m : Nat} (h : ∀ x, g x ≤ if P x = true then m else 0) (f : ι → α) :
    sumOf g f ≤ countOf P f * m := by
  refine (Finset.sum_le_sum fun i _ => h (f i)).trans (Nat.le_of_eq ?_)
  rw [← Finset.sum_filter, Finset.sum_const, smul_eq_mul]
  rfl

theorem sumOf_update [DecidableEq ι] (g : α → Nat) (f : ι → α) (i : ι) (v : α) :
    sumOf g (Function.update f i v) + g (f i) = sumOf g f + g v := by
  have hcomp : (fun j => g (Function.update f i v j)) = Function.update (fun j => g (f j)) i (g v) := Function.comp_update g f i v
  unfold sumOf
  rw [hcomp, Finset.sum_update_of_mem (Finset.mem_univ i),
    Finset.sum_eq_add_sum_sdiff_singleton_of_mem (Finset.mem_univ i) fun j => g (f j)]
  omega

theorem countOf_eq_sumOf (P : α → Bool) (f : ι → α) : countOf P f = sumOf (fun x => (P x).toNat) f := by
  unfold countOf
  rw [Finset.card_filter]
  refine Finset.sum_congr rfl fun i _ => ?_
  dsimp only
  cases P (f i) <;> rfl

/-- One value replaced: the count loses the old value's share and gains the new one's. -/
theorem countOf_update [DecidableEq ι] (P : α → Bool) (f : ι → α) (i : ι) (v : α) :
    countOf P (Function.update f i v) + (P (f i)).toNat = countOf P f + (P v).toNat := by
  rw [countOf_eq_sumOf, countOf_eq_sumOf]
  exact sumOf_update _ f i v

end Xv6.Lib
