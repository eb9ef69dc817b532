/-
  Xv6.Lib.Cover — how often intervals cover a point.

  An interval is its start and its length. `cover l x` counts the intervals of `l` that hold
  `x`. Intervals that tile a region cover its points once and no others, so tilings are kept by
  equations between sums: cutting an interval in two or joining two that touch leaves the
  count as it is (`hit_add`).
-/

import Mathlib.Algebra.BigOperators.Group.List.Basic
import Mathlib.Data.List.Perm.Basic
import Mathlib.Algebra.Order.Ring.Nat

namespace Xv6.Lib

variable {i j : Nat × Nat} {l l' : List (Nat × Nat)} {x : Nat}

/-- `x` lies in the interval. -/
def Within (i : Nat × Nat) (x : Nat) : Prop := i.1 ≤ x ∧ x < i.1 + i.2

instance : Decidable (Within i x) := inferInstanceAs (Decidable (_ ∧ _))

def hit (i : Nat × Nat) (x : Nat) : Nat := if Within i x then 1 else 0

def cover (l : List (Nat × Nat)) (x : Nat) : Nat := (l.map (hit · x)).sum

/-- The intervals have no point in common. -/
def Apart (i j : Nat × Nat) : Prop := i.1 + i.2 ≤ j.1 ∨ j.1 + j.2 ≤ i.1

theorem hit_pos : 0 < hit i x ↔ Within i x := by
  unfold hit
  split <;> simp [*]

theorem hit_add (a n m x : Nat) : hit (a, n + m) x = hit (a, n) x + hit (a + n, m) x := by
  by_cases hleft : x < a + n
  · have hright : ¬Within (a + n, m) x := fun h => by
      have := h.1
      omega
    have hiff : Within (a, n + m) x ↔ Within (a, n) x := by
      simp only [Within]
      omega
    simp [hit, hright, hiff]
  · have hleft : ¬Within (a, n) x := fun h => hleft h.2
    have hiff : Within (a, n + m) x ↔ Within (a + n, m) x := by
      simp only [Within] at hleft ⊢
      omega
    simp [hit, hleft, hiff]

@[simp]
theorem hit_zero (a x : Nat) : hit (a, 0) x = 0 := by
  simp [hit, Within]

@[simp]
theorem cover_nil (x : Nat) : cover [] x = 0 := rfl

@[simp]
theorem cover_cons (i : Nat × Nat) (l : List (Nat × Nat)) (x : Nat) : cover (i :: l) x = hit i x + cover l x := by
  simp [cover]

@[simp]
theorem cover_append (l l' : List (Nat × Nat)) (x : Nat) : cover (l ++ l') x = cover l x + cover l' x := by
  simp [cover]

theorem cover_perm (h : l.Perm l') (x : Nat) : cover l x = cover l' x :=
  (h.map _).sum_eq

theorem cover_pos : 0 < cover l x ↔ ∃ i ∈ l, Within i x := by
  induction l with
  | nil => simp
  | cons i l ih => rw [cover_cons, Nat.add_pos_iff_pos_or_pos, hit_pos, ih, List.exists_mem_cons_iff]

theorem hit_le_cover (h : i ∈ l) (x : Nat) : hit i x ≤ cover l x := by
  obtain ⟨l1, l2, rfl⟩ := List.append_of_mem h
  simp only [cover_append, cover_cons]
  omega

/-- Intervals that cover no point twice lie apart, those without points aside. -/
theorem apart_of_cover (hi : 0 < i.2) (hj : 0 < j.2) (h : ∀ x, hit i x + hit j x ≤ 1) : Apart i j := by
  by_contra hover
  simp only [Apart, not_or] at hover
  -- the later of the two starts lies in both
  have hstart := h (max i.1 j.1)
  have hboth : Within i (max i.1 j.1) ∧ Within j (max i.1 j.1) := by
    simp only [Within]
    omega
  simp only [hit, if_pos hboth.1, if_pos hboth.2] at hstart
  omega

theorem pairwise_apart (hpos : ∀ i ∈ l, 0 < i.2) (h : ∀ x, cover l x ≤ 1) : l.Pairwise Apart := by
  induction l with
  | nil => exact .nil
  | cons i l ih =>
    refine List.pairwise_cons.mpr ⟨fun j hj => ?_, ih (fun j hj => hpos j (List.mem_cons_of_mem _ hj)) fun x => ?_⟩
    · refine apart_of_cover (hpos i List.mem_cons_self) (hpos j (List.mem_cons_of_mem _ hj)) fun x => ?_
      have hx := h x
      have hle := hit_le_cover hj x
      rw [cover_cons] at hx
      omega
    · have hx := h x
      rw [cover_cons] at hx
      omega

end Xv6.Lib
