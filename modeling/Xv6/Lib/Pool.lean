/-
  Xv6.Lib.Pool — a free list and the things that are not on it.

  `Pool P free held` says that `P` is made up of what the free list names, each thing once, and
  what is held, and that nothing is both. Things leave and join `P` when they are taken from the
  free list, given back, or become held.
-/

import Mathlib.Data.Set.Basic
import Mathlib.Data.List.Perm.Lattice
import Mathlib.Data.Finset.Card
import Mathlib.Data.Finset.Range
import Mathlib.Algebra.Order.Ring.Nat

namespace Xv6.Lib

variable {α : Type}

structure Pool (P : Set α) (free : List α) (held : α → Prop) : Prop where
  nodup : free.Nodup
  mem : ∀ p, p ∈ P ↔ p ∈ free ∨ held p
  apart : ∀ p ∈ free, ¬held p

section

variable {P : Set α} {free l : List α} {held held' : α → Prop} {p : α}

theorem Pool.take (h : Pool P (p :: l) held) : Pool (P \ {p}) l held := by
  obtain ⟨hp, hl⟩ := List.nodup_cons.mp h.nodup
  refine ⟨hl, fun q => ?_, fun q hq => h.apart q (List.mem_cons_of_mem p hq)⟩
  have hnot : ¬held p := h.apart p List.mem_cons_self
  rw [Set.mem_sdiff, Set.mem_singleton_iff, h.mem, List.mem_cons]
  constructor
  · intro hq
    rcases hq with ⟨(rfl | hq) | hq, hne⟩
    · exact absurd rfl hne
    · exact .inl hq
    · exact .inr hq
  · intro hq
    rcases hq with hq | hq
    · exact ⟨.inl (.inr hq), fun he => hp (he ▸ hq)⟩
    · exact ⟨.inr hq, fun he => hnot (he ▸ hq)⟩

theorem Pool.give (h : Pool P free held) (hp : p ∉ P) : Pool (insert p P) (p :: free) held := by
  rw [h.mem, not_or] at hp
  refine ⟨List.nodup_cons.mpr ⟨hp.1, h.nodup⟩, fun q => ?_, fun q hq => ?_⟩
  · rw [Set.mem_insert_iff, h.mem, List.mem_cons, or_assoc]
  · rcases List.mem_cons.mp hq with rfl | hq
    · exact hp.2
    · exact h.apart q hq

/-- `p` is held from now on. -/
theorem Pool.hold (h : Pool P free held) (hp : p ∉ P) (hheld : ∀ q, held' q ↔ q = p ∨ held q) :
    Pool (insert p P) free held' := by
  rw [h.mem, not_or] at hp
  refine ⟨h.nodup, fun q => ?_, fun q hq => ?_⟩
  · rw [Set.mem_insert_iff, h.mem, hheld]
    exact or_left_comm
  · rw [hheld, not_or]
    exact ⟨fun he => hp.1 (he ▸ hq), h.apart q hq⟩

/-- A pool without held things is its free list, up to the order. -/
theorem Pool.perm (h : Pool P free held) (h' : Pool P l held') (hnone : ∀ q, ¬held q) (hnone' : ∀ q, ¬held' q) :
    free.Perm l := by
  refine (List.perm_ext_iff_of_nodup h.nodup h'.nodup).mpr fun q => ?_
  have hq := (h.mem q).symm.trans (h'.mem q)
  rwa [or_iff_left (hnone q), or_iff_left (hnone' q)] at hq

end

/-- Different numbers below `n`: at most `n` of them. -/
theorem length_le_of_nodup {l : List Nat} {n : Nat} (h : l.Nodup) (hlt : ∀ x ∈ l, x < n) : l.length ≤ n := by
  rw [← List.toFinset_card_of_nodup h, ← Finset.card_range n]
  refine Finset.card_le_card fun x hx => ?_
  exact Finset.mem_range.mpr (hlt x (List.mem_toFinset.mp hx))

end Xv6.Lib
