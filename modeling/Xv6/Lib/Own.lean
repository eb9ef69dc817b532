/-
  Xv6.Lib.Own — ownership of numbered cells.

  `P l` is the cell that location `l` points to, 0 for none; `used c` says that cell `c` is
  marked as taken. `Owned` is what an allocator's clients rely on: every pointer lies in the
  range `[lo, hi)`, its cell is marked, and no two locations point to one cell. `NoLeak` is
  the converse: every marked cell of the range is pointed to.

  `firstFrom` is an allocator's scan for the first cell that passes a test.

  Taking an unmarked cell for an empty location keeps both (`alloc`), as does returning a
  location's cell (`free`); forgetting pointers keeps `Owned` only (`sub`).
-/

import Xv6.Lib.Update

namespace Xv6.Lib

/-- The first of the `n` cells from `i` on that passes `p`. -/
def firstFrom (p : Nat → Bool) : Nat → Nat → Option Nat
  | _, 0 => none
  | i, n + 1 => if p i then some i else firstFrom p (i + 1) n

variable {p : Nat → Bool}

theorem firstFrom_some : ∀ {n i j : Nat}, firstFrom p i n = some j →
    i ≤ j ∧ j < i + n ∧ p j = true
  | 0, _, _, h => by cases h
  | n + 1, i, j, h => by
    unfold firstFrom at h
    split at h
    · cases h
      exact ⟨Nat.le_refl _, by omega, ‹_›⟩
    · obtain ⟨h1, h2, h3⟩ := firstFrom_some h
      exact ⟨by omega, by omega, h3⟩

/-- None of the cells before it passes. -/
theorem firstFrom_first : ∀ {n i j : Nat}, firstFrom p i n = some j → ∀ k, i ≤ k → k < j → p k = false
  | 0, _, _, h => by cases h
  | n + 1, i, j, h => by
    intro k h1 h2
    unfold firstFrom at h
    split at h
    · cases h
      omega
    · rename_i hp
      by_cases hk : k = i
      · rw [hk]
        exact Bool.eq_false_iff.mpr hp
      · exact firstFrom_first h k (by omega) h2

theorem firstFrom_none : ∀ {n i : Nat}, firstFrom p i n = none →
    ∀ j, i ≤ j → j < i + n → p j = false
  | 0, _, _, _, h1, h2 => by omega
  | n + 1, i, h, j, h1, h2 => by
    unfold firstFrom at h
    split at h
    · cases h
    · rename_i hp
      by_cases hj : j = i
      · rw [hj]
        exact Bool.eq_false_iff.mpr hp
      · exact firstFrom_none h j (by omega) (by omega)

structure Owned {L : Type*} (P : L → Nat) (used : Nat → Bool) (lo hi : Nat) : Prop where
  range : ∀ l, P l ≠ 0 → lo ≤ P l ∧ P l < hi
  marked : ∀ l, P l ≠ 0 → used (P l) = true
  inj : ∀ l m, P l ≠ 0 → P l = P m → l = m

def NoLeak {L : Type*} (P : L → Nat) (used : Nat → Bool) (lo hi : Nat) : Prop :=
  ∀ c, lo ≤ c → c < hi → used c = true → ∃ l, P l = c

variable {L : Type*} {P : L → Nat} {used : Nat → Bool} {lo hi c : Nat} {l : L}

theorem Owned.sub (h : Owned P used lo hi) {Q : L → Nat} (hQ : ∀ l, Q l = 0 ∨ Q l = P l) :
    Owned Q used lo hi := by
  have old : ∀ m, Q m ≠ 0 → Q m = P m := fun m hm => (hQ m).resolve_left hm
  constructor
  · intro m hm
    have he := old m hm
    rw [he] at hm ⊢
    exact h.range m hm
  · intro m hm
    have he := old m hm
    rw [he] at hm ⊢
    exact h.marked m hm
  · intro m n hm he
    exact h.inj m n (old m hm ▸ hm) (by rw [← old m hm, ← old n (he ▸ hm), he])

variable [DecidableEq L]

theorem Owned.alloc (h : Owned P used lo hi) (hc : used c = false) (hlo : lo ≤ c) (hhi : c < hi) :
    Owned (update P l c) (update used c true) lo hi := by
  -- a location other than `l` points elsewhere: its cell is marked and `c` is not
  have hne : ∀ m, P m ≠ 0 → P m ≠ c := by
    intro m hm he
    have hu := h.marked m hm
    rw [he, hc] at hu
    cases hu
  constructor
  · intro m hm
    by_cases e : m = l
    · subst e; rw [update_self]; exact ⟨hlo, hhi⟩
    · rw [update_of_ne e] at hm ⊢; exact h.range m hm
  · intro m hm
    by_cases e : m = l
    · subst e; rw [update_self, update_self]
    · rw [update_of_ne e] at hm ⊢
      rw [update_of_ne (hne m hm)]
      exact h.marked m hm
  · intro m n hm he
    by_cases em : m = l <;> by_cases en : n = l
    · exact em.trans en.symm
    · subst em
      rw [update_self] at he hm
      rw [update_of_ne en] at he
      exact absurd he.symm (hne n (he ▸ hm))
    · subst en
      rw [update_self] at he
      rw [update_of_ne em] at hm he
      exact absurd he (hne m hm)
    · rw [update_of_ne em] at hm he
      rw [update_of_ne en] at he
      exact h.inj m n hm he

theorem Owned.free (h : Owned P used lo hi) (hl : P l ≠ 0) :
    Owned (update P l 0) (update used (P l) false) lo hi := by
  have old : ∀ m, update P l 0 m ≠ 0 → m ≠ l ∧ update P l 0 m = P m := by
    intro m hm
    by_cases e : m = l
    · subst e; rw [update_self] at hm; exact absurd rfl hm
    · exact ⟨e, update_of_ne e _ _⟩
  constructor
  · intro m hm
    obtain ⟨_, he⟩ := old m hm
    rw [he] at hm ⊢
    exact h.range m hm
  · intro m hm
    obtain ⟨hne, he⟩ := old m hm
    rw [he] at hm ⊢
    rw [update_of_ne fun hh => hne (h.inj m l hm hh)]
    exact h.marked m hm
  · intro m n hm he
    obtain ⟨_, hm'⟩ := old m hm
    obtain ⟨_, hn'⟩ := old n (he ▸ hm)
    exact h.inj m n (hm' ▸ hm) (by rw [← hm', ← hn', he])

theorem NoLeak.alloc (h : NoLeak P used lo hi) (hl : P l = 0) (h0 : 0 < lo) :
    NoLeak (update P l c) (update used c true) lo hi := by
  intro d hlo hhi hd
  by_cases e : d = c
  · exact ⟨l, by rw [update_self, e]⟩
  · rw [update_of_ne e] at hd
    obtain ⟨m, hm⟩ := h d hlo hhi hd
    have hml : m ≠ l := by
      intro hh
      subst hh
      omega
    exact ⟨m, by rw [update_of_ne hml, hm]⟩

theorem NoLeak.free (h : NoLeak P used lo hi) (l : L) :
    NoLeak (update P l 0) (update used (P l) false) lo hi := by
  intro d hlo hhi hd
  by_cases e : d = P l
  · subst e; rw [update_self] at hd; cases hd
  · rw [update_of_ne e] at hd
    obtain ⟨m, hm⟩ := h d hlo hhi hd
    have hml : m ≠ l := by
      intro hh
      subst hh
      exact e hm.symm
    exact ⟨m, by rw [update_of_ne hml, hm]⟩

end Xv6.Lib
