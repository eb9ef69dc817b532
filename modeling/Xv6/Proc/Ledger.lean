/-
  Xv6.Proc.Ledger — who was born, who exited, who was returned by a `wait`.

  Slots are reused and so are pids, so processes are counted by an id of their own. `entry q`
  is what slot `q` holds: nothing, a process, or a process that has exited with what it left.
  A process is born into an empty slot, exits, and is taken out of its slot by a `wait`.

  Proved: each of the three keeps `Ledger`, by which whoever has exited is either in its slot
  or was taken out, once (`Ledger.birth`, `Ledger.exit`, `Ledger.reap`).
-/

import Xv6.Proc.Table

namespace Xv6.Proc

open Xv6.Lib

/-- The process in a slot, and what it left when it exited. -/
abbrev Entry := Option (Nat × Option Exit)

structure Ledger (entry : Nat → Entry) (born : Nat) (exited : List Exit) (reaped : List Reap) : Prop where
  lt : ∀ q i e, entry q = some (i, e) → i < born
  inj : ∀ q r i e f, entry q = some (i, e) → entry r = some (i, f) → q = r
  named : ∀ q i e, entry q = some (i, some e) → e.id = i
  exitedLt : ∀ e ∈ exited, e.id < born
  exitedOnce : (exited.map (·.id)).Nodup
  reapedOnce : (reaped.map (·.child.id)).Nodup
  /-- Who has exited was returned by a `wait`, or waits in its slot. -/
  account : ∀ e, e ∈ exited ↔ (∃ r ∈ reaped, r.child = e) ∨ ∃ q, entry q = some (e.id, some e)
  alive : ∀ q i, entry q = some (i, none) → ∀ e ∈ exited, e.id ≠ i
  buried : ∀ r ∈ reaped, ∀ q e, entry q ≠ some (r.child.id, e)

section

variable {entry : Nat → Entry} {born : Nat} {exited : List Exit} {reaped : List Reap}
  (h : Ledger entry born exited reaped) {k : Nat}
include h

theorem Ledger.reaped_mem {r : Reap} (hr : r ∈ reaped) : r.child ∈ exited := (h.account r.child).mpr (Or.inl ⟨r, hr, rfl⟩)

theorem Ledger.birth (hk : entry k = none) : Ledger (update entry k (some (born, none))) (born + 1) exited reaped where
  lt q i e hq := by
    by_cases hqk : q = k
    · simp [update, hqk] at hq
      omega
    · have := h.lt q i e (by simpa [update, hqk] using hq)
      omega
  inj q r i e f hq hr := by
    have hlt := h.lt
    have hinj := h.inj
    grind [update]
  named q i e hq := by
    by_cases hqk : q = k
    · simp [update, hqk] at hq
    · exact h.named q i e (by simpa [update, hqk] using hq)
  exitedLt e he := Nat.lt_succ_of_lt (h.exitedLt e he)
  exitedOnce := h.exitedOnce
  reapedOnce := h.reapedOnce
  account e := by
    rw [h.account e]
    refine or_congr_right ⟨fun hx => ?_, fun hx => ?_⟩
    · obtain ⟨q, hq⟩ := hx
      refine ⟨q, ?_⟩
      rw [update_of_ne]
      · exact hq
      · rintro rfl
        rw [hk] at hq
        cases hq
    · obtain ⟨q, hq⟩ := hx
      refine ⟨q, ?_⟩
      by_cases hqk : q = k
      · simp [update, hqk] at hq
      · simpa [update, hqk] using hq
  alive q i hq e he := by
    by_cases hqk : q = k
    · have := h.exitedLt e he
      simp [update, hqk] at hq
      omega
    · exact h.alive q i (by simpa [update, hqk] using hq) e he
  buried r hr q e hq := by
    by_cases hqk : q = k
    · have := h.exitedLt r.child (h.reaped_mem hr)
      simp [update, hqk] at hq
      omega
    · exact h.buried r hr q e (by simpa [update, hqk] using hq)

theorem Ledger.exit {x : Exit} (hk : entry k = some (x.id, none)) :
    Ledger (update entry k (some (x.id, some x))) born (exited ++ [x]) reaped where
  lt q i e hq := by
    have hlt := h.lt
    grind [update]
  inj q r i e f hq hr := by
    have hinj := h.inj
    grind [update]
  named q i e hq := by
    have hnamed := h.named
    grind [update]
  exitedLt e he := by
    obtain he | he := List.mem_append.mp he
    · exact h.exitedLt e he
    · rw [List.mem_singleton.mp he]
      exact h.lt k x.id none hk
  exitedOnce := by
    rw [List.map_append, List.nodup_append]
    refine ⟨h.exitedOnce, by simp, fun i hi j hj => ?_⟩
    obtain ⟨e, he, rfl⟩ := List.mem_map.mp hi
    rw [List.map_singleton, List.mem_singleton] at hj
    rw [hj]
    exact h.alive k x.id hk e he
  reapedOnce := h.reapedOnce
  account e := by
    rw [List.mem_append, List.mem_singleton, h.account e]
    constructor
    · rintro ((hr | ⟨q, hq⟩) | rfl)
      · exact Or.inl hr
      · refine Or.inr ⟨q, ?_⟩
        rw [update_of_ne]
        · exact hq
        · rintro rfl
          rw [hk] at hq
          simp at hq
      · exact Or.inr ⟨k, update_self ..⟩
    · rintro (hr | ⟨q, hq⟩)
      · exact Or.inl (Or.inl hr)
      · by_cases hqk : q = k
        · simp only [update, hqk, if_true, Option.some.injEq, Prod.mk.injEq] at hq
          exact Or.inr hq.2.symm
        · exact Or.inl (Or.inr ⟨q, by simpa [update, hqk] using hq⟩)
  alive q i hq e he := by
    by_cases hqk : q = k
    · simp [update, hqk] at hq
    · have hq : entry q = some (i, none) := by simpa [update, hqk] using hq
      obtain he | he := List.mem_append.mp he
      · exact h.alive q i hq e he
      · rw [List.mem_singleton.mp he]
        rintro rfl
        exact hqk (h.inj q k x.id none none hq hk)
  buried r hr q e hq := by
    by_cases hqk : q = k
    · simp only [update, hqk, if_true, Option.some.injEq, Prod.mk.injEq] at hq
      exact h.buried r hr k none (hq.1 ▸ hk)
    · exact h.buried r hr q e (by simpa [update, hqk] using hq)

theorem Ledger.reap {x : Reap} (hk : entry k = some (x.child.id, some x.child)) :
    Ledger (update entry k none) born exited (reaped ++ [x]) where
  lt q i e hq := by
    have hlt := h.lt
    grind [update]
  inj q r i e f hq hr := by
    have hinj := h.inj
    grind [update]
  named q i e hq := by
    have hnamed := h.named
    grind [update]
  exitedLt := h.exitedLt
  exitedOnce := h.exitedOnce
  reapedOnce := by
    rw [List.map_append, List.nodup_append]
    refine ⟨h.reapedOnce, by simp, fun i hi j hj => ?_⟩
    obtain ⟨r, hr, rfl⟩ := List.mem_map.mp hi
    rw [List.map_singleton, List.mem_singleton] at hj
    rintro rfl
    exact h.buried r hr k _ (hj ▸ hk)
  account e := by
    rw [h.account e]
    constructor
    · rintro (⟨r, hr, rfl⟩ | ⟨q, hq⟩)
      · exact Or.inl ⟨r, List.mem_append_left _ hr, rfl⟩
      · by_cases hqk : q = k
        · subst hqk
          rw [hk] at hq
          simp only [Option.some.injEq, Prod.mk.injEq] at hq
          exact Or.inl ⟨x, by simp, hq.2⟩
        · exact Or.inr ⟨q, by simpa [update, hqk] using hq⟩
    · rintro (⟨r, hr, rfl⟩ | ⟨q, hq⟩)
      · obtain hr | hr := List.mem_append.mp hr
        · exact Or.inl ⟨r, hr, rfl⟩
        · rw [List.mem_singleton.mp hr]
          exact Or.inr ⟨k, hk⟩
      · by_cases hqk : q = k
        · simp [update, hqk] at hq
        · exact Or.inr ⟨q, by simpa [update, hqk] using hq⟩
  alive q i hq e he := by
    by_cases hqk : q = k
    · simp [update, hqk] at hq
    · exact h.alive q i (by simpa [update, hqk] using hq) e he
  buried r hr q e hq := by
    by_cases hqk : q = k
    · simp [update, hqk] at hq
    · have hq : entry q = some (r.child.id, e) := by simpa [update, hqk] using hq
      obtain hr | hr := List.mem_append.mp hr
      · exact h.buried r hr q e hq
      · rw [List.mem_singleton.mp hr] at hq
        exact hqk (h.inj q k x.child.id _ _ hq hk)

end

end Xv6.Proc
