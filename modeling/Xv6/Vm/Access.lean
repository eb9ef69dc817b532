/-
  Xv6.Vm.Access — what a user can touch through a page table.

  `Confined m A D`: the user reaches only the pages `D` through the tree `A`, and none of its tables.
  `copyout` then writes inside `D` only (`copyout_confined`), and what `copyin` returns depends on the
  tables and on `D` only (`copyin_confined`).
-/

import Xv6.Vm.Sbrk
import Xv6.Vm.Stores

namespace Xv6.Vm

open Xv6.Lib

section

variable {A : Space} {m m' : Bytes} {D Q : Set Nat} {l va : Nat} {s s' : St}

/-- The words that a lookup looks at are in tables. -/
theorem Space.Stored.pathFrom (h : A.Stored m) (hl : l ≤ 2) (h0 : A.tab l (node l (va / pgsize)) ≠ 0) :
    ∀ a ∈ pathFrom m va l (A.tab l (node l (va / pgsize))), ∃ p, A.Table p ∧ ∃ i < 512, a = p + 8 * i := by
  induction l with
  | zero =>
    intro a ha
    rw [Vm.pathFrom, List.mem_singleton] at ha
    exact ⟨_, ⟨_, _, h0, rfl⟩, px 0 va, px_lt _ _, ha⟩
  | succ l ih =>
    intro a ha
    rw [Vm.pathFrom] at ha
    rcases List.mem_cons.mp ha with rfl | ha
    · exact ⟨_, ⟨_, _, h0, rfl⟩, px (l + 1) va, px_lt _ _, rfl⟩
    · rw [h.link h0] at ha
      by_cases hnone : A.tab l (node l (va / pgsize)) = 0
      · rw [hnone, link_zero, pteV_zero, if_neg (by simp)] at ha
        cases ha
      · obtain ⟨hv, hleaf, hpa⟩ := (A.page _ _ hnone).link
        rw [hv, hleaf, hpa, if_pos (by simp)] at ha
        exact ih (by omega) hnone a ha

theorem Space.Stored.path (h : A.Stored m) (hva : va < maxva) :
    ∀ a ∈ path m (A.tab 2 0) va, ∃ p, A.Table p ∧ ∃ i < 512, a = p + 8 * i := by
  have hkey : node 2 (va / pgsize) = 0 := node_two (Nat.lt_trans (page_lt hva) (by decide))
  have hroot : A.tab 2 (node 2 (va / pgsize)) ≠ 0 := by
    rw [hkey]
    exact A.root
  have hfrom := h.pathFrom (Nat.le_refl 2) hroot
  rwa [hkey] at hfrom

/-- The page that the user reaches at `va`. -/
theorem Space.Stored.userPage (h : A.Stored m) (hva : va < maxva) : userPage m (A.tab 2 0) va =
    if pteV (A.pte (va / pgsize)) = true ∧ pteU (A.pte (va / pgsize)) = true then A.pa (va / pgsize) else 0 := by
  unfold Vm.userPage
  rw [if_neg (Nat.not_le.mpr hva)]
  dsimp only
  rw [h.entry hva]
  by_cases h0 : A.tab 0 (va / pgsize / 512) = 0
  · have hslot : A.slot (va / pgsize) = 0 := if_pos h0
    rw [A.bare _ h0, hslot, if_neg fun hc => hc.1 rfl, if_neg fun hc => Bool.false_ne_true hc.1]
  · rw [h.slot h0]
    simp only [A.slot_ne_zero h0, ne_eq, not_false_eq_true, true_and]
    rfl

/-- Through `A` the user reaches only the pages `D`, which hold no table of it. -/
structure Confined (m : Bytes) (A : Space) (D : Set Nat) : Prop where
  stored : A.Stored m
  user : ∀ v < 2 ^ 26, pteV (A.pte v) = true → pteU (A.pte v) = true → A.pa v ∈ D
  apart : ∀ p, A.Table p → p ∉ D

theorem Confined.userPage (h : Confined m A D) (h0 : userPage m (A.tab 2 0) va ≠ 0) : userPage m (A.tab 2 0) va ∈ D := by
  have hva : va < maxva := by
    by_contra hge
    rw [Vm.userPage, if_pos (Nat.le_of_not_lt hge)] at h0
    exact h0 rfl
  rw [h.stored.userPage hva] at h0 ⊢
  split at h0
  next hc =>
    rw [if_pos hc]
    exact h.user _ (page_lt hva) hc.1 hc.2
  next => exact absurd rfl h0

theorem Confined.separate (h : Confined m A D) : Apart (A.tab 2 0) m := by
  intro va hw va' hva' a ha
  obtain ⟨p, hp, i, hi, rfl⟩ := h.stored.path hva' a ha
  have hne : p ≠ Vm.userPage m (A.tab 2 0) (pgrounddown va) := fun he => h.apart p hp (he ▸ h.userPage hw.2.2.2)
  have hpage := (hp.page).1
  have huser := userPage_page m (A.tab 2 0) (pgrounddown va)
  unfold pgsize at *
  omega

/-- The page of a byte that the user reaches. -/
theorem pgrounddown_phys (m : Bytes) (pagetable va : Nat) : pgrounddown (phys m pagetable va) = userPage m pagetable
    (pgrounddown va) :=
  pgrounddown_page (userPage_page _ _ _) (Nat.mod_lt _ (by decide))

theorem copyout_confined (h : Confined s.mem A D) (dstva : Nat) (src : List UInt8) :
    ∃ r s', copyout (A.tab 2 0) dstva src s = .ok (r, s') ∧ Frame D s.mem s'.mem ∧ s'.freelist = s.freelist := by
  refine ⟨_, _, copyout_stores dstva src h.separate, fun a ha => ?_, rfl⟩
  refine spread_outside fun j hj he => ha ?_
  have hw : MayWrite s.mem (A.tab 2 0) (dstva + j) := of_decide_eq_true
    (reach_good (Nat.lt_of_lt_of_le hj (List.length_take_le _ _)))
  rw [he, pgrounddown_phys]
  exact h.userPage hw.2.2.2

theorem Confined.frame (h : Confined m A D) (hf : Frame Q m m') (hQ : ∀ p, A.Table p → p ∉ Q) : Confined m' A D :=
  ⟨h.stored.frame hf hQ, h.user, h.apart⟩

/-- What is read through `A` does not depend on pages other than its tables and `D`. -/
theorem copyin_confined (h : Confined s.mem A D) (hf : Frame Q s.mem s'.mem) (hQ : ∀ p, A.Table p → p ∉ Q) (hD : ∀ p ∈ D, p ∉ Q)
    (srcva len : Nat) : ∃ v, copyin (A.tab 2 0) srcva len s = .ok (v, s) ∧ copyin (A.tab 2 0) srcva len s' = .ok (v, s') := by
  have hstored := h.stored.frame hf hQ
  have hpage : ∀ va, Vm.userPage s'.mem (A.tab 2 0) va = Vm.userPage s.mem (A.tab 2 0) va := by
    intro va
    by_cases hva : va < maxva
    · rw [hstored.userPage hva, h.stored.userPage hva]
    · rw [Vm.userPage, if_pos (Nat.le_of_not_lt hva), Vm.userPage, if_pos (Nat.le_of_not_lt hva)]
  have hread : mayRead s'.mem (A.tab 2 0) = mayRead s.mem (A.tab 2 0) := by
    funext va
    rw [mayRead, mayRead, hpage]
  refine ⟨_, copyin_loads _ _ _ s, ?_⟩
  have hload := copyin_loads (A.tab 2 0) srcva len s'
  dsimp only at hload ⊢
  rw [hread] at hload
  rw [hload]
  refine congrArg (fun l => Except.ok ((_, l), s')) (slice_congr fun j hj => ?_)
  -- a byte that is delivered lies in a page of `D`
  have hj0 : Vm.userPage s.mem (A.tab 2 0) (pgrounddown (srcva + j)) ≠ 0 := of_decide_eq_true (reach_good hj)
  unfold userMem
  rw [show phys s'.mem (A.tab 2 0) (srcva + j) = phys s.mem (A.tab 2 0) (srcva + j) by unfold phys; rw [hpage]]
  refine hf _ ?_
  rw [pgrounddown_phys]
  exact hD _ (h.userPage hj0)

end

end Xv6.Vm
