/-
  Xv6.Vm.Accessed — `sys_pgaccess` on the page table of a process (kernel/sysproc.c).

  Xv6.Vm.Pgaccess says what the scan does through any page table. In the page table of a process
  different pages have different PTEs, so each of the first 64 pages has a bit of the mask for
  itself; and no page that the process can write holds a PTE, so the mask does not disturb what the
  scan has cleared.

  Proved: `pgaccess_reports_exactly`.
-/

import Xv6.Vm.Fork
import Xv6.Vm.Pgaccess

namespace Xv6.Vm

open Xv6.Lib

/-- Page `v` is one of the `numpages` pages from the one of `start` on. -/
def Scans (start numpages v : Nat) : Prop := start / pgsize ≤ v ∧ v < start / pgsize + numpages

instance (start numpages v : Nat) : Decidable (Scans start numpages v) := inferInstanceAs (Decidable (_ ∧ _))

/-- What a call that returned 0 has done to the page table `pagetable` and to memory. -/
structure Harvested (pagetable start numpages maskUser : Nat) (s s' : St) : Prop where
  mask : ∀ i, (storedMask s'.mem pagetable maskUser).testBit i = true ↔
    i < numpages ∧ pteA (pteAt s.mem pagetable (start + i * pgsize)) = true
  ptes : ∀ u < maxva, pteAt s'.mem pagetable u =
    if Scans start numpages (u / pgsize) then clearA (pteAt s.mem pagetable u) else pteAt s.mem pagetable u
  bytes : ∀ a, (∀ i < numpages, Accessed s.mem pagetable (start + i * pgsize) →
      ¬(entry s.mem pagetable (start + i * pgsize) ≤ a ∧ a < entry s.mem pagetable (start + i * pgsize) + 8)) →
    (∀ j < 8, a ≠ phys s.mem pagetable (maskUser + j)) → s'.mem a = s.mem a
  freelist : s'.freelist = s.freelist

section

variable {m : Bytes} {pagetable start numpages maskUser mask va : Nat} {s s1 s' : St} {A : Space} {P : Set Nat}
  {trapframe n : Nat} {c : Bool}

theorem accessed_iff : Accessed m pagetable va ↔ pteA (pteAt m pagetable va) = true := by
  unfold Accessed pteAt
  by_cases h0 : entry m pagetable va = 0
  · rw [if_pos h0]
    exact iff_of_false (fun h => h.1 h0) (by decide)
  · rw [if_neg h0]
    exact and_iff_right h0

theorem clearA_of_not {pte : Nat} (hlt : pte < 2 ^ 64) (h : pteA pte = false) : clearA pte = pte := by
  refine Nat.eq_of_testBit_eq fun j => ?_
  rw [clearA_testBit hlt]
  by_cases hj : j = 6
  · rw [hj]
    exact (Bool.and_false _).trans h.symm
  · rw [decide_eq_true hj, Bool.and_true]

theorem pteAt_lt (m : Bytes) (pagetable va : Nat) : pteAt m pagetable va < 2 ^ 64 := by
  unfold pteAt
  split
  · decide
  · exact le64_lt _ _

/-- Different pages have different PTEs. -/
theorem Space.slot_inj {v u : Nat} (h0 : A.slot v ≠ 0) (he : A.slot v = A.slot u) : v = u := by
  have hv : A.tab 0 (v / 512) ≠ 0 := fun h => h0 (if_pos h)
  have hu : A.tab 0 (u / 512) ≠ 0 := fun h => h0 (he.trans (if_pos h))
  rw [Space.slot, Space.slot, if_neg hv, if_neg hu] at he
  obtain ⟨-, hk, hi⟩ := A.entry_inj hv hu (Nat.mod_lt _ (by decide)) (Nat.mod_lt _ (by decide)) he
  omega

theorem page_of_scan (start i : Nat) : (start + i * pgsize) / pgsize = start / pgsize + i :=
  Nat.add_mul_div_right _ _ (by decide)

/-- In a tree every accessed page is the first with its PTE. -/
theorem Space.Stored.first_iff (h : A.Stored m) (hend : start + numpages * pgsize ≤ maxva) {i : Nat} (hi : i < numpages) :
    First m (A.tab 2 0) start i ↔ Accessed m (A.tab 2 0) (start + i * pgsize) := by
  refine and_iff_left_of_imp fun hacc j hj _ he => ?_
  have hva : ∀ k ≤ i, start + k * pgsize < maxva := by
    intro k hk
    unfold pgsize at hend ⊢
    omega
  obtain ⟨h0, -⟩ := hacc
  rw [h.entry (hva i (Nat.le_refl _)), page_of_scan] at h0 he
  rw [h.entry (hva j (Nat.le_of_lt hj)), page_of_scan] at he
  have hsame := Space.slot_inj h0 he.symm
  omega

/-- A page of the range has the PTE that the scan has seen, when that is accessed. -/
theorem Space.Stored.seen_iff (h : A.Stored m) (hend : start + numpages * pgsize ≤ maxva) (hva : va < maxva)
    (h0 : Vm.entry m (A.tab 2 0) va ≠ 0) : Seen m (A.tab 2 0) start numpages (Vm.entry m (A.tab 2 0) va) ↔
      Scans start numpages (va / pgsize) ∧ Accessed m (A.tab 2 0) va := by
  have hpage : ∀ i < numpages, start + i * pgsize < maxva := by
    intro i hi
    unfold pgsize at hend ⊢
    omega
  have hsame : ∀ i < numpages, Vm.entry m (A.tab 2 0) (start + i * pgsize) = Vm.entry m (A.tab 2 0) va ↔
    start / pgsize + i = va / pgsize := by
    intro i hi
    rw [h.entry hva] at h0 ⊢
    rw [h.entry (hpage i hi), page_of_scan]
    refine ⟨fun he => (Space.slot_inj h0 he.symm).symm, fun he => by rw [he]⟩
  constructor
  · rintro ⟨i, hi, hacc, he⟩
    have hv := (hsame i hi).mp he
    refine ⟨⟨by omega, by omega⟩, ?_⟩
    unfold Accessed at hacc ⊢
    rwa [he] at hacc
  · rintro ⟨⟨hlo, hhi⟩, hacc⟩
    have hi : va / pgsize - start / pgsize < numpages := by omega
    have he := (hsame _ hi).mpr (by omega)
    refine ⟨_, hi, ?_, he⟩
    unfold Accessed at hacc ⊢
    rwa [he]

/-- The scan and the `copyout` of its mask, in a tree whose PTEs the user cannot write. -/
theorem Harvested.of_parts (h : A.Stored s.mem) (hp : A.tab 2 0 % 8 = 0) (hn : numpages ≤ 64)
    (hend : start + numpages * pgsize ≤ maxva)
    (hscan : Scanned (A.tab 2 0) start s numpages mask s1) (hcopy : Copied (A.tab 2 0) maskUser (wordBytes mask) s1 c s')
    (hmask : ∀ b, (storedMask s'.mem (A.tab 2 0) maskUser).testBit b = true ↔ ∃ k < numpages, k % 64 = b ∧
      First s.mem (A.tab 2 0) start k) :
    Harvested (A.tab 2 0) start numpages maskUser s s' := by
  refine ⟨fun i => ?_, fun u hu => ?_, fun a hout hmem => ?_, hcopy.freelist.trans hscan.freelist⟩
  · rw [hmask, ← accessed_iff]
    constructor
    · rintro ⟨k, hk, hmod, hfirst⟩
      rw [Nat.mod_eq_of_lt (by omega)] at hmod
      subst hmod
      exact ⟨hk, (h.first_iff hend hk).mp hfirst⟩
    · intro hi
      exact ⟨i, hi.1, Nat.mod_eq_of_lt (by omega), (h.first_iff hend hi.1).mpr hi.2⟩
  · have hentry : entry s'.mem (A.tab 2 0) u = entry s.mem (A.tab 2 0) u :=
      (hcopy.tables.entry hu).1.trans (hscan.cleared.entry hp u).1
    have hacc : Accessed s.mem (A.tab 2 0) u ↔ _ := accessed_iff
    have hlt := pteAt_lt s.mem (A.tab 2 0) u
    by_cases h0 : entry s.mem (A.tab 2 0) u = 0
    · rw [pteAt, hentry, if_pos h0, pteAt, if_pos h0]
      exact (ite_self 0).symm
    · have hword := hcopy.tables.word hu (by rwa [(hscan.cleared.entry hp u).1])
      rw [(hscan.cleared.entry hp u).1] at hword
      have hclear := hscan.cleared _ (entry_aligned s.mem hp u)
      rw [h.seen_iff hend hu h0] at hclear
      have hpte : ∀ m', entry m' (A.tab 2 0) u = entry s.mem (A.tab 2 0) u →
        pteAt m' (A.tab 2 0) u = le64 m' (entry s.mem (A.tab 2 0) u) := by
        intro m' he
        rw [pteAt, he, if_neg h0]
      rw [hpte _ hentry, hword]
      rw [hpte _ rfl] at hlt hacc ⊢
      by_cases hs : Scans start numpages (u / pgsize)
      · rw [if_pos hs]
        by_cases hA : Accessed s.mem (A.tab 2 0) u
        · exact hclear.1 ⟨hs, hA⟩
        · rw [hclear.2 fun hc => hA hc.2]
          exact (clearA_of_not hlt (Bool.not_eq_true _ ▸ mt hacc.mpr hA)).symm
      · rw [if_neg hs]
        exact hclear.2 fun hc => hs hc.1
  · have hcopied : s'.mem a = s1.mem a := by
      refine hcopy.frame a fun j hj _ => ?_
      rw [hscan.cleared.phys hp]
      rw [show (wordBytes mask).length = 8 from slice_length _ _ _] at hj
      exact hmem j hj
    -- the byte is in the aligned word at `a / 8 * 8`, which the scan has not seen
    have hsplit : a = a / 8 * 8 + a % 8 := by omega
    have hword := (hscan.cleared (a / 8 * 8) (Nat.mul_mod_left _ _)).2 fun hseen => by
      obtain ⟨i, hi, hacc, he⟩ := hseen
      refine hout i hi hacc ?_
      rw [he]
      omega
    rw [hcopied, hsplit]
    exact le64_bytes hword (Nat.mod_lt _ (by decide))

theorem zero_of_no_bits {v : Nat} (h : ∀ i, ¬v.testBit i = true) : v = 0 := by
  refine Nat.eq_of_testBit_eq fun i => ?_
  rw [Nat.zero_testBit]
  exact Bool.not_eq_true _ ▸ h i

/-- `sys_pgaccess` stores and clears exactly the accessed bits of the range, and a second call then finds none. -/
theorem pgaccess_reports_exactly (h : AddrSpace P s A trapframe n) (hn : numpages ≤ 64) (hend : start + numpages * pgsize ≤ maxva)
    (hwrite : ∀ j < 8, MayWrite s.mem (A.tab 2 0) (maskUser + j)) :
    ∃ s', sysPgaccess (A.tab 2 0) start numpages maskUser s = .ok (0, s') ∧ Harvested (A.tab 2 0) start numpages maskUser s s' ∧
      ∃ s'', sysPgaccess (A.tab 2 0) start numpages maskUser s' = .ok (0, s'') ∧ storedMask s''.mem (A.tab 2 0) maskUser = 0 := by
  have hp : A.tab 2 0 % 8 = 0 := A.entry_aligned A.root 0
  have hs : start < 2 ^ 64 := by
    unfold maxva at hend
    omega
  have ha : Apart (A.tab 2 0) s.mem := h.confined.separate
  have hin : InRange start numpages := by
    unfold InRange
    unfold pgsize at hend ⊢
    omega
  obtain ⟨r, s', hrun⟩ := (sysPgaccess_returns_iff (s := s) hs maskUser).mpr hin
  have hrep := sysPgaccess_reports hp hs ha hrun
  obtain rfl : r = 0 := hrep.result.mpr hwrite
  obtain ⟨mask, s1, c, hscan, hcopy, -⟩ := sysPgaccess_parts hp hs ha hrun
  refine ⟨s', hrun, .of_parts h.sound.stored hp hn hend hscan hcopy (hrep.mask rfl), ?_⟩
  have ha' : Apart (A.tab 2 0) s'.mem := hcopy.tables.apart (hscan.cleared.apart hp ha)
  obtain ⟨r', s'', hrun'⟩ := (sysPgaccess_returns_iff (s := s') hs maskUser).mpr hin
  have hrep' := sysPgaccess_reports hp hs ha' hrun'
  obtain rfl : r' = 0 := hrep'.result.mpr fun j hj =>
    (hcopy.tables.mayWrite _).mpr ((hscan.cleared.mayWrite hp _).mpr (hwrite j hj))
  refine ⟨s'', hrun', zero_of_no_bits fun i hbit => ?_⟩
  obtain ⟨k, hk, -, hfirst⟩ := (hrep'.mask rfl i).mp hbit
  exact hrep.accessed k hk hfirst.1

end

/-- The two pages from address 100 on, the first of which is mapped and accessed; the mask goes to address 0. -/
theorem pgaccess_reports_exactly_page : ∃ P s A s', AddrSpace P s A 0x87000000 (npages pgsize) ∧
    sysPgaccess (A.tab 2 0) 100 2 0 s = .ok (0, s') ∧ Harvested (A.tab 2 0) 100 2 0 s s' ∧
    pteA (pteAt s.mem (A.tab 2 0) 100) = true ∧ (storedMask s'.mem (A.tab 2 0) 0).testBit 0 = true ∧
    pteA (pteAt s'.mem (A.tab 2 0) 100) = false := by
  obtain ⟨P, s, A, h, hrun, -⟩ := newProc_runs zero (show pteRBit ||| pteUBit ||| (pteWBit ||| 1 <<< 6) < 1024 by decide)
    (show 0 < npages pgsize by decide) (by decide)
  have hcheck : (newProc pgsize (pteWBit ||| 1 <<< 6) ⟨zero, machine.freelist⟩).toOption.map (fun c =>
      ((List.range 8).all fun j => mayWrite c.2.mem c.1 (0 + j), pteA (pteAt c.2.mem c.1 100))) = some (true, true) := by
    decide +kernel
  rw [hrun] at hcheck
  obtain ⟨hall, hacc⟩ := Prod.ext_iff.mp (Option.some.inj hcheck)
  have hwrite : ∀ j < 8, MayWrite s.mem (A.tab 2 0) (0 + j) := fun j hj =>
    of_decide_eq_true (List.all_eq_true.mp hall j (List.mem_range.mpr hj))
  obtain ⟨s', hcall, hdone, -⟩ := pgaccess_reports_exactly h (show 2 ≤ 64 by decide)
    (show 100 + 2 * pgsize ≤ maxva by decide) hwrite
  refine ⟨P, s, A, s', h, hcall, hdone, hacc, (hdone.mask 0).mpr ⟨by decide, hacc⟩, ?_⟩
  rw [hdone.ptes 100 (by decide), if_pos (by decide), pteA, clearA_testBit (pteAt_lt _ _ _)]
  exact Bool.and_false _

end Xv6.Vm
