/-
  Xv6.Vm.Permissions — copies between the kernel and a process obey the page table's permissions
  (kernel/vm.c: `copyout`, `copyin`, `walkaddr`).

  Addresses are numbers here and a range that wraps past 2^64 reaches `MAXVA` first, so it is refused
  like any other range that does. The code looks for a page by its address and takes physical address
  0 for none, hence `Backed`; it stops at a page boundary, since all bytes of a page have one PTE.

  `copyout` writes through the table that it is following. A page table that maps one of its own tables
  for the user to write changes under the copy (`copyout_cuts_its_own_branch`), so the results need
  `Apart`, which every process has: its pages are not tables.

  Proved: `copies_respect_permissions`.
-/

import Xv6.Vm.Fork
import Xv6.Vm.Pgaccess

namespace Xv6.Vm

open Xv6.Lib

/-- The page of `va` is below `MAXVA` and mapped for the user. -/
def Readable (m : Bytes) (pagetable va : Nat) : Prop := pgrounddown va < maxva ∧
  pteV (pteAt m pagetable (pgrounddown va)) = true ∧ pteU (pteAt m pagetable (pgrounddown va)) = true

/-- And the user may write it. -/
def Writable (m : Bytes) (pagetable va : Nat) : Prop :=
  Readable m pagetable va ∧ pteW (pteAt m pagetable (pgrounddown va)) = true

instance (m : Bytes) (pagetable va : Nat) : Decidable (Readable m pagetable va) := inferInstanceAs (Decidable (_ ∧ _ ∧ _))

instance (m : Bytes) (pagetable va : Nat) : Decidable (Writable m pagetable va) := inferInstanceAs (Decidable (_ ∧ _))

/-- No user page is at physical address 0. -/
def Backed (m : Bytes) (pagetable : Nat) : Prop :=
  ∀ va, Readable m pagetable va → pte2pa (pteAt m pagetable (pgrounddown va)) ≠ 0

/-- Different user pages are different physical pages. -/
def Distinct (m : Bytes) (pagetable : Nat) : Prop := ∀ va va', Readable m pagetable va → Readable m pagetable va' →
  pte2pa (pteAt m pagetable (pgrounddown va)) = pte2pa (pteAt m pagetable (pgrounddown va')) → pgrounddown va = pgrounddown va'

section

variable {m m' : Bytes} {pagetable va : Nat}

theorem Readable.userPage (h : Readable m pagetable va) : userPage m pagetable (pgrounddown va) = pte2pa
    (pteAt m pagetable (pgrounddown va)) := by
  obtain ⟨hva, hv, hu⟩ := h
  unfold Vm.userPage
  rw [if_neg (Nat.not_le.mpr hva)]
  dsimp only
  unfold pteAt at hv hu ⊢
  by_cases h0 : entry m pagetable (pgrounddown va) = 0
  · rw [if_pos h0] at hv
    cases hv
  · rw [if_neg h0] at hv hu ⊢
    exact if_pos ⟨h0, hv, hu⟩

theorem readable_of_userPage (h : userPage m pagetable (pgrounddown va) ≠ 0) : Readable m pagetable va := by
  unfold userPage at h
  split at h
  · exact absurd rfl h
  next hva =>
    dsimp only at h
    split at h
    next hc =>
      obtain ⟨h0, hv, hu⟩ := hc
      refine ⟨Nat.lt_of_not_le hva, ?_, ?_⟩
      · rwa [pteAt, if_neg h0]
      · rwa [pteAt, if_neg h0]
    next => exact absurd rfl h

theorem Backed.mayRead_iff (h : Backed m pagetable) : mayRead m pagetable va = true ↔ Readable m pagetable va := by
  rw [mayRead, decide_eq_true_eq]
  refine ⟨readable_of_userPage, fun hr => ?_⟩
  rw [hr.userPage]
  exact h va hr

theorem Backed.mayWrite_iff (h : Backed m pagetable) : MayWrite m pagetable va ↔ Writable m pagetable va := by
  constructor
  · rintro ⟨-, h0, hpte, hpage⟩
    refine ⟨readable_of_userPage hpage, ?_⟩
    rwa [pteAt, if_neg h0]
  · rintro ⟨hr, hpte⟩
    have h0 : entry m pagetable (pgrounddown va) ≠ 0 := by
      intro h0
      rw [pteAt, if_pos h0] at hpte
      cases hpte
    rw [pteAt, if_neg h0] at hpte
    refine ⟨hr.1, h0, hpte, ?_⟩
    rw [hr.userPage]
    exact h va hr

/-- Different user addresses stand for different bytes. -/
theorem Distinct.phys_inj (h : Distinct m pagetable) {va' : Nat} (hva : Readable m pagetable va) (hva' : Readable m pagetable va')
    (he : phys m pagetable va = phys m pagetable va') : va = va' := by
  have hpage := userPage_page m pagetable (pgrounddown va)
  have hpage' := userPage_page m pagetable (pgrounddown va')
  have hlt : va % pgsize < pgsize := Nat.mod_lt _ (by decide)
  have hlt' : va' % pgsize < pgsize := Nat.mod_lt _ (by decide)
  have hboth : userPage m pagetable (pgrounddown va) = userPage m pagetable (pgrounddown va') ∧ va % pgsize = va' % pgsize := by
    unfold phys at he
    unfold pgsize at *
    omega
  rw [hva.userPage, hva'.userPage] at hboth
  have hround := h va va' hva hva' hboth.1
  rw [← pgrounddown_add_mod va, ← pgrounddown_add_mod va', hround, hboth.2]

theorem SameTables.pteAt (h : SameTables pagetable m m') (hva : va < maxva) : pteAt m' pagetable va = pteAt m pagetable va := by
  unfold Vm.pteAt
  rw [(h.entry hva).1]
  by_cases h0 : Vm.entry m pagetable va = 0
  · rw [if_pos h0, if_pos h0]
  · rw [if_neg h0, if_neg h0, h.word hva h0]

/-- A copy that stops before the end stops at a page boundary, or has not begun. -/
theorem reach_boundary {w : Nat → Bool} {len : Nat} (hw : ∀ a b, pgrounddown a = pgrounddown b → w a = w b)
    (h : reach w va len < len) :
    reach w va len = 0 ∨ (va + reach w va len) % pgsize = 0 := by
  have hstop := reach_stop h
  rcases Nat.eq_zero_or_pos (reach w va len) with h0 | hpos
  · exact .inl h0
  · refine .inr ?_
    by_contra hne
    have hlast : w (va + (reach w va len - 1)) = true := reach_good (Nat.sub_lt hpos Nat.one_pos)
    rw [hw _ (va + reach w va len) ?_, hstop] at hlast
    · cases hlast
    · unfold pgrounddown
      unfold pgsize at *
      omega

end

/-- What `copyout` of `src` to `dstva` did: it wrote the first bytes of `src`, all of them exactly when the user may write
every page of the range. -/
structure CopiedOut (pagetable dstva : Nat) (src : List UInt8) (s : St) (r : Bool) (s' : St) : Prop where
  result : r = true ↔ ∀ j < src.length, Writable s.mem pagetable (dstva + j)
  written : ∃ k ≤ src.length, (r = true → k = src.length) ∧ (r = false → k < src.length ∧ (k = 0 ∨ (dstva + k) % pgsize = 0)) ∧
    (∀ j < k, Writable s.mem pagetable (dstva + j) ∧ src[j]? = some (s'.mem (phys s.mem pagetable (dstva + j)))) ∧
    ∀ a, (∀ j < k, a ≠ phys s.mem pagetable (dstva + j)) → s'.mem a = s.mem a
  read : r = true → slice (userMem s'.mem pagetable) dstva src.length = src
  freelist : s'.freelist = s.freelist

/-- What `copyin` of `len` bytes from `srcva` delivered. -/
structure CopiedIn (pagetable srcva len : Nat) (s : St) (r : Bool) (dst : List UInt8) : Prop where
  result : r = true ↔ ∀ j < len, Readable s.mem pagetable (srcva + j)
  delivered : ∃ k ≤ len, (r = true → k = len) ∧ (r = false → k < len ∧ (k = 0 ∨ (srcva + k) % pgsize = 0)) ∧
    (∀ j < k, Readable s.mem pagetable (srcva + j)) ∧ dst = slice (userMem s.mem pagetable) srcva k

section

variable {pagetable : Nat} {s s' : St}

theorem copyin_delivers (hb : Backed s.mem pagetable) (srcva len : Nat) :
    ∃ r dst, copyin pagetable srcva len s = .ok ((r, dst), s) ∧ CopiedIn pagetable srcva len s r dst := by
  refine ⟨_, _, copyin_loads pagetable srcva len s, ?_, reach (mayRead s.mem pagetable) srcva len, reach_le, ?_, ?_, ?_, rfl⟩
  · rw [decide_eq_true_eq, reach_eq_iff]
    simp only [hb.mayRead_iff]
  · exact of_decide_eq_true
  · intro hr
    have hlt : reach (mayRead s.mem pagetable) srcva len < len := Nat.lt_of_le_of_ne reach_le (of_decide_eq_false hr)
    refine ⟨hlt, reach_boundary (fun a b hab => ?_) hlt⟩
    unfold mayRead
    rw [hab]
  · intro j hj
    exact hb.mayRead_iff.mp (reach_good hj)

theorem SameTables.readable (h : SameTables pagetable s.mem s'.mem) (va : Nat) : Readable s'.mem pagetable va ↔
    Readable s.mem pagetable va := by
  unfold Readable
  refine and_congr_right fun hva => ?_
  rw [h.pteAt hva]

theorem SameTables.backed (hb : Backed s.mem pagetable) (h : SameTables pagetable s.mem s'.mem) : Backed s'.mem pagetable := by
  intro va hr
  rw [h.pteAt hr.1]
  exact hb va ((h.readable va).mp hr)

variable (ha : Apart pagetable s.mem) (hb : Backed s.mem pagetable) (hd : Distinct s.mem pagetable) (dstva : Nat)
  (src : List UInt8)
include ha hb hd

theorem copyout_writes : ∃ r s', copyout pagetable dstva src s = .ok (r, s') ∧ CopiedOut pagetable dstva src s r s' ∧
    SameTables pagetable s.mem s'.mem := by
  obtain ⟨r, s', hrun, hspec⟩ := copyout_spec dstva src ha
  have hstores := copyout_stores dstva src ha
  dsimp only at hstores
  rw [hrun] at hstores
  have hall : r = true ↔ ∀ j < src.length, Writable s.mem pagetable (dstva + j) := by
    rw [hspec.success]
    simp only [hb.mayWrite_iff]
  refine ⟨r, s', hrun, ⟨hall, ?_, fun hr => ?_, hspec.freelist⟩, hspec.tables⟩
  · generalize hk : reach (mayWrite s.mem pagetable) dstva src.length = k at hstores
    have hle : k ≤ src.length := hk ▸ reach_le
    have hlen : (src.take k).length = k := List.length_take_of_le hle
    obtain ⟨rfl, rfl⟩ : r = decide (k = src.length) ∧
      s' = { s with mem := spread (phys s.mem pagetable) dstva (src.take k) s.mem } := by
      cases hstores
      exact ⟨rfl, rfl⟩
    have hgood : ∀ j < k, Writable s.mem pagetable (dstva + j) := fun j hj =>
      hb.mayWrite_iff.mp (of_decide_eq_true (reach_good (hk.symm ▸ hj)))
    have hinj : ∀ i j, i < j → j < (src.take k).length → phys s.mem pagetable (dstva + i) ≠ phys s.mem pagetable (dstva + j) := by
      intro i j hij hj he
      rw [hlen] at hj
      have := hd.phys_inj (hgood i (by omega)).1 (hgood j hj).1 he
      omega
    refine ⟨k, hle, of_decide_eq_true, fun hr => ?_, fun j hj => ⟨hgood j hj, ?_⟩, fun a hout => ?_⟩
    · have hlt : k < src.length := Nat.lt_of_le_of_ne hle (of_decide_eq_false hr)
      refine ⟨hlt, ?_⟩
      rw [← hk] at hlt ⊢
      exact reach_boundary (fun a b hab => decide_eq_decide.mpr (mayWrite_congr hab)) hlt
    · have hj' : j < (src.take k).length := hlen.symm ▸ hj
      dsimp only
      rw [spread_inside hinj hj', List.getElem_take]
      exact List.getElem?_eq_getElem _
    · refine spread_outside fun j hj => ?_
      rw [hlen] at hj
      exact hout j hj
  · refine List.ext_getElem (slice_length _ _ _) fun j h1 h2 => ?_
    have hbytes := hspec.bytes hr (fun i j hij hj he => ?_) j h2
    · simp only [slice, List.getElem_map, List.getElem_range, userMem]
      rw [hspec.tables.phys]
      exact hbytes
    · have := hd.phys_inj (hall.mp hr i (by omega)).1 (hall.mp hr j hj).1 he
      omega

end

section

variable {pagetable : Nat} {s : St}

/-- `copyout` and `copyin` succeed exactly when every page of the range has the permission, and copy up to the first page
that does not. -/
theorem copies_respect_permissions (hb : Backed s.mem pagetable) (dstva : Nat) (src : List UInt8) (srcva len : Nat) :
    (Apart pagetable s.mem → Distinct s.mem pagetable → ∃ r s', copyout pagetable dstva src s = .ok (r, s') ∧
      CopiedOut pagetable dstva src s r s' ∧ (r = true → copyin pagetable dstva src.length s' = .ok ((true, src), s'))) ∧
    ∃ r dst, copyin pagetable srcva len s = .ok ((r, dst), s) ∧ CopiedIn pagetable srcva len s r dst := by
  refine ⟨fun ha hd => ?_, copyin_delivers hb srcva len⟩
  obtain ⟨r, s', hrun, hout, htab⟩ := copyout_writes ha hb hd dstva src
  refine ⟨r, s', hrun, hout, fun hr => ?_⟩
  obtain ⟨r', dst, hin, hcopied⟩ := copyin_delivers (htab.backed hb) dstva src.length
  have hr' : r' = true := hcopied.result.mpr fun j hj => (htab.readable _).mpr (hout.result.mp hr j hj).1
  obtain ⟨k, -, hall, -, -, hdst⟩ := hcopied.delivered
  rw [hall hr', hout.read hr] at hdst
  rw [hin, hr', hdst]

end

/-! ## A process -/

section

variable {P : Set Nat} {s : St} {A : Space} {trapframe n va : Nat}

/-- What the user can read is in the process's memory. -/
theorem AddrSpace.readable (h : AddrSpace P s A trapframe n) (hr : Readable s.mem (A.tab 2 0) va) :
    pgrounddown va / pgsize < n ∧ pteAt s.mem (A.tab 2 0) (pgrounddown va) = A.pte (pgrounddown va / pgsize) := by
  obtain ⟨hva, hv, hu⟩ := hr
  have hpte := h.sound.stored.pteAt hva
  rw [hpte] at hv hu
  exact ⟨h.user hv hu, hpte⟩

theorem AddrSpace.backed (h : AddrSpace P s A trapframe n) : Backed s.mem (A.tab 2 0) := by
  intro va hr
  obtain ⟨hlt, hpte⟩ := h.readable hr
  rw [hpte]
  exact (h.data.page _ (Nat.zero_le _) hlt).pos

theorem AddrSpace.distinct (h : AddrSpace P s A trapframe n) : Distinct s.mem (A.tab 2 0) := by
  intro va va' hr hr' he
  obtain ⟨hlt, hpte⟩ := h.readable hr
  obtain ⟨hlt', hpte'⟩ := h.readable hr'
  rw [hpte, hpte'] at he
  have hpage := h.data.inj _ _ (Nat.zero_le _) hlt (Nat.zero_le _) hlt' he
  have hround : ∀ a, pgrounddown a / pgsize * pgsize = pgrounddown a := fun a =>
    Nat.div_mul_cancel (Nat.dvd_mul_left _ _)
  rw [← hround va, hpage, hround]

end

/-- Copies to and from the memory of a process with one page. -/
theorem copies_respect_permissions_page : ∃ P s A, AddrSpace P s A 0x87000000 (npages pgsize) ∧
    (∃ r s', copyout (A.tab 2 0) 4090 [1, 2, 3, 4, 5, 6, 7] s = .ok (r, s') ∧
      CopiedOut (A.tab 2 0) 4090 [1, 2, 3, 4, 5, 6, 7] s r s') ∧
    ∃ r dst, copyin (A.tab 2 0) 0 4096 s = .ok ((r, dst), s) ∧ CopiedIn (A.tab 2 0) 0 4096 s r dst := by
  obtain ⟨P, s, A, h, -⟩ := onePage_runs
  obtain ⟨hcopyout, hin⟩ := copies_respect_permissions h.backed 4090 [1, 2, 3, 4, 5, 6, 7] 0 4096
  obtain ⟨r, s', hrun, hout, -⟩ := hcopyout h.confined.separate h.distinct
  exact ⟨P, s, A, h, ⟨r, s', hrun, hout⟩, hin⟩

/-! ## A page table that maps itself -/

/-- Three tables at 0x1000, 0x2000 and 0x3000. Page 0 is the third of them, and the user may write it. -/
def cyclic : Bytes :=
  put64 (put64 (put64 zero 0x1000 (pa2pte 0x2000 + 1)) 0x2000 (pa2pte 0x3000 + 1)) 0x3000 (pa2pte 0x3000 + 0x17)

theorem cyclic_word {a : Nat} (ha : a % 8 = 0) : le64 cyclic a =
    if a = 0x3000 then pa2pte 0x3000 + 0x17 else if a = 0x2000 then pa2pte 0x3000 + 1 else if a = 0x1000 then pa2pte 0x2000 + 1
    else 0 := by
  unfold cyclic
  rw [le64_put64 _ _ (by decide) ha, le64_put64 _ _ (by decide) ha, le64_put64 _ _ (by decide) ha, le64_zero]
  rfl

/-- Entry `i` of one of the tables is empty, but for entry 0. -/
theorem cyclic_entry {p i : Nat} (hp : p = 0x1000 ∨ p = 0x2000 ∨ p = 0x3000) (hi : i < 512) (h0 : i ≠ 0) :
    le64 cyclic (p + 8 * i) = 0 := by
  rw [cyclic_word (by omega), if_neg (by omega), if_neg (by omega), if_neg (by omega)]

theorem cyclic_readable {va : Nat} (h : Readable cyclic 0x1000 va) : pgrounddown va = 0 := by
  obtain ⟨hva, hv, -⟩ := h
  have hw2 : le64 cyclic 0x1000 = pa2pte 0x2000 + 1 := cyclic_word (by decide)
  have hw1 : le64 cyclic 0x2000 = pa2pte 0x3000 + 1 := cyclic_word (by decide)
  unfold pteAt entry at hv
  have hstep : ∀ l p q, (p = 0x1000 ∨ p = 0x2000 ∨ p = 0x3000) → le64 cyclic p = pa2pte q + 1 → pteV (pa2pte q + 1) = true →
      pteLeaf (pa2pte q + 1) = false → pte2pa (pa2pte q + 1) = q → px (l + 1) (pgrounddown va) = 0 →
      entryFrom cyclic (pgrounddown va) (l + 1) p = entryFrom cyclic (pgrounddown va) l q := by
    intro l p q hp hword hval hleaf hpa hpx
    rw [entryFrom, slotAt, hpx, Nat.mul_zero, Nat.add_zero, hword, if_pos hval, if_neg (by simp [hleaf]), hpa]
  have hgone : ∀ l p, (p = 0x1000 ∨ p = 0x2000 ∨ p = 0x3000) → px (l + 1) (pgrounddown va) ≠ 0 →
      entryFrom cyclic (pgrounddown va) (l + 1) p = 0 := by
    intro l p hp hpx
    rw [entryFrom, slotAt, cyclic_entry hp (px_lt _ _) hpx]
    rfl
  by_cases h2 : px 2 (pgrounddown va) = 0
  · rw [hstep 1 0x1000 0x2000 (.inl rfl) hw2 (by decide) (by decide) (by decide) h2] at hv
    by_cases h1 : px 1 (pgrounddown va) = 0
    · rw [hstep 0 0x2000 0x3000 (.inr (.inl rfl)) hw1 (by decide) (by decide) (by decide) h1] at hv
      by_cases h0 : px 0 (pgrounddown va) = 0
      · unfold px pgrounddown pgsize at *
        unfold maxva at hva
        omega
      · rw [entryFrom, slotAt, cyclic_entry (.inr (.inr rfl)) (px_lt _ _) h0] at hv
        simp [pteV] at hv
    · rw [hgone 0 0x2000 (.inr (.inl rfl)) h1] at hv
      cases hv
  · rw [hgone 1 0x1000 (.inl rfl) h2] at hv
    cases hv

/-- Eight zeros are copied over the PTE of the page they go to: the copy succeeds, and nothing can be read back. -/
theorem copyout_cuts_its_own_branch : Backed cyclic 0x1000 ∧ Distinct cyclic 0x1000 ∧ (∀ j < 8, Writable cyclic 0x1000 (0 + j)) ∧
    ∃ s', copyout 0x1000 0 [0, 0, 0, 0, 0, 0, 0, 0] ⟨cyclic, []⟩ = .ok (true, s') ∧
    copyin 0x1000 0 8 s' = .ok ((false, []), s') := by
  have hrun : ((copyout 0x1000 0 [0, 0, 0, 0, 0, 0, 0, 0] >>= fun r => copyin 0x1000 0 8 >>= fun c => pure (r, c))
      ⟨cyclic, []⟩).toOption.map
      (fun v => v.1) = some (true, false, []) := by decide +kernel
  have hpte : pte2pa (pteAt cyclic 0x1000 0) ≠ 0 := by decide +kernel
  refine ⟨fun va hr => ?_, fun va va' hr hr' _ => ?_, by decide +kernel, ?_⟩
  · rw [cyclic_readable hr]
    exact hpte
  · rw [cyclic_readable hr, cyclic_readable hr']
  · obtain ⟨r, s', hcopy⟩ := copyout_returns 0x1000 0 [0, 0, 0, 0, 0, 0, 0, 0] ⟨cyclic, []⟩
    have hload := copyin_loads 0x1000 0 8 s'
    dsimp only at hload
    rw [run_bind_ok hcopy, run_bind_ok hload] at hrun
    injection hrun with hpair
    injection hpair with hr hrest
    injection hrest with hfail hdst
    refine ⟨s', hr ▸ hcopy, ?_⟩
    rw [hload, hfail, hdst]

end Xv6.Vm
