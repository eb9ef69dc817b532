/-
  Xv6.Vm.Pgaccess — the page-table system calls (kernel/sysproc.c: `sys_pgaccess`,
  `sys_pgpte`).

  `sys_pgaccess` looks up `numpages` pages from `start_va` on, with an `int` counter, collects
  the accessed bits in a 64-bit mask, clears them as it goes, and copies the mask out at the
  end. Its arguments are three registers of the caller: nothing bounds them. The byte distance
  of page `i` is the `int` product `i * PGSIZE`; the model stops where it overflows. A shift by
  64 or more takes the count modulo 64, as the machine's shift does.

  Proved: `page_table_calls_return_iff`, `no_access_lost_iff`.
-/

import Xv6.Vm.Sbrk
import Xv6.Vm.Stores

namespace Xv6.Vm

open Xv6.Lib

/-- `start_va + i * PGSIZE`. -/
def pageVa (start i : Nat) : Option Nat :=
  if i * pgsize < 2 ^ 31 then some ((start + i * pgsize) % 2 ^ 64) else none

/-- The loop of `sys_pgaccess` from page `i` on, with the mask so far. -/
def pgaccessFrom (pagetable start numpages : Nat) : Nat → Nat → Nat → VmM Nat
  | 0, _, mask => pure mask
  | fuel + 1, i, mask =>
    if i < numpages then
      match pageVa start i with
      | none => throw .overflow
      | some va => do
        let pte ← walk pagetable va false
        if pte = 0 then pgaccessFrom pagetable start numpages fuel (i + 1) mask
        else do
          let v ← load pte
          if pteA v then do
            store pte (clearA v)
            pgaccessFrom pagetable start numpages fuel (i + 1) (mask ||| 1 <<< (i % 64))
          else pgaccessFrom pagetable start numpages fuel (i + 1) mask
    else pure mask

/-- The bytes of a `uint64`. -/
def wordBytes (v : Nat) : List UInt8 := slice (put64 zero 0 v) 0 8

-- the arguments are unsigned, so the test for a negative one never fails
def sysPgaccess (pagetable start numpages maskUser : Nat) : VmM Int := do
  let mask ← pgaccessFrom pagetable start numpages numpages 0 0
  let copied ← copyout pagetable maskUser (wordBytes mask)
  pure (if copied then 0 else -1)

/-- The result is an `int`: the low half of the PTE. -/
def sysPgpte (pagetable va : Nat) : VmM Int := do
  let pte ← pgpte pagetable va
  if pte ≠ 0 then do
    let v ← load pte
    pure (toInt32 (v % 2 ^ 32))
  else pure 0

/-! ## Which calls return -/

/-- The pages of the range are below `MAXVA`, and there are few enough of them for the byte distance to be an `int`. -/
def InRange (start numpages : Nat) : Prop :=
  numpages = 0 ∨ (numpages ≤ 2 ^ 19 ∧ start + (numpages - 1) * pgsize < maxva)

instance (start numpages : Nat) : Decidable (InRange start numpages) := inferInstanceAs (Decidable (_ ∨ _))

section

variable {pagetable start numpages i mask : Nat} {s : St}

theorem InRange.page (h : InRange start numpages) (hi : i < numpages) :
    pageVa start i = some (start + i * pgsize) ∧ start + i * pgsize < maxva := by
  rcases h with rfl | ⟨hn, hlast⟩
  · exact absurd hi (Nat.not_lt_zero _)
  · have hmul : i * pgsize ≤ (numpages - 1) * pgsize := Nat.mul_le_mul_right _ (by omega)
    have hlt : start + i * pgsize < maxva := by omega
    have hint : i * pgsize < 2 ^ 31 := Nat.lt_of_lt_of_le (Nat.mul_lt_mul_of_pos_right hi (by decide))
      (Nat.mul_le_mul_right pgsize hn)
    have hmax : maxva < 2 ^ 64 := by decide
    unfold pageVa
    rw [if_pos hint, Nat.mod_eq_of_lt (hlt.trans hmax)]
    exact ⟨rfl, hlt⟩

/-- The looked-up addresses are below `MAXVA` only for a range that is. -/
theorem inRange_of_pages (hs : start < 2 ^ 64)
    (h : ∀ i < numpages, ∃ va, pageVa start i = some va ∧ va < maxva) : InRange start numpages := by
  rcases Nat.eq_zero_or_pos numpages with h0 | hpos
  · exact .inl h0
  · obtain ⟨v0, h0, hv0⟩ := h 0 hpos
    obtain ⟨v1, h1, hv1⟩ := h (numpages - 1) (by omega)
    have hmax : maxva + 2 ^ 31 < 2 ^ 64 := by decide
    unfold pageVa at h0 h1
    split at h0
    · split at h1
      · rename_i hint
        cases h0
        cases h1
        have hfew : numpages - 1 < 2 ^ 19 := Nat.lt_of_mul_lt_mul_right (a := pgsize) hint
        have hstart : start < maxva := by
          rwa [Nat.zero_mul, Nat.add_zero, Nat.mod_eq_of_lt hs] at hv0
        rw [Nat.mod_eq_of_lt (by omega)] at hv1
        exact .inr ⟨by omega, hv1⟩
      · cases h1
    · cases h0

/-- The mask and memory after the look at the page at `va`, which is page `i`. -/
def visit (m : Bytes) (pagetable va i mask : Nat) : Nat × Bytes :=
  let a := entry m pagetable va
  if a ≠ 0 ∧ pteA (le64 m a) then (mask ||| 1 <<< (i % 64), put64 m a (clearA (le64 m a))) else (mask, m)

theorem pgaccessFrom_round {va fuel : Nat} (hi : i < numpages) (hva : pageVa start i = some va) (hlt : va < maxva) :
    pgaccessFrom pagetable start numpages (fuel + 1) i mask s =
      pgaccessFrom pagetable start numpages fuel (i + 1) (visit s.mem pagetable va i mask).1
        { s with mem := (visit s.mem pagetable va i mask).2 } := by
  rw [pgaccessFrom, if_pos hi]
  simp only [hva]
  rw [run_bind_ok (walk_lookup hlt pagetable s)]
  unfold visit
  by_cases h0 : entry s.mem pagetable va = 0
  · simp [h0]
  · rw [if_neg h0]
    change (if pteA (le64 s.mem (entry s.mem pagetable va)) then _ else _ : VmM Nat) s = _
    cases hA : pteA (le64 s.mem (entry s.mem pagetable va)) with
    | false => simp [hA]
    | true =>
      simp only [hA, if_true, h0, ne_eq, not_false_eq_true, and_self]
      rfl

/-- The loop ends when the addresses it looks up are below `MAXVA`, and only then. -/
theorem pgaccessFrom_returns_iff {fuel : Nat} (hf : i + fuel = numpages) :
    (∃ mask' s', pgaccessFrom pagetable start numpages fuel i mask s = .ok (mask', s')) ↔
      ∀ k, i ≤ k → k < numpages → ∃ va, pageVa start k = some va ∧ va < maxva := by
  induction fuel generalizing i mask s with
  | zero => exact ⟨fun _ k h1 h2 => absurd h2 (by omega), fun _ => ⟨mask, s, rfl⟩⟩
  | succ fuel ih =>
    have hi : i < numpages := by omega
    have hstop : ∀ e : Stop, pgaccessFrom pagetable start numpages (fuel + 1) i mask s = .error e →
        ¬ ∃ mask' s', pgaccessFrom pagetable start numpages (fuel + 1) i mask s = .ok (mask', s') := by
      rintro e he ⟨mask', s', hok⟩
      rw [he] at hok
      cases hok
    cases hva : pageVa start i with
    | none =>
      refine iff_of_false (hstop .overflow ?_) fun h => ?_
      · rw [pgaccessFrom, if_pos hi]
        simp only [hva]
        rfl
      · obtain ⟨va, hsome, -⟩ := h i (Nat.le_refl _) hi
        rw [hva] at hsome
        cases hsome
    | some va =>
      by_cases hlt : va < maxva
      · rw [pgaccessFrom_round hi hva hlt, ih (by omega)]
        refine ⟨fun h k hk hkn => ?_, fun h k hk => h k (by omega)⟩
        rcases Nat.eq_or_lt_of_le hk with rfl | hlt'
        · exact ⟨va, hva, hlt⟩
        · exact h k hlt' hkn
      · refine iff_of_false (hstop .walk ?_) fun h => ?_
        · rw [pgaccessFrom, if_pos hi]
          simp only [hva]
          exact run_bind_error (walk_panics (Nat.le_of_not_lt hlt) pagetable false s)
        · obtain ⟨va', hsome, hlt'⟩ := h i (Nat.le_refl _) hi
          rw [hva] at hsome
          cases hsome
          exact hlt hlt'

theorem copyout_returns (pagetable dstva : Nat) (src : List UInt8) (s : St) :
    ∃ r s', copyout pagetable dstva src s = .ok (r, s') := by
  have hloop : ∀ fuel dstva src s, ∃ r s', copyoutFrom pagetable fuel dstva src s = .ok (r, s') := by
    intro fuel
    induction fuel with
    | zero =>
      intro dstva src s
      cases src with
      | nil => exact ⟨true, s, rfl⟩
      | cons c l => exact ⟨false, s, rfl⟩
    | succ fuel ih =>
      intro dstva src s
      by_cases hne : src = []
      · subst hne
        exact ⟨true, s, rfl⟩
      · by_cases hw : MayWrite s.mem pagetable dstva
        · rw [copyoutFrom_round hne hw]
          exact ih _ _ _
        · exact ⟨false, s, copyoutFrom_refused hne hw⟩
  exact hloop _ _ _ _

theorem sysPgaccess_returns_iff (hs : start < 2 ^ 64) (maskUser : Nat) :
    (∃ r s', sysPgaccess pagetable start numpages maskUser s = .ok (r, s')) ↔ InRange start numpages := by
  have hloop : (∃ mask s', pgaccessFrom pagetable start numpages numpages 0 0 s = .ok (mask, s')) ↔ _ :=
    pgaccessFrom_returns_iff (Nat.zero_add numpages)
  unfold sysPgaccess
  constructor
  · rintro ⟨r, s', hok⟩
    refine inRange_of_pages hs fun i hi => ?_
    cases hrun : pgaccessFrom pagetable start numpages numpages 0 0 s with
    | error e =>
      rw [run_bind_error hrun] at hok
      cases hok
    | ok p => exact hloop.mp ⟨p.1, p.2, hrun⟩ i (Nat.zero_le _) hi
  · intro h
    obtain ⟨mask, s1, hrun⟩ := hloop.mpr fun i _ hi => ⟨_, h.page hi⟩
    obtain ⟨r, s2, hcopy⟩ := copyout_returns pagetable maskUser (wordBytes mask) s1
    refine ⟨if r then 0 else -1, s2, ?_⟩
    rw [run_bind_ok hrun, run_bind_ok hcopy]
    rfl

theorem sysPgpte_returns_iff (va : Nat) : (∃ r s', sysPgpte pagetable va s = .ok (r, s')) ↔ va < maxva := by
  unfold sysPgpte pgpte
  rcases Nat.lt_or_ge va maxva with h | h
  · refine iff_of_true ?_ h
    rw [run_bind_ok (walk_lookup h pagetable s)]
    split
    · exact ⟨_, s, rfl⟩
    · exact ⟨_, s, rfl⟩
  · refine iff_of_false ?_ (Nat.not_lt.mpr h)
    rintro ⟨r, s', hok⟩
    rw [run_bind_error (walk_panics h pagetable false s)] at hok
    cases hok

/-- The page-table calls return, and look at the pages of the range at their addresses, exactly when the range, or the
    address, is below `MAXVA` and has at most `2 ^ 19` pages. -/
theorem page_table_calls_return_iff (pagetable start numpages maskUser va : Nat) (s : St) (hs : start < 2 ^ 64) :
    (((∃ r s', sysPgaccess pagetable start numpages maskUser s = .ok (r, s')) ∧
        ∀ i < numpages, pageVa start i = some (start + i * pgsize) ∧ start + i * pgsize < maxva) ↔
      InRange start numpages) ∧
    ((∃ r s', sysPgpte pagetable va s = .ok (r, s')) ↔ va < maxva) :=
  ⟨⟨fun h => (sysPgaccess_returns_iff hs maskUser).mp h.1,
    fun h => ⟨(sysPgaccess_returns_iff hs maskUser).mpr h, fun _ hi => h.page hi⟩⟩, sysPgpte_returns_iff va⟩

end

/-- The page of a process that has one. -/
theorem page_table_calls_return_iff_page : ∃ pagetable s, onePage machine = .ok (pagetable, s) ∧ InRange 0 1 ∧
    (∃ r s', sysPgaccess pagetable 0 1 0 s = .ok (r, s')) ∧ ∃ r s', sysPgpte pagetable 0 s = .ok (r, s') := by
  obtain ⟨-, s, A, -, hrun, -⟩ := onePage_runs
  have hin : InRange 0 1 := by decide
  have h := page_table_calls_return_iff (A.tab 2 0) 0 1 0 0 s (by decide)
  exact ⟨_, s, hrun, hin, (h.1.mpr hin).1, h.2.mpr (by decide)⟩

/-- Whatever the page table, one page from `MAXVA` on panics, and so does `pgpte` of it. -/
theorem maxva_panics (pagetable maskUser : Nat) (s : St) : sysPgaccess pagetable maxva 1 maskUser s = .error .walk ∧
    sysPgpte pagetable maxva s = .error .walk := by
  have hva : pageVa maxva 0 = some maxva := by decide
  refine ⟨run_bind_error ?_, run_bind_error (walk_panics (Nat.le_refl _) pagetable false s)⟩
  rw [pgaccessFrom, if_pos Nat.one_pos]
  simp only [hva]
  exact run_bind_error (walk_panics (Nat.le_refl _) pagetable false s)

/-- A process of size 0: its page table, at 0x87fff000, maps the trampoline and the trapframe and nothing else. -/
def empty : Bytes :=
  put64 (put64 (put64 (put64 zero 0x87fff7f8 (pa2pte 0x87ffe000 + 1)) 0x87ffeff8 (pa2pte 0x87ffd000 + 1))
    0x87ffdff8 (pa2pte 0x80007000 + 0xb)) 0x87ffdff0 (pa2pte 0x87ffc000 + 0x7)

/-- The process of size 0 panics the kernel with either call; and the byte distance of page `2 ^ 19` is no `int`. -/
theorem page_table_calls_panic : sysPgaccess 0x87fff000 maxva 1 0 ⟨empty, []⟩ = .error .walk ∧
    sysPgpte 0x87fff000 maxva ⟨empty, []⟩ = .error .walk ∧ pageVa 0 (2 ^ 19) = none :=
  ⟨(maxva_panics _ _ _).1, (maxva_panics _ 0 _).2, rfl⟩

/-! ## What the scan does -/

/-- The page at `va` has a PTE with the accessed bit set. -/
def Accessed (m : Bytes) (pagetable va : Nat) : Prop :=
  entry m pagetable va ≠ 0 ∧ pteA (le64 m (entry m pagetable va)) = true

instance (m : Bytes) (pagetable va : Nat) : Decidable (Accessed m pagetable va) := inferInstanceAs (Decidable (_ ∧ _))

/-- Page `k` is accessed, and no accessed page before it has the same PTE. -/
def First (m : Bytes) (pagetable start k : Nat) : Prop :=
  Accessed m pagetable (start + k * pgsize) ∧
    ∀ j < k, Accessed m pagetable (start + j * pgsize) →
      entry m pagetable (start + j * pgsize) ≠ entry m pagetable (start + k * pgsize)

/-- The PTE at `a` belongs to an accessed page below `i`. -/
def Seen (m : Bytes) (pagetable start i a : Nat) : Prop :=
  ∃ k < i, Accessed m pagetable (start + k * pgsize) ∧ entry m pagetable (start + k * pgsize) = a

/-- After `i` pages: the accessed bits of those pages are cleared, and the mask has the bits of the first ones. -/
structure Scanned (pagetable start : Nat) (s0 : St) (i mask : Nat) (s : St) : Prop where
  freelist : s.freelist = s0.freelist
  cleared : Cleared (Seen s0.mem pagetable start i) s0.mem s.mem
  bits : ∀ b, mask.testBit b = true ↔ ∃ k < i, k % 64 = b ∧ First s0.mem pagetable start k

theorem first_iff {m : Bytes} {pagetable start i : Nat} : First m pagetable start i ↔
    Accessed m pagetable (start + i * pgsize) ∧ ¬ Seen m pagetable start i (entry m pagetable (start + i * pgsize)) := by
  refine and_congr_right fun _ => ⟨?_, ?_⟩
  · rintro h ⟨k, hk, hacc, heq⟩
    exact h k hk hacc heq
  · intro h j hj hacc heq
    exact h ⟨j, hj, hacc, heq⟩

theorem seen_succ {m : Bytes} {pagetable start i a : Nat} : Seen m pagetable start (i + 1) a ↔
    (Accessed m pagetable (start + i * pgsize) ∧ entry m pagetable (start + i * pgsize) = a) ∨
      Seen m pagetable start i a := by
  constructor
  · rintro ⟨k, hk, hacc, heq⟩
    rcases Nat.eq_or_lt_of_le (Nat.le_of_lt_succ hk) with rfl | hlt
    · exact .inl ⟨hacc, heq⟩
    · exact .inr ⟨k, hlt, hacc, heq⟩
  · rintro (⟨hacc, heq⟩ | ⟨k, hk, hrest⟩)
    · exact ⟨i, Nat.lt_succ_self i, hacc, heq⟩
    · exact ⟨k, Nat.lt_succ_of_lt hk, hrest⟩

section

variable {pagetable start numpages i mask : Nat} {s0 s : St} (hp : pagetable % 8 = 0)
include hp

/-- The scan finds the accessed bit of a page set when the page is the first accessed one with its PTE. -/
theorem Scanned.hit_iff (h : Scanned pagetable start s0 i mask s) :
    (entry s0.mem pagetable (start + i * pgsize) ≠ 0 ∧
      pteA (le64 s.mem (entry s0.mem pagetable (start + i * pgsize))) = true) ↔ First s0.mem pagetable start i := by
  rw [first_iff]
  have hword := h.cleared _ (entry_aligned s0.mem hp (start + i * pgsize))
  by_cases hseen : Seen s0.mem pagetable start i (entry s0.mem pagetable (start + i * pgsize))
  · rw [hword.1 hseen, pteA_clearA (le64_lt _ _)]
    simp [hseen]
  · rw [hword.2 hseen]
    simp [hseen, Accessed]

theorem Scanned.visit (h : Scanned pagetable start s0 i mask s) :
    Scanned pagetable start s0 (i + 1) (visit s.mem pagetable (start + i * pgsize) i mask).1
      { s with mem := (visit s.mem pagetable (start + i * pgsize) i mask).2 } := by
  have hal := entry_aligned s0.mem hp (start + i * pgsize)
  have hlast : ∀ Q : Nat → Prop, (∃ k < i + 1, Q k) ↔ Q i ∨ ∃ k < i, Q k := by
    intro Q
    simp only [Nat.lt_succ_iff, Nat.le_iff_lt_or_eq, or_and_right, exists_or, exists_eq_left, or_comm]
  unfold Vm.visit
  dsimp only
  rw [(h.cleared.entry hp (start + i * pgsize)).1]
  by_cases hfirst : First s0.mem pagetable start i
  · rw [if_pos ((h.hit_iff hp).mpr hfirst)]
    refine ⟨h.freelist, (h.cleared.clear hal).congr fun a => ?_, fun b => ?_⟩
    · rw [seen_succ]
      simp only [hfirst.1, true_and, eq_comm]
    · rw [Nat.testBit_or, Nat.one_shiftLeft, Nat.testBit_two_pow, Bool.or_eq_true, h.bits, hlast]
      simp only [decide_eq_true_eq, hfirst, and_true, or_comm]
  · rw [if_neg (mt (h.hit_iff hp).mp hfirst)]
    refine ⟨h.freelist, h.cleared.congr fun a => ?_, fun b => ?_⟩
    · rw [seen_succ]
      refine (or_iff_right_of_imp ?_).symm
      rintro ⟨hacc, rfl⟩
      by_contra hnot
      exact hfirst (first_iff.mpr ⟨hacc, hnot⟩)
    · rw [h.bits, hlast]
      simp only [hfirst, and_false, false_or]

/-- The loop over a range below `MAXVA`. -/
theorem pgaccessFrom_scans (hin : InRange start numpages) {fuel : Nat} (hf : i + fuel = numpages)
    (h : Scanned pagetable start s0 i mask s) :
    ∃ mask' s', pgaccessFrom pagetable start numpages fuel i mask s = .ok (mask', s') ∧
      Scanned pagetable start s0 numpages mask' s' := by
  induction fuel generalizing i mask s with
  | zero =>
    obtain rfl : i = numpages := by omega
    exact ⟨mask, s, rfl, h⟩
  | succ fuel ih =>
    have hi : i < numpages := by omega
    obtain ⟨hva, hlt⟩ := hin.page hi
    rw [pgaccessFrom_round hi hva hlt]
    exact ih (by omega) (h.visit hp)

end

theorem Scanned.start (pagetable start : Nat) (s : St) : Scanned pagetable start s 0 0 s where
  freelist := rfl
  cleared := (Cleared.refl s.mem).congr fun a => by simp [Seen]
  bits b := by simp

/-! ## What the caller learns -/

/-- The mask as the caller reads it. -/
def storedMask (m : Bytes) (pagetable maskUser : Nat) : Nat := le64 (userMem m pagetable) maskUser

/-- What a call that returned `r` did. -/
structure Reported (pagetable start numpages maskUser : Nat) (s : St) (r : Int) (s' : St) : Prop where
  result : r = 0 ↔ ∀ j < 8, MayWrite s.mem pagetable (maskUser + j)
  accessed : ∀ i < numpages, ¬ Accessed s'.mem pagetable (start + i * pgsize)
  mask : r = 0 → ∀ b, (storedMask s'.mem pagetable maskUser).testBit b = true ↔
    ∃ k < numpages, k % 64 = b ∧ First s.mem pagetable start k

section

variable {pagetable start numpages maskUser : Nat} {s s' : St} {r : Int} (hp : pagetable % 8 = 0)
  (hs : start < 2 ^ 64) (ha : Apart pagetable s.mem)
include hp hs ha

/-- A call is a scan of the range, and then a `copyout` of the mask. -/
theorem sysPgaccess_parts (hrun : sysPgaccess pagetable start numpages maskUser s = .ok (r, s')) :
    ∃ mask s1 c, Scanned pagetable start s numpages mask s1 ∧ Copied pagetable maskUser (wordBytes mask) s1 c s' ∧
      r = if c then 0 else -1 := by
  have hin : InRange start numpages := (sysPgaccess_returns_iff hs maskUser).mp ⟨r, s', hrun⟩
  obtain ⟨mask, s1, hscan, h1⟩ := pgaccessFrom_scans hp hin (Nat.zero_add _) (Scanned.start pagetable start s)
  obtain ⟨c, s2, hcopy, h2⟩ := copyout_spec maskUser (wordBytes mask) (h1.cleared.apart hp ha)
  unfold sysPgaccess at hrun
  rw [run_bind_ok hscan, run_bind_ok hcopy] at hrun
  cases hrun
  exact ⟨mask, s1, c, h1, h2, rfl⟩

theorem sysPgaccess_reports (hrun : sysPgaccess pagetable start numpages maskUser s = .ok (r, s')) :
    Reported pagetable start numpages maskUser s r s' := by
  have hin : InRange start numpages := (sysPgaccess_returns_iff hs maskUser).mp ⟨r, s', hrun⟩
  obtain ⟨mask, s1, c, h1, h2, rfl⟩ := sysPgaccess_parts hp hs ha hrun
  have hr : (if c then (0 : Int) else -1) = 0 ↔ c = true := by cases c <;> simp
  have hlen : (wordBytes mask).length = 8 := slice_length _ _ _
  refine ⟨?_, fun i hi => ?_, fun hc b => ?_⟩
  · rw [hr, h2.success, hlen]
    simp only [h1.cleared.mayWrite hp]
  · obtain ⟨-, hlt⟩ := hin.page hi
    have hentry1 := (h1.cleared.entry hp (start + i * pgsize)).1
    have hentry2 := (h2.tables.entry hlt).1
    rintro ⟨h0, hA⟩
    rw [hentry2] at h0 hA
    rw [h2.tables.word hlt h0, hentry1] at hA
    rw [hentry1] at h0
    have hword := h1.cleared _ (entry_aligned s.mem hp (start + i * pgsize))
    by_cases hseen : Seen s.mem pagetable start numpages (entry s.mem pagetable (start + i * pgsize))
    · rw [hword.1 hseen, pteA_clearA (le64_lt _ _)] at hA
      cases hA
    · rw [hword.2 hseen] at hA
      exact hseen ⟨i, hi, ⟨h0, hA⟩, rfl⟩
  · have hbytes := h2.bytes (hr.mp hc) fun i j hij hj => phys_ne hij (by rw [hlen] at hj; unfold pgsize; omega)
    have hstored : storedMask s'.mem pagetable maskUser = mask % 2 ^ 64 := by
      rw [← le64_put64_same zero 0 mask]
      refine le64_congr fun j hj => ?_
      unfold userMem
      rw [h2.tables.phys, hbytes j (by omega)]
      simp [wordBytes, slice]
    rw [hstored, Nat.testBit_mod_two_pow, Bool.and_eq_true, decide_eq_true_eq, h1.bits]
    refine and_iff_right_of_imp ?_
    rintro ⟨k, -, rfl, -⟩
    exact Nat.mod_lt _ (by decide)

/-- No accessed bit is lost: a page that had it set still has it, or the caller was told; and the caller was told of no
    other page. -/
def NoneLost (pagetable start numpages maskUser : Nat) (s : St) (r : Int) (s' : St) : Prop :=
  (∀ i < numpages, Accessed s.mem pagetable (start + i * pgsize) →
    Accessed s'.mem pagetable (start + i * pgsize) ∨ (r = 0 ∧ (storedMask s'.mem pagetable maskUser).testBit i = true)) ∧
  (r = 0 → ∀ i, (storedMask s'.mem pagetable maskUser).testBit i = true →
    i < numpages ∧ Accessed s.mem pagetable (start + i * pgsize))

/-- A call that returns loses nothing exactly when no page of the range is accessed, or the mask can be stored and every
    accessed page is one of the first 64 and does not share its PTE with an earlier one. -/
theorem no_access_lost_iff (hrun : sysPgaccess pagetable start numpages maskUser s = .ok (r, s')) :
    NoneLost pagetable start numpages maskUser s r s' ↔
      (∀ i < numpages, ¬ Accessed s.mem pagetable (start + i * pgsize)) ∨
      ((∀ j < 8, MayWrite s.mem pagetable (maskUser + j)) ∧
        ∀ i < numpages, Accessed s.mem pagetable (start + i * pgsize) → i < 64 ∧ First s.mem pagetable start i) := by
  have h := sysPgaccess_reports hp hs ha hrun
  constructor
  · rintro ⟨hkept, -⟩
    -- every accessed page has lost its bit, so the caller must have been told of each
    have htold : ∀ i < numpages, Accessed s.mem pagetable (start + i * pgsize) →
        r = 0 ∧ ∃ k < numpages, k % 64 = i ∧ First s.mem pagetable start k := by
      intro i hi hacc
      obtain ⟨hr, hbit⟩ := (hkept i hi hacc).resolve_left (h.accessed i hi)
      exact ⟨hr, (h.mask hr i).mp hbit⟩
    have hlow : ∀ i < numpages, Accessed s.mem pagetable (start + i * pgsize) → i < 64 := by
      intro i hi hacc
      obtain ⟨-, k, -, rfl, -⟩ := htold i hi hacc
      exact Nat.mod_lt _ (by decide)
    by_cases hnone : ∀ i < numpages, ¬ Accessed s.mem pagetable (start + i * pgsize)
    · exact .inl hnone
    · simp only [not_forall, not_not] at hnone
      obtain ⟨i0, hi0, hacc0⟩ := hnone
      refine .inr ⟨h.result.mp (htold i0 hi0 hacc0).1, fun i hi hacc => ⟨hlow i hi hacc, ?_⟩⟩
      obtain ⟨-, k, hk, hmod, hfirst⟩ := htold i hi hacc
      rw [Nat.mod_eq_of_lt (hlow k hk hfirst.1)] at hmod
      exact hmod ▸ hfirst
  · rintro (hnone | ⟨hw, hall⟩)
    · refine ⟨fun i hi hacc => absurd hacc (hnone i hi), fun hr i hbit => ?_⟩
      obtain ⟨k, hk, -, hfirst⟩ := (h.mask hr i).mp hbit
      exact absurd hfirst.1 (hnone k hk)
    · have hr := h.result.mpr hw
      refine ⟨fun i hi hacc => .inr ⟨hr, (h.mask hr i).mpr ?_⟩, fun _ i hbit => ?_⟩
      · obtain ⟨hlt, hfirst⟩ := hall i hi hacc
        exact ⟨i, hi, Nat.mod_eq_of_lt hlt, hfirst⟩
      · obtain ⟨k, hk, hmod, hfirst⟩ := (h.mask hr i).mp hbit
        rw [Nat.mod_eq_of_lt (hall k hk hfirst.1).1] at hmod
        exact hmod ▸ ⟨hk, hfirst.1⟩

end

/-- Three page-table pages at 0x1000, 0x2000 and 0x3000: page 0 has flags `f0`, page 1 is writable, page 64 has flags
    `f64`. -/
def demo (f0 f64 : Nat) : Bytes :=
  put64 (put64 (put64 (put64 (put64 zero 0x1000 (pa2pte 0x2000 + 1)) 0x2000 (pa2pte 0x3000 + 1)) 0x3000 (pa2pte 0x4000 + f0))
    0x3008 (pa2pte 0x5000 + 0x17)) 0x3200 (pa2pte 0x6000 + f64)

/-- Page 0 is accessed and nothing is mapped at the mask's address: the bit is gone and the caller gets -1. Page 64 is
    accessed and page 0 is not: the caller is told that page 0 is. -/
theorem access_lost :
    (Accessed (demo 0x57 0x17) 0x1000 0 ∧
      ∃ s', sysPgaccess 0x1000 0 1 0x2000 ⟨demo 0x57 0x17, []⟩ = .ok (-1, s') ∧ ¬ Accessed s'.mem 0x1000 0) ∧
    (¬ Accessed (demo 0x17 0x57) 0x1000 0 ∧ Accessed (demo 0x17 0x57) 0x1000 (64 * pgsize) ∧
      ∃ s', sysPgaccess 0x1000 0 65 0x1000 ⟨demo 0x17 0x57, []⟩ = .ok (0, s') ∧
        ¬ Accessed s'.mem 0x1000 (64 * pgsize) ∧ storedMask s'.mem 0x1000 0x1000 = 1) := by
  have h1 : (match sysPgaccess 0x1000 0 1 0x2000 ⟨demo 0x57 0x17, []⟩ with
      | .ok (r, s') => r == -1 && !decide (Accessed s'.mem 0x1000 0)
      | .error _ => false) = true := by decide +kernel
  have h2 : (match sysPgaccess 0x1000 0 65 0x1000 ⟨demo 0x17 0x57, []⟩ with
      | .ok (r, s') => r == 0 && !decide (Accessed s'.mem 0x1000 (64 * pgsize)) && storedMask s'.mem 0x1000 0x1000 == 1
      | .error _ => false) = true := by decide +kernel
  refine ⟨⟨by decide +kernel, ?_⟩, by decide +kernel, by decide +kernel, ?_⟩
  · split at h1
    · rename_i r s' hrun
      simp only [Bool.and_eq_true, beq_iff_eq, Bool.not_eq_true', decide_eq_false_iff_not] at h1
      exact ⟨s', h1.1 ▸ hrun, h1.2⟩
    · cases h1
  · split at h2
    · rename_i r s' hrun
      simp only [Bool.and_eq_true, beq_iff_eq, Bool.not_eq_true', decide_eq_false_iff_not] at h2
      exact ⟨s', h2.1.1 ▸ hrun, h2.1.2, h2.2⟩
    · cases h2

theorem demo_word (f0 f64 : Nat) {a : Nat} (ha : a % 8 = 0) : le64 (demo f0 f64) a =
    if a = 0x3200 then (pa2pte 0x6000 + f64) % 2 ^ 64 else if a = 0x3008 then pa2pte 0x5000 + 0x17
    else if a = 0x3000 then (pa2pte 0x4000 + f0) % 2 ^ 64 else if a = 0x2000 then pa2pte 0x3000 + 1
    else if a = 0x1000 then pa2pte 0x2000 + 1 else 0 := by
  unfold demo
  rw [le64_put64 _ _ (by decide) ha, le64_put64 _ _ (by decide) ha, le64_put64 _ _ (by decide) ha,
    le64_put64 _ _ (by decide) ha, le64_put64 _ _ (by decide) ha]
  rfl

theorem demo_apart : Apart 0x1000 (demo 0x57 0x17) := by
  have hword : ∀ a, a % 8 = 0 → le64 (demo 0x57 0x17) a = 0 ∨ a ∈ [0x1000, 0x2000, 0x3000, 0x3008, 0x3200] := by
    intro a ha
    rw [demo_word _ _ ha]
    split_ifs <;> simp_all
  have hcheck : ∀ a ∈ [0x1000, 0x2000, 0x3000, 0x3008, 0x3200],
      (pteLeaf (le64 (demo 0x57 0x17) a) = false → pte2pa (le64 (demo 0x57 0x17) a) ∈ [0x1000, 0x2000, 0x3000]) ∧
      (pteU (le64 (demo 0x57 0x17) a) = true → ∀ q ∈ [0x1000, 0x2000, 0x3000],
        q + pgsize ≤ pte2pa (le64 (demo 0x57 0x17) a) ∨ pte2pa (le64 (demo 0x57 0x17) a) + pgsize ≤ q) := by
    decide +kernel
  have hal : ∀ p ∈ [0x1000, 0x2000, 0x3000], ∀ i, (p + 8 * i) % 8 = 0 := by
    intro p hp i
    have hpage : ∀ p ∈ [0x1000, 0x2000, 0x3000], p % 8 = 0 := by decide
    have := hpage p hp
    omega
  have htab : Tables (demo 0x57 0x17) 0x1000 [0x1000, 0x2000, 0x3000] := by
    refine ⟨by decide, fun p hp i _ hv hl => ?_⟩
    rcases hword _ (hal p hp i) with h0 | hmem
    · simp [h0, pteV] at hv
    · exact (hcheck _ hmem).1 hl
  refine htab.apart fun p hp i _ hv hu => ?_
  rcases hword _ (hal p hp i) with h0 | hmem
  · simp [h0, pteV] at hv
  · exact (hcheck _ hmem).2 hu

/-- Page 0 is accessed, and the mask goes to page 1. -/
theorem no_access_lost_iff_demo : Apart 0x1000 (demo 0x57 0x17) ∧ Accessed (demo 0x57 0x17) 0x1000 0 ∧
    ∃ r s', sysPgaccess 0x1000 0 1 0x1000 ⟨demo 0x57 0x17, []⟩ = .ok (r, s') ∧
      NoneLost 0x1000 0 1 0x1000 ⟨demo 0x57 0x17, []⟩ r s' := by
  have hacc : Accessed (demo 0x57 0x17) 0x1000 0 := by decide +kernel
  have hw : ∀ j < 8, MayWrite (demo 0x57 0x17) 0x1000 (0x1000 + j) := by decide +kernel
  obtain ⟨r, s', hrun⟩ : ∃ r s', sysPgaccess 0x1000 0 1 0x1000 ⟨demo 0x57 0x17, []⟩ = .ok (r, s') :=
    (sysPgaccess_returns_iff (by decide) 0x1000).mpr (by decide)
  have hfirst : ∀ i < 1, Accessed (demo 0x57 0x17) 0x1000 (0 + i * pgsize) →
      i < 64 ∧ First (demo 0x57 0x17) 0x1000 0 i := by
    intro i hi hi0
    refine ⟨by omega, hi0, fun j hj => absurd hj ?_⟩
    omega
  refine ⟨demo_apart, hacc, r, s', hrun, ?_⟩
  have hiff := no_access_lost_iff (s := ⟨demo 0x57 0x17, []⟩) (by decide) (by decide) demo_apart hrun
  exact hiff.mpr (.inr ⟨hw, hfirst⟩)

end Xv6.Vm
