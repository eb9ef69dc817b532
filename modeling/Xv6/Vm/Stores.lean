/-
  Xv6.Vm.Stores — what a copy to or from user memory leaves behind when it fails
  (kernel/vm.c: `copyout`, `copyin`).

  Both copy page by page and stop at the first page they may not use. `reach` is how many bytes
  they get through; those are stored whether or not the rest follows. `spread` stores bytes at
  the places that user addresses stand for.

  Proved: `copyout_stores`, `copyin_loads`, and `copyout_spec`: `copyout` writes only to the bytes
  of the range, leaves every lookup alone, and on success every byte has its value.
-/

import Xv6.Lib.Update
import Xv6.Vm.Copy

namespace Xv6.Vm

open Xv6.Lib

/-! ## Prefixes -/

/-- How many of the `len` addresses from `va` on come before the first that `w` refuses. -/
def reach (w : Nat → Bool) (va : Nat) : Nat → Nat
  | 0 => 0
  | len + 1 => if w va then reach w (va + 1) len + 1 else 0

section

variable {w : Nat → Bool} {va len c : Nat}

theorem reach_le : reach w va len ≤ len := by
  induction len generalizing va with
  | zero => exact Nat.le_refl _
  | succ len ih =>
    rw [reach]
    split
    · exact Nat.succ_le_succ ih
    · exact Nat.zero_le _

theorem reach_good {j : Nat} (hj : j < reach w va len) : w (va + j) = true := by
  induction len generalizing va j with
  | zero => cases hj
  | succ len ih =>
    rw [reach] at hj
    split at hj
    next hw =>
      cases j with
      | zero => exact hw
      | succ j =>
        rw [← Nat.add_assoc, Nat.add_right_comm]
        exact ih (Nat.lt_of_succ_lt_succ hj)
    next => cases hj

theorem reach_stop (h : reach w va len < len) : w (va + reach w va len) = false := by
  induction len generalizing va with
  | zero => cases h
  | succ len ih =>
    rw [reach] at h ⊢
    split at h
    next hw =>
      rw [if_pos hw, ← Nat.add_assoc, Nat.add_right_comm]
      exact ih (Nat.lt_of_succ_lt_succ h)
    next hw =>
      rw [if_neg hw]
      exact Bool.not_eq_true _ ▸ hw

theorem reach_eq_iff : reach w va len = len ↔ ∀ j < len, w (va + j) = true := by
  constructor
  · intro h j hj
    exact reach_good (h.symm ▸ hj)
  · intro h
    by_contra hne
    have hlt : reach w va len < len := Nat.lt_of_le_of_ne reach_le hne
    have hstop := reach_stop hlt
    rw [h _ hlt] at hstop
    cases hstop

/-- After `c` addresses that are not refused. -/
theorem reach_add (hc : c ≤ len) (h : ∀ j < c, w (va + j) = true) : reach w va len = c + reach w (va + c) (len - c) := by
  induction c generalizing va len with
  | zero => simp
  | succ c ih =>
    cases len with
    | zero => cases hc
    | succ len =>
      have h0 : w va = true := h 0 (Nat.succ_pos c)
      rw [reach, if_pos h0, ih (Nat.le_of_succ_le_succ hc) fun j hj => ?_]
      · rw [Nat.succ_sub_succ, Nat.add_assoc va 1 c, Nat.add_comm 1 c, Nat.add_right_comm]
      · rw [Nat.add_assoc, Nat.add_comm 1 j]
        exact h (j + 1) (Nat.succ_lt_succ hj)

theorem reach_refused (h : w va = false) : reach w va len = 0 := by
  cases len with
  | zero => rfl
  | succ len => rw [reach, if_neg (by simp [h])]

end

/-- The bytes `l` stored at the places of the addresses from `va` on. -/
def spread (f : Nat → Nat) : Nat → List UInt8 → Bytes → Bytes
  | _, [], m => m
  | va, b :: l, m => spread f (va + 1) l (update m (f va) b)

section

variable {f : Nat → Nat} {va : Nat} {l l' : List UInt8} {m : Bytes}

theorem spread_append : spread f va (l ++ l') m = spread f (va + l.length) l' (spread f va l m) := by
  induction l generalizing va m with
  | nil => rfl
  | cons b l ih =>
    simp only [List.cons_append, spread, ih, List.length_cons]
    rw [show va + 1 + l.length = va + (l.length + 1) by omega]

theorem spread_outside {a : Nat} (h : ∀ j < l.length, a ≠ f (va + j)) : spread f va l m a = m a := by
  induction l generalizing va m with
  | nil => rfl
  | cons b l ih =>
    have h0 : a ≠ f va := h 0 (Nat.succ_pos _)
    rw [spread, ih fun j hj => ?_, update_of_ne h0]
    rw [show va + 1 + j = va + (j + 1) by omega]
    exact h (j + 1) (Nat.succ_lt_succ hj)

theorem spread_inside (hinj : ∀ i j, i < j → j < l.length → f (va + i) ≠ f (va + j)) {j : Nat} (hj : j < l.length) :
    spread f va l m (f (va + j)) = l[j] := by
  induction l generalizing va m j with
  | nil => cases hj
  | cons b l ih =>
    have hshift : ∀ k, va + 1 + k = va + (k + 1) := fun k => by omega
    rw [spread]
    cases j with
    | zero =>
      rw [spread_outside fun k hk => ?_]
      · exact update_self _ _ _
      · rw [hshift]
        exact hinj 0 (k + 1) (Nat.succ_pos k) (Nat.succ_lt_succ hk)
    | succ j =>
      rw [← hshift j, ih (fun i k hik hk => ?_) (Nat.lt_of_succ_lt_succ hj)]
      · rfl
      · rw [hshift, hshift]
        exact hinj (i + 1) (k + 1) (Nat.succ_lt_succ hik) (Nat.succ_lt_succ hk)

/-- Places in a row. -/
theorem spread_row (h : ∀ j < l.length, f (va + j) = f va + j) : spread f va l m = putBytes m (f va) l := by
  induction l generalizing va m with
  | nil => exact (putBytes_nil m (f va)).symm
  | cons b l ih =>
    rw [spread]
    rcases Nat.eq_zero_or_pos l.length with h0 | hpos
    · obtain rfl := List.length_eq_zero_iff.mp h0
      funext i
      by_cases hi : i = f va
      · simp [spread, putBytes, hi, update_self]
      · simp only [spread, update_of_ne hi, putBytes]
        split
        · rw [List.getElem?_eq_none (by simp; omega), Option.getD_none]
        · rfl
    · have hnext : f (va + 1) = f va + 1 := h 1 (Nat.succ_lt_succ hpos)
      rw [ih fun j hj => ?_]
      · have hone : update m (f va) b = putBytes m (f va) [b] := by
          funext i
          by_cases hi : i = f va
          · simp [putBytes, hi, update_self]
          · simp only [update_of_ne hi, putBytes]
            split
            · rw [List.getElem?_eq_none (by simp; omega), Option.getD_none]
            · rfl
        rw [hone, hnext]
        exact putBytes_append m (f va) [b] l
      · rw [hnext, show va + 1 + j = va + (j + 1) by omega, h (j + 1) (Nat.succ_lt_succ hj)]
        omega

end

/-! ## copyout -/

/-- After a round the copy is at the next page, or at its end. -/
theorem chunk_rest (va len : Nat) : pgrounddown va + pgsize = va + chunk va len ∨ len ≤ chunk va len := by
  have h1 := pgrounddown_add_mod va
  have h2 : va % pgsize < pgsize := Nat.mod_lt _ (by decide)
  unfold chunk
  omega

/-- `copyout` may write to `va`. -/
def mayWrite (m : Bytes) (pagetable va : Nat) : Bool := decide (MayWrite m pagetable va)

/-- What `copyout` of `src` to `dstva` does: no lookup and no byte outside the range changes, it succeeds when every byte
    may be written, and then the bytes are there, if no two of them are one byte of memory. -/
structure Copied (pagetable dstva : Nat) (src : List UInt8) (s : St) (r : Bool) (s' : St) : Prop where
  tables : SameTables pagetable s.mem s'.mem
  freelist : s'.freelist = s.freelist
  frame : ∀ a, (∀ j < src.length, MayWrite s.mem pagetable (dstva + j) → a ≠ phys s.mem pagetable (dstva + j)) →
    s'.mem a = s.mem a
  success : r = true ↔ ∀ j < src.length, MayWrite s.mem pagetable (dstva + j)
  bytes : r = true →
    (∀ i j, i < j → j < src.length → phys s.mem pagetable (dstva + i) ≠ phys s.mem pagetable (dstva + j)) →
    ∀ j, (h : j < src.length) → s'.mem (phys s.mem pagetable (dstva + j)) = src.get ⟨j, h⟩

section

variable {pagetable fuel dstva : Nat} {src : List UInt8} {s : St}

/-- Bytes stored where a user may write leave every lookup alone. -/
theorem Apart.spread {m : Bytes} {l : List UInt8} (ha : Apart pagetable m)
    (hw : ∀ j < l.length, MayWrite m pagetable (dstva + j)) :
    SameTables pagetable m (spread (phys m pagetable) dstva l m) := by
  intro va hva a hmem
  refine le64_congr fun i hi => spread_outside fun j hj => ?_
  have hsep := ha _ (hw j hj) va hva a hmem
  have hlt : (dstva + j) % pgsize < pgsize := Nat.mod_lt _ (by decide)
  unfold phys
  omega

theorem copyoutFrom_stores (hf : src.length ≤ fuel) (ha : Apart pagetable s.mem) :
    let k := reach (mayWrite s.mem pagetable) dstva src.length
    copyoutFrom pagetable fuel dstva src s =
      .ok (decide (k = src.length), { s with mem := spread (phys s.mem pagetable) dstva (src.take k) s.mem }) := by
  induction fuel generalizing dstva src s with
  | zero =>
    obtain rfl : src = [] := List.length_eq_zero_iff.mp (Nat.le_zero.mp hf)
    rfl
  | succ fuel ih =>
    by_cases hne : src = []
    · subst hne
      rfl
    have hlen : 0 < src.length := List.length_pos_iff.mpr hne
    dsimp only
    by_cases hw : MayWrite s.mem pagetable dstva
    · rw [copyoutFrom_round hne hw]
      generalize hm1 : putBytes s.mem (phys s.mem pagetable dstva) (src.take (chunk dstva src.length)) = m1
      have hle := chunk_le dstva src.length
      have htake : (src.take (chunk dstva src.length)).length = chunk dstva src.length := List.length_take_of_le hle.1
      have hpage : ∀ j < chunk dstva src.length, MayWrite s.mem pagetable (dstva + j) := fun j hj =>
        (mayWrite_congr (chunk_page hj).1).mpr hw
      have hfirst : spread (phys s.mem pagetable) dstva (src.take (chunk dstva src.length)) s.mem = m1 := by
        rw [← hm1]
        refine spread_row fun j hj => ?_
        rw [htake] at hj
        exact chunk_phys hj
      have htab : SameTables pagetable s.mem m1 := hfirst ▸ ha.spread fun j hj => hpage j (htake ▸ hj)
      have hw1 : mayWrite m1 pagetable = mayWrite s.mem pagetable := by
        funext va
        exact decide_eq_decide.mpr (htab.mayWrite va)
      have hphys : phys m1 pagetable = phys s.mem pagetable := funext htab.phys
      have hreach : reach (mayWrite s.mem pagetable) dstva src.length = _ := reach_add hle.1 fun j hj => decide_eq_true
        (hpage j hj)
      have hshort : (src.drop (chunk dstva src.length)).length ≤ fuel := by
        have := chunk_pos hlen dstva
        rw [List.length_drop]
        omega
      have hrest := @ih (pgrounddown dstva + pgsize) _ { s with mem := m1 } hshort (htab.apart ha)
      dsimp only at hrest
      rw [hw1, hphys, List.length_drop] at hrest
      rw [hrest, hreach, List.take_add, spread_append, hfirst, htake]
      rcases chunk_rest dstva src.length with hnext | hend
      · rw [hnext]
        refine congrArg Except.ok (Prod.ext ?_ rfl)
        exact decide_eq_decide.mpr ⟨fun h => by omega, fun h => by omega⟩
      · rw [Nat.sub_eq_zero_of_le hend, List.drop_eq_nil_of_le hend, List.take_nil, List.take_nil]
        refine congrArg Except.ok (Prod.ext ?_ rfl)
        change decide (0 = 0) = decide (chunk dstva src.length + 0 = src.length)
        exact decide_eq_decide.mpr ⟨fun _ => by omega, fun _ => rfl⟩
    · rw [copyoutFrom_refused hne hw]
      have h0 : reach (mayWrite s.mem pagetable) dstva src.length = 0 := reach_refused (decide_eq_false hw)
      rw [h0]
      refine congrArg Except.ok (Prod.ext ?_ rfl)
      exact (decide_eq_false (by omega)).symm

/-- `copyout` stores the bytes before the first page that it may not write. -/
theorem copyout_stores (dstva : Nat) (src : List UInt8) (ha : Apart pagetable s.mem) :
    let k := reach (mayWrite s.mem pagetable) dstva src.length
    copyout pagetable dstva src s =
      .ok (decide (k = src.length), { s with mem := spread (phys s.mem pagetable) dstva (src.take k) s.mem }) :=
  copyoutFrom_stores (Nat.le_refl _) ha

theorem copyout_spec (dstva : Nat) (src : List UInt8) (ha : Apart pagetable s.mem) :
    ∃ r s', copyout pagetable dstva src s = .ok (r, s') ∧ Copied pagetable dstva src s r s' := by
  have hgood : ∀ j < reach (mayWrite s.mem pagetable) dstva src.length, MayWrite s.mem pagetable (dstva + j) :=
    fun j hj => of_decide_eq_true (reach_good hj)
  have hlen : (src.take (reach (mayWrite s.mem pagetable) dstva src.length)).length = _ := List.length_take_of_le reach_le
  refine ⟨_, _, copyout_stores dstva src ha, ha.spread fun j hj => hgood j (hlen ▸ hj), rfl, fun a hne => ?_, ?_,
    fun hr hinj j hj => ?_⟩
  · refine spread_outside fun j hj => ?_
    rw [hlen] at hj
    exact hne j (Nat.lt_of_lt_of_le hj reach_le) (hgood j hj)
  · rw [decide_eq_true_eq, reach_eq_iff]
    simp only [mayWrite, decide_eq_true_eq]
  · dsimp only
    rw [of_decide_eq_true hr, List.take_length]
    exact spread_inside hinj hj

end

/-! ## copyin -/

/-- The loop of `copyin` for the `len` bytes that are left, after the bytes `acc`. -/
def copyinFrom (pagetable : Nat) : Nat → Nat → Nat → List UInt8 → VmM (Bool × List UInt8)
  | _, _, 0, acc => pure (true, acc)
  | 0, _, _ + 1, acc => pure (false, acc)
  | fuel + 1, srcva, len + 1, acc => do
    let va0 := pgrounddown srcva
    let pa0 ← walkaddr pagetable va0
    if pa0 = 0 then pure (false, acc)
    else do
      let n := min (pgsize - (srcva - va0)) (len + 1)
      let s ← get
      copyinFrom pagetable fuel ((va0 + pgsize) % 2 ^ 64) (len + 1 - n) (acc ++ slice s.mem (pa0 + (srcva - va0)) n)

/-- The result, and the bytes that have reached the destination. -/
def copyin (pagetable srcva len : Nat) : VmM (Bool × List UInt8) := copyinFrom pagetable len srcva len []

/-- `copyin` may read from `va`. -/
def mayRead (m : Bytes) (pagetable va : Nat) : Bool := decide (userPage m pagetable (pgrounddown va) ≠ 0)

section

variable {pagetable fuel srcva len : Nat} {acc : List UInt8} {s : St}

theorem copyinFrom_loads (hf : len ≤ fuel) :
    let k := reach (mayRead s.mem pagetable) srcva len
    copyinFrom pagetable fuel srcva len acc s =
      .ok ((decide (k = len), acc ++ slice (userMem s.mem pagetable) srcva k), s) := by
  induction fuel generalizing srcva len acc with
  | zero =>
    obtain rfl : len = 0 := Nat.le_zero.mp hf
    simp [copyinFrom, reach, slice]
    rfl
  | succ fuel ih =>
    cases len with
    | zero =>
      simp [copyinFrom, reach, slice]
      rfl
    | succ len =>
      rw [copyinFrom]
      dsimp only
      rw [run_bind_ok (walkaddr_eq pagetable (pgrounddown srcva) s)]
      by_cases h0 : userPage s.mem pagetable (pgrounddown srcva) = 0
      · rw [if_pos h0, reach_refused (decide_eq_false (not_not.mpr h0))]
        simp [slice]
        rfl
      · rw [if_neg h0, sub_pgrounddown]
        change copyinFrom pagetable fuel ((pgrounddown srcva + pgsize) % 2 ^ 64) (len + 1 - chunk srcva (len + 1))
          (acc ++ slice s.mem (phys s.mem pagetable srcva) (chunk srcva (len + 1))) s = _
        have hlow : pgrounddown srcva < maxva := by
          by_contra hge
          rw [userPage, if_pos (Nat.le_of_not_lt hge)] at h0
          exact h0 rfl
        have hnext : (pgrounddown srcva + pgsize) % 2 ^ 64 = pgrounddown srcva + pgsize := by
          unfold maxva at hlow
          unfold pgsize
          omega
        have hle := chunk_le srcva (len + 1)
        have hpos : 0 < chunk srcva (len + 1) := chunk_pos (Nat.succ_pos len) srcva
        have hreach : reach (mayRead s.mem pagetable) srcva (len + 1) = _ := reach_add hle.1 fun j hj => by
          rw [mayRead, (chunk_page hj).1]
          exact decide_eq_true h0
        have hpiece : slice s.mem (phys s.mem pagetable srcva) (chunk srcva (len + 1)) =
            slice (userMem s.mem pagetable) srcva (chunk srcva (len + 1)) := by
          unfold slice
          refine List.map_congr_left fun j hj => ?_
          rw [userMem, chunk_phys (List.mem_range.mp hj)]
        rw [hnext, ih (by omega), hreach, hpiece, List.append_assoc]
        rcases chunk_rest srcva (len + 1) with hstart | hend
        · rw [hstart, slice_append]
          refine congrArg Except.ok (Prod.ext (Prod.ext ?_ rfl) rfl)
          exact decide_eq_decide.mpr ⟨fun h => by omega, fun h => by omega⟩
        · rw [Nat.sub_eq_zero_of_le hend]
          refine congrArg Except.ok (Prod.ext (Prod.ext ?_ ?_) rfl)
          · change decide (0 = 0) = decide (chunk srcva (len + 1) + 0 = len + 1)
            exact decide_eq_decide.mpr ⟨fun _ => by omega, fun _ => rfl⟩
          · simp [reach, slice]

/-- `copyin` delivers the bytes before the first page that it may not read, and changes nothing. -/
theorem copyin_loads (pagetable srcva len : Nat) (s : St) :
    let k := reach (mayRead s.mem pagetable) srcva len
    copyin pagetable srcva len s = .ok ((decide (k = len), slice (userMem s.mem pagetable) srcva k), s) :=
  copyinFrom_loads (Nat.le_refl _)

end

end Xv6.Vm
