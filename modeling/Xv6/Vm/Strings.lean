/-
  Xv6.Vm.Strings — strings from user memory (kernel/vm.c: `copyinstr`; kernel/syscall.c: `fetchstr`,
  `argaddr`, `argstr`; kernel/string.c: `strlen`).

  `copyinstr` has two loops: over the pages and over the bytes of a page, with one count of the bytes
  that may still be stored. A buffer is the list of its bytes, and what `copyinstr` stores is the list
  of the bytes that it stores from the start of the buffer on. `strlen` has no bound of its own:
  `none` is a read past the end of the buffer.

  `copyinstr` stops at the first byte that is NUL or that it may not read. As everywhere, a page at
  physical address 0 counts as none (`copyinstr_misses_page_zero`).

  Proved: `copyinstr_finds_the_string`.
-/

import Xv6.Vm.Permissions

namespace Xv6.Vm

open Xv6.Lib

/-! ## kernel/vm.c -/

/-- The inner loop: at most `n` bytes from `p` on, with room for `max` more after the bytes `acc`. It says whether there
was a NUL, and the room that is left. -/
def copyRun (m : Bytes) : Nat → Nat → Nat → List UInt8 → Bool × Nat × List UInt8
  | _, 0, max, acc => (false, max, acc)
  | p, n + 1, max, acc => if m p = 0 then (true, max, acc ++ [0]) else copyRun m (p + 1) n (max - 1) (acc ++ [m p])

/-- The outer loop. -/
def copyinstrFrom (pagetable : Nat) : Nat → Nat → Nat → List UInt8 → VmM (Bool × List UInt8)
  | _, _, 0, acc => pure (false, acc)
  | 0, _, _ + 1, acc => pure (false, acc)
  | fuel + 1, srcva, max + 1, acc => do
    let va0 := pgrounddown srcva
    let pa0 ← walkaddr pagetable va0
    if pa0 = 0 then pure (false, acc)
    else do
      let n := min (pgsize - (srcva - va0)) (max + 1)
      let s ← get
      let run := copyRun s.mem (pa0 + (srcva - va0)) n (max + 1) acc
      if run.1 then pure (true, run.2.2) else copyinstrFrom pagetable fuel ((va0 + pgsize) % 2 ^ 64) run.2.1 run.2.2

/-- The result, and the bytes that have been stored. -/
def copyinstr (pagetable srcva max : Nat) : VmM (Bool × List UInt8) := copyinstrFrom pagetable max srcva max []

/-! ## kernel/string.c, kernel/syscall.c -/

def strlen : List UInt8 → Option Nat
  | [] => none
  | b :: l => if b = 0 then some 0 else (strlen l).map (· + 1)

/-- The result, and the buffer. -/
def fetchstr (pagetable addr : Nat) (buf : List UInt8) (max : Nat) : VmM (Option Int × List UInt8) := do
  let (ok, l) ← copyinstr pagetable addr max
  let buf := l ++ buf.drop l.length
  if !ok then pure (some (-1), buf) else pure ((strlen buf).map Int.ofNat, buf)

-- the registers a0 to a5 are next to each other in the trapframe
def argraw (trapframe : Nat) (n : Fin 6) : VmM Nat := load (trapframe + trapframeA0 + 8 * n)

def argaddr (trapframe : Nat) (n : Fin 6) : VmM Nat := argraw trapframe n

def argstr (trapframe pagetable : Nat) (n : Fin 6) (buf : List UInt8) (max : Nat) : VmM (Option Int × List UInt8) := do
  let addr ← argaddr trapframe n
  fetchstr pagetable addr buf max

/-! ## The string at an address -/

/-- The `k` bytes at `srcva` and the NUL after them can be read. -/
structure IsString (m : Bytes) (pagetable srcva k : Nat) : Prop where
  nul : userMem m pagetable (srcva + k) = 0
  bytes : ∀ j < k, userMem m pagetable (srcva + j) ≠ 0
  readable : ∀ j ≤ k, Readable m pagetable (srcva + j)

/-- The byte at `va` can be read and is not NUL. -/
def goesOn (m : Bytes) (pagetable va : Nat) : Bool := mayRead m pagetable va && decide (userMem m pagetable va ≠ 0)

section

variable {m : Bytes} {p n k max : Nat} {acc : List UInt8}

theorem slice_cons (m : Bytes) (p n : Nat) : slice m p (n + 1) = m p :: slice m (p + 1) n := by
  rw [Nat.add_comm n 1, ← slice_append m p 1 n]
  rfl

theorem copyRun_nul (hk : k < n) (hbytes : ∀ j < k, m (p + j) ≠ 0) (hnul : m (p + k) = 0) :
    copyRun m p n max acc = (true, max - k, acc ++ slice m p (k + 1)) := by
  induction k generalizing p n max acc with
  | zero =>
    obtain ⟨n, rfl⟩ : ∃ n', n = n' + 1 := ⟨n - 1, by omega⟩
    have h0 : m p = 0 := hnul
    rw [copyRun, if_pos h0, slice_cons, h0]
    rfl
  | succ k ih =>
    obtain ⟨n, rfl⟩ : ∃ n', n = n' + 1 := ⟨n - 1, by omega⟩
    have h0 : m p ≠ 0 := hbytes 0 (Nat.succ_pos k)
    have hshift : ∀ j, p + 1 + j = p + (j + 1) := fun j => by omega
    rw [copyRun, if_neg h0, ih (by omega) (fun j hj => ?_) (by rw [hshift]; exact hnul), slice_cons m p (k + 1),
        List.append_assoc]
    · rw [Nat.sub_sub, Nat.add_comm 1 k]
      rfl
    · rw [hshift]
      exact hbytes (j + 1) (Nat.succ_lt_succ hj)

theorem copyRun_none (hbytes : ∀ j < n, m (p + j) ≠ 0) : copyRun m p n max acc = (false, max - n, acc ++ slice m p n) := by
  induction n generalizing p max acc with
  | zero => simp [copyRun, slice]
  | succ n ih =>
    have h0 : m p ≠ 0 := hbytes 0 (Nat.succ_pos n)
    have hshift : ∀ j, p + 1 + j = p + (j + 1) := fun j => by omega
    rw [copyRun, if_neg h0, ih fun j hj => ?_, slice_cons m p n, List.append_assoc]
    · rw [Nat.sub_sub, Nat.add_comm 1 n]
      rfl
    · rw [hshift]
      exact hbytes (j + 1) (Nat.succ_lt_succ hj)

/-- A prefix that goes on and cannot be longer is what is reached. -/
theorem reach_unique {w : Nat → Bool} {va len : Nat} (hk : k ≤ len) (hgood : ∀ j < k, w (va + j) = true)
    (hstop : k < len → w (va + k) = false) : reach w va len = k := by
  rw [reach_add hk hgood]
  rcases Nat.lt_or_ge k len with hlt | hge
  · rw [reach_refused (hstop hlt), Nat.add_zero]
  · rw [Nat.sub_eq_zero_of_le hge]
    rfl

end

section

variable {pagetable fuel srcva max : Nat} {acc : List UInt8} {s : St}

/-- A round on a page that can be read. -/
theorem copyinstrFrom_round (h0 : userPage s.mem pagetable (pgrounddown srcva) ≠ 0) :
    copyinstrFrom pagetable (fuel + 1) srcva (max + 1) acc s =
      let run := copyRun s.mem (phys s.mem pagetable srcva) (chunk srcva (max + 1)) (max + 1) acc
      if run.1 then .ok ((true, run.2.2), s) else copyinstrFrom pagetable fuel
        (pgrounddown srcva + pgsize) run.2.1 run.2.2 s := by
  have hlow : pgrounddown srcva < maxva := by
    by_contra hge
    rw [userPage, if_pos (Nat.le_of_not_lt hge)] at h0
    exact h0 rfl
  have hnext : (pgrounddown srcva + pgsize) % 2 ^ 64 = pgrounddown srcva + pgsize := by
    unfold maxva at hlow
    unfold pgsize
    omega
  rw [copyinstrFrom]
  dsimp only
  rw [run_bind_ok (walkaddr_eq pagetable (pgrounddown srcva) s), if_neg h0, sub_pgrounddown, hnext]
  change (if (copyRun s.mem (phys s.mem pagetable srcva) (chunk srcva (max + 1)) (max + 1) acc).1 then
    pure (true, (copyRun s.mem (phys s.mem pagetable srcva) (chunk srcva (max + 1)) (max + 1) acc).2.2) else _ :
      VmM (Bool × List UInt8)) s = _
  split
  · rfl
  · rfl

/-- `copyinstr` goes through the bytes that are not NUL up to one that it may not read, and stores the NUL if there is one. -/
theorem copyinstrFrom_loads (hf : max ≤ fuel) :
    let k := reach (goesOn s.mem pagetable) srcva max
    let nul := decide (k < max) && mayRead s.mem pagetable (srcva + k)
    copyinstrFrom pagetable fuel srcva max acc s =
      .ok ((nul, acc ++ slice (userMem s.mem pagetable) srcva (k + nul.toNat)), s) := by
  induction fuel generalizing srcva max acc with
  | zero =>
    obtain rfl : max = 0 := Nat.le_zero.mp hf
    simp [copyinstrFrom, reach, slice]
    rfl
  | succ fuel ih =>
    cases max with
    | zero =>
      simp [copyinstrFrom, reach, slice]
      rfl
    | succ max =>
      dsimp only
      by_cases h0 : userPage s.mem pagetable (pgrounddown srcva) = 0
      · have hread : mayRead s.mem pagetable srcva = false := decide_eq_false (not_not.mpr h0)
        have hstop : goesOn s.mem pagetable srcva = false := by
          rw [goesOn, hread]
          rfl
        rw [copyinstrFrom]
        dsimp only
        rw [run_bind_ok (walkaddr_eq pagetable (pgrounddown srcva) s), if_pos h0, reach_refused hstop, Nat.add_zero srcva, hread,
          Bool.and_false]
        simp [slice]
        rfl
      · rw [copyinstrFrom_round h0]
        have hle := chunk_le srcva (max + 1)
        have hread : ∀ j < chunk srcva (max + 1), mayRead s.mem pagetable (srcva + j) = true := by
          intro j hj
          rw [mayRead, (chunk_page hj).1]
          exact decide_eq_true h0
        have hbyte : ∀ j < chunk srcva (max + 1), s.mem (phys s.mem pagetable srcva + j) = userMem s.mem pagetable
          (srcva + j) := by
          intro j hj
          rw [userMem, chunk_phys hj]
        have hgoes : ∀ j < chunk srcva (max + 1), goesOn s.mem pagetable (srcva + j) = true ↔
          s.mem (phys s.mem pagetable srcva + j) ≠ 0 := by
          intro j hj
          rw [goesOn, hread j hj, hbyte j hj, Bool.true_and, decide_eq_true_eq]
        have hpiece : ∀ c ≤ chunk srcva (max + 1), slice s.mem (phys s.mem pagetable srcva) c = slice
          (userMem s.mem pagetable) srcva c :=
          fun c hc => slice_congr fun j hj => hbyte j (Nat.lt_of_lt_of_le hj hc)
        -- the NUL is in this page, or the page has none
        rcases Nat.lt_or_ge (reach (goesOn s.mem pagetable) srcva (chunk srcva (max + 1))) (chunk srcva (max + 1)) with hin | hge
        · have hstop := reach_stop hin
          have hgood : ∀ j < reach (goesOn s.mem pagetable) srcva (chunk srcva (max + 1)),
          goesOn s.mem pagetable (srcva + j) = true :=
            fun j hj => reach_good hj
          generalize reach (goesOn s.mem pagetable) srcva (chunk srcva (max + 1)) = k at hin hstop hgood
          have hnul : s.mem (phys s.mem pagetable srcva + k) = 0 := by
            by_contra hne
            rw [(hgoes k hin).mpr hne] at hstop
            cases hstop
          have hreach : reach (goesOn s.mem pagetable) srcva (max + 1) = k := reach_unique (by omega) hgood fun _ => hstop
          rw [copyRun_nul hin (fun j hj => (hgoes j (by omega)).mp (hgood j hj)) hnul, hreach, hread k hin,
            decide_eq_true (by omega : k < max + 1), hpiece _ hin]
          rfl
        · have hgood := reach_eq_iff.mp (Nat.le_antisymm reach_le hge)
          have hpos : 0 < chunk srcva (max + 1) := chunk_pos (Nat.succ_pos max) srcva
          rw [copyRun_none fun j hj => (hgoes j hj).mp (hgood j hj), hpiece _ (Nat.le_refl _), reach_add hle.1 hgood]
          dsimp only
          rw [if_neg Bool.false_ne_true, ih (by omega)]
          rcases chunk_rest srcva (max + 1) with hstart | hend
          · rw [hstart, List.append_assoc, slice_append, ← Nat.add_assoc, ← Nat.add_assoc]
            have hcount : ∀ k, (k < max + 1 - chunk srcva (max + 1)) ↔ chunk srcva (max + 1) + k < max + 1 := fun k => by omega
            simp only [hcount]
          · have hmax : chunk srcva (max + 1) = max + 1 := by omega
            simp [reach, slice, hmax]

theorem copyinstr_loads (pagetable srcva max : Nat) (s : St) :
    let k := reach (goesOn s.mem pagetable) srcva max
    let nul := decide (k < max) && mayRead s.mem pagetable (srcva + k)
    copyinstr pagetable srcva max s = .ok ((nul, slice (userMem s.mem pagetable) srcva (k + nul.toNat)), s) :=
  copyinstrFrom_loads (Nat.le_refl _)

end

section

variable {pagetable srcva max k : Nat} {s : St}

/-- Where the bytes that go on end is the only place for a string to end. -/
theorem Backed.isString_iff (hb : Backed s.mem pagetable) (hk : k < max) : IsString s.mem pagetable srcva k ↔
    reach (goesOn s.mem pagetable) srcva max = k ∧ mayRead s.mem pagetable (srcva + k) = true := by
  constructor
  · intro h
    have hread : ∀ j ≤ k, mayRead s.mem pagetable (srcva + j) = true := fun j hj => hb.mayRead_iff.mpr (h.readable j hj)
    refine ⟨reach_unique (Nat.le_of_lt hk) (fun j hj => ?_) fun _ => ?_, hread k (Nat.le_refl k)⟩
    · rw [goesOn, hread j (Nat.le_of_lt hj), Bool.true_and]
      exact decide_eq_true (h.bytes j hj)
    · rw [goesOn, hread k (Nat.le_refl k), Bool.true_and]
      exact decide_eq_false (not_not.mpr h.nul)
  · rintro ⟨hreach, hread⟩
    have hgood : ∀ j < k, mayRead s.mem pagetable (srcva + j) = true ∧ userMem s.mem pagetable (srcva + j) ≠ 0 := by
      intro j hj
      have hgo : goesOn s.mem pagetable (srcva + j) = true := reach_good (hreach.symm ▸ hj)
      rw [goesOn, Bool.and_eq_true, decide_eq_true_eq] at hgo
      exact hgo
    have hstop : goesOn s.mem pagetable (srcva + k) = false := by
      have hlt : reach (goesOn s.mem pagetable) srcva max < max := hreach.symm ▸ hk
      have := reach_stop hlt
      rwa [hreach] at this
    refine ⟨?_, fun j hj => (hgood j hj).2, fun j hj => ?_⟩
    · rw [goesOn, hread, Bool.true_and, decide_eq_false_iff_not] at hstop
      exact not_not.mp hstop
    · rcases Nat.eq_or_lt_of_le hj with rfl | hlt
      · exact hb.mayRead_iff.mp hread
      · exact hb.mayRead_iff.mp (hgood j hlt).1

theorem strlen_append {l rest : List UInt8} (h : ∀ b ∈ l, b ≠ 0) : strlen (l ++ 0 :: rest) = some l.length := by
  induction l with
  | nil => rfl
  | cons b l ih =>
    rw [List.cons_append, strlen, if_neg (h b List.mem_cons_self), ih fun c hc => h c (List.mem_cons_of_mem b hc)]
    rfl

/-- What `copyinstr` found: the string, if there is one of fewer than `max` bytes. -/
structure Found (pagetable srcva max : Nat) (s : St) (r : Bool) (dst : List UInt8) : Prop where
  result : r = true ↔ ∃ k < max, IsString s.mem pagetable srcva k
  string : ∀ k < max, IsString s.mem pagetable srcva k → dst = slice (userMem s.mem pagetable) srcva (k + 1)
  room : dst.length ≤ max

/-- What `fetchstr` and `argstr` return, with the buffer as they leave it. -/
structure Fetched (pagetable addr max : Nat) (s : St) (buf : List UInt8) (v : Int) (buf' : List UInt8) : Prop where
  string : ∀ k < max, IsString s.mem pagetable addr k → v = k ∧ buf'.take (k + 1) = slice (userMem s.mem pagetable) addr (k + 1)
  error : (¬∃ k < max, IsString s.mem pagetable addr k) → v = -1
  rest : buf'.length = buf.length ∧ buf'.drop max = buf.drop max

theorem copyinstr_found (hb : Backed s.mem pagetable) (srcva max : Nat) :
    ∃ r dst, copyinstr pagetable srcva max s = .ok ((r, dst), s) ∧ Found pagetable srcva max s r dst := by
  refine ⟨_, _, copyinstr_loads pagetable srcva max s, ?_, fun k hk hstr => ?_, ?_⟩
  · rw [Bool.and_eq_true, decide_eq_true_eq]
    constructor
    · intro h
      exact ⟨_, h.1, (hb.isString_iff h.1).mpr ⟨rfl, h.2⟩⟩
    · rintro ⟨k, hk, hstr⟩
      obtain ⟨hreach, hread⟩ := (hb.isString_iff hk).mp hstr
      rw [hreach]
      exact ⟨hk, hread⟩
  · obtain ⟨hreach, hread⟩ := (hb.isString_iff hk).mp hstr
    rw [hreach, hread, decide_eq_true hk]
    rfl
  · rw [slice_length]
    have hle : reach (goesOn s.mem pagetable) srcva max ≤ max := reach_le
    by_cases hlt : reach (goesOn s.mem pagetable) srcva max < max
    · exact Nat.le_trans (Nat.add_le_add_left (Bool.toNat_le _) _) hlt
    · rw [decide_eq_false hlt, Bool.false_and]
      exact hle

theorem fetchstr_fetches (hb : Backed s.mem pagetable) (addr : Nat) {buf : List UInt8} (hbuf : max ≤ buf.length) :
    ∃ v buf', fetchstr pagetable addr buf max s = .ok ((some v, buf'), s) ∧ Fetched pagetable addr max s buf v buf' := by
  obtain ⟨r, dst, hrun, hfound⟩ := copyinstr_found hb addr max
  have hlen : (dst ++ buf.drop dst.length).length = buf.length := by
    have := hfound.room
    rw [List.length_append, List.length_drop]
    omega
  have hrest : (dst ++ buf.drop dst.length).drop max = buf.drop max := by
    rw [List.drop_append, List.drop_eq_nil_of_le hfound.room, List.nil_append, List.drop_drop]
    congr 1
    have := hfound.room
    omega
  unfold fetchstr
  rw [run_bind_ok hrun]
  dsimp only
  by_cases hr : r = true
  · obtain ⟨k, hk, hstr⟩ := hfound.result.mp hr
    have hdst := hfound.string k hk hstr
    have hsplit : dst = slice (userMem s.mem pagetable) addr k ++ [0] := by
      rw [hdst, ← slice_append _ _ k 1]
      refine congrArg _ ?_
      rw [slice_cons, hstr.nul]
      rfl
    have hstrlen : strlen (dst ++ buf.drop dst.length) = some k := by
      rw [hsplit, List.append_assoc, List.singleton_append, strlen_append fun b hbmem => ?_, slice_length]
      obtain ⟨j, hj, rfl⟩ := List.mem_map.mp hbmem
      exact hstr.bytes j (List.mem_range.mp hj)
    have hone : ∀ k' < max, IsString s.mem pagetable addr k' → k' = k := by
      intro k' hk' hstr'
      rw [← ((hb.isString_iff hk').mp hstr').1, ← ((hb.isString_iff hk).mp hstr).1]
    rw [hr, hstrlen]
    refine ⟨k, dst ++ buf.drop dst.length, rfl, fun k' hk' hstr' => ?_, fun hnone => absurd ⟨k, hk, hstr⟩ hnone, hlen, hrest⟩
    obtain rfl := hone k' hk' hstr'
    refine ⟨rfl, ?_⟩
    rw [List.take_append_of_le_length (by rw [hdst, slice_length]), hdst]
    exact List.take_of_length_le (Nat.le_of_eq (slice_length _ _ _))
  · rw [Bool.eq_false_iff.mpr hr]
    exact ⟨-1, dst ++ buf.drop dst.length, rfl, fun k hk hstr => absurd (hfound.result.mpr ⟨k, hk, hstr⟩) hr, fun _ => rfl,
      hlen, hrest⟩

/-- `copyinstr` finds the string at `srcva` when it and its NUL fit, `fetchstr` and `argstr` return its length, and their
buffer is neither read nor written past its end. -/
theorem copyinstr_finds_the_string (hb : Backed s.mem pagetable) (srcva max : Nat) :
    (∃ r dst, copyinstr pagetable srcva max s = .ok ((r, dst), s) ∧ Found pagetable srcva max s r dst) ∧
    ∀ buf : List UInt8, max ≤ buf.length →
      (∃ v buf', fetchstr pagetable srcva buf max s = .ok ((some v, buf'), s) ∧ Fetched pagetable srcva max s buf v buf') ∧
      ∀ trapframe n, ∃ v buf', argstr trapframe pagetable n buf max s = .ok ((some v, buf'), s) ∧
        Fetched pagetable (le64 s.mem (trapframe + trapframeA0 + 8 * n)) max s buf v buf' :=
  ⟨copyinstr_found hb srcva max, fun _ hbuf => ⟨fetchstr_fetches hb srcva hbuf, fun _ _ => fetchstr_fetches hb _ hbuf⟩⟩

end

/-- A process with two pages; "abc" is in both of them. -/
def withString : VmM Nat := do
  let pagetable ← newProc (2 * pgsize) pteWBit
  let _ ← copyout pagetable 4094 [97, 98, 99, 0]
  pure pagetable

/-- The address of the string is in register a0. -/
def registers : Bytes := put64 zero (0x87000000 + trapframeA0) 4094

theorem copyinstr_finds_the_string_pages : ∃ pagetable s, withString ⟨registers, machine.freelist⟩ = .ok (pagetable, s) ∧
    copyinstr pagetable 4094 128 s = .ok ((true, [97, 98, 99, 0]), s) ∧ ∀ buf : List UInt8, 128 ≤ buf.length →
      (∃ buf', fetchstr pagetable 4094 buf 128 s = .ok ((some 3, buf'), s) ∧ buf'.take 4 = [97, 98, 99, 0]) ∧
      ∃ buf', argstr 0x87000000 pagetable 0 buf 128 s = .ok ((some 3, buf'), s) ∧ buf'.take 4 = [97, 98, 99, 0] := by
  obtain ⟨P, s, A, h, hrun, -⟩ := newProc_runs registers (show pteRBit ||| pteUBit ||| pteWBit < 1024 by decide)
    (show 0 < npages (2 * pgsize) by decide) (by decide)
  obtain ⟨r, s', hcopy, -, htab⟩ := copyout_writes h.confined.separate h.backed h.distinct 4094 [97, 98, 99, 0]
  have hdone : withString ⟨registers, machine.freelist⟩ = .ok (A.tab 2 0, s') := by
    unfold withString
    rw [run_bind_ok hrun, run_bind_ok hcopy]
    rfl
  have hcheck : (withString ⟨registers, machine.freelist⟩).toOption.map (fun c => (slice (userMem c.2.mem c.1) 4094 4,
      (List.range 4).all fun j => mayRead c.2.mem c.1 (4094 + j), le64 c.2.mem (0x87000000 + trapframeA0))) =
      some ([97, 98, 99, 0], true, 4094) := by decide +kernel
  rw [hdone] at hcheck
  obtain ⟨hbytes, hmore⟩ := Prod.ext_iff.mp (Option.some.inj hcheck)
  obtain ⟨hread, hreg⟩ := Prod.ext_iff.mp hmore
  dsimp only at hbytes hread hreg
  have hb : Backed s'.mem (A.tab 2 0) := htab.backed h.backed
  have hbyte : ∀ j < 4, [97, 98, 99, 0][j]? = some (userMem s'.mem (A.tab 2 0) (4094 + j)) := by
    intro j hj
    rw [← hbytes]
    exact slice_getElem? _ hj
  have hstr : IsString s'.mem (A.tab 2 0) 4094 3 := by
    refine ⟨(Option.some.inj (hbyte 3 (by decide))).symm, fun j hj h0 => ?_, fun j hj => ?_⟩
    · have hnone : ∀ k < 3, [97, 98, 99, (0 : UInt8)][k]? ≠ some 0 := by decide
      exact hnone j hj (h0 ▸ hbyte j (by omega))
    · exact hb.mayRead_iff.mp (List.all_eq_true.mp hread j (List.mem_range.mpr (by omega)))
  obtain ⟨⟨r, dst, hin, hfound⟩, hargs⟩ := copyinstr_finds_the_string hb 4094 128
  refine ⟨_, s', hdone, ?_, fun buf hbuf => ?_⟩
  · rw [hin, hfound.result.mpr ⟨3, by decide, hstr⟩, hfound.string 3 (by decide) hstr, hbytes]
  · obtain ⟨⟨v, buf', hfetch, hv⟩, harg⟩ := hargs buf hbuf
    obtain ⟨v2, buf2, hfetch2, hv2⟩ := harg 0x87000000 0
    have haddr : le64 s'.mem (0x87000000 + trapframeA0 + 8 * (0 : Fin 6)) = 4094 := hreg
    rw [haddr] at hv2
    obtain ⟨rfl, htake⟩ := hv.string 3 (by decide) hstr
    obtain ⟨rfl, htake2⟩ := hv2.string 3 (by decide) hstr
    rw [hbytes] at htake htake2
    exact ⟨⟨buf', hfetch, htake⟩, buf2, hfetch2, htake2⟩

/-- Three tables at 0x1000, 0x2000 and 0x3000; page 0 of the process is the physical page 0. -/
def pageZero : Bytes := put64 (put64 (put64 zero 0x1000 (pa2pte 0x2000 + 1)) 0x2000 (pa2pte 0x3000 + 1)) 0x3000 0x17

/-- An empty string in a page that is mapped for the user, at physical address 0. -/
theorem copyinstr_misses_page_zero : IsString pageZero 0x1000 0 0 ∧
    copyinstr 0x1000 0 1 ⟨pageZero, []⟩ = .ok ((false, []), ⟨pageZero, []⟩) := by
  have hread : Readable pageZero 0x1000 (0 + 0) := by decide +kernel
  refine ⟨⟨by decide +kernel, fun j hj => absurd hj (Nat.not_lt_zero j), fun j hj => ?_⟩, ?_⟩
  · rwa [Nat.le_zero.mp hj]
  · have hstop : goesOn pageZero 0x1000 0 = false := by decide +kernel
    have hblind : mayRead pageZero 0x1000 (0 + 0) = false := by decide +kernel
    have hrun := copyinstr_loads 0x1000 0 1 ⟨pageZero, []⟩
    dsimp only at hrun
    rw [reach_refused hstop, hblind] at hrun
    exact hrun

end Xv6.Vm
