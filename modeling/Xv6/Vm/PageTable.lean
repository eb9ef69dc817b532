/-
  Xv6.Vm.PageTable — Sv39 page tables (kernel/riscv.h, kernel/vm.c: `walk`, `walkaddr`,
  `pgpte`; kernel/kalloc.c: `kalloc`).

  Memory is a map from addresses to bytes, as the kernel sees it through its direct map; a
  page-table page is 512 little-endian words of it. Addresses and PTEs are 64-bit values. A
  null pointer is 0. The free list is the list of the pages it links.

  `entry` is where `walk` ends for an address when it does not allocate, and is a function of
  the words on its `path` alone (`entry_congr`). It does not look at the accessed bit:
  `Cleared` relates a memory to one in which that bit has been cleared in some words, and
  `entry` is the same in both.
-/

import Xv6.Lib.Bytes
import Xv6.Lib.Wp
import Mathlib.Data.Nat.Bitwise

namespace Xv6.Vm

open Xv6.Lib

/-! ## kernel/riscv.h -/

def pgsize : Nat := 4096

def maxva : Nat := 2 ^ (9 + 9 + 9 + 12 - 1)

def pteV (pte : Nat) : Bool := pte.testBit 0

def pteW (pte : Nat) : Bool := pte.testBit 2

def pteU (pte : Nat) : Bool := pte.testBit 4

def pteA (pte : Nat) : Bool := pte.testBit 6

/-- `PTE_LEAF(pte)`: one of R, W and X. -/
def pteLeaf (pte : Nat) : Bool := pte.testBit 1 || pte.testBit 2 || pte.testBit 3

/-- `pte & ~PTE_A`. -/
def clearA (pte : Nat) : Nat := pte &&& (2 ^ 64 - 1 - 2 ^ 6)

def pa2pte (pa : Nat) : Nat := pa / 2 ^ 12 * 2 ^ 10 % 2 ^ 64

def pte2pa (pte : Nat) : Nat := pte / 2 ^ 10 * 2 ^ 12 % 2 ^ 64

def px (level va : Nat) : Nat := va / 2 ^ (12 + 9 * level) % 512

def pgrounddown (a : Nat) : Nat := a / pgsize * pgsize

theorem px_lt (level va : Nat) : px level va < 512 := Nat.mod_lt _ (by decide)

theorem pte2pa_page (pte : Nat) : pte2pa pte % pgsize = 0 := by
  unfold pte2pa pgsize
  omega

section

variable {pte : Nat} {j : Nat}

/-- `pte & ~(1L << k)`. -/
theorem testBit_clear {k : Nat} (hk : k < 64) (h : pte < 2 ^ 64) :
    (pte &&& (2 ^ 64 - 1 - 2 ^ k)).testBit j = (pte.testBit j && decide (j ≠ k)) := by
  have hpow : 2 ^ k < 2 ^ 64 := Nat.pow_lt_pow_right (by decide) hk
  rw [Nat.testBit_and, Nat.sub_sub, Nat.add_comm 1, Nat.testBit_two_pow_sub_succ hpow]
  by_cases hj : j < 64
  · rw [Nat.testBit_two_pow]
    simp [hj, eq_comm]
  · have hhigh : pte.testBit j = false :=
      Nat.testBit_lt_two_pow (Nat.lt_of_lt_of_le h (Nat.pow_le_pow_right (by decide) (Nat.le_of_not_lt hj)))
    simp [hhigh]

/-- A flag is no part of the address. -/
theorem pte2pa_clear {k : Nat} (hk : k < 10) (h : pte < 2 ^ 64) : pte2pa (pte &&& (2 ^ 64 - 1 - 2 ^ k)) = pte2pa pte := by
  have hdiv : (pte &&& (2 ^ 64 - 1 - 2 ^ k)) / 2 ^ 10 = pte / 2 ^ 10 := by
    refine Nat.eq_of_testBit_eq fun j => ?_
    rw [Nat.testBit_div_two_pow, Nat.testBit_div_two_pow, testBit_clear (by omega) h]
    simp only [ne_eq, show ¬ j + 10 = k by omega, not_false_eq_true, decide_true, Bool.and_true]
  unfold pte2pa
  rw [hdiv]

theorem clearA_testBit (h : pte < 2 ^ 64) : (clearA pte).testBit j = (pte.testBit j && decide (j ≠ 6)) :=
  testBit_clear (by decide) h

theorem clearA_lt (pte : Nat) : clearA pte < 2 ^ 64 := Nat.lt_of_le_of_lt Nat.and_le_right (by decide)

section

variable (h : pte < 2 ^ 64)
include h

theorem pteV_clearA : pteV (clearA pte) = pteV pte := by simp [pteV, clearA_testBit h]

theorem pteW_clearA : pteW (clearA pte) = pteW pte := by simp [pteW, clearA_testBit h]

theorem pteU_clearA : pteU (clearA pte) = pteU pte := by simp [pteU, clearA_testBit h]

theorem pteA_clearA : pteA (clearA pte) = false := by simp [pteA, clearA_testBit h]

theorem pteLeaf_clearA : pteLeaf (clearA pte) = pteLeaf pte := by
  simp [pteLeaf, clearA_testBit h]

theorem pte2pa_clearA : pte2pa (clearA pte) = pte2pa pte := pte2pa_clear (by decide) h

end

end

/-! ## Memory -/

/-- What the kernel stops with: a panic, an `int` that overflows, which C leaves undefined, or a recursion
that is deeper than three page-table levels. -/
inductive Stop
  | walk
  | overflow
  | kfree
  | mapVa
  | mapSize
  | mapNone
  | remap
  | unmapVa
  | unmapWalk
  | unmapInvalid
  | unmapTable
  | freewalk
  | depth
  | copyWalk
  | copyAbsent
  | clear
  | loadseg
  deriving DecidableEq

structure St where
  mem : Bytes
  freelist : List Nat

abbrev VmM := StateT St (Except Stop)

def load (a : Nat) : VmM Nat := do
  let s ← get
  pure (le64 s.mem a)

def store (a v : Nat) : VmM Unit := modify fun s => { s with mem := put64 s.mem a v }

/-- `memset(a, v, PGSIZE)`. -/
def memsetPage (a : Nat) (v : UInt8) : VmM Unit :=
  modify fun s => { s with mem := fun b => if a ≤ b ∧ b < a + pgsize then v else s.mem b }

def kalloc : VmM Nat := do
  let s ← get
  match s.freelist with
  | [] => pure 0
  | r :: rest => do
    set { s with freelist := rest }
    memsetPage r 5
    pure r

/-! ## walk -/

/-- `&pagetable[PX(level, va)]`. -/
def slotAt (pagetable level va : Nat) : Nat := pagetable + 8 * px level va

/-- The loop of `walk` at `level`. -/
def walkFrom (va : Nat) (alloc : Bool) : Nat → Nat → VmM Nat
  | 0, pagetable => pure (slotAt pagetable 0 va)
  | level + 1, pagetable => do
    let a := slotAt pagetable (level + 1) va
    let pte ← load a
    if pteV pte then
      if pteLeaf pte then pure a else walkFrom va alloc level (pte2pa pte)
    else if !alloc then pure 0
    else do
      let page ← kalloc
      if page = 0 then pure 0
      else do
        memsetPage page 0
        store a (pa2pte page ||| 1)
        walkFrom va alloc level page

def walk (pagetable va : Nat) (alloc : Bool) : VmM Nat :=
  if maxva ≤ va then throw .walk else walkFrom va alloc 2 pagetable

def walkaddr (pagetable va : Nat) : VmM Nat :=
  if maxva ≤ va then pure 0
  else do
    let pte ← walk pagetable va false
    if pte = 0 then pure 0
    else do
      let v ← load pte
      if !pteV v then pure 0 else if !pteU v then pure 0 else pure (pte2pa v)

def pgpte (pagetable va : Nat) : VmM Nat := walk pagetable va false

/-! ## Where a lookup ends -/

/-- Where the loop of `walk` ends without allocating. -/
def entryFrom (m : Bytes) (va : Nat) : Nat → Nat → Nat
  | 0, pagetable => slotAt pagetable 0 va
  | level + 1, pagetable =>
    let a := slotAt pagetable (level + 1) va
    if pteV (le64 m a) then if pteLeaf (le64 m a) then a else entryFrom m va level (pte2pa (le64 m a)) else 0

/-- The address of the PTE for `va`, or 0. -/
def entry (m : Bytes) (pagetable va : Nat) : Nat := entryFrom m va 2 pagetable

/-- The words that the loop of `walk` looks at, and the one it ends in. -/
def pathFrom (m : Bytes) (va : Nat) : Nat → Nat → List Nat
  | 0, pagetable => [slotAt pagetable 0 va]
  | level + 1, pagetable =>
    let a := slotAt pagetable (level + 1) va
    a :: if pteV (le64 m a) ∧ ¬ pteLeaf (le64 m a) then pathFrom m va level (pte2pa (le64 m a)) else []

def path (m : Bytes) (pagetable va : Nat) : List Nat := pathFrom m va 2 pagetable

/-- The page that `walkaddr` finds for `va`, or 0. -/
def userPage (m : Bytes) (pagetable va : Nat) : Nat :=
  if maxva ≤ va then 0
  else
    let a := entry m pagetable va
    if a ≠ 0 ∧ pteV (le64 m a) ∧ pteU (le64 m a) then pte2pa (le64 m a) else 0

theorem walkFrom_lookup (va : Nat) (s : St) (level : Nat) :
    ∀ pagetable, walkFrom va false level pagetable s = .ok (entryFrom s.mem va level pagetable, s) := by
  induction level with
  | zero => intro pagetable; rfl
  | succ level ih =>
    intro pagetable
    rw [walkFrom, entryFrom]
    change (if pteV (le64 s.mem (slotAt pagetable (level + 1) va)) then _ else _ : VmM Nat) s = _
    split
    · split
      · rfl
      · exact ih _
    · rfl

variable {va pagetable : Nat} {m m' : Bytes}

/-- `walk` without allocation panics or finds `entry`, and changes nothing. -/
theorem walk_lookup (h : va < maxva) (pagetable : Nat) (s : St) :
    walk pagetable va false s = .ok (entry s.mem pagetable va, s) := by
  unfold walk
  rw [if_neg (Nat.not_le.mpr h)]
  exact walkFrom_lookup va s 2 pagetable

theorem walk_panics (h : maxva ≤ va) (pagetable : Nat) (alloc : Bool) (s : St) :
    walk pagetable va alloc s = .error .walk := by
  unfold walk
  rw [if_pos h]
  rfl

theorem walkaddr_eq (pagetable va : Nat) (s : St) :
    walkaddr pagetable va s = .ok (userPage s.mem pagetable va, s) := by
  unfold walkaddr userPage
  split
  · rfl
  · rename_i hva
    rw [run_bind_ok (walk_lookup (Nat.lt_of_not_le hva) pagetable s)]
    dsimp only
    by_cases h0 : entry s.mem pagetable va = 0
    · simp [h0]
      rfl
    · rw [if_neg h0]
      change (if !pteV (le64 s.mem (entry s.mem pagetable va)) then _ else if !pteU (le64 s.mem (entry s.mem pagetable va))
        then _ else _ : VmM Nat) s = _
      cases hv : pteV (le64 s.mem (entry s.mem pagetable va)) with
      | false => simp; rfl
      | true =>
        cases hu : pteU (le64 s.mem (entry s.mem pagetable va)) with
        | false => simp; rfl
        | true => simp [h0]; rfl

/-! ## What a lookup depends on -/

theorem entryFrom_mem_path (m : Bytes) (va level : Nat) :
    ∀ pagetable, entryFrom m va level pagetable ≠ 0 → entryFrom m va level pagetable ∈ pathFrom m va level pagetable := by
  induction level with
  | zero => intro pagetable _; simp [entryFrom, pathFrom]
  | succ level ih =>
    intro pagetable h0
    rw [entryFrom, pathFrom] at *
    cases hv : pteV (le64 m (slotAt pagetable (level + 1) va)) with
    | false => simp [hv] at h0
    | true =>
      cases hl : pteLeaf (le64 m (slotAt pagetable (level + 1) va)) with
      | true => simp
      | false =>
        simp only [hv, hl, if_true, Bool.false_eq_true, if_false] at h0 ⊢
        exact List.mem_cons_of_mem _ (by simpa using ih _ h0)

theorem entry_mem_path (h : entry m pagetable va ≠ 0) :
    entry m pagetable va ∈ path m pagetable va := entryFrom_mem_path m va 2 pagetable h

/-- Where a lookup ends depends on the flags and addresses in the words of its path. -/
theorem entryFrom_congr (level : Nat) : ∀ pagetable,
    (∀ a ∈ pathFrom m va level pagetable, pteV (le64 m' a) = pteV (le64 m a) ∧ pteLeaf (le64 m' a) = pteLeaf (le64 m a) ∧
      pte2pa (le64 m' a) = pte2pa (le64 m a)) →
    entryFrom m' va level pagetable = entryFrom m va level pagetable ∧
      pathFrom m' va level pagetable = pathFrom m va level pagetable := by
  induction level with
  | zero => intro pagetable _; exact ⟨rfl, rfl⟩
  | succ level ih =>
    intro pagetable h
    have h0 := h (slotAt pagetable (level + 1) va) (by simp [pathFrom])
    obtain ⟨hv, hl, hp⟩ := h0
    simp only [entryFrom, pathFrom, hv, hl, hp] at h ⊢
    by_cases hc : pteV (le64 m (slotAt pagetable (level + 1) va)) ∧ ¬ pteLeaf (le64 m (slotAt pagetable (level + 1) va))
    · have hrec := ih _ fun a ha => h a (List.mem_cons_of_mem _ (by rwa [if_pos hc]))
      simp [hc, hrec]
    · by_cases hv1 : pteV (le64 m (slotAt pagetable (level + 1) va)) = true
      · have hl1 : pteLeaf (le64 m (slotAt pagetable (level + 1) va)) = true := by simpa [hv1] using hc
        simp [hv1, hl1]
      · simp [hv1]

theorem entry_congr
    (h : ∀ a ∈ path m pagetable va, pteV (le64 m' a) = pteV (le64 m a) ∧ pteLeaf (le64 m' a) = pteLeaf (le64 m a) ∧
      pte2pa (le64 m' a) = pte2pa (le64 m a)) :
    entry m' pagetable va = entry m pagetable va ∧ path m' pagetable va = path m pagetable va :=
  entryFrom_congr 2 pagetable h

/-- `T` holds the page-table page `pagetable` and every page that a PTE in a page of `T` leads to. -/
structure Tables (m : Bytes) (pagetable : Nat) (T : List Nat) : Prop where
  root : pagetable ∈ T
  closed : ∀ p ∈ T, ∀ i < 512, pteV (le64 m (p + 8 * i)) = true → pteLeaf (le64 m (p + 8 * i)) = false →
    pte2pa (le64 m (p + 8 * i)) ∈ T

/-- Lookups stay in the page-table pages. -/
theorem Tables.path {T : List Nat} (h : Tables m pagetable T) :
    ∀ a ∈ path m pagetable va, ∃ p ∈ T, ∃ i < 512, a = p + 8 * i := by
  have hloop : ∀ level p, p ∈ T → ∀ a ∈ pathFrom m va level p, ∃ q ∈ T, ∃ i < 512, a = q + 8 * i := by
    intro level
    induction level with
    | zero =>
      intro p hp a ha
      rw [pathFrom, List.mem_singleton] at ha
      exact ⟨p, hp, px 0 va, px_lt _ _, ha⟩
    | succ level ih =>
      intro p hp a ha
      rcases List.mem_cons.mp ha with rfl | ha
      · exact ⟨p, hp, px (level + 1) va, px_lt _ _, rfl⟩
      · split at ha
        · rename_i hc
          exact ih _ (h.closed p hp _ (px_lt (level + 1) va) hc.1 (Bool.not_eq_true _ ▸ hc.2)) a ha
        · simp at ha
  exact hloop 2 pagetable h.root

/-! ## The accessed bit -/

/-- `m` is `m0` with the accessed bit cleared in the words of `P`. -/
def Cleared (P : Nat → Prop) (m0 m : Bytes) : Prop :=
  ∀ a, a % 8 = 0 → (P a → le64 m a = clearA (le64 m0 a)) ∧ (¬ P a → le64 m a = le64 m0 a)

section

variable {P : Nat → Prop} {m0 m : Bytes} {a : Nat}

theorem Cleared.refl (m : Bytes) : Cleared (fun _ => False) m m := fun _ _ => ⟨False.elim, fun _ => rfl⟩

theorem Cleared.congr {Q : Nat → Prop} (h : Cleared P m0 m) (hPQ : ∀ a, P a ↔ Q a) : Cleared Q m0 m := by
  intro a ha
  rw [← hPQ a]
  exact h a ha

/-- A cleared word, or the word itself. -/
theorem Cleared.cases (h : Cleared P m0 m) (ha : a % 8 = 0) :
    le64 m a = clearA (le64 m0 a) ∨ le64 m a = le64 m0 a := by
  by_cases hP : P a
  · exact .inl ((h a ha).1 hP)
  · exact .inr ((h a ha).2 hP)

/-- What does not look at the accessed bit is the same in both. -/
theorem Cleared.same {β : Type} (h : Cleared P m0 m) (ha : a % 8 = 0) {f : Nat → β}
    (hf : ∀ pte < 2 ^ 64, f (clearA pte) = f pte) : f (le64 m a) = f (le64 m0 a) := by
  rcases h.cases ha with he | he
  · rw [he, hf _ (le64_lt _ _)]
  · rw [he]

theorem slotAt_aligned (hp : pagetable % 8 = 0) (level va : Nat) : slotAt pagetable level va % 8 = 0 := by
  unfold slotAt
  omega

theorem pte2pa_aligned (pte : Nat) : pte2pa pte % 8 = 0 := by
  have := pte2pa_page pte
  unfold pgsize at this
  omega

theorem pathFrom_aligned (m : Bytes) (va level : Nat) :
    ∀ pagetable, pagetable % 8 = 0 → ∀ a ∈ pathFrom m va level pagetable, a % 8 = 0 := by
  induction level with
  | zero =>
    intro pagetable hp a ha
    rw [pathFrom, List.mem_singleton] at ha
    exact ha ▸ slotAt_aligned hp 0 va
  | succ level ih =>
    intro pagetable hp a ha
    rcases List.mem_cons.mp ha with rfl | ha
    · exact slotAt_aligned hp _ va
    · split at ha
      · exact ih _ (pte2pa_aligned _) a ha
      · simp at ha

theorem path_aligned (m : Bytes) (hp : pagetable % 8 = 0) (va : Nat) :
    ∀ a ∈ path m pagetable va, a % 8 = 0 := pathFrom_aligned m va 2 pagetable hp

theorem entry_aligned (m : Bytes) (hp : pagetable % 8 = 0) (va : Nat) : entry m pagetable va % 8 = 0 := by
  by_cases h0 : entry m pagetable va = 0
  · rw [h0]
  · exact path_aligned m hp va _ (entry_mem_path h0)

/-- A lookup ends in the same place. -/
theorem Cleared.entry (h : Cleared P m0 m) (hp : pagetable % 8 = 0) (va : Nat) :
    entry m pagetable va = entry m0 pagetable va ∧ path m pagetable va = path m0 pagetable va := by
  refine entry_congr fun a ha => ?_
  have ha := path_aligned m0 hp va a ha
  exact ⟨h.same ha fun _ => pteV_clearA, h.same ha fun _ => pteLeaf_clearA, h.same ha fun _ => pte2pa_clearA⟩

theorem Cleared.userPage (h : Cleared P m0 m) (hp : pagetable % 8 = 0) (va : Nat) :
    userPage m pagetable va = userPage m0 pagetable va := by
  have ha := entry_aligned m0 hp va
  unfold Vm.userPage
  dsimp only
  rw [(h.entry hp va).1, h.same ha fun _ => pteV_clearA, h.same ha fun _ => pteU_clearA, h.same ha fun _ => pte2pa_clearA]

/-- Clearing one more word. -/
theorem Cleared.clear (h : Cleared P m0 m) (ha : a % 8 = 0) :
    Cleared (fun b => b = a ∨ P b) m0 (put64 m a (clearA (le64 m a))) := by
  intro b hb
  rw [le64_put64 _ _ ha hb]
  by_cases hba : b = a
  · subst hba
    refine ⟨fun _ => ?_, fun hn => absurd (.inl rfl) hn⟩
    rw [if_pos rfl, Nat.mod_eq_of_lt (clearA_lt _)]
    rcases h.cases hb with he | he
    · rw [he, clearA, clearA, Nat.and_assoc, Nat.and_self]
    · rw [he]
  · rw [if_neg hba]
    exact ⟨fun hP => (h b hb).1 (hP.resolve_left hba), fun hn => (h b hb).2 fun hP => hn (.inr hP)⟩

end

end Xv6.Vm
