/-
  Xv6.Vm.Copy — copying to user memory (kernel/vm.c: `copyout`).

  `phys` is the byte that a user address stands for: the page that `walkaddr` finds, and the
  offset in it. `userMem` is memory as the process sees it. `copyout` goes page by page, looks
  the page up twice (once for the write permission), and stops at the first page it may not
  write; what it has copied by then stays.

  Its writes must not change the page table it is following: `Apart` says that no page a user
  may write holds a word on the path of a lookup.
-/

import Xv6.Vm.PageTable

namespace Xv6.Vm

open Xv6.Lib

/-- The loop of `copyout`, for the bytes that are left. Each round copies at least one. -/
def copyoutFrom (pagetable : Nat) : Nat → Nat → List UInt8 → VmM Bool
  | _, _, [] => pure true
  | 0, _, _ :: _ => pure false
  | fuel + 1, dstva, src => do
    let va0 := pgrounddown dstva
    if maxva ≤ va0 then pure false
    else do
      let pte ← walk pagetable va0 false
      if pte = 0 then pure false
      else do
        let v ← load pte
        if !pteW v then pure false
        else do
          let pa0 ← walkaddr pagetable va0
          if pa0 = 0 then pure false
          else do
            let n := min (pgsize - (dstva - va0)) src.length
            modify fun s => { s with mem := putBytes s.mem (pa0 + (dstva - va0)) (src.take n) }
            copyoutFrom pagetable fuel ((va0 + pgsize) % 2 ^ 64) (src.drop n)

/-- `true` for the source's 0, `false` for -1. -/
def copyout (pagetable dstva : Nat) (src : List UInt8) : VmM Bool := copyoutFrom pagetable src.length dstva src

/-! ## User memory -/

/-- The byte of memory that user address `va` stands for. -/
def phys (m : Bytes) (pagetable va : Nat) : Nat := userPage m pagetable (pgrounddown va) + va % pgsize

/-- Memory as the process sees it. -/
def userMem (m : Bytes) (pagetable : Nat) : Bytes := fun va => m (phys m pagetable va)

/-- `copyout` accepts the page of `va`. -/
def MayWrite (m : Bytes) (pagetable va : Nat) : Prop :=
  pgrounddown va < maxva ∧ entry m pagetable (pgrounddown va) ≠ 0 ∧
    pteW (le64 m (entry m pagetable (pgrounddown va))) ∧ userPage m pagetable (pgrounddown va) ≠ 0

instance (m : Bytes) (pagetable va : Nat) : Decidable (MayWrite m pagetable va) :=
  inferInstanceAs (Decidable (_ ∧ _ ∧ _ ∧ _))

/-- Every word on the path of a lookup is the same. -/
def SameTables (pagetable : Nat) (m m' : Bytes) : Prop :=
  ∀ va < maxva, ∀ a ∈ path m pagetable va, le64 m' a = le64 m a

/-- No page that a user may write holds a word on the path of a lookup. -/
def Apart (pagetable : Nat) (m : Bytes) : Prop :=
  ∀ va, MayWrite m pagetable va → ∀ va' < maxva, ∀ a ∈ path m pagetable va',
    a + 8 ≤ userPage m pagetable (pgrounddown va) ∨ userPage m pagetable (pgrounddown va) + pgsize ≤ a

variable {j : Nat}

section

variable {pagetable : Nat} {m m' : Bytes} {va : Nat}

section

variable (h : SameTables pagetable m m')

include h

theorem SameTables.entry (hva : va < maxva) :
    entry m' pagetable va = entry m pagetable va ∧ path m' pagetable va = path m pagetable va :=
  entry_congr fun a ha => by rw [h va hva a ha]; exact ⟨rfl, rfl, rfl⟩

theorem SameTables.word (hva : va < maxva) (h0 : Vm.entry m pagetable va ≠ 0) :
    le64 m' (Vm.entry m pagetable va) = le64 m (Vm.entry m pagetable va) := h va hva _ (entry_mem_path h0)

theorem SameTables.userPage (va : Nat) : userPage m' pagetable va = userPage m pagetable va := by
  unfold Vm.userPage
  split
  · rfl
  · rename_i hva
    have hlt := Nat.lt_of_not_le hva
    dsimp only
    rw [(h.entry hlt).1]
    by_cases h0 : Vm.entry m pagetable va = 0
    · simp [h0]
    · rw [h.word hlt h0]

theorem SameTables.phys (va : Nat) : phys m' pagetable va = phys m pagetable va := by
  unfold Vm.phys
  rw [h.userPage]

theorem SameTables.mayWrite (va : Nat) : MayWrite m' pagetable va ↔ MayWrite m pagetable va := by
  unfold MayWrite
  refine and_congr_right fun hva => ?_
  rw [(h.entry hva).1, h.userPage]
  refine and_congr_right fun h0 => ?_
  rw [h.word hva h0]

theorem SameTables.apart (ha : Apart pagetable m) : Apart pagetable m' := by
  intro va hw va' hva' a hmem
  rw [h.userPage]
  exact ha va ((h.mayWrite va).mp hw) va' hva' a ((h.entry hva').2 ▸ hmem)

end

theorem pgrounddown_add_mod (va : Nat) : pgrounddown va + va % pgsize = va := by
  unfold pgrounddown
  rw [Nat.mul_comm]
  exact Nat.div_add_mod va pgsize

theorem sub_pgrounddown (va : Nat) : va - pgrounddown va = va % pgsize := by
  have := pgrounddown_add_mod va
  omega

theorem userPage_page (m : Bytes) (pagetable va : Nat) : Vm.userPage m pagetable va % pgsize = 0 := by
  unfold Vm.userPage
  split
  · rfl
  · dsimp only
    split
    · exact pte2pa_page _
    · rfl

/-- Addresses less than a page apart stand for different bytes. -/
theorem phys_ne {i : Nat} (hij : i < j) (hj : j < i + pgsize) :
    Vm.phys m pagetable (va + i) ≠ Vm.phys m pagetable (va + j) := by
  have h1 := userPage_page m pagetable (pgrounddown (va + i))
  have h2 := userPage_page m pagetable (pgrounddown (va + j))
  unfold Vm.phys pgsize at *
  omega

end

section

variable {P : Nat → Prop} {m0 m : Bytes} {pagetable : Nat} (h : Cleared P m0 m) (hp : pagetable % 8 = 0)
include h hp

theorem Cleared.phys (va : Nat) : phys m pagetable va = phys m0 pagetable va := by
  unfold Vm.phys
  rw [h.userPage hp]

theorem Cleared.mayWrite (va : Nat) : MayWrite m pagetable va ↔ MayWrite m0 pagetable va := by
  unfold MayWrite
  rw [(h.entry hp _).1, h.userPage hp, h.same (entry_aligned m0 hp _) fun _ => pteW_clearA]

theorem Cleared.apart (ha : Apart pagetable m0) : Apart pagetable m := by
  intro va hw va' hva' a hmem
  rw [h.userPage hp]
  exact ha va ((h.mayWrite hp va).mp hw) va' hva' a ((h.entry hp va').2 ▸ hmem)

end

variable {m : Bytes}

/-- User pages that lie outside the page-table pages. -/
theorem Tables.apart {pagetable : Nat} {T : List Nat} (h : Tables m pagetable T)
    (hsep : ∀ p ∈ T, ∀ i < 512, pteV (le64 m (p + 8 * i)) = true → pteU (le64 m (p + 8 * i)) = true →
      ∀ q ∈ T, q + pgsize ≤ pte2pa (le64 m (p + 8 * i)) ∨ pte2pa (le64 m (p + 8 * i)) + pgsize ≤ q) :
    Apart pagetable m := by
  intro va hw va' _ a ha
  obtain ⟨-, h0, -, hpage⟩ := hw
  obtain ⟨q, hq, j, hj, rfl⟩ := h.path a ha
  obtain ⟨p, hp, i, hi, heq⟩ := h.path _ (entry_mem_path h0)
  unfold userPage at hpage ⊢
  split at hpage
  · exact absurd rfl hpage
  · rename_i hva
    rw [if_neg hva]
    dsimp only at hpage ⊢
    split at hpage
    · rename_i hc
      rw [if_pos hc, heq]
      rw [heq] at hc
      have := hsep p hp i hi hc.2.1 hc.2.2 q hq
      unfold pgsize at *
      omega
    · exact absurd rfl hpage

section

variable {pagetable fuel dstva len : Nat} {src : List UInt8} {s : St}

/-- How many bytes the next round copies. -/
def chunk (dstva len : Nat) : Nat := min (pgsize - dstva % pgsize) len

/-- The bytes of one round are in one page. -/
theorem chunk_page (hj : j < chunk dstva len) :
    pgrounddown (dstva + j) = pgrounddown dstva ∧ (dstva + j) % pgsize = dstva % pgsize + j := by
  have hlt : dstva % pgsize + j < pgsize := by
    unfold chunk at hj
    omega
  have hmod : (dstva + j) % pgsize = dstva % pgsize + j := by
    rw [Nat.add_mod, Nat.mod_eq_of_lt (by omega : j < pgsize), Nat.mod_eq_of_lt hlt]
  have h1 := pgrounddown_add_mod dstva
  have h2 := pgrounddown_add_mod (dstva + j)
  exact ⟨by omega, hmod⟩

theorem mayWrite_congr {va va' : Nat} (h : pgrounddown va = pgrounddown va') :
    MayWrite m pagetable va ↔ MayWrite m pagetable va' := by
  unfold MayWrite
  rw [h]

/-- A round that is refused. -/
theorem copyoutFrom_refused (hne : src ≠ []) (h : ¬ MayWrite s.mem pagetable dstva) :
    copyoutFrom pagetable (fuel + 1) dstva src s = .ok (false, s) := by
  rw [copyoutFrom.eq_3 _ _ _ _ hne]
  dsimp only
  split
  · rfl
  · rename_i hva
    rw [run_bind_ok (walk_lookup (Nat.lt_of_not_le hva) pagetable s)]
    split
    · rfl
    · rename_i h0
      change (if !pteW (le64 s.mem (entry s.mem pagetable (pgrounddown dstva))) then _ else _ : VmM Bool) s = _
      split
      · rfl
      · rename_i hw
        rw [run_bind_ok (walkaddr_eq pagetable (pgrounddown dstva) s)]
        split
        · rfl
        · rename_i hp
          exact absurd ⟨Nat.lt_of_not_le hva, h0, by simpa using hw, hp⟩ h

/-- A round that copies. -/
theorem copyoutFrom_round (hne : src ≠ []) (h : MayWrite s.mem pagetable dstva) :
    copyoutFrom pagetable (fuel + 1) dstva src s =
      copyoutFrom pagetable fuel (pgrounddown dstva + pgsize) (src.drop (chunk dstva src.length))
        { s with mem := putBytes s.mem (phys s.mem pagetable dstva) (src.take (chunk dstva src.length)) } := by
  obtain ⟨hva, h0, hw, hp⟩ := h
  have hnext : (pgrounddown dstva + pgsize) % 2 ^ 64 = pgrounddown dstva + pgsize := by
    unfold maxva at hva
    unfold pgsize
    omega
  rw [copyoutFrom.eq_3 _ _ _ _ hne]
  dsimp only
  rw [if_neg (Nat.not_le.mpr hva), run_bind_ok (walk_lookup hva pagetable s), if_neg h0]
  change (if !pteW (le64 s.mem (entry s.mem pagetable (pgrounddown dstva))) then _ else _ : VmM Bool) s = _
  rw [if_neg (by simp [hw]), run_bind_ok (walkaddr_eq pagetable (pgrounddown dstva) s), if_neg hp, hnext,
    sub_pgrounddown]
  rfl

theorem chunk_pos (h : 0 < len) (dstva : Nat) : 0 < chunk dstva len := by
  have : dstva % pgsize < pgsize := Nat.mod_lt _ (by decide)
  unfold chunk
  omega

theorem chunk_le (dstva len : Nat) : chunk dstva len ≤ len ∧ dstva % pgsize + chunk dstva len ≤ pgsize := by
  have : dstva % pgsize < pgsize := Nat.mod_lt _ (by decide)
  unfold chunk
  omega

theorem chunk_phys (hj : j < chunk dstva len) :
    phys m pagetable (dstva + j) = phys m pagetable dstva + j := by
  unfold phys
  rw [(chunk_page hj).1, (chunk_page hj).2, Nat.add_assoc]

end

end Xv6.Vm
