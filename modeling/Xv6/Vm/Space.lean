/-
  Xv6.Vm.Space — the tree that a page table is, apart from memory.

  Page `v` of an address space is reached through one table of each level: the table of level `l`
  on the way to it has the key `v / 512 ^ (l + 1)`. A `Space` says which tables there are, in which
  pages they lie, and what the PTE of each page is; its fields say that a table hangs from one of
  the level above and that no two tables share a page. `Stored` relates it to memory, and a lookup
  in memory then finds `pte` (`Stored.entry`, `Stored.pteAt`).

  The tree grows by one table (`Space.grow`), and one PTE changes (`Space.setPte`).
-/

import Xv6.Lib.Update
import Xv6.Vm.Uvm

namespace Xv6.Vm

open Xv6.Lib

/-! ## Pages -/

/-- What `kfree` accepts. -/
def IsPage (p : Nat) : Prop := p % pgsize = 0 ∧ kernelEnd ≤ p ∧ p < physTop

instance (p : Nat) : Decidable (IsPage p) := inferInstanceAs (Decidable (_ ∧ _ ∧ _))

variable {p : Nat}

theorem IsPage.pos (h : IsPage p) : p ≠ 0 := by
  have := h.2.1
  unfold kernelEnd at this
  omega

variable {o : Nat}

theorem pgrounddown_page (hp : p % pgsize = 0) (ho : o < pgsize) : pgrounddown (p + o) = p := by
  unfold pgrounddown pgsize at *
  omega

/-- Memory is the same outside the pages `P`. -/
def Frame (P : Set Nat) (m m' : Bytes) : Prop := ∀ a, pgrounddown a ∉ P → m' a = m a

variable {i : Nat}

section

variable {P Q : Set Nat} {m m' m1 : Bytes} {p : Nat}

theorem Frame.refl (P : Set Nat) (m : Bytes) : Frame P m m := fun _ _ => rfl

theorem Frame.mono (h : Frame P m m') (hPQ : P ⊆ Q) : Frame Q m m' := fun a ha => h a fun hp => ha (hPQ hp)

theorem Frame.trans (h : Frame P m m1) (h' : Frame P m1 m') : Frame P m m' := fun a ha => (h' a ha).trans (h a ha)

theorem Frame.byte (h : Frame P m m') (hp : p ∉ P) (hpage : p % pgsize = 0) (ho : o < pgsize) :
    m' (p + o) = m (p + o) := h _ (by rwa [pgrounddown_page hpage ho])

theorem Frame.word (h : Frame P m m') (hp : p ∉ P) (hpage : p % pgsize = 0) (hi : i < 512) :
    le64 m' (p + 8 * i) = le64 m (p + 8 * i) := by
  refine le64_congr fun j hj => ?_
  rw [Nat.add_assoc]
  exact h.byte hp hpage (by unfold pgsize; omega)

/-- `memset(p, v, PGSIZE)`. -/
def fill (m : Bytes) (p : Nat) (v : UInt8) : Bytes := fun b => if p ≤ b ∧ b < p + pgsize then v else m b

theorem fill_inside (m : Bytes) (p : Nat) (v : UInt8) (ho : o < pgsize) : fill m p v (p + o) = v :=
  if_pos ⟨Nat.le_add_right p o, Nat.add_lt_add_left ho p⟩

theorem fill_frame (m : Bytes) (hp : p % pgsize = 0) (v : UInt8) : Frame {p} m (fill m p v) := by
  intro a ha
  refine if_neg fun h => ha ?_
  have hpos : 0 < pgsize := by decide
  obtain ⟨o, rfl⟩ := Nat.exists_eq_add_of_le h.1
  exact pgrounddown_page hp (by omega)

theorem le64_fill (m : Bytes) (p : Nat) (hi : i < 512) : le64 (fill m p 0) (p + 8 * i) = 0 := by
  rw [← le64_zero 0]
  refine le64_congr fun j hj => ?_
  rw [Nat.add_assoc, fill_inside _ _ _ (by unfold pgsize; omega)]
  rfl

theorem put64_frame (m : Bytes) (hp : p % pgsize = 0) (hi : i < 512) (v : Nat) : Frame {p} m (put64 m (p + 8 * i) v) := by
  intro a ha
  refine put64_outside _ _ ?_
  by_contra hin
  obtain ⟨o, rfl⟩ := Nat.exists_eq_add_of_le (show p ≤ a by omega)
  exact ha (pgrounddown_page hp (by unfold pgsize; omega))

end

/-! ## PTEs -/

/-- The PTE that leads to the table in page `p`; 0 when there is none. -/
def link (p : Nat) : Nat := if p = 0 then 0 else pa2pte p ||| 1

/-- A PTE that maps page `pa`. -/
def mkPte (pa flags : Nat) : Nat := pa2pte pa ||| flags ||| 1

section

variable {p flags j : Nat}

theorem mkPte_eq (hp : p % pgsize = 0) (hlt : p < 2 ^ 54) (hf : flags < 1024) : mkPte p flags = p / 4 + (flags ||| 1) := by
  unfold pgsize at hp
  have hor : flags ||| 1 < 2 ^ 10 := Nat.or_lt_two_pow hf (by decide)
  have hpte : pa2pte p = 2 ^ 10 * (p / 2 ^ 12) := by
    unfold pa2pte
    omega
  unfold mkPte
  rw [Nat.or_assoc, hpte, ← Nat.two_pow_add_eq_or_of_lt hor]
  omega

theorem IsPage.lt (h : IsPage p) : p < 2 ^ 54 := Nat.lt_trans h.2.2 (by decide)

section

variable (hp : p % pgsize = 0) (hlt : p < 2 ^ 54) (hf : flags < 1024)
include hp hlt hf

theorem pte2pa_mkPte : pte2pa (mkPte p flags) = p := by
  have hor : flags ||| 1 < 2 ^ 10 := Nat.or_lt_two_pow hf (by decide)
  rw [mkPte_eq hp hlt hf]
  unfold pte2pa
  unfold pgsize at hp
  omega

theorem pteFlags_mkPte : pteFlags (mkPte p flags) = flags ||| 1 := by
  have hor : flags ||| 1 < 2 ^ 10 := Nat.or_lt_two_pow hf (by decide)
  rw [mkPte_eq hp hlt hf]
  unfold pteFlags
  unfold pgsize at hp
  omega

theorem mkPte_lt : mkPte p flags < 2 ^ 64 := by
  have hor : flags ||| 1 < 2 ^ 10 := Nat.or_lt_two_pow hf (by decide)
  rw [mkPte_eq hp hlt hf]
  omega

end

/-- The flags of a PTE are its low bits. -/
theorem testBit_pteFlags (pte : Nat) (hj : j < 10) : (pteFlags pte).testBit j = pte.testBit j := by
  unfold pteFlags
  rw [show 1024 = 2 ^ 10 from rfl, Nat.testBit_mod_two_pow, decide_eq_true hj, Bool.true_and]

theorem testBit_mkPte (hp : p % pgsize = 0) (hlt : p < 2 ^ 54) (hf : flags < 1024) (hj : j < 10) :
    (mkPte p flags).testBit j = (flags ||| 1).testBit j := by
  rw [← testBit_pteFlags _ hj, pteFlags_mkPte hp hlt hf]

theorem pteV_mkPte (hp : p % pgsize = 0) (hlt : p < 2 ^ 54) (hf : flags < 1024) : pteV (mkPte p flags) = true := by
  rw [pteV, testBit_mkPte hp hlt hf (by decide), Nat.testBit_or]
  simp

theorem link_zero : link 0 = 0 := rfl

theorem link_of_ne (h : p ≠ 0) : link p = pa2pte p ||| 1 := if_neg h

theorem link_page (h : p ≠ 0) : link p = mkPte p 0 := by
  rw [link_of_ne h, mkPte, Nat.or_zero]

/-- What `walk` does with a PTE that leads to a table. -/
theorem IsPage.link (h : IsPage p) : pteV (Vm.link p) = true ∧ pteLeaf (Vm.link p) = false ∧ pte2pa (Vm.link p) = p := by
  have hbit : ∀ {j}, j < 10 → (mkPte p 0).testBit j = (1 : Nat).testBit j := by
    intro j hj
    rw [testBit_mkPte h.1 h.lt (by decide) hj, Nat.zero_or]
  rw [link_page h.pos]
  refine ⟨pteV_mkPte h.1 h.lt (by decide), ?_, pte2pa_mkPte h.1 h.lt (by decide)⟩
  unfold pteLeaf
  rw [hbit (by decide), hbit (by decide), hbit (by decide)]
  rfl

theorem pteV_zero : pteV 0 = false := rfl

end

/-! ## The tree -/

/-- The key of the table of level `l` on the way to page `v`. -/
def node (l v : Nat) : Nat := v / 512 ^ (l + 1)

theorem node_zero (v : Nat) : node 0 v = v / 512 := rfl

theorem node_succ (l v : Nat) : node (l + 1) v = node l v / 512 := by
  unfold node
  rw [Nat.div_div_eq_div_mul, Nat.pow_succ 512 (l + 1)]

theorem px_eq (l va : Nat) : px (l + 1) va = node l (va / pgsize) % 512 := by
  unfold px node pgsize
  rw [Nat.div_div_eq_div_mul, Nat.pow_add, Nat.pow_mul]

theorem px_zero (va : Nat) : px 0 va = va / pgsize % 512 := by
  unfold px pgsize
  rfl

theorem node_two {v : Nat} (h : v < 2 ^ 27) : node 2 v = 0 := Nat.div_eq_of_lt (Nat.lt_of_lt_of_le h (by decide))

structure Space where
  /-- The page of a table, or 0. -/
  tab : Nat → Nat → Nat
  pte : Nat → Nat
  root : tab 2 0 ≠ 0
  top : ∀ l k, tab l k ≠ 0 → l < 2 ∨ l = 2 ∧ k = 0
  up : ∀ l k, l < 2 → tab l k ≠ 0 → tab (l + 1) (k / 512) ≠ 0
  bare : ∀ v, tab 0 (v / 512) = 0 → pte v = 0
  page : ∀ l k, tab l k ≠ 0 → IsPage (tab l k)
  inj : ∀ l k l' k', tab l k ≠ 0 → tab l k = tab l' k' → l = l' ∧ k = k'

namespace Space

variable (A : Space)

/-- `p` is the page of a table. -/
def Table (p : Nat) : Prop := ∃ l k, A.tab l k ≠ 0 ∧ A.tab l k = p

/-- Entry `i` of the table `k` of level `l`. -/
def word : Nat → Nat → Nat → Nat
  | 0, k, i => A.pte (512 * k + i)
  | l + 1, k, i => link (A.tab l (512 * k + i))

/-- The tables of the tree are in memory. -/
def Stored (m : Bytes) : Prop := ∀ l k, A.tab l k ≠ 0 → ∀ i < 512, le64 m (A.tab l k + 8 * i) = A.word l k i

/-- Where the PTE of page `v` is, or 0. -/
def slot (v : Nat) : Nat := if A.tab 0 (v / 512) = 0 then 0 else A.tab 0 (v / 512) + 8 * (v % 512)

/-- The physical page of page `v`. -/
def pa (v : Nat) : Nat := pte2pa (A.pte v)

end Space

section

variable {A : Space} {m m' : Bytes} {v va l k : Nat}

theorem Space.Table.page (h : A.Table p) : IsPage p := by
  obtain ⟨l, k, h0, rfl⟩ := h
  exact A.page l k h0

/-- Without a table there is none below it. -/
theorem Space.none_below (A : Space) (hl : l ≤ 2) (h : A.tab l (node l v) = 0) : A.tab 0 (v / 512) = 0 := by
  induction l with
  | zero => exact h
  | succ l ih =>
    by_contra hne
    have hparent : A.tab l (node l v) ≠ 0 := fun h0 => hne (ih (by omega) h0)
    refine A.up l _ (by omega) hparent ?_
    rwa [← node_succ]

theorem Space.Stored.frame {Q : Set Nat} (h : A.Stored m) (hf : Frame Q m m') (hQ : ∀ p, A.Table p → p ∉ Q) : A.Stored m' := by
  intro l k h0 i hi
  rw [hf.word (hQ _ ⟨l, k, h0, rfl⟩) (A.page l k h0).1 hi]
  exact h l k h0 i hi

/-- The word of an upper table on the way to `va`. -/
theorem Space.Stored.link (h : A.Stored m) (h0 : A.tab (l + 1) (node (l + 1) (va / pgsize)) ≠ 0) :
    le64 m (slotAt (A.tab (l + 1) (node (l + 1) (va / pgsize))) (l + 1) va) = Vm.link (A.tab l (node l (va / pgsize))) := by
  unfold slotAt
  rw [h _ _ h0 _ (px_lt _ _), Space.word, px_eq, node_succ, Nat.div_add_mod]

theorem Space.Stored.entryFrom (h : A.Stored m) (hl : l ≤ 2) (h0 : A.tab l (node l (va / pgsize)) ≠ 0) :
    entryFrom m va l (A.tab l (node l (va / pgsize))) = A.slot (va / pgsize) := by
  induction l with
  | zero =>
    rw [node_zero] at h0
    rw [Vm.entryFrom, Space.slot, if_neg h0, slotAt, px_zero]
    rfl
  | succ l ih =>
    rw [Vm.entryFrom, h.link h0]
    by_cases hnone : A.tab l (node l (va / pgsize)) = 0
    · rw [hnone, link_zero, pteV_zero, Space.slot, if_pos (A.none_below (by omega) hnone)]
      rfl
    · obtain ⟨hv, hleaf, hpa⟩ := (A.page _ _ hnone).link
      rw [hv, hleaf, hpa]
      exact ih (by omega) hnone

theorem page_lt (h : va < maxva) : va / pgsize < 2 ^ 26 := by
  unfold maxva at h
  unfold pgsize
  omega

theorem Space.Stored.entry (h : A.Stored m) (hva : va < maxva) : entry m (A.tab 2 0) va = A.slot (va / pgsize) := by
  have hkey : node 2 (va / pgsize) = 0 := node_two (Nat.lt_trans (page_lt hva) (by decide))
  have hroot : A.tab 2 (node 2 (va / pgsize)) ≠ 0 := by
    rw [hkey]
    exact A.root
  have hfrom := h.entryFrom (Nat.le_refl 2) hroot
  rwa [hkey] at hfrom

/-- A leaf word. -/
theorem Space.Stored.pte (h : A.Stored m) (h0 : A.tab 0 (v / 512) ≠ 0) :
    le64 m (A.tab 0 (v / 512) + 8 * (v % 512)) = A.pte v := by
  rw [h 0 _ h0 _ (Nat.mod_lt v (by decide)), Space.word, Nat.div_add_mod]

/-- The PTE for `va`, or 0. -/
def pteAt (m : Bytes) (pagetable va : Nat) : Nat :=
  if entry m pagetable va = 0 then 0 else le64 m (entry m pagetable va)

theorem Space.slot_ne_zero (h : A.tab 0 (v / 512) ≠ 0) : A.slot v ≠ 0 := by
  rw [Space.slot, if_neg h]
  omega

theorem Space.Stored.pteAt (h : A.Stored m) (hva : va < maxva) : pteAt m (A.tab 2 0) va = A.pte (va / pgsize) := by
  unfold Vm.pteAt
  rw [h.entry hva]
  by_cases h0 : A.tab 0 (va / pgsize / 512) = 0
  · rw [Space.slot, if_pos h0, if_pos rfl, A.bare _ h0]
  · rw [if_neg (A.slot_ne_zero h0), Space.slot, if_neg h0, h.pte h0]

end

/-! ## Changes -/

section

variable {A : Space} {m m' : Bytes} {v w l k r : Nat}

/-- Two entries of tables at one address. -/
theorem Space.entry_inj (A : Space) {l k l' k' i' : Nat} (h0 : A.tab l k ≠ 0) (h0' : A.tab l' k' ≠ 0) (hi : i < 512)
    (hi' : i' < 512) (he : A.tab l k + 8 * i = A.tab l' k' + 8 * i') : l = l' ∧ k = k' ∧ i = i' := by
  have hp := (A.page l k h0).1
  have hp' := (A.page l' k' h0').1
  have hpage : A.tab l k = A.tab l' k' := by
    unfold pgsize at hp hp'
    omega
  obtain ⟨rfl, rfl⟩ := A.inj l k l' k' h0 hpage
  exact ⟨rfl, rfl, by omega⟩

theorem Space.entry_aligned (A : Space) (h0 : A.tab l k ≠ 0) (i : Nat) : (A.tab l k + 8 * i) % 8 = 0 := by
  have hp := (A.page l k h0).1
  unfold pgsize at hp
  omega

/-- The PTE of page `v` becomes `w`. -/
def Space.setPte (A : Space) (v w : Nat) (h : A.tab 0 (v / 512) ≠ 0) : Space :=
  { A with
    pte := update A.pte v w
    bare := by
      intro u hu
      by_cases huv : u = v
      · exact absurd (huv ▸ hu) h
      · rw [update_of_ne huv]
        exact A.bare u hu }

theorem Space.Stored.setPte (h : A.Stored m) (h0 : A.tab 0 (v / 512) ≠ 0) (hw : w < 2 ^ 64) :
    (A.setPte v w h0).Stored (put64 m (A.tab 0 (v / 512) + 8 * (v % 512)) w) := by
  intro l k hl i hi
  change A.tab l k ≠ 0 at hl
  change le64 _ (A.tab l k + 8 * i) = _
  have hmod : v % 512 < 512 := Nat.mod_lt v (by decide)
  rw [le64_put64 _ _ (A.entry_aligned h0 _) (A.entry_aligned hl _)]
  split
  next he =>
    obtain ⟨rfl, rfl, rfl⟩ := A.entry_inj hl h0 hi hmod he
    rw [Space.word, Nat.div_add_mod]
    exact (Nat.mod_eq_of_lt hw).trans (update_self v w A.pte).symm
  next hne =>
    rw [h l k hl i hi]
    cases l with
    | zero =>
      have hv : 512 * k + i ≠ v := by
        rintro rfl
        have hk : (512 * k + i) / 512 = k := by omega
        have hr : (512 * k + i) % 512 = i := by omega
        rw [hk, hr] at hne
        exact hne rfl
      exact (update_of_ne hv w A.pte).symm
    | succ l => rfl

/-- A table more, in page `r`. -/
def Space.grow (A : Space) (l k r : Nat) (hl : l < 2) (hup : A.tab (l + 1) (k / 512) ≠ 0) (hr : IsPage r) (hnew : ¬A.Table r) :
    Space where
  tab l' k' := if l' = l ∧ k' = k then r else A.tab l' k'
  pte := A.pte
  root := by
    rw [if_neg (by omega)]
    exact A.root
  top l' k' h := by
    split at h
    next he => exact .inl (he.1 ▸ hl)
    next => exact A.top l' k' h
  up l' k' hl' h := by
    split
    next => exact hr.pos
    next =>
      split at h
      next he =>
        obtain ⟨rfl, rfl⟩ := he
        exact hup
      next => exact A.up l' k' hl' h
  bare v h := by
    split at h
    next => exact absurd h hr.pos
    next => exact A.bare v h
  page l' k' h := by
    split
    next => exact hr
    next he =>
      rw [if_neg he] at h
      exact A.page l' k' h
  inj l' k' l'' k'' h he := by
    split at h
    next h1 =>
      obtain ⟨rfl, rfl⟩ := h1
      rw [if_pos ⟨rfl, rfl⟩] at he
      split at he
      next h2 => exact ⟨h2.1.symm, h2.2.symm⟩
      next => exact absurd ⟨l'', k'', he ▸ hr.pos, he.symm⟩ hnew
    next h1 =>
      rw [if_neg h1] at he
      split at he
      next => exact absurd ⟨l', k', h, he⟩ hnew
      next => exact A.inj l' k' l'' k'' h he

section

variable {hl : l < 2} {hup : A.tab (l + 1) (k / 512) ≠ 0} {hr : IsPage r} {hnew : ¬A.Table r}

theorem Space.grow_table (hnone : A.tab l k = 0) (p : Nat) : (A.grow l k r hl hup hr hnew).Table p ↔ p = r ∨ A.Table p := by
  constructor
  · rintro ⟨l', k', h0, he⟩
    change (if _ then _ else _) ≠ 0 at h0
    change (if _ then _ else _) = p at he
    split at h0
    next h1 =>
      rw [if_pos h1] at he
      exact .inl he.symm
    next h1 =>
      rw [if_neg h1] at he
      exact .inr ⟨l', k', h0, he⟩
  · intro h
    rcases h with rfl | ⟨l', k', h0, rfl⟩
    · have hself : (A.grow l k p hl hup hr hnew).tab l k = p := if_pos ⟨rfl, rfl⟩
      exact ⟨l, k, by rw [hself]; exact hr.pos, hself⟩
    · have hne : ¬(l' = l ∧ k' = k) := by
        rintro ⟨rfl, rfl⟩
        exact h0 hnone
      have hold : (A.grow l k r hl hup hr hnew).tab l' k' = A.tab l' k' := if_neg hne
      exact ⟨l', k', by rwa [hold], hold⟩

/-- An empty table is hung into the tree. -/
theorem Space.Stored.grow (h : A.Stored m) (hnone : A.tab l k = 0) (hzero : ∀ i < 512, le64 m (r + 8 * i) = 0) :
    (A.grow l k r hl hup hr hnew).Stored (put64 m (A.tab (l + 1) (k / 512) + 8 * (k % 512)) (Vm.link r)) := by
  have hmod : k % 512 < 512 := Nat.mod_lt k (by decide)
  have hlink : Vm.link r < 2 ^ 64 := by
    rw [link_page hr.pos]
    exact mkPte_lt hr.1 hr.lt (by decide)
  intro l' k' h0 i hi
  change (if l' = l ∧ k' = k then r else A.tab l' k') ≠ 0 at h0
  change le64 _ ((if l' = l ∧ k' = k then r else A.tab l' k') + 8 * i) = _
  split
  next he =>
    obtain ⟨rfl, rfl⟩ := he
    -- the new table is empty, and nothing hangs from it
    have hother : r ≠ A.tab (l' + 1) (k' / 512) := fun he => hnew ⟨_, _, hup, he.symm⟩
    have hframe : Frame {A.tab (l' + 1) (k' / 512)} m _ := put64_frame m (A.page _ _ hup).1 hmod (Vm.link r)
    rw [hframe.word hother hr.1 hi, hzero i hi]
    have hkey : (512 * k' + i) / 512 = k' := by omega
    cases l' with
    | zero =>
      refine (A.bare _ ?_).symm
      rw [hkey]
      exact hnone
    | succ l1 =>
      have hchild : A.tab l1 (512 * k' + i) = 0 := by
        by_contra hne
        have hparent := A.up l1 _ (by omega) hne
        rw [hkey] at hparent
        exact hparent hnone
      have hsame : (A.grow (l1 + 1) k' r hl hup hr hnew).tab l1 (512 * k' + i) = 0 := by
        rw [← hchild]
        exact if_neg (by omega)
      rw [Space.word, hsame, link_zero]
  next hne =>
    rw [if_neg hne] at h0
    rw [le64_put64 _ _ (A.entry_aligned hup _) (A.entry_aligned h0 _)]
    split
    next he =>
      obtain ⟨rfl, rfl, rfl⟩ := A.entry_inj h0 hup hi hmod he
      have hself : (A.grow l k r hl hup hr hnew).tab l (512 * (k / 512) + k % 512) = r := by
        rw [Nat.div_add_mod]
        exact if_pos ⟨rfl, rfl⟩
      rw [Space.word, hself, Nat.mod_eq_of_lt hlink]
    next haddr =>
      rw [h l' k' h0 i hi]
      cases l' with
      | zero => rfl
      | succ l1 =>
        have hchild : ¬(l1 = l ∧ 512 * k' + i = k) := by
          rintro ⟨rfl, rfl⟩
          have hk : (512 * k' + i) / 512 = k' := by omega
          have hm : (512 * k' + i) % 512 = i := by omega
          rw [hk, hm] at haddr
          exact haddr rfl
        have hsame : (A.grow l k r hl hup hr hnew).tab l1 (512 * k' + i) = A.tab l1 (512 * k' + i) := if_neg hchild
        rw [Space.word, Space.word, hsame]

end

end

end Xv6.Vm
