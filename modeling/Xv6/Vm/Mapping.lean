/-
  Xv6.Vm.Mapping — a page table is a map from pages to PTEs (kernel/vm.c: `mappages`, `uvmalloc`).

  `mappages` adds the pages of its range to the map, in order, and stops when there is no memory for
  a table: what has been added by then is a prefix of the range, and the map is otherwise the same.
  `uvmalloc` adds zeroed pages, and when it cannot have them all it takes away those it has added.
  What stays behind are tables without entries, which go with the page table.

  Proved: `mappages_extends_the_map`, `uvmalloc_all_or_nothing`.
-/

import Xv6.Vm.Sbrk

namespace Xv6.Vm

open Xv6.Lib

/-! ## mappages -/

/-- The `c` pages from `va` on are mapped to those from `pa` on, and every other translation is as in `s`. -/
structure MapsOnly (pagetable va pa perm c : Nat) (s s' : St) : Prop where
  mapped : ∀ k < c, ∃ a, a ≠ 0 ∧ walk pagetable (va + k * pgsize) false s' = .ok (a, s') ∧
    le64 s'.mem a = pa2pte ((pa + k * pgsize) % 2 ^ 64) ||| perm ||| 1
  others : ∀ u < maxva, ¬(va ≤ u ∧ u < va + c * pgsize) → pteAt s'.mem pagetable u = pteAt s.mem pagetable u

section

variable {P : Set Nat} {s s' : St} {A A' : Space} {v pa perm : Nat}

theorem pte2pa_recovers {q : Nat} (hq : q % pgsize = 0) (hlt : q < 2 ^ 56) (hperm : perm < 1024) :
    pte2pa (pa2pte q ||| perm ||| 1) = q := by
  have hor : perm ||| 1 < 2 ^ 10 := Nat.or_lt_two_pow hperm (by decide)
  have hpte : pa2pte q = 2 ^ 10 * (q / 2 ^ 12) := by
    unfold pa2pte
    omega
  unfold pgsize at hq
  rw [Nat.or_assoc, hpte, ← Nat.two_pow_add_eq_or_of_lt hor, pte2pa]
  omega

theorem mkPte_ne_zero (q perm : Nat) : mkPte q perm ≠ 0 := by
  intro h0
  have hbit : (mkPte q perm).testBit 0 = true := by
    rw [mkPte, Nat.testBit_or]
    simp
  rw [h0] at hbit
  cases hbit

theorem MapsOnly.of_grown {c : Nat} (h : Sound P s A) (hg : Grown P s A s' A') (hv : v + c ≤ 2 ^ 26)
    (hpte : ∀ u, A'.pte u = if v ≤ u ∧ u < v + c then mkPte ((pa + (u - v) * pgsize) % 2 ^ 64) perm else A.pte u) :
    MapsOnly (A.tab 2 0) (v * pgsize) pa perm c s s' := by
  refine ⟨fun k hk => ?_, fun u hu hout => ?_⟩
  · have hnew : A'.pte (v + k) = mkPte ((pa + k * pgsize) % 2 ^ 64) perm := by
      rw [hpte, if_pos (by omega), Nat.add_sub_cancel_left]
    have hne : A'.pte (v + k) ≠ 0 := hnew ▸ mkPte_ne_zero _ _
    have h0 := A'.tab_of_pte hne
    rw [← Nat.add_mul, ← hg.root]
    refine ⟨A'.slot (v + k), A'.slot_ne_zero h0, walk_finds hg.sound.stored (by omega), ?_⟩
    rw [hg.sound.stored.slot h0, hnew, mkPte]
  · have hpage : ¬(v ≤ u / pgsize ∧ u / pgsize < v + c) := by
      unfold pgsize at hout ⊢
      omega
    have hnew := hg.sound.stored.pteAt hu
    rw [hg.root] at hnew
    rw [hnew, h.stored.pteAt hu, hpte, if_neg hpage]

/-- `mappages` maps the range, or a prefix of it when it fails, and leaves the rest of the page table alone. It fails when
the free pages are fewer than the tables that the range lacks. -/
theorem mappages_extends_the_map {va size : Nat} (h : Sound P s A) (hva : va % pgsize = 0) (hsize : 0 < size)
    (hend : va + size ≤ maxva)
    (hnone : ∀ u, va ≤ u → u < va + size → pteV (pteAt s.mem (A.tab 2 0) u) = false) (hpa : pa < 2 ^ 64) (hperm : perm < 1024) :
    (size % pgsize ≠ 0 ∧ mappages (A.tab 2 0) va size pa perm s = .error .mapSize) ∨
    ∃ ok s' A' c, mappages (A.tab 2 0) va size pa perm s = .ok (ok, s') ∧ A'.tab 2 0 = A.tab 2 0 ∧ Sound P s' A' ∧
      (ok = true → c * pgsize = size) ∧ (ok = false → c * pgsize < size) ∧
      (ok = true ↔ A.lack (paths (va / pgsize) ((va + size) / pgsize)) ≤ s.freelist.length) ∧
      MapsOnly (A.tab 2 0) va pa perm c s s' ∧ ∀ q, q % pgsize = 0 → q < 2 ^ 56 → pte2pa (pa2pte q ||| perm ||| 1) = q := by
  obtain ⟨v, rfl⟩ : ∃ v, va = v * pgsize := ⟨va / pgsize, (Nat.div_mul_cancel (Nat.dvd_of_mod_eq_zero hva)).symm⟩
  unfold mappages
  rw [if_neg (not_not.mpr hva)]
  by_cases hmul : size % pgsize = 0
  · obtain ⟨n, rfl⟩ : ∃ n, size = (n + 1) * pgsize := by
      refine ⟨size / pgsize - 1, ?_⟩
      unfold pgsize at hmul ⊢
      omega
    have hv : v + n < 2 ^ 26 := by
      unfold maxva pgsize at hend
      omega
    have hfree : ∀ u, v ≤ u → u ≤ v + n → pteV (A.pte u) = false := by
      intro u hu hle
      have hin := hnone (u * pgsize) (Nat.mul_le_mul_right _ hu) (by unfold pgsize; omega)
      rwa [h.stored.pteAt (va_lt (by omega)), page_va] at hin
    have hlast : (v * pgsize + (n + 1) * pgsize - pgsize) % 2 ^ 64 = (v + n) * pgsize := by
      unfold pgsize
      omega
    rw [if_neg (not_not.mpr hmul), if_neg (by omega), hlast, ← Nat.add_mul, page_va, page_va, page_va]
    obtain ⟨ok, s', hrun, A', c, hg, hc, hpaid, hpte⟩ := wp_total (mapFrom_wp h hv hfree hpa hperm)
    have hpaid : s.freelist.length + _ = _ + _ := hpaid _ (Finset.Subset.refl _)
    rw [Nat.add_assoc v n 1] at hpaid
    cases ok with
    | true =>
      obtain rfl : c = n + 1 := hc
      have hmapped : A'.lack (paths v (v + (n + 1))) = 0 := by
        refine Space.lack_mapped fun u hlo hhi => A'.tab_of_pte ?_
        rw [hpte u, if_pos ⟨hlo, hhi⟩]
        exact mkPte_ne_zero _ _
      refine .inr ⟨true, s', A', _, hrun, hg.root, hg.sound, fun _ => rfl, fun hok => Bool.noConfusion hok,
        iff_of_true rfl (by omega), .of_grown h hg (by omega) hpte, fun q hq hlt => pte2pa_recovers hq hlt hperm⟩
    | false =>
      obtain ⟨hle, hnil, hbare⟩ : c ≤ n ∧ s'.freelist = [] ∧ A'.tab 0 ((v + c) / 512) = 0 := hc
      have hlack : 0 < A'.lack (paths v (v + (n + 1))) :=
        Space.lack_pos (path_mem (Finset.Subset.refl _) (Nat.le_add_right v c) (by omega) 0 (by decide)) hbare
      rw [hnil, List.length_nil] at hpaid
      refine .inr ⟨false, s', A', c, hrun, hg.root, hg.sound, fun hok => Bool.noConfusion hok, fun _ => ?_,
        iff_of_false Bool.false_ne_true (by omega), .of_grown h hg (by omega) hpte, fun q hq hlt => pte2pa_recovers hq hlt hperm⟩
      exact Nat.mul_lt_mul_of_pos_right (Nat.lt_succ_of_le hle) (by decide)
  · rw [if_pos hmul]
    exact .inl ⟨hmul, rfl⟩

/-! ## uvmalloc -/

/-- A call that failed: the mappings and every byte outside free pages and tables are as before, and what was
taken from the free list is there again or is a table without entries. `proc_freepagetable` then frees
everything. -/
structure GaveUp (A : Space) (oldsz : Nat) (s : St) (A' : Space) (s' : St) : Prop where
  root : A'.tab 2 0 = A.tab 2 0
  stored : A'.Stored s'.mem
  ptes : ∀ v < 2 ^ 26, pageOf s'.mem (A.tab 2 0) v = pageOf s.mem (A.tab 2 0) v
  bytes : Frame {p | p ∈ s.freelist ∨ A.Table p} s.mem s'.mem
  kept : A.Within A'
  pool : ∀ p, p ∈ s'.freelist ∨ A'.Table p ↔ p ∈ s.freelist ∨ A.Table p
  empty : ∀ p, A'.Table p → ¬A.Table p → ∀ i < 512, le64 s'.mem (p + 8 * i) = 0 ∨
    ∃ q, le64 s'.mem (p + 8 * i) = link q ∧ A'.Table q ∧ ¬A.Table q
  freed : ∃ s'', procFreepagetable (A.tab 2 0) oldsz s' = .ok ((), s'') ∧ s''.freelist.Nodup ∧
    ∀ p, p ∈ s''.freelist ↔ p ∈ s.freelist ∨ A.Table p ∨ p ∈ A.pages 0 (npages oldsz)

/-- The pages from `oldsz` to `newsz` have been added: free pages, zeroed, with the flags `flags`. -/
structure Added (A : Space) (oldsz newsz flags : Nat) (s s' : St) : Prop where
  fresh : ∀ v, npages oldsz ≤ v → v < npages newsz → ∃ p ∈ s.freelist, p ∉ s'.freelist ∧
    pageOf s'.mem (A.tab 2 0) v = mkPte p flags ∧ ∀ o < pgsize, s'.mem (p + o) = 0
  distinct : ∀ v u, npages oldsz ≤ v → v < npages newsz → npages oldsz ≤ u → u < npages newsz →
    pte2pa (pageOf s'.mem (A.tab 2 0) v) = pte2pa (pageOf s'.mem (A.tab 2 0) u) → v = u
  others : ∀ v < 2 ^ 26, ¬(npages oldsz ≤ v ∧ v < npages newsz) → pageOf s'.mem (A.tab 2 0) v = pageOf s.mem (A.tab 2 0) v
  bytes : Frame {p | p ∈ s.freelist ∨ A.Table p} s.mem s'.mem

variable {oldsz newsz trapframe flags : Nat}

/-- A table that is not where `A` has one is not one of `A`'s. -/
theorem Space.Within.fresh (h : A.Within A') {l k : Nat} (h0 : A'.tab l k ≠ 0) : A.Table (A'.tab l k) ↔ A.tab l k ≠ 0 := by
  constructor
  · rintro ⟨l', k', hne, he⟩
    have hpos := h l' k' hne
    obtain ⟨rfl, rfl⟩ := A'.inj l k l' k' h0 (he.symm.trans hpos.symm)
    exact hne
  · intro hne
    exact ⟨l, k, hne, (h l k hne).symm⟩

theorem Kept.empty (h : Kept P s A s' A') : ∀ p, A'.Table p → ¬A.Table p → ∀ i < 512, le64 s'.mem (p + 8 * i) = 0 ∨
    ∃ q, le64 s'.mem (p + 8 * i) = link q ∧ A'.Table q ∧ ¬A.Table q := by
  intro p hp hnew i hi
  obtain ⟨l, k, h0, rfl⟩ := hp
  have hbare : A.tab l k = 0 := by
    by_contra hne
    exact hnew ((h.tables.fresh h0).mpr hne)
  rw [h.sound.stored l k h0 i hi]
  cases l with
  | zero =>
    refine .inl ?_
    rw [Space.word, h.pte]
    refine A.bare _ ?_
    rwa [show (512 * k + i) / 512 = k by omega]
  | succ l =>
    rw [Space.word]
    by_cases hsub : A'.tab l (512 * k + i) = 0
    · rw [hsub]
      exact .inl link_zero
    · refine .inr ⟨_, rfl, ⟨l, _, hsub, rfl⟩, fun ht => ?_⟩
      have hl : l < 2 := by
        rcases A'.top (l + 1) k h0 with h1 | h1 <;> omega
      have hup := A.up l _ hl ((h.tables.fresh hsub).mp ht)
      rw [show (512 * k + i) / 512 = k by omega] at hup
      exact hup hbare

theorem Sound.pool_eq (h : Sound P s A) : P = {p | p ∈ s.freelist ∨ A.Table p} := Set.ext h.pool.mem

section

variable (h : AddrSpace P s A trapframe (npages oldsz))
include h

theorem GaveUp.of_kept (hk : Kept P s A s' A') : GaveUp A oldsz s A' s' := by
  have hframe := hk.frame
  rw [h.sound.pool_eq] at hframe
  have hpages : A'.pages 0 (npages oldsz) = A.pages 0 (npages oldsz) := Space.pages_congr fun v _ _ => by
    rw [Space.pa, hk.pte]
    rfl
  obtain ⟨⟨⟩, s'', hrun, hfree, -⟩ := wp_total (procFreepagetable_wp (h.kept hk))
  rw [hk.root] at hrun
  rw [hpages] at hfree
  refine ⟨hk.root, hk.sound.stored, fun v hv => ?_, hframe, hk.tables, fun p => ?_, hk.empty, s'', hrun, hfree.nodup, fun p => ?_⟩
  · have hnew := hk.sound.stored.pageOf hv
    rw [hk.root] at hnew
    rw [hnew, h.sound.stored.pageOf hv, hk.pte]
  · rw [← hk.sound.pool.mem, h.sound.pool.mem]
  · have hmem := hfree.mem p
    rw [or_iff_left id] at hmem
    rw [← hmem, Set.mem_union, h.sound.pool.mem, or_assoc]

theorem Added.of_zeroed {P' : Set Nat} (hle : oldsz ≤ newsz) (he : Zeroed P s A flags (npages oldsz) (npages newsz) P' s' A') :
    Added A oldsz newsz flags s s' := by
  have hfew := (h.extended he (npages_mono hle)).few
  have hframe := he.frame
  rw [h.sound.pool_eq] at hframe
  have hpage : ∀ {v}, v < 2 ^ 26 → pageOf s'.mem (A.tab 2 0) v = A'.pte v := by
    intro v hv
    rw [← he.root]
    exact he.sound.stored.pageOf hv
  refine ⟨fun v hv hlt => ?_, fun v u hv hlt hu hlt' hpa => ?_, fun v hv hout => ?_, hframe⟩
  · refine ⟨A'.pa v, he.was_free h.sound hv hlt, fun hin => he.data.out v hv hlt (he.sound.free hin), ?_, he.bytes v hv hlt⟩
    rw [hpage (by omega)]
    exact he.fresh v hv hlt
  · rw [hpage (by omega), hpage (by omega)] at hpa
    exact he.data.inj v u hv hlt hu hlt' hpa
  · rw [hpage hv, h.sound.stored.pageOf hv]
    exact he.others v hout

/-- `uvmalloc` adds all of its pages, or it changes nothing that the process can see. It adds them when the free pages
are enough for them and the tables that they lack. -/
theorem uvmalloc_all_or_nothing {xperm : Nat} (hle : oldsz ≤ newsz) (hperm : xperm < 1024) :
    ∃ r s', uvmalloc (A.tab 2 0) oldsz newsz xperm s = .ok (r, s') ∧
      (r = newsz ↔ npages newsz - npages oldsz + A.lack (paths (npages oldsz) (npages newsz)) ≤ s.freelist.length) ∧
      (r = 0 → 0 < newsz → ∃ A', GaveUp A oldsz s A' s') ∧
      (r ≠ 0 → r = newsz ∧ Added A oldsz newsz (pteRBit ||| pteUBit ||| xperm) s s') := by
  have hflags : pteRBit ||| pteUBit ||| xperm < 1024 := by
    have hru : pteRBit ||| pteUBit < 2 ^ 10 := by decide
    exact Nat.or_lt_two_pow hru hperm
  obtain ⟨r, s', hrun, hres⟩ := wp_total (uvmalloc_wp h.sound (Finset.Subset.refl _) hflags hle h.few
    fun u hu htop => h.room hu htop)
  refine ⟨r, s', hrun, ?_, fun hr hpos => ?_, fun hr => ?_⟩
  · rcases hres with ⟨rfl, P', A', he, hspent⟩ | ⟨rfl, hshort, -⟩
    · have hmapped : A'.lack (paths (npages oldsz) (npages r)) = 0 :=
        Space.lack_mapped fun v hlo hhi => A'.tab_of_pte (he.data.leaf v hlo hhi).ne_zero
      rw [Spent, hmapped] at hspent
      exact iff_of_true rfl (by omega)
    · refine iff_of_false (fun h0 => ?_) (by omega)
      -- nothing is needed for no memory at all
      subst h0
      rw [Nat.le_zero.mp hle, Nat.sub_self, Nat.add_zero] at hshort
      exact Nat.not_lt_zero _ (Nat.lt_of_lt_of_le hshort (Nat.le_of_eq (by rw [Space.lack_mapped fun v hlo hhi => by omega])))
  · rcases hres with ⟨rfl, -⟩ | ⟨-, -, A', hk⟩
    · omega
    · exact ⟨A', .of_kept h hk⟩
  · rcases hres with ⟨rfl, P', A', he, -⟩ | ⟨rfl, -⟩
    · exact ⟨rfl, .of_zeroed h hle he⟩
    · exact absurd rfl hr

end

end

/-- Two pages of a device are mapped above the memory of a process with one page. -/
theorem mappages_extends_the_map_two : ∃ P s A s', Sound P s A ∧
    mappages (A.tab 2 0) (2 * pgsize) (2 * pgsize) 0x10000000 (pteRBit ||| pteWBit) s = .ok (true, s') ∧
      MapsOnly (A.tab 2 0) (2 * pgsize) 0x10000000 (pteRBit ||| pteWBit) 2 s s' := by
  obtain ⟨P, s, A, h, -, -, hlen⟩ := onePage_runs
  have hnone : ∀ u, 2 * pgsize ≤ u → u < 2 * pgsize + 2 * pgsize → pteV (pteAt s.mem (A.tab 2 0) u) = false := by
    intro u hu hlt
    have hpage : npages pgsize ≤ u / pgsize ∧ u / pgsize < trapframeVa / pgsize := by
      rw [show npages pgsize = 1 from rfl, show trapframeVa / pgsize = 67108862 from rfl]
      unfold pgsize at *
      omega
    rw [h.sound.stored.pteAt (by unfold maxva; unfold pgsize at hlt; omega), h.room hpage.1 hpage.2]
    rfl
  have hperm : pteRBit ||| pteWBit < 1024 := by decide
  rcases mappages_extends_the_map h.sound (by decide) (by decide) (by decide) hnone
    (show 0x10000000 < 2 ^ 64 by decide) hperm with
    ⟨hodd, -⟩ | ⟨ok, s', A', c, hrun, -, -, hall, -, hiff, hmaps, -⟩
  · exact absurd rfl hodd
  · have hlack : A.lack (paths 2 4) ≤ 2 := A.lack_le _
    obtain rfl : ok = true := hiff.mpr (by rw [hlen]; exact Nat.le_trans hlack (by decide))
    obtain rfl : c = 2 := Nat.eq_of_mul_eq_mul_right (by decide) (hall rfl)
    exact ⟨P, s, A, s', h.sound, hrun, hmaps⟩

/-- A process with one page asks for two more. -/
theorem uvmalloc_all_or_nothing_page : ∃ P s A s', AddrSpace P s A 0x87000000 (npages pgsize) ∧
    uvmalloc (A.tab 2 0) pgsize (3 * pgsize) pteWBit s = .ok (3 * pgsize, s') ∧
      Added A pgsize (3 * pgsize) (pteRBit ||| pteUBit ||| pteWBit) s s' := by
  obtain ⟨P, s, A, h, -, -, hlen⟩ := onePage_runs
  obtain ⟨r, s', hrun, hiff, -, hadded⟩ := uvmalloc_all_or_nothing h (show pgsize ≤ 3 * pgsize by decide)
    (show pteWBit < 1024 by decide)
  have hlack : A.lack (paths 1 3) ≤ 2 := A.lack_le _
  obtain rfl : r = 3 * pgsize := hiff.mpr (by rw [hlen]; exact Nat.le_trans (Nat.add_le_add_left hlack 2) (by decide))
  exact ⟨P, s, A, s', h, hrun, (hadded (by decide)).2⟩

end Xv6.Vm
