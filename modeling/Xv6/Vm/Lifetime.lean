/-
  Xv6.Vm.Lifetime — page tables are made and freed (kernel/vm.c: `uvmcreate`, `freewalk`,
  `uvmfree`; kernel/proc.c: `proc_pagetable`, `proc_freepagetable`).

  `freewalk` frees a table after the tables that hang from it. While it runs, entries of the tables
  above still lead to pages that are free already, so the tree is followed by its subtrees: `Under`
  is the pages of one, and different subtrees share none (`Under.key`).

  `AddrSpace` is the page table of a process. Proved: `proc_pagetable` makes one with no memory or
  gives back what it took (`procPagetable_wp`), and `proc_freepagetable` frees all of one
  (`procFreepagetable_wp`).
-/

import Xv6.Vm.Grow

namespace Xv6.Vm

open Xv6.Lib

/-! ## Subtrees -/

/-- `p` is the page of a table below the table `k` of level `l`, or of that table. -/
def Space.Under (A : Space) (l k p : Nat) : Prop :=
  ∃ l' k', A.tab l' k' ≠ 0 ∧ A.tab l' k' = p ∧ l' ≤ l ∧ k' / 512 ^ (l - l') = k

variable {d : Nat}

section

variable {A : Space} {l k l' k' p : Nat} {m m' : Bytes}

/-- The tables above a table exist. -/
theorem Space.above (A : Space) (h : A.tab l' k' ≠ 0) (hd : l' + d ≤ 2) : A.tab (l' + d) (k' / 512 ^ d) ≠ 0 := by
  induction d with
  | zero => rwa [Nat.pow_zero, Nat.div_one]
  | succ d ih =>
    rw [Nat.pow_succ, ← Nat.div_div_eq_div_mul, ← Nat.add_assoc]
    exact A.up _ _ (by omega) (ih (by omega))

theorem Space.Under.ne (h : A.Under l k p) (hl : l ≤ 2) : A.tab l k ≠ 0 := by
  obtain ⟨l', k', h0, -, hle, rfl⟩ := h
  obtain ⟨d, rfl⟩ := Nat.exists_eq_add_of_le hle
  rw [Nat.add_sub_cancel_left]
  exact A.above h0 hl

theorem Space.Under.key {j : Nat} (h : A.Under l k p) (h' : A.Under l j p) : k = j := by
  obtain ⟨l1, k1, h0, rfl, -, rfl⟩ := h
  obtain ⟨l2, k2, -, he, -, rfl⟩ := h'
  obtain ⟨rfl, rfl⟩ := A.inj l1 k1 l2 k2 h0 he.symm
  rfl

theorem Space.under_self (h : A.tab l k ≠ 0) : A.Under l k (A.tab l k) := by
  refine ⟨l, k, h, rfl, Nat.le_refl l, ?_⟩
  rw [Nat.sub_self, Nat.pow_zero, Nat.div_one]

theorem Space.under_zero : A.Under 0 k p ↔ A.tab 0 k ≠ 0 ∧ A.tab 0 k = p := by
  constructor
  · rintro ⟨l', k', h0, he, hle, rfl⟩
    obtain rfl : l' = 0 := Nat.le_zero.mp hle
    rw [Nat.sub_self, Nat.pow_zero, Nat.div_one]
    exact ⟨h0, he⟩
  · rintro ⟨h0, rfl⟩
    exact Space.under_self h0

/-- A subtree is its root and the subtrees that hang from it. -/
theorem Space.under_succ : A.Under (l + 1) k p ↔ (A.tab (l + 1) k ≠ 0 ∧ A.tab (l + 1) k = p) ∨ ∃ i < 512,
    A.Under l (512 * k + i) p := by
  constructor
  · rintro ⟨l', k', h0, he, hle, rfl⟩
    by_cases htop : l' = l + 1
    · subst htop
      rw [Nat.sub_self, Nat.pow_zero, Nat.div_one]
      exact .inl ⟨h0, he⟩
    · have hd : l + 1 - l' = (l - l') + 1 := by omega
      refine .inr ⟨k' / 512 ^ (l - l') % 512, Nat.mod_lt _ (by decide), l', k', h0, he, by omega, ?_⟩
      rw [hd, Nat.pow_succ, ← Nat.div_div_eq_div_mul, Nat.div_add_mod]
  · rintro (⟨h0, rfl⟩ | ⟨i, hi, l', k', h0, he, hle, hkey⟩)
    · exact Space.under_self h0
    · have hd : l + 1 - l' = (l - l') + 1 := by omega
      refine ⟨l', k', h0, he, by omega, ?_⟩
      rw [hd, Nat.pow_succ, ← Nat.div_div_eq_div_mul, hkey]
      omega

/-- The whole tree. -/
theorem Space.under_root (A : Space) : A.Under 2 0 p ↔ A.Table p := by
  constructor
  · rintro ⟨l', k', h0, he, -⟩
    exact ⟨l', k', h0, he⟩
  · rintro ⟨l', k', h0, he⟩
    have hle : l' ≤ 2 := by
      rcases A.top l' k' h0 with h | h <;> omega
    obtain ⟨d, hd⟩ := Nat.exists_eq_add_of_le hle
    have habove := A.above h0 (d := d) (by omega)
    refine ⟨l', k', h0, he, hle, ?_⟩
    rw [← hd] at habove
    rcases A.top _ _ habove with h | h
    · omega
    · rw [show 2 - l' = d by omega]
      exact h.2

/-- A subtree is in memory. -/
def Space.StoredUnder (A : Space) (l k : Nat) (m : Bytes) : Prop :=
  ∀ l' k', A.tab l' k' ≠ 0 → A.Under l k (A.tab l' k') → ∀ i < 512, le64 m (A.tab l' k' + 8 * i) = A.word l' k' i

theorem Space.StoredUnder.frame {Q : Set Nat} (h : A.StoredUnder l k m) (hf : Frame Q m m') (hQ : ∀ p, A.Under l k p → p ∉ Q) :
    A.StoredUnder l k m' := by
  intro l' k' h0 hu i hi
  rw [hf.word (hQ _ hu) (A.page l' k' h0).1 hi]
  exact h l' k' h0 hu i hi

end

/-! ## freewalk -/

/-- A free list of pages, and nothing else. -/
abbrev Free (F : Set Nat) (s : St) : Prop := Pool F s.freelist fun _ => False

section

variable {A : Space} {l k p r i sz : Nat} {F P : Set Nat} {s : St} {free : Nat → VmM Unit} {N : Finset (Nat × Nat)}

/-- An entry without a table is passed over. -/
theorem freeEntry_none (h : pteV (le64 s.mem (p + 8 * i)) = false) :
    freeEntry free p i s = .ok ((), s) := by
  unfold freeEntry
  change (if pteV (le64 s.mem (p + 8 * i)) && !pteLeaf (le64 s.mem (p + 8 * i)) then _
      else if pteV (le64 s.mem (p + 8 * i)) then _
    else _ : VmM Unit) s = _
  rw [h]
  rfl

theorem freeEntry_table {Q : Unit → St → Prop} (hr : IsPage r) (h : le64 s.mem (p + 8 * i) = link r)
    (hfree : wp Never (free r) (fun _ t => Q () { t with mem := put64 t.mem (p + 8 * i) 0 }) s) :
    wp Never (freeEntry free p i) Q s := by
  obtain ⟨hv, hleaf, hpa⟩ := hr.link
  unfold freeEntry
  change wp Never (if pteV (le64 s.mem (p + 8 * i)) && !pteLeaf (le64 s.mem (p + 8 * i)) then _ else _) Q s
  rw [h, hv, hleaf, hpa, if_pos rfl]
  exact wp_seq hfree fun _ t ht => ht

/-- The pages of the first `i` subtrees under the table `k` of level `l + 1`. -/
def Space.firstUnder (A : Space) (l k i : Nat) : Set Nat := {p | ∃ j < i, A.Under l (512 * k + j) p}

theorem Space.firstUnder_succ (A : Space) (l k i : Nat) :
    A.firstUnder l k (i + 1) = A.firstUnder l k i ∪ {p | A.Under l (512 * k + i) p} := by
  ext p
  constructor
  · rintro ⟨j, hj, hu⟩
    rcases Nat.lt_succ_iff_lt_or_eq.mp hj with hj | rfl
    · exact .inl ⟨j, hj, hu⟩
    · exact .inr hu
  · rintro (⟨j, hj, hu⟩ | hu)
    · exact ⟨j, Nat.lt_succ_of_lt hj, hu⟩
    · exact ⟨i, Nat.lt_succ_self i, hu⟩

/-- The tables under entry `i` are in none of the subtrees before it, nor the table above. -/
theorem Space.Under.later (h : A.Under l (512 * k + i) p) (h0 : A.tab (l + 1) k ≠ 0) :
    p ∉ A.firstUnder l k i ∧ p ≠ A.tab (l + 1) k := by
  constructor
  · rintro ⟨j, hj, hu⟩
    have := h.key hu
    omega
  · rintro rfl
    obtain ⟨l', k', -, he, hle, -⟩ := h
    obtain ⟨rfl, -⟩ := A.inj _ _ _ _ h0 he.symm
    omega

theorem Free.give {m : Bytes} (h : Free F s) (hr : r ∉ F) : Free (insert r F) ⟨m, r :: s.freelist⟩ := Pool.give h hr

/-- The state of the loop of `freewalk` before entry `i`. -/
structure Freeing (A : Space) (l k : Nat) (F : Set Nat) (s : St) (i : Nat) (t : St) : Prop where
  free : Free (F ∪ A.firstUnder l k i) t
  frame : Frame (A.firstUnder l k i ∪ {A.tab (l + 1) k}) s.mem t.mem
  words : ∀ j, i ≤ j → j < 512 → le64 t.mem (A.tab (l + 1) k + 8 * j) = link (A.tab l (512 * k + j))

/-- No page is mapped: `freewalk` frees the tables of a subtree, each once. -/
theorem freewalk_wp (hnone : ∀ v, pteV (A.pte v) = false) (hl : l ≤ 2) (h0 : A.tab l k ≠ 0) (hstored : A.StoredUnder l k s.mem)
    (hfree : Free F s) (hF : ∀ p, A.Under l k p → p ∉ F) :
    wp Never (freewalk (l + 1) (A.tab l k)) (fun _ s' => Free (F ∪ {p | A.Under l k p}) s' ∧
      Frame {p | A.Under l k p} s.mem s'.mem) s := by
  have hpage := A.page l k h0
  induction l generalizing k F s with
  | zero =>
    have hwords : ∀ i < 512, pteV (le64 s.mem (A.tab 0 k + 8 * i)) = false := by
      intro i hi
      rw [hstored 0 k h0 (Space.under_self h0) i hi]
      exact hnone _
    have hloop : wp Never (forTo (freeEntry (freewalk 0) (A.tab 0 k)) 512) (fun _ t => t = s) s := by
      refine wp_forTo (I := fun _ t => t = s) rfl fun i hi t ht => ?_
      subst ht
      rw [wp, freeEntry_none (hwords i hi)]
    have hset : {p | A.Under 0 k p} = {A.tab 0 k} := by
      ext p
      change A.Under 0 k p ↔ _
      rw [Space.under_zero, Set.mem_singleton_iff, eq_comm, and_iff_right h0]
    rw [freewalk, hset, Set.union_singleton]
    refine wp_seq hloop fun _ t ht => ?_
    subst ht
    refine wp_mono (kfree_wp hpage) fun _ s' hs' => ?_
    subst hs'
    exact ⟨hfree.give (hF _ (Space.under_self h0)), kfree_frame _ hpage _⟩
  | succ l ih =>
    have hself : A.Under (l + 1) k (A.tab (l + 1) k) := Space.under_self h0
    have hchild : ∀ {i p}, i < 512 → A.Under l (512 * k + i) p → A.Under (l + 1) k p := fun hi hu =>
      Space.under_succ.mpr (.inr ⟨_, hi, hu⟩)
    have hloop : wp Never (forTo (freeEntry (freewalk (l + 1)) (A.tab (l + 1) k)) 512)
        (fun _ t => Freeing A l k F s 512 t) s := by
      have hnil : A.firstUnder l k 0 = ∅ := by
        refine Set.eq_empty_of_forall_notMem ?_
        rintro p ⟨j, hj, -⟩
        exact absurd hj (Nat.not_lt_zero j)
      refine wp_forTo (I := Freeing A l k F s) ⟨?_, Frame.refl _ _, fun j _ hj => hstored _ _ h0 hself j hj⟩ fun i hi t ht => ?_
      · rw [hnil, Set.union_empty]
        exact hfree
      by_cases hempty : A.tab l (512 * k + i) = 0
      · -- no table, and so no subtree
        have hword : pteV (le64 t.mem (A.tab (l + 1) k + 8 * i)) = false := by
          rw [ht.words i (Nat.le_refl i) hi, hempty]
          rfl
        have hno : {p | A.Under l (512 * k + i) p} = ∅ :=
          Set.eq_empty_of_forall_notMem fun p hp => Space.Under.ne hp (by omega) hempty
        have hsame : A.firstUnder l k (i + 1) = A.firstUnder l k i := by rw [A.firstUnder_succ, hno, Set.union_empty]
        rw [wp, freeEntry_none hword]
        refine ⟨?_, ?_, fun j hij hj => ht.words j (by omega) hj⟩
        · rw [hsame]
          exact ht.free
        · rw [hsame]
          exact ht.frame
      · have hr := A.page _ _ hempty
        have hstoredChild : A.StoredUnder l (512 * k + i) t.mem := by
          have hbelow : A.StoredUnder l (512 * k + i) s.mem := fun l' k' h0' hu => hstored l' k' h0' (hchild hi hu)
          refine hbelow.frame ht.frame fun p hu hin => ?_
          obtain ⟨hfirst, hne⟩ := Space.Under.later hu h0
          rcases hin with hin | hin
          · exact hfirst hin
          · exact hne hin
        have hdisjoint : ∀ p, A.Under l (512 * k + i) p → p ∉ F ∪ A.firstUnder l k i := by
          intro p hu hin
          rcases hin with hin | hin
          · exact hF p (hchild hi hu) hin
          · exact (Space.Under.later hu h0).1 hin
        refine freeEntry_table hr (ht.words i (Nat.le_refl i) hi) (wp_mono
            (ih (by omega) hempty hstoredChild ht.free hdisjoint hr)
          fun _ t' ht' => ?_)
        obtain ⟨hfree', hframe'⟩ := ht'
        have htable : A.tab (l + 1) k ∉ {p | A.Under l (512 * k + i) p} := fun hu => (Space.Under.later hu h0).2 rfl
        refine ⟨?_, ?_, fun j hij hj => ?_⟩
        · rw [A.firstUnder_succ, ← Set.union_assoc]
          exact hfree'
        · rw [A.firstUnder_succ]
          refine (ht.frame.mono fun p hp => ?_).trans ((hframe'.mono fun p hp => ?_).trans
            ((put64_frame _ hpage.1 hi 0).mono fun p hp => ?_))
          · rcases hp with hp | hp
            · exact .inl (.inl hp)
            · exact .inr hp
          · exact .inl (.inr hp)
          · exact .inr hp
        · have hne : A.tab (l + 1) k + 8 * j ≠ A.tab (l + 1) k + 8 * i := by omega
          change le64 (put64 t'.mem _ 0) _ = _
          rw [le64_put64 _ _ (A.entry_aligned h0 i) (A.entry_aligned h0 j), if_neg hne, hframe'.word htable hpage.1 hj]
          exact ht.words j (by omega) hj
    have hset : {p | A.Under (l + 1) k p} = insert (A.tab (l + 1) k) (A.firstUnder l k 512) := by
      ext p
      change A.Under (l + 1) k p ↔ _
      rw [Space.under_succ, Set.mem_insert_iff, and_iff_right h0, eq_comm]
      rfl
    rw [freewalk, hset, Set.union_insert]
    refine wp_seq hloop fun _ t ht => ?_
    refine wp_mono (kfree_wp hpage) fun _ s' hs' => ?_
    subst hs'
    have hnew : A.tab (l + 1) k ∉ F ∪ A.firstUnder l k 512 := by
      rintro (hin | ⟨j, hj, hu⟩)
      · exact hF _ hself hin
      · exact (Space.Under.later hu h0).2 rfl
    refine ⟨ht.free.give hnew, (ht.frame.mono fun p hp => ?_).trans ((kfree_frame _ hpage _).mono fun p hp => ?_)⟩
    · rcases hp with hp | hp
      · exact .inr hp
      · exact .inl hp
    · exact .inl hp

/-- The tables of a tree that maps nothing are freed, and so all of `P` is free. -/
theorem Sound.freewalk (h : Sound P s A) (hnone : ∀ v, pteV (A.pte v) = false) :
    wp Never (freewalk 3 (A.tab 2 0)) (fun _ s' => Free P s' ∧ Frame P s.mem s'.mem) s := by
  have hfree : Free {p | p ∈ s.freelist} s := ⟨h.pool.nodup, fun p => (or_iff_left id).symm, fun _ _ => id⟩
  have hunder : ∀ p, A.Under 2 0 p → p ∉ {p | p ∈ s.freelist} := fun p hu hin => h.pool.apart p hin (A.under_root.mp hu)
  have hset : {p | p ∈ s.freelist} ∪ {p | A.Under 2 0 p} = P := by
    ext p
    change p ∈ s.freelist ∨ A.Under 2 0 p ↔ _
    rw [A.under_root, h.pool.mem]
  refine wp_mono (freewalk_wp hnone (Nat.le_refl 2) A.root (fun l' k' h0 _ => h.stored l' k' h0) hfree hunder) ?_
  rintro _ s' ⟨hfree', hframe⟩
  rw [hset] at hfree'
  exact ⟨hfree', hframe.mono fun p hp => h.table (A.under_root.mp hp)⟩

theorem uvmfree_wp (h : Sound P s A) (hdata : Data A P 0 (npages sz)) (hnone : ∀ v, npages sz ≤ v → pteV (A.pte v) = false) :
    wp Never (uvmfree (A.tab 2 0) sz) (fun _ s' => Free (P ∪ A.pages 0 (npages sz)) s' ∧
      Frame (P ∪ A.pages 0 (npages sz)) s.mem s'.mem) s := by
  have hfew := hdata.length
  have hrest : ∀ s1 A1, Unmapped P 0 (npages sz) s A s1 A1 → wp Never (Vm.freewalk 3 (A.tab 2 0)) (fun _ s' =>
      Free (P ∪ A.pages 0 (npages sz)) s' ∧ Frame (P ∪ A.pages 0 (npages sz)) s.mem s'.mem) s1 := by
    intro s1 A1 hun
    rw [← hun.tab]
    refine wp_mono (hun.sound.freewalk fun v => ?_) fun _ s' hs' => ⟨hs'.1, hun.frame.trans hs'.2⟩
    rw [hun.pte]
    split
    next => rfl
    next hout => exact hnone v (by omega)
  unfold uvmfree
  split
  next hpos =>
    have hsz : sz ≤ 2 ^ 63 := by
      have := npages_le.mp hfew
      unfold pgsize at this
      omega
    have hun := uvmunmap_wp h hdata (Nat.zero_le _) (by omega)
    rw [Nat.zero_mul, Nat.sub_zero] at hun
    rw [pgroundup_eq hsz, page_va]
    refine wp_seq hun ?_
    rintro _ s1 ⟨A1, hun1⟩
    exact hrest s1 A1 hun1
  next hpos =>
    obtain rfl : sz = 0 := by omega
    refine hrest s A ⟨?_, Frame.refl _ _, rfl, fun u => (if_neg fun hu => Nat.not_lt_zero u hu.2).symm⟩
    rw [show npages 0 = 0 from rfl, A.pages_empty (Nat.le_refl 0), Set.union_empty]
    exact h

/-! ## A process's address space -/

/-- A PTE that maps page `pa` for the kernel only. -/
def Maps (pte pa : Nat) : Prop := Leaf pte ∧ pteU pte = false ∧ pte2pa pte = pa

/-- The page table of a process with `n` pages of memory: these, the trampoline and the trapframe are
mapped, and nothing else. -/
structure AddrSpace (P : Set Nat) (s : St) (A : Space) (trapframe n : Nat) : Prop where
  sound : Sound P s A
  data : Data A P 0 n
  code : Maps (A.pte (trampoline / pgsize)) trampolinePage
  frame : Maps (A.pte (trapframeVa / pgsize)) trapframe
  none : ∀ v, n ≤ v → v ≠ trampoline / pgsize → v ≠ trapframeVa / pgsize → A.pte v = 0

variable {trapframe n : Nat}

theorem AddrSpace.few (h : AddrSpace P s A trapframe n) : n ≤ 2 ^ 15 := h.data.length

/-- Nothing is mapped above the process's memory, up to the trapframe. -/
theorem AddrSpace.room (h : AddrSpace P s A trapframe n) {v : Nat} (hv : n ≤ v) (htop : v < trapframeVa / pgsize) :
    A.pte v = 0 := by
  have hlt : trapframeVa / pgsize < trampoline / pgsize := by decide
  exact h.none v hv (by omega) (by omega)

theorem procFreepagetable_wp (h : AddrSpace P s A trapframe (npages sz)) :
    wp Never (procFreepagetable (A.tab 2 0) sz) (fun _ s' => Free (P ∪ A.pages 0 (npages sz)) s' ∧
      Frame (P ∪ A.pages 0 (npages sz)) s.mem s'.mem) s := by
  have hfew := h.few
  have hcode : trampoline = trampoline / pgsize * pgsize := by decide
  have hframe : trapframeVa = trapframeVa / pgsize * pgsize := by decide
  have hhigh : 2 ^ 15 < trapframeVa / pgsize := by decide
  have hlt : trapframeVa / pgsize < trampoline / pgsize := by decide
  unfold procFreepagetable
  rw [hcode]
  refine wp_seq (uvmunmap_one_wp h.sound (by decide) h.code.1) ?_
  rintro _ s1 ⟨A1, hgrown1, hpte1, -⟩
  have hleaf1 : Leaf (A1.pte (trapframeVa / pgsize)) := by
    rw [hpte1, update_of_ne (by omega)]
    exact h.frame.1
  rw [hframe, ← hgrown1.root]
  refine wp_seq (uvmunmap_one_wp hgrown1.sound (by decide) hleaf1) ?_
  rintro _ s2 ⟨A2, hgrown2, hpte2, -⟩
  have hsame : ∀ v, v < 2 ^ 15 → A2.pte v = A.pte v := by
    intro v hv
    rw [hpte2, update_of_ne (by omega), hpte1, update_of_ne (by omega)]
  have hpages : A2.pages 0 (npages sz) = A.pages 0 (npages sz) :=
    Space.pages_congr fun v _ hv => congrArg pte2pa (hsame v (by omega))
  rw [← hgrown2.root, ← hpages]
  refine wp_mono (uvmfree_wp hgrown2.sound (h.data.congr fun v _ hv => hsame v (by omega)) fun v hv => ?_)
    fun _ s' hs' => ⟨hs'.1, ?_⟩
  · have hzero : A2.pte v = 0 := by
      by_cases hvf : v = trapframeVa / pgsize
      · rw [hpte2, hvf, update_self]
      · rw [hpte2, update_of_ne hvf]
        by_cases hvc : v = trampoline / pgsize
        · rw [hpte1, hvc, update_self]
        · rw [hpte1, update_of_ne hvc]
          exact h.none v hv hvc hvf
    rw [hzero]
    rfl
  · exact ((hgrown1.frame.trans hgrown2.frame).mono Set.subset_union_left).trans hs'.2

/-- A root table without entries. -/
def Space.single (r : Nat) (hr : IsPage r) : Space where
  tab l k := if l = 2 ∧ k = 0 then r else 0
  pte _ := 0
  root := by
    rw [if_pos ⟨rfl, rfl⟩]
    exact hr.pos
  top l k h := by
    split at h
    next he => exact .inr he
    next => exact absurd rfl h
  up l k hl h := by
    rw [if_neg (by omega)] at h
    exact absurd rfl h
  bare _ _ := rfl
  page l k h := by
    split at h
    next he =>
      rw [if_pos he]
      exact hr
    next => exact absurd rfl h
  inj l k l' k' h he := by
    split at h
    next h1 =>
      rw [if_pos h1] at he
      split at he
      next h2 => exact ⟨h1.1.trans h2.1.symm, h1.2.trans h2.2.symm⟩
      next => exact absurd he hr.pos
    next => exact absurd rfl h

theorem Space.single_table (hr : IsPage r) : (Space.single r hr).Table p ↔ p = r := by
  constructor
  · rintro ⟨l, k, h0, he⟩
    change (if _ then _ else _) ≠ 0 at h0
    change (if _ then _ else _) = p at he
    split at h0
    next h1 =>
      rw [if_pos h1] at he
      exact he.symm
    next => exact absurd rfl h0
  · rintro rfl
    exact ⟨2, 0, hr.pos, rfl⟩

theorem Space.single_stored (hr : IsPage r) (m : Bytes) : (Space.single r hr).Stored (fill m r 0) := by
  intro l k h0 i hi
  change (if l = 2 ∧ k = 0 then r else 0) ≠ 0 at h0
  split at h0
  next h1 =>
    obtain ⟨rfl, rfl⟩ := h1
    exact le64_fill m r hi
  next => exact absurd rfl h0

theorem Space.single_lack (hr : IsPage r) (hN : ∀ x ∈ N, x.1 < 2) :
    (Space.single r hr).lack N = N.card := by
  refine congrArg Finset.card (Finset.filter_true_of_mem fun x hx => ?_)
  have hlt := hN x hx
  exact if_neg (by omega)

theorem uvmcreate_wp (hfree : Free P s) (hpages : ∀ p ∈ P, IsPage p) :
    wp Never uvmcreate (fun r s' => r = 0 ∧ s' = s ∧ s.freelist = [] ∨ ∃ hr : IsPage r, Sound P s' (Space.single r hr) ∧
      Frame P s.mem s'.mem ∧ s.freelist.length = s'.freelist.length + 1) s := by
  refine wp_seq kalloc_wp fun r s1 hs1 => ?_
  rcases hs1 with ⟨rfl, rfl, hnil⟩ | ⟨rest, hcons, rfl⟩
  · rw [if_pos rfl]
    exact .inl ⟨rfl, rfl, hnil⟩
  · have hin : r ∈ P := (hfree.mem r).mpr (.inl (by rw [hcons]; exact List.mem_cons_self))
    have hr := hpages r hin
    have hone : ({r} : Set Nat) ⊆ P := fun q hq => (Set.mem_singleton_iff.mp hq).symm ▸ hin
    have hfill : Frame {r} s.mem (fill (fill s.mem r 5) r 0) := (fill_frame s.mem hr.1 5).trans (fill_frame _ hr.1 0)
    have hpool : Pool P (r :: rest) fun _ => False := hcons ▸ hfree
    have hheld : Pool (insert r (P \ {r})) rest (Space.single r hr).Table :=
      hpool.take.hold (fun hmem => hmem.2 rfl) fun q => by rw [Space.single_table, or_false]
    rw [Set.insert_sdiff_self_of_mem hin] at hheld
    rw [if_neg hr.pos]
    exact .inr ⟨hr, ⟨Space.single_stored hr _, hheld, hpages⟩, hfill.mono hone, by rw [hcons]; rfl⟩

/-- The tables on the way to the trampoline and the trapframe. -/
def topPaths : Finset (Nat × Nat) := paths (trampoline / pgsize) (trampoline / pgsize + 1)

/-- The tables `N` have not been added, if none of them is on the way to the trampoline. -/
theorem Paid.apart {s1 : St} {A A1 : Space} (h : ∀ N, topPaths ⊆ N → Paid N s A s1 A1) (hN : Disjoint N topPaths) :
    A1.lack N = A.lack N := by
  have hunion : ∀ B : Space, B.lack (N ∪ topPaths) = B.lack N + B.lack topPaths := by
    intro B
    unfold Space.lack
    rw [Finset.filter_union]
    exact Finset.card_union_of_disjoint (Finset.disjoint_filter_filter hN)
  have hboth := h (N ∪ topPaths) Finset.subset_union_right
  have htop := h topPaths (Finset.Subset.refl _)
  unfold Paid at hboth htop
  rw [hunion, hunion] at hboth
  omega

theorem card_keys (n : Nat) (hd : 0 < d) : ((Finset.Ico 0 n).image (· / d)).card = (n + (d - 1)) / d := by
  have hset : (Finset.Ico 0 n).image (· / d) = Finset.range ((n + (d - 1)) / d) := by
    ext k
    simp only [Finset.mem_image, Finset.mem_Ico, Finset.mem_range, Nat.lt_iff_add_one_le, Nat.le_div_iff_mul_le hd,
        Nat.add_one_mul]
    constructor
    · rintro ⟨v, hv, rfl⟩
      have := Nat.div_mul_le_self v d
      omega
    · intro hk
      exact ⟨k * d, ⟨Nat.zero_le _, by omega⟩, Nat.mul_div_cancel k hd⟩
  rw [hset, Finset.card_range]

/-- A table of the lowest level for each 512 pages, and one of the next level for each 2^18. -/
theorem card_paths (n : Nat) : (paths 0 n).card = (n + 511) / 512 + (n + 262143) / 262144 := by
  have hlevel : ∀ l, ((Finset.Ico 0 n).image fun v => (l, node l v)).card = ((Finset.Ico 0 n).image (node l)).card := by
    intro l
    have himage : ((Finset.Ico 0 n).image fun v => (l, node l v)) = ((Finset.Ico 0 n).image (node l)).image (l, ·) :=
      Finset.image_image.symm
    rw [himage]
    exact Finset.card_image_of_injective _ fun a b hab => congrArg Prod.snd hab
  have hapart : Disjoint ((Finset.Ico 0 n).image fun v => (0, node 0 v)) ((Finset.Ico 0 n).image fun v => (1, node 1 v)) := by
    refine Finset.disjoint_left.mpr fun x h0 h1 => ?_
    obtain ⟨v, -, rfl⟩ := Finset.mem_image.mp h0
    obtain ⟨u, -, hu⟩ := Finset.mem_image.mp h1
    exact absurd (congrArg Prod.fst hu) Nat.one_ne_zero
  rw [paths, Finset.card_union_of_disjoint hapart, hlevel, hlevel]
  exact congrArg₂ (· + ·) (card_keys n (by decide)) (card_keys n (by decide))

/-- Memory that the machine can have is far below the trampoline. -/
theorem paths_low {n : Nat} (hn : n ≤ 2 ^ 15 + 2) : (∀ x ∈ paths 0 n, x.1 < 2) ∧ Disjoint (paths 0 n) topPaths := by
  refine ⟨fun x hx => (mem_paths.mp hx).1, Finset.disjoint_left.mpr fun x hx hx' => ?_⟩
  obtain ⟨l, k⟩ := x
  obtain ⟨hl, v, -, hv, rfl⟩ := mem_paths.mp hx
  obtain ⟨-, u, hlo, hhi, he⟩ := mem_paths.mp hx'
  rw [show trampoline / pgsize = 2 ^ 26 - 1 from rfl] at hlo
  obtain rfl | rfl : l = 0 ∨ l = 1 := by omega
  · unfold node at he
    omega
  · unfold node at he
    omega

theorem procPagetable_wp (hfree : Free P s) (hpages : ∀ p ∈ P, IsPage p) (htrap : IsPage trapframe) :
    wp Never (procPagetable trapframe) (fun r s' => Frame P s.mem s'.mem ∧
      (r = 0 ∧ Free P s' ∧ s.freelist.length < 3 ∨ ∃ A, A.tab 2 0 = r ∧ AddrSpace P s' A trapframe 0 ∧
        s.freelist.length = s'.freelist.length + 3 ∧ ∀ N, (∀ x ∈ N, x.1 < 2) → Disjoint N topPaths → A.lack N = N.card)) s := by
  have hcode : trampoline = trampoline / pgsize * pgsize := by decide
  have hframe : trapframeVa = trapframeVa / pgsize * pgsize := by decide
  have hlt : trapframeVa / pgsize ≠ trampoline / pgsize := by decide
  have hbare : ∀ {A1 : Space} {s1}, A1.pte = (fun _ => 0) → Sound P s1 A1 → Frame P s.mem s1.mem →
      wp Never (uvmfree (A1.tab 2 0) 0) (fun _ s' => Free P s' ∧ Frame P s.mem s'.mem) s1 := by
    intro A1 s1 hpte hsound hf
    have hnil : P ∪ A1.pages 0 (npages 0) = P := by
      rw [show npages 0 = 0 from rfl, A1.pages_empty (Nat.le_refl 0), Set.union_empty]
    have hwp : wp Never (uvmfree (A1.tab 2 0) 0) _ s1 := uvmfree_wp hsound (.nil A1 P) fun v _ => by
      rw [hpte]
      exact pteV_zero
    rw [hnil] at hwp
    exact wp_mono hwp fun _ s' hs' => ⟨hs'.1, hf.trans hs'.2⟩
  refine wp_seq (uvmcreate_wp hfree hpages) fun r s1 hs1 => ?_
  rcases hs1 with ⟨rfl, rfl, hnil⟩ | ⟨hr, hsound, hf, hlen⟩
  · rw [if_pos rfl]
    exact ⟨Frame.refl _ _, .inl ⟨rfl, hfree, by rw [hnil]; decide⟩⟩
  · rw [if_neg hr.pos]
    have hroot : (Space.single r hr).tab 2 0 = r := rfl
    have hmap : wp Never (mappages _ (trampoline / pgsize * pgsize) pgsize trampolinePage (pteRBit ||| pteXBit)) _ s1 :=
      mappages_wp hsound (by decide) rfl (by decide) (by decide)
    rw [hroot, ← hcode] at hmap
    refine wp_seq hmap ?_
    rintro ok s2 ⟨A2, hgrown2, hpte2, hpaid2, hshort2⟩
    -- the tables of the two levels below the root
    have hpaid := hpaid2 topPaths (Finset.Subset.refl _)
    rw [Paid, Space.single_lack hr (by decide), show topPaths.card = 2 by decide] at hpaid
    cases ok with
    | false =>
      rw [if_pos (by decide)]
      have hwp := hbare hpte2 hgrown2.sound (hf.trans hgrown2.frame)
      rw [hgrown2.root, hroot] at hwp
      refine wp_seq hwp fun _ s' hs' => ?_
      obtain ⟨hnil, h0⟩ := hshort2 rfl
      have hlack : 0 < A2.lack topPaths := Space.lack_pos (path_mem (Finset.Subset.refl _) (Nat.le_refl _) (by omega) 0
          (by decide)) h0
      rw [hnil, List.length_nil] at hpaid
      exact ⟨hs'.2, .inl ⟨rfl, hs'.1, by omega⟩⟩
    | true =>
      rw [if_neg (by decide)]
      have hnone2 : A2.pte (trapframeVa / pgsize) = 0 := by
        rw [hpte2, if_pos rfl, update_of_ne hlt]
        rfl
      have hmap2 : wp Never (mappages _ (trapframeVa / pgsize * pgsize) pgsize trapframe (pteRBit ||| pteWBit)) _ s2 :=
        mappages_wp hgrown2.sound (by decide) hnone2 (Nat.lt_trans htrap.lt (by decide)) (by decide)
      rw [hgrown2.root, hroot, ← hframe] at hmap2
      refine wp_seq hmap2 ?_
      rintro ok s3 ⟨A3, hgrown3, hpte3, hpaid3, hshort3⟩
      have htab2 : A2.tab 0 (trampoline / pgsize / 512) ≠ 0 := A2.tab_of_pte (by rw [hpte2, if_pos rfl, update_self]; decide)
      have htab3 := hgrown3.tables _ _ htab2
      have hroot3 : A3.tab 2 0 = r := hgrown3.root.trans hgrown2.root
      have hf3 := (hf.trans hgrown2.frame).trans hgrown3.frame
      have hcodeLeaf : Leaf (mkPte trampolinePage (pteRBit ||| pteXBit)) := by decide
      cases ok with
      | false =>
        exact absurd (htab3.symm.trans (hshort3 rfl).2) htab2
      | true =>
        rw [if_neg (by decide)]
        have hmapped : ∀ {B : Space}, B.tab 0 (trampoline / pgsize / 512) ≠ 0 → B.lack topPaths = 0 := fun hB =>
          Space.lack_mapped fun v hlo hhi => by rwa [show v = trampoline / pgsize by omega]
        have hpaths : paths (trapframeVa / pgsize) (trapframeVa / pgsize + 1) = topPaths := by decide
        rw [hpaths] at hpaid3
        have hsame := hpaid3 topPaths (Finset.Subset.refl _)
        rw [Paid, hmapped htab2, hmapped (htab3.symm ▸ htab2)] at hsame
        rw [hmapped htab2] at hpaid
        refine ⟨hf3, .inr ⟨A3, hroot3, ⟨hgrown3.sound, .nil A3 P, ?_, ?_, fun v _ hvc hvf => ?_⟩, by omega,
          fun N hN hdis => ?_⟩⟩
        · rw [hpte3, if_pos rfl, update_of_ne hlt.symm, hpte2, if_pos rfl, update_self]
          exact ⟨hcodeLeaf, by decide, by decide⟩
        · rw [hpte3, if_pos rfl, update_self]
          refine ⟨leaf_mkPte htrap (by decide) (by decide), ?_, pte2pa_mkPte htrap.1 htrap.lt (by decide)⟩
          rw [pteU, testBit_mkPte htrap.1 htrap.lt (by decide) (by decide)]
          rfl
        · rw [hpte3, if_pos rfl, update_of_ne hvf, hpte2, if_pos rfl, update_of_ne hvc]
          rfl
        · rw [Paid.apart hpaid3 hdis, Paid.apart hpaid2 hdis, Space.single_lack hr hN]

end

end Xv6.Vm
