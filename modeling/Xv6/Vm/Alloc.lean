/-
  Xv6.Vm.Alloc — page-table pages and the free list.

  `Sound P s A`: the tree `A` is in memory, and the pages `P` are the free ones and those of its
  tables. A page that is taken from the free list to hold data leaves `P`; what happens to `P`
  does not touch it (`Frame`). The pages that the user part of a page table maps are described
  apart (`Data`): they are different pages outside `P`.

  A table that `walk` adds is paid with a page of the free list, and `walk` fails when there is none
  left: what a call takes is counted by the tables that the tree lacks (`Space.lack`).

  Proved: what `walk`, `mappages`, `uvmunmap`, `freewalk` and `uvmfree` do to the tree and the
  pages, and that they do not panic.
-/

import Mathlib.Data.Finset.Card
import Mathlib.Order.Interval.Finset.Nat
import Xv6.Lib.Pool
import Xv6.Vm.Space

namespace Xv6.Vm

open Xv6.Lib

/-- No panic is tolerated. -/
abbrev Never : Stop → Prop := fun _ => False

structure Sound (P : Set Nat) (s : St) (A : Space) : Prop where
  stored : A.Stored s.mem
  pool : Pool P s.freelist A.Table
  pages : ∀ p ∈ P, IsPage p

section

variable {P Q : Set Nat} {s s' : St} {A : Space} {m : Bytes} {p r v w l k pa perm pte sz : Nat} {rest : List Nat}
  {E : Stop → Prop} {N : Finset (Nat × Nat)}

section

variable (h : Sound P s A)

include h

theorem Sound.table (ht : A.Table p) : p ∈ P := (h.pool.mem p).mpr (.inr ht)

theorem Sound.free (hp : p ∈ s.freelist) : p ∈ P := (h.pool.mem p).mpr (.inl hp)

/-- Something is stored outside the tables. -/
theorem Sound.frame (hf : Frame Q s.mem m) (hQ : ∀ p, A.Table p → p ∉ Q) : Sound P { s with mem := m } A :=
  ⟨h.stored.frame hf hQ, h.pool, h.pages⟩

/-- Page `r` leaves the free list. -/
theorem Sound.take (hfree : s.freelist = r :: rest) (hf : Frame {r} s.mem m) : Sound (P \ {r}) ⟨m, rest⟩ A := by
  have hpool := h.pool
  rw [hfree] at hpool
  have hnot : ¬A.Table r := hpool.apart r List.mem_cons_self
  exact ⟨h.stored.frame hf fun p hp he => hnot (he ▸ hp), hpool.take, fun p hp => h.pages p hp.1⟩

/-- Page `p` joins the free list. -/
theorem Sound.give (hp : p ∉ P) (hpage : IsPage p) (hf : Frame {p} s.mem m) :
    Sound (insert p P) ⟨m, p :: s.freelist⟩ A := by
  refine ⟨h.stored.frame hf fun q hq he => hp (he ▸ h.table hq), h.pool.give hp, fun q hq => ?_⟩
  rcases Set.mem_insert_iff.mp hq with rfl | hq
  · exact hpage
  · exact h.pages q hq

/-- A PTE changes. -/
theorem Sound.setPte (h0 : A.tab 0 (v / 512) ≠ 0) (hw : w < 2 ^ 64) :
    Sound P { s with mem := put64 s.mem (A.slot v) w } (A.setPte v w h0) := by
  have hstored := h.stored.setPte h0 hw
  have hslot : A.slot v = A.tab 0 (v / 512) + 8 * (v % 512) := if_neg h0
  rw [hslot]
  exact ⟨hstored, h.pool, h.pages⟩

theorem Sound.slot_frame (h0 : A.tab 0 (v / 512) ≠ 0) (w : Nat) : Frame P s.mem (put64 s.mem (A.slot v) w) := by
  have hslot : A.slot v = A.tab 0 (v / 512) + 8 * (v % 512) := if_neg h0
  rw [hslot]
  refine (put64_frame _ (A.page _ _ h0).1 (Nat.mod_lt v (by decide)) w).mono fun q hq => ?_
  rw [Set.mem_singleton_iff.mp hq]
  exact h.table ⟨_, _, h0, rfl⟩

end

/-! ## kalloc and kfree -/

theorem kalloc_wp : wp E kalloc (fun r s1 => r = 0 ∧ s1 = s ∧ s.freelist = [] ∨
    ∃ rest, s.freelist = r :: rest ∧ s1 = ⟨fill s.mem r 5, rest⟩) s := by
  obtain ⟨m, free⟩ := s
  cases free with
  | nil => exact .inl ⟨rfl, rfl, rfl⟩
  | cons r rest => exact .inr ⟨rest, rfl, rfl⟩

theorem kfree_wp (hp : IsPage p) :
    wp E (kfree p) (fun _ s1 => s1 = ⟨put64 (fill s.mem p 1) p (s.freelist.headD 0), p :: s.freelist⟩) s := by
  have hok : ¬(p % pgsize ≠ 0 ∨ p < kernelEnd ∨ physTop ≤ p) := by
    have := hp.1
    have := hp.2
    omega
  unfold kfree
  rw [if_neg hok]
  rfl

/-- What `kfree` leaves in the page is in the page. -/
theorem kfree_frame (m : Bytes) (hp : IsPage p) (w : Nat) : Frame {p} m (put64 (fill m p 1) p w) :=
  (fill_frame m hp.1 1).trans (put64_frame (i := 0) _ hp.1 (by decide) w)

theorem memsetPage_wp {b : UInt8} : wp E (memsetPage p b) (fun _ s1 => s1 = { s with mem := fill s.mem p b }) s := rfl

/-! ## Tables that are missing -/

/-- The tables on the way to the pages `lo .. hi`, by level and key. -/
def paths (lo hi : Nat) : Finset (Nat × Nat) :=
  (Finset.Ico lo hi).image (fun v => (0, node 0 v)) ∪ (Finset.Ico lo hi).image fun v => (1, node 1 v)

/-- How many of the tables `N` the tree does not have. -/
def Space.lack (A : Space) (N : Finset (Nat × Nat)) : Nat := (N.filter fun x => A.tab x.1 x.2 = 0).card

section

variable {lo hi : Nat} {N : Finset (Nat × Nat)} {A' : Space}

theorem mem_paths : (l, k) ∈ paths lo hi ↔ l < 2 ∧ ∃ v, lo ≤ v ∧ v < hi ∧ node l v = k := by
  simp only [paths, Finset.mem_union, Finset.mem_image, Finset.mem_Ico, Prod.mk.injEq]
  constructor
  · rintro (⟨v, hv, rfl, rfl⟩ | ⟨v, hv, rfl, rfl⟩)
    · exact ⟨by decide, v, hv.1, hv.2, rfl⟩
    · exact ⟨by decide, v, hv.1, hv.2, rfl⟩
  · rintro ⟨hl, v, hlo, hhi, rfl⟩
    obtain rfl | rfl : l = 0 ∨ l = 1 := by omega
    · exact .inl ⟨v, ⟨hlo, hhi⟩, rfl, rfl⟩
    · exact .inr ⟨v, ⟨hlo, hhi⟩, rfl, rfl⟩

theorem path_mem (hN : paths lo hi ⊆ N) (hlo : lo ≤ v) (hhi : v < hi) : ∀ i < 2, (i, node i v) ∈ N :=
  fun _ hi => hN (mem_paths.mpr ⟨hi, v, hlo, hhi, rfl⟩)

theorem paths_mono (h : lo ≤ v) (h' : w ≤ hi) : paths v w ⊆ paths lo hi := by
  intro x hx
  obtain ⟨hl, u, hlo, hhi, he⟩ := mem_paths.mp hx
  exact mem_paths.mpr ⟨hl, u, by omega, by omega, he⟩

/-- One of the tables has been added. -/
theorem Space.lack_succ (hin : (l, k) ∈ N) (hnone : A.tab l k = 0)
    (htab : ∀ i j, A'.tab i j = 0 ↔ A.tab i j = 0 ∧ (i, j) ≠ (l, k)) : A'.lack N + 1 = A.lack N := by
  have hset : (N.filter fun x => A'.tab x.1 x.2 = 0) = (N.filter fun x => A.tab x.1 x.2 = 0).erase (l, k) := by
    ext ⟨i, j⟩
    simp only [Finset.mem_filter, Finset.mem_erase, htab]
    tauto
  rw [Space.lack, hset]
  exact Finset.card_erase_add_one (Finset.mem_filter.mpr ⟨hin, hnone⟩)

theorem Space.lack_pos (hin : (l, k) ∈ N) (hnone : A.tab l k = 0) : 0 < A.lack N :=
  Finset.card_pos.mpr ⟨(l, k), Finset.mem_filter.mpr ⟨hin, hnone⟩⟩

theorem Space.lack_le (A : Space) (N : Finset (Nat × Nat)) : A.lack N ≤ N.card := Finset.card_filter_le _ _

/-- A mapped page has its tables. -/
theorem Space.lack_mapped (h : ∀ v, lo ≤ v → v < hi → A.tab 0 (v / 512) ≠ 0) : A.lack (paths lo hi) = 0 := by
  refine Finset.card_eq_zero.mpr (Finset.filter_eq_empty_iff.mpr fun x hx => ?_)
  obtain ⟨l, k⟩ := x
  obtain ⟨hl, v, hlo, hhi, rfl⟩ := mem_paths.mp hx
  exact fun h0 => h v hlo hhi (A.none_below (by omega) h0)

end

/-- The tables that are new among `N` are paid from the free list. -/
def Paid (N : Finset (Nat × Nat)) (s : St) (A : Space) (s' : St) (A' : Space) : Prop :=
  s.freelist.length + A'.lack N = s'.freelist.length + A.lack N

theorem Paid.trans {s1 : St} {A1 A' : Space} (h : Paid N s A s1 A1) (h' : Paid N s1 A1 s' A') :
    Paid N s A s' A' := by
  unfold Paid at *
  omega

/-! ## walk -/

/-- The tables of `A` are in the same places of the tree `A'`. -/
def Space.Within (A A' : Space) : Prop := ∀ l k, A.tab l k ≠ 0 → A'.tab l k = A.tab l k

theorem Space.Within.table {A A' : Space} (h : A.Within A') : ∀ p, A.Table p → A'.Table p := by
  rintro p ⟨l, k, h0, rfl⟩
  exact ⟨l, k, (h l k h0).symm ▸ h0, h l k h0⟩

theorem Space.Within.trans {A A1 A' : Space} (h : A.Within A1) (h' : A1.Within A') : A.Within A' := by
  intro l k h0
  have h1 := h l k h0
  rw [h' l k (h1.symm ▸ h0), h1]

/-- Tables may have been added to the tree. -/
structure Grown (P : Set Nat) (s : St) (A : Space) (s' : St) (A' : Space) : Prop where
  sound : Sound P s' A'
  frame : Frame P s.mem s'.mem
  root : A'.tab 2 0 = A.tab 2 0
  tables : A.Within A'
  free : s'.freelist.length ≤ s.freelist.length

theorem Grown.refl (h : Sound P s A) : Grown P s A s A := ⟨h, Frame.refl P s.mem, rfl, fun _ _ _ => rfl, Nat.le_refl _⟩

theorem Grown.trans {s1 : St} {A1 A' : Space} (h : Grown P s A s1 A1) (h' : Grown P s1 A1 s' A') : Grown P s A s' A' :=
  ⟨h'.sound, h.frame.trans h'.frame, h'.root.trans h.root, h.tables.trans h'.tables, Nat.le_trans h'.free h.free⟩

/-- `kalloc`, `memset` and the store of the new PTE. -/
theorem Sound.grow (h : Sound P s A) (hfree : s.freelist = r :: rest) (hl : l < 2) (hup : A.tab (l + 1) (k / 512) ≠ 0)
    (hnone : A.tab l k = 0) : ∃ hr hnew, Grown P s A
      ⟨put64 (fill (fill s.mem r 5) r 0) (A.tab (l + 1) (k / 512) + 8 * (k % 512)) (link r), rest⟩
      (A.grow l k r hl hup hr hnew) := by
  have hpool := h.pool
  rw [hfree] at hpool
  have hin : r ∈ P := h.free (by rw [hfree]; exact List.mem_cons_self)
  have hr : IsPage r := h.pages r hin
  have hnew : ¬A.Table r := hpool.apart r List.mem_cons_self
  have hfill : Frame {r} s.mem (fill (fill s.mem r 5) r 0) := (fill_frame s.mem hr.1 5).trans (fill_frame _ hr.1 0)
  have hone : ∀ {q}, q ∈ P → ({q} : Set Nat) ⊆ P := fun {q} hq x hx => (Set.mem_singleton_iff.mp hx).symm ▸ hq
  refine ⟨hr, hnew, ⟨?_, ?_, ?_⟩, ?_, if_neg (by omega), fun l' k' h0 => if_neg ?_, by rw [hfree]; exact Nat.le_succ _⟩
  · exact (h.stored.frame hfill fun p hp he => hnew (he ▸ hp)).grow hnone fun i hi => le64_fill _ r hi
  · have hins : insert r (P \ {r}) = P := Set.insert_sdiff_self_of_mem hin
    have hheld : Pool (insert r (P \ {r})) rest (A.grow l k r hl hup hr hnew).Table :=
      hpool.take.hold (fun hmem => hmem.2 rfl) (Space.grow_table hnone)
    rwa [hins] at hheld
  · exact h.pages
  · refine (hfill.mono (hone hin)).trans ((put64_frame _ (A.page _ _ hup).1 (Nat.mod_lt k (by decide)) _).mono ?_)
    exact hone (h.table ⟨_, _, hup, rfl⟩)
  · rintro ⟨rfl, rfl⟩
    exact h0 hnone

theorem Sound.grow_paid (hfree : s.freelist = r :: rest) (hl : l < 2) (hup : A.tab (l + 1) (k / 512) ≠ 0) (hnone : A.tab l k = 0)
    (hr : IsPage r) (hnew : ¬A.Table r) (hin : (l, k) ∈ N) :
    Paid N s A ⟨m, rest⟩ (A.grow l k r hl hup hr hnew) := by
  have hlack : (A.grow l k r hl hup hr hnew).lack N + 1 = A.lack N := by
    refine Space.lack_succ hin hnone fun i j => ?_
    change (if i = l ∧ j = k then r else A.tab i j) = 0 ↔ _
    rw [Ne, Prod.mk.injEq]
    split
    next he => exact iff_of_false hr.pos fun h => h.2 he
    next he => exact (and_iff_left he).symm
  rw [Paid, hfree, List.length_cons]
  dsimp only
  omega

/-- The loop of `walk`, allocating. -/
theorem walkFrom_wp {va : Nat} (h : Sound P s A) (hl : l ≤ 2) (h0 : A.tab l (node l (va / pgsize)) ≠ 0) :
    wp Never (walkFrom va true l (A.tab l (node l (va / pgsize)))) (fun r s' => ∃ A', Grown P s A s' A' ∧ A'.pte = A.pte ∧
      (∀ N, (∀ i < 2, (i, node i (va / pgsize)) ∈ N) → Paid N s A s' A') ∧
      (r = 0 ∧ s'.freelist = [] ∧ A'.tab 0 (va / pgsize / 512) = 0 ∨
        A'.tab 0 (va / pgsize / 512) ≠ 0 ∧ r = A'.slot (va / pgsize))) s := by
  induction l generalizing s A with
  | zero =>
    rw [node_zero] at h0
    refine ⟨A, .refl h, rfl, fun _ _ => rfl, .inr ⟨h0, ?_⟩⟩
    rw [Space.slot, if_neg h0, slotAt, px_zero]
    rfl
  | succ l ih =>
    rw [walkFrom]
    change wp Never (if pteV (le64 s.mem (slotAt (A.tab (l + 1) (node (l + 1) (va / pgsize))) (l + 1) va)) then _ else _) _ s
    rw [h.stored.link h0]
    by_cases hnone : A.tab l (node l (va / pgsize)) = 0
    · rw [hnone, link_zero, pteV_zero, if_neg Bool.false_ne_true, if_neg (by decide)]
      refine wp_seq kalloc_wp fun r s1 hs1 => ?_
      rcases hs1 with ⟨rfl, rfl, hnil⟩ | ⟨rest, hfree, rfl⟩
      · rw [if_pos rfl]
        exact ⟨A, .refl h, rfl, fun _ _ => rfl, .inl ⟨rfl, hnil, A.none_below (by omega) hnone⟩⟩
      · have hup : A.tab (l + 1) (node l (va / pgsize) / 512) ≠ 0 := by rwa [← node_succ]
        obtain ⟨hr, hnew, hgrown⟩ := h.grow hfree (show l < 2 by omega) hup hnone
        rw [if_neg hr.pos]
        have hself : (A.grow l _ r (by omega) hup hr hnew).tab l (node l (va / pgsize)) = r := if_pos ⟨rfl, rfl⟩
        have hrest := ih hgrown.sound (by omega) (by rw [hself]; exact hr.pos)
        rw [hself] at hrest
        have hslot : slotAt (A.tab (l + 1) (node (l + 1) (va / pgsize))) (l + 1) va =
            A.tab (l + 1) (node l (va / pgsize) / 512) + 8 * (node l (va / pgsize) % 512) := by
          rw [slotAt, px_eq, node_succ]
        change wp Never (walkFrom va true l r) _ ⟨put64 (fill (fill s.mem r 5) r 0) (slotAt _ (l + 1) va) _, rest⟩
        rw [hslot, ← link_of_ne hr.pos]
        refine wp_mono hrest ?_
        rintro r' s' ⟨A', hg, hpte, hpaid, hres⟩
        refine ⟨A', hgrown.trans hg, hpte, fun N hN => ?_, hres⟩
        exact (Sound.grow_paid hfree _ hup hnone hr hnew (hN l (by omega))).trans (hpaid N hN)
    · obtain ⟨hv, hleaf, hpa⟩ := (A.page _ _ hnone).link
      rw [hv, hleaf, hpa, if_pos rfl, if_neg Bool.false_ne_true]
      exact ih h (by omega) hnone

theorem page_va (v : Nat) : v * pgsize / pgsize = v := Nat.mul_div_cancel v (by decide)

theorem va_lt (hv : v < 2 ^ 26) : v * pgsize < maxva := by
  unfold maxva pgsize
  omega

theorem walk_wp (h : Sound P s A) (hv : v < 2 ^ 26) :
    wp Never (walk (A.tab 2 0) (v * pgsize) true) (fun r s' => ∃ A', Grown P s A s' A' ∧ A'.pte = A.pte ∧
      (∀ N, (∀ i < 2, (i, node i v) ∈ N) → Paid N s A s' A') ∧
      (r = 0 ∧ s'.freelist = [] ∧ A'.tab 0 (v / 512) = 0 ∨ A'.tab 0 (v / 512) ≠ 0 ∧ r = A'.slot v)) s := by
  have hkey : node 2 v = 0 := node_two (Nat.lt_trans hv (by decide))
  have hroot : A.tab 2 (node 2 (v * pgsize / pgsize)) ≠ 0 := by
    rw [page_va, hkey]
    exact A.root
  have hwalk := walkFrom_wp h (Nat.le_refl 2) hroot
  rw [page_va, hkey] at hwalk
  unfold walk
  rw [if_neg (Nat.not_le.mpr (va_lt hv))]
  exact hwalk

/-- `walk` without allocation. -/
theorem walk_finds (h : A.Stored s.mem) (hv : v < 2 ^ 26) : walk (A.tab 2 0) (v * pgsize) false s = .ok (A.slot v, s) := by
  rw [walk_lookup (va_lt hv), h.entry (va_lt hv), page_va]

theorem Space.tab_of_pte (A : Space) (h : A.pte v ≠ 0) : A.tab 0 (v / 512) ≠ 0 := fun h0 => h (A.bare v h0)

theorem Space.Stored.slot (h : A.Stored m) (h0 : A.tab 0 (v / 512) ≠ 0) : le64 m (A.slot v) = A.pte v := by
  rw [Space.slot, if_neg h0, h.pte h0]

/-! ## mappages -/

theorem mkPte_word (hperm : perm < 1024) : mkPte pa perm < 2 ^ 64 := by
  have hpa : pa2pte pa < 2 ^ 64 := Nat.mod_lt _ (by decide)
  exact Nat.or_lt_two_pow (Nat.or_lt_two_pow hpa (by omega)) (by decide)

/-- One round of `mappages`: there was no memory for a table, or page `v` is mapped and the loop goes on. -/
theorem mapFrom_step {last fuel : Nat} {Q : Bool → St → Prop} (h : Sound P s A) (hv : v < 2 ^ 26)
    (hnone : pteV (A.pte v) = false) (hperm : perm < 1024) (hfail : ∀ s1 A1, Grown P s A s1 A1 → A1.pte = A.pte →
      (∀ N, (∀ i < 2, (i, node i v) ∈ N) → Paid N s A s1 A1) → s1.freelist = [] → A1.tab 0 (v / 512) = 0 → Q false s1)
    (hnext : ∀ s1 A1, Grown P s A s1 A1 → A1.pte = update A.pte v (mkPte pa perm) →
      (∀ N, (∀ i < 2, (i, node i v) ∈ N) → Paid N s A s1 A1) → wp Never
      (if v * pgsize = last then pure true else mapFrom (A.tab 2 0) perm last fuel ((v * pgsize + pgsize) % 2 ^ 64)
      ((pa + pgsize) % 2 ^ 64)) Q s1) :
    wp Never (mapFrom (A.tab 2 0) perm last (fuel + 1) (v * pgsize) pa) Q s := by
  rw [mapFrom]
  refine wp_seq (walk_wp h hv) ?_
  rintro r s1 ⟨A1, hgrown, hpte, hpaid, ⟨rfl, hnil, hbare⟩ | ⟨h0, rfl⟩⟩
  · rw [if_pos rfl]
    exact hfail s1 A1 hgrown hpte hpaid hnil hbare
  · rw [if_neg (A1.slot_ne_zero h0)]
    change wp Never (if pteV (le64 s1.mem (A1.slot v)) then _ else _) _ s1
    rw [hgrown.sound.stored.slot h0, hpte, hnone, if_neg Bool.false_ne_true]
    refine hnext _ (A1.setPte v (mkPte pa perm) h0) ⟨hgrown.sound.setPte h0 (mkPte_word hperm),
      hgrown.frame.trans (hgrown.sound.slot_frame h0 _), hgrown.root, hgrown.tables, hgrown.free⟩ ?_ hpaid
    rw [← hpte]
    rfl

/-- The loop of `mappages` with `n + 1` pages to go: all of them are mapped, or there was no memory for a table and
the first `c` are. -/
theorem mapFrom_wp {n : Nat} (h : Sound P s A) (hv : v + n < 2 ^ 26) (hnone : ∀ u, v ≤ u → u ≤ v + n → pteV (A.pte u) = false)
    (hpa : pa < 2 ^ 64) (hperm : perm < 1024) :
    wp Never (mapFrom (A.tab 2 0) perm ((v + n) * pgsize) (n + 1) (v * pgsize) pa) (fun ok s' => ∃ A' c, Grown P s A s' A' ∧
      (if ok then c = n + 1 else c ≤ n ∧ s'.freelist = [] ∧ A'.tab 0 ((v + c) / 512) = 0) ∧
      (∀ N, paths v (v + n + 1) ⊆ N → Paid N s A s' A') ∧
      ∀ u, A'.pte u = if v ≤ u ∧ u < v + c then mkPte ((pa + (u - v) * pgsize) % 2 ^ 64) perm else A.pte u) s := by
  induction n generalizing s A v pa with
  | zero =>
    refine mapFrom_step h hv (hnone v (Nat.le_refl v) (Nat.le_refl v)) hperm (fun s1 A1 hgrown hpte hpaid hnil hbare => ?_)
      fun s1 A1 hgrown hpte hpaid => ?_
    · refine ⟨A1, 0, hgrown, ?_, fun N hN => hpaid N (path_mem hN (Nat.le_refl v) (by omega)), fun u => ?_⟩
      · rw [if_neg Bool.false_ne_true]
        exact ⟨Nat.le_refl 0, hnil, hbare⟩
      · rw [if_neg (by omega), hpte]
    · rw [Nat.add_zero, if_pos rfl]
      refine ⟨A1, 1, hgrown, rfl, fun N hN => hpaid N (path_mem hN (Nat.le_refl v) (by omega)), fun u => ?_⟩
      rw [hpte]
      by_cases hu : u = v
      · rw [if_pos (by omega), hu, update_self, Nat.sub_self, Nat.zero_mul, Nat.add_zero, Nat.mod_eq_of_lt hpa]
      · rw [if_neg (by omega), update_of_ne hu]
  | succ n ih =>
    refine mapFrom_step h (by omega) (hnone v (Nat.le_refl v) (by omega)) hperm (fun s1 A1 hgrown hpte hpaid hnil hbare => ?_)
      fun s1 A1 hgrown hpte hpaid => ?_
    · refine ⟨A1, 0, hgrown, ?_, fun N hN => hpaid N (path_mem hN (Nat.le_refl v) (by omega)), fun u => ?_⟩
      · rw [if_neg Bool.false_ne_true]
        exact ⟨Nat.zero_le _, hnil, hbare⟩
      · rw [if_neg (by omega), hpte]
    · have hmore : ¬v * pgsize = (v + (n + 1)) * pgsize := by
        unfold pgsize
        omega
      have hnext : (v * pgsize + pgsize) % 2 ^ 64 = (v + 1) * pgsize := by
        unfold pgsize
        omega
      have hfree : ∀ u, v + 1 ≤ u → u ≤ v + 1 + n → pteV (A1.pte u) = false := by
        intro u hu hle
        rw [hpte, update_of_ne (by omega)]
        exact hnone u (by omega) (by omega)
      rw [if_neg hmore, hnext, show v + (n + 1) = v + 1 + n by omega, ← hgrown.root]
      refine wp_mono (ih hgrown.sound (by omega) hfree (Nat.mod_lt (pa + pgsize) (by decide))) ?_
      rintro ok s' ⟨A', c, hgrown', hc, hpaid', hpte'⟩
      refine ⟨A', c + 1, hgrown.trans hgrown', ?_, fun N hN => ?_, fun u => ?_⟩
      · cases ok with
        | true =>
          have hc : c = n + 1 := hc
          rw [if_pos rfl, hc]
        | false =>
          obtain ⟨hle, hnil, hbare⟩ : c ≤ n ∧ s'.freelist = [] ∧ A'.tab 0 ((v + 1 + c) / 512) = 0 := hc
          rw [if_neg Bool.false_ne_true, show v + (c + 1) = v + 1 + c by omega]
          exact ⟨by omega, hnil, hbare⟩
      · have hrest : paths (v + 1) (v + 1 + n + 1) ⊆ N := (paths_mono (by omega) (by omega)).trans hN
        exact (hpaid N (path_mem hN (Nat.le_refl v) (by omega))).trans (hpaid' N hrest)
      · rw [hpte' u, hpte]
        by_cases hu : u = v
        · rw [if_neg (by omega), if_pos (by omega), hu, update_self, Nat.sub_self, Nat.zero_mul, Nat.add_zero,
              Nat.mod_eq_of_lt hpa]
        · rw [update_of_ne hu]
          by_cases hin : v + 1 ≤ u ∧ u < v + 1 + c
          · have hshift : pa + (u - v) * pgsize = pa + pgsize + (u - (v + 1)) * pgsize := by
              rw [show u - v = u - (v + 1) + 1 by omega, Nat.succ_mul]
              omega
            rw [if_pos hin, if_pos (by omega), hshift, Nat.mod_add_mod]
          · rw [if_neg hin, if_neg (by omega)]

/-- `mappages` of one page: the page is mapped, or there was no memory for a table. -/
theorem mappages_wp (h : Sound P s A) (hv : v < 2 ^ 26) (hnone : A.pte v = 0) (hpa : pa < 2 ^ 64) (hperm : perm < 1024) :
    wp Never (mappages (A.tab 2 0) (v * pgsize) pgsize pa perm) (fun ok s' => ∃ A', Grown P s A s' A' ∧
      A'.pte = (if ok then update A.pte v (mkPte pa perm) else A.pte) ∧ (∀ N, paths v (v + 1) ⊆ N → Paid N s A s' A') ∧
      (ok = false → s'.freelist = [] ∧ A'.tab 0 (v / 512) = 0)) s := by
  have halign : ¬v * pgsize % pgsize ≠ 0 := not_not.mpr (Nat.mul_mod_left v pgsize)
  have hlast : (v * pgsize + pgsize - pgsize) % 2 ^ 64 = v * pgsize := by
    unfold pgsize
    omega
  unfold mappages
  rw [if_neg halign, if_neg (by decide), if_neg (by decide), hlast, show pgsize / pgsize = 0 + 1 from rfl]
  have hfree : ∀ u, v ≤ u → u ≤ v + 0 → pteV (A.pte u) = false := by
    intro u hu hle
    obtain rfl : u = v := by omega
    rw [hnone]
    rfl
  refine wp_mono (mapFrom_wp (n := 0) h (by omega) hfree hpa hperm) ?_
  rintro ok s' ⟨A', c, hgrown, hc, hpaid, hpte⟩
  refine ⟨A', hgrown, funext fun u => ?_, hpaid, ?_⟩
  swap
  · rintro rfl
    obtain ⟨hle, hnil, hbare⟩ : c ≤ 0 ∧ s'.freelist = [] ∧ A'.tab 0 ((v + c) / 512) = 0 := hc
    rw [Nat.le_zero.mp hle] at hbare
    exact ⟨hnil, hbare⟩
  rw [hpte u]
  cases ok with
  | true =>
    obtain rfl : c = 0 + 1 := hc
    rw [if_pos rfl]
    by_cases hu : u = v
    · rw [if_pos (by omega), hu, update_self, Nat.sub_self, Nat.zero_mul, Nat.add_zero, Nat.mod_eq_of_lt hpa]
    · rw [if_neg (by omega), update_of_ne hu]
  | false =>
    have hc : c ≤ 0 := hc.1
    rw [if_neg Bool.false_ne_true, if_neg (by omega)]

/-! ## uvmunmap -/

/-- A PTE that maps a page. -/
def Leaf (pte : Nat) : Prop := pteV pte = true ∧ pteLeaf pte = true

instance (pte : Nat) : Decidable (Leaf pte) := inferInstanceAs (Decidable (_ ∧ _))

theorem Leaf.ne_zero (h : Leaf pte) : pte ≠ 0 := by
  rintro rfl
  cases h.1

theorem Leaf.flags (h : Leaf pte) : pteFlags pte ≠ 1 := by
  intro h1
  have hleaf := h.2
  unfold pteLeaf at hleaf
  rw [← testBit_pteFlags pte (j := 1) (by decide), ← testBit_pteFlags pte (j := 2) (by decide),
    ← testBit_pteFlags pte (j := 3) (by decide), h1] at hleaf
  cases hleaf

/-- The PTE of page `v` is cleared and nothing is freed. -/
theorem unmapPage_wp (h : Sound P s A) (hv : v < 2 ^ 26) (hleaf : Leaf (A.pte v)) :
    wp Never (unmapPage (A.tab 2 0) false (v * pgsize)) (fun _ s' => ∃ A', Grown P s A s' A' ∧ A'.pte = update A.pte v 0 ∧
      s'.freelist = s.freelist) s := by
  have h0 := A.tab_of_pte hleaf.ne_zero
  unfold unmapPage
  rw [wp, run_bind_ok (walk_finds h.stored hv), if_neg (A.slot_ne_zero h0)]
  change wp Never (if !pteV (le64 s.mem (A.slot v)) then _ else if pteFlags (le64 s.mem (A.slot v)) = 1 then _ else _) _ s
  rw [h.stored.slot h0, hleaf.1, if_neg (by decide), if_neg hleaf.flags]
  exact ⟨A.setPte v 0 h0, ⟨h.setPte h0 (by decide), h.slot_frame h0 0, rfl, fun _ _ _ => rfl, Nat.le_refl _⟩, rfl, rfl⟩

/-- The PTE of page `v` is cleared and its page is freed. -/
theorem unmapPage_free_wp (h : Sound P s A) (hv : v < 2 ^ 26) (hleaf : Leaf (A.pte v)) (hpage : IsPage (A.pa v))
    (hout : A.pa v ∉ P) :
    wp Never (unmapPage (A.tab 2 0) true (v * pgsize)) (fun _ s' => ∃ A', Sound (insert (A.pa v) P) s' A' ∧
      Frame (insert (A.pa v) P) s.mem s'.mem ∧ A'.tab = A.tab ∧ A'.pte = update A.pte v 0) s := by
  have h0 := A.tab_of_pte hleaf.ne_zero
  unfold unmapPage
  rw [wp, run_bind_ok (walk_finds h.stored hv), if_neg (A.slot_ne_zero h0)]
  change wp Never (if !pteV (le64 s.mem (A.slot v)) then _ else if pteFlags (le64 s.mem (A.slot v)) = 1 then _ else _) _ s
  rw [h.stored.slot h0, hleaf.1, if_neg (by decide), if_neg hleaf.flags]
  refine wp_seq (kfree_wp hpage) fun _ s1 hs1 => ?_
  subst hs1
  have hframe := kfree_frame s.mem hpage (s.freelist.headD 0)
  have hgive := h.give hout hpage hframe
  have hone : ({A.pa v} : Set Nat) ⊆ insert (A.pa v) P := fun q hq => Set.mem_insert_iff.mpr (.inl hq)
  exact ⟨A.setPte v 0 h0, hgive.setPte h0 (by decide), (hframe.mono hone).trans (hgive.slot_frame h0 0), rfl, rfl⟩

/-- The physical pages of the pages `lo .. hi`. -/
def Space.pages (A : Space) (lo hi : Nat) : Set Nat := {p | ∃ v, lo ≤ v ∧ v < hi ∧ A.pa v = p}

/-- The pages `lo .. hi` are mapped to different physical pages outside `P`. -/
structure Data (A : Space) (P : Set Nat) (lo hi : Nat) : Prop where
  leaf : ∀ v, lo ≤ v → v < hi → Leaf (A.pte v)
  page : ∀ v, lo ≤ v → v < hi → IsPage (A.pa v)
  out : ∀ v, lo ≤ v → v < hi → A.pa v ∉ P
  inj : ∀ v u, lo ≤ v → v < hi → lo ≤ u → u < hi → A.pa v = A.pa u → v = u

theorem Data.nil (A : Space) (P : Set Nat) : Data A P 0 0 where
  leaf _ _ h := absurd h (Nat.not_lt_zero _)
  page _ _ h := absurd h (Nat.not_lt_zero _)
  out _ _ h := absurd h (Nat.not_lt_zero _)
  inj _ _ _ h := absurd h (Nat.not_lt_zero _)

/-- What `uvmunmap` does to the pages `lo .. hi`. -/
structure Unmapped (P : Set Nat) (lo hi : Nat) (s : St) (A : Space) (s' : St) (A' : Space) : Prop where
  sound : Sound (P ∪ A.pages lo hi) s' A'
  frame : Frame (P ∪ A.pages lo hi) s.mem s'.mem
  tab : A'.tab = A.tab
  pte : ∀ u, A'.pte u = if lo ≤ u ∧ u < hi then 0 else A.pte u

variable {lo hi n : Nat} {A' A1 : Space} {s1 : St}

theorem Unmapped.table (h : Unmapped P lo hi s A s' A') : A'.Table = A.Table := by
  unfold Space.Table
  rw [h.tab]

theorem Space.pages_empty (A : Space) (h : hi ≤ lo) : A.pages lo hi = ∅ :=
  Set.eq_empty_of_forall_notMem fun _ ⟨_, _, _, _⟩ => by omega

theorem Space.pages_congr (h : ∀ v, lo ≤ v → v < hi → A'.pa v = A.pa v) : A'.pages lo hi = A.pages lo hi := by
  ext p
  constructor
  · rintro ⟨v, hlo, hhi, rfl⟩
    exact ⟨v, hlo, hhi, (h v hlo hhi).symm⟩
  · rintro ⟨v, hlo, hhi, rfl⟩
    exact ⟨v, hlo, hhi, h v hlo hhi⟩

theorem Space.pages_cons (A : Space) (h : lo < hi) (P : Set Nat) :
    insert (A.pa lo) P ∪ A.pages (lo + 1) hi = P ∪ A.pages lo hi := by
  ext p
  simp only [Set.mem_union, Set.mem_insert_iff]
  constructor
  · rintro ((rfl | hp) | ⟨v, hlo, hhi, rfl⟩)
    · exact .inr ⟨lo, Nat.le_refl lo, h, rfl⟩
    · exact .inl hp
    · exact .inr ⟨v, Nat.le_of_succ_le hlo, hhi, rfl⟩
  · rintro (hp | ⟨v, hlo, hhi, rfl⟩)
    · exact .inl (.inr hp)
    · by_cases hv : v = lo
      · exact .inl (.inl (by rw [hv]))
      · exact .inr ⟨v, by omega, hhi, rfl⟩

/-- After page `lo` is freed. -/
theorem Data.tail (h : Data A P lo hi) (hlt : lo < hi) (hpte : A1.pte = update A.pte lo 0) :
    Data A1 (insert (A.pa lo) P) (lo + 1) hi := by
  have hsame : ∀ v, lo + 1 ≤ v → A1.pte v = A.pte v := by
    intro v hv
    rw [hpte, update_of_ne (by omega)]
  have hpa : ∀ v, lo + 1 ≤ v → A1.pa v = A.pa v := fun v hv => congrArg pte2pa (hsame v hv)
  refine ⟨fun v hv hhi => ?_, fun v hv hhi => ?_, fun v hv hhi hin => ?_, fun v u hv hhi hu huhi he => ?_⟩
  · rw [hsame v hv]
    exact h.leaf v (by omega) hhi
  · rw [hpa v hv]
    exact h.page v (by omega) hhi
  · rw [hpa v hv] at hin
    rcases Set.mem_insert_iff.mp hin with he | hin
    · have := h.inj v lo (by omega) hhi (Nat.le_refl lo) hlt he
      omega
    · exact h.out v (by omega) hhi hin
  · rw [hpa v hv, hpa u hu] at he
    exact h.inj v u (by omega) hhi (by omega) huhi he

theorem unmapFrom_wp (h : Sound P s A) (hdata : Data A P lo (lo + n)) (hbound : lo + n ≤ 2 ^ 26) :
    wp Never (unmapFrom (A.tab 2 0) true ((lo + n) * pgsize) n (lo * pgsize))
      (fun _ s' => ∃ A', Unmapped P lo (lo + n) s A s' A') s := by
  induction n generalizing lo s A P with
  | zero =>
    refine ⟨A, ?_, ?_, rfl, fun u => (if_neg (by omega)).symm⟩
    · rw [Nat.add_zero, A.pages_empty (Nat.le_refl _), Set.union_empty]
      exact h
    · exact Frame.refl _ _
  | succ n ih =>
    have hlt : lo < lo + (n + 1) := by omega
    have hstop : lo * pgsize < (lo + (n + 1)) * pgsize := Nat.mul_lt_mul_of_pos_right hlt (by decide)
    have hnext : (lo * pgsize + pgsize) % 2 ^ 64 = (lo + 1) * pgsize := by
      unfold pgsize
      omega
    have hend : lo + 1 + n = lo + (n + 1) := by omega
    rw [unmapFrom, if_pos hstop, hnext]
    refine wp_seq (unmapPage_free_wp h (by omega) (hdata.leaf lo (Nat.le_refl _) hlt) (hdata.page lo (Nat.le_refl _) hlt)
      (hdata.out lo (Nat.le_refl _) hlt)) fun _ s1 hs1 => ?_
    obtain ⟨A1, hsound, hframe, htab, hpte⟩ := hs1
    have hdata1 : Data A1 (insert (A.pa lo) P) (lo + 1) (lo + 1 + n) := by
      rw [hend]
      exact hdata.tail hlt hpte
    have hrest := ih hsound hdata1 (by omega)
    rw [htab, hend] at hrest
    refine wp_mono hrest ?_
    rintro _ s' ⟨A', hun⟩
    have hpages : insert (A.pa lo) P ∪ A1.pages (lo + 1) (lo + (n + 1)) = P ∪ A.pages lo (lo + (n + 1)) := by
      have hsame : A1.pages (lo + 1) (lo + (n + 1)) = A.pages (lo + 1) (lo + (n + 1)) := Space.pages_congr fun v hv _ => by
        rw [Space.pa, hpte, update_of_ne (by omega)]
        rfl
      rw [hsame, A.pages_cons hlt P]
    refine ⟨A', ?_, ?_, hun.tab.trans htab, fun u => ?_⟩
    · rw [← hpages]
      exact hun.sound
    · rw [← hpages]
      exact (hframe.mono Set.subset_union_left).trans hun.frame
    · rw [hun.pte, hpte]
      by_cases hu : u = lo
      · rw [if_neg (by omega), hu, update_self, if_pos ⟨Nat.le_refl _, hlt⟩]
      · rw [update_of_ne hu]
        by_cases hin : lo ≤ u ∧ u < lo + (n + 1)
        · rw [if_pos hin, if_pos (by omega)]
        · rw [if_neg hin, if_neg (by omega)]

theorem uvmunmap_wp (h : Sound P s A) (hdata : Data A P lo hi) (hle : lo ≤ hi) (hbound : hi ≤ 2 ^ 26) :
    wp Never (uvmunmap (A.tab 2 0) (lo * pgsize) (hi - lo) true) (fun _ s' => ∃ A', Unmapped P lo hi s A s' A') s := by
  obtain ⟨n, rfl⟩ := Nat.exists_eq_add_of_le hle
  have hstop : (lo * pgsize + n * pgsize) % 2 ^ 64 = (lo + n) * pgsize := by
    unfold pgsize
    omega
  unfold uvmunmap
  rw [if_neg (not_not.mpr (Nat.mul_mod_left lo pgsize)), Nat.add_sub_cancel_left, hstop]
  exact unmapFrom_wp h hdata hbound

/-- `uvmunmap` of one page that is not freed. -/
theorem uvmunmap_one_wp (h : Sound P s A) (hv : v < 2 ^ 26) (hleaf : Leaf (A.pte v)) :
    wp Never (uvmunmap (A.tab 2 0) (v * pgsize) 1 false) (fun _ s' => ∃ A', Grown P s A s' A' ∧ A'.pte = update A.pte v 0 ∧
      s'.freelist = s.freelist) s := by
  have hstop : (v * pgsize + 1 * pgsize) % 2 ^ 64 = (v + 1) * pgsize := by
    unfold pgsize
    omega
  unfold uvmunmap
  rw [if_neg (not_not.mpr (Nat.mul_mod_left v pgsize)), hstop, unmapFrom,
    if_pos (Nat.mul_lt_mul_of_pos_right (Nat.lt_succ_self v) (by decide))]
  refine wp_seq (unmapPage_wp h hv hleaf) fun _ s1 hs1 => ?_
  exact hs1

/-! ## uvmdealloc -/

/-- How many pages `sz` bytes take. -/
def npages (sz : Nat) : Nat := (sz + pgsize - 1) / pgsize

theorem pgroundup_eq (h : sz ≤ 2 ^ 63) : pgroundup sz = npages sz * pgsize := by
  unfold pgroundup npages
  rw [Nat.mod_eq_of_lt (by unfold pgsize; omega)]

theorem npages_mul (v : Nat) : npages (v * pgsize) = v := by
  unfold npages pgsize
  omega

theorem npages_mono {a b : Nat} (h : a ≤ b) : npages a ≤ npages b := by
  unfold npages pgsize
  omega

theorem npages_le {v : Nat} : npages sz ≤ v ↔ sz ≤ v * pgsize := by
  unfold npages pgsize
  omega

theorem ofInt_small {x : Nat} (h : x < 2 ^ 31) : ofInt (toInt32 (x % 2 ^ 32)) = x := by
  rw [Nat.mod_eq_of_lt (by omega), toInt32_small h]
  unfold ofInt
  omega

theorem uvmdealloc_wp {oldsz newsz : Nat} (h : Sound P s A) (hdata : Data A P (npages newsz) (npages oldsz)) (hle : newsz ≤ oldsz)
    (hbound : npages oldsz ≤ 2 ^ 26) : wp Never (uvmdealloc (A.tab 2 0) oldsz newsz)
      (fun r s' => r = newsz ∧ ∃ A', Unmapped P (npages newsz) (npages oldsz) s A s' A') s := by
  have hold : oldsz ≤ 2 ^ 63 := by
    have := npages_le.mp hbound
    unfold pgsize at this
    omega
  have hsame : npages oldsz ≤ npages newsz → Unmapped P (npages newsz) (npages oldsz) s A s A := by
    intro hge
    refine ⟨?_, Frame.refl _ _, rfl, fun u => (if_neg (by omega)).symm⟩
    rw [A.pages_empty hge, Set.union_empty]
    exact h
  unfold uvmdealloc
  split
  next hge =>
    obtain rfl : oldsz = newsz := by omega
    exact ⟨rfl, A, hsame (Nat.le_refl _)⟩
  next hlt =>
    rw [pgroundup_eq hold, pgroundup_eq (Nat.le_trans hle hold)]
    split
    next hfewer =>
      have hpages : npages newsz < npages oldsz := Nat.lt_of_mul_lt_mul_right hfewer
      have hcount : (npages oldsz * pgsize - npages newsz * pgsize) / pgsize = npages oldsz - npages newsz := by
        rw [← Nat.sub_mul, page_va]
      rw [hcount, ofInt_small (by omega)]
      refine wp_seq (uvmunmap_wp h hdata (Nat.le_of_lt hpages) hbound) fun _ s1 hs1 => ?_
      exact ⟨rfl, hs1⟩
    next hfewer =>
      have hge : npages oldsz ≤ npages newsz := by
        by_contra hlt'
        exact hfewer (Nat.mul_lt_mul_of_pos_right (Nat.lt_of_not_le hlt') (by decide))
      exact ⟨rfl, A, hsame hge⟩

end

end Xv6.Vm
