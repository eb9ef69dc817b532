/-
  Xv6.Vm.Fork — a process's memory is copied (kernel/vm.c: `uvmcopy`; kernel/proc.c: `allocproc`,
  `freeproc`, `fork`, as far as they allocate and free pages).

  The parent's page table and pages stay outside the pages that `uvmcopy` works with, so they keep
  their bytes. The child's pages come from the free list; when one cannot be had, those before it go
  back to it, and `freeproc` frees the tables that were made for them.

  Proved: `uvmcopy_isolates`, and what `fork` as a whole does to the pages: `fork_wp`.
-/

import Xv6.Vm.Access

namespace Xv6.Vm

open Xv6.Lib

/-! ## kernel/proc.c -/

def freeproc (trapframe pagetable sz : Nat) : VmM Unit := do
  if trapframe ≠ 0 then kfree trapframe
  if pagetable ≠ 0 then procFreepagetable pagetable sz

/-- The new process's `trapframe` and `pagetable`. -/
def allocproc : VmM (Option (Nat × Nat)) := do
  let trapframe ← kalloc
  if trapframe = 0 then do
    freeproc 0 0 0
    pure none
  else do
    let pagetable ← procPagetable trapframe
    if pagetable = 0 then do
      freeproc trapframe 0 0
      pure none
    else pure (some (trapframe, pagetable))

/-- `sizeof(struct trapframe)`, and the offset of `a0` in it. -/
def trapframeSize : Nat := 288
def trapframeA0 : Nat := 112

/-- The child's `trapframe` and `pagetable`, or `none` for -1. -/
def fork (trapframe pagetable sz : Nat) : VmM (Option (Nat × Nat)) := do
  match ← allocproc with
  | none => pure none
  | some (tf, pt) =>
    let ok ← uvmcopy pagetable pt sz
    if ok then do
      modify fun s => { s with mem := putBytes s.mem tf (slice s.mem trapframe trapframeSize) }
      store (tf + trapframeA0) 0
      pure (some (tf, pt))
    else do
      freeproc tf pt 0
      pure none

section

variable {P P0 Q : Set Nat} {s s0 s' : St} {O A A0 A' : Space} {n v sz r trapframe w o tf : Nat} {m : Bytes}

/-! ## uvmcopy -/

theorem testBit_one (j : Nat) : Nat.testBit 1 j = decide (0 = j) := by
  rw [← Nat.pow_zero 2, Nat.testBit_two_pow]

theorem leaf_copy (hr : IsPage r) (h : Leaf w) : Leaf (mkPte r (pteFlags w)) := by
  have hlt : pteFlags w < 1024 := Nat.mod_lt w (by decide)
  have hbit : ∀ {j}, 1 ≤ j → j < 10 → (mkPte r (pteFlags w)).testBit j = w.testBit j := by
    intro j hj hj10
    rw [testBit_mkPte hr.1 hr.lt hlt hj10, Nat.testBit_or, testBit_pteFlags w hj10, testBit_one]
    simp [show ¬0 = j by omega]
  refine ⟨pteV_mkPte hr.1 hr.lt hlt, ?_⟩
  have hleaf := h.2
  unfold pteLeaf at hleaf ⊢
  rwa [hbit (by decide) (by decide), hbit (by decide) (by decide), hbit (by decide) (by decide)]

/-- The flags of a valid PTE are those of its copy. -/
theorem pteFlags_copy (hr : IsPage r) (h : Leaf w) : pteFlags (mkPte r (pteFlags w)) = pteFlags w := by
  have hlt : pteFlags w < 1024 := Nat.mod_lt w (by decide)
  have hv : (pteFlags w).testBit 0 = true := (testBit_pteFlags w (by decide)).trans h.1
  rw [pteFlags_mkPte hr.1 hr.lt hlt]
  refine Nat.eq_of_testBit_eq fun j => ?_
  rw [Nat.testBit_or, testBit_one]
  by_cases hj : 0 = j
  · subst hj
    rw [hv]
    rfl
  · simp [hj]

/-- The pages of the tree `O`: its tables and its first `n` pages of memory. -/
def Space.Holds (O : Space) (n p : Nat) : Prop := O.Table p ∨ p ∈ O.pages 0 n

/-- What the copies look like. -/
abbrev Copies (P0 : Set Nat) (s0 : St) (A0 O : Space) :=
  Extended P0 s0 A0 (fun v => pteFlags (O.pte v)) fun v o => s0.mem (O.pa v + o)

/-- Page `r` gets the bytes of page `src`. -/
def moved (m : Bytes) (r src : Nat) : Bytes := fun b => if r ≤ b ∧ b < r + pgsize then m (src + (b - r)) else m b

theorem copyPage_wp {E : Stop → Prop} {src : Nat} : wp E (copyPage r src)
    (fun _ s1 => s1 = { s with mem := moved s.mem r src }) s :=
  rfl

theorem moved_inside (m : Bytes) (r src : Nat) (ho : o < pgsize) : moved m r src (r + o) = m (src + o) := by
  unfold moved
  rw [if_pos (by omega), Nat.add_sub_cancel_left]

theorem moved_frame (m : Bytes) (hr : r % pgsize = 0) (src : Nat) : Frame {r} m (moved m r src) := by
  intro a ha
  refine if_neg fun h => ha ?_
  obtain ⟨o, rfl⟩ := Nat.exists_eq_add_of_le h.1
  exact pgrounddown_page hr (by omega)

theorem uvmcopyFrom_wp {fuel : Nat} (h : Copies P0 s0 A0 O 0 v P s A) (hO : O.Stored s0.mem) (hdata : Data O P0 0 (npages sz))
    (hout : ∀ p, O.Table p → p ∉ P0) (hv : v ≤ npages sz) (hfuel : npages sz ≤ v + fuel) (hnone : ∀ u < npages sz, A0.pte u = 0) :
    wp Never (uvmcopyFrom (O.tab 2 0) (A.tab 2 0) sz fuel (v * pgsize)) (fun ok s' =>
      if ok then ∃ P' A', Copies P0 s0 A0 O 0 (npages sz) P' s' A' else ∃ A', Kept P0 s0 A0 s' A') s := by
  have hfew := hdata.length
  induction fuel generalizing s A v P with
  | zero =>
    obtain rfl : v = npages sz := by omega
    exact ⟨P, A, h⟩
  | succ fuel ih =>
    have hundo : ∀ {P1 s1 A1}, Copies P0 s0 A0 O 0 v P1 s1 A1 → wp Never (uvmunmap (A1.tab 2 0) 0 (v * pgsize / pgsize) true)
        (fun _ s' => ∃ A', Kept P0 s0 A0 s' A') s1 := by
      intro P1 s1 A1 h1
      have hun := uvmunmap_wp h1.sound h1.data (Nat.zero_le v) (by omega)
      rw [Nat.zero_mul, Nat.sub_zero] at hun
      rw [page_va]
      refine wp_mono hun ?_
      rintro _ s' ⟨A', hun'⟩
      exact ⟨A', h1.undone hun' fun u _ hu => hnone u (by omega)⟩
    rw [uvmcopyFrom]
    by_cases hlt : v * pgsize < sz
    · have hmore : v < npages sz := by
        by_contra hge
        exact Nat.not_le.mpr hlt (npages_le.mp (Nat.le_of_not_lt hge))
      have hleaf := hdata.leaf v (Nat.zero_le v) hmore
      have h0 := O.tab_of_pte hleaf.ne_zero
      have hOs : O.Stored s.mem := hO.frame h.frame hout
      rw [if_pos hlt, wp, run_bind_ok (walk_finds hOs (by omega)), if_neg (O.slot_ne_zero h0)]
      change wp Never (if !pteV (le64 s.mem (O.slot v)) then _ else _) _ s
      rw [hOs.slot h0, hleaf.1, if_neg (by decide)]
      refine wp_seq kalloc_wp fun r s1 hs1 => ?_
      rcases hs1 with ⟨rfl, rfl, -⟩ | ⟨rest, hfree, rfl⟩
      · rw [if_pos rfl]
        exact wp_seq (hundo h) fun _ s' hs' => hs'
      · have hin : r ∈ P := h.sound.free (by rw [hfree]; exact List.mem_cons_self)
        have hr : IsPage r := h.sound.pages r hin
        have hflags : pteFlags (O.pte v) < 1024 := Nat.mod_lt _ (by decide)
        have hpa := hdata.out v (Nat.zero_le v) hmore
        have haligned := (hdata.page v (Nat.zero_le v) hmore).1
        have hempty : A.pte v = 0 := (h.others v (by omega)).trans (hnone v hmore)
        rw [if_neg hr.pos]
        refine wp_seq copyPage_wp fun _ s1 hs1 => ?_
        subst hs1
        have hjunk : Frame {r} s.mem (fill s.mem r 5) := fill_frame s.mem hr.1 5
        have hne : O.pa v ∉ ({r} : Set Nat) := fun he => hpa (h.sub (Set.mem_singleton_iff.mp he ▸ hin))
        have hfill : Frame {r} s.mem (moved (fill s.mem r 5) r (O.pa v)) := hjunk.trans (moved_frame _ hr.1 _)
        have himg : ∀ o < pgsize, moved (fill s.mem r 5) r (O.pa v) (r + o) = s0.mem (O.pa v + o) := by
          intro o ho
          rw [moved_inside _ _ _ ho, hjunk.byte hne haligned ho, h.frame.byte hpa haligned ho]
        refine wp_seq (mappages_wp (h.sound.take hfree hfill) (by omega) hempty (Nat.lt_trans hr.lt (by decide)) hflags) ?_
        rintro ok s2 ⟨A2, hgrown, hpte, -⟩
        cases ok with
        | true =>
          have hnext : (v * pgsize + pgsize) % 2 ^ 64 = (v + 1) * pgsize := by
            unfold pgsize
            omega
          have hstep := ih (h.snoc (Nat.zero_le v) hflags (leaf_copy hr hleaf) hfree hfill himg hgrown hpte) (by omega) (by omega)
          rw [hgrown.root] at hstep
          rw [if_pos rfl, hnext]
          exact hstep
        | false =>
          rw [if_neg Bool.false_ne_true]
          refine wp_seq (kfree_wp hr) fun _ s3 hs3 => ?_
          subst hs3
          have hback := hundo (h.returned hfree hfill hgrown hpte (kfree_frame s2.mem hr (s2.freelist.headD 0)))
          rw [hgrown.root] at hback
          exact wp_seq hback fun _ s' hs' => hs'
    · rw [if_neg hlt]
      obtain rfl : v = npages sz := Nat.le_antisymm hv (npages_le.mpr (Nat.le_of_not_lt hlt))
      exact ⟨P, A, h⟩

theorem uvmcopy_wp (h : Sound P s A) (hO : O.Stored s.mem) (hdata : Data O P 0 (npages sz)) (hout : ∀ p, O.Table p → p ∉ P)
    (hnone : ∀ u < npages sz, A.pte u = 0) : wp Never (uvmcopy (O.tab 2 0) (A.tab 2 0) sz) (fun ok s' =>
      if ok then ∃ P' A', Copies P s A O 0 (npages sz) P' s' A' else ∃ A', Kept P s A s' A') s := by
  have hfuel : npages sz ≤ 0 + (sz / pgsize + 1) := by
    unfold npages pgsize
    omega
  have hloop := uvmcopyFrom_wp (Extended.start h) hO hdata hout (Nat.zero_le _) hfuel hnone
  rw [Nat.zero_mul] at hloop
  exact hloop

/-! ## Two address spaces -/

/-- The user reaches the process's memory only. -/
theorem AddrSpace.user {v : Nat} (h : AddrSpace P s A trapframe n) (hv : pteV (A.pte v) = true) (hu : pteU (A.pte v) = true) :
    v < n := by
  by_contra hge
  by_cases hcode : v = trampoline / pgsize
  · rw [hcode, h.code.2.1] at hu
    cases hu
  · by_cases hframe : v = trapframeVa / pgsize
    · rw [hframe, h.frame.2.1] at hu
      cases hu
    · rw [h.none v (Nat.le_of_not_lt hge) hcode hframe] at hv
      cases hv

theorem AddrSpace.confined (h : AddrSpace P s A trapframe n) : Confined s.mem A (A.pages 0 n) := by
  refine ⟨h.sound.stored, fun v _ hv hu => ⟨v, Nat.zero_le v, h.user hv hu, rfl⟩, fun p hp hin => ?_⟩
  obtain ⟨v, -, hlt, rfl⟩ := hin
  exact h.data.out v (Nat.zero_le v) hlt (h.sound.table hp)

/-- An address space whose pages are left alone, with another free list. -/
theorem AddrSpace.reframe {F : Set Nat} (h : AddrSpace P s O trapframe n) (hf : Frame F s.mem s'.mem)
    (hF : ∀ p, O.Holds n p → p ∉ F)
    (hnodup : s'.freelist.Nodup) (hfree : ∀ p ∈ s'.freelist, p ∈ F ∧ IsPage p) :
    AddrSpace {p | p ∈ s'.freelist ∨ O.Table p} s' O trapframe n := by
  refine ⟨⟨h.sound.stored.frame hf fun p hp => hF p (.inl hp), ⟨hnodup, fun _ => Iff.rfl, fun p hp ht => ?_⟩, fun p hp => ?_⟩,
    ⟨h.data.leaf, h.data.page, fun v hv hlt hin => ?_, h.data.inj⟩, h.code, h.frame, h.none⟩
  · exact hF p (.inl ht) (hfree p hp).1
  · rcases hp with hp | hp
    · exact (hfree p hp).2
    · exact hp.page
  · rcases hin with hin | hin
    · exact hF _ (.inr ⟨v, hv, hlt, rfl⟩) (hfree _ hin).1
    · exact h.data.out v hv hlt (h.sound.table hin)

/-- What is stored through page table `p` is not seen through `q`. -/
def Isolated (s : St) (p q : Nat) : Prop := ∀ dstva src srcva len, ∃ r s' v, copyout p dstva src s = .ok (r, s') ∧
  copyin q srcva len s = .ok (v, s) ∧ copyin q srcva len s' = .ok (v, s')

/-- Stores through one or the other of two page tables. -/
inductive Stores (p q : Nat) (s : St) : St → Prop
  | none : Stores p q s s
  | store {t t' : St} (pagetable dstva : Nat) (src : List UInt8) (r : Bool) : Stores p q s t → pagetable = p ∨ pagetable = q →
      copyout pagetable dstva src t = .ok (r, t') → Stores p q s t'

/-- Through two trees the user reaches different pages, and no table of either. -/
structure Disjoint2 (m : Bytes) (O A : Space) (D E : Set Nat) : Prop where
  left : Confined m O D
  right : Confined m A E
  apart : ∀ p ∈ D, p ∉ E
  leftTables : ∀ p, O.Table p → p ∉ E
  rightTables : ∀ p, A.Table p → p ∉ D

variable {D E : Set Nat}

section

variable (h : Disjoint2 s.mem O A D E)
include h

theorem Disjoint2.symm : Disjoint2 s.mem A O E D :=
  ⟨h.right, h.left, fun p hp hq => h.apart p hq hp, h.rightTables, h.leftTables⟩

theorem Disjoint2.frame (hf : Frame D s.mem m) : Disjoint2 m O A D E :=
  ⟨h.left.frame hf h.left.apart, h.right.frame hf h.rightTables, h.apart, h.leftTables, h.rightTables⟩

theorem Disjoint2.isolated : Isolated s (O.tab 2 0) (A.tab 2 0) := by
  intro dstva src srcva len
  obtain ⟨r, s', hout, hf, -⟩ := copyout_confined h.left dstva src
  obtain ⟨v, hin, hin'⟩ := copyin_confined h.right hf h.rightTables (fun p hp hq => h.apart p hq hp) srcva len
  exact ⟨r, s', v, hout, hin, hin'⟩

theorem Disjoint2.stores {t : St} (ht : Stores (O.tab 2 0) (A.tab 2 0) s t) : Disjoint2 t.mem O A D E := by
  induction ht with
  | none => exact h
  | store pagetable dstva src r _ hpt hrun ih =>
    rcases hpt with rfl | rfl
    · obtain ⟨r1, t1, hout, hf, -⟩ := copyout_confined ih.left dstva src
      rw [hrun] at hout
      cases hout
      exact ih.frame hf
    · obtain ⟨r1, t1, hout, hf, -⟩ := copyout_confined ih.right dstva src
      rw [hrun] at hout
      cases hout
      exact (ih.symm.frame hf).symm

end

/-! ## What uvmcopy is for -/

/-- The first `n` pages of `new` are copies of those of `old`, in pages that were free. -/
structure Cloned (s : St) (old new n : Nat) (s' : St) : Prop where
  valid : ∀ v < n, pteV (pageOf s'.mem new v) = true
  flags : ∀ v < n, pteFlags (pageOf s'.mem new v) = pteFlags (pageOf s.mem old v)
  free : ∀ v < n, pte2pa (pageOf s'.mem new v) ∈ s.freelist
  taken : ∀ v < n, pte2pa (pageOf s'.mem new v) ∉ s'.freelist
  inj : ∀ v u, v < n → u < n → pte2pa (pageOf s'.mem new v) = pte2pa (pageOf s'.mem new u) → v = u
  bytes : ∀ v < n, ∀ o < pgsize, s'.mem (pte2pa (pageOf s'.mem new v) + o) = s.mem (pte2pa (pageOf s.mem old v) + o)

theorem Cloned.of_copies {P' : Set Nat} (hO : O.Stored s.mem) (hdata : Data O P 0 n) (hs : Sound P s A)
    (he : Copies P s A O 0 n P' s' A') : Cloned s (O.tab 2 0) (A.tab 2 0) n s' := by
  have hfew := hdata.length
  have hnew : ∀ v < n, pageOf s'.mem (A.tab 2 0) v = A'.pte v := by
    intro v hv
    rw [← he.root]
    exact he.sound.stored.pageOf (by omega)
  have hold : ∀ v < n, pageOf s.mem (O.tab 2 0) v = O.pte v := fun v hv => hO.pageOf (by omega)
  have hpage := fun v (hv : v < n) => he.data.page v (Nat.zero_le v) hv
  refine ⟨fun v hv => ?_, fun v hv => ?_, fun v hv => ?_, fun v hv hin => ?_, fun v u hv hu heq => ?_, fun v hv o ho => ?_⟩
  · rw [hnew v hv]
    exact (he.data.leaf v (Nat.zero_le v) hv).1
  · rw [hnew v hv, hold v hv, he.fresh v (Nat.zero_le v) hv]
    exact pteFlags_copy (hpage v hv) (hdata.leaf v (Nat.zero_le v) hv)
  · rw [hnew v hv]
    exact he.was_free hs (Nat.zero_le v) hv
  · rw [hnew v hv] at hin
    exact he.data.out v (Nat.zero_le v) hv (he.sound.free hin)
  · rw [hnew v hv, hnew u hu] at heq
    exact he.data.inj v u (Nat.zero_le v) hv (Nat.zero_le u) hu heq
  · rw [hnew v hv, hold v hv]
    exact he.bytes v (Nat.zero_le v) hv o ho

/-- `freeproc` frees everything that the process has. -/
theorem freeproc_wp (h : AddrSpace P s A trapframe (npages sz)) (htf : IsPage trapframe) (hout : trapframe ∉ P)
    (hdata : trapframe ∉ A.pages 0 (npages sz)) : wp Never (freeproc trapframe (A.tab 2 0) sz) (fun _ s' =>
      Free (insert trapframe P ∪ A.pages 0 (npages sz)) s' ∧ Frame (insert trapframe P ∪ A.pages 0
          (npages sz)) s.mem s'.mem) s := by
  unfold freeproc
  rw [if_pos htf.pos]
  refine wp_seq (kfree_wp htf) fun _ s1 hs1 => ?_
  subst hs1
  have hframe := kfree_frame s.mem htf (s.freelist.headD 0)
  have hsound := h.sound.give hout htf hframe
  have hspace : AddrSpace (insert trapframe P) _ A trapframe (npages sz) :=
    ⟨hsound, ⟨h.data.leaf, h.data.page, fun v hv hlt hin => by
    rcases Set.mem_insert_iff.mp hin with he | hin
    · exact hdata ⟨v, hv, hlt, he⟩
    · exact h.data.out v hv hlt hin, h.data.inj⟩, h.code, h.frame, h.none⟩
  rw [if_pos A.root]
  refine wp_mono (procFreepagetable_wp hspace) fun _ s' hs' => ⟨hs'.1, Frame.trans (hframe.mono fun p hp => ?_) hs'.2⟩
  exact .inl (Set.mem_insert_iff.mpr (.inl hp))

/-- After a failed `uvmcopy` the child has no memory and `freeproc` frees all of it. -/
structure GivenBack (s : St) (A : Space) (trapframe : Nat) (s' : St) : Prop where
  unmapped : ∀ v < trapframeVa / pgsize, pageOf s'.mem (A.tab 2 0) v = 0
  free : ∃ A' : Space, A'.tab 2 0 = A.tab 2 0 ∧ A'.Stored s'.mem ∧ ∀ p ∈ s.freelist, p ∈ s'.freelist ∨ A'.Table p
  freed : ∃ s'', freeproc trapframe (A.tab 2 0) 0 s' = .ok ((), s'') ∧ s''.freelist.Nodup ∧
    ∀ p, p ∈ s''.freelist ↔ p ∈ s.freelist ∨ p = trapframe ∨ A.Table p

theorem GivenBack.of_kept (h : AddrSpace P s A trapframe 0) (htf : IsPage trapframe) (hout : trapframe ∉ P)
    (hk : Kept P s A s' A') :
    GivenBack s A trapframe s' := by
  have hspace : AddrSpace P s' A' trapframe (npages 0) := h.kept hk
  have hnil : insert trapframe P ∪ A'.pages 0 (npages 0) = insert trapframe P := by
    rw [show npages 0 = 0 from rfl, A'.pages_empty (Nat.le_refl 0), Set.union_empty]
  have hfree := freeproc_wp hspace htf hout fun ⟨_, _, hlt, _⟩ => absurd hlt (Nat.not_lt_zero _)
  rw [hnil, hk.root] at hfree
  obtain ⟨⟨⟩, s'', hrun, hpool, -⟩ := wp_total hfree
  have htop : trapframeVa / pgsize < 2 ^ 26 := by decide
  refine ⟨fun v hv => ?_, ⟨A', hk.root, hk.sound.stored, fun p hp => ?_⟩, s'', hrun, hpool.nodup, fun p => ?_⟩
  · rw [← hk.root, hk.sound.stored.pageOf (by omega)]
    exact hspace.room (Nat.zero_le v) hv
  · exact (hk.sound.pool.mem p).mp (h.sound.free hp)
  · have hmem := hpool.mem p
    rw [Set.mem_insert_iff, h.sound.pool.mem, or_iff_left id] at hmem
    rw [← hmem]
    exact or_left_comm

/-- `uvmcopy` gives the child copies of the parent's pages that nobody else has, so that neither sees what is
stored through the other's page table; or it fails, and all that the child had is freed. The parent keeps its
memory. -/
theorem uvmcopy_isolates (hold : AddrSpace Q s O tf (npages sz)) (hnew : AddrSpace P s A trapframe 0)
    (hout : ∀ p, O.Holds (npages sz) p → p ∉ P) (htf : IsPage trapframe) (htfP : trapframe ∉ P) :
    ∃ ok s', uvmcopy (O.tab 2 0) (A.tab 2 0) sz s = .ok (ok, s') ∧
      (∀ v < 2 ^ 26, pageOf s'.mem (O.tab 2 0) v = pageOf s.mem (O.tab 2 0) v) ∧
      (∀ v < npages sz, SamePage s.mem s'.mem (O.tab 2 0) v) ∧
      (ok = true → Cloned s (O.tab 2 0) (A.tab 2 0) (npages sz) s' ∧ ∀ t, Stores (O.tab 2 0) (A.tab 2 0) s' t →
        Isolated t (O.tab 2 0) (A.tab 2 0) ∧ Isolated t (A.tab 2 0) (O.tab 2 0)) ∧
      (ok = false → GivenBack s A trapframe s') := by
  have hdata : Data O P 0 (npages sz) := ⟨hold.data.leaf, hold.data.page, fun v hv hlt => hout _ (.inr ⟨v, hv, hlt, rfl⟩),
      hold.data.inj⟩
  have htables : ∀ p, O.Table p → p ∉ P := fun p hp => hout p (.inl hp)
  have hfew := hold.few
  have hroom : 2 ^ 15 < trapframeVa / pgsize := by decide
  obtain ⟨ok, s', hrun, hres⟩ := wp_total (uvmcopy_wp hnew.sound hold.sound.stored hdata htables fun u hu =>
    hnew.room (Nat.zero_le u) (by omega))
  have hframe : Frame P s.mem s'.mem := by
    cases ok with
    | true =>
      obtain ⟨_, _, he⟩ := hres
      exact he.frame
    | false =>
      obtain ⟨_, hk⟩ := hres
      exact hk.frame
  have hstored := hold.sound.stored.frame hframe htables
  refine ⟨ok, s', hrun, fun v hv => ?_, fun v hv => ?_, fun hok => ?_, fun hok => ?_⟩
  · rw [hstored.pageOf hv, hold.sound.stored.pageOf hv]
  · exact .of_frame hold hv hstored rfl rfl hframe (hdata.out v (Nat.zero_le v) hv)
  · subst hok
    obtain ⟨P', A', he⟩ := hres
    have hchild := hnew.extended he (Nat.zero_le _)
    have hboth : Disjoint2 s'.mem O A' (O.pages 0 (npages sz)) (A'.pages 0 (npages sz)) := by
      refine ⟨?_, hchild.confined, fun p hp hq => ?_, fun p hp hq => ?_, fun p hp hq => ?_⟩
      · exact hold.confined.frame hframe htables
      · obtain ⟨v, -, hlt, rfl⟩ := hq
        exact hout _ (.inr hp) (he.mem (Nat.zero_le v) hlt)
      · obtain ⟨v, -, hlt, rfl⟩ := hq
        exact hout _ (.inl hp) (he.mem (Nat.zero_le v) hlt)
      · exact hout p (.inr hq) (he.sub (he.sound.table hp))
    refine ⟨.of_copies hold.sound.stored hdata hnew.sound he, fun t ht => ?_⟩
    rw [← he.root] at ht ⊢
    have hlater := hboth.stores ht
    exact ⟨hlater.isolated, hlater.symm.isolated⟩
  · subst hok
    obtain ⟨A', hk⟩ := hres
    exact .of_kept hnew htf htfP hk

/-! ## fork -/

/-- The pages of the free list. -/
abbrev St.frees (s : St) : Set Nat := {p | p ∈ s.freelist}

theorem Sound.frees (h : Sound P s A) : Free s.frees s := ⟨h.pool.nodup, fun _ => (or_iff_left id).symm, fun _ _ => id⟩

variable {F : Set Nat}

theorem Free.take {rest : List Nat} (h : Free F s) (hcons : s.freelist = r :: rest) : r ∈ F ∧ Free (F \ {r}) ⟨m, rest⟩ := by
  have hpool : Pool F (r :: rest) fun _ => False := hcons ▸ h
  exact ⟨(hpool.mem r).mpr (.inl List.mem_cons_self), hpool.take⟩

/-- A new process has a trapframe and an empty address space, or nothing was taken. -/
theorem allocproc_wp (h : Free F s) (hpages : ∀ p ∈ F, IsPage p) : wp Never allocproc (fun c s' => Frame F s.mem s'.mem ∧
    match c with
    | none => Free F s'
    | some (tf, pagetable) => tf ∈ F ∧ ∃ A, A.tab 2 0 = pagetable ∧ AddrSpace (F \ {tf}) s' A tf 0) s := by
  refine wp_seq kalloc_wp fun r s1 hs1 => ?_
  rcases hs1 with ⟨rfl, rfl, -⟩ | ⟨rest, hcons, rfl⟩
  · rw [if_pos rfl]
    exact ⟨Frame.refl _ _, h⟩
  · obtain ⟨hin, htaken⟩ : r ∈ F ∧ Free (F \ {r}) ⟨fill s.mem r 5, rest⟩ := h.take hcons
    have hr := hpages r hin
    have hone : ({r} : Set Nat) ⊆ F := fun q hq => (Set.mem_singleton_iff.mp hq).symm ▸ hin
    have hjunk := (fill_frame s.mem hr.1 5).mono hone
    rw [if_neg hr.pos]
    refine wp_seq (procPagetable_wp htaken (fun p hp => hpages p hp.1) hr) ?_
    rintro pagetable s2 ⟨hframe, ⟨rfl, hfree, -⟩ | ⟨A, rfl, hspace, -⟩⟩
    · rw [if_pos rfl]
      unfold freeproc
      rw [if_pos hr.pos]
      refine wp_seq (wp_seq (kfree_wp hr) fun _ s3 hs3 => ?_) fun _ s3 hs3 => hs3
      subst hs3
      have hback := hfree.give (m := put64 (fill s2.mem r 1) r (s2.freelist.headD 0)) (fun hmem => hmem.2 rfl)
      rw [Set.insert_sdiff_self_of_mem hin] at hback
      exact ⟨(hjunk.trans (hframe.mono Set.sdiff_subset)).trans ((kfree_frame _ hr _).mono hone), hback⟩
    · rw [if_neg A.root]
      exact ⟨hjunk.trans (hframe.mono Set.sdiff_subset), hin, A, rfl, hspace⟩

/-- Something is stored outside the tables. -/
theorem AddrSpace.store (h : AddrSpace P s A trapframe n) (hf : Frame Q s.mem m) (hQ : ∀ p, A.Table p → p ∉ Q) :
    AddrSpace P { s with mem := m } A trapframe n := ⟨h.sound.frame hf hQ, h.data, h.code, h.frame, h.none⟩

theorem putBytes_frame (m : Bytes) (hr : r % pgsize = 0) {l : List UInt8} (hl : o + l.length ≤ pgsize) :
    Frame {r} m (putBytes m (r + o) l) := by
  intro a ha
  refine putBytes_outside m ?_
  by_contra hin
  obtain ⟨j, rfl⟩ := Nat.exists_eq_add_of_le (show r ≤ a by omega)
  exact ha (pgrounddown_page hr (by omega))

/-- `fork` takes pages for the child alone, and when it fails it has given back all that it took. -/
theorem fork_wp (h : AddrSpace P s O tf (npages sz)) : wp Never (fork tf (O.tab 2 0) sz) (fun c s' =>
    AddrSpace {p | p ∈ s'.freelist ∨ O.Table p} s' O tf (npages sz) ∧ (∀ v < npages sz, SamePage s.mem s'.mem (O.tab 2 0) v) ∧
    match c with
    | none => s'.freelist.Perm s.freelist
    | some (tf', pagetable) => tf' ∈ s.freelist ∧ ∃ P' A', A'.tab 2 0 = pagetable ∧ AddrSpace P' s' A' tf' (npages sz) ∧
      tf' ∉ P' ∧ ∀ p, A'.Holds (npages sz) p → p ∈ s.freelist ∧ p ≠ tf') s := by
  have hpages : ∀ p ∈ s.frees, IsPage p := fun p hp => h.sound.pages p (h.sound.free hp)
  have hholds : ∀ p, O.Holds (npages sz) p → p ∉ s.frees := by
    rintro p (hp | ⟨v, hv, hlt, rfl⟩) hin
    · exact h.sound.pool.apart p hin hp
    · exact h.data.out v hv hlt (h.sound.free hin)
  have hdone : ∀ s' : St, Frame s.frees s.mem s'.mem → s'.freelist.Nodup → (∀ p ∈ s'.freelist, p ∈ s.frees) →
      AddrSpace {p | p ∈ s'.freelist ∨ O.Table p} s' O tf (npages sz) ∧ ∀ v < npages sz, SamePage s.mem s'.mem (O.tab 2 0) v := by
    intro s' hf hnodup hsub
    have hspace := h.reframe hf hholds hnodup fun p hp => ⟨hsub p hp, hpages p (hsub p hp)⟩
    exact ⟨hspace, fun v hv => .of_frame h hv hspace.sound.stored rfl rfl hf (hholds _ (.inr ⟨v, Nat.zero_le v, hv, rfl⟩))⟩
  have hfailed : ∀ {s'}, Frame s.frees s.mem s'.mem → Free s.frees s' →
      AddrSpace {p | p ∈ s'.freelist ∨ O.Table p} s' O tf (npages sz) ∧ (∀ v < npages sz, SamePage s.mem s'.mem (O.tab 2 0) v) ∧
        s'.freelist.Perm s.freelist := by
    intro s' hf hfree
    obtain ⟨hspace, hsame⟩ := hdone s' hf hfree.nodup fun p hp => (hfree.mem p).mpr (.inl hp)
    exact ⟨hspace, hsame, hfree.perm h.sound.frees (fun _ => id) fun _ => id⟩
  refine wp_seq (allocproc_wp h.sound.frees hpages) ?_
  rintro c s1 ⟨hf1, hc⟩
  match c, hc with
  | none, hfree => exact hfailed hf1 hfree
  | some (r, _), ⟨hin, A, rfl, hnew⟩ =>
    have hr := hpages r hin
    have hone : ({r} : Set Nat) ⊆ s.frees := fun q hq => (Set.mem_singleton_iff.mp hq).symm ▸ hin
    have hout : ∀ p, O.Holds (npages sz) p → p ∉ s.frees \ {r} := fun p hp hmem => hholds p hp hmem.1
    have hdata : Data O (s.frees \ {r}) 0 (npages sz) :=
      ⟨h.data.leaf, h.data.page, fun v hv hlt => hout _ (.inr ⟨v, hv, hlt, rfl⟩), h.data.inj⟩
    have hfew := h.few
    have hroom : 2 ^ 15 < trapframeVa / pgsize := by decide
    have hstored := h.sound.stored.frame hf1 fun p hp => hholds p (.inl hp)
    refine wp_seq (uvmcopy_wp hnew.sound hstored hdata (fun p hp => hout p (.inl hp)) fun u hu => hnew.room (Nat.zero_le u)
        (by omega))
      fun ok s2 hs2 => ?_
    cases ok with
    | true =>
      obtain ⟨P', A', he⟩ := hs2
      have hchild := hnew.extended he (Nat.zero_le _)
      have hA' : ∀ p, A'.Holds (npages sz) p → p ∈ s.frees \ {r} := by
        rintro p (hp | ⟨v, hv, hlt, rfl⟩)
        · exact he.sub (he.sound.table hp)
        · exact he.mem hv hlt
      rw [if_pos rfl]
      -- the trapframe's page is outside all of this
      have hcopy : Frame {r} s2.mem (putBytes s2.mem (r + 0) (slice s2.mem tf trapframeSize)) :=
        putBytes_frame s2.mem hr.1 (by rw [slice_length]; decide)
      have hregs := hcopy.trans (put64_frame (i := trapframeA0 / 8) _ hr.1 (by decide) 0)
      have hstore := hchild.store hregs fun p hp hmem => (hA' p (.inl hp)).2 hmem
      have hf2 := (hf1.trans (he.frame.mono Set.sdiff_subset)).trans (hregs.mono hone)
      obtain ⟨hspace, hsame⟩ := hdone ⟨_, s2.freelist⟩ hf2 he.sound.pool.nodup fun p hp => (he.sub (he.sound.free hp)).1
      exact ⟨hspace, hsame, hin, P', A', he.root, hstore, fun hmem => (he.sub hmem).2 rfl, fun p hp => hA' p hp⟩
    | false =>
      obtain ⟨A', hk⟩ := hs2
      rw [if_neg Bool.false_ne_true]
      have hspace : AddrSpace (s.frees \ {r}) s2 A' r (npages 0) := hnew.kept hk
      have hfree := freeproc_wp hspace hr (fun hmem => hmem.2 rfl) fun ⟨_, _, hlt, _⟩ => absurd hlt (Nat.not_lt_zero _)
      have hnil : insert r (s.frees \ {r}) ∪ A'.pages 0 (npages 0) = s.frees := by
        rw [show npages 0 = 0 from rfl, A'.pages_empty (Nat.le_refl 0), Set.union_empty, Set.insert_sdiff_self_of_mem hin]
      rw [hnil, hk.root] at hfree
      refine wp_seq hfree fun _ s3 hs3 => ?_
      exact hfailed ((hf1.trans (hk.frame.mono Set.sdiff_subset)).trans hs3.2) hs3.1

end

/-- A process with one page forks. -/
theorem fork_wp_page : ∃ (s s' : St) (O : Space) (c : Nat × Nat), fork 0x87000000 (O.tab 2 0) pgsize s = .ok (some c, s') ∧
    c.1 ∈ s.freelist := by
  obtain ⟨P, s, O, h, hmake, -⟩ := onePage_runs
  have hfork : ((onePage >>= fun old => fork 0x87000000 old pgsize) machine).toOption.map (fun v => v.1.isSome) = some true := by
    decide +kernel
  rw [run_bind_ok hmake] at hfork
  obtain ⟨⟨o, s'⟩, hrun, ho⟩ := exists_of_run hfork
  obtain ⟨c, rfl⟩ := Option.isSome_iff_exists.mp ho
  exact ⟨s, s', O, c, hrun, ((fork_wp h).ok hrun).2.2.1⟩

/-- A process with one page is copied. -/
theorem uvmcopy_isolates_page : ∃ (P Q : Set Nat) (s s' : St) (O A : Space) (trapframe : Nat),
    AddrSpace Q s O 0x87000000 (npages pgsize) ∧ AddrSpace P s A trapframe 0 ∧
      uvmcopy (O.tab 2 0) (A.tab 2 0) pgsize s = .ok (true, s') ∧ Cloned s (O.tab 2 0) (A.tab 2 0) (npages pgsize) s' := by
  obtain ⟨P, s, O, h, hmake, -⟩ := onePage_runs
  have halloc : ((onePage >>= fun _ => allocproc) machine).toOption.map (fun v => v.1.isSome) = some true := by decide +kernel
  have hcopy : ((onePage >>= fun old => allocproc >>= fun c => uvmcopy old (c.getD (0, 0)).2 pgsize) machine).toOption.map
      (fun v => v.1) = some true := by decide +kernel
  rw [run_bind_ok hmake] at halloc hcopy
  obtain ⟨⟨c, s1⟩, hrun, hc⟩ := exists_of_run halloc
  obtain ⟨hf, hres⟩ := (allocproc_wp h.sound.frees fun p hp => h.sound.pages p (h.sound.free hp)).ok hrun
  match c, hc, hres with
  | some (tf, _), _, ⟨hin, A, rfl, hnew⟩ =>
    have hholds : ∀ p, O.Holds (npages pgsize) p → p ∉ s.frees := by
      rintro p (hp | ⟨v, hv, hlt, rfl⟩) hmem
      · exact h.sound.pool.apart p hmem hp
      · exact h.data.out v hv hlt (h.sound.free hmem)
    have hold := h.reframe hf hholds hnew.sound.pool.nodup fun p hp =>
      ⟨(hnew.sound.free hp).1, hnew.sound.pages p (hnew.sound.free hp)⟩
    rw [run_bind_ok hrun] at hcopy
    obtain ⟨⟨ok, s2⟩, hrun2, rfl⟩ := exists_of_run hcopy
    obtain ⟨ok', s', hrun', -, -, hcloned, -⟩ := uvmcopy_isolates hold hnew (fun p hp hmem => hholds p hp hmem.1)
      (h.sound.pages tf (h.sound.free hin)) fun hmem => hmem.2 rfl
    have hsame := hrun2.symm.trans hrun'
    cases hsame
    exact ⟨_, _, s1, s2, O, A, tf, hold, hnew, hrun', (hcloned rfl).1⟩

end Xv6.Vm
