/-
  Xv6.Vm.Grow — `uvmalloc` (kernel/vm.c).

  `uvmalloc` maps fresh zeroed pages one after another, and on the first failure unmaps what it has
  mapped. It reaches neither the trapframe nor the end of the address space, since the machine has
  fewer pages than that (`Sound.free_length`, `Data.length`).

  Proved: `uvmalloc_wp`.
-/

import Xv6.Vm.Alloc

namespace Xv6.Vm

open Xv6.Lib

/-! ## The machine's memory -/

/-- There are at most 2^15 pages. -/
theorem pages_length {l : List Nat} (h : l.Nodup) (hpage : ∀ p ∈ l, IsPage p) : l.length ≤ 2 ^ 15 := by
  have hinj : (l.map fun p => p / pgsize - 2 ^ 19).Nodup := by
    refine List.Nodup.map_on (fun p hp q hq he => ?_) h
    have hp := hpage p hp
    have hq := hpage q hq
    unfold IsPage kernelEnd pgsize at hp hq
    dsimp only [pgsize] at he
    omega
  have hlen := length_le_of_nodup (n := 2 ^ 15) hinj fun x hx => by
    obtain ⟨p, hp, rfl⟩ := List.mem_map.mp hx
    have hp := (hpage p hp).2.2
    unfold physTop at hp
    dsimp only [pgsize]
    omega
  rwa [List.length_map] at hlen

section

variable {P P0 : Set Nat} {s s0 s' : St} {A A0 A' : Space} {lo hi v r newsz xperm : Nat} {perm : Nat → Nat} {img : Nat → Bytes}
  {rest : List Nat} {m : Bytes} {N : Finset (Nat × Nat)}

theorem Sound.free_length (h : Sound P s A) : s.freelist.length ≤ 2 ^ 15 :=
  pages_length h.pool.nodup fun _ hp => h.pages _ (h.free hp)

theorem Data.length (h : Data A P 0 hi) : hi ≤ 2 ^ 15 := by
  have hnodup : ((List.range hi).map A.pa).Nodup := by
    refine List.Nodup.map_on (fun v hv u hu he => ?_) List.nodup_range
    exact h.inj v u (Nat.zero_le _) (List.mem_range.mp hv) (Nat.zero_le _) (List.mem_range.mp hu) he
  have hlen := pages_length hnodup fun p hp => by
    obtain ⟨v, hv, rfl⟩ := List.mem_map.mp hp
    exact h.page v (Nat.zero_le _) (List.mem_range.mp hv)
  rwa [List.length_map, List.length_range] at hlen

/-! ## Pages that are added -/

/-- The pages `lo .. hi` have been mapped to pages that were in `P0`: page `v` with the flags `perm v`, and
with the bytes `img v`. -/
structure Extended (P0 : Set Nat) (s0 : St) (A0 : Space) (perm : Nat → Nat) (img : Nat → Bytes) (lo hi : Nat)
    (P : Set Nat) (s : St) (A : Space) : Prop where
  sound : Sound P s A
  data : Data A P lo hi
  pool : P ∪ A.pages lo hi = P0
  fresh : ∀ v, lo ≤ v → v < hi → A.pte v = mkPte (A.pa v) (perm v)
  others : ∀ v, ¬(lo ≤ v ∧ v < hi) → A.pte v = A0.pte v
  bytes : ∀ v, lo ≤ v → v < hi → ∀ o < pgsize, s.mem (A.pa v + o) = img v o
  frame : Frame P0 s0.mem s.mem
  root : A.tab 2 0 = A0.tab 2 0
  tables : A0.Within A

/-- The mappings are as before, tables may have been added. -/
structure Kept (P : Set Nat) (s : St) (A : Space) (s' : St) (A' : Space) : Prop where
  sound : Sound P s' A'
  frame : Frame P s.mem s'.mem
  root : A'.tab 2 0 = A.tab 2 0
  tables : A.Within A'
  pte : A'.pte = A.pte

theorem Extended.start (h : Sound P s A) : Extended P s A perm img lo lo P s A := by
  have hempty := A.pages_empty (Nat.le_refl lo)
  refine ⟨h, ⟨?_, ?_, ?_, ?_⟩, by rw [hempty, Set.union_empty], ?_, fun _ _ => rfl, ?_, Frame.refl _ _, rfl, fun _ _ _ => rfl⟩ <;>
    intro v hlo hhi <;> omega

theorem Extended.sub (h : Extended P0 s0 A0 perm img lo hi P s A) : P ⊆ P0 := by
  rw [← h.pool]
  exact Set.subset_union_left

theorem leaf_mkPte {p flags : Nat} (hp : IsPage p) (hf : flags < 1024) (hread : flags.testBit 1 = true) :
    Leaf (mkPte p flags) := by
  refine ⟨pteV_mkPte hp.1 hp.lt hf, ?_⟩
  unfold pteLeaf
  rw [testBit_mkPte hp.1 hp.lt hf (by decide), Nat.testBit_or, hread]
  rfl

section

variable (h : Extended P0 s0 A0 perm img lo v P s A)
include h

/-- One page more: `r` leaves the free list, gets its bytes, and is mapped. -/
theorem Extended.snoc (hlo : lo ≤ v) (hperm : perm v < 1024) (hleaf : Leaf (mkPte r (perm v))) (hfree : s.freelist = r :: rest)
    (hfill : Frame {r} s.mem m) (himg : ∀ o < pgsize, m (r + o) = img v o) (hgrown : Grown (P \ {r}) ⟨m, rest⟩ A s' A')
    (hpte : A'.pte = update A.pte v (mkPte r (perm v))) : Extended P0 s0 A0 perm img lo (v + 1) (P \ {r}) s' A' := by
  have hin : r ∈ P := h.sound.free (by rw [hfree]; exact List.mem_cons_self)
  have hr : IsPage r := h.sound.pages r hin
  have hself : A'.pte v = mkPte r (perm v) := by rw [hpte, update_self]
  have hpa : A'.pa v = r := by rw [Space.pa, hself, pte2pa_mkPte hr.1 hr.lt hperm]
  have hold : ∀ u, u < v → A'.pte u = A.pte u := fun u hu => by rw [hpte, update_of_ne (by omega)]
  have hpaOld : ∀ u, u < v → A'.pa u = A.pa u := fun u hu => congrArg pte2pa (hold u hu)
  have hcases : ∀ u, u < v + 1 → u < v ∨ u = v := fun u hu => by omega
  have hone : ({r} : Set Nat) ⊆ P := fun q hq => (Set.mem_singleton_iff.mp hq).symm ▸ hin
  refine ⟨hgrown.sound, ⟨fun u hu hlt => ?_, fun u hu hlt => ?_, fun u hu hlt hmem => ?_, fun u w hu hlt hw hlt' he => ?_⟩,
    ?_, fun u hu hlt => ?_, fun u hu => ?_, fun u hu hlt o ho => ?_, ?_, hgrown.root.trans h.root,
    h.tables.trans hgrown.tables⟩
  · rcases hcases u hlt with hlt | rfl
    · rw [hold u hlt]
      exact h.data.leaf u hu hlt
    · rw [hself]
      exact hleaf
  · rcases hcases u hlt with hlt | rfl
    · rw [hpaOld u hlt]
      exact h.data.page u hu hlt
    · rw [hpa]
      exact hr
  · rcases hcases u hlt with hlt | rfl
    · rw [hpaOld u hlt] at hmem
      exact h.data.out u hu hlt hmem.1
    · rw [hpa] at hmem
      exact hmem.2 rfl
  · -- the new page was in `P`, the others are not
    rcases hcases u hlt with hlt | rfl <;> rcases hcases w hlt' with hlt' | rfl
    · rw [hpaOld u hlt, hpaOld w hlt'] at he
      exact h.data.inj u w hu hlt hw hlt' he
    · rw [hpaOld u hlt, hpa] at he
      exact absurd (he ▸ hin) (h.data.out u hu hlt)
    · rw [hpaOld w hlt', hpa] at he
      exact absurd (he.symm ▸ hin) (h.data.out w hw hlt')
    · rfl
  · rw [← h.pool]
    ext q
    simp only [Set.mem_union, Set.mem_sdiff, Set.mem_singleton_iff]
    constructor
    · rintro (⟨hq, -⟩ | ⟨u, hu, hlt, rfl⟩)
      · exact .inl hq
      · rcases hcases u hlt with hlt | rfl
        · exact .inr ⟨u, hu, hlt, (hpaOld u hlt).symm⟩
        · exact .inl (hpa.symm ▸ hin)
    · rintro (hq | ⟨u, hu, hlt, rfl⟩)
      · by_cases hqr : q = r
        · exact .inr ⟨v, hlo, Nat.lt_succ_self v, hpa.trans hqr.symm⟩
        · exact .inl ⟨hq, hqr⟩
      · exact .inr ⟨u, hu, Nat.lt_succ_of_lt hlt, hpaOld u hlt⟩
  · rcases hcases u hlt with hlt | rfl
    · rw [hpaOld u hlt, hold u hlt]
      exact h.fresh u hu hlt
    · rw [hself, hpa]
  · rw [hpte, update_of_ne (by omega)]
    exact h.others u (by omega)
  · rcases hcases u hlt with hlt | rfl
    · have hout := h.data.out u hu hlt
      have haligned := (h.data.page u hu hlt).1
      rw [hpaOld u hlt, hgrown.frame.byte (fun hmem => hout hmem.1) haligned ho]
      change m (A.pa u + o) = img u o
      rw [hfill.byte (fun he => hout (hone he)) haligned ho]
      exact h.bytes u hu hlt o ho
    · rw [hpa, hgrown.frame.byte (fun hmem => hmem.2 rfl) hr.1 ho]
      exact himg o ho
  · refine (h.frame.trans (hfill.mono fun q hq => h.sub (hone hq))).trans (hgrown.frame.mono fun q hq => h.sub hq.1)

/-- The pages that were added are unmapped again. -/
theorem Extended.undone (hun : Unmapped P lo v s A s' A') (hnone : ∀ u, lo ≤ u → u < v → A0.pte u = 0) : Kept P0 s0 A0 s' A' := by
  have hsound := hun.sound
  have hframe := hun.frame
  rw [h.pool] at hsound hframe
  refine ⟨hsound, h.frame.trans hframe, ?_, fun l k h0 => ?_, ?_⟩
  · rw [hun.tab]
    exact h.root
  · rw [hun.tab]
    exact h.tables l k h0
  · funext u
    rw [hun.pte]
    split
    next hu => exact (hnone u hu.1 hu.2).symm
    next hu => exact h.others u hu

theorem Extended.undo (hlo : lo ≤ v) (hv : v ≤ 2 ^ 26) (hnone : ∀ u, lo ≤ u → u < v → A0.pte u = 0) :
    wp Never (uvmdealloc (A.tab 2 0) (v * pgsize) (lo * pgsize)) (fun _ s' => ∃ A', Kept P0 s0 A0 s' A') s := by
  have hdata : Data A P (npages (lo * pgsize)) (npages (v * pgsize)) := by
    rw [npages_mul, npages_mul]
    exact h.data
  refine wp_mono (uvmdealloc_wp h.sound hdata (Nat.mul_le_mul_right _ hlo) (by rwa [npages_mul])) ?_
  rintro r s' ⟨-, A', hun⟩
  rw [npages_mul, npages_mul] at hun
  exact ⟨A', h.undone hun hnone⟩

end

theorem Data.congr (h : Data A P lo hi) (hpte : ∀ v, lo ≤ v → v < hi → A'.pte v = A.pte v) : Data A' P lo hi := by
  have hpa : ∀ v, lo ≤ v → v < hi → A'.pa v = A.pa v := fun v hlo hhi => congrArg pte2pa (hpte v hlo hhi)
  refine ⟨fun v hlo hhi => ?_, fun v hlo hhi => ?_, fun v hlo hhi => ?_, fun v u hlo hhi hlo' hhi' => ?_⟩
  · rw [hpte v hlo hhi]
    exact h.leaf v hlo hhi
  · rw [hpa v hlo hhi]
    exact h.page v hlo hhi
  · rw [hpa v hlo hhi]
    exact h.out v hlo hhi
  · rw [hpa v hlo hhi, hpa u hlo' hhi']
    exact h.inj v u hlo hhi hlo' hhi'

/-- Page `r` was taken, could not be mapped, and has been freed. -/
theorem Extended.returned {m' : Bytes} (h : Extended P0 s0 A0 perm img lo v P s A) (hfree : s.freelist = r :: rest)
    (hfill : Frame {r} s.mem m) (hgrown : Grown (P \ {r}) ⟨m, rest⟩ A s' A') (hpte : A'.pte = A.pte) (hf : Frame {r} s'.mem m') :
    Extended P0 s0 A0 perm img lo v P ⟨m', r :: s'.freelist⟩ A' := by
  have hin : r ∈ P := h.sound.free (by rw [hfree]; exact List.mem_cons_self)
  have hr : IsPage r := h.sound.pages r hin
  have hpa : A'.pa = A.pa := by
    unfold Space.pa
    rw [hpte]
  have hone : ({r} : Set Nat) ⊆ P := fun q hq => (Set.mem_singleton_iff.mp hq).symm ▸ hin
  have hsound := hgrown.sound.give (fun hmem => hmem.2 rfl) hr hf
  rw [Set.insert_sdiff_self_of_mem hin] at hsound
  have hframe : Frame P s.mem m' :=
    ((hfill.mono hone).trans (hgrown.frame.mono fun q hq => hq.1)).trans (hf.mono hone)
  refine ⟨hsound, h.data.congr fun u _ _ => by rw [hpte], ?_, fun u hu hlt => ?_, fun u hu => ?_, fun u hu hlt o ho => ?_,
    h.frame.trans (hframe.mono h.sub), hgrown.root.trans h.root, h.tables.trans hgrown.tables⟩
  · rw [Space.pages_congr fun u _ _ => congrFun hpa u]
    exact h.pool
  · rw [hpa, hpte]
    exact h.fresh u hu hlt
  · rw [hpte]
    exact h.others u hu
  · rw [hpa]
    exact (hframe.byte (h.data.out u hu hlt) (h.data.page u hu hlt).1 ho).trans (h.bytes u hu hlt o ho)

/-- Zeroed pages have been mapped with the flags `flags`. -/
abbrev Zeroed (P0 : Set Nat) (s0 : St) (A0 : Space) (flags : Nat) := Extended P0 s0 A0 (fun _ => flags) fun _ => zero

/-- Pages and tables have been paid from the free list: `n` pages, and those of the tables `N` that are new. -/
def Spent (N : Finset (Nat × Nat)) (n : Nat) (s : St) (A : Space) (s' : St) (A' : Space) : Prop :=
  s.freelist.length + A'.lack N = s'.freelist.length + A.lack N + n

/-- What `uvmalloc` can return: the new size with the pages added and paid, or 0 with everything as before, when the
free pages are fewer than the pages and the tables that it needs. -/
def Allocated (N : Finset (Nat × Nat)) (P : Set Nat) (s : St) (A : Space) (flags lo newsz r : Nat) (s' : St) : Prop :=
  (r = newsz ∧ ∃ P' A', Zeroed P s A flags lo (npages newsz) P' s' A' ∧ Spent N (npages newsz - lo) s A s' A') ∨
  (r = 0 ∧ s.freelist.length < A.lack N + (npages newsz - lo) ∧ ∃ A', Kept P s A s' A')

/-- The loop of `uvmalloc` at page `v`. -/
theorem uvmallocFrom_wp {fuel : Nat} (h : Zeroed P0 s0 A0 (pteRBit ||| pteUBit ||| xperm) lo v P s A)
    (hN : paths lo (npages newsz) ⊆ N) (hspent : Spent N (v - lo) s0 A0 s A) (hperm : pteRBit ||| pteUBit ||| xperm < 1024)
    (hlo : lo ≤ v) (hv : v ≤ npages newsz) (hfuel : npages newsz ≤ v + fuel)
    (hroom : v + s.freelist.length ≤ trapframeVa / pgsize) (hnone : ∀ u, lo ≤ u → u < trapframeVa / pgsize → A0.pte u = 0) :
    wp Never (uvmallocFrom (A.tab 2 0) (lo * pgsize) newsz xperm fuel (v * pgsize))
      (Allocated N P0 s0 A0 (pteRBit ||| pteUBit ||| xperm) lo newsz) s := by
  have htop : trapframeVa / pgsize < 2 ^ 26 := by decide
  have hread : (pteRBit ||| pteUBit ||| xperm).testBit 1 = true := by
    rw [Nat.testBit_or]
    rfl
  induction fuel generalizing s A v P with
  | zero =>
    obtain rfl : v = npages newsz := by omega
    exact .inl ⟨rfl, P, A, h, hspent⟩
  | succ fuel ih =>
    rw [uvmallocFrom]
    by_cases hlt : v * pgsize < newsz
    · have hmore : v < npages newsz := by
        by_contra hge
        exact Nat.not_le.mpr hlt (npages_le.mp (Nat.le_of_not_lt hge))
      rw [if_pos hlt]
      refine wp_seq kalloc_wp fun r s1 hs1 => ?_
      rcases hs1 with ⟨rfl, rfl, hnil⟩ | ⟨rest, hfree, rfl⟩
      · rw [if_pos rfl]
        refine wp_seq (h.undo hlo (by omega) fun u hu hlt => hnone u hu (by omega)) fun _ s' hs' => ?_
        rw [Spent, hnil, List.length_nil] at hspent
        exact .inr ⟨rfl, by omega, hs'⟩
      · have hin : r ∈ P := h.sound.free (by rw [hfree]; exact List.mem_cons_self)
        have hr : IsPage r := h.sound.pages r hin
        have hlen : s.freelist.length = rest.length + 1 := by rw [hfree, List.length_cons]
        have hempty : A.pte v = 0 := (h.others v (by omega)).trans (hnone v hlo (by omega))
        have hfill : Frame {r} s.mem (fill (fill s.mem r 5) r 0) := (fill_frame s.mem hr.1 5).trans (fill_frame _ hr.1 0)
        have htaken := h.sound.take hfree hfill
        rw [if_neg hr.pos]
        refine wp_seq memsetPage_wp fun _ s1 hs1 => ?_
        subst hs1
        refine wp_seq (mappages_wp htaken (by omega) hempty (Nat.lt_trans hr.lt (by decide)) hperm) ?_
        rintro ok s2 ⟨A2, hgrown, hpte, hpaid, hshort⟩
        have hpaid := hpaid N ((paths_mono hlo (by omega)).trans hN)
        unfold Spent at hspent
        dsimp only [Paid] at hpaid
        cases ok with
        | true =>
          have hnext : (v * pgsize + pgsize) % 2 ^ 64 = (v + 1) * pgsize := by
            unfold pgsize
            omega
          have hfewer := hgrown.free
          dsimp only at hfewer
          have hzero : ∀ o < pgsize, fill (fill s.mem r 5) r 0 (r + o) = zero o := fun o ho => fill_inside _ _ _ ho
          have hsnoc := h.snoc hlo hperm (leaf_mkPte hr hperm hread) hfree hfill hzero hgrown hpte
          have hstep := ih hsnoc (by unfold Spent; omega) (by omega) (by omega) (by omega) (by omega)
          rw [hgrown.root] at hstep
          rw [if_pos rfl, hnext]
          exact hstep
        | false =>
          rw [if_neg Bool.false_ne_true]
          refine wp_seq (kfree_wp hr) fun _ s3 hs3 => ?_
          subst hs3
          have hback := h.returned hfree hfill hgrown hpte (kfree_frame s2.mem hr (s2.freelist.headD 0))
          have hundo := hback.undo hlo (by omega) fun u hu hlt => hnone u hu (by omega)
          rw [hgrown.root] at hundo
          refine wp_seq hundo fun _ s' hs' => ?_
          obtain ⟨hnil, hbare⟩ := hshort rfl
          have hlack : 0 < A2.lack N := Space.lack_pos (path_mem hN hlo hmore 0 (by decide)) hbare
          rw [hnil, List.length_nil] at hpaid
          exact .inr ⟨rfl, by omega, hs'⟩
    · rw [if_neg hlt]
      obtain rfl : v = npages newsz := Nat.le_antisymm hv (npages_le.mpr (Nat.le_of_not_lt hlt))
      exact .inl ⟨rfl, P, A, h, hspent⟩

/-- `uvmalloc`, from a size whose pages are few. -/
theorem uvmalloc_wp {oldsz : Nat} (h : Sound P s A) (hN : paths (npages oldsz) (npages newsz) ⊆ N)
    (hperm : pteRBit ||| pteUBit ||| xperm < 1024) (hle : oldsz ≤ newsz) (hfew : npages oldsz ≤ 2 ^ 15)
    (hnone : ∀ u, npages oldsz ≤ u → u < trapframeVa / pgsize → A.pte u = 0) :
    wp Never (uvmalloc (A.tab 2 0) oldsz newsz xperm)
      (Allocated N P s A (pteRBit ||| pteUBit ||| xperm) (npages oldsz) newsz) s := by
  have hold : oldsz ≤ 2 ^ 63 := by
    have := npages_le.mp hfew
    unfold pgsize at this
    omega
  have hroom : 2 ^ 15 + 2 ^ 15 ≤ trapframeVa / pgsize := by decide
  have hfree := h.free_length
  have hfuel : npages newsz ≤ newsz / pgsize + 1 := by
    unfold npages pgsize
    omega
  unfold uvmalloc
  rw [if_neg (Nat.not_lt.mpr hle), pgroundup_eq hold]
  have hspent : Spent N (npages oldsz - npages oldsz) s A s A := by
    unfold Spent
    omega
  exact uvmallocFrom_wp (.start h) hN hspent hperm (Nat.le_refl _) (npages_mono hle) (by omega) (by omega) hnone

end

end Xv6.Vm
