/-
  Xv6.Exec.Build — the new address space while `exec` fills it.

  The page table and the pages that `exec` maps come from the pages `F` that were free at the start, and
  together with what is left of these they are all of `F` (`Built`). `uvmalloc` adds fresh pages on top
  and leaves the rest alone (`grow_wp`). `loadseg` finds every page that it asks for, since the memory
  below the size is mapped for the user without holes, and writes the file's bytes through it
  (`loadsegOn_wp`).
-/

import Xv6.Exec.Factor

namespace Xv6.Exec

open Xv6.Lib Xv6.Fs Xv6.Vm

/-! ## The new address space -/

/-- The byte at `va` of the memory that the tree `A` maps. -/
def byteOfSpace (A : Space) (m : Bytes) (va : Nat) : UInt8 := m (A.pa (va / pgsize) + va % pgsize)

/-- An address space of `n` pages that was made from the pages `F`; other memory is as in `m`. -/
structure Built (F : Set Nat) (m : Bytes) (trapframe n : Nat) (P : Set Nat) (s : Vm.St) (A : Space) : Prop where
  space : AddrSpace P s A trapframe n
  pool : P ∪ A.pages 0 n = F
  frame : Frame F m s.mem

section

variable {F P : Set Nat} {m m' d : Bytes} {trapframe n u v c hi k : Nat} {s s' : Vm.St} {A A' : Space}

theorem page_of_lt (hu : u < n * pgsize) : u / pgsize < n := (Nat.div_lt_iff_lt_mul (by decide)).mpr hu

/-- The user reads the byte that the page table maps. -/
theorem userMem_eq (h : AddrSpace P s A trapframe n) (hu : u < n * pgsize) (huser : pteU (A.pte (u / pgsize)) = true) :
    userMem s.mem (A.tab 2 0) u = byteOfSpace A s.mem u := by
  have hfew := h.few
  have hv := page_of_lt hu
  have hleaf := h.data.leaf _ (Nat.zero_le _) hv
  have hpage : pgrounddown u = u / pgsize * pgsize := rfl
  unfold userMem phys byteOfSpace
  rw [hpage, h.sound.stored.userPage (va_lt (by omega)), page_va, if_pos ⟨hleaf.1, huser⟩]

section

variable (h : Built F m trapframe n P s A) {o : Nat}

include h

theorem Built.pool_sub : P ⊆ F := h.pool ▸ Set.subset_union_left

theorem Built.pages_sub : A.pages 0 n ⊆ F := h.pool ▸ Set.subset_union_right

theorem Built.tables : ∀ p, A.Table p → p ∉ A.pages 0 n := by
  rintro p hp ⟨v, hv, hlt, rfl⟩
  exact h.space.data.out v hv hlt (h.space.sound.table hp)

/-- Something is stored in the mapped pages. -/
theorem Built.write (hf : Frame (A.pages 0 n) s.mem m') : Built F m trapframe n P { s with mem := m' } A :=
  ⟨h.space.store hf h.tables, h.pool, h.frame.trans (hf.mono h.pages_sub)⟩

/-- The byte stays where it is, and the pages are left alone. -/
theorem Built.byte_same (hf : Frame P s.mem m') (hpa : A'.pa (u / pgsize) = A.pa (u / pgsize)) (hu : u < n * pgsize) :
    byteOfSpace A' m' u = byteOfSpace A s.mem u := by
  have hv := page_of_lt hu
  unfold byteOfSpace
  rw [hpa]
  exact hf.byte (h.space.data.out _ (Nat.zero_le _) hv) (h.space.data.page _ (Nat.zero_le _) hv).1 (Nat.mod_lt u (by decide))

/-- Bytes are stored in page `v` at `o`. -/
theorem byteOfSpace_store (hv : v < n) {l : List UInt8} (hl : o + l.length ≤ pgsize) (hu : u < n * pgsize) :
    byteOfSpace A (putBytes s.mem (A.pa v + o) l) u =
      if v * pgsize + o ≤ u ∧ u < v * pgsize + o + l.length then l.getD (u - (v * pgsize + o)) 0 else byteOfSpace A s.mem u := by
  have hpage := fun w (hw : w < n) => (h.space.data.page w (Nat.zero_le w) hw).1
  have hsplit := Nat.div_add_mod u pgsize
  have huv := page_of_lt hu
  unfold byteOfSpace
  by_cases hpg : u / pgsize = v
  · rw [hpg] at hsplit ⊢
    rw [Nat.mul_comm] at hsplit
    split
    next hin =>
      obtain ⟨k, hk⟩ : ∃ k, u % pgsize = o + k := ⟨u % pgsize - o, by omega⟩
      have hlt : k < l.length := by omega
      rw [hk, ← Nat.add_assoc, putBytes_inside _ hlt, show u - (v * pgsize + o) = k by omega]
      exact (List.getD_eq_getElem l 0 hlt).symm
    next hout => exact putBytes_outside _ (by omega)
  · have hne : A.pa (u / pgsize) ≠ A.pa v := fun he => hpg (h.space.data.inj _ _ (Nat.zero_le _) huv (Nat.zero_le _) hv he)
    rw [if_neg]
    · refine putBytes_outside _ ?_
      have h1 := hpage _ huv
      have h2 := hpage v hv
      unfold pgsize at *
      omega
    unfold pgsize at *
    omega

/-- A part of a file is stored from the start of page `v` on. -/
theorem byteOfSpace_put (hv : v < n) (hc : c ≤ pgsize) (hu : u < n * pgsize) :
    byteOfSpace A (putBytes s.mem (A.pa v) (slice d o c)) u =
      if v * pgsize ≤ u ∧ u < v * pgsize + c then d (o + (u - v * pgsize)) else byteOfSpace A s.mem u := by
  have hstore := byteOfSpace_store h hv (l := slice d o c) (o := 0) (by rw [slice_length]; omega) hu
  rw [slice_length, Nat.add_zero, Nat.add_zero] at hstore
  rw [hstore]
  split
  next hin =>
    rw [List.getD_eq_getElem _ _ (by rw [slice_length]; omega)]
    simp only [slice, List.getElem_map, List.getElem_range]
  next => rfl

end

/-! ## uvmalloc -/

theorem pages_append (A : Space) {lo : Nat} (h : lo ≤ hi) : A.pages 0 hi = A.pages 0 lo ∪ A.pages lo hi := by
  refine Set.ext fun p => ⟨fun hp => ?_, fun hp => ?_⟩
  · obtain ⟨v, hv, hlt, rfl⟩ := hp
    rcases Nat.lt_or_ge v lo with hlo | hlo
    · exact .inl ⟨v, hv, hlo, rfl⟩
    · exact .inr ⟨v, hlo, hlt, rfl⟩
  · rcases hp with ⟨v, hv, hlt, rfl⟩ | ⟨v, hv, hlt, rfl⟩
    · exact ⟨v, hv, by omega, rfl⟩
    · exact ⟨v, Nat.zero_le v, hlt, rfl⟩

/-- The pages from `n` to `n'` are new. -/
structure Grew (A : Space) (m : Bytes) (n flags : Nat) (A' : Space) (m' : Bytes) (n' : Nat) : Prop where
  root : A'.tab 2 0 = A.tab 2 0
  old : ∀ v < n, A'.pte v = A.pte v
  bytes : ∀ u < n * pgsize, byteOfSpace A' m' u = byteOfSpace A m u
  fresh : ∀ v, n ≤ v → v < n' → A'.pte v = mkPte (A'.pa v) flags
  zero : ∀ u, n * pgsize ≤ u → u < n' * pgsize → byteOfSpace A' m' u = 0

/-- The same memory, in the same pages. -/
theorem Built.same (h : Built F m trapframe n P s A) (hroot : A'.tab 2 0 = A.tab 2 0) (hpte : ∀ v < n, A'.pte v = A.pte v)
    (hf : Frame P s.mem s'.mem) (flags : Nat) : Grew A s.mem n flags A' s'.mem n := by
  refine ⟨hroot, hpte, fun u hu => ?_, fun v hv hlt => ?_, fun u hv hlt => ?_⟩
  · exact h.byte_same hf (congrArg pte2pa (hpte _ (page_of_lt hu))) hu
  · omega
  · omega

theorem Built.extended {P' : Set Nat} {flags : Nat} (h : Built F m trapframe n P s A) (he : Zeroed P s A flags n hi P' s' A')
    (hle : n ≤ hi) :
    Built F m trapframe hi P' s' A' ∧ Grew A s.mem n flags A' s'.mem hi := by
  have hold : ∀ v < n, A'.pte v = A.pte v := fun v hv => he.others v (by omega)
  have hsame := h.same he.root hold he.frame flags
  refine ⟨⟨h.space.extended he hle, ?_, h.frame.trans (he.frame.mono h.pool_sub)⟩, he.root, hold, hsame.bytes, he.fresh,
      fun u hu hlt => ?_⟩
  · have hlow : A'.pages 0 n = A.pages 0 n := Space.pages_congr fun v _ hv => congrArg pte2pa (hold v hv)
    rw [pages_append A' hle, hlow, Set.union_comm (A.pages 0 n), ← Set.union_assoc, he.pool, h.pool]
  · exact he.bytes _ ((Nat.le_div_iff_mul_le (by decide)).mpr hu) (page_of_lt hlt) _ (Nat.mod_lt u (by decide))

/-- `uvmalloc` on the memory below `sz`: more of it, or as much as before, for want of pages. -/
theorem grow_wp {sz newsz xperm : Nat} {N : Finset (Nat × Nat)} (h : Built F m trapframe (npages sz) P s A)
    (hN : paths (npages sz) (npages newsz) ⊆ N) (hperm : pteRBit ||| pteUBit ||| xperm < 1024) :
    wp Never (uvmalloc (A.tab 2 0) sz newsz xperm) (fun r s' =>
      (r = 0 ∧ s.freelist.length + npages sz < A.lack N + npages newsz ∧
        ∃ P' A', A'.tab 2 0 = A.tab 2 0 ∧ Built F m trapframe (npages sz) P' s' A') ∨
      (r = max sz newsz ∧ ∃ P' A', Built F m trapframe (npages r) P' s' A' ∧
        Grew A s.mem (npages sz) (pteRBit ||| pteUBit ||| xperm) A' s'.mem (npages r) ∧
        Vm.Spent N (npages r - npages sz) s A s' A')) s := by
  have hfew := h.space.few
  rcases Nat.lt_or_ge newsz sz with hlt | hle
  · rw [uvmalloc, if_pos hlt]
    have hr : sz = max sz newsz := by omega
    refine .inr ⟨hr, P, A, h, h.same rfl (fun _ _ => rfl) (Frame.refl _ _) _, ?_⟩
    rw [Vm.Spent, Nat.sub_self, Nat.add_zero]
  · refine wp_mono (uvmalloc_wp h.space.sound hN hperm hle hfew fun u hu htop => h.space.room hu htop) fun r s' hs' => ?_
    rcases hs' with ⟨rfl, P', A', he, hspent⟩ | ⟨rfl, hshort, A', hk⟩
    · have hr : r = max sz r := by omega
      obtain ⟨hb, hg⟩ := h.extended he (npages_mono hle)
      exact .inr ⟨hr, P', A', hb, hg, hspent⟩
    · have hpages : A'.pages 0 (npages sz) = A.pages 0 (npages sz) :=
        Space.pages_congr fun v _ _ => by rw [Space.pa, hk.pte, Space.pa]
      have hmono : npages sz ≤ npages newsz := npages_mono hle
      refine .inl ⟨rfl, by omega, P, A', hk.root, h.space.kept hk, ?_, h.frame.trans (hk.frame.mono h.pool_sub)⟩
      rw [hpages]
      exact h.pool

/-! ## loadseg -/

variable {f : Node} {offset sz w : Nat}

theorem readCount_full {size off : Nat} (hsize : size ≤ maxfile * bsize) (hpos : 0 < c) :
    (readCount size off c : Int) = (c : Int) ↔ off + c ≤ size := by
  have hbytes : maxfile * bsize < 2 ^ 32 := by decide
  rw [Int.ofNat_inj]
  unfold readCount
  split <;> omega

/-- The page that `loadseg` asks for is there. -/
theorem Built.walkaddr (h : Built F m trapframe n P s A) (huser : ∀ v < n, pteU (A.pte v) = true) (hv : v < n) :
    Vm.walkaddr (A.tab 2 0) (v * pgsize) s = .ok (A.pa v, s) := by
  have hfew := h.space.few
  have hleaf := h.space.data.leaf v (Nat.zero_le v) hv
  rw [walkaddr_eq, h.space.sound.stored.userPage (va_lt (by omega)), page_va, if_pos ⟨hleaf.1, huser v hv⟩]

/-- The bytes of a segment from page `k` on are those of page `k` and those from the next page on. -/
theorem loadseg_bytes {b : UInt8} (hc : (c = sz - k * pgsize ∧ sz ≤ k * pgsize + pgsize) ∨
      (c = pgsize ∧ k * pgsize + pgsize ≤ sz)) :
    (if (w + (k + 1)) * pgsize ≤ u ∧ u < w * pgsize + sz then d (offset + (u - w * pgsize))
      else if (w + k) * pgsize ≤ u ∧ u < (w + k) * pgsize + c then d (offset + k * pgsize + (u - (w + k) * pgsize)) else b) =
    if (w + k) * pgsize ≤ u ∧ u < w * pgsize + sz then d (offset + (u - w * pgsize)) else b := by
  have hnext : (w + (k + 1)) * pgsize = w * pgsize + k * pgsize + pgsize := by
    unfold pgsize
    omega
  rw [hnext, Nat.add_mul]
  split
  next hlater => rw [if_pos (by omega)]
  next hlater =>
    split
    next hhere => rw [if_pos (by omega), show offset + k * pgsize + (u - (w * pgsize + k * pgsize)) =
        offset + (u - w * pgsize) by omega]
    next hhere => rw [if_neg (by omega)]

section

variable (h : Built F m trapframe n P s A) (huser : ∀ v < n, pteU (A.pte v) = true) (hsize : f.size ≤ maxfile * bsize)
include h huser hsize

/-- The loop of `loadseg` at page `k` of the segment. -/
theorem loadsegFromOn_wp {fuel : Nat} (hfit : w * pgsize + sz ≤ n * pgsize) (hoff : offset < 2 ^ 32)
    (hk : k = 0 ∨ offset ≤ f.size) (hfuel : npages sz ≤ k + fuel) :
    wp Never (loadsegFromOn f (A.tab 2 0) (w * pgsize) offset sz fuel (k * pgsize)) (fun ok s' =>
      s'.freelist = s.freelist ∧ Frame (A.pages 0 n) s.mem s'.mem ∧ (ok = true ↔ (k * pgsize < sz → offset + sz ≤ f.size)) ∧
        (ok = true → ∀ u < n * pgsize, byteOfSpace A s'.mem u =
          if (w + k) * pgsize ≤ u ∧ u < w * pgsize + sz then f.data (offset + (u - w * pgsize))
          else byteOfSpace A s.mem u)) s := by
  have hfew := h.space.few
  have hbytes : maxfile * bsize < 2 ^ 20 := by decide
  induction fuel generalizing s k with
  | zero =>
    have hend : sz ≤ k * pgsize := npages_le.mp hfuel
    refine ⟨rfl, Frame.refl _ _, iff_of_true rfl fun hlt => absurd hend (Nat.not_le.mpr hlt), fun _ u hu => ?_⟩
    rw [if_neg (by rw [Nat.add_mul]; omega)]
  | succ fuel ih =>
    rw [loadsegFromOn]
    by_cases hlt : k * pgsize < sz
    · have hv : w + k < n := by
        unfold pgsize at hfit hlt
        omega
      have hva : (w * pgsize + k * pgsize) % 2 ^ 64 = (w + k) * pgsize := by
        unfold pgsize
        omega
      have hnext : u32 (k * pgsize + pgsize) = (k + 1) * pgsize := by
        unfold u32 pgsize
        omega
      -- from the second page on the first read has shown that the offset is in the file
      have hat : u32 (offset + k * pgsize) = offset + k * pgsize := by
        unfold u32 pgsize
        rcases hk with rfl | hk <;> omega
      have hpa : A.pa (w + k) ≠ 0 := (h.space.data.page _ (Nat.zero_le _) hv).pos
      rw [if_pos hlt, hva, wp, run_bind_ok (h.walkaddr huser hv), if_neg hpa, hat]
      generalize hc : (if sz - k * pgsize < pgsize then sz - k * pgsize else pgsize) = c
      have hlast : (c = sz - k * pgsize ∧ sz ≤ k * pgsize + pgsize) ∨ (c = pgsize ∧ k * pgsize + pgsize ≤ sz) := by
        rw [← hc]
        split <;> omega
      have hcp : c ≤ pgsize := by omega
      have hcpos : 0 < c := by
        have hpos : 0 < pgsize := by decide
        omega
      have hle : readCount f.size (offset + k * pgsize) c ≤ c := by
        unfold readCount
        split <;> omega
      have hput : Frame (A.pages 0 n) s.mem (putBytes s.mem (A.pa (w + k)) (readAt f (offset + k * pgsize) c).1) := by
        have hone : Frame {A.pa (w + k)} s.mem (putBytes s.mem (A.pa (w + k) + 0) (readAt f (offset + k * pgsize) c).1) :=
          putBytes_frame s.mem (h.space.data.page _ (Nat.zero_le _) hv).1 (by rw [readAt, slice_length]; omega)
        exact hone.mono fun p hp => ⟨w + k, Nat.zero_le _, hv, (Set.mem_singleton_iff.mp hp).symm⟩
      change wp Never (if (readAt f (offset + k * pgsize) c).2 ≠ c then pure false else _) _
        { s with mem := putBytes s.mem (A.pa (w + k)) (readAt f (offset + k * pgsize) c).1 }
      split
      next hshort =>
        have hout : ¬offset + k * pgsize + c ≤ f.size := fun hin => hshort ((readCount_full hsize hcpos).mpr hin)
        refine ⟨rfl, hput, iff_of_false Bool.false_ne_true fun hin => ?_, fun hok => absurd hok Bool.false_ne_true⟩
        have := hin hlt
        omega
      next hfull =>
        have hcount : (readCount f.size (offset + k * pgsize) c : Int) = c := Decidable.not_not.mp hfull
        have hin := (readCount_full hsize hcpos).mp hcount
        rw [hnext]
        refine wp_mono (ih (h.write hput) (.inr (by omega)) (by omega)) ?_
        rintro ok s' ⟨hlist, hframe, hfile, hbyte⟩
        refine ⟨hlist, hput.trans hframe, hfile.trans ⟨fun hrest _ => ?_, fun hall _ => hall hlt⟩, fun hok u hu => ?_⟩
        · rcases hlast with ⟨hce, -⟩ | ⟨hce, hmore⟩
          · omega
          · rcases Nat.lt_or_ge ((k + 1) * pgsize) sz with hagain | hdone
            · exact hrest hagain
            · rw [Nat.succ_mul] at hdone
              omega
        · rw [hbyte hok u hu, readAt, Int.ofNat.inj hcount, byteOfSpace_put h hv hcp hu]
          exact loadseg_bytes hlast
    · rw [if_neg hlt]
      refine ⟨rfl, Frame.refl _ _, iff_of_true rfl fun hlt' => absurd hlt' hlt, fun _ u hu => ?_⟩
      rw [if_neg (by rw [Nat.add_mul]; omega)]

/-- `loadseg` writes the segment's bytes and no others. It fails when they are not all in the file. -/
theorem loadsegOn_wp {va : Nat} (hva : va % pgsize = 0) (hfit : va + sz ≤ n * pgsize) (hoff : offset < 2 ^ 32) :
    wp Never (loadsegOn f (A.tab 2 0) va offset sz) (fun ok s' => s'.freelist = s.freelist ∧ Frame (A.pages 0 n) s.mem s'.mem ∧
      (ok = true ↔ (0 < sz → offset + sz ≤ f.size)) ∧ (ok = true → ∀ u < n * pgsize, byteOfSpace A s'.mem u =
        if va ≤ u ∧ u < va + sz then f.data (offset + (u - va)) else byteOfSpace A s.mem u)) s := by
  obtain ⟨w, rfl⟩ : ∃ w, va = w * pgsize := ⟨va / pgsize, (Nat.div_mul_cancel (Nat.dvd_of_mod_eq_zero hva)).symm⟩
  have hfuel : npages sz ≤ 0 + (sz / pgsize + 1) := by
    unfold npages pgsize
    omega
  have hloop := loadsegFromOn_wp h huser hsize hfit hoff (.inl rfl) hfuel
  rwa [Nat.zero_mul, Nat.add_zero] at hloop

end

end

end Xv6.Exec
