/-
  Xv6.Umalloc.Search — the search of `malloc` on a free list.

  The search starts after `freep` and ends when it is back there. If some block is large enough
  it ends at one, and what it takes leaves a free list without those bytes (`take_spec`,
  `search_fits`); otherwise it comes round and asks for more memory (`search_none`).
-/

import Xv6.Umalloc.FreeList

namespace Xv6.Umalloc

open Lib (update update_self update_of_ne Circle Within hit cover)

variable {base bp p q fuel nu limit k f g : Nat} {h h' : Heap} {N N' A B : List Block} {b t v w : Block} {r : Heap × Nat}

/-! ## Taking a block -/

/-- The heap and its list after the block `t` of `nu` units was taken from it. -/
structure Taken (base : Nat) (h : Heap) (N : List Block) (nu : Nat) (t : Block) (h' : Heap) (N' : List Block) :
    Prop where
  list : FreeList base h' N'
  units : t.units = nu
  size : h'.size t.addr = nu
  cover : ∀ x, cover (spans N') x + hit t.span x = cover (spans N) x
  total : total N' + nu = total N
  frame : ∀ a, a ≠ t.addr → a ∉ N.map Block.addr → h'.size a = h.size a
  brk : h'.brk = h.brk
  chunks : h'.chunks = h.chunks

/-- A size written where no listed header is. -/
theorem Listed.write_other (hl : Listed h N) (hq : q ∉ N.map Block.addr) (n : Nat) :
    Listed { h with size := update h.size q n } N where
  ring := hl.ring
  size := by
    intro c hc
    have hne : c.addr ≠ q := fun heq => hq (heq ▸ List.mem_map_of_mem hc)
    exact (update_of_ne hne _ _).trans (hl.size c hc)
  nodup := hl.nodup

theorem head?_replace {l l' : List Block} (hh : (A ++ v :: l).head? = some b) : (A ++ v :: l').head? = some b := by
  cases A with
  | nil => exact hh
  | cons a A => exact hh

section

variable (hf : FreeList base h (A ++ v :: w :: B))
include hf

/-- A block of the very size is unlinked. -/
theorem take_whole (hw : w.units = nu) :
    Taken base h (A ++ v :: w :: B) nu w
      ({ h with ptr := update h.ptr v.addr (h.ptr w.addr) }.setFreep v.addr) (A ++ v :: B) := by
  have hl := hf.toListed.erase
  have hsub : (A ++ v :: B).Sublist (A ++ v :: w :: B) :=
    .append (List.Sublist.refl A) (.cons_cons v (List.sublist_cons_self w B))
  exact
    { list :=
        { ring := hl.ring
          size := hl.size
          nodup := hl.nodup
          head := head?_replace hf.head
          gaps := hf.gaps.sublist hsub
          pos := fun c hc => hf.pos c (hsub.subset hc)
          freep := by simp [Heap.setFreep] }
      units := hw
      size := (hf.size w (by simp)).trans hw
      cover := by
        intro x
        simp only [spans_append, spans_cons, Lib.cover_append, Lib.cover_cons]
        omega
      total := by
        simp only [total_append, total_cons]
        omega
      frame := fun a _ _ => rfl
      brk := rfl
      chunks := rfl }

/-- Of a larger block the tail is cut off. -/
theorem take_tail (hw : nu < w.units) :
    let q := w.addr + hdr * (w.units - nu)
    Taken base h (A ++ v :: w :: B) nu ⟨q, nu⟩
      ({ h with size := update (update h.size w.addr (w.units - nu)) q nu }.setFreep v.addr)
      (A ++ v :: ⟨w.addr, w.units - nu⟩ :: B) := by
  intro q
  have hsplit : hdr * w.units = hdr * (w.units - nu) + hdr * nu := by
    rw [← Nat.mul_add, Nat.sub_add_cancel hw.le]
  have hrest : 0 < hdr * (w.units - nu) := Nat.mul_pos (by decide) (by omega)
  have hgaps := hf.gaps
  simp only [List.pairwise_append, List.pairwise_cons, List.mem_cons, forall_eq_or_imp] at hgaps
  obtain ⟨hgA, ⟨⟨hvw, hvB⟩, hwB, hgB⟩, hA⟩ := hgaps
  -- the new header lies inside the old block
  have hq : q ∉ (A ++ v :: w :: B).map Block.addr := by
    intro hmem
    obtain ⟨c, hc, heq⟩ := List.mem_map.mp hmem
    simp only [Gap] at hvw hwB hA
    rcases List.mem_append.mp hc with hc | hc
    · have := (hA c hc).2.1
      omega
    · rcases List.mem_cons.mp hc with rfl | hc
      · omega
      · rcases List.mem_cons.mp hc with rfl | hc
        · omega
        · have := hwB c hc
          omega
  have hl : Listed { h with size := update h.size w.addr (w.units - nu) } (A ++ v :: ⟨w.addr, w.units - nu⟩ :: B) := by
    have hl0 : Listed h ((A ++ [v]) ++ w :: B) := by simpa using hf.toListed
    simpa using hl0.resize (w.units - nu)
  have hl' := hl.write_other (by simpa using hq) nu
  exact
    { list :=
        { ring := hl'.ring
          size := hl'.size
          nodup := hl'.nodup
          head := head?_replace hf.head
          gaps := by
            have hshort : ∀ c ∈ B, Gap ⟨w.addr, w.units - nu⟩ c := by
              intro c hc
              have := hwB c hc
              simp only [Gap] at this ⊢
              omega
            simp only [List.pairwise_append, List.pairwise_cons, List.mem_cons, forall_eq_or_imp]
            exact ⟨hgA, ⟨⟨hvw, hvB⟩, hshort, hgB⟩, hA⟩
          pos := by
            intro c hc hne
            simp only [List.mem_append, List.mem_cons] at hc
            rcases hc with hc | rfl | rfl | hc
            · exact hf.pos c (by simp [hc]) hne
            · exact hf.pos c (by simp) hne
            · exact Nat.sub_pos_of_lt hw
            · exact hf.pos c (by simp [hc]) hne
          freep := by simp [Heap.setFreep] }
      units := rfl
      size := update_self _ _ _
      cover := by
        intro x
        have hjoin : hit w.span x = hit (Block.span ⟨w.addr, w.units - nu⟩) x + hit (Block.span ⟨q, nu⟩) x := by
          simp only [Block.span]
          rw [hsplit, Lib.hit_add]
        simp only [spans_append, spans_cons, Lib.cover_append, Lib.cover_cons]
        omega
      total := by
        simp only [total_append, total_cons]
        omega
      frame := by
        intro a ha haN
        have hne : a ≠ w.addr := fun heq => haN (by simp [heq])
        exact (update_of_ne ha _ _).trans (update_of_ne hne _ _)
      brk := rfl
      chunks := rfl }

theorem take_spec (hw : nu ≤ w.units) :
    ∃ t h' N', take h v.addr w.addr nu = (h', t.addr + hdr) ∧ Taken base h (A ++ v :: w :: B) nu t h' N' := by
  have hsize : h.size w.addr = w.units := hf.size w (by simp)
  by_cases hall : w.units = nu
  · refine ⟨w, _, _, ?_, take_whole hf hall⟩
    rw [take, if_pos (hsize.trans hall)]
  · refine ⟨_, _, _, ?_, take_tail hf (by omega)⟩
    rw [take, if_neg (by omega), hsize]
    simp only [update_self]

end

/-! ## Where the search ends -/

/-- The search goes on while the next block is too small and is not `freep`. -/
theorem search_walk (limit fuel prevp : Nat)
    (hgo : ∀ j < k, h.size (h.ptr (h.ptr^[j] prevp)) < nu ∧ h.ptr (h.ptr^[j] prevp) ≠ h.freep) :
    search limit nu (fuel + k) h prevp = search limit nu fuel h (h.ptr^[k] prevp) := by
  induction k generalizing prevp with
  | zero => rfl
  | succ k ih =>
    obtain ⟨hsmall, hne⟩ := hgo 0 (Nat.succ_pos k)
    simp only [Function.iterate_zero, id_eq] at hsmall hne
    rw [← Nat.add_assoc, search, if_neg (Nat.not_le.mpr hsmall), if_neg hne, Function.iterate_succ_apply]
    exact ih (h.ptr prevp) fun j hj => hgo (j + 1) (by omega)

/-- A header whose next one has a size has it after it in the list. -/
theorem FreeList.next_sized (hf : FreeList base h N) (hx : p ∈ N.map Block.addr) (hpos : 0 < h.size (h.ptr p)) :
    ∃ A v w B, N = A ++ v :: w :: B ∧ v.addr = p ∧ h.size (h.ptr p) = w.units ∧ h.ptr p = w.addr := by
  obtain ⟨v, hv, rfl⟩ := List.mem_map.mp hx
  obtain ⟨A, B, rfl⟩ := List.append_of_mem hv
  cases B with
  | nil =>
    have hptr : h.ptr v.addr = base := hf.ptr_last hf.head
    have hzero : h.size base = 0 := hf.size ⟨base, 0⟩ (List.mem_of_head? hf.head)
    rw [hptr, hzero] at hpos
    exact absurd hpos (lt_irrefl 0)
  | cons w B =>
    have hptr := hf.ptr_eq
    exact ⟨A, v, w, B, rfl, rfl, hptr ▸ hf.size w (by simp), hptr⟩

/-- The search meets a block that is large enough before it is back at `freep`. -/
theorem FreeList.first_fit (hf : FreeList base h N) (hfits : ∃ b ∈ N, nu ≤ b.units) :
    ∃ k < N.length, nu ≤ h.size (h.ptr (h.ptr^[k] h.freep)) ∧
      ∀ j < k, h.size (h.ptr (h.ptr^[j] h.freep)) < nu ∧ h.ptr (h.ptr^[j] h.freep) ≠ h.freep := by
  obtain ⟨b, hb, hnb⟩ := hfits
  obtain ⟨y, hy, hyb⟩ := hf.ring.exists_prev (List.mem_map_of_mem hb)
  have hstop : ∃ y ∈ N.map Block.addr, nu ≤ h.size (h.ptr y) := ⟨y, hy, by rw [hyb, hf.size b hb]; exact hnb⟩
  obtain ⟨k, hk, hfit, hsmall⟩ := hf.ring.first hf.freep hstop
  rw [List.length_map] at hk
  refine ⟨k, hk, hfit, fun j hj => ⟨Nat.not_le.mp (hsmall j hj), fun hback => ?_⟩⟩
  -- coming back to `freep` before that, the search would have passed the block already
  apply hsmall (k - (j + 1)) (by omega)
  rw [← Function.iterate_succ_apply' h.ptr] at hback
  have hsum : h.ptr^[k] h.freep = h.ptr^[k - (j + 1)] h.freep := by
    conv_lhs => rw [show k = (k - (j + 1)) + (j + 1) by omega, Function.iterate_add_apply, hback]
  rwa [← hsum]

/-- The search comes round when no block is large enough. -/
theorem FreeList.round (hf : FreeList base h N) (hsmall : ∀ b ∈ N, b.units < nu) :
    ∃ k < N.length, h.ptr (h.ptr^[k] h.freep) = h.freep ∧ h.size h.freep < nu ∧
      ∀ j < k, h.size (h.ptr (h.ptr^[j] h.freep)) < nu ∧ h.ptr (h.ptr^[j] h.freep) ≠ h.freep := by
  have hlisted : ∀ a ∈ N.map Block.addr, h.size a < nu := by
    intro a ha
    obtain ⟨c, hc, rfl⟩ := List.mem_map.mp ha
    rw [hf.size c hc]
    exact hsmall c hc
  have hstop : ∃ y ∈ N.map Block.addr, h.ptr y = h.freep := hf.ring.exists_prev hf.freep
  obtain ⟨k, hk, hback, hgo⟩ := hf.ring.first hf.freep hstop
  rw [List.length_map] at hk
  exact ⟨k, hk, hback, hlisted _ hf.freep, fun j hj => ⟨hlisted _ (hf.ring.next_mem (hf.ring.mem_iterate hf.freep j)), hgo j hj⟩⟩

theorem search_fits (limit : Nat) (hf : FreeList base h N) (hpos : 0 < nu) (hfits : ∃ b ∈ N, nu ≤ b.units)
    (hfuel : N.length ≤ fuel) :
    ∃ t h' N', search limit nu fuel h h.freep = some (h', t.addr + hdr) ∧ Taken base h N nu t h' N' := by
  obtain ⟨k, hk, hfit, hgo⟩ := hf.first_fit hfits
  have hwalk := search_walk limit (fuel - k) h.freep hgo
  obtain ⟨A, v, w, B, rfl, hv, hw, hptr⟩ := hf.next_sized (hf.ring.mem_iterate hf.freep k) (by omega)
  obtain ⟨t, h', N', htake, htaken⟩ := take_spec hf (hw ▸ hfit)
  refine ⟨t, h', N', ?_, htaken⟩
  rw [Nat.sub_add_cancel (by omega)] at hwalk
  obtain ⟨f, hf'⟩ : ∃ f, fuel - k = f + 1 := ⟨fuel - k - 1, by omega⟩
  rw [hwalk, hf', search, if_pos hfit, hptr, ← hv, htake]

theorem search_none (limit : Nat) (hf : FreeList base h N) (hsmall : ∀ b ∈ N, b.units < nu) (hfuel : N.length ≤ fuel) :
    ∃ f, fuel ≤ f + N.length ∧ search limit nu fuel h h.freep =
      (morecore limit f h nu).bind fun r => if r.2 = 0 then some (r.1, 0) else search limit nu f r.1 r.2 := by
  obtain ⟨k, hk, hback, hlast, hgo⟩ := hf.round hsmall
  have hwalk := search_walk limit (fuel - k) h.freep hgo
  rw [Nat.sub_add_cancel (by omega)] at hwalk
  obtain ⟨f, hf'⟩ : ∃ f, fuel - k = f + 1 := ⟨fuel - k - 1, by omega⟩
  refine ⟨f, by omega, ?_⟩
  rw [hwalk, hf', search, hback, if_neg (Nat.not_le.mpr hlast), if_pos rfl]

/-! ## More rounds change nothing -/

theorem free_mono {ap : Nat} (hfree : free f h ap = some h') (hfg : f ≤ g) : free g h ap = some h' := by
  obtain ⟨p, hp, rfl⟩ := Option.map_eq_some_iff.mp hfree
  exact Option.map_eq_some_iff.mpr ⟨p, Lib.follow_mono hp hfg, rfl⟩

theorem morecore_mono (hmore : morecore limit f h nu = some r) (hfg : f ≤ g) :
    morecore limit g h nu = some r := by
  rcases hs : sbrk limit h (max nu 4096 * hdr) with ⟨h1, _ | p⟩
  · simpa only [morecore, hs] using hmore
  · simp only [morecore, hs] at hmore ⊢
    obtain ⟨h2, hfree, rfl⟩ := Option.map_eq_some_iff.mp hmore
    exact Option.map_eq_some_iff.mpr ⟨h2, free_mono hfree hfg, rfl⟩

theorem search_mono (hsearch : search limit nu f h p = some r) (hfg : f ≤ g) :
    search limit nu g h p = some r := by
  induction f generalizing g h p with
  | zero => cases hsearch
  | succ f ih =>
    obtain ⟨g, rfl⟩ : ∃ k, g = k + 1 := ⟨g - 1, by omega⟩
    have hle : f ≤ g := by omega
    rw [search] at hsearch ⊢
    split at hsearch
    next hfit => exact (if_pos hfit).trans hsearch
    next hfit =>
      rw [if_neg hfit]
      split at hsearch
      next hround =>
        obtain ⟨q, hmore, hq⟩ := Option.bind_eq_some_iff.mp hsearch
        rw [if_pos hround, morecore_mono hmore hle, Option.bind_some]
        split at hq
        next hzero => exact (if_pos hzero).trans hq
        next hzero => exact (if_neg hzero).trans (ih hq hle)
      next hround => exact (if_neg hround).trans (ih hsearch hle)

end Xv6.Umalloc
