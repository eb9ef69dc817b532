/-
  Xv6.Umalloc.Large — large requests (user/umalloc.c: `morecore`, `malloc`; user/user.h: `sbrk`).

  `morecore` passes `nu * sizeof(Header)`, a 64-bit product, to `sbrk`, which takes an `int`. From 2³¹ on
  the count is another number there: a negative one gives memory back and "succeeds", and so does 0.

  Proved, in a run whose earlier requests were not too large:
  - `malloc_granted_iff`: the counts that reach `sbrk` are those that were computed, and `malloc` returns
    0 or a pointer to bytes that `sbrk` has handed out, exactly when a free block is large enough or
    the count is below 2³¹.
  - `large_request_returns_foreign_memory`: `malloc(2³¹)` returns a pointer to memory that is not there.
-/

import Xv6.Umalloc.Runs

namespace Xv6.Umalloc

open Lib (Within Reach)

/-- The counts that the loop of `malloc` passes to `sbrk`. -/
def searchCounts (limit nu : Nat) : Nat → Heap → Nat → List Nat
  | 0, _, _ => []
  | fuel + 1, h, prevp =>
    let p := h.ptr prevp
    if nu ≤ h.size p then []
    else if p = h.freep then
      max nu 4096 * hdr :: match morecore limit fuel h nu with
        | none => []
        | some r => if r.2 = 0 then [] else searchCounts limit nu fuel r.1 r.2
    else searchCounts limit nu fuel h p

def counts (base limit fuel : Nat) (h : Heap) (nbytes : Nat) : List Nat :=
  searchCounts limit (nunits nbytes) fuel (h.start base) (h.start base).freep

/-- `sbrk` is given each count as it is, and what `malloc` returns is 0 or a pointer to `nbytes` bytes that `sbrk` has
    handed out. -/
structure Granted (base limit fuel : Nat) (h : Heap) (nbytes : Nat) : Prop where
  counts : ∀ k ∈ counts base limit fuel h nbytes, Int.bmod k (2 ^ 32) = k
  result : ∃ h' r, malloc base limit fuel h nbytes = some (h', r) ∧
    (r = 0 ∨ ∀ x, r ≤ x → x < r + nbytes → ∃ c ∈ h'.chunks, Within c x)

variable {base limit fuel nu prevp k : Nat} {h : Heap} {N : List Block} {s : St}

/-- All counts are the same. -/
theorem eq_of_mem_searchCounts (hk : k ∈ searchCounts limit nu fuel h prevp) : k = max nu 4096 * hdr := by
  induction fuel generalizing h prevp with
  | zero => cases hk
  | succ fuel ih =>
    rw [searchCounts] at hk
    split at hk
    · cases hk
    · split at hk
      · rcases List.mem_cons.mp hk with rfl | hk
        · rfl
        · split at hk
          · cases hk
          · split at hk
            · cases hk
            · exact ih hk
      · exact ih hk

theorem searchCounts_walk (limit fuel prevp : Nat)
    (hgo : ∀ j < k, h.size (h.ptr (h.ptr^[j] prevp)) < nu ∧ h.ptr (h.ptr^[j] prevp) ≠ h.freep) :
    searchCounts limit nu (fuel + k) h prevp = searchCounts limit nu fuel h (h.ptr^[k] prevp) := by
  induction k generalizing prevp with
  | zero => rfl
  | succ k ih =>
    obtain ⟨hsmall, hne⟩ := hgo 0 (Nat.succ_pos k)
    simp only [Function.iterate_zero, id_eq] at hsmall hne
    rw [← Nat.add_assoc, searchCounts, if_neg (Nat.not_le.mpr hsmall), if_neg hne, Function.iterate_succ_apply]
    exact ih (h.ptr prevp) fun j hj => hgo (j + 1) (by omega)

/-- `sbrk` is asked exactly when no block is large enough. -/
theorem searchCounts_eq_nil (limit : Nat) (hf : FreeList base h N) (hfuel : N.length ≤ fuel) :
    searchCounts limit nu fuel h h.freep = [] ↔ ∃ b ∈ N, nu ≤ b.units := by
  by_cases hfits : ∃ b ∈ N, nu ≤ b.units
  · refine iff_of_true ?_ hfits
    obtain ⟨k, hk, hfit, hgo⟩ := hf.first_fit hfits
    have hwalk := searchCounts_walk limit (fuel - k) h.freep hgo
    rw [Nat.sub_add_cancel (by omega)] at hwalk
    obtain ⟨f, hf'⟩ : ∃ f, fuel - k = f + 1 := ⟨fuel - k - 1, by omega⟩
    rw [hwalk, hf', searchCounts, if_pos hfit]
  · refine iff_of_false ?_ hfits
    obtain ⟨k, hk, hback, hlast, hgo⟩ := hf.round fun b hb => Nat.not_le.mp fun hle => hfits ⟨b, hb, hle⟩
    have hwalk := searchCounts_walk limit (fuel - k) h.freep hgo
    rw [Nat.sub_add_cancel (by omega)] at hwalk
    obtain ⟨f, hf'⟩ : ∃ f, fuel - k = f + 1 := ⟨fuel - k - 1, by omega⟩
    rw [hwalk, hf', searchCounts, hback, if_neg (Nat.not_le.mpr hlast), if_pos rfl]
    exact List.cons_ne_nil _ _

/-- A count is the same as an `int` exactly below 2³¹: `nu` units have at most 2³² + 16 bytes. -/
theorem count_eq_iff {n : Nat} (hn : n < 2 ^ 32) :
    Int.bmod ((max (nunits n) 4096 * hdr : Nat) : Int) (2 ^ 32) = (max (nunits n) 4096 * hdr : Nat) ↔
      max (nunits n) 4096 * hdr < 2 ^ 31 := by
  have hle : max (nunits n) 4096 * hdr ≤ 2 ^ 32 + 16 := by
    simp only [nunits, hdr]
    omega
  generalize max (nunits n) 4096 * hdr = k at hle
  rw [Int.bmod_def]
  split <;> omega

theorem Fits.iff_listed (hf : FreeList base h N) : Fits h nu ↔ ∃ b ∈ N, nu ≤ b.units := by
  constructor
  · rintro ⟨k, hk⟩
    obtain ⟨b, hb, heq⟩ := List.mem_map.mp (hf.ring.mem_iterate hf.freep k)
    rw [← heq, hf.size b hb] at hk
    exact ⟨b, hb, hk⟩
  · intro hfits
    obtain ⟨k, -, hfit, -⟩ := hf.first_fit hfits
    exact ⟨k + 1, by rwa [Function.iterate_succ_apply']⟩

theorem malloc_granted_iff {brk : Nat} {answers : List (Option Nat)} (hbase : 0 < base) (hbrk : base + hdr ≤ brk)
    (hr : Reach (step base (2 ^ 36)) (fun s a => Modest base s a.2) (initial brk answers) s) (nbytes : Nat)
    (hn : nbytes < 2 ^ 32) :
    ∃ fuel, ∀ f, fuel ≤ f → (Granted base (2 ^ 36) f s.heap nbytes ↔
      Fits (s.heap.start base) (nunits nbytes) ∨ max (nunits nbytes) 4096 * hdr < 2 ^ 31) := by
  have hg := good_of_reach hbase hbrk hr
  obtain ⟨-, -, N, hi⟩ := hg.start hbase
  by_cases hask : Fits (s.heap.start base) (nunits nbytes) ∨ max (nunits nbytes) 4096 * hdr < 2 ^ 31
  · obtain ⟨s', fuel, hg', hcall⟩ := hg.call (a := .malloc nbytes) hbase le_rfl trivial ⟨hn, hask⟩
    refine ⟨max fuel N.length, fun f hf => iff_of_true ⟨fun k hk => ?_, ?_⟩ hask⟩
    · rw [eq_of_mem_searchCounts hk]
      refine (count_eq_iff hn).mpr (hask.resolve_left fun hfits => ?_)
      rw [counts, (searchCounts_eq_nil (2 ^ 36) hi.list (by omega)).mpr ((Fits.iff_listed hi.list).mp hfits)] at hk
      cases hk
    · obtain ⟨⟨h', r⟩, hmalloc, rfl⟩ := Option.map_eq_some_iff.mp (hcall f (by omega))
      refine ⟨h', r, hmalloc, ?_⟩
      by_cases hz : r = 0
      · exact .inl hz
      · obtain ⟨F, hw⟩ := hg'.wellFormed
        have hlive : (r, nbytes) ∈ (if r = 0 then s.live else (r, nbytes) :: s.live) := by
          rw [if_neg hz]
          exact List.mem_cons_self
        exact .inr fun x hlo hhi => (hw.bytes (r, nbytes) hlive x hlo hhi).1
  · refine ⟨N.length, fun f hf => iff_of_false (fun hgr => hask ?_) hask⟩
    by_cases hnil : counts base (2 ^ 36) f s.heap nbytes = []
    · exact .inl ((Fits.iff_listed hi.list).mpr ((searchCounts_eq_nil (2 ^ 36) hi.list hf).mp hnil))
    · obtain ⟨k, hk⟩ := List.exists_mem_of_ne_nil _ hnil
      have hcount := hgr.counts k hk
      rw [eq_of_mem_searchCounts hk] at hcount
      exact .inr ((count_eq_iff hn).mp hcount)

/-- The program has freed one of two blocks. -/
theorem malloc_granted_iff_again : ∃ s fuel, Reach (step 64 (2 ^ 36)) (fun s a => Modest 64 s a.2) (initial 4096 [some 0]) s ∧
    s.live = [(69520, 100)] ∧ ∀ f, fuel ≤ f → Granted 64 (2 ^ 36) f s.heap 200 := by
  have hrun : ((Lib.run (step 64 (2 ^ 36)) (initial 4096 [some 0]) [(10, .malloc 100), (10, .malloc 300), (10, .free 69200)]).map
      St.live) = some [(69520, 100)] := by decide +kernel
  obtain ⟨s, hs, hlive⟩ := Option.map_eq_some_iff.mp hrun
  have hr : Reach (step 64 (2 ^ 36)) (fun s a => Modest 64 s a.2) (initial 4096 [some 0]) s := by
    refine Lib.reach_of_run (fun a ha t => ?_) hs
    simp only [List.mem_cons, List.not_mem_nil, or_false] at ha
    rcases ha with rfl | rfl | rfl
    · exact ⟨by decide, .inr (by decide)⟩
    · exact ⟨by decide, .inr (by decide)⟩
    · trivial
  obtain ⟨fuel, hf⟩ := malloc_granted_iff (by decide) (by decide) hr 200 (by decide)
  exact ⟨s, fuel, hr, hlive, fun f hle => (hf f hle).mpr (.inr (by decide))⟩

/-- The count 2³¹ + 16 is negative in an `int`, and lower than the break is high: `sbrk` does nothing and returns the break,
    which `malloc` takes for 2³¹ new bytes. The page there is mapped, so the header can be written. -/
theorem large_request_returns_foreign_memory :
    ((step 64 (2 ^ 36) (initial 8192 [some 0]) (4, .malloc 70000)).bind fun s =>
      step 64 (2 ^ 36) s (4, .malloc (2 ^ 31))).map (fun s => (s.live, s.heap.chunks)) =
      some ([(78224, 2 ^ 31), (8208, 70000)], [(8192, 70016)]) := by
  decide +kernel

end Xv6.Umalloc
