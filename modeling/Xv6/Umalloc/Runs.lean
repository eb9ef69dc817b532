/-
  Xv6.Umalloc.Runs — a program's calls of `malloc` and `free`.

  `St` adds to the heap the pointers the program holds, each with the size it asked for. In
  every run whose calls free only such pointers, the free list and the blocks of those pointers
  tile what `sbrk` handed out, and every call returns (`heap_invariant`), as long as `sbrk`
  hands out less than 2^36 bytes. Beyond that a joined block can be too large for the 32 bits
  of its size, and memory is lost (`join_overflows`).
-/

import Mathlib.Data.List.Pairwise
import Xv6.Lib.Reach
import Xv6.Umalloc.Search

namespace Xv6.Umalloc

open Lib (update update_self update_of_ne Circle Within hit cover Apart Reach)

structure St where
  heap : Heap
  /-- The pointers that `malloc` returned and the program has not freed, with their sizes. -/
  live : List (Nat × Nat)

inductive Call where
  | malloc (nbytes : Nat)
  | free (ap : Nat)
  deriving DecidableEq, Repr

/-- A call, with a bound on the rounds of its loops; only pointers that the program holds are
freed. -/
def step (base limit : Nat) (s : St) (a : Nat × Call) : Option St :=
  match a.2 with
  | .malloc nbytes => (malloc base limit a.1 s.heap nbytes).map fun r =>
      ⟨r.1, if r.2 = 0 then s.live else (r.2, nbytes) :: s.live⟩
  | .free ap =>
    if ap ∈ s.live.map Prod.fst then (free a.1 s.heap ap).map fun h => ⟨h, s.live.eraseP (·.1 = ap)⟩ else none

/-- Some header on the way round the list is large enough. -/
def Fits (h : Heap) (nu : Nat) : Prop := ∃ k, nu ≤ h.size (h.ptr^[k] h.freep)

/-- A call of `malloc` asks `sbrk` for less than 2^31 bytes, if it asks at all. -/
def Modest (base : Nat) (s : St) : Call → Prop
  | .malloc nbytes => nbytes < 2 ^ 32 ∧
      (Fits (s.heap.start base) (nunits nbytes) ∨ max (nunits nbytes) 4096 * hdr < 2 ^ 31)
  | .free _ => True

/-- The block of a pointer that the program holds. -/
def liveBlock (l : Nat × Nat) : Block := ⟨l.1 - hdr, nunits l.2⟩

def St.blocks (s : St) : List Block := s.live.map liveBlock

/-! ## The invariant -/

structure Inv (base limit : Nat) (h : Heap) (live N : List Block) : Prop where
  list : FreeList base h N
  size : ∀ b ∈ live, h.size b.addr = b.units
  pos : ∀ b ∈ live, 0 < b.units
  tile : ∀ x, cover (spans N) x + cover (spans live) x = cover h.chunks x
  once : ∀ x, cover h.chunks x ≤ 1
  above : ∀ c ∈ h.chunks, base + hdr ≤ c.1 ∧ c.1 + c.2 ≤ h.brk
  brk : base + hdr ≤ h.brk
  total : hdr * (total N + total live) = h.obtained
  bound : h.obtained < limit

variable {base limit fuel nu p x brk : Nat} {h h' : Heap} {live live' N N' : List Block} {b c t : Block} {s s' : St}
  {answers : List (Option Nat)}

theorem span_within (hb : 0 < b.units) : Within b.span b.addr := by
  have : 0 < hdr * b.units := Nat.mul_pos (by decide) hb
  simp only [Within, Block.span]
  omega

section

variable (hi : Inv base limit h live N)

include hi

theorem Inv.perm (hp : live.Perm live') : Inv base limit h live' N where
  list := hi.list
  size b hb := hi.size b (hp.mem_iff.mpr hb)
  pos b hb := hi.pos b (hp.mem_iff.mpr hb)
  tile x := by rw [← hi.tile x, cover_spans_perm hp]
  once := hi.once
  above := hi.above
  brk := hi.brk
  total := by rw [← hi.total, total_perm hp]
  bound := hi.bound

/-- What is covered was handed out by `sbrk`. -/
theorem Inv.covered (hx : 0 < cover h.chunks x) : base + hdr ≤ x ∧ x < h.brk := by
  obtain ⟨c, hc, hcx⟩ := Lib.cover_pos.mp hx
  have := hi.above c hc
  simp only [Within] at hcx
  omega

theorem Inv.live_covered (hb : b ∈ live) : base + hdr ≤ b.addr ∧ b.addr < h.brk := by
  apply hi.covered
  have hhit := Lib.hit_pos.mpr (span_within (hi.pos b hb))
  have hle := hit_le_spans hb b.addr
  have := hi.tile b.addr
  omega

theorem Inv.listed_covered (hb : b ∈ N) : b.addr < h.brk := by
  by_cases hbase : b.addr = base
  · have := hi.brk
    simp only [hdr] at this
    omega
  · refine (hi.covered ?_).2
    have hhit := Lib.hit_pos.mpr (span_within (hi.list.pos b hb hbase))
    have hle := hit_le_spans hb b.addr
    have := hi.tile b.addr
    omega

/-- A block of the free list and one that the program holds lie apart. -/
theorem Inv.apart (hc : c ∈ N) (hb : b ∈ live) :
    c.addr + hdr * c.units ≤ b.addr ∨ b.addr + hdr * b.units ≤ c.addr := by
  by_cases hbase : c.addr = base
  · -- `base` itself lies below the heap, and has no bytes
    have hlow := hi.live_covered hb
    have hzero : c.units = 0 := by
      have h0 := hi.list.size ⟨base, 0⟩ (List.mem_of_head? hi.list.head)
      rw [← hi.list.size c hc, hbase, h0]
    rw [hzero]
    omega
  · refine Lib.apart_of_cover (i := c.span) (j := b.span) ?_ ?_ fun y => ?_
    · exact Nat.mul_pos (by decide) (hi.list.pos c hc hbase)
    · exact Nat.mul_pos (by decide) (hi.pos b hb)
    · have hcy := hit_le_spans hc y
      have hby := hit_le_spans hb y
      have htile := hi.tile y
      have honce := hi.once y
      omega

theorem Inv.notMem (hb : b ∈ live) : b.addr ∉ N.map Block.addr := by
  intro hmem
  obtain ⟨c, hc, heq⟩ := List.mem_map.mp hmem
  have hlow := hi.live_covered hb
  have hcpos : 0 < hdr * c.units := Nat.mul_pos (by decide) (hi.list.pos c hc (by simp only [hdr] at hlow; omega))
  have hbpos : 0 < hdr * b.units := Nat.mul_pos (by decide) (hi.pos b hb)
  have := hi.apart hc hb
  omega

end

/-! ## What the calls keep -/

theorem Inv.free (hi : Inv base limit h (b :: live) N) (hlimit : limit ≤ 2 ^ 36) (hfuel : N.length ≤ fuel) :
    ∃ h' N', Umalloc.free fuel h (b.addr + hdr) = some h' ∧ Inv base limit h' live N' ∧ h'.freep ∈ N'.map Block.addr ∧
      N'.length ≤ N.length + 1 ∧ ∃ c ∈ N', b.units ≤ c.units := by
  have hb : b ∈ b :: live := List.mem_cons_self
  have hlow := hi.live_covered hb
  have htotal := hi.total
  have hbound := hi.bound
  simp only [hdr, total_cons] at hlow htotal
  obtain ⟨h', N', hfree, hfreed⟩ := free_spec hi.list (by omega) (hi.size b hb) (hi.pos b hb)
    (fun c hc => hi.apart hc hb) (by omega) hfuel
  refine ⟨h', N', hfree, ?_, hfreed.list.freep, hfreed.length, hfreed.large⟩
  exact
    { list := hfreed.list
      size := by
        intro c hc
        have hc' : c ∈ b :: live := List.mem_cons_of_mem _ hc
        -- the other blocks of the program begin elsewhere
        have hne : c.addr ≠ b.addr := by
          intro heq
          have hcx := Lib.hit_pos.mpr (span_within (hi.pos c hc'))
          have hbx := Lib.hit_pos.mpr (span_within (hi.pos b hb))
          have hle := hit_le_spans hc c.addr
          have htile := hi.tile c.addr
          have honce := hi.once c.addr
          rw [← heq] at hbx
          rw [spans_cons, Lib.cover_cons] at htile
          omega
        rw [hfreed.frame c.addr hne (hi.notMem hc')]
        exact hi.size c hc'
      pos := fun c hc => hi.pos c (List.mem_cons_of_mem _ hc)
      tile := by
        intro x
        have := hi.tile x
        rw [spans_cons, Lib.cover_cons] at this
        rw [hfreed.cover, hfreed.chunks]
        omega
      once := by
        rw [hfreed.chunks]
        exact hi.once
      above := by
        rw [hfreed.chunks, hfreed.brk]
        exact hi.above
      brk := by
        rw [hfreed.brk]
        exact hi.brk
      total := by
        rw [hfreed.total, Heap.obtained, hfreed.chunks, ← Heap.obtained, ← hi.total, total_cons, Nat.add_assoc]
      bound := by
        rw [Heap.obtained, hfreed.chunks]
        exact hi.bound }

theorem Inv.take (hi : Inv base limit h live N) (hnu : 0 < nu) (ht : Taken base h N nu t h' N') :
    Inv base limit h' (t :: live) N' where
  list := ht.list
  size := by
    intro c hc
    rcases List.mem_cons.mp hc with rfl | hc
    · rw [ht.size, ht.units]
    · -- `t` lies in what was free, so no other block begins there
      have hne : c.addr ≠ t.addr := by
        intro heq
        have htx := Lib.hit_pos.mpr (span_within (b := t) (by rw [ht.units]; exact hnu))
        have hcx := Lib.hit_pos.mpr (span_within (hi.pos c hc))
        have hle := hit_le_spans hc c.addr
        have hcov := ht.cover c.addr
        have htile := hi.tile c.addr
        have honce := hi.once c.addr
        rw [← heq] at htx
        omega
      rw [ht.frame c.addr hne (hi.notMem hc)]
      exact hi.size c hc
  pos := by
    intro c hc
    rcases List.mem_cons.mp hc with rfl | hc
    · rw [ht.units]
      exact hnu
    · exact hi.pos c hc
  tile := by
    intro x
    have htile := hi.tile x
    have hcov := ht.cover x
    rw [spans_cons, Lib.cover_cons, ht.chunks]
    omega
  once := by
    rw [ht.chunks]
    exact hi.once
  above := by
    rw [ht.chunks, ht.brk]
    exact hi.above
  brk := by
    rw [ht.brk]
    exact hi.brk
  total := by
    rw [total_cons, ht.units, Heap.obtained, ht.chunks, ← Heap.obtained, ← hi.total, ← ht.total, Nat.add_assoc]
  bound := by
    rw [Heap.obtained, ht.chunks]
    exact hi.bound

variable {n f : Nat} {a : Call} {F : List Block}

/-- Memory that `sbrk` hands out, with its header written, is a block that nobody else has. -/
theorem Inv.grant (hi : Inv base limit h live N) (nu gap : Nat) (hnu : 0 < nu) (hn : n = nu * hdr)
    (hbound : h.obtained + n < limit) (rest : List (Option Nat)) :
    Inv base limit
      { h with
        size := update h.size (h.brk + gap) nu
        answers := rest
        brk := h.brk + gap + n
        chunks := (h.brk + gap, n) :: h.chunks }
      (⟨h.brk + gap, nu⟩ :: live) N := by
  have hspan : Block.span ⟨h.brk + gap, nu⟩ = (h.brk + gap, n) := by rw [Block.span, hn, Nat.mul_comm]
  have hnew : h.brk + gap ∉ N.map Block.addr := by
    intro hmem
    obtain ⟨c, hc, heq⟩ := List.mem_map.mp hmem
    have := hi.listed_covered hc
    omega
  have hl := hi.list.toListed.write_other hnew nu
  exact
    { list := ⟨⟨hl.ring, hl.size, hl.nodup⟩, hi.list.head, hi.list.gaps, hi.list.pos, hi.list.freep⟩
      size := by
        intro c hc
        rcases List.mem_cons.mp hc with rfl | hc
        · exact update_self _ _ _
        · have hlt := (hi.live_covered hc).2
          have hne : c.addr ≠ h.brk + gap := by omega
          exact (update_of_ne hne _ _).trans (hi.size c hc)
      pos := by
        intro c hc
        rcases List.mem_cons.mp hc with rfl | hc
        · exact hnu
        · exact hi.pos c hc
      tile := by
        intro x
        have := hi.tile x
        rw [spans_cons, Lib.cover_cons, Lib.cover_cons, hspan]
        omega
      once := by
        intro x
        rw [Lib.cover_cons]
        have honce := hi.once x
        by_cases hx : 0 < cover h.chunks x
        · -- `x` was handed out before, below the new memory
          have hlt := (hi.covered hx).2
          have hmiss : ¬Within (h.brk + gap, n) x := fun hw => by
            have := hw.1
            omega
          rw [hit, if_neg hmiss]
          omega
        · have hle : hit (h.brk + gap, n) x ≤ 1 := by
            unfold hit
            split <;> omega
          omega
      above := by
        intro c hc
        have hbrk := hi.brk
        rcases List.mem_cons.mp hc with rfl | hc
        · simp only
          omega
        · have := hi.above c hc
          simp only
          omega
      brk := by
        have := hi.brk
        simp only
        omega
      total := by
        have htotal := hi.total
        simp only [Heap.obtained, List.map_cons, List.sum_cons, total_cons] at htotal ⊢
        simp only [hdr] at htotal hn ⊢
        omega
      bound := by
        simp only [Heap.obtained, List.map_cons, List.sum_cons] at hbound ⊢
        omega }

/-- `sbrk` refuses, or the memory it hands out is freed into the list. -/
theorem Inv.morecore (hi : Inv base limit h live N) (hbase : 0 < base) (hlimit : limit ≤ 2 ^ 36)
    (hask : max nu 4096 * hdr < 2 ^ 31) (hfuel : N.length ≤ fuel) :
    ∃ h' r, Umalloc.morecore limit fuel h nu = some (h', r) ∧
      ((r = 0 ∧ Inv base limit h' live N) ∨
        (r = h'.freep ∧ r ≠ 0 ∧ ∃ N', Inv base limit h' live N' ∧ N'.length ≤ N.length + 1 ∧ ∃ c ∈ N', nu ≤ c.units)) := by
  -- a refusal changes none of what the invariant is about
  have hrefuse : ∀ rest, Inv base limit { h with answers := rest } live N := fun rest =>
    ⟨⟨⟨hi.list.ring, hi.list.size, hi.list.nodup⟩, hi.list.head, hi.list.gaps, hi.list.pos, hi.list.freep⟩,
      hi.size, hi.pos, hi.tile, hi.once, hi.above, hi.brk, hi.total, hi.bound⟩
  have hmod : max nu 4096 * hdr % 2 ^ 32 = max nu 4096 * hdr := Nat.mod_eq_of_lt (by omega)
  simp only [Umalloc.morecore, sbrk, hmod, if_pos hask]
  split
  next h' heq =>
    refine ⟨h', 0, rfl, .inl ⟨rfl, ?_⟩⟩
    split at heq
    next =>
      cases heq
      exact hi
    next rest _ =>
      cases heq
      exact hrefuse rest
    next gap rest _ =>
      split at heq
      · cases heq
      · cases heq
        exact hrefuse rest
  next h' p heq =>
    split at heq
    next => cases heq
    next => cases heq
    next gap rest _ =>
      split at heq
      next hroom =>
        cases heq
        have hgrant := hi.grant (max nu 4096) gap (by omega) rfl hroom rest
        obtain ⟨h', N', hfree, hinv, hfreep, hlen, c, hc, hle⟩ := hgrant.free hlimit hfuel
        refine ⟨h', h'.freep, ?_, .inr ⟨rfl, ?_, N', hinv, hlen, c, hc, ?_⟩⟩
        · simp only [hfree, Option.map_some]
        · obtain ⟨d, hd, heq⟩ := List.mem_map.mp hfreep
          have := hinv.list.base_le hd
          omega
        · simp only at hle
          omega
      next => cases heq

/-- `malloc` on a list: it fails, or a block of the size asked for is the program's. -/
theorem Inv.search (hi : Inv base limit h live N) (hbase : 0 < base) (hlimit : limit ≤ 2 ^ 36) (hnu : 0 < nu)
    (hask : (∃ b ∈ N, nu ≤ b.units) ∨ max nu 4096 * hdr < 2 ^ 31) (hfuel : 2 * N.length + 4 ≤ fuel) :
    ∃ h' r, Umalloc.search limit nu fuel h h.freep = some (h', r) ∧
      ((r = 0 ∧ ∃ N', Inv base limit h' live N') ∨
        ∃ t N', r = t.addr + hdr ∧ t.units = nu ∧ Inv base limit h' (t :: live) N') := by
  have hle : N.length ≤ fuel := by omega
  by_cases hfits : ∃ b ∈ N, nu ≤ b.units
  · obtain ⟨t, h', N', hsearch, ht⟩ := search_fits limit hi.list hnu hfits hle
    exact ⟨h', _, hsearch, .inr ⟨t, N', rfl, ht.units, hi.take hnu ht⟩⟩
  · have hsmall : ∀ b ∈ N, b.units < nu := fun b hb => Nat.not_le.mp fun hle => hfits ⟨b, hb, hle⟩
    obtain ⟨f, hf, hsearch⟩ := search_none limit hi.list hsmall hle
    have hle' : N.length ≤ f := by omega
    obtain ⟨h1, r, hmore, hcase⟩ := hi.morecore hbase hlimit (hask.resolve_left hfits) hle'
    rw [hsearch, hmore, Option.bind_some]
    rcases hcase with ⟨rfl, hi1⟩ | ⟨rfl, hr, N1, hi1, hlen, hlarge⟩
    · exact ⟨h1, 0, if_pos rfl, .inl ⟨rfl, N, hi1⟩⟩
    · have hlen' : N1.length ≤ f := by omega
      obtain ⟨t, h', N', hsearch, ht⟩ := search_fits limit hi1.list hnu hlarge hlen'
      exact ⟨h', _, (if_neg hr).trans hsearch, .inr ⟨t, N', rfl, ht.units, hi1.take hnu ht⟩⟩

/-! ## Runs -/

/-- Nothing has been allocated, or the invariant holds. -/
inductive Good (base limit : Nat) (s : St) : Prop
  | fresh : s.heap.freep = 0 → s.live = [] → s.heap.chunks = [] → base + hdr ≤ s.heap.brk → 0 < limit → Good base limit s
  | used (N : List Block) : s.heap.freep ≠ 0 → (∀ l ∈ s.live, hdr ≤ l.1 ∧ l.2 < 2 ^ 32) →
      Inv base limit s.heap s.blocks N → Good base limit s

/-- After `malloc` has set up the list, if it had to, the invariant holds. -/
theorem Good.start (hg : Good base limit s) (hbase : 0 < base) :
    (s.heap.start base).freep ≠ 0 ∧ (∀ l ∈ s.live, hdr ≤ l.1 ∧ l.2 < 2 ^ 32) ∧
      ∃ N, Inv base limit (s.heap.start base) s.blocks N := by
  cases hg with
  | fresh hfreep hlive hchunks hbrk hlimit =>
    rw [Heap.start, if_pos hfreep, St.blocks, hlive]
    refine ⟨by simp only; omega, by simp, [⟨base, 0⟩], ?_⟩
    exact
      { list :=
          { ring := Lib.circle_singleton.mpr (update_self _ _ _)
            size := by
              intro b hb
              rw [List.mem_singleton.mp hb]
              exact update_self _ _ _
            nodup := List.nodup_singleton _
            head := rfl
            gaps := List.pairwise_singleton _ _
            pos := by simp
            freep := by simp }
        size := by simp
        pos := by simp
        tile := by simp [spans, Block.span, hchunks]
        once := by simp [hchunks]
        above := by simp [hchunks]
        brk := hbrk
        total := by simp [Heap.obtained, hchunks, total]
        bound := by simpa [Heap.obtained, hchunks] using hlimit }
  | used N hfreep hptr hi =>
    rw [Heap.start, if_neg hfreep]
    exact ⟨hfreep, hptr, N, hi⟩

theorem nunits_pos (hn : n < 2 ^ 32) : 0 < nunits n := by
  simp only [nunits, hdr]
  omega

/-- What a pointer's block has room for. -/
theorem room (hn : n < 2 ^ 32) : n + hdr ≤ hdr * nunits n := by
  simp only [nunits, hdr]
  omega

theorem step_mono {g : Nat} (hstep : step base limit s (f, a) = some s') (hfg : f ≤ g) :
    step base limit s (g, a) = some s' := by
  cases a with
  | malloc n =>
    obtain ⟨r, hr, rfl⟩ := Option.map_eq_some_iff.mp hstep
    exact Option.map_eq_some_iff.mpr ⟨r, search_mono hr hfg, rfl⟩
  | free ap =>
    obtain ⟨hlive, hstep⟩ := Option.ite_none_right_eq_some.mp hstep
    obtain ⟨h', hfree, rfl⟩ := Option.map_eq_some_iff.mp hstep
    exact (if_pos hlive).trans (Option.map_eq_some_iff.mpr ⟨h', free_mono hfree hfg, rfl⟩)

/-- Only pointers that the program holds are freed. -/
def Legal (s : St) : Call → Prop
  | .malloc _ => True
  | .free ap => ap ∈ s.live.map Prod.fst

theorem Inv.freep_ne_zero (hi : Inv base limit h live N) (hbase : 0 < base) : h.freep ≠ 0 := by
  obtain ⟨b, hb, heq⟩ := List.mem_map.mp hi.list.freep
  have := hi.list.base_le hb
  omega

section

variable (hg : Good base limit s) (hbase : 0 < base) (hlimit : limit ≤ 2 ^ 36)

include hg hbase hlimit

theorem Good.malloc (hmodest : Modest base s (.malloc n)) :
    ∃ fuel s', step base limit s (fuel, .malloc n) = some s' ∧ Good base limit s' := by
  obtain ⟨hn, hask⟩ := hmodest
  obtain ⟨hfreep, hptr, N, hi⟩ := hg.start hbase
  have hask' : (∃ b ∈ N, nunits n ≤ b.units) ∨ max (nunits n) 4096 * hdr < 2 ^ 31 := by
    rcases hask with ⟨k, hk⟩ | hask
    · obtain ⟨b, hb, heq⟩ := List.mem_map.mp (hi.list.ring.mem_iterate hi.list.freep k)
      rw [← heq, hi.list.size b hb] at hk
      exact .inl ⟨b, hb, hk⟩
    · exact .inr hask
  obtain ⟨h', r, hsearch, hcase⟩ := hi.search hbase hlimit (nunits_pos hn) hask' le_rfl
  refine ⟨2 * N.length + 4, _, Option.map_eq_some_iff.mpr ⟨(h', r), hsearch, rfl⟩, ?_⟩
  rcases hcase with ⟨rfl, N', hi'⟩ | ⟨t, N', rfl, hunits, hi'⟩
  · exact .used N' (hi'.freep_ne_zero hbase) hptr hi'
  · have hne : t.addr + hdr ≠ 0 := by simp [hdr]
    have ht : liveBlock (t.addr + hdr, n) = t := by
      rw [liveBlock, Nat.add_sub_cancel, ← hunits]
    refine .used N' (hi'.freep_ne_zero hbase) ?_ ?_
    · intro l hl
      rw [if_neg hne] at hl
      rcases List.mem_cons.mp hl with rfl | hl
      · exact ⟨Nat.le_add_left _ _, hn⟩
      · exact hptr l hl
    · rw [St.blocks, if_neg hne, List.map_cons, ht]
      exact hi'

theorem Good.free {ap : Nat} (hlegal : ap ∈ s.live.map Prod.fst) :
    ∃ fuel s', step base limit s (fuel, .free ap) = some s' ∧ Good base limit s' := by
  obtain ⟨l0, hl0, heq0⟩ := List.mem_map.mp hlegal
  cases hg with
  | fresh _ hlive => simp [hlive] at hl0
  | used N hfreep hptr hi =>
    obtain ⟨l, l1, l2, -, hl, hsplit, herase⟩ := List.exists_of_eraseP (p := (·.1 = ap)) hl0 (by simpa using heq0)
    obtain rfl : l.1 = ap := by simpa using hl
    have hmem : l ∈ s.live := by simp [hsplit]
    have haddr : (liveBlock l).addr + hdr = l.1 := Nat.sub_add_cancel (hptr l hmem).1
    have hperm : s.blocks.Perm (liveBlock l :: (s.live.eraseP (·.1 = l.1)).map liveBlock) := by
      rw [herase, St.blocks, hsplit, ← List.map_cons]
      exact List.perm_middle.map _
    obtain ⟨h', N', hfree, hi', -⟩ := (hi.perm hperm).free hlimit le_rfl
    rw [haddr] at hfree
    refine ⟨N.length, ⟨h', s.live.eraseP (·.1 = l.1)⟩, ?_, .used N' (hi'.freep_ne_zero hbase) ?_ hi'⟩
    · exact (if_pos hlegal).trans (Option.map_eq_some_iff.mpr ⟨h', hfree, rfl⟩)
    · intro d hd
      exact hptr d (List.mem_of_mem_eraseP hd)

/-- Every call returns, and keeps the invariant. -/
theorem Good.call (hlegal : Legal s a) (hmodest : Modest base s a) :
    ∃ s' fuel, Good base limit s' ∧ ∀ f, fuel ≤ f → step base limit s (f, a) = some s' := by
  have hcall : ∃ fuel s', step base limit s (fuel, a) = some s' ∧ Good base limit s' := by
    cases a with
    | malloc n => exact hg.malloc hbase hlimit hmodest
    | free ap => exact hg.free hbase hlimit hlegal
  obtain ⟨fuel, s', hstep, hg'⟩ := hcall
  exact ⟨s', fuel, hg', fun f hf => step_mono hstep hf⟩

theorem Good.step (hmodest : Modest base s a) (hstep : step base limit s (f, a) = some s') : Good base limit s' := by
  have hlegal : Legal s a := by
    cases a with
    | malloc n => trivial
    | free ap => exact (Option.ite_none_right_eq_some.mp hstep).1
  obtain ⟨s2, fuel, hg2, hcall⟩ := hg.call hbase hlimit hlegal hmodest
  have heq := (step_mono hstep (le_max_left f fuel)).symm.trans (hcall _ (le_max_right f fuel))
  exact Option.some.inj heq ▸ hg2

end

/-! ## The heap as its users see it -/

/-- The free list `F` and the blocks that the program holds. -/
structure WellFormed (base : Nat) (s : St) (F : List Block) : Prop where
  /-- Before the first call there is no list. -/
  unused : s.heap.freep = 0 → F = [] ∧ s.live = []
  circle : s.heap.freep ≠ 0 → Circle s.heap.ptr (base :: F.map Block.addr) ∧ s.heap.freep ∈ base :: F.map Block.addr
  size : ∀ b ∈ F, s.heap.size b.addr = b.units ∧ 0 < b.units
  /-- Addresses increase, and no block touches the next. -/
  order : (⟨base, 0⟩ :: F).Pairwise Gap
  apart : (F ++ s.blocks).Pairwise fun b c => Apart b.span c.span
  tile : ∀ x, (∃ b ∈ F ++ s.blocks, Within b.span x) ↔ ∃ c ∈ s.heap.chunks, Within c x
  /-- The bytes after a pointer came from `sbrk` and lie in no other block. -/
  bytes : ∀ l ∈ s.live, ∀ x, l.1 ≤ x → x < l.1 + l.2 →
    (∃ c ∈ s.heap.chunks, Within c x) ∧ ∀ b ∈ F ++ s.blocks, Within b.span x → b = liveBlock l

theorem Inv.tiles (hi : Inv base limit h live (⟨base, 0⟩ :: F)) :
    (∀ x, (∃ b ∈ F ++ live, Within b.span x) ↔ ∃ c ∈ h.chunks, Within c x) ∧
      (F ++ live).Pairwise fun b c => Apart b.span c.span := by
  have hcover : ∀ x, cover (spans (F ++ live)) x = cover h.chunks x := by
    intro x
    rw [← hi.tile x, spans_append, Lib.cover_append, spans_cons, Lib.cover_cons, Block.span, Nat.mul_zero, Lib.hit_zero,
      Nat.zero_add]
  have hgaps := (List.pairwise_cons.mp hi.list.gaps).1
  constructor
  · intro x
    rw [← Lib.cover_pos, ← hcover, Lib.cover_pos]
    constructor
    · rintro ⟨b, hb, hx⟩
      exact ⟨_, List.mem_map_of_mem hb, hx⟩
    · rintro ⟨_, hmem, hx⟩
      obtain ⟨b, hb, rfl⟩ := List.mem_map.mp hmem
      exact ⟨b, hb, hx⟩
  · have hpos : ∀ i ∈ spans (F ++ live), 0 < i.2 := by
      intro i hmem
      obtain ⟨b, hb, rfl⟩ := List.mem_map.mp hmem
      refine Nat.mul_pos (by decide) ?_
      rcases List.mem_append.mp hb with hb | hb
      · have hgap := hgaps b hb
        simp only [Gap] at hgap
        exact hi.list.pos b (List.mem_cons_of_mem _ hb) (by omega)
      · exact hi.pos b hb
    have hp := Lib.pairwise_apart hpos fun x => (hcover x).trans_le (hi.once x)
    rwa [spans, List.pairwise_map] at hp

/-- A byte of the block lies in no other of blocks that lie apart. -/
theorem only_block {L : List Block} (hp : L.Pairwise fun b c => Apart b.span c.span) (hb : b ∈ L) (hc : c ∈ L)
    (hbx : Within b.span x) (hcx : Within c.span x) : b = c := by
  by_contra hne
  have hsymm : Std.Symm fun b c : Block => Apart b.span c.span := ⟨fun _ _ h => Or.symm h⟩
  have hap := hp.forall hb hc hne
  simp only [Apart, Within] at hap hbx hcx
  omega

theorem Good.wellFormed (hg : Good base limit s) : ∃ F, WellFormed base s F := by
  cases hg with
  | fresh hfreep hlive hchunks _ _ =>
    refine ⟨[], fun _ => ⟨rfl, hlive⟩, fun h => absurd hfreep h, by simp, List.pairwise_singleton _ _, ?_, ?_, ?_⟩
    · simp [St.blocks, hlive]
    · simp [St.blocks, hlive, hchunks]
    · simp [hlive]
  | used N hfreep hptr hi =>
    obtain ⟨F, rfl⟩ := List.head?_eq_some_iff.mp hi.list.head
    obtain ⟨htile, hapart⟩ := hi.tiles
    have hgaps := (List.pairwise_cons.mp hi.list.gaps).1
    refine ⟨F, fun h => absurd h hfreep, fun _ => ⟨by simpa using hi.list.ring, by simpa using hi.list.freep⟩, ?_,
      hi.list.gaps, hapart, htile, ?_⟩
    · intro b hb
      have hgap := hgaps b hb
      simp only [Gap] at hgap
      have hb' : b ∈ ⟨base, 0⟩ :: F := List.mem_cons_of_mem _ hb
      exact ⟨hi.list.size b hb', hi.list.pos b hb' (by omega)⟩
    · intro l hl x hlo hhi
      have hblock : liveBlock l ∈ F ++ s.blocks := List.mem_append_right _ (List.mem_map_of_mem hl)
      have hx : Within (liveBlock l).span x := by
        obtain ⟨haddr, hn⟩ := hptr l hl
        have hroom := room hn
        simp only [Within, Block.span, liveBlock] at haddr ⊢
        omega
      exact ⟨(htile x).mp ⟨_, hblock, hx⟩, fun b hb hbx => only_block hapart hb hblock hbx hx⟩

/-- The state before the first call: `base` is in the program's data, below what `sbrk` hands
out. -/
def initial (brk : Nat) (answers : List (Option Nat)) : St :=
  ⟨⟨fun _ => 0, fun _ => 0, 0, brk, [], answers⟩, []⟩

theorem good_of_reach (hbase : 0 < base) (hbrk : base + hdr ≤ brk) (hr : Reach (step base (2 ^ 36))
      (fun s a => Modest base s a.2) (initial brk answers) s) : Good base (2 ^ 36) s :=
  hr.inv (.fresh rfl rfl rfl hbrk (by decide)) fun _ _ _ hg hok hstep => hg.step hbase le_rfl hok hstep

theorem heap_invariant (hbase : 0 < base) (hbrk : base + hdr ≤ brk) (hr : Reach (step base (2 ^ 36))
      (fun s a => Modest base s a.2) (initial brk answers) s) :
    (∃ F, WellFormed base s F) ∧
      ∀ a, Legal s a → Modest base s a → ∃ s' fuel, ∀ f, fuel ≤ f → step base (2 ^ 36) s (f, a) = some s' := by
  have hg := good_of_reach hbase hbrk hr
  refine ⟨hg.wellFormed, fun a hlegal hmodest => ?_⟩
  obtain ⟨s', fuel, -, hcall⟩ := hg.call hbase le_rfl hlegal hmodest
  exact ⟨s', fuel, hcall⟩

theorem heap_invariant_demo :
    ∃ s, Reach (step 64 (2 ^ 36)) (fun s a => Modest 64 s a.2) (initial 4096 [some 0, none]) s ∧
      s.live = [(19456, 50000), (69472, 32)] ∧ ∃ F, WellFormed 64 s F := by
  have hrun : ((Lib.run (step 64 (2 ^ 36)) (initial 4096 [some 0, none]) [(10, .malloc 100), (10, .malloc 32),
      (10, .malloc 50000), (10, .free 69520), (10, .malloc 100000)]).map St.live) =
      some [(19456, 50000), (69472, 32)] := by
    decide +kernel
  obtain ⟨s, hs, hlive⟩ := Option.map_eq_some_iff.mp hrun
  have hr : Reach (step 64 (2 ^ 36)) (fun s a => Modest 64 s a.2) (initial 4096 [some 0, none]) s := by
    refine Lib.reach_of_run (fun a ha t => ?_) hs
    simp only [List.mem_cons, List.not_mem_nil, or_false] at ha
    rcases ha with rfl | rfl | rfl | rfl | rfl
    · exact ⟨by decide, .inr (by decide)⟩
    · exact ⟨by decide, .inr (by decide)⟩
    · exact ⟨by decide, .inr (by decide)⟩
    · trivial
    · exact ⟨by decide, .inr (by decide)⟩
  exact ⟨s, hr, hlive, (heap_invariant (by decide) (by decide) hr).1⟩

/-! ## Sizes beyond 32 bits -/

/-- A list of `base` and one more header. -/
theorem WellFormed.single {a : Nat} (hw : WellFormed base s F) (hfreep : s.heap.freep ≠ 0)
    (hb : s.heap.ptr base = a) (ha : s.heap.ptr a = base) : ∀ b ∈ F, b.addr = a := by
  have hcircle := (hw.circle hfreep).1
  cases F with
  | nil => simp
  | cons b F =>
    have hfirst : Circle s.heap.ptr ([] ++ base :: b.addr :: F.map Block.addr) := hcircle
    obtain rfl : b.addr = a := hfirst.next_eq.symm.trans hb
    cases F with
    | nil => simp
    | cons c F =>
      -- the next header would be `base` again, but addresses increase
      have hsecond : Circle s.heap.ptr ([base] ++ b.addr :: c.addr :: F.map Block.addr) := hcircle
      have hc : c.addr = base := hsecond.next_eq.symm.trans ha
      have hgap := (List.pairwise_cons.mp hw.order).1 c (by simp)
      simp only [Gap] at hgap
      omega

/-- 33 blocks of almost 2^31 bytes each, one above the other, are joined when they are freed. -/
def joins : List (Nat × Call) :=
  List.replicate 33 (4, .malloc (2 ^ 31 - 32)) ++
    (List.range 33).map fun i => (4, .free (4096 + hdr + i * (2 ^ 31 - 16)))

/-- The size of the joined block wraps: the list then covers less than was handed out. -/
theorem join_overflows :
    ∃ s, Reach (step 64 (2 ^ 38)) (fun s a => Modest 64 s a.2) (initial 4096 (List.replicate 33 (some 0))) s ∧
      s.live = [] ∧ ¬∃ F, WellFormed 64 s F := by
  have hrun : ((Lib.run (step 64 (2 ^ 38)) (initial 4096 (List.replicate 33 (some 0))) joins).map fun s =>
      (s.live, [s.heap.ptr 64, s.heap.ptr 4096, s.heap.size 4096, s.heap.freep], s.heap.chunks.getLast?)) =
      some ([], [4096, 64, 134217695, 4096], some (4096, 2 ^ 31 - 16)) := by
    decide +kernel
  obtain ⟨s, hs, hfields⟩ := Option.map_eq_some_iff.mp hrun
  simp only [Prod.mk.injEq, List.cons.injEq, and_true] at hfields
  obtain ⟨hlive, ⟨hbase, hnext, hsize, hfreep⟩, hchunk⟩ := hfields
  have hr : Reach (step 64 (2 ^ 38)) (fun s a => Modest 64 s a.2) (initial 4096 (List.replicate 33 (some 0))) s := by
    refine Lib.reach_of_run (fun a ha t => ?_) hs
    rcases List.mem_append.mp ha with ha | ha
    · rw [List.eq_of_mem_replicate ha]
      exact ⟨by decide, .inr (by decide)⟩
    · obtain ⟨i, -, rfl⟩ := List.mem_map.mp ha
      trivial
  refine ⟨s, hr, hlive, ?_⟩
  rintro ⟨F, hw⟩
  -- the last byte of the first piece of memory is in no block
  obtain ⟨b, hb, hx⟩ := (hw.tile (4096 + (2 ^ 31 - 17))).mpr ⟨_, List.mem_of_getLast? hchunk, by simp [Within]⟩
  rw [St.blocks, hlive, List.map_nil, List.append_nil] at hb
  have haddr := hw.single (by omega) hbase hnext b hb
  have hunits := (hw.size b hb).1
  rw [haddr, hsize] at hunits
  simp only [Within, Block.span, haddr, ← hunits, hdr] at hx
  omega

end Xv6.Umalloc
