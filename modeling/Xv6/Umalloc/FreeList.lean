/-
  Xv6.Umalloc.FreeList — what the calls do to the free list.

  A list of blocks stands for the free list: `Listed` says that the headers in memory link it
  into a circle and hold its sizes, and `FreeList` that its blocks, after `base`, lie in order
  with room between them. Linking a block in, joining two neighbours and taking one out are
  changes of that list (`Listed.insert`, `Listed.merge`, `Listed.erase`). From them: what `free`
  makes of the list (`free_spec`), and what `malloc` does once it has found a block
  (`take_spec`).
-/

import Xv6.Umalloc.Heap

namespace Xv6.Umalloc

open Lib (update update_self update_of_ne update_idem update_comm Circle Within hit cover)

/-- A header's address and the size it holds. -/
structure Block where
  addr : Nat
  units : Nat
  deriving DecidableEq, Repr

/-- The block's bytes. -/
def Block.span (b : Block) : Nat × Nat := (b.addr, hdr * b.units)

/-- The block ends before the other begins, with room between them. -/
def Gap (b c : Block) : Prop := b.addr + hdr * b.units < c.addr

def spans (N : List Block) : List (Nat × Nat) := N.map Block.span

def total (N : List Block) : Nat := (N.map Block.units).sum

variable {base bp p q fuel nu : Nat} {h h' : Heap} {N A B : List Block} {b v w c : Block}

section lists

@[simp]
theorem total_append (M N : List Block) : total (M ++ N) = total M + total N := by
  simp [total]

@[simp]
theorem total_cons (b : Block) (N : List Block) : total (b :: N) = b.units + total N := by
  simp [total]

@[simp]
theorem spans_append (M N : List Block) : spans (M ++ N) = spans M ++ spans N := by
  simp [spans]

@[simp]
theorem spans_cons (b : Block) (N : List Block) : spans (b :: N) = b.span :: spans N := rfl

theorem hit_le_spans (hb : b ∈ N) (x : Nat) : hit b.span x ≤ cover (spans N) x :=
  Lib.hit_le_cover (List.mem_map_of_mem hb) x

variable {M : List Block}

theorem cover_spans_perm (hp : M.Perm N) (x : Nat) : cover (spans M) x = cover (spans N) x :=
  Lib.cover_perm (hp.map Block.span) x

theorem total_perm (hp : M.Perm N) : total M = total N :=
  (hp.map Block.units).sum_eq

theorem Gap.trans {b d : Block} (hbc : Gap b c) (hcd : Gap c d) : Gap b d := by
  simp only [Gap] at *
  omega

theorem gaps_append (hA : (A ++ [v]).Pairwise Gap) (hB : B.Pairwise Gap) (hv : ∀ w ∈ B, Gap v w) :
    (A ++ v :: B).Pairwise Gap := by
  obtain ⟨hgA, -, hAv⟩ := List.pairwise_append.mp hA
  refine List.pairwise_append.mpr ⟨hgA, List.pairwise_cons.mpr ⟨hv, hB⟩, fun a ha w hw => ?_⟩
  have hav : Gap a v := hAv a ha v List.mem_cons_self
  rcases List.mem_cons.mp hw with rfl | hw
  · exact hav
  · exact hav.trans (hv w hw)

/-- Two blocks that touch cover what one of their joint size does. -/
theorem hit_join (x : Nat) (hw : v.addr + hdr * v.units = w.addr) (n : Nat) (hn : n = v.units + w.units) :
    hit (Block.span ⟨v.addr, n⟩) x = hit v.span x + hit w.span x := by
  simp only [Block.span]
  rw [hn, Nat.mul_add, Lib.hit_add, hw]

end lists

/-! ## The circle of headers -/

structure Listed (h : Heap) (N : List Block) : Prop where
  ring : Circle h.ptr (N.map Block.addr)
  size : ∀ b ∈ N, h.size b.addr = b.units
  nodup : (N.map Block.addr).Nodup

/-- `bp` made to follow `p`. -/
def Heap.link (h : Heap) (p bp : Nat) : Heap :=
  { h with ptr := update (update h.ptr bp (h.ptr p)) p bp }

theorem Listed.insert (hl : Listed h (A ++ v :: B)) (hb : b.addr ∉ (A ++ v :: B).map Block.addr)
    (hsize : h.size b.addr = b.units) : Listed (h.link v.addr b.addr) (A ++ v :: b :: B) where
  ring := by
    have hr := hl.ring
    have hn := hl.nodup
    simp only [List.map_append, List.map_cons] at hr hn hb ⊢
    exact hr.insert hn hb
  size := by
    intro c hc
    rcases List.mem_append.mp hc with hc | hc
    · exact hl.size c (List.mem_append_left _ hc)
    · rcases List.mem_cons.mp hc with rfl | hc
      · exact hl.size c (by simp)
      · rcases List.mem_cons.mp hc with rfl | hc
        · exact hsize
        · exact hl.size c (by simp [hc])
  nodup := by
    have hn := hl.nodup
    simp only [List.map_append, List.map_cons] at hn hb ⊢
    have hperm : (A.map Block.addr ++ v.addr :: b.addr :: B.map Block.addr).Perm
        (b.addr :: (A.map Block.addr ++ v.addr :: B.map Block.addr)) := by
      rw [List.append_cons]
      exact List.perm_middle.trans (by rw [List.append_assoc, List.singleton_append])
    exact hperm.nodup_iff.mpr (List.nodup_cons.mpr ⟨hb, hn⟩)

/-- A sublist of the nodes has no node twice either. -/
theorem Listed.erase (hl : Listed h (A ++ v :: w :: B)) :
    Listed { h with ptr := update h.ptr v.addr (h.ptr w.addr) } (A ++ v :: B) where
  ring := by
    have hr := hl.ring
    have hn := hl.nodup
    simp only [List.map_append, List.map_cons] at hr hn ⊢
    exact hr.erase hn
  size := by
    intro c hc
    refine hl.size c ?_
    simp only [List.mem_append, List.mem_cons] at hc ⊢
    rcases hc with hc | hc | hc
    · exact .inl hc
    · exact .inr (.inl hc)
    · exact .inr (.inr (.inr hc))
  nodup := by
    have hsub : (A ++ v :: B).Sublist (A ++ v :: w :: B) :=
      .append (List.Sublist.refl A) (.cons_cons v (List.sublist_cons_self w B))
    exact hl.nodup.sublist (hsub.map _)

/-- The size of one node changes. -/
theorem Listed.resize (hl : Listed h (A ++ v :: B)) (n : Nat) :
    Listed { h with size := update h.size v.addr n } (A ++ ⟨v.addr, n⟩ :: B) where
  ring := by simpa using hl.ring
  size := by
    have hn := hl.nodup
    rw [List.map_append, List.map_cons, List.perm_middle.nodup_iff, List.nodup_cons, ← List.map_append] at hn
    have hother : ∀ c ∈ A ++ B, update h.size v.addr n c.addr = c.units := by
      intro c hc
      have hne : c.addr ≠ v.addr := fun heq => hn.1 (heq ▸ List.mem_map_of_mem hc)
      rw [update_of_ne hne]
      refine hl.size c ?_
      rcases List.mem_append.mp hc with hc | hc
      · exact List.mem_append_left _ hc
      · exact List.mem_append_right _ (List.mem_cons_of_mem _ hc)
    intro c hc
    rcases List.mem_append.mp hc with hc | hc
    · exact hother c (List.mem_append_left _ hc)
    · rcases List.mem_cons.mp hc with rfl | hc
      · exact update_self _ _ _
      · exact hother c (List.mem_append_right _ hc)
  nodup := by simpa using hl.nodup

theorem Listed.merge (hl : Listed h (A ++ v :: w :: B)) (hfit : v.units + w.units < 2 ^ 32) :
    Listed (h.merge v.addr w.addr) (A ++ ⟨v.addr, v.units + w.units⟩ :: B) := by
  have hv : h.size v.addr = v.units := hl.size v (by simp)
  have hw : h.size w.addr = w.units := hl.size w (by simp)
  have hmerge : h.merge v.addr w.addr =
      { h with size := update h.size v.addr (v.units + w.units), ptr := update h.ptr v.addr (h.ptr w.addr) } := by
    rw [Heap.merge, hv, hw, Nat.mod_eq_of_lt hfit]
  rw [hmerge]
  exact hl.erase.resize _

/-- The header after the last one is the first. -/
theorem Listed.ptr_last (hl : Listed h (A ++ [v])) (hc : (A ++ [v]).head? = some c) :
    h.ptr v.addr = c.addr := by
  have hr := hl.ring
  cases A with
  | nil =>
    obtain rfl : v = c := Option.some.inj hc
    exact Lib.circle_singleton.mp hr
  | cons d A =>
    obtain rfl : d = c := Option.some.inj hc
    simp only [List.map_append, List.map_cons, List.map_nil] at hr
    exact hr.next_last

theorem Listed.ptr_eq (hl : Listed h (A ++ v :: w :: B)) : h.ptr v.addr = w.addr := by
  have hr := hl.ring
  simp only [List.map_append, List.map_cons] at hr
  exact hr.next_eq

/-! ## Freeing as linking and joining -/

/-- The code joins before it links; the result is that of linking `bp` in after `p` and then
joining it to the neighbours it touches. -/
theorem join_eq (hp : p < bp) (hbp : h.ptr p ≠ bp) :
    joinDown (joinUp h bp p) bp p =
      if p + hdr * h.size p = bp then
        (if bp + hdr * h.size bp = h.ptr p then (h.link p bp).merge bp (h.ptr p) else h.link p bp).merge p bp
      else if bp + hdr * h.size bp = h.ptr p then (h.link p bp).merge bp (h.ptr p) else h.link p bp := by
  have hne : p ≠ bp := by omega
  by_cases hup : bp + hdr * h.size bp = h.ptr p
  · have hq : h.ptr p ≠ p := by omega
    have hsize : ∀ x, (h.merge bp x).size p = h.size p := fun x => update_of_ne hne _ _
    have hmerge : (h.link p bp).merge bp (h.ptr p) = { h.merge bp (h.ptr p) with
        ptr := update (update h.ptr bp (h.ptr (h.ptr p))) p bp } := by
      simp only [Heap.merge, Heap.link, update_of_ne hq, update_of_ne hbp]
      rw [update_comm hne, update_idem]
    simp only [joinUp, if_pos hup, joinDown, hsize, hmerge]
    split
    · simp only [Heap.merge, update_self, update_of_ne hne, update_of_ne hne.symm, update_idem]
    · simp only [Heap.merge]
  · simp only [joinUp, if_neg hup, joinDown]
    split
    · simp only [Heap.merge, Heap.link, update_self, update_of_ne hne.symm, update_idem]
    · rfl

/-! ## The list in order of address -/

/-- The free list: `base` comes first, and each block ends before the next one begins. -/
structure FreeList (base : Nat) (h : Heap) (N : List Block) : Prop extends Listed h N where
  head : N.head? = some ⟨base, 0⟩
  gaps : N.Pairwise Gap
  pos : ∀ b ∈ N, b.addr ≠ base → 0 < b.units
  freep : h.freep ∈ N.map Block.addr

theorem FreeList.base_le (hf : FreeList base h N) (hb : b ∈ N) : base ≤ b.addr := by
  obtain ⟨M, rfl⟩ := List.head?_eq_some_iff.mp hf.head
  rcases List.mem_cons.mp hb with rfl | hb
  · exact le_rfl
  · have hgap := (List.pairwise_cons.mp hf.gaps).1 b hb
    simp only [Gap] at hgap
    omega

/-- The last element that passes a test. -/
theorem exists_last {P : Block → Prop} (hex : ∃ c ∈ N, P c) :
    ∃ A v B, N = A ++ v :: B ∧ P v ∧ ∀ w ∈ B, ¬P w := by
  induction N with
  | nil => simp at hex
  | cons c N ih =>
    by_cases htail : ∃ d ∈ N, P d
    · obtain ⟨A, v, B, rfl, hv, hB⟩ := ih htail
      exact ⟨c :: A, v, B, rfl, hv, hB⟩
    · obtain ⟨d, hd, hPd⟩ := hex
      rcases List.mem_cons.mp hd with rfl | hd
      · exact ⟨[], d, N, rfl, hPd, fun w hw hPw => htail ⟨w, hw, hPw⟩⟩
      · exact absurd ⟨d, hd, hPd⟩ htail

/-- The search of `free` stops at a header exactly when `bp` lies after it and before the rest. -/
theorem FreeList.between_iff (hf : FreeList base h (A ++ v :: B)) (hbase : base < bp)
    (hbp : bp ∉ (A ++ v :: B).map Block.addr) :
    between h bp v.addr = true ↔ v.addr < bp ∧ ∀ w ∈ B, bp < w.addr := by
  cases B with
  | nil =>
    have hptr : h.ptr v.addr = base := hf.ptr_last hf.head
    have hle : base ≤ v.addr := hf.base_le (b := v) (by simp)
    simp only [between, hptr, Bool.or_eq_true, Bool.and_eq_true, decide_eq_true_eq]
    simp
    omega
  | cons w B =>
    have hptr : h.ptr v.addr = w.addr := hf.ptr_eq
    have hgaps := hf.gaps
    simp only [List.pairwise_append, List.pairwise_cons, List.mem_cons, forall_eq_or_imp] at hgaps
    obtain ⟨-, ⟨⟨hvw, -⟩, hwB, -⟩, -⟩ := hgaps
    have hne : bp ≠ w.addr := fun heq => hbp (by simp [heq])
    have hrest : bp < w.addr → ∀ x ∈ B, bp < x.addr := by
      intro hlt x hx
      have := hwB x hx
      simp only [Gap] at this
      omega
    simp only [Gap] at hvw
    simp only [between, hptr, Bool.or_eq_true, Bool.and_eq_true, decide_eq_true_eq, List.mem_cons, forall_eq_or_imp]
    constructor
    · intro hstop
      have hlt : v.addr < bp ∧ bp < w.addr := by omega
      exact ⟨hlt.1, hlt.2, hrest hlt.2⟩
    · rintro ⟨hv, hw, -⟩
      exact .inl ⟨hv, hw⟩

theorem FreeList.follow_spec (hf : FreeList base h N) (hbase : base < bp) (hbp : bp ∉ N.map Block.addr)
    (hfuel : N.length ≤ fuel) :
    ∃ A v B, N = A ++ v :: B ∧ Lib.follow (between h bp) h.ptr fuel h.freep = some v.addr ∧
      v.addr < bp ∧ ∀ w ∈ B, bp < w.addr := by
  -- the last header below `bp` is one where the search stops
  have hlow : ∃ c ∈ N, c.addr < bp := ⟨_, List.mem_of_head? hf.head, hbase⟩
  have hstop : ∃ y ∈ N.map Block.addr, between h bp y = true := by
    obtain ⟨A, v, B, rfl, hv, hB⟩ := exists_last hlow
    refine ⟨v.addr, by simp, (hf.between_iff hbase hbp).mpr ⟨hv, fun w hw => ?_⟩⟩
    have hne : w.addr ≠ bp := fun heq => hbp (by simp only [← heq, List.mem_map]; exact ⟨w, by simp [hw], rfl⟩)
    have := hB w hw
    omega
  obtain ⟨y, hy, hfollow, hstopy⟩ := hf.ring.follow hf.freep hstop (by simpa using hfuel)
  obtain ⟨v, hv, rfl⟩ := List.mem_map.mp hy
  obtain ⟨A, B, rfl⟩ := List.append_of_mem hv
  obtain ⟨hlt, hB⟩ := (hf.between_iff hbase hbp).mp hstopy
  exact ⟨A, v, B, rfl, hfollow, hlt, hB⟩

/-! ## `free` -/

/-- The heap and its list after the block `b` has become free. -/
structure Freed (base : Nat) (h : Heap) (N : List Block) (b : Block) (h' : Heap) (N' : List Block) : Prop where
  list : FreeList base h' N'
  cover : ∀ x, cover (spans N') x = cover (spans N) x + hit b.span x
  total : total N' = total N + b.units
  length : N'.length ≤ N.length + 1
  large : ∃ c ∈ N', b.units ≤ c.units
  frame : ∀ a, a ≠ b.addr → a ∉ N.map Block.addr → h'.size a = h.size a
  brk : h'.brk = h.brk
  chunks : h'.chunks = h.chunks

/-- `b`, linked in between `v` and `B`, is joined to the first of `B` if it touches it. -/
theorem up_spec (hl : Listed h (A ++ v :: B)) (hb : b.addr ∉ (A ++ v :: B).map Block.addr)
    (hhead : (A ++ v :: B).head? = some ⟨base, 0⟩) (hbase : base < b.addr) (hsize : h.size b.addr = b.units)
    (hroom : ∀ w ∈ B, b.addr + hdr * b.units ≤ w.addr) (hB : B.Pairwise Gap)
    (hfit : b.units + total B < 2 ^ 32) :
    ∃ c C, Listed (if b.addr + hdr * h.size b.addr = h.ptr v.addr then (h.link v.addr b.addr).merge b.addr (h.ptr v.addr)
        else h.link v.addr b.addr) (A ++ v :: c :: C) ∧
      c.addr = b.addr ∧ C.Sublist B ∧ (∀ w ∈ C, Gap c w) ∧ c.units + total C = b.units + total B ∧
      b.units ≤ c.units ∧ ∀ x, hit c.span x + cover (spans C) x = hit b.span x + cover (spans B) x := by
  have hlink := hl.insert hb hsize
  rw [hsize]
  cases B with
  | nil =>
    have hptr : h.ptr v.addr = base := hl.ptr_last hhead
    rw [if_neg (by omega)]
    exact ⟨b, [], hlink, rfl, List.Sublist.refl _, by simp, rfl, le_rfl, fun _ => rfl⟩
  | cons w B =>
    obtain ⟨hwB, hB⟩ := List.pairwise_cons.mp hB
    rw [hl.ptr_eq]
    rw [total_cons] at hfit
    by_cases htouch : b.addr + hdr * b.units = w.addr
    · rw [if_pos htouch]
      refine ⟨⟨b.addr, b.units + w.units⟩, B, ?_, rfl, List.sublist_cons_self w B, ?_, ?_, Nat.le_add_right _ _, ?_⟩
      · have hm : Listed (h.link v.addr b.addr) ((A ++ [v]) ++ b :: w :: B) := by simpa using hlink
        simpa using hm.merge (by omega)
      · intro x hx
        have := hwB x hx
        simp only [Gap, Nat.mul_add] at this ⊢
        omega
      · simp only [total_cons]
        omega
      · intro x
        rw [hit_join x htouch _ rfl, spans_cons, Lib.cover_cons]
        omega
    · rw [if_neg htouch]
      refine ⟨b, w :: B, hlink, rfl, List.Sublist.refl _, ?_, rfl, le_rfl, fun _ => rfl⟩
      -- what comes after `w` lies beyond it
      have hlt : b.addr + hdr * b.units < w.addr := lt_of_le_of_ne (hroom w (by simp)) htouch
      intro x hx
      rcases List.mem_cons.mp hx with rfl | hx
      · exact hlt
      · have := hwB x hx
        simp only [Gap] at this ⊢
        omega

/-- `v` is joined to the block after it if they touch, and becomes `freep`. -/
theorem down_spec {C : List Block} (hl : Listed h (A ++ v :: c :: C)) (hhead : (A ++ v :: c :: C).head? = some ⟨base, 0⟩)
    (hA : (A ++ [v]).Pairwise Gap) (hC : (c :: C).Pairwise Gap) (hvc : v.addr + hdr * v.units ≤ c.addr) (hlt : v.addr < c.addr)
    (hbase : base < c.addr) (hpos : ∀ x ∈ A ++ v :: c :: C, x.addr ≠ base → 0 < x.units) (hfit : v.units + c.units < 2 ^ 32) :
    ∃ N', FreeList base ((if v.addr + hdr * v.units = c.addr then h.merge v.addr c.addr else h).setFreep v.addr) N' ∧
      (∀ x, cover (spans N') x = cover (spans (A ++ v :: c :: C)) x) ∧ total N' = total (A ++ v :: c :: C) ∧
      N'.length ≤ (A ++ v :: c :: C).length ∧ ∃ d ∈ N', c.units ≤ d.units := by
  obtain ⟨hcC, hgC⟩ := List.pairwise_cons.mp hC
  by_cases htouch : v.addr + hdr * v.units = c.addr
  · rw [if_pos htouch]
    -- `v` is not `base`, which has no size
    obtain ⟨a, A, rfl⟩ : ∃ a A', A = a :: A' := by
      cases A with
      | nil =>
        obtain rfl : v = ⟨base, 0⟩ := Option.some.inj hhead
        simp only [Nat.mul_zero, Nat.add_zero] at htouch
        exact absurd htouch hlt.ne
      | cons a A => exact ⟨a, A, rfl⟩
    have hm := hl.merge hfit
    refine ⟨a :: A ++ ⟨v.addr, v.units + c.units⟩ :: C, ⟨⟨hm.ring, hm.size, hm.nodup⟩, hhead, ?_, ?_, by simp [Heap.setFreep]⟩,
        ?_, ?_, ?_,
      ⟨_, List.mem_append_right _ List.mem_cons_self, Nat.le_add_left _ _⟩⟩
    · have hA' : (a :: A ++ [(⟨v.addr, v.units + c.units⟩ : Block)]).Pairwise Gap := by
        obtain ⟨hgA, -, hAv⟩ := List.pairwise_append.mp hA
        refine List.pairwise_append.mpr ⟨hgA, List.pairwise_singleton _ _, fun d hd w hw => ?_⟩
        rw [List.mem_singleton.mp hw]
        exact hAv d hd v List.mem_cons_self
      refine gaps_append hA' hgC fun w hw => ?_
      have := hcC w hw
      simp only [Gap, Nat.mul_add] at this ⊢
      omega
    · intro x hx hne
      have hcpos : 0 < c.units := hpos c (by simp) (by omega)
      rcases List.mem_append.mp hx with hx | hx
      · exact hpos x (List.mem_append_left _ hx) hne
      · rcases List.mem_cons.mp hx with rfl | hx
        · exact Nat.add_pos_right _ hcpos
        · exact hpos x (by simp [hx]) hne
    · intro x
      simp only [spans_append, spans_cons, Lib.cover_append, Lib.cover_cons, hit_join x htouch _ rfl]
      omega
    · simp only [total_append, total_cons]
      omega
    · simp only [List.length_append, List.length_cons]
      omega
  · rw [if_neg htouch]
    have hgap : Gap v c := lt_of_le_of_ne hvc htouch
    refine ⟨_, ⟨⟨hl.ring, hl.size, hl.nodup⟩, hhead, ?_, hpos, by simp [Heap.setFreep]⟩, fun _ => rfl, rfl, le_rfl,
      ⟨c, by simp, le_rfl⟩⟩
    refine gaps_append hA hC fun w hw => ?_
    rcases List.mem_cons.mp hw with rfl | hw
    · exact hgap
    · exact hgap.trans (hcC w hw)

theorem free_spec (hf : FreeList base h N) (hbase : base < b.addr) (hsize : h.size b.addr = b.units)
    (hpos : 0 < b.units) (hapart : ∀ c ∈ N, c.addr + hdr * c.units ≤ b.addr ∨ b.addr + hdr * b.units ≤ c.addr)
    (hfit : total N + b.units < 2 ^ 32) (hfuel : N.length ≤ fuel) :
    ∃ h' N', free fuel h (b.addr + hdr) = some h' ∧ Freed base h N b h' N' := by
  have hb : b.addr ∉ N.map Block.addr := by
    intro hmem
    obtain ⟨c, hc, heq⟩ := List.mem_map.mp hmem
    have hcpos := hf.pos c hc (by omega)
    rcases hapart c hc with hle | hle
    · have : 0 < hdr * c.units := Nat.mul_pos (by decide) hcpos
      omega
    · have : 0 < hdr * b.units := Nat.mul_pos (by decide) hpos
      omega
  obtain ⟨A, v, B, rfl, hfollow, hv, hB⟩ := hf.follow_spec hbase hb hfuel
  simp only [total_append, total_cons] at hfit
  have hgaps := hf.gaps
  simp only [List.pairwise_append, List.pairwise_cons, List.mem_cons, forall_eq_or_imp] at hgaps
  obtain ⟨hgA, ⟨hvB, hgB⟩, hAvB⟩ := hgaps
  have hroom : ∀ w ∈ B, b.addr + hdr * b.units ≤ w.addr := by
    intro w hw
    have := hB w hw
    have := hapart w (by simp [hw])
    omega
  have hvb : v.addr + hdr * v.units ≤ b.addr := by
    have : 0 < hdr * b.units := Nat.mul_pos (by decide) hpos
    have := hapart v (by simp)
    omega
  obtain ⟨c, C, hlC, hc, hsub, hgC, htot, hge, hcov⟩ :=
    up_spec hf.toListed hb hf.head hbase hsize hroom hgB (by omega)
  have hvsize : h.size v.addr = v.units := hf.size v (by simp)
  have hptr : h.ptr v.addr ≠ b.addr := by
    intro heq
    exact hb (heq ▸ hf.ring.next_mem (List.mem_map_of_mem (by simp)))
  have hfree : free fuel h (b.addr + hdr) =
      some ((joinDown (joinUp h b.addr v.addr) b.addr v.addr).setFreep v.addr) := by
    simp only [free, Nat.add_sub_cancel, hfollow, Option.map_some]
  generalize hh2 : (if b.addr + hdr * h.size b.addr = h.ptr v.addr then
    (h.link v.addr b.addr).merge b.addr (h.ptr v.addr) else h.link v.addr b.addr) = h2 at hlC
  have hframe : ∀ a, a ≠ b.addr → h2.size a = h.size a := by
    intro a ha
    rw [← hh2]
    split
    · exact update_of_ne ha _ _
    · rfl
  have hsame : h2.brk = h.brk ∧ h2.chunks = h.chunks := by
    rw [← hh2]
    split <;> exact ⟨rfl, rfl⟩
  have hhead : (A ++ v :: c :: C).head? = some ⟨base, 0⟩ := by
    have := hf.head
    cases A with
    | nil => exact this
    | cons a A => exact this
  have hgA' : (A ++ [v]).Pairwise Gap :=
    List.pairwise_append.mpr ⟨hgA, List.pairwise_singleton _ _, by simpa using fun a ha => (hAvB a ha).1⟩
  have hCpos : ∀ x ∈ A ++ v :: c :: C, x.addr ≠ base → 0 < x.units := by
    intro x hx hne
    rcases List.mem_append.mp hx with hx | hx
    · exact hf.pos x (List.mem_append_left _ hx) hne
    · rcases List.mem_cons.mp hx with rfl | hx
      · exact hf.pos x (by simp) hne
      · rcases List.mem_cons.mp hx with rfl | hx
        · omega
        · exact hf.pos x (by simp [hsub.subset hx]) hne
  obtain ⟨N', hlist, hcov', htot', hlen', d, hd, hdc⟩ := down_spec hlC hhead hgA'
    (List.pairwise_cons.mpr ⟨hgC, hgB.sublist hsub⟩) (by omega) (by omega) (by omega) hCpos (by omega)
  refine ⟨_, N', hfree, ?_⟩
  rw [join_eq hv hptr, hvsize, hh2, ← hc]
  refine ⟨hlist, fun x => ?_, ?_, ?_, ⟨d, hd, by omega⟩, fun a ha haN => ?_, ?_, ?_⟩
  · have := hcov x
    rw [hcov' x]
    simp only [spans_append, spans_cons, Lib.cover_append, Lib.cover_cons]
    omega
  · rw [htot']
    simp only [total_append, total_cons]
    omega
  · have := hsub.length_le
    simp only [List.length_append, List.length_cons] at hlen' ⊢
    omega
  · have hav : a ≠ v.addr := fun heq => haN (by simp [heq])
    simp only [Heap.setFreep]
    split
    · rw [← hframe a ha]
      exact update_of_ne hav _ _
    · exact hframe a ha
  · simp only [Heap.setFreep]
    split <;> exact hsame.1
  · simp only [Heap.setFreep]
    split <;> exact hsame.2

end Xv6.Umalloc
