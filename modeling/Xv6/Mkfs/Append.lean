/-
  Xv6.Mkfs.Append — how `iappend` and `ialloc` of mkfs grow the image.

  `Good` is what holds of the image and an inode map `D` while one inode is being extended in
  memory: no two pointers share a block, they are exactly the blocks between the metadata and
  `freeblock`, and the blocks from `freeblock` on are still zero. `Inv` is the same for the
  image's own inodes between two calls of `iappend`, together with the fact that a file has a
  block for exactly the indices below its size.

  Proved:
  - `iappend_wp`: appending puts the bytes at the end of the file, changes no other file, and
    takes exactly the blocks that the larger file needs.
  - `ialloc_wp`: a new inode leaves every file as it was.
-/

import Xv6.Mkfs.Build

namespace Xv6.Mkfs

open Xv6.Lib Xv6.Fs

/-- The image's inodes. -/
def inodes (s : St) (i : Nat) : Dinode := if i < ninodes then dinodeAt sb s.img i else Dinode.zero

structure Good (img : Disk) (D : Nat → Dinode) (fb : Nat) : Prop where
  fb_ge : nmeta ≤ fb
  own : Owned (ptrs img D) (fun b => decide (b < fb)) nmeta (fssize + 1)
  leak : NoLeak (ptrs img D) (fun b => decide (b < fb)) nmeta (fssize + 1)
  fresh : ∀ b, fb ≤ b → img b = zero
  fits : ∀ i, (D i).Fits

theorem used_succ (fb : Nat) :
    update (fun b => decide (b < fb)) fb true = fun b => decide (b < fb + 1) := by
  funext b
  by_cases h : b = fb
  · subst h; rw [update_self]; simp
  · rw [update_of_ne h]
    have : b < fb ↔ b < fb + 1 := by omega
    simp only [this]

theorem nmeta_pos : 0 < nmeta := by decide

theorem fssize_lt : fssize < 2 ^ 32 := by decide

variable {img' : Disk}

section

variable {img : Disk} {D : Nat → Dinode} {fb i bn : Nat} (hg : Good img D fb) (hle : fb ≤ fssize)
include hg

theorem Good.pos : 0 < fb := Nat.lt_of_lt_of_le nmeta_pos hg.fb_ge

include hle

variable {l : Nat × Nat}

theorem Good.own_succ {D' : Nat → Dinode} (hp : ptrs img' D' = update (ptrs img D) l fb) :
    Owned (ptrs img' D') (fun b => decide (b < fb + 1)) nmeta (fssize + 1) := by
  rw [hp, ← used_succ]
  exact hg.own.alloc (by simp) hg.fb_ge (by omega)

omit hle in
theorem Good.leak_succ {D' : Nat → Dinode} (hl : ptrs img D l = 0) (hp : ptrs img' D' = update (ptrs img D) l fb) :
    NoLeak (ptrs img' D') (fun b => decide (b < fb + 1)) nmeta (fssize + 1) := by
  rw [hp, ← used_succ]
  exact hg.leak.alloc hl nmeta_pos

theorem Good.addDirect (h : bn < ndirect) (h0 : ptrs img D (i, bn) = 0) :
    Good img (update D i ((D i).setAddr (directIx bn h) fb)) (fb + 1) where
  fb_ge := Nat.le_succ_of_le hg.fb_ge
  own := hg.own_succ hle (ptrs_setAddr i h fb)
  leak := hg.leak_succ h0 (ptrs_setAddr i h fb)
  fresh b hb := hg.fresh b (by omega)
  fits := update_fits hg.fits (setAddr_fits (hg.fits i) (Nat.lt_of_le_of_lt hle fssize_lt) _)

theorem Good.addIndirect (h0 : (D i).indirect = 0) : Good img (update D i ((D i).setAddr 12 fb)) (fb + 1) where
  fb_ge := Nat.le_succ_of_le hg.fb_ge
  own := hg.own_succ hle (ptrs_setIndirect h0 (hg.fresh fb (le_refl _)))
  leak := hg.leak_succ (by rwa [ptrs_maxfile]) (ptrs_setIndirect h0 (hg.fresh fb (le_refl _)))
  fresh b hb := hg.fresh b (by omega)
  fits := update_fits hg.fits (setAddr_fits (hg.fits i) (Nat.lt_of_le_of_lt hle fssize_lt) _)

theorem Good.addSlot (h0 : (D i).indirect ≠ 0) (h1 : ndirect ≤ bn) (h2 : bn < maxfile) (hbn : ptrs img D (i, bn) = 0) :
    Good (update img (D i).indirect (putSlot (img (D i).indirect) bn fb)) D (fb + 1) where
  fb_ge := Nat.le_succ_of_le hg.fb_ge
  own := hg.own_succ hle
    (ptrs_setSlot h0 (fun _ hj => indirect_inj hg.own h0 hj) h1 h2 (Nat.lt_of_le_of_lt hle fssize_lt))
  leak := hg.leak_succ hbn
    (ptrs_setSlot h0 (fun _ hj => indirect_inj hg.own h0 hj) h1 h2 (Nat.lt_of_le_of_lt hle fssize_lt))
  fresh b hb := by
    have hm := hg.own.marked (i, maxfile) (by rwa [ptrs_maxfile])
    rw [ptrs_maxfile] at hm
    have : (D i).indirect < fb := by simpa using hm
    rw [update_of_ne (by omega)]
    exact hg.fresh b (by omega)
  fits := hg.fits

omit hle

theorem Good.lt_fb (h0 : ptrs img D l ≠ 0) : ptrs img D l < fb := by
  simpa using hg.own.marked l h0

theorem Good.store (hbn : bn ≠ maxfile) (h0 : ptrs img D (i, bn) ≠ 0) (v : Block) :
    Good (update img (ptrs img D (i, bn)) v) D fb where
  fb_ge := hg.fb_ge
  own := by rw [ptrs_store hg.own hbn h0]; exact hg.own
  leak := by rw [ptrs_store hg.own hbn h0]; exact hg.leak
  fresh b hb := by
    have := hg.lt_fb h0
    rw [update_of_ne (by omega)]
    exact hg.fresh b hb
  fits := hg.fits

end

/-- The blocks that file block `bn` takes: none when it is there, one more when the indirect block is not. -/
def cost (d : Disk) (x : Dinode) (bn : Nat) : Nat :=
  if blockOf d x bn ≠ 0 then 0 else if bn < ndirect ∨ x.indirect ≠ 0 then 1 else 2

variable {D' D : Nat → Dinode} {bn i n off inum : Nat} {s s' s1 : St} {d : Disk} {x y : Dinode} {p q : List UInt8}

theorem cost_indirect (d : Disk) (x : Dinode) (h1 : ndirect ≤ bn) (h2 : bn < maxfile) :
    cost d x bn = (if x.indirect = 0 then 1 else 0) + if blockOf d x bn = 0 then 1 else 0 := by
  unfold cost
  by_cases h0 : x.indirect = 0
  · have hb : blockOf d x bn = 0 := by rw [blockOf_indirect h1 h2, if_pos h0]
    rw [if_neg (by simp [hb]), if_neg (by simp [h0, h1]), if_pos h0, if_pos hb]
  · by_cases hb : blockOf d x bn = 0
    · rw [if_neg (by simp [hb]), if_pos (Or.inr h0), if_neg h0, if_pos hb]
    · rw [if_pos hb, if_neg h0, if_neg hb]

/-- `D'` extends the map `D` by file block `bn` of inode `i`, now block `x`. -/
structure Grown (s : St) (D : Nat → Dinode) (i bn : Nat) (s' : St) (D' : Nat → Dinode) (x : Nat) : Prop where
  good : Good s'.img D' s'.freeblock
  new : ptrs s'.img D' (i, bn) = x
  ne_zero : x ≠ 0
  old : ∀ l, l ≠ (i, bn) → l.2 ≠ maxfile → ptrs s'.img D' l = ptrs s.img D l
  bytes : ∀ j, byteAt s'.img (D' j) = byteAt s.img (D j)
  low : ∀ b, b < nmeta → s'.img b = s.img b
  inum : s'.freeinode = s.freeinode
  fb : s'.freeblock ≤ fssize ∨ s'.freeblock = x + 1
  grow : s'.freeblock = s.freeblock + cost s.img (D i) bn
  ind : (D' i).indirect ≠ 0 ↔ (D i).indirect ≠ 0 ∨ ndirect ≤ bn

/-! `E` says which ways to stop are tolerated: all of them where only completed runs matter, none where a run
is shown to complete. -/

variable {E : Die → Prop}

theorem takeBlock_wp {Q : Nat → St → Prop}
    (h : Q s.freeblock { s with freeblock := s.freeblock + 1 }) : wp E takeBlock Q s := h

theorem rsect_wp {sec : Nat} {Q : Block → St → Prop} (hE : E .read ∨ sec < fssize)
    (h : sec < fssize → Q (s.img sec) s) : wp E (rsect sec) Q s := by
  unfold rsect
  rw [wp_get_bind]
  split
  · exact h ‹_›
  · exact hE.resolve_right ‹_›

section

variable (hg : Good s.img D s.freeblock) (hle : s.freeblock ≤ fssize)
include hg hle

theorem mapBlock_direct (h : bn < ndirect) :
    wp E (mapBlock (D i) bn) (fun r s' => Grown s D i bn s' (update D i r.1) r.2 ∧ r.1.core = (D i).core) s := by
  have hm : bn ≠ maxfile := by
    have : ndirect ≤ maxfile := by decide
    omega
  have hp : ptrs s.img D (i, bn) = (D i).addrs (directIx bn h) := by
    rw [ptrs_data hm, blockOf_direct h]
  unfold mapBlock
  rw [dif_pos h]
  by_cases h0 : (D i).addrs (directIx bn h) = 0
  · rw [if_pos h0]
    apply wp_seq (takeBlock_wp (Q := fun b s' => b = s.freeblock ∧ s' = { s with freeblock := s.freeblock + 1 })
      ⟨rfl, rfl⟩)
    rintro b s' ⟨rfl, rfl⟩
    have hps := ptrs_setAddr (d := s.img) (D := D) i h s.freeblock
    refine ⟨{
      good := hg.addDirect hle h (hp.trans h0)
      new := by rw [hps, update_self]
      ne_zero := Nat.ne_of_gt hg.pos
      old := fun l hl _ => by rw [hps, update_of_ne hl]
      bytes := byteAt_add hps (hp.trans h0) (hg.fresh _ (le_refl _)) fun _ _ _ _ => rfl
      low := fun _ _ => rfl
      inum := rfl
      fb := Or.inr rfl
      grow := by
        have hb0 : blockOf s.img (D i) bn = 0 := (blockOf_direct h).trans h0
        unfold cost
        rw [if_neg (by rw [hb0]; simp), if_pos (Or.inl h)]
      ind := by
        rw [update_self]
        show ((D i).setAddr (directIx bn h) s.freeblock).indirect ≠ 0 ↔ _
        rw [setAddr_indirect]
        omega }, rfl⟩
  · rw [if_neg h0]
    refine ⟨{
      good := by rw [update_eq_self]; exact hg
      new := by rw [update_eq_self]; exact hp
      ne_zero := h0
      old := fun _ _ _ => by rw [update_eq_self]
      bytes := fun _ => by rw [update_eq_self]
      low := fun _ _ => rfl
      inum := rfl
      fb := Or.inl hle
      grow := by
        unfold cost
        rw [if_pos (by rw [blockOf_direct h]; exact h0)]
        rfl
      ind := by
        rw [update_self]
        show (D i).indirect ≠ 0 ↔ _
        omega }, rfl⟩

theorem withIndirect_wp :
    wp E (withIndirect (D i)) (fun x s' => Good s'.img (update D i x) s'.freeblock ∧ x.indirect ≠ 0 ∧
      (∀ l, l.2 ≠ maxfile → ptrs s.img (update D i x) l = ptrs s.img D l) ∧
      (∀ j, byteAt s.img (update D i x j) = byteAt s.img (D j)) ∧ x.core = (D i).core ∧
      s'.img = s.img ∧ s'.freeinode = s.freeinode ∧ (s'.freeblock ≤ fssize ∨ s'.freeblock = x.indirect + 1) ∧
      s'.freeblock = s.freeblock + if (D i).indirect = 0 then 1 else 0) s := by
  unfold withIndirect
  by_cases h0 : (D i).indirect = 0
  · rw [if_pos h0]
    apply wp_seq (takeBlock_wp (Q := fun b s' => b = s.freeblock ∧ s' = { s with freeblock := s.freeblock + 1 })
      ⟨rfl, rfl⟩)
    rintro b s' ⟨rfl, rfl⟩
    have hz := hg.fresh s.freeblock (le_refl _)
    have hps := ptrs_setIndirect (d := s.img) (D := D) (i := i) h0 hz
    refine ⟨hg.addIndirect hle h0, ?_, ?_, ?_, rfl, rfl, rfl, ?_, by rw [if_pos h0]⟩
    · rw [setAddr_indirect_self]; exact Nat.ne_of_gt hg.pos
    · intro l hl
      rw [hps, update_of_ne fun he => hl (congrArg Prod.snd he)]
    · exact byteAt_add hps (ptrs_maxfile.trans h0) hz fun _ _ _ _ => rfl
    · rw [setAddr_indirect_self]; exact Or.inr rfl
  · rw [if_neg h0]
    refine ⟨?_, h0, ?_, ?_, rfl, rfl, rfl, Or.inl hle, by rw [if_neg h0]; rfl⟩
    · rw [update_eq_self]; exact hg
    · intro l _; rw [update_eq_self]
    · intro j; rw [update_eq_self]

theorem mapBlock_indirect (h1 : ndirect ≤ bn) (h2 : bn < maxfile) (hr : E .read ∨ s.freeblock + cost s.img (D i) bn ≤ fssize) :
    wp E (mapBlock (D i) bn) (fun r s' => Grown s D i bn s' (update D i r.1) r.2 ∧ r.1.core = (D i).core) s := by
  unfold mapBlock
  rw [dif_neg (by omega)]
  apply wp_seq (withIndirect_wp hg hle)
  rintro x s1 ⟨hg1, hx0, hp1, hb1, hsz, himg, hino, hfb, hgrow⟩
  have hind : x.indirect < s1.freeblock := by
    have h := hg1.lt_fb (l := (i, maxfile))
    rw [ptrs_maxfile, update_self] at h
    exact h hx0
  -- the new indirect block changes no data block
  have hslot : slot (s1.img x.indirect) bn = blockOf s.img (D i) bn := by
    have h := hp1 (i, bn) (by show bn ≠ _; omega)
    rw [ptrs_data (by omega), ptrs_data (by omega), update_self, blockOf_indirect h1 h2, if_neg hx0] at h
    rw [himg, h]
  have hcost : s1.freeblock + (if slot (s1.img x.indirect) bn = 0 then 1 else 0) = s.freeblock + cost s.img (D i) bn := by
    rw [cost_indirect _ _ h1 h2, hgrow, hslot, Nat.add_assoc]
  apply wp_seq (rsect_wp (Q := fun v s2 => x.indirect < fssize ∧ v = s1.img x.indirect ∧ s1 = s2)
    (hr.imp_right fun h => by omega) fun hlt => ⟨hlt, rfl, rfl⟩)
  rintro v s2 ⟨hlt, rfl, rfl⟩
  have hle1 : s1.freeblock ≤ fssize := by
    rcases hfb with h | h
    · exact h
    · omega
  have hxi : (update D i x) i = x := update_self _ _ _
  have hne : (bn : Nat) ≠ maxfile := by omega
  have hxi0 : (update D i x i).indirect ≠ 0 := by rw [hxi]; exact hx0
  by_cases h0 : slot (s1.img x.indirect) bn = 0
  · rw [if_pos h0]
    apply wp_seq (takeBlock_wp (Q := fun b s' => b = s1.freeblock ∧ s' = { s1 with freeblock := s1.freeblock + 1 })
      ⟨rfl, rfl⟩)
    rintro b s3 ⟨rfl, rfl⟩
    have hb32 : s1.freeblock < 2 ^ 32 := Nat.lt_of_le_of_lt hle1 fssize_lt
    have hempty : ptrs s1.img (update D i x) (i, bn) = 0 := by
      rw [ptrs_data hne, hxi, blockOf_indirect h1 h2, if_neg hx0, h0]
    have hg3 := hg1.addSlot (i := i) hle1 hxi0 h1 h2 hempty
    have hps := ptrs_setSlot (d := s1.img) hxi0 (fun _ hj => indirect_inj hg1.own hxi0 hj) h1 h2 hb32
    have hbs := byteAt_setSlot hg1.own hxi0 h1 h2 (by rw [hxi]; exact h0) hb32 (by simp) hg1.pos
      (hg1.fresh _ (le_refl _))
    rw [hxi] at hg3 hps hbs
    refine ⟨{
      good := hg3
      new := by
        show ptrs (update s1.img x.indirect _) _ _ = _
        rw [hps, update_self]
      ne_zero := Nat.ne_of_gt hg1.pos
      old := fun l hl hm => by
        show ptrs (update s1.img x.indirect _) _ _ = _
        rw [hps, update_of_ne hl, himg, hp1 l hm]
      bytes := fun j => by
        show byteAt (update s1.img x.indirect _) _ = _
        rw [hbs j, himg, hb1 j]
      low := fun b hb => by
        have hr := (hg1.own.range (i, maxfile) (by rw [ptrs_maxfile]; exact hxi0)).1
        rw [ptrs_maxfile, hxi] at hr
        show update s1.img x.indirect _ b = _
        rw [update_of_ne (by omega), himg]
      inum := hino
      fb := Or.inr rfl
      grow := by
        rw [if_pos h0] at hcost
        exact hcost
      ind := by
        rw [hxi]
        exact ⟨fun _ => Or.inr h1, fun _ => hx0⟩ }, hsz⟩
  · rw [if_neg h0]
    refine ⟨{
      good := hg1
      new := by rw [ptrs_data hne, hxi, blockOf_indirect h1 h2, if_neg hx0]
      ne_zero := h0
      old := fun l _ hm => by rw [himg, hp1 l hm]
      bytes := fun j => by rw [himg, hb1 j]
      low := fun b _ => by rw [himg]
      inum := hino
      fb := Or.inl hle1
      grow := by
        rw [if_neg h0] at hcost
        exact hcost
      ind := by
        rw [hxi]
        exact ⟨fun _ => Or.inr h1, fun _ => hx0⟩ }, hsz⟩

theorem mapBlock_wp (h : bn < maxfile) (hr : E .read ∨ s.freeblock + cost s.img (D i) bn ≤ fssize) :
    wp E (mapBlock (D i) bn) (fun r s' => Grown s D i bn s' (update D i r.1) r.2 ∧ r.1.core = (D i).core) s := by
  by_cases hd : bn < ndirect
  · exact mapBlock_direct hg hle hd
  · exact mapBlock_indirect hg hle (by omega) h hr

end

/-! ## iappend -/

/-- A file of `size` bytes has exactly the blocks below its size, and an indirect block when one of them is not
    direct. -/
structure Filled (d : Disk) (x : Dinode) (size : Nat) : Prop where
  data : ∀ bn, blockOf d x bn ≠ 0 ↔ bn * bsize < size
  ind : x.indirect ≠ 0 ↔ ndirect * bsize < size

/-- The blocks of a file of `size` bytes. -/
def need (size : Nat) : Nat := (size + bsize - 1) / bsize + if ndirect * bsize < size then 1 else 0

theorem need_mono {m : Nat} (h : m ≤ n) : need m ≤ need n := by
  unfold need
  have h1 : (m + bsize - 1) / bsize ≤ (n + bsize - 1) / bsize := Nat.div_le_div_right (by omega)
  split <;> split <;> omega

theorem Filled.congr {d' : Disk} {size : Nat} (h : Filled d x size) (hb : blockOf d' y = blockOf d x)
    (ha : y.addrs = x.addrs) : Filled d' y size := by
  refine ⟨fun bn => ?_, ?_⟩
  · rw [hb]
    exact h.data bn
  · show y.addrs 12 ≠ 0 ↔ _
    rw [ha]
    exact h.ind

/-- `n` more bytes, in the block of the file's end, take what `mapBlock` takes. -/
theorem Filled.need_add (h : Filled d x off) (hn : 0 < n)
    (hend : off + n ≤ off / bsize * bsize + bsize) : need (off + n) = need off + cost d x (off / bsize) := by
  have hcost : cost d x (off / bsize) =
      if off / bsize * bsize < off then 0 else if off / bsize < ndirect ∨ ndirect * bsize < off then 1 else 2 := by
    unfold cost
    simp only [h.data, h.ind]
  rw [hcost]
  unfold need bsize ndirect at *
  split <;> split <;> split <;> (try split) <;> omega

/-- Inode `i` of the map `D`, now `x`, has had the bytes `p` stored from `off` on. -/
structure Appended (s : St) (D : Nat → Dinode) (i off : Nat) (p : List UInt8) (s' : St) (x : Dinode) : Prop where
  good : Good s'.img (update D i x) s'.freeblock
  fb : s'.freeblock ≤ fssize
  filled : Filled s'.img x (off + p.length)
  others : ∀ j, j ≠ i → ∀ bn, blockOf s'.img (D j) bn = blockOf s.img (D j) bn
  bytes : byteAt s'.img x = putBytes (byteAt s.img (D i)) off p
  bytes_ne : ∀ j, j ≠ i → byteAt s'.img (D j) = byteAt s.img (D j)
  low : ∀ b, b < nmeta → s'.img b = s.img b
  inum : s'.freeinode = s.freeinode
  core : x.core = (D i).core

theorem Grown.blockOf_self {x : Nat} (h : Grown s D i bn s' D' x)
    (hbn : bn < maxfile) (k : Nat) : blockOf s'.img (D' i) k = if k = bn then x else blockOf s.img (D i) k := by
  by_cases hm : k = maxfile
  · subst hm
    rw [if_neg (by omega), blockOf_beyond (le_refl _), blockOf_beyond (le_refl _)]
  · by_cases hk : k = bn
    · subst hk
      rw [if_pos rfl, ← h.new, ptrs_data hm]
    · have ho := h.old (i, k) (fun he => hk (congrArg Prod.snd he)) hm
      rw [ptrs_data hm, ptrs_data hm] at ho
      rw [if_neg hk, ho]

theorem Grown.blockOf_ne {x : Nat} (h : Grown s D i bn s' D' x) {j : Nat}
    (hj : j ≠ i) (k : Nat) : blockOf s'.img (D' j) k = blockOf s.img (D j) k := by
  by_cases hm : k = maxfile
  · subst hm
    rw [blockOf_beyond (le_refl _), blockOf_beyond (le_refl _)]
  · have ho := h.old (j, k) (fun he => hj (congrArg Prod.fst he)) hm
    rwa [ptrs_data hm, ptrs_data hm] at ho

theorem Appended.refl (hg : Good s.img D s.freeblock)
    (hle : s.freeblock ≤ fssize) (hm : Filled s.img (D i) off) : Appended s D i off [] s (D i) where
  good := by rw [update_eq_self]; exact hg
  fb := hle
  filled := hm
  others _ _ _ := rfl
  bytes := (putBytes_nil _ _).symm
  bytes_ne _ _ := rfl
  low _ _ := rfl
  inum := rfl
  core := rfl

theorem Appended.trans {s2 : St}
    (h1 : Appended s D i off p s1 x) (h2 : Appended s1 (update D i x) i (off + p.length) q s2 y) :
    Appended s D i off (p ++ q) s2 y where
  good := by have h := h2.good; rwa [update_idem] at h
  fb := h2.fb
  filled := by
    have h := h2.filled
    rwa [Nat.add_assoc, ← List.length_append] at h
  others j hj bn := by
    have h := h2.others j hj bn
    rw [update_of_ne hj] at h
    rw [h, h1.others j hj bn]
  bytes := by
    have h := h2.bytes
    rw [update_self] at h
    rw [h, h1.bytes, putBytes_append]
  bytes_ne j hj := by
    have h := h2.bytes_ne j hj
    rw [update_of_ne hj] at h
    rw [h, h1.bytes_ne j hj]
  low b hb := by rw [h2.low b hb, h1.low b hb]
  inum := h2.inum.trans h1.inum
  core := by
    have h := h2.core
    rw [update_self] at h
    exact h.trans h1.core

/-- One iteration: block `off / bsize` is there, and the bytes that fit in it are stored. -/
theorem Grown.append {b : Nat}
    (h : Grown s D i (off / bsize) s1 (update D i x) b) (hfb : s1.freeblock ≤ fssize) (hlt : off / bsize < maxfile)
    (hm : Filled s.img (D i) off) (hq : 0 < q.length)
    (hend : off + q.length ≤ off / bsize * bsize + bsize) (hcore : x.core = (D i).core) :
    Appended s D i off q
      { s1 with img := update s1.img b (putBytes (s1.img b) (off - off / bsize * bsize) q) } x := by
  have hne : off / bsize ≠ maxfile := by omega
  have hb := h.new
  have h0 : ptrs s1.img (update D i x) (i, off / bsize) ≠ 0 := by rw [hb]; exact h.ne_zero
  have hx : update D i x i = x := update_self _ _ _
  have hst := ptrs_store h.good.own hne h0 (putBytes (s1.img b) (off - off / bsize * bsize) q)
  have hby := byteAt_store h.good.own hlt h0 (putBytes (s1.img b) (off - off / bsize * bsize) q)
  have hgd := h.good.store hne h0 (putBytes (s1.img b) (off - off / bsize * bsize) q)
  rw [hb] at hst hby hgd
  -- the store moves no pointer, so every file keeps the blocks it had after `mapBlock`
  have hblk : ∀ j k, blockOf (update s1.img b (putBytes (s1.img b) (off - off / bsize * bsize) q))
      (update D i x j) k = blockOf s1.img (update D i x j) k := by
    intro j k
    by_cases hk : k = maxfile
    · rw [hk, blockOf_beyond (le_refl _), blockOf_beyond (le_refl _)]
    · have hh := congrFun hst (j, k)
      rwa [ptrs_data hk, ptrs_data hk] at hh
  constructor
  · exact hgd
  · exact hfb
  · refine ⟨fun bn => ?_, ?_⟩
    rotate_left
    · have hi := h.ind
      rw [hx, hm.ind] at hi
      rw [hi]
      unfold bsize ndirect at *
      omega
    have hself := h.blockOf_self hlt bn
    have hb2 := hblk i bn
    rw [hx] at hself hb2
    show blockOf (update s1.img b _) x bn ≠ 0 ↔ _
    rw [hb2, hself]
    by_cases he : bn = off / bsize
    · rw [if_pos he]
      have := h.ne_zero
      have := Nat.div_mul_le_self off bsize
      rw [he]
      constructor
      · intro _; omega
      · intro _; assumption
    · rw [if_neg he, hm.data bn]
      unfold bsize at *
      omega
  · intro j hj bn
    have hb2 := hblk j bn
    have hne' := h.blockOf_ne hj bn
    rw [update_of_ne hj] at hb2 hne'
    exact hb2.trans hne'
  · funext o
    have hbo := hby i o
    rw [hx] at hbo
    show byteAt (update s1.img b _) x o = _
    rw [hbo]
    have hold : byteAt s1.img x = byteAt s.img (D i) := by
      have hh := h.bytes i
      rwa [hx] at hh
    rw [← hold]
    simp only [true_and]
    refine putBytes_block (by decide) (fun r hr => ?_) (Nat.div_mul_le_self _ _) hend o
    -- the block's old bytes are the file's
    have hdiv : (off / bsize * bsize + r) / bsize = off / bsize := by unfold bsize at *; omega
    have hmod : (off / bsize * bsize + r) % bsize = r := by unfold bsize at *; omega
    have hbl : blockOf s1.img x (off / bsize) = b := by
      have hh := hb
      rwa [ptrs_data hne, hx] at hh
    unfold byteAt
    rw [hdiv, hmod, hbl, if_neg h.ne_zero]
  · intro j hj
    funext o
    have hbo := hby j o
    have hold := h.bytes j
    rw [update_of_ne hj] at hbo hold
    show byteAt (update s1.img b _) (D j) o = _
    rw [hbo, if_neg fun hh => hj hh.1, hold]
  · intro c hc
    have hr := (h.good.own.range _ h0).1
    rw [hb] at hr
    show update s1.img b _ c = _
    rw [update_of_ne (by omega), h.low c hc]
  · exact h.inum
  · exact hcore

theorem check_wp {c : Prop} [Decidable c] {Q : Unit → St → Prop}
    (hE : E .assertion ∨ c) (h : c → Q () s) : wp E (check c) Q s := by
  unfold check
  split
  · exact h ‹_›
  · exact hE.resolve_right ‹_›

theorem appendLoop_wp (fuel : Nat) : ∀ (s : St) (D : Nat → Dinode) (off : Nat) (p : List UInt8),
    p.length ≤ fuel → Good s.img D s.freeblock → s.freeblock ≤ fssize →
    Filled s.img (D i) off →
    (E .read ∨ s.freeblock + need (off + p.length) ≤ fssize + need off) →
    (E .assertion ∨ off + p.length ≤ maxfile * bsize) →
    wp E (appendLoop fuel (D i) off p)
      (fun r s' => Appended s D i off p s' r.1 ∧ r.2 = off + p.length ∧
        s'.freeblock + need off = s.freeblock + need (off + p.length)) s := by
  induction fuel with
  | zero =>
    intro s D off p hp hg hle hm _ _
    obtain rfl : p = [] := List.length_eq_zero_iff.mp (by omega)
    exact ⟨Appended.refl hg hle hm, rfl, rfl⟩
  | succ fuel ih =>
    intro s D off p hp hg hle hm hr ha
    unfold appendLoop
    by_cases hnil : p = []
    · rw [if_pos hnil]
      subst hnil
      exact ⟨Appended.refl hg hle hm, rfl, rfl⟩
    · rw [if_neg hnil]
      have hpos : 0 < p.length := List.length_pos_iff.mpr hnil
      -- the bytes that go into this block, and what it takes for them
      generalize hn : min p.length ((off / bsize + 1) * bsize - off) = n1
      have hmul : (off / bsize + 1) * bsize = off / bsize * bsize + bsize := Nat.succ_mul _ _
      have hoff : off < off / bsize * bsize + bsize := by unfold bsize; omega
      have hlen : (p.take n1).length = n1 := by rw [List.length_take]; omega
      have hrest : off + n1 + (p.drop n1).length = off + p.length := by
        rw [List.length_drop]
        omega
      have hneed := hm.need_add (n := n1) (by omega) (by omega)
      have hmono : need (off + n1) ≤ need (off + p.length) := need_mono (by omega)
      apply wp_seq (check_wp (Q := fun _ s' => off / bsize < maxfile ∧ s = s')
        (ha.imp_right fun h => by unfold maxfile nindirect bsize at *; omega) fun h => ⟨h, rfl⟩)
      rintro _ s0 ⟨hlt, rfl⟩
      apply wp_seq (mapBlock_wp hg hle hlt (hr.imp_right fun h => by omega))
      intro r s1 hr1
      obtain ⟨x, b⟩ := r
      obtain ⟨hgr, hcore⟩ := hr1
      have hgrow := hgr.grow
      have hb : b < s1.freeblock := by
        have h := hgr.good.lt_fb (l := (i, off / bsize))
        rw [hgr.new] at h
        exact h hgr.ne_zero
      apply wp_seq (rsect_wp (Q := fun v s2 => b < fssize ∧ v = s1.img b ∧ s1 = s2)
        (hr.imp_right fun h => by omega) fun hlt => ⟨hlt, rfl, rfl⟩)
      rintro v s2 ⟨hb, rfl, rfl⟩
      have hfb : s1.freeblock ≤ fssize := by
        rcases hgr.fb with h | h
        · exact h
        · omega
      have happ := hgr.append (q := p.take n1) hfb hlt hm (by rw [hlen]; omega) (by rw [hlen]; omega) hcore
      have hself : update D i x i = x := update_self _ _ _
      have hm' := happ.filled
      rw [hlen] at hm'
      have hrec := ih _ (update D i x) (off + n1) (p.drop n1) (by rw [List.length_drop]; omega) happ.good happ.fb
        (by rw [hself]; exact hm') (hr.imp_right fun h => by rw [hrest]; show s1.freeblock + _ ≤ _; omega)
        (ha.imp_right fun h => by omega)
      rw [hself] at hrec
      rw [hn]
      refine wp_mono hrec ?_
      rintro r s3 ⟨h3, hoff3, hfb3⟩
      refine ⟨?_, ?_, ?_⟩
      · have ht := happ.trans (q := p.drop n1) (by rw [hlen]; exact h3)
        rwa [List.take_append_drop] at ht
      · rw [hoff3, hrest]
      · rw [hrest] at hfb3
        have hfb3' : s3.freeblock + _ = s1.freeblock + _ := hfb3
        omega

/-! ## The image between two calls -/

structure Inv (s : St) : Prop where
  good : Good s.img (inodes s) s.freeblock
  fb : s.freeblock ≤ fssize
  filled : ∀ i, Filled s.img (inodes s i) (inodes s i).size
  free : ∀ i, s.freeinode ≤ i → inodes s i = Dinode.zero
  super : s.img 1 = sbBlock

theorem iblock_lt_nmeta (h : i < ninodes) : iblock sb i < nmeta := by
  have h1 : iblock sb i < sb.bmapstart := iblock_lt h
  have h2 : sb.bmapstart < nmeta := by decide
  omega

theorem iblock_lt_fssize (h : i < ninodes) : iblock sb i < fssize := by
  have h1 := iblock_lt_nmeta h
  have h2 : nmeta ≤ fssize := by decide
  omega

theorem inodes_congr (h : ∀ b, b < nmeta → s'.img b = s.img b) : inodes s' = inodes s := by
  funext i
  unfold inodes
  split
  · unfold dinodeAt
    rw [h _ (iblock_lt_nmeta ‹_›)]
  · rfl

theorem rinode_wp {Q : Dinode → St → Prop} (h : inum < ninodes) (hQ : Q (inodes s inum) s) :
    wp E (rinode inum) Q s := by
  unfold rinode
  apply wp_seq (rsect_wp (Q := fun v s' => v = s.img (iblock sb inum) ∧ s = s') (Or.inr (iblock_lt_fssize h))
    fun _ => ⟨rfl, rfl⟩)
  rintro v s' ⟨rfl, rfl⟩
  unfold inodes at hQ
  rw [if_pos h] at hQ
  exact hQ

theorem winode_wp (h : inum < ninodes) (hx : x.Fits) :
    wp E (winode inum x) (fun _ s' => inodes s' = update (inodes s) inum x ∧
      (∀ b, nmeta ≤ b → s'.img b = s.img b) ∧ s'.img 1 = s.img 1 ∧ s'.freeblock = s.freeblock ∧
      s'.freeinode = s.freeinode) s := by
  unfold winode
  apply wp_seq (rsect_wp (Q := fun v s' => v = s.img (iblock sb inum) ∧ s = s') (Or.inr (iblock_lt_fssize h))
    fun _ => ⟨rfl, rfl⟩)
  rintro v s' ⟨rfl, rfl⟩
  have hlow : 1 < iblock sb inum := Nat.lt_of_lt_of_le (by decide : 1 < sb.inodestart) (Nat.le_add_left _ _)
  have hsuper : ∀ v, update s.img (iblock sb inum) v 1 = s.img 1 := fun v => update_of_ne (Nat.ne_of_lt hlow) v _
  refine ⟨?_, ?_, hsuper (putDinode (s.img (iblock sb inum)) (inum % ipb) x), rfl, rfl⟩
  · funext i
    by_cases hi : i = inum
    · subst hi
      rw [update_self]
      unfold inodes
      rw [if_pos h]
      exact dinodeAt_setDinode s.img i hx
    · rw [update_of_ne hi]
      unfold inodes
      split
      · exact dinodeAt_setDinode_ne s.img x hi
      · rfl
  · intro b hb
    have := iblock_lt_nmeta h
    exact update_of_ne (by omega) _ _

/-- Rewriting inodes without touching their addresses, or metadata blocks, moves no file. -/
theorem Good.rewrite {img : Disk} {fb : Nat} (hg : Good img D fb) (D' : Nat → Dinode) (himg : ∀ b, nmeta ≤ b → img' b = img b)
    (haddrs : ∀ j, (D' j).addrs = (D j).addrs) (hfits : ∀ j, (D' j).Fits) :
    Good img' D' fb ∧ (∀ j, blockOf img' (D' j) = blockOf img (D j)) ∧
      ∀ j, byteAt img' (D' j) = byteAt img (D j) := by
  have own : Owned (ptrs img D') (fun b => decide (b < fb)) nmeta (fssize + 1) := by
    rw [ptrs_addrs haddrs]; exact hg.own
  refine ⟨⟨hg.fb_ge, ?_, ?_, ?_, hfits⟩, fun j => ?_, fun j => ?_⟩
  · rw [ptrs_high own himg]; exact own
  · rw [ptrs_high own himg, ptrs_addrs haddrs]; exact hg.leak
  · intro b hb
    rw [himg b (Nat.le_trans hg.fb_ge hb), hg.fresh b hb]
  · rw [blockOf_high own himg, blockOf_addrs (haddrs j)]
  · rw [byteAt_high own himg, byteAt_addrs (haddrs j)]

/-- Inode `i` has been rewritten and has the same blocks; nothing else changes. -/
structure Rewritten (s : St) (i : Nat) (x : Dinode) (s' : St) : Prop where
  nodes : inodes s' = update (inodes s) i x
  addrs : ∀ j, (inodes s' j).addrs = (inodes s j).addrs
  good : Good s'.img (inodes s') s.freeblock
  blocks : ∀ j, blockOf s'.img (inodes s' j) = blockOf s.img (inodes s j)
  bytes : ∀ j, byteAt s'.img (inodes s' j) = byteAt s.img (inodes s j)
  super : s'.img 1 = s.img 1
  fb : s'.freeblock = s.freeblock
  inum : s'.freeinode = s.freeinode

theorem rewrite_wp (hg : Good s.img (inodes s) s.freeblock) (h : inum < ninodes) (hx : x.Fits)
    (ha : x.addrs = (inodes s inum).addrs) : wp E (winode inum x) (fun _ s' => Rewritten s inum x s') s := by
  refine wp_mono (winode_wp h hx) ?_
  rintro _ s1 ⟨hin, hhigh, hsuper, hfb, hfi⟩
  have haddrs : ∀ j, (inodes s1 j).addrs = (inodes s j).addrs := by
    intro j
    rw [hin]
    by_cases hj : j = inum
    · rw [hj, update_self, ha]
    · rw [update_of_ne hj]
  have hfits : ∀ j, (inodes s1 j).Fits := by
    rw [hin]
    exact update_fits hg.fits hx
  obtain ⟨hg1, hblk, hbyte⟩ := hg.rewrite (inodes s1) hhigh haddrs hfits
  exact ⟨hin, haddrs, hg1, hblk, hbyte, hsuper, hfb, hfi⟩

theorem update_addrs (h : y.addrs = x.addrs) (j : Nat) :
    (update D i y j).addrs = (update D i x j).addrs := by
  by_cases hj : j = i
  · subst hj; rw [update_self, update_self, h]
  · rw [update_of_ne hj, update_of_ne hj]

/-- What `iappend` does to the image: inode `i` has grown by `p`, every other file is as it was. -/
structure Extended (s : St) (i : Nat) (p : List UInt8) (s' : St) : Prop where
  inv : Inv s'
  inum : s'.freeinode = s.freeinode
  others : ∀ j, j ≠ i → inodes s' j = inodes s j
  core : (inodes s' i).core = { (inodes s i).core with size := (inodes s i).size + p.length }
  bytes : byteAt s'.img (inodes s' i) = putBytes (byteAt s.img (inodes s i)) (inodes s i).size p
  bytes_ne : ∀ j, j ≠ i → byteAt s'.img (inodes s' j) = byteAt s.img (inodes s j)
  grow : s'.freeblock + need (inodes s i).size = s.freeblock + need ((inodes s i).size + p.length)

theorem iappend_wp (h : Inv s) (hi : i < s.freeinode) (hn : i < ninodes)
    (hr : E .read ∨ s.freeblock + need ((inodes s i).size + p.length) ≤ fssize + need (inodes s i).size)
    (ha : E .assertion ∨ (inodes s i).size + p.length ≤ maxfile * bsize) :
    wp E (iappend i p) (fun _ s' => Extended s i p s') s := by
  unfold iappend
  apply wp_seq (rinode_wp (Q := fun x s' => x = inodes s i ∧ s = s') hn ⟨rfl, rfl⟩)
  rintro x s0 ⟨rfl, rfl⟩
  apply wp_seq (appendLoop_wp p.length s (inodes s) (inodes s i).size p (le_refl _) h.good h.fb (h.filled i) hr ha)
  intro r s1 hr1
  obtain ⟨x, off⟩ := r
  obtain ⟨happ, hoff, hgrow⟩ := hr1
  simp only at happ hoff
  subst hoff
  have hino : inodes s1 = inodes s := inodes_congr happ.low
  -- the file's blocks end below `maxfile`, so its size fits
  have hsize : (inodes s i).size + p.length < 2 ^ 32 := by
    have hb := (happ.filled.data maxfile).not
    rw [blockOf_beyond (le_refl _)] at hb
    have hlt : ¬ maxfile * bsize < (inodes s i).size + p.length := hb.mp fun hh => hh rfl
    have : maxfile * bsize < 2 ^ 32 := by decide
    omega
  have hxf : x.Fits := by
    have hf := happ.good.fits i
    rwa [update_self] at hf
  have hyf : Dinode.Fits { x with size := (inodes s i).size + p.length } :=
    ⟨hxf.type, hxf.major, hxf.minor, hxf.nlink, hsize, hxf.addrs⟩
  refine wp_mono (winode_wp hn hyf) ?_
  rintro _ s2 ⟨hin, hhigh, hsuper, hfb, hfi⟩
  rw [hino] at hin
  have haddrs : ∀ j, (update (inodes s) i { x with size := (inodes s i).size + p.length } j).addrs =
      (update (inodes s) i x j).addrs := by
    intro j
    apply update_addrs
    rfl
  have hre := happ.good.rewrite _ hhigh haddrs (update_fits h.good.fits hyf)
  rw [← hin] at hre
  obtain ⟨hg2, hblk, hbyte⟩ := hre
  have hself : inodes s2 i = { x with size := (inodes s i).size + p.length } := by rw [hin, update_self]
  have hoth : ∀ j, j ≠ i → inodes s2 j = inodes s j := by
    intro j hj
    rw [hin, update_of_ne hj]
  refine ⟨⟨?_, ?_, ?_, ?_, ?_⟩, ?_, hoth, ?_, ?_, ?_, by rw [hfb]; exact hgrow⟩
  · rw [hfb]; exact hg2
  · rw [hfb]; exact happ.fb
  · intro j
    by_cases hj : j = i
    · subst hj
      have hf : Filled s2.img (inodes s2 j) _ := happ.filled.congr (by rw [hblk, update_self]) (by rw [hself])
      rwa [hself] at hf ⊢
    · have hf : Filled s2.img (inodes s2 j) _ := (h.filled j).congr
        (by rw [hblk, update_of_ne hj]; exact funext (happ.others j hj)) (by rw [hoth j hj])
      rwa [hoth j hj] at hf ⊢
  · intro j hj
    rw [hfi, happ.inum] at hj
    rw [hoth j (by omega)]
    exact h.free j hj
  · rw [hsuper, happ.low 1 (by decide), h.super]
  · rw [hfi, happ.inum]
  · rw [hself, ← happ.core]
    rfl
  · have hb := hbyte i
    rw [update_self] at hb
    rw [hb, happ.bytes]
  · intro j hj
    have hb := hbyte j
    rw [update_of_ne hj] at hb
    rw [hb, happ.bytes_ne j hj]

theorem zero_addrs_fits (type : Nat) (h : type < 65536) : Dinode.Fits { Dinode.zero with type := type, nlink := 1 } :=
  ⟨h, Dinode.Fits.zero.major, Dinode.Fits.zero.minor, by show 1 < 65536; decide, Dinode.Fits.zero.size,
    Dinode.Fits.zero.addrs⟩

theorem ialloc_wp {type : Nat} (h : Inv s) (hn : s.freeinode < ninodes) (ht : type < 65536) :
    wp E (ialloc type) (fun inum s' => inum = s.freeinode ∧ Inv s' ∧ s'.freeinode = s.freeinode + 1 ∧
      inodes s' = update (inodes s) s.freeinode { Dinode.zero with type := type, nlink := 1 } ∧
      (∀ j, byteAt s'.img (inodes s' j) = byteAt s.img (inodes s j)) ∧ s'.freeblock = s.freeblock) s := by
  unfold ialloc
  rw [wp_get_bind, wp_bind, wp_set]
  have hnew : inodes s s.freeinode = Dinode.zero := h.free _ (le_refl _)
  have hw : wp E (winode s.freeinode _) _ { s with freeinode := s.freeinode + 1 } :=
    rewrite_wp h.good hn (zero_addrs_fits type ht) (congrArg Dinode.addrs hnew).symm
  refine wp_seq hw fun _ s1 hs1 => ?_
  have hin : inodes s1 = update (inodes s) s.freeinode { Dinode.zero with type := type, nlink := 1 } := hs1.nodes
  refine ⟨rfl, ⟨?_, ?_, fun j => ?_, fun j hj => ?_, hs1.super.trans h.super⟩, hs1.inum, hin, hs1.bytes, hs1.fb⟩
  · rw [hs1.fb]
    exact hs1.good
  · rw [hs1.fb]
    exact h.fb
  · have hsize : (inodes s1 j).size = (inodes s j).size := by
      rw [hin]
      by_cases hj : j = s.freeinode
      · rw [hj, update_self, hnew]
      · rw [update_of_ne hj]
    rw [hsize]
    exact (h.filled j).congr (hs1.blocks j) (hs1.addrs j)
  · rw [hs1.inum] at hj
    have hj' : s.freeinode + 1 ≤ j := hj
    rw [hin, update_of_ne (by omega)]
    exact h.free j (by omega)

end Xv6.Mkfs
