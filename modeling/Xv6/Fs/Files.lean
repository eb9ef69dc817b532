/-
  Xv6.Fs.Files — the blocks of the files on a disk.

  `D` gives each inode number its inode: on disk, or a copy in memory that is ahead of the
  disk. A file's pointers are its data blocks, indices `bn < maxfile`, and its indirect
  block, index `maxfile`; `ptrs d D` collects the pointers of all files.

  Proved: what each store does to all the pointers at once (`ptrs_setAddr`,
  `ptrs_setIndirect`, `ptrs_setSlot`, `ptrs_update`), and that a file's bytes follow its
  data blocks (`byteAt_update`).
-/

import Xv6.Fs.Layout
import Xv6.Lib.Own

namespace Xv6.Fs

open Xv6.Lib

/-- `ip->addrs[k] = b`. -/
def Dinode.setAddr (x : Dinode) (k : Fin 13) (b : Nat) : Dinode := { x with addrs := update x.addrs k b }

instance addrs_neZero : NeZero 13 := ⟨by decide⟩

/-- `ip->addrs[NDIRECT]`. -/
def Dinode.indirect (x : Dinode) : Nat := x.addrs 12

def directIx (bn : Nat) (h : bn < ndirect) : Fin 13 := ⟨bn, Nat.lt_succ_of_lt h⟩

/-- Slot `bn - ndirect` of an indirect block. -/
def slot (b : Block) (bn : Nat) : Nat := le32 b (4 * (bn - ndirect))

def putSlot (b : Block) (bn v : Nat) : Block := put32 b (4 * (bn - ndirect)) v

/-- The block that holds file block `bn`, 0 when there is none. -/
def blockOf (d : Disk) (x : Dinode) (bn : Nat) : Nat :=
  if h : bn < ndirect then x.addrs (directIx bn h)
  else if bn < maxfile then (if x.indirect = 0 then 0 else slot (d x.indirect) bn)
  else 0

/-- All the block numbers an inode holds: its data blocks, then its indirect block. -/
def ptr (d : Disk) (x : Dinode) (k : Nat) : Nat := if k = maxfile then x.indirect else blockOf d x k

def ptrs (d : Disk) (D : Nat → Dinode) (l : Nat × Nat) : Nat := ptr d (D l.1) l.2

/-- Byte `o` of a file; a byte no block holds reads as 0. -/
def byteAt (d : Disk) (x : Dinode) (o : Nat) : UInt8 :=
  if blockOf d x (o / bsize) = 0 then 0 else d (blockOf d x (o / bsize)) (o % bsize)

variable {d : Disk} {x : Dinode} {D : Nat → Dinode} {i b bn : Nat}

theorem blockOf_direct (h : bn < ndirect) : blockOf d x bn = x.addrs (directIx bn h) := dif_pos h

theorem blockOf_indirect (h1 : ndirect ≤ bn) (h2 : bn < maxfile) :
    blockOf d x bn = if x.indirect = 0 then 0 else slot (d x.indirect) bn := by
  unfold blockOf
  rw [dif_neg (by omega), if_pos h2]

theorem blockOf_zero (d : Disk) (bn : Nat) : blockOf d Dinode.zero bn = 0 := by
  unfold blockOf Dinode.indirect
  repeat' split
  all_goals first | rfl | contradiction

theorem byteAt_zero (d : Disk) : byteAt d Dinode.zero = zero := by
  funext o
  unfold byteAt
  rw [blockOf_zero, if_pos rfl]
  rfl

theorem blockOf_beyond (h : maxfile ≤ bn) : blockOf d x bn = 0 := by
  have h1 : ndirect ≤ maxfile := by decide
  unfold blockOf
  rw [dif_neg (by omega), if_neg (by omega)]

theorem ptr_maxfile : ptr d x maxfile = x.indirect := if_pos rfl

theorem ptr_of_ne (h : bn ≠ maxfile) : ptr d x bn = blockOf d x bn := if_neg h

theorem ptrs_maxfile : ptrs d D (i, maxfile) = (D i).indirect := ptr_maxfile

theorem slot_zero : slot zero bn = 0 := rfl

theorem slot_putSlot (v : Block) (hb : b < 2 ^ 32) : slot (putSlot v bn b) bn = b := by
  unfold slot putSlot
  rw [le32_put32_same, Nat.mod_eq_of_lt hb]

variable {k o : Nat} {y : Dinode} {D' : Nat → Dinode} {d' : Disk}

theorem slot_putSlot_ne (v : Block) (hk : ndirect ≤ k) (hbn : ndirect ≤ bn) (h : k ≠ bn) :
    slot (putSlot v bn b) k = slot v k := by
  unfold slot putSlot
  exact le32_put32_ne _ _ (by omega)

/-- An inode without its addresses. -/
def Dinode.core (x : Dinode) : Dinode := { x with addrs := fun _ => 0 }

theorem blockOf_addrs (h : y.addrs = x.addrs) : blockOf d y = blockOf d x := by
  funext k
  unfold blockOf Dinode.indirect
  rw [h]

theorem ptr_addrs (h : y.addrs = x.addrs) : ptr d y = ptr d x := by
  funext k
  unfold ptr
  rw [blockOf_addrs h]
  unfold Dinode.indirect
  rw [h]

theorem byteAt_addrs (h : y.addrs = x.addrs) : byteAt d y = byteAt d x := by
  funext o
  unfold byteAt
  rw [blockOf_addrs h]

theorem ptrs_addrs (h : ∀ j, (D' j).addrs = (D j).addrs) : ptrs d D' = ptrs d D := by
  funext ⟨j, k⟩
  exact congrFun (ptr_addrs (h j)) k

/-! ## Changing an inode's addresses -/

theorem directIx_ne_12 (h : bn < ndirect) : directIx bn h ≠ 12 := by
  intro he
  have : bn = 12 := congrArg Fin.val he
  unfold ndirect at h
  omega

theorem setAddr_indirect (h : bn < ndirect) : (x.setAddr (directIx bn h) b).indirect = x.indirect :=
  update_of_ne (directIx_ne_12 h).symm _ _

theorem setAddr_indirect_self : (x.setAddr 12 b).indirect = b := by
  simp only [Dinode.indirect, Dinode.setAddr, update_self]

theorem setAddr_fits (hx : x.Fits) (hb : b < 2 ^ 32) (k : Fin 13) : (x.setAddr k b).Fits where
  type := hx.type
  major := hx.major
  minor := hx.minor
  nlink := hx.nlink
  size := hx.size
  addrs j := by
    by_cases h : j = k
    · subst h; simpa only [Dinode.setAddr, update_self] using hb
    · simpa only [Dinode.setAddr, update_of_ne h] using hx.addrs j

theorem update_fits (h : ∀ j, (D j).Fits) (hx : x.Fits) (j : Nat) :
    (update D i x j).Fits := by
  by_cases hj : j = i
  · subst hj; rwa [update_self]
  · rw [update_of_ne hj]; exact h j

theorem ptr_setAddr (h : bn < ndirect) (k : Nat) :
    ptr d (x.setAddr (directIx bn h) b) k = if k = bn then b else ptr d x k := by
  have hm : ndirect ≤ maxfile := by decide
  by_cases hk : k < ndirect
  · rw [ptr_of_ne (by omega), ptr_of_ne (by omega), blockOf_direct hk, blockOf_direct hk]
    by_cases he : k = bn
    · subst he; rw [if_pos rfl]; exact update_self _ _ _
    · rw [if_neg he]
      exact update_of_ne (fun hh => he (congrArg Fin.val hh)) _ _
  · rw [if_neg (by omega)]
    by_cases he : k = maxfile
    · subst he; rw [ptr_maxfile, ptr_maxfile, setAddr_indirect]
    · rw [ptr_of_ne he, ptr_of_ne he]
      by_cases hlt : k < maxfile
      · rw [blockOf_indirect (by omega) hlt, blockOf_indirect (by omega) hlt, setAddr_indirect]
      · rw [blockOf_beyond (by omega), blockOf_beyond (by omega)]

theorem setAddr_12_direct (k : Nat) (h : k < ndirect) : (x.setAddr 12 b).addrs (directIx k h) = x.addrs (directIx k h) :=
  update_of_ne (directIx_ne_12 h) _ _

/-- A fresh, zeroed indirect block adds no file block. -/
theorem ptr_setIndirect (h0 : x.indirect = 0) (hb : d b = zero) (k : Nat) :
    ptr d (x.setAddr 12 b) k = if k = maxfile then b else ptr d x k := by
  by_cases he : k = maxfile
  · rw [if_pos he, he, ptr_maxfile, setAddr_indirect_self]
  · rw [if_neg he, ptr_of_ne he, ptr_of_ne he]
    by_cases hk : k < ndirect
    · rw [blockOf_direct hk, blockOf_direct hk, setAddr_12_direct]
    · by_cases hlt : k < maxfile
      · rw [blockOf_indirect (by omega) hlt, blockOf_indirect (by omega) hlt, h0, if_pos rfl, setAddr_indirect_self,
          hb, slot_zero, ite_self]
      · rw [blockOf_beyond (by omega), blockOf_beyond (by omega)]

/-- Storing into a block that is not the file's indirect block moves none of its pointers. -/
theorem ptr_update (v : Block) (h : x.indirect = b → b = 0) (k : Nat) : ptr (update d b v) x k = ptr d x k := by
  by_cases he : k = maxfile
  · rw [he, ptr_maxfile, ptr_maxfile]
  · rw [ptr_of_ne he, ptr_of_ne he]
    unfold blockOf
    split
    · rfl
    · split
      · by_cases h0 : x.indirect = 0
        · rw [if_pos h0, if_pos h0]
        · have hne : x.indirect ≠ b := fun hh => h0 (hh.trans (h hh))
          rw [if_neg h0, if_neg h0, update_of_ne hne]
      · rfl

theorem ptr_setSlot (h0 : x.indirect ≠ 0) (h1 : ndirect ≤ bn) (h2 : bn < maxfile) (hb : b < 2 ^ 32) (k : Nat) :
    ptr (update d x.indirect (putSlot (d x.indirect) bn b)) x k = if k = bn then b else ptr d x k := by
  by_cases he : k = maxfile
  · rw [if_neg (by omega), he, ptr_maxfile, ptr_maxfile]
  · rw [ptr_of_ne he, ptr_of_ne he]
    by_cases hk : k < ndirect
    · rw [blockOf_direct hk, blockOf_direct hk, if_neg (by omega)]
    · by_cases hlt : k < maxfile
      · rw [blockOf_indirect (by omega) hlt, blockOf_indirect (by omega) hlt, if_neg h0, if_neg h0,
          update_self]
        by_cases hkb : k = bn
        · rw [if_pos hkb, hkb, slot_putSlot _ hb]
        · rw [if_neg hkb, slot_putSlot_ne _ (by omega) h1 hkb]
      · rw [blockOf_beyond (by omega), blockOf_beyond (by omega), if_neg (by omega)]

/-! ## All files at once -/

theorem ptrs_congr (i : Nat) (k b : Nat)
    (hi : ∀ m, ptr d' (D' i) m = if m = k then b else ptr d (D i) m)
    (hj : ∀ j, j ≠ i → ∀ m, ptr d' (D' j) m = ptr d (D j) m) :
    ptrs d' D' = update (ptrs d D) (i, k) b := by
  funext ⟨j, m⟩
  unfold ptrs
  by_cases hji : j = i
  · subst hji
    rw [hi m]
    by_cases hm : m = k
    · subst hm; rw [if_pos rfl, update_self]
    · rw [if_neg hm, update_of_ne fun hh => hm (congrArg Prod.snd hh)]
  · rw [hj j hji m, update_of_ne fun hh => hji (congrArg Prod.fst hh)]

theorem ptrs_setAddr (i : Nat) (h : bn < ndirect) (b : Nat) :
    ptrs d (update D i ((D i).setAddr (directIx bn h) b)) = update (ptrs d D) (i, bn) b := by
  refine ptrs_congr i bn b (fun m => ?_) (fun j hj m => ?_)
  · rw [update_self, ptr_setAddr h]
  · rw [update_of_ne hj]

theorem ptrs_setIndirect (h0 : (D i).indirect = 0) (hb : d b = zero) :
    ptrs d (update D i ((D i).setAddr 12 b)) = update (ptrs d D) (i, maxfile) b := by
  refine ptrs_congr i maxfile b (fun m => ?_) (fun j hj m => ?_)
  · rw [update_self, ptr_setIndirect h0 hb]
  · rw [update_of_ne hj]

theorem ptrs_update (v : Block) (h : ∀ j, (D j).indirect = b → b = 0) : ptrs (update d b v) D = ptrs d D := by
  funext ⟨j, m⟩
  exact ptr_update v (h j) m

theorem ptrs_setSlot (h0 : (D i).indirect ≠ 0) (hu : ∀ j, (D j).indirect = (D i).indirect → j = i)
    (h1 : ndirect ≤ bn) (h2 : bn < maxfile) (hb : b < 2 ^ 32) :
    ptrs (update d (D i).indirect (putSlot (d (D i).indirect) bn b)) D = update (ptrs d D) (i, bn) b := by
  refine ptrs_congr i bn b (fun m => ptr_setSlot h0 h1 h2 hb m) (fun j hj m => ptr_update _ (fun he => ?_) m)
  exact absurd (hu j he) hj

/-! ## Bytes -/

/-- A file byte depends on one block: the same block with the same bytes, or no block before and a zeroed one now. -/
theorem byteAt_congr {x' : Dinode}
    (h : (blockOf d' x' (o / bsize) = blockOf d x (o / bsize) ∧
        (blockOf d x (o / bsize) ≠ 0 → d' (blockOf d x (o / bsize)) = d (blockOf d x (o / bsize)))) ∨
      (blockOf d x (o / bsize) = 0 ∧ d' (blockOf d' x' (o / bsize)) = zero)) :
    byteAt d' x' o = byteAt d x o := by
  unfold byteAt
  rcases h with ⟨h1, h2⟩ | ⟨h1, h2⟩
  · rw [h1]
    split
    · rfl
    · rename_i h0
      rw [h2 h0]
  · rw [h1, h2, if_pos rfl]
    exact ite_self _

theorem byteAt_beyond (h : maxfile ≤ o / bsize) : byteAt d x o = 0 := by
  unfold byteAt
  rw [blockOf_beyond h, if_pos rfl]

theorem ptrs_data (hbn : bn ≠ maxfile) : ptrs d D (i, bn) = blockOf d (D i) bn := ptr_of_ne hbn

/-- One more pointer, to a zeroed block: every file reads as before. -/
theorem byteAt_add (hp : ptrs d' D' = update (ptrs d D) (i, k) b)
    (h0 : ptrs d D (i, k) = 0) (hz : d' b = zero)
    (hd : ∀ j m, m ≠ maxfile → ptrs d D (j, m) ≠ 0 → d' (ptrs d D (j, m)) = d (ptrs d D (j, m))) (j : Nat) :
    byteAt d' (D' j) = byteAt d (D j) := by
  funext o
  by_cases hm : maxfile ≤ o / bsize
  · rw [byteAt_beyond hm, byteAt_beyond hm]
  · have hne : o / bsize ≠ maxfile := by omega
    have hpo := congrFun hp (j, o / bsize)
    rw [ptrs_data hne] at hpo
    apply byteAt_congr
    by_cases he : (j, o / bsize) = (i, k)
    · right
      rw [he, update_self] at hpo
      rw [hpo]
      rw [← he, ptrs_data hne] at h0
      exact ⟨h0, hz⟩
    · left
      rw [update_of_ne he, ptrs_data hne] at hpo
      refine ⟨hpo, fun hnz => ?_⟩
      have h := hd j (o / bsize) hne
      rw [ptrs_data hne] at h
      exact h hnz

/-! ## Files that share no block -/

section

variable {used : Nat → Bool} {lo hi : Nat} (own : Owned (ptrs d D) used lo hi)
include own

/-- Pointers and bytes depend only on the blocks of the pointers' range. -/
theorem ptrs_high (h : ∀ c, lo ≤ c → d' c = d c) : ptrs d' D = ptrs d D := by
  funext ⟨j, k⟩
  unfold ptrs ptr
  split
  · rfl
  · unfold blockOf
    split
    · rfl
    · split
      · by_cases h0 : (D j).indirect = 0
        · rw [if_pos h0, if_pos h0]
        · have hr := own.range (j, maxfile) (by rwa [ptrs_maxfile])
          rw [ptrs_maxfile] at hr
          rw [if_neg h0, if_neg h0, h _ hr.1]
      · rfl

theorem blockOf_high (h : ∀ c, lo ≤ c → d' c = d c) (j : Nat) : blockOf d' (D j) = blockOf d (D j) := by
  funext k
  by_cases hk : k = maxfile
  · rw [hk, blockOf_beyond (le_refl _), blockOf_beyond (le_refl _)]
  · have hp := congrFun (ptrs_high own h) (j, k)
    rwa [ptrs_data hk, ptrs_data hk] at hp

theorem byteAt_high (h : ∀ c, lo ≤ c → d' c = d c) (j : Nat) : byteAt d' (D j) = byteAt d (D j) := by
  funext o
  apply byteAt_congr
  left
  refine ⟨congrFun (blockOf_high own h j) _, fun h0 => h _ ?_⟩
  by_cases hk : o / bsize = maxfile
  · rw [hk, blockOf_beyond (le_refl _)] at h0
    exact absurd rfl h0
  · have hr := own.range (j, o / bsize)
    rw [ptrs_data hk] at hr
    exact (hr h0).1

/-- A data block is no file's indirect block. -/
theorem data_ne_indirect (hbn : bn ≠ maxfile) (h0 : ptrs d D (i, bn) ≠ 0) (j : Nat) :
    (D j).indirect ≠ ptrs d D (i, bn) := by
  intro he
  have h := own.inj (i, bn) (j, maxfile) h0 (he.symm.trans ptrs_maxfile.symm)
  exact hbn (congrArg Prod.snd h)

theorem indirect_inj (h0 : (D i).indirect ≠ 0) {j : Nat} (h : (D j).indirect = (D i).indirect) : j = i := by
  have he := own.inj (i, maxfile) (j, maxfile) (by rw [ptrs_maxfile]; exact h0)
    (by rw [ptrs_maxfile, ptrs_maxfile, h])
  exact (congrArg Prod.fst he).symm

/-- An unmarked block is no file's. -/
theorem unused_ne_ptrs (hb : used b = false) (hlo : 0 < b) (l : Nat × Nat) : ptrs d D l ≠ b := by
  intro he
  have h := own.marked l (by omega)
  rw [he, hb] at h
  cases h

theorem ptrs_update_unused (hb : used b = false) (hlo : 0 < b) (v : Block) : ptrs (update d b v) D = ptrs d D :=
  ptrs_update v fun j hj => absurd (ptrs_maxfile.trans hj) (unused_ne_ptrs own hb hlo (j, maxfile))

theorem byteAt_update_unused (hb : used b = false) (hlo : 0 < b) (v : Block) (j : Nat) :
    byteAt (update d b v) (D j) = byteAt d (D j) := by
  funext o
  apply byteAt_congr
  left
  by_cases hm : o / bsize = maxfile
  · rw [hm, blockOf_beyond (le_refl _), blockOf_beyond (le_refl _)]
    exact ⟨rfl, fun h => absurd rfl h⟩
  · have h1 := congrFun (ptrs_update_unused own hb hlo v) (j, o / bsize)
    have h2 := unused_ne_ptrs own hb hlo (j, o / bsize)
    unfold ptrs at h1 h2
    simp only [ptr_of_ne hm] at h1 h2
    exact ⟨h1, fun _ => update_of_ne h2 _ _⟩

/-- A slot of an indirect block filled with a zeroed block. -/
theorem byteAt_setSlot (h0 : (D i).indirect ≠ 0) (h1 : ndirect ≤ bn) (h2 : bn < maxfile)
    (hs : slot (d (D i).indirect) bn = 0) (hlt : b < 2 ^ 32) (hub : used b = false) (hpos : 0 < b) (hz : d b = zero)
    (j : Nat) :
    byteAt (update d (D i).indirect (putSlot (d (D i).indirect) bn b)) (D j) = byteAt d (D j) := by
  have hp0 : ptrs d D (i, bn) = 0 := by
    rw [ptrs_data (by omega), blockOf_indirect h1 h2, if_neg h0, hs]
  have hbi : b ≠ (D i).indirect := by
    intro he
    exact unused_ne_ptrs own hub hpos (i, maxfile) (ptrs_maxfile.trans he.symm)
  apply byteAt_add (ptrs_setSlot h0 (fun j hj => indirect_inj own h0 hj) h1 h2 hlt) hp0
  · rw [update_of_ne hbi, hz]
  · intro k m hm hne
    exact update_of_ne (data_ne_indirect own hm hne i).symm _ _

theorem ptrs_store (hbn : bn ≠ maxfile) (h0 : ptrs d D (i, bn) ≠ 0) (v : Block) :
    ptrs (update d (ptrs d D (i, bn)) v) D = ptrs d D :=
  ptrs_update v fun j hj => absurd hj (data_ne_indirect own hbn h0 j)

/-- Storing a file block changes the bytes of that block of that file, and no others. -/
theorem byteAt_store (hbn : bn < maxfile) (h0 : ptrs d D (i, bn) ≠ 0) (v : Block) (j o : Nat) :
    byteAt (update d (ptrs d D (i, bn)) v) (D j) o =
      if j = i ∧ o / bsize = bn then v (o % bsize) else byteAt d (D j) o := by
  have hs := congrFun (ptrs_store own (by omega) h0 v) (j, o / bsize)
  by_cases hlt : o / bsize < maxfile
  · unfold ptrs at hs
    simp only [ptr_of_ne (Nat.ne_of_lt hlt)] at hs
    unfold byteAt
    have hs' : blockOf (update d (ptrs d D (i, bn)) v) (D j) (o / bsize) = blockOf d (D j) (o / bsize) := hs
    rw [hs']
    by_cases he : j = i ∧ o / bsize = bn
    · rw [if_pos he]
      obtain ⟨rfl, rfl⟩ := he
      rw [ptrs_data (by omega)] at h0 ⊢
      rw [if_neg h0, update_self]
    · rw [if_neg he]
      split
      · rfl
      · rename_i hne
        have hd : ptrs d D (j, o / bsize) ≠ ptrs d D (i, bn) := by
          intro hh
          have h := own.inj _ _ h0 hh.symm
          exact he ⟨(congrArg Prod.fst h).symm, (congrArg Prod.snd h).symm⟩
        rw [ptrs_data (Nat.ne_of_lt hlt)] at hd
        rw [update_of_ne hd]
  · rw [if_neg (by omega), byteAt_beyond (by omega), byteAt_beyond (by omega)]

end

end Xv6.Fs
