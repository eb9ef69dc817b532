/-
  Xv6.Fs.Content — reading and writing an inode's bytes.

  `bmap` may give a file a new block, but a new block is zeroed and a missing one reads as
  zeros, so no abstract inode changes. `readi` and `writei` are then a slice and a `putBytes`
  of the abstract inode's bytes.

  Proved: `bmap_wp`, `readi_wp`, `writei_wp`.
-/

import Xv6.Fs.Coherent

namespace Xv6.Fs

open Xv6.Lib

variable {sb : Superblock} {t : Prop} {W : Nat → Prop} {s s' : St}

/-! ## One more block -/

variable {d d' d1 : Disk} {x y : Dinode} {b i k bn off n : Nat} {s1 : St} {dst : CopyOut} {l : List UInt8}
  {src : CopyIn}

theorem nodeOf_congr (hcore : y.core = x.core) (hb : byteAt d' y = byteAt d x) :
    nodeOf d' y = nodeOf d x := by
  unfold nodeOf
  have h := congrArg (fun z : Dinode => (z.type, z.major, z.minor, z.nlink, z.size)) hcore
  simp only [Dinode.core, Prod.mk.injEq] at h
  obtain ⟨h1, h2, h3, h4, h5⟩ := h
  rw [h1, h2, h3, h4, h5, hb]

theorem core_size (h : x.core = y.core) : x.size = y.size := by
  have hs : x.core.size = y.core.size := by rw [h]
  exact hs

theorem core_type (h : x.core = y.core) : x.type = y.type := by
  have hs : x.core.type = y.core.type := by rw [h]
  exact hs

theorem Took.pos (h : Took sb d b d') : b ≠ 0 := by
  have := Nat.lt_of_lt_of_le dataStart_pos h.lo
  omega

/-- Block `m` of the file of inode `i`, by the copy in memory. -/
abbrev St.block (s : St) (i m : Nat) : Nat := blockOf s.disk (s.itab i).din m

variable (sb) in
/-- Every inode is the same, and inode `i` has the blocks it had. -/
structure Kept (s : St) (i : Nat) (s' : St) : Prop extends Same sb s s' where
  blocks : ∀ m, s.block i m ≠ 0 → s'.block i m ≠ 0

theorem Kept.refl (s : St) (i : Nat) : Kept sb s i s := ⟨Same.refl s, fun _ h => h⟩

theorem Kept.trans {s2 : St} (h1 : Kept sb s i s1) (h2 : Kept sb s1 i s2) : Kept sb s i s2 :=
  ⟨h1.toSame.trans h2.toSame, fun m h => h2.blocks m (h1.blocks m h)⟩

/-- Block `c` holds what it held, and is logged if it was. -/
def Untouched (s s' : St) (c : Nat) : Prop := (c ∈ s'.lh ↔ c ∈ s.lh) ∧ s'.disk c = s.disk c

/-- Every block of inode `i` other than its `k`-th is where it was; past the last there is none. -/
def SameBlocks (s : St) (i k : Nat) (s' : St) : Prop :=
  ∀ m, m ≠ k ∨ m = maxfile → s'.block i m = s.block i m

/-- The pointer at `(i, k)` is set to a block that was taken: what the files' owner sees. -/
theorem Good.grow {D : Nat → Dinode} (h : Good sb t d D)
    (hk : Took sb d b d1) (hused : used sb d' = used sb d1)
    (hp : ptrs d' (update D i x) = update (ptrs d D) (i, k) b) (h0 : ptrs d D (i, k) = 0) (hf : x.Fits)
    (hcore : x.core = (D i).core) : Good sb t d' (update D i x) := by
  have hu : used sb d' = update (used sb d) b true := hused.trans hk.used
  have hsize : ∀ j, (update D i x j).size = (D j).size :=
    forall_update (P := fun j (y : Dinode) => y.size = (D j).size) (core_size hcore) fun _ _ => rfl
  refine ⟨?_, ?_, ?_, update_fits h.fits hf, fun j => hsize j ▸ h.size j, ?_⟩
  · rw [hp, hu]
    exact h.own.alloc hk.free hk.lo hk.hi
  · intro c hc
    have := hk.lo
    rw [hu, update_of_ne (by omega)]
    exact h.low c hc
  · intro ht
    rw [hp, hu]
    exact (h.leak ht).alloc h0 dataStart_pos
  · intro ht j bn hbn
    rw [hsize] at hbn
    have hm : bn ≠ maxfile := by
      rintro rfl
      have := h.size j
      omega
    have hpo := congrFun hp (j, bn)
    rw [ptrs_data hm] at hpo
    rw [hpo]
    by_cases he : (j, bn) = (i, k)
    · rw [he, update_self]; exact hk.pos
    · rw [update_of_ne he, ptrs_data hm]
      exact h.hole ht j bn hbn

/-- The same for the state: `x` is the inode's copy in memory with its new pointer. -/
theorem Inv.grow (h : Inv sb t W s) (hc : s.cached i) (hW : t → W i)
    (hk : Took sb s.disk b d1) (htab : Tab s s') (hit : s'.itab = (s.setDin i x).itab)
    (hused : used sb s'.disk = used sb d1)
    (hinode : ∀ j, j < sb.ninodes → dinodeAt sb s'.disk j = dinodeAt sb s.disk j)
    (hp : ptrs s'.disk (update (inodes sb s) i x) = update (ptrs s.disk (inodes sb s)) (i, k) b)
    (h0 : ptrs s.disk (inodes sb s) (i, k) = 0) (hz : s'.disk b = zero)
    (hd : ∀ j m, m ≠ maxfile → ptrs s.disk (inodes sb s) (j, m) ≠ 0 →
      s'.disk (ptrs s.disk (inodes sb s) (j, m)) = s.disk (ptrs s.disk (inodes sb s) (j, m)))
    (hold : byteAt s'.disk (s.itab i).din = byteAt s.disk (s.itab i).din)
    (hf : x.Fits) (hcore : x.core = (s.itab i).din.core)
    (hadd : ∀ k, (s.itab i).din.addrs k = 0 ∨ x.addrs k = (s.itab i).din.addrs k) :
    Inv sb t W s' ∧ Kept sb s i s' ∧ SameBlocks s i k s' := by
  have hci : inodes sb s i = (s.itab i).din := inodes_cached hc
  have hin : inodes sb s' = update (inodes sb s) i x := by
    rw [← inodes_setDin hc x]
    refine inodes_congr ⟨htab.refs.trans (setDin_tab i x).refs.symm,
      fun j => (htab.cached j).trans ((setDin_tab i x).cached j).symm, htab.outstanding,
      htab.locks.trans (setDin_tab i x).locks.symm⟩ (fun j _ => by rw [hit])
      fun j _ hj => hinode j hj
  have hbytes : ∀ j, byteAt s'.disk (update (inodes sb s) i x j) = byteAt s.disk (inodes sb s j) :=
    byteAt_add hp h0 hz hd
  have hsame : SameBlocks s i k s' := by
    intro m hm
    by_cases hmax : m = maxfile
    · exact (blockOf_beyond hmax.ge).trans (blockOf_beyond hmax.ge).symm
    · have hpo := congrFun hp (i, m)
      rw [update_of_ne fun he => hm.resolve_right hmax (congrArg Prod.snd he), ptrs_data hmax, ptrs_data hmax, update_self,
        hci] at hpo
      rw [St.block, hit, setDin_self, hpo]
  refine ⟨⟨?_, ?_, ?_, ?_⟩, ⟨⟨htab, ?_⟩, fun m hm => ?_⟩, hsame⟩
  · rw [hin]
    exact h.good.grow hk hused hp h0 hf (by rw [hci]; exact hcore)
  · exact fun j hj => h.range j ((htab.cached j).mp hj)
  · intro j hj
    have hj' := (htab.cached j).mp hj
    rw [hit, setDin_itab]
    split
    · rename_i he
      subst he
      rw [core_type hcore]
      exact h.alive j hj'
    · exact h.alive j hj'
  · intro j hw hcj
    have hj' := (htab.cached j).mp hcj
    rw [hinode j (h.range j hj'), hit, setDin_itab]
    have hbj := hbytes j
    split
    · rename_i he
      subst he
      rw [update_self, hci] at hbj
      exact (h.sync j hw hj').step hcore hadd hold hbj fun ht => absurd (hW ht) hw
    · rename_i he
      rw [update_of_ne he, inodes_cached hj'] at hbj
      exact (h.sync j hw hj').disk hbj
  · funext j
    unfold node
    rw [hin]
    refine nodeOf_congr ?_ (hbytes j)
    exact forall_update (P := fun j (y : Dinode) => y.core = (inodes sb s j).core) (hci ▸ hcore) (fun _ _ => rfl) j
  · -- the new block's place had none
    have hne : m ≠ maxfile := fun he => hm (he ▸ blockOf_beyond le_rfl)
    rwa [hsame m (.inl fun he => hm ?_)]
    rw [St.block, ← hci, ← ptrs_data hne, he, h0]

/-! ## bmap -/

theorem Inv.meta_used (h : Inv sb t W s) (c : Nat) (hc : c < sb.dataStart) : usedAt sb s.disk c = true :=
  usedAt_of_used (h.good.low c hc)

theorem Took.lt (h : Took sb d b d') : b < 2 ^ 32 := by
  have := h.hi
  have := sb.size_lt
  omega

/-- A block that was taken is stored in `addrs[m]` of the copy in memory, where there was none. -/
theorem Inv.grow_addr {m : Fin 13} (h : Inv sb t W s) (hc : s.cached i) (hW : t → W i)
    (hk : Took sb s.disk b s'.disk) (htab : SameTab s s') (h0 : (s.itab i).din.addrs m = 0)
    (hp0 : ptrs s.disk (inodes sb s) (i, k) = 0)
    (hp : ptrs s'.disk (update (inodes sb s) i ((s.itab i).din.setAddr m b)) =
      update (ptrs s'.disk (inodes sb s)) (i, k) b) :
    Inv sb t W (s'.setDin i ((s'.itab i).din.setAddr m b)) ∧
      Kept sb s i (s'.setDin i ((s'.itab i).din.setAddr m b)) ∧ SameBlocks s i k (s'.setDin i ((s'.itab i).din.setAddr m b)) := by
  have hdin : s'.itab i = s.itab i := by rw [htab.itab]
  have hci : inodes sb s i = (s.itab i).din := inodes_cached hc
  have hold := byteAt_took hk h.good.own i
  rw [hci] at hold
  refine h.grow (k := k) (b := b) hc hW hk ?_ ?_ rfl hk.inode ?_ hp0 hk.zero ?_ hold
    (setAddr_fits (h.fits hc) hk.lt m) rfl ?_
  · exact htab.tab.trans (setDin_tab _ _)
  · rw [hdin]
    funext j
    rw [setDin_itab, setDin_itab, htab.itab]
  · rw [ptrs_took hk h.good.own] at hp
    exact hp
  · intro j n _ hne
    exact hk.high _ (h.good.own.range _ hne).1 fun he => unused_ne_ptrs h.good.own hk.free (Nat.pos_of_ne_zero hk.pos) _ he
  · intro n
    by_cases hn : n = m
    · left; rw [hn, h0]
    · right; exact update_of_ne hn _ _

/-- A block that was taken is stored in an empty slot of the indirect block. -/
theorem Inv.indirect_data (h : Inv sb t W s) (hc : s.cached i) (hne : (s.itab i).din.indirect ≠ 0) :
    sb.dataStart ≤ (s.itab i).din.indirect := by
  have hr := h.good.own.range (i, maxfile)
  rw [ptrs_maxfile, inodes_cached hc] at hr
  exact (hr hne).1

theorem Inv.grow_slot (h : Inv sb t W s) (hc : s.cached i) (hW : t → W i)
    (h1 : ndirect ≤ bn) (h2 : bn < maxfile) (hne : (s.itab i).din.indirect ≠ 0)
    (hs : slot (s.disk (s.itab i).din.indirect) bn = 0) (hk : Took sb s.disk b s1.disk) (htab1 : SameTab s s1)
    (htab : SameTab s1 s')
    (hd : s'.disk = update s1.disk (s.itab i).din.indirect (putSlot (s1.disk (s.itab i).din.indirect) bn b)) :
    Inv sb t W s' ∧ Kept sb s i s' ∧ SameBlocks s i bn s' ∧ b = s'.block i bn := by
  have hci : inodes sb s i = (s.itab i).din := inodes_cached hc
  have hself : update (inodes sb s) i (s.itab i).din = inodes sb s := by rw [← hci, update_eq_self]
  have own1 : Owned (ptrs s1.disk (inodes sb s)) (used sb s.disk) sb.dataStart sb.size := by
    rw [ptrs_took hk h.good.own]; exact h.good.own
  have hlo := h.indirect_data hc hne
  have hbi : b ≠ (s.itab i).din.indirect := by
    intro he
    refine unused_ne_ptrs h.good.own hk.free (Nat.pos_of_ne_zero hk.pos) (i, maxfile) ?_
    rw [ptrs_maxfile, hci, he]
  have hp : ptrs s'.disk (inodes sb s) = update (ptrs s.disk (inodes sb s)) (i, bn) b := by
    have hps := ptrs_setSlot (d := s1.disk) (D := inodes sb s) (i := i) (by rw [hci]; exact hne)
      (fun j hj => indirect_inj own1 (by rw [hci]; exact hne) hj) h1 h2 hk.lt
    rw [hci, ptrs_took hk h.good.own] at hps
    rw [hd, hps]
  have hp0 : ptrs s.disk (inodes sb s) (i, bn) = 0 := by
    rw [ptrs_data (by omega), hci, blockOf_indirect h1 h2, if_neg hne, hs]
  have hz : s'.disk b = zero := by rw [hd, update_of_ne hbi, hk.zero]
  have hdata : ∀ j m, m ≠ maxfile → ptrs s.disk (inodes sb s) (j, m) ≠ 0 →
      s'.disk (ptrs s.disk (inodes sb s) (j, m)) = s.disk (ptrs s.disk (inodes sb s) (j, m)) := by
    intro j m hm hjm
    have hi := data_ne_indirect h.good.own hm hjm i
    rw [hci] at hi
    rw [hd, update_of_ne hi.symm]
    exact hk.high _ (h.good.own.range _ hjm).1
      (unused_ne_ptrs h.good.own hk.free (Nat.pos_of_ne_zero hk.pos) _)
  have hold := byteAt_add hp hp0 hz hdata i
  rw [hci] at hold
  have hitab : s'.itab = s.itab := htab.itab.trans htab1.itab
  obtain ⟨hinv, hkept, hsame⟩ : Inv sb t W s' ∧ Kept sb s i s' ∧ SameBlocks s i bn s' := by
    refine h.grow (x := (s.itab i).din) hc hW hk (htab1.trans htab).tab ?_ ?_ ?_ (by rw [hself]; exact hp) hp0 hz
      hdata hold (h.fits hc) rfl fun _ => Or.inr rfl
    · funext j
      rw [setDin_itab, hitab]
      split
      · rename_i he; rw [he]
      · rfl
    · rw [hd, used_update _ hlo]
    · intro j hj
      have := bmapstart_lt_dataStart sb
      rw [hd, dinodeAt_high _ (by omega) hj, hk.inode j hj]
  refine ⟨hinv, hkept, hsame, ?_⟩
  have hpb := congrFun hp (i, bn)
  rw [update_self, ptrs_data (by omega), hci] at hpb
  rw [St.block, hitab, hpb]

/-- `bmap` of block `bn` of inode `i` has returned `r`: no other block of the file has moved,
changed or been logged, and a new block has been logged. -/
structure Elsewhere (s : St) (i bn r : Nat) (s' : St) : Prop where
  same : ∀ m, m ≠ bn → s'.block i m = s.block i m
  held : ∀ m, m ≠ bn → s.block i m ≠ 0 → Untouched s s' (s.block i m)
  fresh : s.block i bn = 0 → r ≠ 0 → r ∈ s'.lh

theorem Elsewhere.refl {r : Nat} (h : s.block i bn ≠ 0 ∨ r = 0) : Elsewhere s i bn r s where
  same _ _ := rfl
  held _ _ _ := ⟨Iff.rfl, rfl⟩
  fresh h0 hr := (h.elim (fun hne => hne h0) hr).elim

/-- A block of inode `i` is a marked data block. -/
theorem Inv.block (h : Inv sb t W s) (hc : s.cached i) {m : Nat} (hm : s.block i m ≠ 0) :
    m ≠ maxfile ∧ ptrs s.disk (inodes sb s) (i, m) = s.block i m ∧
      sb.dataStart ≤ s.block i m ∧ used sb s.disk (s.block i m) = true := by
  have hne : m ≠ maxfile := fun he => hm (he ▸ blockOf_beyond le_rfl)
  have hptr : ptrs s.disk (inodes sb s) (i, m) = s.block i m := by
    rw [ptrs_data hne, inodes_cached hc]
  have hp : ptrs s.disk (inodes sb s) (i, m) ≠ 0 := by rwa [hptr]
  have hr := h.good.own.range _ hp
  have hu := h.good.own.marked _ hp
  rw [hptr] at hr hu
  exact ⟨hne, hptr, hr.1, hu⟩

/-- The blocks that inode `i` has when `balloc` takes another. -/
theorem Inv.held_took (h : Inv sb t W s) (hc : s.cached i) {r : Nat} (hk : Taken sb s r s1) {m : Nat}
    (hm : s.block i m ≠ 0) : Untouched s s1 (s.block i m) := by
  obtain ⟨-, hptr, hlo, hu⟩ := h.block hc hm
  have hne : s.block i m ≠ r := by
    rw [← hptr]
    exact unused_ne_ptrs h.good.own hk.took.free (Nat.pos_of_ne_zero hk.took.pos) _
  exact ⟨hk.log _ hlo hu, hk.took.high _ hlo hne⟩

/-- How many blocks `bmap` has to take for block `bn` of the file of inode `x`. -/
def newBlocks (d : Disk) (x : Dinode) (bn : Nat) : Nat :=
  if blockOf d x bn ≠ 0 then 0 else if ndirect ≤ bn ∧ x.indirect = 0 then 2 else 1

/-- `bmap` takes `m` blocks, or returns 0 for want of them. -/
def Spent (sb : Superblock) (d : Disk) (m r : Nat) (d' : Disk) : Prop :=
  if r = 0 then freeBlocks sb d < m else freeBlocks sb d = freeBlocks sb d' + m

theorem newBlocks_mapped (h : blockOf d x bn ≠ 0) : newBlocks d x bn = 0 := if_pos h

theorem newBlocks_pos (h : blockOf d x bn = 0) : 0 < newBlocks d x bn := by
  rw [newBlocks, if_neg (not_not.mpr h)]
  split <;> decide

/-- One block, for a file that has the indirect block or needs none. -/
theorem newBlocks_one (h : blockOf d x bn = 0) (hind : bn < ndirect ∨ x.indirect ≠ 0) : newBlocks d x bn = 1 := by
  rw [newBlocks, if_neg (not_not.mpr h), if_neg (by omega)]

theorem newBlocks_two (h : blockOf d x bn = 0) (hbn : ndirect ≤ bn) (hind : x.indirect = 0) : newBlocks d x bn = 2 := by
  rw [newBlocks, if_neg (not_not.mpr h), if_pos ⟨hbn, hind⟩]

theorem Laid.newBlocks (h : Laid sb s s') (i bn : Nat) :
    newBlocks s'.disk (inodes sb s' i) bn = newBlocks s.disk (inodes sb s i) bn := by
  have hind := congrFun h.ptrs (i, maxfile)
  have hblk : blockOf s'.disk (inodes sb s' i) bn = blockOf s.disk (inodes sb s i) bn := by
    by_cases hbn : bn = maxfile
    · rw [hbn, blockOf_beyond le_rfl, blockOf_beyond le_rfl]
    · rw [← ptrs_data hbn, ← ptrs_data hbn, h.ptrs]
  rw [ptrs_maxfile, ptrs_maxfile] at hind
  rw [Fs.newBlocks, Fs.newBlocks, hblk, hind]

theorem Spent.refl (d : Disk) (hr : k ≠ 0) : Spent sb d 0 k d := by
  rw [Spent, if_neg hr, Nat.add_zero]

/-- And no more is to be had. -/
theorem Spent.full {m r : Nat} (h : Spent sb d (m - 1) r d1) (hm : 0 < m) (hfull : r ≠ 0 → Full sb d1) : Spent sb d m 0 d' := by
  rw [Spent, if_pos rfl]
  rw [Spent] at h
  split at h
  · omega
  · rw [(hfull ‹_›).freeBlocks] at h
    omega

/-- And one more. -/
theorem Spent.took {m r : Nat} {d2 : Disk} (h : Spent sb d (m - 1) r d1) (hm : 0 < m) (hr : r ≠ 0) (hk : Took sb d1 b d2)
    (hu : used sb d' = used sb d2) : Spent sb d m b d' := by
  rw [Spent, if_neg hk.pos, freeBlocks_congr hu]
  rw [Spent, if_neg hr, hk.freeBlocks] at h
  omega

/-- What `bmap` of block `bn` of inode `i` has done when it returns `r`. -/
structure Bmapped (sb : Superblock) (t : Prop) (W : Nat → Prop) (s : St) (i bn r : Nat) (s' : St) : Prop where
  inv : Inv sb t W s'
  kept : Kept sb s i s'
  addr : r = 0 ∨ r = s'.block i bn
  found : s.block i bn ≠ 0 → r = s.block i bn ∧ s' = s
  full : r = 0 → Full sb s'.disk
  journaled : Journaled s s'
  elsewhere : Elsewhere s i bn r s'
  cost : Spent sb s.disk (newBlocks s.disk (s.itab i).din bn) r s'.disk

variable {E : Stop → Prop} (hE : Tolerant E)
include hE

/-- `addr = balloc(dev)`, stored in the empty entry `m` of the inode, which makes it the file's `k`-th block. -/
theorem balloc_addr_wp {m : Fin 13} (h : Inv sb t W s) (hc : s.cached i) (hW : t → W i)
    (ht : 0 < s.outstanding ∨ E .outsideTrans) (h0 : (s.itab i).din.addrs m = 0) (hp0 : ptrs s.disk (inodes sb s) (i, k) = 0)
    (hp : ∀ b d, Took sb s.disk b d → ptrs d (update (inodes sb s) i ((inodes sb s i).setAddr m b)) =
      update (ptrs d (inodes sb s)) (i, k) b) :
    wp E (do
      let addr ← balloc sb
      if addr = 0 then pure 0
      else do
        modify fun s => s.setDin i ((s.itab i).din.setAddr m addr)
        pure addr) (fun r s' => Inv sb t W s' ∧ Kept sb s i s' ∧ (r = 0 ∨ r = (s'.itab i).din.addrs m) ∧
          (r = 0 → Full sb s'.disk) ∧
          Journaled s s' ∧ SameBlocks s i k s' ∧ (∀ n, s.block i n ≠ 0 →
            Untouched s s' (s.block i n)) ∧ (r ≠ 0 → r ∈ s'.lh) ∧ Spent sb s.disk 1 r s'.disk) s := by
  have hnone : Spent sb s.disk (1 - 1) 1 s.disk := .refl _ Nat.one_ne_zero
  apply wp_seq (balloc_wp hE ht h.meta_used)
  rintro b s1 (⟨hb, hs, hfull⟩ | hk)
  · rw [if_pos hb, hs]
    exact ⟨h, Kept.refl s i, .inl rfl, fun _ => hfull, .refl s, fun _ _ => rfl, fun _ _ => ⟨Iff.rfl, rfl⟩,
      fun hne => absurd rfl hne,
      hnone.full Nat.one_pos fun _ => hfull⟩
  · rw [if_neg hk.took.pos, wp_modify_bind]
    obtain ⟨h1, hkept, hsame⟩ := h.grow_addr hc hW hk.took hk.tab h0 hp0 (by rw [← inodes_cached hc]; exact hp b _ hk.took)
    refine ⟨h1, hkept, .inr ?_, fun h0 => absurd h0 hk.took.pos, ⟨hk.journaled.lh, hk.journaled.disk⟩, hsame,
      fun n hn => h.held_took hc hk hn, fun _ => hk.fresh, hnone.took Nat.one_pos Nat.one_ne_zero hk.took rfl⟩
    rw [setDin_self]
    exact (update_self _ _ _).symm

section

variable (h : Inv sb t W s) (hc : s.cached i) (hm : t → W i ∨ s.block i bn ≠ 0)
  (ht : s.block i bn ≠ 0 ∨ 0 < s.outstanding ∨ E .outsideTrans)
include h hc hm ht

theorem bmap_direct_wp (hbn : bn < ndirect) : wp E (bmap sb i bn) (Bmapped sb t W s i bn) s := by
  have hblk : s.block i bn = (s.itab i).din.addrs (directIx bn hbn) := blockOf_direct hbn
  unfold bmap
  rw [wp_get_bind]
  dsimp only
  rw [dif_pos hbn]
  split
  · rename_i h0
    have hb0 : s.block i bn = 0 := hblk.trans h0
    have hn : bn ≠ maxfile := by
      have : ndirect ≤ maxfile := by decide
      omega
    refine wp_mono (balloc_addr_wp hE h hc (k := bn) (fun htt => (hm htt).resolve_right fun hne => hne hb0)
      (ht.resolve_left fun hne => hne hb0) h0 (by rw [ptrs_data hn, inodes_cached hc]; exact hb0)
      fun b d _ => ptrs_setAddr i hbn b) ?_
    rintro r s1 ⟨h1, hkept, haddr, hfull, hjour, hsame, hheld, hfresh, hcost⟩
    refine ⟨h1, hkept, ?_, fun hne => absurd hb0 hne, hfull, hjour,
      ⟨fun m hm => hsame m (.inl hm), fun m _ hm => hheld m hm, fun _ => hfresh⟩, ?_⟩
    · rwa [St.block, blockOf_direct hbn]
    · rwa [newBlocks_one hb0 (.inl hbn)]
  · rename_i hne
    rw [← hblk] at hne
    refine ⟨h, Kept.refl s i, Or.inr hblk.symm, fun _ => ⟨hblk.symm, rfl⟩, fun h0 => absurd (hblk.trans h0) hne, .refl s,
      .refl (.inl hne), ?_⟩
    rw [newBlocks_mapped hne]
    exact .refl _ (hblk ▸ hne)

theorem bmap_indirect_wp (hbn1 : ndirect ≤ bn) (hbn2 : bn < maxfile) : wp E (bmap sb i bn) (Bmapped sb t W s i bn) s := by
  have hblk : s.block i bn = _ := blockOf_indirect hbn1 hbn2
  unfold bmap
  rw [wp_get_bind]
  dsimp only
  rw [dif_neg (by omega), if_pos hbn2]
  -- the indirect block: the one there is, a new one, or none
  apply wp_seq (Q := fun ind s1 => Inv sb t W s1 ∧ Kept sb s i s1 ∧ (ind = 0 ∨ ind = (s1.itab i).din.indirect) ∧
    ((s.itab i).din.indirect ≠ 0 → ind = (s.itab i).din.indirect ∧ s1 = s) ∧ (ind = 0 → Full sb s1.disk) ∧ Journaled s s1 ∧
    (∀ m, s1.block i m = s.block i m) ∧
    (∀ m, s.block i m ≠ 0 → Untouched s s1 (s.block i m)) ∧
    (s.block i bn = 0 → Spent sb s.disk (newBlocks s.disk (s.itab i).din bn - 1) ind s1.disk))
  · split
    · rename_i h0
      have hb0 : s.block i bn = 0 := by rw [hblk, if_pos h0]
      refine wp_mono (balloc_addr_wp hE h hc (k := maxfile) (fun htt => (hm htt).resolve_right fun hne => hne hb0)
        (ht.resolve_left fun hne => hne hb0) h0 (by rw [ptrs_maxfile, inodes_cached hc]; exact h0)
        fun b d hk => ptrs_setIndirect (by rw [inodes_cached hc]; exact h0) hk.zero) ?_
      rintro r s1 ⟨h1, hkept, haddr, hfull, hjour, hsame, hheld, -, hcost⟩
      refine ⟨h1, hkept, haddr, fun hne => absurd h0 hne, hfull, hjour, fun m => hsame m (ne_or_eq m _), hheld, fun _ => ?_⟩
      rwa [newBlocks_two hb0 hbn1 h0]
    · rename_i hi
      refine ⟨h, Kept.refl s i, Or.inr rfl, fun _ => ⟨rfl, rfl⟩, fun h0 => absurd h0 hi, .refl s, fun _ => rfl,
        fun _ _ => ⟨Iff.rfl, rfl⟩, fun hb0 => ?_⟩
      rw [newBlocks_one hb0 (.inr hi)]
      exact .refl _ hi
  · rintro ind s1 ⟨h1, hsame, hind, hsome, hfull, hjour, hblocks, hheld, hcost⟩
    have hc1 := (hsame.cached i).mpr hc
    have helse : ∀ r, (s.block i bn = 0 → r = 0) → Elsewhere s i bn r s1 := fun r hr =>
      ⟨fun m _ => hblocks m, fun m _ hm => hheld m hm, fun h0 hne => absurd (hr h0) hne⟩
    split
    · rename_i h0
      have hb0 : s.block i bn = 0 := by
        by_contra hne
        by_cases hi : (s.itab i).din.indirect = 0
        · rw [hblk, if_pos hi] at hne
          exact absurd rfl hne
        · exact absurd ((hsome hi).1.symm.trans h0) hi
      exact ⟨h1, hsame, Or.inl rfl, fun hne => absurd hb0 hne, fun _ => hfull h0, hjour, helse 0 fun _ => rfl,
        (hcost hb0).full (newBlocks_pos hb0) fun hne => absurd h0 hne⟩
    · rename_i h0
      have hind' := hind.resolve_left h0
      rw [wp_get_bind]
      have hblk1 : s1.block i bn = slot (s1.disk ind) bn := by
        rw [St.block, blockOf_indirect hbn1 hbn2, if_neg (hind' ▸ h0), hind']
      split
      · rename_i hs0
        have hb0 : s.block i bn = 0 := by rw [← hblocks, hblk1, hs0]
        apply wp_seq (balloc_wp hE (by rw [hsame.outstanding]; exact ht.resolve_left fun hne => hne hb0) h1.meta_used)
        intro b s2 hs2
        rcases hs2 with ⟨hb, hs, hfull2⟩ | hk
        · rw [if_pos hb, hs]
          exact ⟨h1, hsame, Or.inl rfl, fun hne => absurd hb0 hne, fun _ => hfull2, hjour, helse 0 fun _ => rfl,
            (hcost hb0).full (newBlocks_pos hb0) fun _ => hfull2⟩
        · rw [if_neg hk.took.pos, wp_get_bind]
          apply wp_seq (store_wp hE (by
            rw [hk.tab.outstanding, hsame.outstanding]; exact ht.resolve_left fun hne => hne hb0))
          rintro _ s3 ⟨hd3, ht3, hlog3⟩
          obtain ⟨h3, hsame3, hblocks3, hb3⟩ := h1.grow_slot hc1 (fun htt => (hm htt).resolve_right fun hne => hne hb0)
            hbn1 hbn2 (hind' ▸ h0) (hind' ▸ hs0) hk.took hk.tab ht3 (hind' ▸ hd3)
          refine ⟨h3, hsame.trans hsame3, Or.inr hb3, fun hne => absurd hb0 hne, fun h0 => absurd h0 hk.took.pos,
            (hjour.trans hk.journaled).trans (.store hd3 hlog3), ⟨fun m hm => (hblocks3 m (.inl hm)).trans (hblocks m),
            fun m _ hm => ?_, fun _ _ => (hlog3 b).mpr (.inr hk.fresh)⟩,
            (hcost hb0).took (newBlocks_pos hb0) h0 hk.took ?_⟩
          swap
          · rw [hd3, hind', used_update _ (h1.indirect_data hc1 (hind' ▸ h0))]
          -- a data block is not the indirect block
          have hm1 : s1.block i m ≠ 0 := by rwa [hblocks]
          obtain ⟨hmax, hptr, -, -⟩ := h1.block hc1 hm1
          have hne := data_ne_indirect h1.good.own hmax (by rwa [hptr]) i
          rw [inodes_cached hc1, hptr, ← hind', hblocks] at hne
          obtain ⟨hlog2, hdisk2⟩ := h1.held_took hc1 hk hm1
          rw [hblocks] at hlog2 hdisk2
          obtain ⟨hlog1, hdisk1⟩ := hheld m hm
          refine ⟨?_, by rw [hd3, update_of_ne hne.symm, hdisk2, hdisk1]⟩
          rw [hlog3, hlog2, hlog1]
          simp [hne.symm]
      · rename_i hs0
        have hne : s.block i bn ≠ 0 := by rwa [← hblocks, hblk1]
        have hi : (s.itab i).din.indirect ≠ 0 := by
          intro hi
          rw [hblk, if_pos hi] at hne
          exact hne rfl
        obtain ⟨-, hs⟩ := hsome hi
        subst hs
        refine ⟨h1, hsame, Or.inr hblk1.symm, fun _ => ⟨hblk1.symm, rfl⟩, fun h0 => absurd h0 hs0, hjour,
          helse _ fun h0 => absurd h0 hne, ?_⟩
        rw [newBlocks_mapped hne]
        exact .refl _ hs0

/-- `bmap` finds the file's block, or adds a zeroed one: no abstract inode changes. -/
theorem bmap_wp : wp E (bmap sb i bn) (Bmapped sb t W s i bn) s := by
  by_cases h1 : bn < ndirect
  · exact bmap_direct_wp hE h hc hm ht h1
  · by_cases h2 : bn < maxfile
    · exact bmap_indirect_wp hE h hc hm ht (by omega) h2
    · unfold bmap
      rw [wp_get_bind]
      dsimp only
      rw [dif_neg h1, if_neg h2]
      exact hE.rest _ (by decide) (by decide) (by decide)

end

/-! ## readi -/

omit hE in
theorem Inv.size_le (h : Inv sb t W s) (i : Nat) : (node sb s i).size ≤ maxfile * bsize := h.good.size i

omit hE in
theorem same_block {q j : Nat} (h : q % bsize + j < bsize) : (q + j) / bsize = q / bsize ∧ (q + j) % bsize = q % bsize + j := by
  unfold bsize at *
  omega

omit hE in
theorem byteAt_block {j : Nat} (hne : blockOf d x (off / bsize) ≠ 0)
    (hj : off % bsize + j < bsize) : byteAt d x (off + j) = d (blockOf d x (off / bsize)) (off % bsize + j) := by
  obtain ⟨hdiv, hmod⟩ := same_block hj
  unfold byteAt
  rw [hdiv, hmod, if_neg hne]

omit hE in
/-- The piece of one round: not empty, and in one block. -/
theorem piece_bounds {tot : Nat} (off : Nat) (hlt : tot < n) : 0 < min (n - tot) (bsize - off % bsize) ∧
    min (n - tot) (bsize - off % bsize) ≤ n - tot ∧ off % bsize + min (n - tot) (bsize - off % bsize) ≤ bsize := by
  have hmod : off % bsize < bsize := Nat.mod_lt _ (by decide)
  omega

theorem readLoop_wp (fuel : Nat) : ∀ (tot off : Nat) (acc : List UInt8) (s : St),
    Inv sb t W s → s.cached i → off + (n - tot) ≤ (node sb s i).size → (t ∨ 0 < s.outstanding ∨ E .outsideTrans) →
    wp E (readLoop sb i n dst fuel tot off acc) (fun r s' => Inv sb t W s' ∧ Same sb s s' ∧ (t → s' = s) ∧
      (∃ m, m ≤ n - tot ∧ r.1 = acc ++ slice (node sb s i).data off m ∧
        (t → (∀ p m, dst p m = true) → n - tot ≤ fuel → m = n - tot)) ∧ ((∀ p m, dst p m = true) → r.2 = true)) s := by
  induction fuel with
  | zero =>
    intro tot off acc s h _ _ _
    exact ⟨h, Same.refl s, fun _ => rfl, ⟨0, Nat.zero_le _, (List.append_nil _).symm, fun _ _ hf => by omega⟩,
      fun _ => rfl⟩
  | succ fuel ih =>
    intro tot off acc s h hc hsize hmode
    unfold readLoop
    split
    · rename_i hlt
      -- without holes the block is there
      have hmapped : t → s.block i (off / bsize) ≠ 0 := by
        intro htt
        have := Nat.div_mul_le_self off bsize
        rw [node_size sb hc] at hsize
        exact h.mapped hc htt (by omega)
      apply wp_seq (bmap_wp hE h hc (fun htt => Or.inr (hmapped htt)) (hmode.imp_left hmapped))
      rintro addr s1 ⟨h1, hkept, haddr, hsome, -⟩
      have hsame := hkept.toSame
      have hkeep : t → s1 = s := fun htt => (hsome (hmapped htt)).2
      have hc1 := (hsame.cached i).mpr hc
      split
      · rename_i h0
        refine ⟨h1, hsame, hkeep, ⟨0, Nat.zero_le _, (List.append_nil _).symm, fun htt _ _ => ?_⟩, fun _ => rfl⟩
        exact absurd ((hsome (hmapped htt)).1.symm.trans h0) (hmapped htt)
      · rename_i hne
        obtain rfl := haddr.resolve_left hne
        rw [wp_get_bind]
        dsimp only
        obtain ⟨hpos, hm, hm'⟩ := piece_bounds off hlt
        generalize min (n - tot) (bsize - off % bsize) = m at hm hm' hpos
        have hpiece : ((List.range m).map fun j => s1.disk (s1.block i (off / bsize)) (off % bsize + j)) = slice
          (node sb s i).data off m := by
          unfold slice
          apply List.map_congr_left
          intro j hj
          have hj' := List.mem_range.mp hj
          rw [← congrFun hsame.node i, node_cached hc1]
          change _ = byteAt s1.disk (s1.itab i).din (off + j)
          exact (byteAt_block hne (by omega)).symm
        split
        · refine wp_mono (ih (tot + m) (off + m) _ s1 h1 hc1 ?_ ?_) ?_
          · rw [hsame.node]; omega
          · rw [hsame.outstanding]; exact hmode
          · rintro r s2 ⟨h2, hsame2, hkeep2, ⟨k, hk, hr, hall⟩, hok⟩
            refine ⟨h2, hsame.trans hsame2, fun htt => (hkeep2 htt).trans (hkeep htt), ⟨m + k, by omega, ?_, ?_⟩, hok⟩
            · rw [hr, hpiece, hsame.node, List.append_assoc, slice_append]
            · intro htt hd hf
              have := hall htt hd (by omega)
              omega
        · rename_i hfail
          exact ⟨h1, hsame, hkeep, ⟨0, Nat.zero_le _, (List.append_nil _).symm, fun _ hall => absurd (hall _ _) hfail⟩,
            fun hall => absurd (hall _ _) hfail⟩
    · exact ⟨h, Same.refl s, fun _ => rfl, ⟨0, Nat.zero_le _, (List.append_nil _).symm, fun _ _ _ => by omega⟩,
        fun _ => rfl⟩

/-- How many bytes `readi` delivers of a file of `size` bytes, to a destination it can write. -/
def readCount (size off n : Nat) : Nat := if size < off ∨ 2 ^ 32 ≤ off + n then 0 else min n (size - off)

omit hE in
/-- The length `readi` reads once its first test has passed. -/
theorem readCount_eq {size : Nat} (hsize : size ≤ maxfile * bsize) (hn : n < 2 ^ 32)
    (hguard : ¬ (size < off ∨ u32 (off + n) < off)) :
    (if size < u32 (off + n) then size - off else n) = readCount size off n ∧ off + readCount size off n ≤ size := by
  have hsmall : maxfile * bsize < 2 ^ 31 := by decide
  have hwrap : ¬ (size < off ∨ 2 ^ 32 ≤ off + n) := by
    unfold u32 at hguard
    omega
  unfold readCount u32
  rw [if_neg hwrap]
  refine ⟨?_, by omega⟩
  split <;> omega

/-- The bytes read are the file's. Where no file has holes the state stays as it is, and all the bytes asked for
    are read. -/
theorem readi_wp (h : Inv sb t W s) (hc : s.cached i) (hn : n < 2 ^ 32)
    (hmode : t ∨ 0 < s.outstanding ∨ E .outsideTrans) :
    wp E (readi sb i off n dst) (fun r s' => Inv sb t W s' ∧ Same sb s s' ∧ (t → s' = s) ∧
      ∃ m, r.1 = slice (node sb s i).data off m ∧ off + m ≤ max off (node sb s i).size ∧ (r.2 = m ∨ r.2 = -1) ∧
        (t → (∀ p m, dst p m = true) → r.2 = m ∧ m = readCount (node sb s i).size off n)) s := by
  unfold readi
  rw [wp_get_bind]
  dsimp only
  rw [← node_size sb hc]
  split
  · rename_i hguard
    refine ⟨h, Same.refl s, fun _ => rfl, 0, rfl, Nat.le_max_left _ _, Or.inl rfl, fun _ _ => ⟨rfl, ?_⟩⟩
    unfold readCount
    rw [if_pos]
    unfold u32 at hguard
    omega
  · rename_i hguard
    obtain ⟨hcount, hle⟩ := readCount_eq (h.size_le i) hn hguard
    rw [hcount]
    generalize hn' : readCount (node sb s i).size off n = n' at hle
    apply wp_seq (readLoop_wp hE n' 0 off [] s h hc (by omega) hmode)
    rintro r s1 ⟨h1, hsame, hkeep, ⟨m, hm, hr, hall⟩, hok⟩
    obtain ⟨l, ok⟩ := r
    have hr' : l = slice (node sb s i).data off m := by simpa using hr
    refine ⟨h1, hsame, hkeep, m, hr', by omega, ?_, fun htt hd => ⟨?_, ?_⟩⟩
    · dsimp only
      rw [hr', slice_length]
      cases ok
      · right; rfl
      · left; rfl
    · have hok' : ok = true := hok hd
      dsimp only
      rw [hok', if_pos rfl, hr', slice_length]
    · rw [hall htt hd (by omega), Nat.sub_zero]

/-! ## writei -/

/-- The source delivers every piece of its first `n` bytes: byte `p` of it is `g p`. -/
def CopyIn.Total (src : CopyIn) (n : Nat) (g : Bytes) : Prop :=
  ∀ p m, p + m ≤ n → src.ok p m = true ∧ src.bytes p m = slice g p m

omit hE in
theorem CopyIn.total_kernel (l : List UInt8) (n : Nat) : (CopyIn.kernel l).Total n fun j => l.getD j 0 :=
  fun _ _ _ => ⟨rfl, rfl⟩

/-- Node `n` with the bytes `l` written at `off`. -/
def Node.put (n : Node) (off : Nat) (l : List UInt8) : Node := { n with data := putBytes n.data off l }

omit hE in
/-- Bytes stored into a block of inode `i`, which is being written. -/
theorem Inv.put_bytes (h : Inv sb t W s) (hc : s.cached i) (hW : W i)
    (hne : s.block i (off / bsize) ≠ 0) (hl : off % bsize + l.length ≤ bsize)
    (htab : SameTab s s') (hd : s'.disk = update s.disk (s.block i (off / bsize))
      (putBytes (s.disk (s.block i (off / bsize))) (off % bsize) l)) :
    Inv sb t W s' ∧ Changed sb s i ((node sb s i).put off l) s' ∧
      ∀ m, s'.block i m = s.block i m := by
  have hci : inodes sb s i = (s.itab i).din := inodes_cached hc
  have hbn : off / bsize < maxfile := by
    by_contra hge
    exact hne (blockOf_beyond (by omega))
  have hptr : ptrs s.disk (inodes sb s) (i, off / bsize) = s.block i (off / bsize) := by
    rw [ptrs_data (by omega), hci]
  have hp0 : ptrs s.disk (inodes sb s) (i, off / bsize) ≠ 0 := hptr ▸ hne
  rw [← hptr] at hd
  generalize hv : putBytes (s.disk (ptrs s.disk (inodes sb s) (i, off / bsize))) (off % bsize) l = v at hd
  have hlo := (h.good.own.range _ hp0).1
  have hm := bmapstart_lt_dataStart sb
  have hinode : ∀ j, j < sb.ninodes → dinodeAt sb s'.disk j = dinodeAt sb s.disk j := by
    intro j hj
    rw [hd, dinodeAt_high _ (by omega) hj]
  have hin : inodes sb s' = inodes sb s :=
    inodes_congr htab.tab (fun j _ => by rw [htab.itab]) fun j _ hj => hinode j hj
  have hp : ptrs s'.disk (inodes sb s) = ptrs s.disk (inodes sb s) := by
    rw [hd]; exact ptrs_store h.good.own (by omega) hp0 v
  have hblk : ∀ j m, blockOf s'.disk (inodes sb s j) m = blockOf s.disk (inodes sb s j) m := by
    intro j m
    by_cases hmm : m = maxfile
    · rw [hmm, blockOf_beyond (le_refl _), blockOf_beyond (le_refl _)]
    · have hpo := congrFun hp (j, m)
      rwa [ptrs_data hmm, ptrs_data hmm] at hpo
  have hused : used sb s'.disk = used sb s.disk := by rw [hd, used_update _ hlo]
  have hbytes : ∀ j o, byteAt s'.disk (inodes sb s j) o =
      if j = i ∧ o / bsize = off / bsize then v (o % bsize) else byteAt s.disk (inodes sb s j) o := by
    intro j o
    rw [hd]
    exact byteAt_store h.good.own hbn hp0 v j o
  have hother : ∀ j, j ≠ i → byteAt s'.disk (inodes sb s j) = byteAt s.disk (inodes sb s j) := by
    intro j hj
    funext o
    rw [hbytes, if_neg fun hh => hj hh.1]
  have hself : byteAt s'.disk (inodes sb s i) = putBytes (byteAt s.disk (inodes sb s i)) off l := by
    funext o
    have hdm := Nat.div_add_mod off bsize
    rw [hbytes, ← putBytes_block (k := off / bsize) (N := bsize)
      (v := s.disk (ptrs s.disk (inodes sb s) (i, off / bsize))) (by decide)
      (fun r hr => ?_) (Nat.div_mul_le_self _ _) (by rw [Nat.mul_comm] at hdm; omega) o]
    · rw [← hv, show off - off / bsize * bsize = off % bsize by rw [Nat.mul_comm] at hdm; omega]
      by_cases ho : o / bsize = off / bsize
      · rw [if_pos ⟨rfl, ho⟩, if_pos ho]
      · rw [if_neg fun hh => ho hh.2, if_neg ho]
    · have hr' : (off / bsize * bsize + r) / bsize = off / bsize ∧ (off / bsize * bsize + r) % bsize = r := by
        unfold bsize at *
        omega
      unfold byteAt
      rw [hr'.1, hr'.2, hci, if_neg hne, ← hci, ← ptrs_data (by omega)]
  refine ⟨h.same_tab htab ⟨?_, ?_, ?_, ?_, ?_, ?_⟩ fun j hw hcj => ?_, ⟨htab.tab, ?_⟩, ?_⟩
  · rw [hin, hp, hused]; exact h.good.own
  · rw [hused]; exact h.good.low
  · rw [hin, hp, hused]; exact h.good.leak
  · rw [hin]; exact h.good.fits
  · rw [hin]; exact h.good.size
  · intro htt j bn hj
    rw [hin] at hj ⊢
    rw [hblk]
    exact h.good.hole htt j bn hj
  · have hb := hother j fun he => hw (he ▸ hW)
    rw [inodes_cached hcj] at hb
    rw [hinode j (h.range j hcj)]
    exact (h.sync j hw hcj).disk hb
  · funext j
    unfold node
    rw [hin]
    by_cases hj : j = i
    · subst hj
      rw [update_self]
      unfold Node.put nodeOf
      rw [hself]
    · rw [update_of_ne hj]
      unfold nodeOf
      rw [hother j hj]
  · intro m
    have hb := hblk i m
    rw [hci] at hb
    rw [St.block, htab.itab]
    exact hb

omit hE in
theorem Node.put_nil (n : Node) (off : Nat) : n.put off [] = n := by
  unfold Node.put
  rw [putBytes_nil]

omit hE in
theorem Node.put_put (n : Node) (off : Nat) (h : l.length = k) (m : List UInt8) :
    (n.put off l).put (off + k) m = n.put off (l ++ m) := by
  unfold Node.put
  rw [← h, putBytes_append]

omit hE in
theorem Kept.changed (h : Kept sb s i s') : Changed sb s i ((node sb s i).put off []) s' := by
  refine ⟨h.toTab, ?_⟩
  rw [Node.put_nil, update_eq_self, h.node]

/-- The size of the piece that `writei` copies at position `q` of the file, with `left` bytes to go. -/
def piece (q left : Nat) : Nat := min left (bsize - q % bsize)

/-- What the source delivers of its first `n` bytes it delivers as `g`. -/
def CopyIn.Shows (src : CopyIn) (n : Nat) (g : Bytes) : Prop :=
  ∀ p m, p + m ≤ n → src.ok p m = true → src.bytes p m = slice g p m

/-- Byte `p` of the source is in a piece that it delivers. -/
def CopyIn.Good (src : CopyIn) (p : Nat) : Prop := ∃ q m, q ≤ p ∧ p < q + m ∧ src.ok q m = true

/-- How many of its blocks from `a` up to `b` the file of inode `x` does not have. -/
def gaps (d : Disk) (x : Dinode) (a b : Nat) : Nat := (List.range' a (b - a)).countP fun m => blockOf d x m = 0

/-- The loop of `writei`, started at `off`, has ended at block `q` for want of a block; before a later block that the
    file has, there are more gaps than there were free blocks. -/
structure Wants (sb : Superblock) (s : St) (i off q : Nat) (s' : St) : Prop where
  none : s.block i q = 0
  full : Full sb s'.disk
  short : q = off / bsize → freeBlocks sb s.disk < newBlocks s.disk (s.itab i).din q
  gaps : ∀ bn, q < bn → s.block i bn ≠ 0 →
    freeBlocks sb s.disk < gaps s.disk (s.itab i).din (off / bsize) bn

/-- The loop of `writei`, started at `tot` with offset `off`, has ended at `k` with the bytes `l` in the file: every
    block it changed is logged, and it ends early only for want of a block. -/
structure Clear (sb : Superblock) (src : CopyIn) (s : St) (i n tot off k : Nat) (l : List UInt8) (s' : St) : Prop where
  shown : ∀ g, src.Shows n g → l = slice g tot (k - tot)
  journaled : Journaled s s'
  stop : k = n ∨ Wants sb s i off ((off + (k - tot)) / bsize) s'

/-- The loop has ended in a piece that could not be copied whole: `b` holds the first bytes of it.
    `s1` is the state before that copy. -/
structure Torn (sb : Superblock) (src : CopyIn) (s : St) (i n tot off k : Nat) (l : List UInt8) (s1 : St) (b : Nat)
    (s' : St) : Prop where
  lt : k < n
  short : src.ok k (piece (off + (k - tot)) (n - k)) = false
  shown : ∀ g, src.Shows n g → l = slice g tot (k - tot) ++ src.bytes k (piece (off + (k - tot)) (n - k))
  journaled : Journaled s s1
  lh : s'.lh = s1.lh
  disk : s'.disk = update s1.disk b
    (putBytes (s1.disk b) ((off + (k - tot)) % bsize) (src.bytes k (piece (off + (k - tot)) (n - k))))
  data : sb.dataStart ≤ b
  /-- A block that the file had is as it was. -/
  old : s.block i ((off + (k - tot)) / bsize) ≠ 0 →
    b = s.block i ((off + (k - tot)) / bsize) ∧ Untouched s s1 b
  new : s.block i ((off + (k - tot)) / bsize) = 0 → b ∈ s1.lh
  room : s.block i ((off + (k - tot)) / bsize) ≠ 0 →
    gaps s.disk (s.itab i).din (off / bsize) ((off + (k - tot)) / bsize) ≤ freeBlocks sb s.disk

/-- What the loop of `writei` has done when it ends at `k`, started at `tot` with offset `off`. -/
structure Wrote (sb : Superblock) (t : Prop) (src : CopyIn) (s : St) (i n tot off k : Nat) (l : List UInt8)
    (s' : St) : Prop where
  le : tot ≤ k
  le_n : k ≤ n
  changed : Changed sb s i ((node sb s i).put off l) s'
  mapped : t → ∀ bn, bn * bsize < off + (k - tot) → s'.block i bn ≠ 0
  aligned : k = tot ∨ k = n ∨ (off + (k - tot)) % bsize = 0
  copied : ∀ p, tot ≤ p → p < k → src.Good p
  started : tot < k → newBlocks s.disk (s.itab i).din (off / bsize) ≤ freeBlocks sb s.disk
  ends : Clear sb src s i n tot off k l s' ∨ ∃ s1 b, Torn sb src s i n tot off k l s1 b s'

/-- The piece `l` at position `off` has been written and logged. -/
structure PieceWritten (sb : Superblock) (s : St) (i off : Nat) (l : List UInt8) (s' : St) : Prop where
  changed : Changed sb s i ((node sb s i).put off l) s'
  journaled : Journaled s s'
  here : s'.block i (off / bsize) ≠ 0
  same : ∀ bn, bn ≠ off / bsize → s'.block i bn = s.block i bn
  held : ∀ bn, bn ≠ off / bsize → s.block i bn ≠ 0 → Untouched s s' (s.block i bn)
  cost : freeBlocks sb s.disk = freeBlocks sb s'.disk + newBlocks s.disk (s.itab i).din (off / bsize)

section

variable {tot m : Nat} {p : List UInt8} {s2 : St} {g : Bytes}

omit hE

/-- The loop ends before it has written anything. -/
theorem Wrote.none (hkept : Kept sb s i s') (hle : tot ≤ n) (hjour : Journaled s s')
    (hmap : t → ∀ bn, bn * bsize < off → s.block i bn ≠ 0)
    (hstop : tot = n ∨ Wants sb s i off (off / bsize) s') :
    Wrote sb t src s i n tot off tot [] s' where
  le := Nat.le_refl _
  le_n := hle
  changed := hkept.changed
  mapped htt bn hbn := hkept.blocks bn (hmap htt bn (by omega))
  aligned := .inl rfl
  copied p hp hk := absurd hp (Nat.not_le.mpr hk)
  started hlt := absurd hlt (Nat.lt_irrefl _)
  ends := .inl ⟨fun g _ => by simp [slice], hjour, by rwa [Nat.sub_self]⟩

/-- A piece that is not the last ends its block. -/
theorem piece_next (htot : tot + piece off (n - tot) ≤ k) (hk : k < n) :
    off + (k - tot) = off + piece off (n - tot) + (k - (tot + piece off (n - tot))) ∧
      (off + piece off (n - tot)) / bsize = off / bsize + 1 ∧ off / bsize < (off + (k - tot)) / bsize := by
  unfold piece bsize at *
  refine ⟨?_, ?_, ?_⟩ <;> omega

theorem gaps_succ {a : Nat} (h : a < bn) : gaps d x a bn = (if blockOf d x a = 0 then 1 else 0) + gaps d x (a + 1) bn := by
  rw [gaps, gaps, show bn - a = bn - (a + 1) + 1 by omega, List.range'_succ, List.countP_cons, Nat.add_comm]
  simp

/-- A file that has a later block has the indirect block, or needs none. -/
theorem newBlocks_next {m : Nat} (h0 : blockOf d x bn = 0) (hlt : bn < m) (hne : blockOf d x m ≠ 0) : newBlocks d x bn = 1 := by
  refine newBlocks_one h0 ?_
  by_contra hind
  have hmax : m < maxfile := by
    by_contra hge
    exact hne (blockOf_beyond (by omega))
  rw [blockOf_indirect (by omega) hmax, if_pos (by omega)] at hne
  exact hne rfl

/-- One gap is closed with one block, where the file has a later one. -/
theorem PieceWritten.gaps (hp : PieceWritten sb s i off p s1) (hlt : off / bsize < bn)
    (hne : s.block i bn ≠ 0) :
    gaps s.disk (s.itab i).din (off / bsize) bn + freeBlocks sb s1.disk =
      Fs.gaps s1.disk (s1.itab i).din (off / bsize + 1) bn + freeBlocks sb s.disk := by
  have hrest : Fs.gaps s1.disk (s1.itab i).din (off / bsize + 1) bn = Fs.gaps s.disk (s.itab i).din (off / bsize + 1) bn := by
    refine List.countP_congr fun m hm => ?_
    have hsame : blockOf s1.disk (s1.itab i).din m = _ := hp.same m (by have := (List.mem_range'_1.mp hm).1; omega)
    rw [hsame]
  have hone : newBlocks s.disk (s.itab i).din (off / bsize) = if blockOf s.disk (s.itab i).din (off / bsize) = 0 then 1
    else 0 := by
    split
    next h0 => exact newBlocks_next h0 hlt hne
    next h0 => exact newBlocks_mapped h0
  rw [gaps_succ hlt, hp.cost, hrest, hone]
  omega

theorem CopyIn.Shows.append (hg : src.Shows n g) (hok : src.ok tot m = true) (htot : tot + m ≤ k) (hkn : k ≤ n) :
    src.bytes tot m ++ slice g (tot + m) (k - (tot + m)) = slice g tot (k - tot) := by
  rw [hg tot m (by omega) hok, slice_append]
  congr 1
  omega

/-- The block just written is mapped, so every block below the new offset is. -/
theorem PieceWritten.mapped (hp : PieceWritten sb s i off p s1) (hm : off % bsize + m ≤ bsize)
    (hmap : ∀ bn, bn * bsize < off → s.block i bn ≠ 0) (bn : Nat) (hbn : bn * bsize < off + m) :
    s1.block i bn ≠ 0 := by
  by_cases hb : bn = off / bsize
  · rw [hb]
    exact hp.here
  · rw [hp.same bn hb]
    refine hmap bn ?_
    unfold bsize at *
    omega

section

variable (hp : PieceWritten sb s i off (src.bytes tot (piece off (n - tot))) s1) (hok : src.ok tot (piece off (n - tot)) = true)
include hp hok

theorem PieceWritten.clear (htot : tot + piece off (n - tot) ≤ k) (hkn : k ≤ n)
    (h : Clear sb src s1 i n (tot + piece off (n - tot)) (off + piece off (n - tot)) k l s') :
    Clear sb src s i n tot off k (src.bytes tot (piece off (n - tot)) ++ l) s' := by
  refine ⟨fun g hg => by rw [h.shown g hg, hg.append hok htot hkn], hp.journaled.trans h.journaled, ?_⟩
  rcases Nat.eq_or_lt_of_le hkn with hk | hk
  · exact .inl hk
  · obtain ⟨hq, hnext, hlt⟩ := piece_next htot hk
    obtain ⟨hnone, hfull, -, hgaps⟩ := h.stop.resolve_left (Nat.ne_of_lt hk)
    rw [← hq] at hnone hgaps
    refine .inr ⟨by rwa [← hp.same _ hlt.ne'], hfull, fun he => absurd he hlt.ne', fun bn hbn hmap => ?_⟩
    have hbelow := hgaps bn hbn (by rwa [hp.same bn (by omega)])
    have hone := hp.gaps (hlt.trans hbn) hmap
    rw [hnext] at hbelow
    omega

theorem PieceWritten.torn (htot : tot + piece off (n - tot) ≤ k) (h : Torn sb src s1 i n (tot + piece off (n - tot))
      (off + piece off (n - tot)) k l s2 b s') :
    Torn sb src s i n tot off k (src.bytes tot (piece off (n - tot)) ++ l) s2 b s' := by
  obtain ⟨hlt, hshort, hshown, hjour, hlh, hdisk, hdata, hold, hnew, hroom⟩ := h
  obtain ⟨hq, hnext, hbelow⟩ := piece_next htot hlt
  have hne := hbelow.ne'
  rw [← hq] at hshort hshown hdisk hold hnew hroom
  rw [hp.same _ hne] at hold hnew hroom
  rw [hnext] at hroom
  refine ⟨hlt, hshort, fun g hg => ?_, hp.journaled.trans hjour, hlh, hdisk, hdata, fun h0 => ?_, hnew, fun h0 => ?_⟩
  · rw [hshown g hg, ← List.append_assoc, hg.append hok htot hlt.le]
  · obtain ⟨hb, hlog, hd⟩ := hold h0
    obtain ⟨hlog', hd'⟩ := hp.held _ hne h0
    rw [← hb] at hlog' hd'
    exact ⟨hb, hlog.trans hlog', hd.trans hd'⟩
  · have hone := hp.gaps hbelow h0
    have hrest := hroom h0
    omega

/-- A piece, and what the loop does after it. -/
theorem PieceWritten.wrote (h : Wrote sb t src s1 i n (tot + piece off (n - tot)) (off + piece off (n - tot)) k l s') :
    Wrote sb t src s i n tot off k (src.bytes tot (piece off (n - tot)) ++ l) s' where
  le := Nat.le_trans (Nat.le_add_right _ _) h.le
  le_n := h.le_n
  changed := by
    have hch := h.changed
    rw [hp.changed.node, update_self, Node.put_put _ _ (src.eq _ _ hok)] at hch
    exact hp.changed.trans hch
  mapped htt bn hbn := h.mapped htt bn (by have := h.le; omega)
  aligned := by
    have hle := h.le
    have hlen := h.le_n
    rcases Nat.eq_or_lt_of_le hlen with hk | hk
    · exact .inr (.inl hk)
    · obtain ⟨hq, -, -⟩ := piece_next hle hk
      rcases h.aligned with hk' | hk' | hmod
      · refine .inr (.inr ?_)
        unfold piece bsize at *
        omega
      · exact absurd hk' hk.ne
      · exact .inr (.inr (hq ▸ hmod))
  copied p hp hk := by
    rcases Nat.lt_or_ge p (tot + piece off (n - tot)) with hlt | hge
    · exact ⟨tot, _, hp, hlt, hok⟩
    · exact h.copied p hge hk
  started _ := by
    rw [hp.cost]
    exact Nat.le_add_left _ _
  ends := by
    rcases h.ends with hclear | ⟨s2, b, htorn⟩
    · exact .inl (hp.clear hok h.le h.le_n hclear)
    · exact .inr ⟨s2, b, hp.torn hok h.le htorn⟩

end

/-- Bytes that lie in one block are written all or not at all. -/
theorem Wrote.whole (h : Wrote sb t src s i n tot off k l s') (hn : n - tot ≤ bsize - off % bsize) : k = tot ∨ k = n := by
  have hle := h.le
  have hlen := h.le_n
  rcases h.aligned with hk | hk | hmod
  · exact .inl hk
  · exact .inr hk
  · unfold bsize at *
    omega

section

variable (hb : Bmapped sb t W s i (off / bsize) (s1.block i (off / bsize)) s1) (hc : s.cached i) (hW : W i)
  (hne : s1.block i (off / bsize) ≠ 0)
include hb hc hW hne

/-- The copy and the `log_write` of a piece whose block `bmap` has found. -/
theorem Bmapped.logged (hl : off % bsize + l.length ≤ bsize) (htab : SameTab s1 s2)
    (hd : s2.disk = update s1.disk (s1.block i (off / bsize)) (putBytes (s1.disk (s1.block i (off / bsize))) (off % bsize) l))
    (hlog : ∀ c, c ∈ s2.lh ↔ c = s1.block i (off / bsize) ∨ c ∈ s1.lh) :
    Inv sb t W s2 ∧ PieceWritten sb s i off l s2 := by
  obtain ⟨h1, hkept, -, -, -, hjour, helse, hcost⟩ := hb
  have hc1 : s1.cached i := (hkept.cached i).mpr hc
  obtain ⟨h2, hch, hblk⟩ := h1.put_bytes hc1 hW hne hl htab hd
  refine ⟨h2, ?_, hjour.trans (.store hd hlog),
      by rwa [hblk], fun bn hbn => by rw [hblk, helse.same bn hbn], fun bn hbn h0 => ?_, ?_⟩
  · have hall := hkept.toSame.trans_changed hch
    rwa [hkept.node] at hall
  · -- two blocks of one file are different
    have h01 : s1.block i bn ≠ 0 := by rwa [helse.same bn hbn]
    have hdiff : s.block i bn ≠ s1.block i (off / bsize) := by
      rw [← helse.same bn hbn]
      intro he
      obtain ⟨-, hptr, -, -⟩ := h1.block hc1 h01
      obtain ⟨-, hptr', -, -⟩ := h1.block hc1 hne
      have hinj := h1.good.own.inj (i, bn) (i, off / bsize) (by rwa [hptr]) (by rw [hptr, hptr', he])
      exact hbn (congrArg Prod.snd hinj)
    obtain ⟨hlog1, hd1⟩ := helse.held bn hbn h0
    refine ⟨?_, by rw [hd, update_of_ne hdiff, hd1]⟩
    rw [hlog, hlog1]
    simp [hdiff]
  · rw [Spent, if_neg hne] at hcost
    rw [hcost, freeBlocks_congr (show used sb s2.disk = used sb s1.disk by rw [hd, used_update _ (h1.block hc1 hne).2.2.1])]

/-- The copy of a piece that fails: what has reached the block stays there. -/
theorem Bmapped.torn (hlt : tot < n) (hok : src.ok tot (piece off (n - tot)) = false) (hmap : t → ∀ bn, bn * bsize < off →
      s.block i bn ≠ 0) (htab : SameTab s1 s2) (hlh : s2.lh = s1.lh) (hd : s2.disk = update s1.disk (s1.block i (off / bsize))
      (putBytes (s1.disk (s1.block i (off / bsize))) (off % bsize) (src.bytes tot (piece off (n - tot))))) :
    Inv sb t W s2 ∧ ∃ l, Wrote sb t src s i n tot off tot l s2 := by
  obtain ⟨h1, hkept, -, hfound, -, hjour, helse, -⟩ := hb
  have hc1 : s1.cached i := (hkept.cached i).mpr hc
  have hlen := src.le tot (piece off (n - tot))
  have hm : off % bsize + piece off (n - tot) ≤ bsize := (piece_bounds off hlt).2.2
  obtain ⟨h2, hch, hblk⟩ := h1.put_bytes hc1 hW hne (by omega) htab hd
  have hpos : off + (tot - tot) = off := by omega
  refine ⟨h2, src.bytes tot (piece off (n - tot)), Nat.le_refl _, hlt.le, ?_, fun htt bn hbn => ?_, .inl rfl,
    fun p hp hk => absurd hp (Nat.not_le.mpr hk), fun h0 => absurd h0 (Nat.lt_irrefl _),
    .inr ⟨s1, s1.block i (off / bsize), hlt, ?_, fun g _ => ?_, hjour, hlh, ?_, (h1.block hc1 hne).2.2.1,
      ?_, ?_, ?_⟩⟩
  · have hall := hkept.toSame.trans_changed hch
    rwa [hkept.node] at hall
  · rw [hblk]
    exact hkept.blocks bn (hmap htt bn (by omega))
  · rwa [hpos]
  · rw [hpos, Nat.sub_self]
    rfl
  · rwa [hpos]
  · rw [hpos]
    intro h0
    obtain ⟨hb, rfl⟩ := hfound h0
    exact ⟨hb, Iff.rfl, rfl⟩
  · rw [hpos]
    exact fun h0 => helse.fresh h0 hne
  · rw [hpos, gaps, Nat.sub_self]
    exact fun _ => Nat.zero_le _

end

theorem Bmapped.wants {r : Nat} (hb : Bmapped sb t W s i (off / bsize) r s1) (hr : r = 0) :
    Wants sb s i off (off / bsize) s1 := by
  have h0 : s.block i (off / bsize) = 0 := by
    by_contra hne
    exact hne ((hb.found hne).1.symm.trans hr)
  have hcost := hb.cost
  rw [Spent, if_pos hr] at hcost
  refine ⟨h0, hb.full hr, fun _ => hcost, fun bn hbn hmap => ?_⟩
  rw [newBlocks_next h0 hbn hmap] at hcost
  rw [gaps_succ hbn, if_pos h0]
  omega

/-- A source that delivers everything: the bytes are the source's, and only a full disk ends the loop early. -/
theorem Wrote.total (h : Wrote sb t src s i n tot off k l s') (hg : src.Total n g) :
    l = slice g tot (k - tot) ∧ (k = n ∨ Full sb s'.disk) := by
  have hshow : src.Shows n g := fun p m hp _ => (hg p m hp).2
  rcases h.ends with hclear | ⟨s1, b, htorn⟩
  · exact ⟨hclear.shown g hshow, hclear.stop.imp_right Wants.full⟩
  · have hle : k + piece (off + (k - tot)) (n - k) ≤ n := by
      have := htorn.lt
      unfold piece
      omega
    have hno := htorn.short
    rw [(hg _ _ hle).1] at hno
    cases hno

end

theorem writeLoop_wp (fuel : Nat) : ∀ (tot off : Nat) (s : St),
    Inv sb t W s → s.cached i → W i → 0 < s.outstanding → tot ≤ n → n - tot ≤ fuel →
    (t → ∀ bn, bn * bsize < off → s.block i bn ≠ 0) →
    wp E (writeLoop sb i n src fuel tot off) (fun k s' => Inv sb t W s' ∧ ∃ l, Wrote sb t src s i n tot off k l s') s := by
  induction fuel with
  | zero =>
    intro tot off s h _ _ _ hle hf hmap
    exact ⟨h, [], Wrote.none (Kept.refl s i) hle (.refl s) hmap (.inl (by omega))⟩
  | succ fuel ih =>
    intro tot off s h hc hW ht hle hf hmap
    unfold writeLoop
    split
    next hlt =>
      refine wp_seq (bmap_wp hE h hc (fun _ => .inl hW) (.inr (.inl ht))) fun addr s1 hb => ?_
      have hkept := hb.kept
      split
      next h0 =>
        exact ⟨hb.inv, [], Wrote.none hkept hle hb.journaled hmap (.inr (hb.wants h0))⟩
      next hne =>
        obtain rfl := hb.addr.resolve_left hne
        rw [wp_get_bind]
        change wp _ (if src.ok tot (piece off (n - tot)) = true then _ else _) _ _
        have hm : 0 < piece off (n - tot) ∧ piece off (n - tot) ≤ n - tot ∧ off % bsize + piece off (n - tot) ≤ bsize :=
          piece_bounds off hlt
        split
        next hok =>
          refine wp_seq (store_wp hE (.inl (hkept.outstanding.symm ▸ ht))) ?_
          rintro _ s2 ⟨hd, htab, hlog⟩
          have hl : off % bsize + (src.bytes tot (piece off (n - tot))).length ≤ bsize := by rw [src.eq _ _ hok]; exact hm.2.2
          obtain ⟨h2, hp⟩ := hb.logged hc hW hne hl htab hd hlog
          refine wp_mono (ih _ _ s2 h2 ((hp.changed.cached i).mpr hc) hW (hp.changed.outstanding.symm ▸ ht) (by omega) (by omega)
            fun htt => hp.mapped hm.2.2 (hmap htt)) ?_
          rintro k s3 ⟨h3, l, hw⟩
          exact ⟨h3, _, hp.wrote hok hw⟩
        next hok => exact hb.torn hc hW hne hlt (by simpa using hok) hmap ⟨rfl, rfl, rfl⟩ rfl rfl
    next hlt => exact ⟨h, [], Wrote.none (Kept.refl s i) hle (.refl s) hmap (.inl (by omega))⟩

/-- Node `n` after `writei` of `k` bytes at `off`, of which `l` reached the buffers. -/
def Node.written (n : Node) (off k : Nat) (l : List UInt8) : Node :=
  { n.put off l with size := max n.size (off + k) }

/-- `writei` has returned `k`. Its loop ended in `s1` with the bytes `l` in the file; then the size changed, and the inode's
    block, which holds no data, was logged. -/
structure Stored (sb : Superblock) (t : Prop) (W : Nat → Prop) (src : CopyIn) (s : St) (i n off k : Nat) (l : List UInt8)
    (s1 s' : St) : Prop where
  inv : Inv sb t W s'
  wrote : Wrote sb t src s i n 0 off k l s1
  changed : Changed sb s i ((node sb s i).written off k l) s'
  journaled : Journaled s1 s'
  high : ∀ c, sb.dataStart ≤ c → Untouched s1 s' c
  full : Full sb s1.disk → Full sb s'.disk

/-- `writei` fails, or ends its loop and stores the size. -/
theorem writei_stored (h : Inv sb t W s) (hc : s.cached i) (ht : 0 < s.outstanding) :
    wp E (writei sb i off n src) (fun r s' =>
      (r = -1 ∧ s' = s ∧ ¬(off ≤ (node sb s i).size ∧ off + n ≤ maxfile * bsize)) ∨
      ∃ (k : Nat) (l : List UInt8) (s1 : St), r = k ∧ off ≤ (node sb s i).size ∧ off + n ≤ maxfile * bsize ∧
        Stored sb t W src s i n off k l s1 s') s := by
  unfold writei
  rw [wp_get_bind, ← node_size sb hc]
  split
  · rename_i hguard
    refine Or.inl ⟨rfl, rfl, fun hin => ?_⟩
    have hbig : maxfile * bsize < 2 ^ 32 := by decide
    unfold u32 at hguard
    omega
  · split
    · rename_i hmax
      exact Or.inl ⟨rfl, rfl, fun hin => absurd hmax (Nat.not_lt.mpr hin.2)⟩
    · rename_i hguard hmax
      have hoff : off ≤ (node sb s i).size := by omega
      have hV : Inv sb t (fun j => W j ∨ j = i) s := h.mono fun j hj => Or.inl hj
      have hmap : t → ∀ bn, bn * bsize < off → s.block i bn ≠ 0 := by
        intro htt bn hbn
        rw [node_size sb hc] at hoff
        exact h.mapped hc htt (by omega)
      apply wp_seq (writeLoop_wp hE n 0 off s hV hc (Or.inr rfl) ht (Nat.zero_le _) (Nat.le_refl _) hmap)
      rintro k s1 ⟨h1, l, hw⟩
      have hk := hw.le_n
      have hc1 := (hw.changed.cached i).mpr hc
      have hnode : nodeOf s1.disk (s1.itab i).din = (node sb s i).put off l := by
        have hn1 : node sb s1 i = nodeOf s1.disk (s1.itab i).din := node_cached hc1
        rw [← hn1, hw.changed.node, update_self]
      have hsize : (s1.itab i).din.size = (node sb s i).size := congrArg Node.size hnode
      rw [wp_modify_bind, hsize]
      have hbig : max (node sb s i).size (off + k) ≤ maxfile * bsize := by
        have := h.size_le i
        omega
      have hf := h1.fits hc1
      obtain ⟨h2, hch⟩ := h1.setCore (x := { (s1.itab i).din with size := max (node sb s i).size (off + k) }) hc1 rfl
        ⟨hf.type, hf.major, hf.minor, hf.nlink, by
          have : maxfile * bsize < 2 ^ 32 := by decide
          change max (node sb s i).size (off + k) < 2 ^ 32
          omega, hf.addrs⟩ (h1.alive i hc1) hbig
        (by
          intro htt bn hbn
          change bn * bsize < max (node sb s i).size (off + k) at hbn
          change s1.block i bn ≠ 0
          rcases Nat.lt_or_ge (bn * bsize) (node sb s i).size with hlt | hge
          · exact h1.mapped hc1 htt (by rwa [hsize])
          · exact hw.mapped htt bn (by omega))
      apply wp_seq (iupdate_wp hE h2 ((hch.cached i).mpr hc1) (by
        rw [hch.outstanding, hw.changed.outstanding]; exact ht))
      rintro _ s2 ⟨h3, hsame, -, hd, hlog⟩
      have hlow := iblock_lt (h.range i hc)
      refine Or.inr ⟨k, l, s1, rfl, hoff,
          by omega, h3.mono fun j hj => ?_, hw, ?_, .store hd hlog, fun c hlo => ?_, fun hr c hc => ?_⟩
      · have h4 := hj.1
        have h5 := hj.2
        tauto
      · have hnode2 : nodeOf s1.disk { (s1.itab i).din with size := max (node sb s i).size (off + k) } =
            (node sb s i).written off k l := by
          unfold Node.written
          rw [← hnode]
          rfl
        rw [hnode2] at hch
        exact (hw.changed.trans hch).trans_same hsame
      · have hne : c ≠ iblock sb i := by
          have := bmapstart_lt_dataStart sb
          omega
        refine ⟨?_, by rw [hd]; exact update_of_ne hne _ _⟩
        rw [hlog]
        exact or_iff_right hne
      · rw [hd]
        exact (congrFun (used_low _ hlow _) c).trans (hr c hc)

/-- `writei` fails, or writes `k` bytes and the file's size covers them. -/
theorem writei_wp (h : Inv sb t W s) (hc : s.cached i) (ht : 0 < s.outstanding) :
    wp E (writei sb i off n src) (fun r s' => Inv sb t W s' ∧ ((r = -1 ∧ Same sb s s') ∨
      ∃ (k : Nat) (l : List UInt8), r = k ∧ k ≤ n ∧ off ≤ (node sb s i).size ∧ off + n ≤ maxfile * bsize ∧
        Changed sb s i ((node sb s i).written off k l) s' ∧ (∀ g, src.Total n g → l = slice g 0 k) ∧
        (∀ g, src.Total n g → n ≤ bsize - off % bsize → k = 0 ∨ k = n) ∧
        (∀ g, src.Total n g → k = n ∨ Full sb s'.disk))) s := by
  refine wp_mono (writei_stored hE h hc ht) ?_
  rintro r s' (⟨rfl, rfl, -⟩ | ⟨k, l, s1, rfl, hoff, hmax, hst⟩)
  · exact ⟨h, Or.inl ⟨rfl, Same.refl s'⟩⟩
  · refine ⟨hst.inv, Or.inr ⟨k, l, rfl, hst.wrote.le_n, hoff, hmax, hst.changed, fun g hg => (hst.wrote.total hg).1,
      fun g _ => hst.wrote.whole, fun g hg => (hst.wrote.total hg).2.imp_right hst.full⟩⟩

end Xv6.Fs
