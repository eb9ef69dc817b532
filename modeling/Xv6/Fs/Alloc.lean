/-
  Xv6.Fs.Alloc — what `balloc` and `bfree` do to the disk.

  `used` is the bit map of the disk's blocks. `Took` and `Gave` are the effect of a
  successful `balloc` and of `bfree`: one bit changes, the block taken is zeroed, and no inode
  and no other data block is touched.

  A block that is changed goes to `log_write` in the same function, so at any time a block that
  is not in the log is as the disk has it (`Journaled`).

  Proved:
  - `balloc_wp`: `balloc` takes a free data block; with no block free it leaves the state alone
    and returns 0.
  - `bfree_wp`: `bfree` of a block in use gives it back; it does not panic.
  - `ptrs_took`, `byteAt_took`, `ptrs_gave`, `byteAt_gave`: neither moves or changes any file.
-/

import Mathlib.Data.Finset.Card
import Xv6.Fs.Inode

namespace Xv6.Fs

open Xv6.Lib
open Xv6.Log.Group (mem_absorb)

/-- The stops that no lemma below has to rule out. -/
structure Tolerant (E : Stop → Prop) : Prop where
  rest : ∀ e, e ≠ .freeingFreeBlock → e ≠ .outsideTrans → e ≠ .ilockNoType → E e

theorem tolerant_any : Tolerant fun _ => True := ⟨fun _ _ _ _ => trivial⟩

theorem Tolerant.tooBig {E : Stop → Prop} (h : Tolerant E) : E .tooBig :=
  h.rest _ (by decide) (by decide) (by decide)

/-- Everything but blocks and the log's header is as it was. -/
structure SameTab (s s' : St) : Prop where
  itab : s'.itab = s.itab
  nlive : s'.nlive = s.nlive
  outstanding : s'.outstanding = s.outstanding

theorem SameTab.trans {s s1 s2 : St} (h1 : SameTab s s1) (h2 : SameTab s1 s2) : SameTab s s2 :=
  ⟨h2.itab.trans h1.itab, h2.nlive.trans h1.nlive, h2.outstanding.trans h1.outstanding⟩

/-- Every block that changed is in the log, and the log has lost none. -/
structure Journaled (s s' : St) : Prop where
  lh : ∀ c ∈ s.lh, c ∈ s'.lh
  disk : ∀ c, c ∉ s'.lh → s'.disk c = s.disk c

variable {b : Nat} {v : Block}

section

variable {s s1 s2 : St}

theorem Journaled.refl (s : St) : Journaled s s := ⟨fun _ h => h, fun _ _ => rfl⟩

theorem Journaled.trans (h1 : Journaled s s1) (h2 : Journaled s1 s2) : Journaled s s2 where
  lh c hc := h2.lh c (h1.lh c hc)
  disk c hc := (h2.disk c hc).trans (h1.disk c fun h => hc (h2.lh c h))

theorem Journaled.store (hd : s1.disk = update s.disk b v) (hlog : ∀ c, c ∈ s1.lh ↔ c = b ∨ c ∈ s.lh) :
    Journaled s s1 := by
  refine ⟨fun c hc => (hlog c).mpr (.inr hc), fun c hc => ?_⟩
  have hne : c ≠ b := fun he => hc ((hlog c).mpr (.inl he))
  rw [hd, update_of_ne hne]

end

section

variable (sb : Superblock) {d d' : Disk} {c : Nat}

/-- Block `c` is a block of the disk and its bit is set. -/
def used (d : Disk) (c : Nat) : Bool := decide (c < sb.size) && usedAt sb d c

/-- No block is free. -/
def Full (d : Disk) : Prop := ∀ c, c < sb.size → used sb d c = true

/-- How many blocks are free. -/
def freeBlocks (d : Disk) : Nat := ((Finset.range sb.size).filter fun c => used sb d c = false).card

structure Took (d : Disk) (b : Nat) (d' : Disk) : Prop where
  lo : sb.dataStart ≤ b
  hi : b < sb.size
  free : used sb d b = false
  used : used sb d' = update (used sb d) b true
  zero : d' b = zero
  high : ∀ c, sb.dataStart ≤ c → c ≠ b → d' c = d c
  inode : ∀ i, i < sb.ninodes → dinodeAt sb d' i = dinodeAt sb d i

/-- `balloc` has taken block `b` and logged it; what it logs beside it is no data block. -/
structure Taken (s : St) (b : Nat) (s' : St) : Prop where
  took : Took sb s.disk b s'.disk
  tab : SameTab s s'
  journaled : Journaled s s'
  fresh : b ∈ s'.lh
  log : ∀ c, sb.dataStart ≤ c → used sb s.disk c = true → (c ∈ s'.lh ↔ c ∈ s.lh)

structure Gave (d : Disk) (b : Nat) (d' : Disk) : Prop where
  used : used sb d' = update (used sb d) b false
  high : ∀ c, sb.dataStart ≤ c → d' c = d c
  inode : ∀ i, i < sb.ninodes → dinodeAt sb d' i = dinodeAt sb d i

variable {sb}

theorem dataStart_pos : 0 < sb.dataStart := by
  have := bmapstart_lt_dataStart sb
  omega

theorem used_lt (h : used sb d c = true) : c < sb.size := by
  unfold used at h
  simp only [Bool.and_eq_true, decide_eq_true_eq] at h
  exact h.1

theorem used_of_usedAt (hc : c < sb.size) (h : usedAt sb d c = true) : used sb d c = true := by
  unfold used
  rw [h, Bool.and_true]
  exact decide_eq_true hc

theorem usedAt_of_used (h : used sb d c = true) : usedAt sb d c = true := by
  unfold used at h
  simp only [Bool.and_eq_true] at h
  exact h.2

theorem freeBlocks_congr (h : used sb d' = used sb d) : freeBlocks sb d' = freeBlocks sb d := by
  rw [freeBlocks, h, freeBlocks]

theorem Full.freeBlocks (h : Full sb d) : freeBlocks sb d = 0 := by
  refine Finset.card_eq_zero.mpr (Finset.filter_eq_empty_iff.mpr fun c hc => ?_)
  rw [h c (Finset.mem_range.mp hc)]
  exact Bool.noConfusion

theorem Took.freeBlocks (h : Took sb d b d') : freeBlocks sb d = freeBlocks sb d' + 1 := by
  have hmem : b ∈ (Finset.range sb.size).filter fun c => Fs.used sb d c = false :=
    Finset.mem_filter.mpr ⟨Finset.mem_range.mpr h.hi, h.free⟩
  have herase : ((Finset.range sb.size).filter fun c => Fs.used sb d' c = false) =
      ((Finset.range sb.size).filter fun c => Fs.used sb d c = false).erase b := by
    ext c
    rw [Finset.mem_filter, Finset.mem_erase, Finset.mem_filter, h.used]
    by_cases hc : c = b
    · rw [hc, update_self]
      simp
    · rw [update_of_ne hc]
      simp [hc]
  rw [Fs.freeBlocks, Fs.freeBlocks, herase, Finset.card_erase_add_one hmem]

theorem used_markUsed (d : Disk) (hb : b < sb.size) :
    used sb (markUsed sb d b) = update (used sb d) b true := by
  funext c
  unfold used
  rw [usedAt_markUsed]
  by_cases hc : c = b
  · rw [hc, if_pos rfl, update_self, decide_eq_true hb, Bool.and_self]
  · rw [if_neg hc, update_of_ne hc]

theorem used_markFree (d : Disk) (b : Nat) : used sb (markFree sb d b) = update (used sb d) b false := by
  funext c
  unfold used
  rw [usedAt_markFree]
  by_cases hc : c = b
  · rw [hc, if_pos rfl, update_self, Bool.and_false]
  · rw [if_neg hc, update_of_ne hc]

/-- A store past the bit map is invisible to it. -/
theorem used_update (d : Disk) (hb : sb.dataStart ≤ b) (v : Block) : used sb (update d b v) = used sb d := by
  funext c
  unfold used
  by_cases hc : c < sb.size
  · have : bblock sb c < sb.dataStart := bblock_lt hc
    rw [usedAt_update v (by omega)]
  · rw [decide_eq_false hc, Bool.false_and, Bool.false_and]

theorem dinodeAt_high (d : Disk) {i : Nat} (hb : sb.bmapstart ≤ b) (hi : i < sb.ninodes) (v : Block) :
    dinodeAt sb (update d b v) i = dinodeAt sb d i := by
  have : iblock sb i < sb.bmapstart := iblock_lt hi
  exact dinodeAt_update v (by omega)

theorem took_store (hlo : sb.dataStart ≤ b) (hb : b < sb.size) (hf : usedAt sb d b = false) :
    Took sb d b (update (markUsed sb d b) b zero) where
  lo := hlo
  hi := hb
  free := by unfold used; rw [hf, Bool.and_false]
  used := by rw [used_update _ hlo, used_markUsed d hb]
  zero := update_self _ _ _
  high c hc hne := by
    have : bblock sb b < sb.dataStart := bblock_lt hb
    rw [update_of_ne hne]
    exact update_of_ne (by omega) _ _
  inode i hi := by
    have hm := bmapstart_lt_dataStart sb
    rw [dinodeAt_high _ (by omega) hi]
    exact dinodeAt_high d (bblock_ge b) hi _

theorem gave_store (hb : b < sb.size) : Gave sb d b (markFree sb d b) where
  used := used_markFree d b
  high c hc := by
    have : bblock sb b < sb.dataStart := bblock_lt hb
    exact update_of_ne (by omega) _ _
  inode i hi := dinodeAt_high d (bblock_ge b) hi _

/-! ## The files do not move -/

section

variable {d d' : Disk} {D : Nat → Dinode} {b hi : Nat} {u : Nat → Bool}

theorem ptrs_took (h : Took sb d b d') (own : Owned (ptrs d D) (used sb d) sb.dataStart hi) :
    ptrs d' D = ptrs d D := by
  have h1 := ptrs_update_unused own h.free (Nat.lt_of_lt_of_le dataStart_pos h.lo) zero
  have own1 : Owned (ptrs (update d b zero) D) (used sb d) sb.dataStart hi := by rw [h1]; exact own
  rw [← h1]
  refine ptrs_high own1 fun c hc => ?_
  by_cases he : c = b
  · rw [he, h.zero, update_self]
  · rw [h.high c hc he, update_of_ne he]

theorem byteAt_took (h : Took sb d b d') (own : Owned (ptrs d D) (used sb d) sb.dataStart hi) (j : Nat) :
    byteAt d' (D j) = byteAt d (D j) := by
  have hb0 := Nat.lt_of_lt_of_le dataStart_pos h.lo
  have own1 : Owned (ptrs (update d b zero) D) (used sb d) sb.dataStart hi := by
    rw [ptrs_update_unused own h.free hb0]; exact own
  rw [← byteAt_update_unused own h.free hb0 zero j]
  refine byteAt_high own1 (fun c hc => ?_) j
  by_cases he : c = b
  · rw [he, h.zero, update_self]
  · rw [h.high c hc he, update_of_ne he]

theorem ptrs_gave (h : Gave sb d b d') (own : Owned (ptrs d D) u sb.dataStart hi) :
    ptrs d' D = ptrs d D := ptrs_high own h.high

theorem byteAt_gave (h : Gave sb d b d') (own : Owned (ptrs d D) u sb.dataStart hi) (j : Nat) :
    byteAt d' (D j) = byteAt d (D j) := byteAt_high own h.high j

end

/-! ## Which block -/

variable (sb) in
/-- Mark block `b`, and zero it. -/
def takeBlock (b : Nat) : FsM Nat := do
  let s ← get
  store sb (bblock sb b) (setBit (s.disk (bblock sb b)) (b % bpb))
  bzero sb b
  pure b

variable (sb) in
/-- Block `b` is the first that is not marked. -/
structure FirstFree (d : Disk) (b : Nat) : Prop where
  lt : b < sb.size
  free : usedAt sb d b = false
  before : ∀ c < b, usedAt sb d c = true

/-- Bit `bi` of map block `k` is that of block `k * bpb + bi`. -/
theorem usedAt_bit (sb : Superblock) (d : Disk) (k : Nat) {bi : Nat} (hbi : bi < bpb) :
    bblock sb (k * bpb + bi) = bblock sb (k * bpb) ∧
    (k * bpb + bi) % bpb = bi ∧ usedAt sb d (k * bpb + bi) = bitAt (d (bblock sb (k * bpb))) bi := by
  have hpos : 0 < bpb := by decide
  have hblk : bblock sb (k * bpb + bi) = bblock sb (k * bpb) := by
    unfold bblock
    rw [Nat.mul_div_cancel _ hpos, Nat.mul_comm, Nat.mul_add_div hpos, Nat.div_eq_of_lt hbi, Nat.add_zero]
  have hmod : (k * bpb + bi) % bpb = bi := by
    rw [Nat.mul_comm, Nat.mul_add_mod, Nat.mod_eq_of_lt hbi]
  refine ⟨hblk, hmod, ?_⟩
  unfold usedAt
  rw [hblk, hmod]

/-- The scan takes the first block that is not marked, or finds none. -/
theorem ballocFrom_cases (s : St) (n : Nat) : ∀ k, sb.size ≤ (k + n) * bpb →
    (∀ c, c < k * bpb → c < sb.size → usedAt sb s.disk c = true) →
    (∃ b, FirstFree sb s.disk b ∧ ballocFrom sb n k s = takeBlock sb b s) ∨
    ((∀ c < sb.size, usedAt sb s.disk c = true) ∧ ballocFrom sb n k s = .ok (0, s)) := by
  induction n with
  | zero =>
    intro k hk hbelow
    rw [Nat.add_zero] at hk
    exact .inr ⟨fun c hc => hbelow c (by omega) hc, rfl⟩
  | succ n ih =>
    intro k hk hbelow
    unfold ballocFrom
    rw [run_get_bind]
    cases hfind : firstFrom (fun bi => !bitAt (s.disk (bblock sb (k * bpb))) bi) 0 (min bpb (sb.size - k * bpb)) with
    | some bi =>
      obtain ⟨-, hlt, hclear⟩ := firstFrom_some hfind
      have hbi : bi < bpb := by omega
      obtain ⟨hblk, hmod, hbit⟩ := usedAt_bit sb s.disk k hbi
      refine .inl ⟨k * bpb + bi, ⟨by omega, ?_, fun c hc => ?_⟩, ?_⟩
      · rw [hbit]
        simpa using hclear
      · by_cases hc' : c < k * bpb
        · exact hbelow c hc' (by omega)
        · -- the scan of this bit-map block has passed `c`
          obtain ⟨bj, rfl⟩ := Nat.exists_eq_add_of_le (Nat.le_of_not_lt hc')
          have hset := firstFrom_first hfind bj (Nat.zero_le _) (by omega)
          rw [(usedAt_bit sb s.disk k (by omega)).2.2]
          simpa using hset
      · change _ = (store sb (bblock sb (k * bpb + bi)) (setBit (s.disk (bblock sb (k * bpb + bi))) ((k * bpb + bi) % bpb)) >>=
          fun _ => bzero sb (k * bpb + bi) >>= fun _ => pure (k * bpb + bi)) s
        rw [hblk, hmod]
    | none =>
      refine ih (k + 1) (by rw [show k + 1 + n = k + (n + 1) by omega]; exact hk) fun c hc hsz => ?_
      by_cases hlt : c < k * bpb
      · exact hbelow c hlt hsz
      · obtain ⟨bj, rfl⟩ := Nat.exists_eq_add_of_le (Nat.le_of_not_lt hlt)
        rw [Nat.succ_mul] at hc
        have hset := firstFrom_none hfind bj (Nat.zero_le _) (by omega)
        rw [(usedAt_bit sb s.disk k (by omega)).2.2]
        simpa using hset

theorem balloc_cases (s : St) : (∃ b, FirstFree sb s.disk b ∧ balloc sb s = takeBlock sb b s) ∨
    ((∀ c < sb.size, usedAt sb s.disk c = true) ∧ balloc sb s = .ok (0, s)) := by
  refine ballocFrom_cases s _ 0 ?_ fun c hc => by omega
  rw [Nat.zero_add]
  have hpos : 0 < bpb := by decide
  have hdm := Nat.div_add_mod (sb.size + bpb - 1) bpb
  have hmod := Nat.mod_lt (sb.size + bpb - 1) hpos
  rw [Nat.mul_comm] at hdm
  omega

/-! ## The calls -/

variable {E : Stop → Prop} (hE : Tolerant E) {s : St}
include hE

section

variable (ht : 0 < s.outstanding ∨ E .outsideTrans)
include ht

theorem store_wp :
    wp E (store sb b v) (fun _ s' => s'.disk = update s.disk b v ∧ SameTab s s' ∧ ∀ c, c ∈ s'.lh ↔ c = b ∨ c ∈ s.lh) s := by
  unfold store
  rw [wp_modify_bind]
  unfold logWrite
  rw [wp_get_bind]
  split
  · exact hE.tooBig
  · split
    · rename_i h
      rcases ht with ht | ht
      · have h' : s.outstanding < 1 := h
        omega
      · exact ht
    · exact ⟨rfl, ⟨rfl, rfl, rfl⟩, fun c => mem_absorb⟩

theorem takeBlock_wp : wp E (takeBlock sb b)
    (fun r s' => r = b ∧ s'.disk = update (markUsed sb s.disk b) b zero ∧ SameTab s s' ∧ Journaled s s' ∧
      ∀ c, c ∈ s'.lh ↔ c = b ∨ c = bblock sb b ∨ c ∈ s.lh) s := by
  unfold takeBlock
  rw [wp_get_bind]
  refine wp_seq (store_wp hE ht) fun _ s1 h1 => ?_
  unfold bzero
  obtain ⟨hd1, htab1, hlog1⟩ := h1
  refine wp_seq (store_wp hE (by rw [htab1.outstanding]; exact ht)) ?_
  rintro _ s2 ⟨hd2, htab2, hlog2⟩
  refine ⟨rfl, ?_, htab1.trans htab2, (Journaled.store hd1 hlog1).trans (.store hd2 hlog2), fun c => ?_⟩
  · rw [hd2, hd1]
    rfl
  · rw [hlog2, hlog1]

theorem balloc_wp (hmeta : ∀ c, c < sb.dataStart → usedAt sb s.disk c = true) :
    wp E (balloc sb)
      (fun r s' => (r = 0 ∧ s' = s ∧ Full sb s.disk) ∨ Taken sb s r s') s := by
  rcases balloc_cases s with ⟨b, hb, hrun⟩ | ⟨hall, hrun⟩
  · refine wp_congr hrun (wp_mono (takeBlock_wp hE ht) fun r s' h => .inr ?_)
    obtain ⟨rfl, hdisk, htab, hjour, hlog⟩ := h
    have hk : Took sb s.disk r s'.disk := by
      rw [hdisk]
      refine took_store ?_ hb.lt hb.free
      by_contra hlow
      have hmark := hmeta r (Nat.lt_of_not_le hlow)
      rw [hb.free] at hmark
      cases hmark
    refine ⟨hk, htab, hjour, (hlog r).mpr (.inl rfl), fun c hlo hc => ?_⟩
    have hr : c ≠ r := by
      rintro rfl
      rw [hk.free] at hc
      cases hc
    have hb : c ≠ bblock sb r := by
      have := bblock_lt hk.hi
      omega
    rw [hlog c]
    simp [hr, hb]
  · have hpure : balloc sb s = (pure 0 : FsM Nat) s := hrun
    refine wp_congr hpure ?_
    exact .inl ⟨rfl, rfl, fun c hc => used_of_usedAt hc (hall c hc)⟩

end

theorem bfree_wp (ht : 0 < s.outstanding) (hb : used sb s.disk b = true) :
    wp E (bfree sb b) (fun _ s' => Gave sb s.disk b s'.disk ∧ SameTab s s') s := by
  unfold bfree
  rw [wp_get_bind]
  have hu : bitAt (s.disk (bblock sb b)) (b % bpb) = true := usedAt_of_used hb
  simp only [hu, Bool.not_true, Bool.false_eq_true, if_false]
  refine wp_mono (store_wp hE (Or.inl ht)) ?_
  rintro _ s' ⟨hd, htab, -⟩
  refine ⟨?_, htab⟩
  rw [hd]
  exact gave_store (used_lt hb)

end

end Xv6.Fs
