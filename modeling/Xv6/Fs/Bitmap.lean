/-
  Xv6.Fs.Bitmap — the block allocator and its bit map (kernel/fs.c: `balloc`, `bfree`, `bzero`;
  kernel/fs.h: `BPB`, `BBLOCK`).

  The bit of block `b` is bit `b % BPB` of map block `b / BPB`. `balloc` scans the bits below
  `sb.size`, marks the first that is clear, and then zeroes the block. It does not look at what the
  block is for: if the map's own blocks are not marked it takes one of them and wipes the bits in it
  (`balloc_wipes_the_map`), so the result asks for those to be marked, as they are on every disk that
  `mkfs` makes.

  The calls are made inside a transaction with room in the log for the blocks they write.

  Proved: `balloc_takes_the_first_block`.
-/

import Xv6.Fs.ByteFile

namespace Xv6.Fs

open Xv6.Lib

/-- Bit `c` is in a block of the bit map. -/
def InMap (sb : Superblock) (c : Nat) : Prop := c < (sb.size / bpb + 1) * bpb

/-- The blocks of the bit map are marked. -/
def MapMarked (sb : Superblock) (d : Disk) : Prop :=
  ∀ c, sb.bmapstart ≤ c → c < sb.bmapstart + (sb.size / bpb + 1) → usedAt sb d c = true

/-- Block `b` has been allocated: the first that was free, marked and zeroed. -/
structure Allocated (sb : Superblock) (s : St) (b : Nat) (s' : St) : Prop where
  first : FirstFree sb s.disk b
  bits : ∀ c, InMap sb c → usedAt sb s'.disk c = if c = b then true else usedAt sb s.disk c
  zero : s'.disk b = zero
  others : ∀ c, c ≠ b → c ≠ bblock sb b → s'.disk c = s.disk c
  rest : SameTab s s'

/-- Block `b` has been freed. -/
structure Released (sb : Superblock) (s : St) (b : Nat) (s' : St) : Prop where
  bits : ∀ c, usedAt sb s'.disk c = if c = b then false else usedAt sb s.disk c
  others : ∀ c, c ≠ bblock sb b → s'.disk c = s.disk c
  rest : SameTab s s'

section

variable {sb : Superblock} {s s' : St} {b : Nat}

theorem bblock_inMap {c : Nat} (hc : InMap sb c) : sb.bmapstart ≤ bblock sb c ∧
    bblock sb c < sb.bmapstart + (sb.size / bpb + 1) := by
  have hdiv : c / bpb < sb.size / bpb + 1 := Nat.div_lt_of_lt_mul (Nat.mul_comm _ _ ▸ hc)
  refine ⟨bblock_ge c, ?_⟩
  rw [bblock, Nat.add_comm]
  exact Nat.add_lt_add_left hdiv _

theorem Allocated.of_take (hfirst : FirstFree sb s.disk b) (hmap : MapMarked sb s.disk)
    (hdisk : s'.disk = update (markUsed sb s.disk b) b Lib.zero) (htab : SameTab s s') : Allocated sb s b s' := by
  refine ⟨hfirst, fun c hc => ?_, ?_, fun c hc hblk => ?_, htab⟩
  · -- the block is not one of the map's, which are marked
    have hne : bblock sb c ≠ b := by
      rintro rfl
      obtain ⟨hlo, hhi⟩ := bblock_inMap hc
      have hmark := hmap _ hlo hhi
      rw [hfirst.free] at hmark
      cases hmark
    rw [hdisk, usedAt_update _ hne, usedAt_markUsed]
  · rw [hdisk, update_self]
  · rw [hdisk, update_of_ne hc]
    exact update_of_ne hblk _ _

theorem bfree_releases (hin : 0 < s.outstanding) (hroom : s.lh.length + 1 ≤ logRoom sb) (hb : usedAt sb s.disk b = true) :
    ∃ s', bfree sb b s = .ok ((), s') ∧ Released sb s b s' := by
  have hrun := (store_passes s (bblock sb b) (clearBit (s.disk (bblock sb b)) (b % bpb))).finishes hin hroom
  obtain ⟨hdisk, htab, -⟩ := (store_wp tolerant_any (.inr trivial)).ok hrun
  refine ⟨_, ?_, fun c => ?_, fun c hc => ?_, htab⟩
  · change (if !bitAt (s.disk (bblock sb b)) (b % bpb) then throw .freeingFreeBlock
      else store sb (bblock sb b) (clearBit (s.disk (bblock sb b)) (b % bpb)) : FsM Unit) s = _
    have hbit : bitAt (s.disk (bblock sb b)) (b % bpb) = true := hb
    rw [hbit]
    exact hrun
  · rw [hdisk]
    exact usedAt_markFree s.disk b c
  · rw [hdisk, update_of_ne hc]

/-- `balloc` takes the first free block and nothing else, or there is none; `bfree` undoes it. -/
theorem balloc_takes_the_first_block (hin : 0 < s.outstanding) (hroom : s.lh.length + 3 ≤ logRoom sb)
    (h0 : usedAt sb s.disk 0 = true) (hmap : MapMarked sb s.disk) :
    (∃ r s', balloc sb s = .ok (r, s') ∧
      (r = 0 ∧ s' = s ↔ ∀ c, 1 ≤ c → c < sb.size → usedAt sb s.disk c = true) ∧
      ((∃ c, 1 ≤ c ∧ c < sb.size ∧ usedAt sb s.disk c = false) → Allocated sb s r s' ∧
        ∃ s'', bfree sb r s' = .ok ((), s'') ∧ ∀ c, InMap sb c → usedAt sb s''.disk c = usedAt sb s.disk c)) ∧
    ∀ b, usedAt sb s.disk b = true → ∃ s', bfree sb b s = .ok ((), s') ∧ Released sb s b s' := by
  refine ⟨?_, fun b hb => bfree_releases hin (by omega) hb⟩
  obtain ⟨r, t, l, hpass, -, hcost⟩ := balloc_passes sb s
  have htwo := hcost.length
  have hrun := hpass.finishes hin (by omega)
  obtain ⟨s', hs⟩ : ∃ s', s' = { t with lh := l.foldl Log.Group.absorb s.lh } := ⟨_, rfl⟩
  have hlog : s'.lh.length ≤ s.lh.length + l.length := hs ▸ foldl_absorb_length l s.lh
  have hout : s'.outstanding = s.outstanding := hs ▸ hpass.outstanding
  rw [← hs] at hrun
  refine ⟨r, s', hrun, ?_⟩
  have hcases : _ ∨ _ ∧ balloc sb s = .ok (0, s) := balloc_cases s
  rcases hcases with ⟨b, hfirst, htake⟩ | ⟨hall, hnone⟩
  · obtain ⟨rfl, hdisk, htab, -⟩ := (takeBlock_wp tolerant_any (.inr trivial)).ok (htake.symm.trans hrun)
    have hpos : 1 ≤ r := by
      by_contra hzero
      obtain rfl : r = 0 := by omega
      have hfree := hfirst.free
      rw [h0] at hfree
      cases hfree
    have halloc := Allocated.of_take hfirst hmap hdisk htab
    have hin_map : InMap sb r := by
      have hdm := Nat.div_add_mod sb.size bpb
      have hmod := Nat.mod_lt sb.size (show 0 < bpb by decide)
      have hlt := hfirst.lt
      unfold InMap
      rw [Nat.add_mul, Nat.mul_comm]
      omega
    refine ⟨iff_of_false (fun h => by omega) fun hall => ?_, fun _ => ⟨halloc, ?_⟩⟩
    · have hmark := hall r hpos hfirst.lt
      rw [hfirst.free] at hmark
      cases hmark
    · have hmark : usedAt sb s'.disk r = true := by rw [halloc.bits r hin_map, if_pos rfl]
      obtain ⟨s'', hfree, hrel⟩ := bfree_releases (by omega) (by omega) hmark
      refine ⟨s'', hfree, fun c hc => ?_⟩
      rw [hrel.bits, halloc.bits c hc]
      by_cases he : c = r
      · rw [if_pos he, he, hfirst.free]
      · rw [if_neg he, if_neg he]
  · obtain ⟨rfl, rfl⟩ : r = 0 ∧ s' = s := by
      rw [hnone] at hrun
      cases hrun
      exact ⟨rfl, rfl⟩
    refine ⟨iff_of_true ⟨rfl, rfl⟩ fun c _ hc => hall c hc, fun h => ?_⟩
    obtain ⟨c, -, hc, hfree⟩ := h
    rw [hall c hc] at hfree
    cases hfree

end

/-- A disk of zeros whose map has the first `n` blocks marked, in a transaction that has written nothing. -/
def marked (n : Nat) : St :=
  ⟨update (fun _ => zero) Mkfs.sb.bmapstart (Mkfs.usedMap n), 1, [], fun _ => ⟨0, false, false, Dinode.zero⟩, 0⟩

theorem marked_usedAt (n : Nat) {c : Nat} (hc : c < Mkfs.sb.size) : usedAt Mkfs.sb (marked n).disk c = decide (c < n) := by
  have hmap : (marked n).disk Mkfs.sb.bmapstart = Mkfs.usedMap n := by
    change update (fun _ => zero) Mkfs.sb.bmapstart (Mkfs.usedMap n) Mkfs.sb.bmapstart = _
    rw [update_self]
  exact usedAt_of_usedMap hmap hc

/-- With the blocks before the data marked, as `mkfs` leaves them. -/
theorem balloc_takes_the_first_block_marked : MapMarked Mkfs.sb (marked Mkfs.nmeta).disk ∧
    ∃ r s', balloc Mkfs.sb (marked Mkfs.nmeta) = .ok (r, s') ∧ Allocated Mkfs.sb (marked Mkfs.nmeta) r s' := by
  have hmark : ∀ c < Mkfs.nmeta, usedAt Mkfs.sb (marked Mkfs.nmeta).disk c = true := fun c hc => by
    rw [marked_usedAt _ (Nat.lt_of_lt_of_le hc (by decide)), decide_eq_true hc]
  have hmap : MapMarked Mkfs.sb (marked Mkfs.nmeta).disk := fun c _ hc => hmark c (Nat.lt_of_lt_of_le hc (by decide))
  have hfree : usedAt Mkfs.sb (marked Mkfs.nmeta).disk Mkfs.nmeta = false := by
    rw [marked_usedAt _ (by decide), decide_eq_false (Nat.lt_irrefl _)]
  obtain ⟨⟨r, s', hrun, -, hsome⟩, -⟩ := balloc_takes_the_first_block (show 0 < (marked Mkfs.nmeta).outstanding by decide)
    (show (marked Mkfs.nmeta).lh.length + 3 ≤ logRoom Mkfs.sb by decide) (hmark 0 (by decide)) hmap
  exact ⟨hmap, r, s', hrun, (hsome ⟨Mkfs.nmeta, by decide, by decide, hfree⟩).1⟩

/-- The first block that is not marked is the map's: `balloc` returns it, and has wiped the bit of block 0. -/
theorem balloc_wipes_the_map : ∃ s r s', 0 < s.outstanding ∧ s.lh = [] ∧ usedAt Mkfs.sb s.disk 0 = true ∧
    balloc Mkfs.sb s = .ok (r, s') ∧ r ≠ 0 ∧ usedAt Mkfs.sb s'.disk 0 = false := by
  have hmark : ∀ {c}, c < Mkfs.sb.size → usedAt Mkfs.sb (marked Mkfs.sb.bmapstart).disk c = decide (c < Mkfs.sb.bmapstart) :=
    marked_usedAt _
  obtain ⟨r, t, l, hpass, -, hcost⟩ := balloc_passes Mkfs.sb (marked Mkfs.sb.bmapstart)
  have hrun := hpass.finishes (show 0 < (marked Mkfs.sb.bmapstart).outstanding by decide)
    (Nat.le_trans (Nat.add_le_add_left hcost.length _) (by decide))
  have hcases : _ ∨ _ ∧ balloc Mkfs.sb (marked Mkfs.sb.bmapstart) = .ok (0, marked Mkfs.sb.bmapstart) := balloc_cases _
  rcases hcases with ⟨b, hfirst, htake⟩ | ⟨hall, -⟩
  · obtain ⟨rfl, hdisk, -⟩ := (takeBlock_wp tolerant_any (.inr trivial)).ok (htake.symm.trans hrun)
    obtain rfl : r = Mkfs.sb.bmapstart := by
      have hfree := hfirst.free
      rw [hmark hfirst.lt, decide_eq_false_iff_not] at hfree
      by_contra hne
      have hmark' := hfirst.before Mkfs.sb.bmapstart (by omega)
      rw [hmark (by decide)] at hmark'
      exact absurd hmark' (by decide)
    refine ⟨_, _, _, by decide, rfl, ?_, hrun, by decide, ?_⟩
    · rw [hmark (by decide)]
      decide
    · have hblk : bblock Mkfs.sb 0 = Mkfs.sb.bmapstart := by decide
      rw [hdisk, usedAt, hblk, update_self]
      decide
  · have hfull := hall Mkfs.sb.bmapstart (by decide)
    rw [hmark (by decide)] at hfull
    exact absurd hfull (by decide)

end Xv6.Fs
