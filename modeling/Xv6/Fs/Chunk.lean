/-
  Xv6.Fs.Chunk — the blocks that one transaction of `filewrite` logs (kernel/file.c: `filewrite`;
  kernel/fs.c: `writei`, `bmap`, `balloc`, `iupdate`).

  A block that `writei` goes through costs the block itself and, when it is new, the block of the bit
  map that holds its bit, which may be a different one each time. The indirect block and its map block
  are paid once, and so is the inode's block. A write of three blocks' length that does not start at a
  block boundary goes through four, but the first of them is mapped already, since the offset is not
  past the end of the file: that makes ten.

  Proved: `write_chunk_fits`.
-/

import Xv6.Fs.Bitmap
import Xv6.Fs.Sysfile

namespace Xv6.Fs

open Xv6.Lib
open Xv6.Log.Group (absorb)

section

variable {sb : Superblock} {s t : St} {l : List Nat}

/-- Blocks of `D`, and one more. -/
theorem card_le_cover {D : List Nat} (h : ∀ c ∈ l, c ∈ D) (b : Nat) : (l ++ [b]).toFinset.card ≤ D.length + 1 := by
  have hsub : (l ++ [b]).toFinset ⊆ (D ++ [b]).toFinset := by
    intro c hc
    rw [List.mem_toFinset, List.mem_append] at hc ⊢
    exact hc.imp_left (h c)
  exact Nat.le_trans (Finset.card_le_card hsub) (Nat.le_trans (List.toFinset_card_le _) (by simp))

/-- The `writei` of one transaction of `filewrite` logs at most `MAXOPBLOCKS` different blocks. -/
theorem write_chunk_fits {i off n : Nat} (src : CopyIn) (hn : n ≤ writeMax)
    (hmap : ∀ bn, bn * bsize < (s.itab i).din.size → blockOf s.disk (s.itab i).din bn ≠ 0) :
    ∃ r t l, Passes sb (writei sb i off n src) s r t l ∧ l.toFinset.card ≤ maxopblocks := by
  have hmax : writeMax = 3 * 1024 := rfl
  rw [hmax] at hn
  by_cases hoff : (s.itab i).din.size < off ∨ u32 (off + n) < off
  · exact ⟨-1, s, [], writei_refused_passes (.inl hoff), Nat.zero_le _⟩
  by_cases hend : maxfile * bsize < off + n
  · exact ⟨-1, s, [], writei_refused_passes (.inr hend), Nat.zero_le _⟩
  by_cases haligned : off % bsize = 0 ∨ n = 0
  · obtain ⟨r, t, l, A, hloop, hlen, hcost⟩ := writeLoop_passes sb i n src n 0 off s
      (by rw [Nat.sub_zero]; exact Nat.le_of_not_lt hend)
    obtain ⟨u, hpass⟩ := writei_passes hoff hend hloop
    have hthree : touched off (n - 0) ≤ 3 := by
      unfold touched bsize at *
      split
      · omega
      · omega
    refine ⟨r, u, l ++ [iblock sb i], hpass, Nat.le_trans (card_le_cover (fun c hc => hcost.mem_pairs hc) _) ?_⟩
    rw [show maxopblocks = 10 from rfl, length_flatMap_pair, List.length_append, List.length_singleton]
    omega
  · -- the first block is mapped, and the rest starts at a block boundary
    obtain ⟨n', rfl⟩ : ∃ n', n = n' + 1 := ⟨n - 1, by omega⟩
    have hfirst : blockOf s.disk (s.itab i).din (off / bsize) ≠ 0 := by
      refine hmap _ ?_
      have hdm := Nat.div_add_mod off bsize
      rw [Nat.mul_comm] at hdm
      omega
    generalize hk : min (n' + 1 - 0) (bsize - off % bsize) = k
    have hmapped : Passes sb (bmap sb i (off / bsize)) s _ s [] := bmap_mapped_passes hfirst
    have hround := writeLoop_round src n' (Nat.succ_pos n') hk hmapped hfirst
    rcases hround with ⟨t', htab, hround⟩ | ⟨u, htab, hround⟩
    · obtain ⟨r, t, l, A, hloop, hlen, hcost⟩ := writeLoop_passes sb i (n' + 1) src n' (0 + k) (off + k) t' (by omega)
      obtain ⟨u, hpass⟩ := writei_passes hoff hend (hround r t l hloop)
      have hthree : touched (off + k) (n' + 1 - (0 + k)) ≤ 3 := by
        unfold touched bsize at *
        split
        · omega
        · omega
      refine ⟨r, u, _, hpass, Nat.le_trans (card_le_cover (D := blockOf s.disk (s.itab i).din (off / bsize) ::
        (A ++ [indOf t i]).flatMap fun a => [a, bblock sb a]) (fun c hc => ?_) _) ?_⟩
      · exact List.mem_cons.mpr ((List.mem_cons.mp hc).imp_right fun hc => hcost.mem_pairs hc)
      · rw [show maxopblocks = 10 from rfl, List.length_cons, length_flatMap_pair, List.length_append, List.length_singleton]
        omega
    · obtain ⟨u', hpass⟩ := writei_passes hoff hend hround
      exact ⟨_, u', _, hpass, Nat.le_trans (List.toFinset_card_le _) (show 1 ≤ maxopblocks by decide)⟩

end

/-- A file that has its direct blocks and no other, on a disk whose first 64 blocks are in use. -/
def directFile : Dinode :=
  { Dinode.zero with type := tFile, nlink := 1, size := 12 * bsize - 2, addrs :=
    fun j => if j.val < 12 then Mkfs.nmeta + j else 0 }

def directState : St :=
  ⟨update (fun _ => zero) Mkfs.sb.bmapstart fun j => if j < 8 then 255 else 0, 1, [],
    update (fun _ => ⟨0, false, false, Dinode.zero⟩) 2 ⟨1, true, true, directFile⟩, 0⟩

/-- Two bytes go to the last direct block and three to the first block after it, which comes with the indirect block: 57 and
65 are the blocks written, 45 is the map, 64 the indirect block and 32 the inode's. -/
theorem write_chunk_fits_indirect : ∃ t l,
    Passes Mkfs.sb (writei Mkfs.sb 2 (12 * bsize - 2) 5 (CopyIn.kernel [1, 2, 3, 4, 5])) directState 5 t l ∧
    l.foldl absorb [] = [57, 45, 64, 65, 32] ∧ l.toFinset.card ≤ maxopblocks := by
  have hmap : ∀ bn, bn * bsize < (directState.itab 2).din.size → blockOf directState.disk (directState.itab 2).din bn ≠ 0 := by
    have hall : ∀ bn < 12, blockOf directState.disk (directState.itab 2).din bn ≠ 0 := by decide
    intro bn hbn
    refine hall bn ?_
    have hsize : (directState.itab 2).din.size = 12 * 1024 - 2 := rfl
    unfold bsize at hbn
    omega
  obtain ⟨r, t, l, hpass, hcard⟩ := write_chunk_fits (CopyIn.kernel [1, 2, 3, 4, 5]) (show 5 ≤ writeMax by decide) hmap
  have hrun : writei Mkfs.sb 2 (12 * bsize - 2) 5 (CopyIn.kernel [1, 2, 3, 4, 5]) directState = _ := hpass.run Nat.one_pos []
  have hcomp : (writei Mkfs.sb 2 (12 * bsize - 2) 5 (CopyIn.kernel [1, 2, 3, 4, 5]) directState).toOption.map
      (fun p => (p.1, p.2.lh)) = some (5, [57, 45, 64, 65, 32]) := by decide +kernel
  rw [hrun] at hcomp
  split at hcomp
  next =>
    obtain ⟨rfl, hlog⟩ := Prod.ext_iff.mp (Option.some.inj hcomp)
    exact ⟨t, l, hpass, hlog, hcard⟩
  next => cases hcomp

end Xv6.Fs
