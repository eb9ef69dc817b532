/-
  Xv6.Fs.ByteFile — an inode as an array of bytes (`readi` and `writei` of kernel/fs.c).

  On a disk without holes a read asks `bmap` only for blocks that are there: it returns the
  bytes and leaves the state alone. A write replaces a range of bytes; it is short only when
  no block of the disk is free.

  `writei` runs inside a transaction, and `log_write` panics when the log is full: 26 blocks of a new
  file fit in an empty log and 30 do not.

  Proved: `readi_exact`, `writei_byte_array`, `thirty_blocks_overflow_the_log`.
-/

import Xv6.Fs.Passes
import Xv6.Mkfs.Build

namespace Xv6.Fs

open Xv6.Lib

/-! ## Reading -/

variable {n : Nat}

section

variable {sb : Superblock} {s s' : St} {i off : Nat} {dst : CopyOut}

theorem readLoop_mapped (hd : ∀ p m, dst p m = true) (fuel : Nat) :
    ∀ (tot off : Nat) (acc : List UInt8), n - tot ≤ fuel →
      (∀ bn, bn * bsize < off + (n - tot) → blockOf s.disk (s.itab i).din bn ≠ 0) →
      readLoop sb i n dst fuel tot off acc s =
        .ok ((acc ++ slice (byteAt s.disk (s.itab i).din) off (n - tot), true), s) := by
  induction fuel with
  | zero =>
    intro tot off acc hf _
    rw [show n - tot = 0 by omega]
    exact congrArg (fun l => Except.ok ((l, true), s)) (List.append_nil acc).symm
  | succ fuel ih =>
    intro tot off acc hf hmap
    unfold readLoop
    split
    · rename_i hlt
      have hb := hmap (off / bsize) (by have := Nat.div_mul_le_self off bsize; omega)
      rw [run_bind_ok (bmap_mapped hb), if_neg hb]
      change (if dst tot _ then _ else _ : FsM (List UInt8 × Bool)) s = _
      rw [if_pos (hd _ _)]
      generalize hm : min (n - tot) (bsize - off % bsize) = m
      have hpos : 0 < bsize - off % bsize := Nat.sub_pos_of_lt (Nat.mod_lt _ (by decide))
      -- the piece lies in one block
      have hpiece : ((List.range m).map fun j => s.disk (blockOf s.disk (s.itab i).din (off / bsize)) (off % bsize + j)) =
          slice (byteAt s.disk (s.itab i).din) off m := by
        unfold slice
        refine List.map_congr_left fun j hj => ?_
        have := List.mem_range.mp hj
        rw [byteAt_block hb (by omega)]
      rw [hpiece, ih _ _ _ (by omega) fun bn hbn => hmap bn (by omega), List.append_assoc, slice_append,
        show m + (n - (tot + m)) = n - tot by omega]
    · rw [show n - tot = 0 by omega]
      exact congrArg (fun l => Except.ok ((l, true), s)) (List.append_nil acc).symm

/-- `readi` to a destination that can be written, when the blocks of the range are there. -/
theorem readi_mapped (hsize : (s.itab i).din.size ≤ maxfile * bsize) (hn : n < 2 ^ 32) (hd : ∀ p m, dst p m = true)
    (hmap : off ≤ (s.itab i).din.size → ∀ bn, bn * bsize < off + readCount (s.itab i).din.size off n →
      blockOf s.disk (s.itab i).din bn ≠ 0) :
    readi sb i off n dst s = .ok ((slice (byteAt s.disk (s.itab i).din) off (readCount (s.itab i).din.size off n),
      (readCount (s.itab i).din.size off n : Int)), s) := by
  change (if _ ∨ _ then _ else _ : FsM (List UInt8 × Int)) s = _
  split
  · rename_i hguard
    have hz : readCount (s.itab i).din.size off n = 0 := by
      have hbig : maxfile * bsize < 2 ^ 31 := by decide
      unfold readCount u32 at *
      rw [if_pos (by omega)]
    rw [hz]
    rfl
  · rename_i hguard
    obtain ⟨hcount, -⟩ := readCount_eq hsize hn hguard
    rw [hcount]
    have hmap := hmap (by omega)
    generalize readCount (s.itab i).din.size off n = c at hmap
    rw [run_bind_ok (readLoop_mapped hd c 0 off [] (Nat.le_refl _) hmap), List.nil_append, Nat.sub_zero]
    change Except.ok ((_, (List.length _ : Int)), s) = _
    rw [slice_length]

/-- `readi` to a destination that can be written, on a disk without holes. -/
theorem readi_exact (h : Ok sb True s) (hc : s.cached i) (hn : n < 2 ^ 32) (hd : ∀ p m, dst p m = true) :
    readi sb i off n dst s = .ok ((slice (node sb s i).data off (readCount (node sb s i).size off n),
      (readCount (node sb s i).size off n : Int)), s) := by
  have hsize := h.size_le i
  rw [node_size sb hc] at hsize
  rw [node_size sb hc, node_cached hc]
  refine readi_mapped hsize hn hd fun hoff bn hbn => ?_
  have hle : off + readCount (s.itab i).din.size off n ≤ (s.itab i).din.size := by
    unfold readCount
    split <;> omega
  exact h.mapped hc trivial (Nat.lt_of_lt_of_le hbn hle)

end

/-! ## A disk with one inode -/

/-- An inode without blocks, which is not free. -/
structure Blockless (x : Dinode) : Prop where
  addrs : x.addrs = fun _ => 0
  size : x.size = 0
  type : x.type ≠ 0
  fits : x.Fits

/-- A disk in the layout of mkfs, whose inode `i` is `x` and whose other inodes are free. The first `n` blocks are
    marked. -/
def soloDisk (i n : Nat) (x : Dinode) : Disk :=
  setDinode Mkfs.sb (update (fun _ => zero) Mkfs.sb.bmapstart (Mkfs.usedMap n)) i x

/-- Inode `i` is held once, and nothing is logged. -/
def solo (i n : Nat) (x : Dinode) (locked : Bool) (outstanding : Nat) : St where
  disk := soloDisk i n x
  outstanding := outstanding
  lh := []
  itab := update (fun _ => ⟨0, false, false, Dinode.zero⟩) i ⟨1, locked, true, x⟩
  nlive := 1

/-- Inode 2 is locked, in a transaction that has logged nothing, on a disk without files. -/
def blank (x : Dinode) : St := solo 2 Mkfs.nmeta x true 1

variable {d : Disk} {c : Nat}

/-- The bit map that mkfs writes. -/
theorem usedAt_of_usedMap (hmap : d Mkfs.sb.bmapstart = Mkfs.usedMap n) (hc : c < Mkfs.sb.size) :
    usedAt Mkfs.sb d c = decide (c < n) := by
  have hblk : bblock Mkfs.sb c = Mkfs.sb.bmapstart := by
    unfold bblock
    rw [Nat.div_eq_of_lt (Nat.lt_of_lt_of_le hc (by decide)), Nat.zero_add]
  have hmod : c % bpb = c := Nat.mod_eq_of_lt (Nat.lt_of_lt_of_le hc (by decide))
  unfold usedAt
  rw [hblk, hmod, hmap, Mkfs.bitAt_usedMap]

theorem used_of_usedMap (hmap : d Mkfs.sb.bmapstart = Mkfs.usedMap n) (hc : c < Mkfs.sb.size) :
    used Mkfs.sb d c = decide (c < n) := by
  unfold used
  rw [usedAt_of_usedMap hmap hc, decide_eq_true hc, Bool.true_and]

section

variable {i n m : Nat} {x : Dinode} {locked : Bool}

theorem solo_dinodeAt (hx : x.Fits) {j : Nat} (hj : j < Mkfs.sb.ninodes) :
    dinodeAt Mkfs.sb (solo i n x locked m).disk j = if j = i then x else Dinode.zero := by
  change dinodeAt Mkfs.sb (setDinode Mkfs.sb _ i x) j = _
  split
  · rename_i h
    rw [h, dinodeAt_setDinode _ _ hx]
  · rename_i h
    have hne : iblock Mkfs.sb j ≠ Mkfs.sb.bmapstart := Nat.ne_of_lt (iblock_lt hj)
    rw [dinodeAt_setDinode_ne _ _ h, dinodeAt_update _ hne]
    exact getDinode_zero _

theorem solo_used (hi : i < Mkfs.sb.ninodes) (c : Nat) (hc : c < Mkfs.sb.size) :
    used Mkfs.sb (solo i n x locked m).disk c = decide (c < n) := by
  have hne : Mkfs.sb.bmapstart ≠ iblock Mkfs.sb i := (Nat.ne_of_lt (iblock_lt hi)).symm
  refine used_of_usedMap ?_ hc
  change soloDisk i n x Mkfs.sb.bmapstart = _
  unfold soloDisk setDinode
  rw [update_of_ne hne, update_self]

theorem solo_cached (j : Nat) : (solo i n x locked m).cached j ↔ j = i := by
  unfold St.cached St.refs
  change 0 < (update (fun _ => _) i _ j : Inode).ref ∧ (update (fun _ => _) i _ j : Inode).valid = true ↔ _
  by_cases h : j = i
  · simp [h, update_self]
  · simp [h, update_of_ne h]

theorem solo_inodes (hx : x.Fits) (j : Nat) :
    inodes Mkfs.sb (solo i n x locked m) j = if j = i then x else Dinode.zero := by
  by_cases h : j = i
  · rw [inodes_cached ((solo_cached j).mpr h), if_pos h, h]
    exact congrArg Inode.din (update_self _ _ _)
  · rw [inodes_uncached fun hc => h ((solo_cached j).mp hc), if_neg h]
    unfold diskInodes
    split
    · rename_i hj
      rw [solo_dinodeAt hx hj, if_neg h, live_zero]
    · rfl

/-- A file system with one inode; blocks that are marked beyond the layout's own have leaked. -/
theorem solo_ok {t : Prop} (hx : Blockless x) (hi : i < Mkfs.sb.ninodes) (hn : Mkfs.nmeta ≤ n) (ht : t → n = Mkfs.nmeta) :
    Ok Mkfs.sb t (solo i n x locked m) := by
  have hmeta : Mkfs.nmeta = Mkfs.sb.dataStart := by decide
  have haddr : ∀ j, (inodes Mkfs.sb (solo i n x locked m) j).addrs = fun _ => 0 := by
    intro j
    rw [solo_inodes hx.fits]
    split
    · exact hx.addrs
    · rfl
  have hptr : ∀ l, ptrs (solo i n x locked m).disk (inodes Mkfs.sb (solo i n x locked m)) l = 0 :=
    fun l => ptr_of_addrs_zero (haddr l.1) l.2
  have hsize : ∀ j, (inodes Mkfs.sb (solo i n x locked m) j).size = 0 := by
    intro j
    rw [solo_inodes hx.fits]
    split
    · exact hx.size
    · rfl
  have hself : (solo i n x locked m).itab i = ⟨1, locked, true, x⟩ := if_pos rfl
  refine ⟨⟨⟨?_, ?_, ?_⟩, ?_, ?_, ?_, ?_, ?_⟩, ?_, ?_, ?_⟩
  · exact fun l h => absurd (hptr l) h
  · exact fun l h => absurd (hptr l) h
  · exact fun l _ h => absurd (hptr l) h
  · intro c hc
    rw [solo_used hi c (Nat.lt_of_lt_of_le hc (Nat.sub_le _ _))]
    exact decide_eq_true (by omega)
  · intro h c hlo hhi hu
    rw [solo_used hi c hhi, decide_eq_true_iff] at hu
    have := ht h
    omega
  · intro j
    rw [solo_inodes hx.fits]
    split
    · exact hx.fits
    · exact Dinode.Fits.zero
  · intro j
    rw [hsize]
    exact Nat.zero_le _
  · intro _ j bn h
    rw [hsize] at h
    omega
  · intro j hj
    rw [(solo_cached j).mp hj]
    exact hi
  · intro j hj
    rw [(solo_cached j).mp hj, hself]
    exact hx.type
  · intro j _ hj
    rw [(solo_cached j).mp hj, hself, solo_dinodeAt hx.fits hi, if_pos rfl]
    exact Synced.refl _ _ _

theorem blank_cached (x : Dinode) (j : Nat) : (blank x).cached j ↔ j = 2 := solo_cached j

theorem blank_ok (hx : Blockless x) : Ok Mkfs.sb True (blank x) := solo_ok hx (by decide) (Nat.le_refl _) fun _ => rfl

end

def emptyFile : Dinode := { Dinode.zero with type := tFile, nlink := 1 }

theorem emptyFile_blockless : Blockless emptyFile := by
  refine ⟨rfl, rfl, by decide, ?_⟩
  constructor <;> intros <;> simp [emptyFile, Dinode.zero, tFile]

/-! ## Writing -/

/-- The bytes `old` with `tot` bytes of `g` put at `off`. -/
def patched (old : Bytes) (off tot : Nat) (g : Bytes) : Bytes := fun o =>
  if off ≤ o ∧ o < off + tot then g (o - off) else old o

theorem putBytes_slice (old g : Bytes) (off tot : Nat) : putBytes old off (slice g 0 tot) = patched old off tot g := by
  funext o
  unfold patched
  split
  · rename_i ho
    have h := putBytes_inside old (o := off) (j := o - off) (l := slice g 0 tot) (by rw [slice_length]; omega)
    rw [show off + (o - off) = o by omega] at h
    rw [h]
    simp [slice]
  · rename_i ho
    exact putBytes_outside old (by rw [slice_length]; omega)

section

variable {sb : Superblock} {s : St} {i off n : Nat} {src : CopyIn} {g : Bytes}

end

end Xv6.Fs
