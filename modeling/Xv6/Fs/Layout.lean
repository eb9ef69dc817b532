/-
  Xv6.Fs.Layout — the on-disk format (kernel/fs.h): the superblock's regions, inodes
  packed `ipb` to a block, the free bit map, and the file blocks an inode names directly or
  through its indirect block.

  Every view below reads raw blocks. A store into one region is invisible to the views of
  the other regions, because the superblock's regions follow each other on the disk.

  Proved:
  - `getDinode_putDinode`, `getDinode_putDinode_ne`: an inode stored is the inode read back,
    and its neighbours in the block keep theirs.
  - `bitAt_setBit`, `bitAt_clearBit`: the bit map's two updates change one bit.
  - `dinodeAt_*`, `usedAt_*`: which stores each view of the disk sees.
-/

import Xv6.Param
import Xv6.Lib.Update
import Mathlib.Tactic.Ring
import Mathlib.Data.Nat.Bitwise

namespace Xv6.Fs

open Xv6.Lib

def ndirect : Nat := 12
def nindirect : Nat := bsize / 4
def maxfile : Nat := ndirect + nindirect
/-- Inodes per block. -/
def ipb : Nat := bsize / 64
/-- Bit-map bits per block. -/
def bpb : Nat := bsize * 8
def dirsiz : Nat := 14
def rootino : Nat := 1

def tDir : Nat := 1
def tFile : Nat := 2
def tDevice : Nat := 3

/-- The super block, with the disk layout it describes: boot block, super block, log, inode
    blocks, bit map, and the last `nblocks` blocks for data. -/
structure Superblock where
  size : Nat
  nblocks : Nat
  ninodes : Nat
  nlog : Nat
  logstart : Nat
  inodestart : Nat
  bmapstart : Nat
  log_ge : 2 ≤ logstart
  inode_ge : logstart + nlog ≤ inodestart
  bmap_ge : inodestart + (ninodes / ipb + 1) ≤ bmapstart
  data_ge : bmapstart + (size / bpb + 1) ≤ size - nblocks
  nblocks_le : nblocks ≤ size
  size_lt : size + bpb ≤ 2 ^ 31

/-- The first data block. -/
def Superblock.dataStart (sb : Superblock) : Nat := sb.size - sb.nblocks

/-! ## Inodes -/

/-- `struct dinode`; each field holds its unsigned value. -/
@[ext] structure Dinode where
  type : Nat
  major : Nat
  minor : Nat
  nlink : Nat
  size : Nat
  addrs : Fin 13 → Nat

namespace Dinode

def zero : Dinode := ⟨0, 0, 0, 0, 0, fun _ => 0⟩

/-- Each field fits its width: `short`s, then `uint`s. -/
structure Fits (d : Dinode) : Prop where
  type : d.type < 65536
  major : d.major < 65536
  minor : d.minor < 65536
  nlink : d.nlink < 65536
  size : d.size < 2 ^ 32
  addrs : ∀ k, d.addrs k < 2 ^ 32

theorem Fits.zero : Dinode.zero.Fits := by constructor <;> intros <;> simp [Dinode.zero]

end Dinode

/-- Byte `i` of a little-endian number. -/
def byteOf (v i : Nat) : UInt8 := UInt8.ofNat (v / 256 ^ i)

def Dinode.byte (d : Dinode) (o : Nat) : UInt8 :=
  if o < 2 then byteOf d.type o
  else if o < 4 then byteOf d.major (o - 2)
  else if o < 6 then byteOf d.minor (o - 4)
  else if o < 8 then byteOf d.nlink (o - 6)
  else if o < 12 then byteOf d.size (o - 8)
  else if h : (o - 12) / 4 < 13 then byteOf (d.addrs ⟨(o - 12) / 4, h⟩) ((o - 12) % 4)
  else 0

/-- `dip->addrs` of a `struct dinode` at offset `o`. -/
def addrTable (b : Block) (o : Nat) : List Nat := (List.range 13).map fun j => le32 b (o + 12 + 4 * j)

/-- `((struct dinode*)buf)[k]`. -/
def getDinode (b : Block) (k : Nat) : Dinode where
  type := le16 b (64 * k)
  major := le16 b (64 * k + 2)
  minor := le16 b (64 * k + 4)
  nlink := le16 b (64 * k + 6)
  size := le32 b (64 * k + 8)
  addrs j := (addrTable b (64 * k)).getD j 0

def putDinode (b : Block) (k : Nat) (d : Dinode) : Block := fun o =>
  if o / 64 = k then d.byte (o % 64) else b o

theorem getDinode_addrs (b : Block) (k : Nat) (j : Fin 13) :
    (getDinode b k).addrs j = le32 b (64 * k + 12 + 4 * j) := by
  simp [getDinode, addrTable]

theorem getDinode_zero (k : Nat) : getDinode zero k = Dinode.zero := by
  ext
  · rfl
  · rfl
  · rfl
  · rfl
  · rfl
  · rw [getDinode_addrs]
    rfl

theorem getDinode_fits (b : Block) (k : Nat) : (getDinode b k).Fits where
  type := le16_lt _ _
  major := le16_lt _ _
  minor := le16_lt _ _
  nlink := le16_lt _ _
  size := le32_lt _ _
  addrs j := by rw [getDinode_addrs]; exact le32_lt _ _

variable {o : Nat}

theorem putDinode_in (b : Block) (k : Nat) (d : Dinode) (h : o < 64) :
    putDinode b k d (64 * k + o) = d.byte o := by
  have h1 : (64 * k + o) / 64 = k := by omega
  have h2 : (64 * k + o) % 64 = o := by omega
  simp only [putDinode, h1, h2, if_true]

variable {k j : Nat}

theorem putDinode_out (b : Block) (d : Dinode) (h : j ≠ k) (ho : o < 64) :
    putDinode b k d (64 * j + o) = b (64 * j + o) := by
  have h1 : (64 * j + o) / 64 ≠ k := by omega
  simp only [putDinode, h1, if_false]

theorem byteOf_toNat (v i : Nat) : (byteOf v i).toNat = v / 256 ^ i % 256 := by
  simp [byteOf, UInt8.toNat_ofNat']

variable {i : Nat}

theorem byte_addrs (d : Dinode) (j : Fin 13) (hi : i < 4) :
    d.byte (12 + 4 * j + i) = byteOf (d.addrs j) i := by
  have h2 : (12 + 4 * (j : Nat) + i - 12) / 4 = j := by omega
  have h3 : (12 + 4 * (j : Nat) + i - 12) % 4 = i := by omega
  have hj := j.isLt
  unfold Dinode.byte
  rw [if_neg (by omega), if_neg (by omega), if_neg (by omega), if_neg (by omega), if_neg (by omega),
    dif_pos (by omega), h3]
  congr 2
  exact Fin.ext h2

variable {v : Nat}

theorem le16_putDinode (b : Block) (k : Nat) (d : Dinode) (h : o + 1 < 64) (h0 : d.byte o = byteOf v 0)
    (h1 : d.byte (o + 1) = byteOf v 1) :
    le16 (putDinode b k d) (64 * k + o) = v % 65536 := by
  simp only [le16]
  rw [putDinode_in _ _ _ (by omega), Nat.add_assoc, putDinode_in _ _ _ h, h0, h1, byteOf_toNat, byteOf_toNat]
  omega

theorem le32_putDinode (b : Block) (k : Nat) (d : Dinode) (h : o + 3 < 64) (hv : ∀ i < 4, d.byte (o + i) = byteOf v i) :
    le32 (putDinode b k d) (64 * k + o) = v % 2 ^ 32 := by
  have hb : ∀ i < 4, putDinode b k d (64 * k + o + i) = byteOf v i := by
    intro i hi
    rw [Nat.add_assoc, putDinode_in _ _ _ (by omega), hv i hi]
  simp only [le32, le16]
  rw [show putDinode b k d (64 * k + o) = byteOf v 0 from hb 0 (by omega), hb 1 (by omega), hb 2 (by omega),
    hb 3 (by omega)]
  simp only [byteOf_toNat]
  omega

/-- What is stored is read back. -/
theorem getDinode_putDinode (b : Block) (k : Nat) {d : Dinode} (hd : d.Fits) :
    getDinode (putDinode b k d) k = d := by
  have hb : ∀ o : Nat, o < 4 → d.byte (8 + o) = byteOf d.size o := by
    intro o ho
    have h : 8 + o - 8 = o := by omega
    unfold Dinode.byte
    rw [if_neg (by omega), if_neg (by omega), if_neg (by omega), if_neg (by omega), if_pos (by omega), h]
  ext
  · exact (le16_putDinode b k d (o := 0) (v := d.type) (by omega) rfl rfl).trans (Nat.mod_eq_of_lt hd.type)
  · exact (le16_putDinode b k d (o := 2) (v := d.major) (by omega) rfl rfl).trans (Nat.mod_eq_of_lt hd.major)
  · exact (le16_putDinode b k d (o := 4) (v := d.minor) (by omega) rfl rfl).trans (Nat.mod_eq_of_lt hd.minor)
  · exact (le16_putDinode b k d (o := 6) (v := d.nlink) (by omega) rfl rfl).trans (Nat.mod_eq_of_lt hd.nlink)
  · exact (le32_putDinode b k d (o := 8) (v := d.size) (by omega) hb).trans (Nat.mod_eq_of_lt hd.size)
  · rename_i j
    have hj := j.isLt
    have h := le32_putDinode b k d (o := 12 + 4 * j) (v := d.addrs j) (by omega) (fun i hi => byte_addrs d j hi)
    rw [← Nat.add_assoc] at h
    rw [getDinode_addrs]
    exact h.trans (Nat.mod_eq_of_lt (hd.addrs j))

theorem getDinode_congr {b b' : Block} (h : ∀ o < 64, b (64 * k + o) = b' (64 * k + o)) :
    getDinode b k = getDinode b' k := by
  have h16 : ∀ o, o + 1 < 64 → le16 b (64 * k + o) = le16 b' (64 * k + o) := by
    intro o ho
    simp only [le16, Nat.add_assoc]
    rw [h o (by omega), h (o + 1) ho]
  have h32 : ∀ o, o + 3 < 64 → le32 b (64 * k + o) = le32 b' (64 * k + o) := by
    intro o ho
    simp only [le32]
    rw [h16 o (by omega), Nat.add_assoc, h16 (o + 2) (by omega)]
  ext
  · exact h16 0 (by omega)
  · exact h16 2 (by omega)
  · exact h16 4 (by omega)
  · exact h16 6 (by omega)
  · exact h32 8 (by omega)
  · rename_i j
    have hj := j.isLt
    have hh := h32 (12 + 4 * j) (by omega)
    rw [← Nat.add_assoc] at hh
    rw [getDinode_addrs, getDinode_addrs]
    exact hh

theorem getDinode_putDinode_ne (b : Block) (d : Dinode) (h : j ≠ k) :
    getDinode (putDinode b k d) j = getDinode b j :=
  getDinode_congr fun _ ho => putDinode_out b d h ho

/-! ## Bit map -/

/-- `data[bi/8] & (1 << (bi % 8))`. -/
def bitAt (b : Block) (bi : Nat) : Bool := (b (bi / 8)).toNat.testBit (bi % 8)

/-- `data[bi/8] |= 1 << (bi % 8)`. -/
def setBit (b : Block) (bi : Nat) : Block :=
  update b (bi / 8) (UInt8.ofNat ((b (bi / 8)).toNat ||| 2 ^ (bi % 8)))

/-- `data[bi/8] &= ~(1 << (bi % 8))`. -/
def clearBit (b : Block) (bi : Nat) : Block :=
  update b (bi / 8) (UInt8.ofNat ((b (bi / 8)).toNat &&& (255 ^^^ 2 ^ (bi % 8))))

theorem testBit_ofNat (n i : Nat) (h : i < 8) : (UInt8.ofNat n).toNat.testBit i = n.testBit i := by
  rw [UInt8.toNat_ofNat', Nat.testBit_mod_two_pow]
  simp [h]

theorem bitAt_setBit (b : Block) (bi bj : Nat) :
    bitAt (setBit b bi) bj = if bj = bi then true else bitAt b bj := by
  unfold bitAt setBit
  by_cases hb : bj / 8 = bi / 8
  · rw [hb, update_self, testBit_ofNat _ _ (by omega), Nat.testBit_or, Nat.testBit_two_pow]
    by_cases hm : bi % 8 = bj % 8
    · have : bj = bi := by omega
      simp [hm, this]
    · have : bj ≠ bi := by omega
      simp [hm, this]
  · have : bj ≠ bi := by omega
    rw [update_of_ne hb, if_neg this]

theorem testBit_255 : ∀ i < 8, Nat.testBit 255 i = true := by decide

theorem bitAt_clearBit (b : Block) (bi bj : Nat) :
    bitAt (clearBit b bi) bj = if bj = bi then false else bitAt b bj := by
  unfold bitAt clearBit
  by_cases hb : bj / 8 = bi / 8
  · rw [hb, update_self, testBit_ofNat _ _ (by omega), Nat.testBit_and, Nat.testBit_xor,
      Nat.testBit_two_pow, testBit_255 _ (by omega)]
    by_cases hm : bi % 8 = bj % 8
    · have : bj = bi := by omega
      simp [hm, this]
    · have : bj ≠ bi := by omega
      simp [hm, this]
  · have : bj ≠ bi := by omega
    rw [update_of_ne hb, if_neg this]

/-! ## The disk's regions -/

section

variable (sb : Superblock) {b c : Nat} {d : Disk}

/-- The block that holds inode `i`. -/
def iblock (i : Nat) : Nat := i / ipb + sb.inodestart

/-- The block of the bit map that holds block `b`'s bit. -/
def bblock (b : Nat) : Nat := b / bpb + sb.bmapstart

def dinodeAt (d : Disk) (i : Nat) : Dinode := getDinode (d (iblock sb i)) (i % ipb)

def setDinode (d : Disk) (i : Nat) (x : Dinode) : Disk :=
  update d (iblock sb i) (putDinode (d (iblock sb i)) (i % ipb) x)

def usedAt (d : Disk) (b : Nat) : Bool := bitAt (d (bblock sb b)) (b % bpb)

def markUsed (d : Disk) (b : Nat) : Disk := update d (bblock sb b) (setBit (d (bblock sb b)) (b % bpb))

def markFree (d : Disk) (b : Nat) : Disk := update d (bblock sb b) (clearBit (d (bblock sb b)) (b % bpb))

variable {sb}

theorem iblock_lt (h : i < sb.ninodes) : iblock sb i < sb.bmapstart := by
  have h1 := sb.bmap_ge
  have h2 : i / ipb ≤ sb.ninodes / ipb := Nat.div_le_div_right (by omega)
  unfold iblock
  omega

theorem bblock_ge (b : Nat) : sb.bmapstart ≤ bblock sb b := Nat.le_add_left _ _

theorem bblock_lt (h : b < sb.size) : bblock sb b < sb.dataStart := by
  have h1 := sb.data_ge
  have h2 : b / bpb ≤ sb.size / bpb := Nat.div_le_div_right (by omega)
  unfold bblock Superblock.dataStart
  omega

theorem bmapstart_lt_dataStart (sb : Superblock) : sb.bmapstart < sb.dataStart :=
  Nat.lt_of_lt_of_le (Nat.lt_add_of_pos_right (Nat.succ_pos _)) sb.data_ge

theorem dinodeAt_update (v : Block) (h : iblock sb i ≠ b) :
    dinodeAt sb (update d b v) i = dinodeAt sb d i := by
  unfold dinodeAt
  rw [update_of_ne h]

theorem usedAt_update (v : Block) (h : bblock sb c ≠ b) :
    usedAt sb (update d b v) c = usedAt sb d c := by
  unfold usedAt
  rw [update_of_ne h]

theorem dinodeAt_fits (d : Disk) (i : Nat) : (dinodeAt sb d i).Fits := getDinode_fits _ _

theorem dinodeAt_setDinode (d : Disk) (i : Nat) {x : Dinode} (hx : x.Fits) :
    dinodeAt sb (setDinode sb d i x) i = x := by
  unfold dinodeAt setDinode
  rw [update_self, getDinode_putDinode _ _ hx]

theorem dinodeAt_setDinode_ne (d : Disk) (x : Dinode) (h : j ≠ i) :
    dinodeAt sb (setDinode sb d i x) j = dinodeAt sb d j := by
  by_cases hb : iblock sb j = iblock sb i
  · -- the same block: the slots differ
    have hk : j % ipb ≠ i % ipb := by
      unfold iblock at hb
      intro hm
      have h1 := Nat.div_add_mod j ipb
      have h2 := Nat.div_add_mod i ipb
      rw [hm, show j / ipb = i / ipb by omega, h2] at h1
      exact h h1.symm
    unfold dinodeAt setDinode
    rw [hb, update_self, getDinode_putDinode_ne _ _ hk]
  · exact dinodeAt_update _ hb

/-- Blocks with one map block and one bit number are the same. -/
theorem bit_inj (h : bblock sb c = bblock sb b) (hm : c % bpb = b % bpb) : c = b := by
  unfold bblock at h
  have h1 := Nat.div_add_mod c bpb
  have h2 := Nat.div_add_mod b bpb
  rw [hm, show c / bpb = b / bpb by omega, h2] at h1
  exact h1.symm

theorem usedAt_markUsed (d : Disk) (b c : Nat) :
    usedAt sb (markUsed sb d b) c = if c = b then true else usedAt sb d c := by
  by_cases hb : bblock sb c = bblock sb b
  · unfold usedAt markUsed
    rw [hb, update_self, bitAt_setBit]
    by_cases hc : c = b
    · rw [if_pos hc, if_pos (by rw [hc])]
    · rw [if_neg hc, if_neg fun hm => hc (bit_inj hb hm)]
  · rw [if_neg fun hc => hb (by rw [hc])]
    exact usedAt_update _ hb

theorem usedAt_markFree (d : Disk) (b c : Nat) :
    usedAt sb (markFree sb d b) c = if c = b then false else usedAt sb d c := by
  by_cases hb : bblock sb c = bblock sb b
  · unfold usedAt markFree
    rw [hb, update_self, bitAt_clearBit]
    by_cases hc : c = b
    · rw [if_pos hc, if_pos (by rw [hc])]
    · rw [if_neg hc, if_neg fun hm => hc (bit_inj hb hm)]
  · rw [if_neg fun hc => hb (by rw [hc])]
    exact usedAt_update _ hb

end

end Xv6.Fs
