/-
  Xv6.Lib.Bytes — byte buffers with little-endian fields.

  A buffer is a total map from offsets to bytes; only the offsets a format uses are ever
  read. `le16`, `le32` and `le64` read a field, `put16`, `put32` and `put64` store one (the
  value modulo the field's width), and a store leaves every field that does not overlap it
  alone.
-/

import Mathlib.Algebra.Order.Ring.Nat

namespace Xv6.Lib

abbrev Bytes := Nat → UInt8

def zero : Bytes := fun _ => 0

def le16 (b : Bytes) (o : Nat) : Nat := (b o).toNat + 256 * (b (o + 1)).toNat

def le32 (b : Bytes) (o : Nat) : Nat := le16 b o + 65536 * le16 b (o + 2)

def put16 (b : Bytes) (o v : Nat) : Bytes := fun i =>
  if i = o then UInt8.ofNat v else if i = o + 1 then UInt8.ofNat (v / 256) else b i

def put32 (b : Bytes) (o v : Nat) : Bytes := put16 (put16 b o v) (o + 2) (v / 65536)

def le64 (b : Bytes) (o : Nat) : Nat := le32 b o + 2 ^ 32 * le32 b (o + 4)

def put64 (b : Bytes) (o v : Nat) : Bytes := put32 (put32 b o v) (o + 4) (v / 2 ^ 32)

/-- `memmove(b + o, l, length)`. -/
def putBytes (b : Bytes) (o : Nat) (l : List UInt8) : Bytes := fun i =>
  if o ≤ i then l[i - o]?.getD (b i) else b i

/-- The `n` bytes from `o` on. -/
def slice (b : Bytes) (o n : Nat) : List UInt8 := (List.range n).map fun j => b (o + j)

/-- The two's complement reading of a 32-bit field. -/
def toInt32 (v : Nat) : Int := if v < 2 ^ 31 then (v : Int) else (v : Int) - 2 ^ 32

theorem le16_lt (b : Bytes) (o : Nat) : le16 b o < 65536 := by
  have h1 := (b o).toNat_lt
  have h2 := (b (o + 1)).toNat_lt
  simp only [le16]
  omega

theorem le32_lt (b : Bytes) (o : Nat) : le32 b o < 2 ^ 32 := by
  have h1 := le16_lt b o
  have h2 := le16_lt b (o + 2)
  simp only [le32]
  omega

@[simp] theorem le16_put16_same (b : Bytes) (o v : Nat) : le16 (put16 b o v) o = v % 65536 := by
  simp only [le16, put16, if_true, UInt8.toNat_ofNat', Nat.add_eq_left, Nat.one_ne_zero, if_false]
  omega

variable {o o' i j n : Nat} {b c : Bytes} {l : List UInt8}

theorem le16_put16_ne (b : Bytes) (v : Nat) (h : o + 2 ≤ o' ∨ o' + 2 ≤ o) :
    le16 (put16 b o v) o' = le16 b o' := by
  have h1 : o' ≠ o := by omega
  have h2 : o' ≠ o + 1 := by omega
  have h3 : o' + 1 ≠ o := by omega
  have h4 : o' + 1 ≠ o + 1 := by omega
  simp only [le16, put16, h1, h2, h3, h4, if_false]

@[simp] theorem le32_put32_same (b : Bytes) (o v : Nat) : le32 (put32 b o v) o = v % 2 ^ 32 := by
  simp only [le32, put32, le16_put16_same]
  rw [le16_put16_ne _ _ (by omega), le16_put16_same]
  omega

theorem le32_put32_ne (b : Bytes) (v : Nat) (h : o + 4 ≤ o' ∨ o' + 4 ≤ o) :
    le32 (put32 b o v) o' = le32 b o' := by
  simp only [le32, put32]
  rw [le16_put16_ne _ _ (by omega), le16_put16_ne _ _ (by omega), le16_put16_ne _ _ (by omega),
    le16_put16_ne _ _ (by omega)]

theorem le64_lt (b : Bytes) (o : Nat) : le64 b o < 2 ^ 64 := by
  have h1 := le32_lt b o
  have h2 := le32_lt b (o + 4)
  simp only [le64]
  omega

@[simp] theorem le64_put64_same (b : Bytes) (o v : Nat) : le64 (put64 b o v) o = v % 2 ^ 64 := by
  simp only [le64, put64, le32_put32_same]
  rw [le32_put32_ne _ _ (by omega), le32_put32_same]
  omega

theorem le64_put64_ne (b : Bytes) (v : Nat) (h : o + 8 ≤ o' ∨ o' + 8 ≤ o) :
    le64 (put64 b o v) o' = le64 b o' := by
  simp only [le64, put64]
  rw [le32_put32_ne _ _ (by omega), le32_put32_ne _ _ (by omega), le32_put32_ne _ _ (by omega),
    le32_put32_ne _ _ (by omega)]

theorem put16_outside (b : Bytes) (v : Nat) (h : i < o ∨ o + 2 ≤ i) : put16 b o v i = b i := by
  unfold put16
  rw [if_neg (by omega), if_neg (by omega)]

theorem put64_outside (b : Bytes) (v : Nat) (h : i < o ∨ o + 8 ≤ i) : put64 b o v i = b i := by
  unfold put64 put32
  rw [put16_outside _ _ (by omega), put16_outside _ _ (by omega), put16_outside _ _ (by omega),
    put16_outside _ _ (by omega)]

theorem le64_zero (o : Nat) : le64 zero o = 0 := by simp [le64, le32, le16, zero]

/-- A word stored among aligned words. -/
theorem le64_put64 (b : Bytes) (v : Nat) (h : o % 8 = 0) (h' : o' % 8 = 0) :
    le64 (put64 b o v) o' = if o' = o then v % 2 ^ 64 else le64 b o' := by
  split
  · rename_i he
    rw [he, le64_put64_same]
  · exact le64_put64_ne b v (by omega)

/-! A field depends on its own bytes only. -/

theorem le16_congr (h : ∀ j < 2, b (o + j) = c (o' + j)) : le16 b o = le16 c o' := by
  simp only [le16, h 1 (by decide), show b o = c o' from h 0 (by decide)]

theorem le32_congr (h : ∀ j < 4, b (o + j) = c (o' + j)) : le32 b o = le32 c o' := by
  have hlow : le16 b o = le16 c o' := le16_congr fun j hj => h j (by omega)
  have hhigh : le16 b (o + 2) = le16 c (o' + 2) := le16_congr fun j hj => by
    rw [Nat.add_assoc, Nat.add_assoc]
    exact h (2 + j) (by omega)
  rw [le32, le32, hlow, hhigh]

theorem le64_congr (h : ∀ j < 8, b (o + j) = c (o' + j)) : le64 b o = le64 c o' := by
  have hlow : le32 b o = le32 c o' := le32_congr fun j hj => h j (by omega)
  have hhigh : le32 b (o + 4) = le32 c (o' + 4) := le32_congr fun j hj => by
    rw [Nat.add_assoc, Nat.add_assoc]
    exact h (4 + j) (by omega)
  rw [le64, le64, hlow, hhigh]

theorem le16_bytes (h : le16 b o = le16 c o) : b o = c o ∧ b (o + 1) = c (o + 1) := by
  have h0 := (b o).toNat_lt
  have h1 := (c o).toNat_lt
  unfold le16 at h
  exact ⟨UInt8.toNat_inj.mp (by omega), UInt8.toNat_inj.mp (by omega)⟩

theorem le32_bytes (h : le32 b o = le32 c o) (hj : j < 4) : b (o + j) = c (o + j) := by
  have hlow : le16 b o = le16 c o ∧ le16 b (o + 2) = le16 c (o + 2) := by
    have h0 := le16_lt b o
    have h1 := le16_lt c o
    unfold le32 at h
    omega
  obtain ⟨h0, h1⟩ := le16_bytes hlow.1
  obtain ⟨h2, h3⟩ := le16_bytes hlow.2
  match j, hj with
  | 0, _ => exact h0
  | 1, _ => exact h1
  | 2, _ => exact h2
  | 3, _ => exact h3

/-- The bytes of a word are determined by it. -/
theorem le64_bytes (h : le64 b o = le64 c o) (hj : j < 8) : b (o + j) = c (o + j) := by
  have hlow : le32 b o = le32 c o ∧ le32 b (o + 4) = le32 c (o + 4) := by
    have h0 := le32_lt b o
    have h1 := le32_lt c o
    unfold le64 at h
    omega
  rcases Nat.lt_or_ge j 4 with hlt | hge
  · exact le32_bytes hlow.1 hlt
  · obtain ⟨k, rfl⟩ := Nat.exists_eq_add_of_le hge
    rw [← Nat.add_assoc]
    exact le32_bytes hlow.2 (by omega)

theorem toInt32_small {v : Nat} (h : v < 2 ^ 31) : toInt32 v = v := if_pos h

theorem putBytes_nil (b : Bytes) (o : Nat) : putBytes b o [] = b := by
  funext i
  simp [putBytes]

theorem putBytes_outside (b : Bytes) (h : i < o ∨ o + l.length ≤ i) :
    putBytes b o l i = b i := by
  unfold putBytes
  split
  · rw [List.getElem?_eq_none (by omega), Option.getD_none]
  · rfl

theorem putBytes_inside (b : Bytes) (h : j < l.length) :
    putBytes b o l (o + j) = l[j] := by
  unfold putBytes
  rw [if_pos (by omega), Nat.add_sub_cancel_left, List.getElem?_eq_getElem h, Option.getD_some]

theorem putBytes_append (b : Bytes) (o : Nat) (l m : List UInt8) :
    putBytes (putBytes b o l) (o + l.length) m = putBytes b o (l ++ m) := by
  funext i
  unfold putBytes
  by_cases h : o + l.length ≤ i
  · have h1 : l[i - o]? = none := List.getElem?_eq_none (by omega)
    have h2 : (l ++ m)[i - o]? = m[i - (o + l.length)]? := by
      rw [List.getElem?_append_right (by omega), show i - o - l.length = i - (o + l.length) by omega]
    rw [if_pos h, if_pos (by omega), if_pos (by omega), h1, h2, Option.getD_none]
  · rw [if_neg h]
    by_cases ho : o ≤ i
    · rw [if_pos ho, if_pos ho, List.getElem?_append_left (by omega)]
    · rw [if_neg ho, if_neg ho]

/-- Bytes stored inside block `k` of a file of `N`-byte blocks, seen as bytes of the file. -/
theorem putBytes_block {v : Bytes} {N k off : Nat} (hN : 0 < N)
    (hv : ∀ r < N, v r = c (k * N + r)) (hoff : k * N ≤ off) (hl : off + l.length ≤ k * N + N) (o : Nat) :
    (if o / N = k then putBytes v (off - k * N) l (o % N) else c o) = putBytes c off l o := by
  have hdm := Nat.div_add_mod o N
  have hmod := Nat.mod_lt o hN
  by_cases h : o / N = k
  · rw [if_pos h]
    rw [h, Nat.mul_comm] at hdm
    unfold putBytes
    rw [hv _ hmod, hdm, show o % N - (off - k * N) = o - off by omega]
    by_cases ho : off ≤ o
    · rw [if_pos ho, if_pos (by omega)]
    · rw [if_neg ho, if_neg (by omega)]
  · rw [if_neg h]
    refine (putBytes_outside c ?_).symm
    -- `o` lies in another block
    rcases Nat.lt_or_gt_of_ne h with hlt | hgt
    · left
      have := (Nat.div_lt_iff_lt_mul hN).mp hlt
      omega
    · right
      have := (Nat.le_div_iff_mul_le hN).mp hgt
      rw [Nat.succ_mul] at this
      omega

@[simp] theorem slice_length (b : Bytes) (o n : Nat) : (slice b o n).length = n := by simp [slice]

theorem slice_append (b : Bytes) (o m n : Nat) : slice b o m ++ slice b (o + m) n = slice b o (m + n) := by
  unfold slice
  rw [List.range_add, List.map_append, List.map_map]
  congr 1
  apply List.map_congr_left
  intro j _
  simp only [Function.comp_apply, Nat.add_assoc]

theorem slice_congr (h : ∀ j < n, b (o + j) = c (o' + j)) : slice b o n = slice c o' n := by
  unfold slice
  apply List.map_congr_left
  intro j hj
  exact h j (List.mem_range.mp hj)

theorem slice_putBytes_before (b : Bytes) (l : List UInt8) (h : o' + n ≤ o) :
    slice (putBytes b o l) o' n = slice b o' n :=
  slice_congr fun _ hj => putBytes_outside b (Or.inl (by omega))

theorem slice_getElem? (b : Bytes) (h : j < n) : (slice b o n)[j]? = some (b (o + j)) := by
  unfold slice
  rw [List.getElem?_map, List.getElem?_range h]
  rfl

theorem slice_putBytes (b : Bytes) (o : Nat) (l : List UInt8) : slice (putBytes b o l) o l.length = l := by
  apply List.ext_getElem?
  intro j
  by_cases hj : j < l.length
  · rw [slice_getElem? _ hj, putBytes_inside b hj, List.getElem?_eq_getElem hj]
  · rw [List.getElem?_eq_none (by simpa using hj), List.getElem?_eq_none (by omega)]

end Xv6.Lib
