/-
  Xv6.Memmove — the two `memmove`s (kernel/string.c and user/ulib.c).

  Each copies forwards or backwards, and the loops read memory that they have already written. The kernel's goes
  backwards when the destination starts inside the source, the user's whenever it does not start below it. The
  length is a `uint` in the kernel and an `int` in user space, where a negative one copies nothing.

  Addresses are natural numbers: the ranges do not wrap. Proved: `memmove_overlap_safe`.
-/

import Xv6.Lib.Bytes
import Xv6.Lib.Update

namespace Xv6.Memmove

open Xv6.Lib

/-- `while(n-- > 0) *d++ = *s++;` -/
def forward : Nat → Bytes → Nat → Nat → Bytes
  | 0, m, _, _ => m
  | n + 1, m, d, s => forward n (update m d (m s)) (d + 1) (s + 1)

/-- `while(n-- > 0) *--d = *--s;` -/
def backward : Nat → Bytes → Nat → Nat → Bytes
  | 0, m, _, _ => m
  | n + 1, m, d, s => backward n (update m (d - 1) (m (s - 1))) (d - 1) (s - 1)

/-- The kernel's `memmove`: what it returns, and the memory. -/
def kernelMemmove (m : Bytes) (dst src : Nat) (n : BitVec 32) : Nat × Bytes :=
  if n = 0 then (dst, m)
  else if src < dst ∧ dst < src + n.toNat then (dst, backward n.toNat m (dst + n.toNat) (src + n.toNat))
  else (dst, forward n.toNat m dst src)

/-- The user's `memmove`. -/
def userMemmove (m : Bytes) (dst src : Nat) (n : BitVec 32) : Nat × Bytes :=
  if dst < src then (dst, forward n.toInt.toNat m dst src)
  else (dst, backward n.toInt.toNat m (dst + n.toInt).toNat (src + n.toInt).toNat)

/-- The memory `m` with the `n` bytes at `src` copied to `dst`. -/
def moved (m : Bytes) (dst src n : Nat) : Bytes := fun a =>
  if dst ≤ a ∧ a < dst + n then m (src + (a - dst)) else m a

variable {m : Bytes} {dst src n : Nat}

theorem moved_zero : moved m dst src 0 = m := by
  funext a
  exact if_neg (by omega)

/-- Forwards, the bytes still to be read are not below the ones written. -/
theorem forward_eq (h : dst ≤ src ∨ src + n ≤ dst) : forward n m dst src = moved m dst src n := by
  induction n generalizing m dst src with
  | zero => exact moved_zero.symm
  | succ n ih =>
    rw [forward, ih (by omega)]
    funext a
    unfold moved
    by_cases ha : a = dst
    · subst ha
      rw [if_neg (by omega), if_pos (by omega), update_self, Nat.sub_self]
      rfl
    · by_cases hin : dst ≤ a ∧ a < dst + (n + 1)
      · rw [if_pos (by omega), if_pos hin, update_of_ne (by omega), show src + 1 + (a - (dst + 1)) = src + (a - dst) by omega]
      · rw [if_neg (by omega), if_neg hin, update_of_ne ha]

/-- Backwards, they are not above. -/
theorem backward_eq (h : src ≤ dst ∨ dst + n ≤ src) : backward n m (dst + n) (src + n) = moved m dst src n := by
  induction n generalizing m with
  | zero => exact moved_zero.symm
  | succ n ih =>
    show backward n (update m (dst + n) (m (src + n))) (dst + n) (src + n) = _
    rw [ih (by omega)]
    funext a
    unfold moved
    by_cases ha : a = dst + n
    · subst ha
      rw [if_neg (by omega), if_pos (by omega), update_self, show dst + n - dst = n by omega]
    · by_cases hin : dst ≤ a ∧ a < dst + n
      · rw [if_pos hin, if_pos (by omega), update_of_ne (by omega)]
      · rw [if_neg hin, if_neg (by omega), update_of_ne ha]

theorem kernelMemmove_eq (m : Bytes) (dst src : Nat) (n : BitVec 32) :
    kernelMemmove m dst src n = (dst, moved m dst src n.toNat) := by
  unfold kernelMemmove
  split
  next h => rw [h, show (0 : BitVec 32).toNat = 0 from rfl, moved_zero]
  next =>
    split
    next h => rw [backward_eq (by omega)]
    next h => rw [forward_eq (by omega)]

theorem userMemmove_eq (m : Bytes) (dst src : Nat) (n : BitVec 32) :
    userMemmove m dst src n = (dst, moved m dst src n.toInt.toNat) := by
  unfold userMemmove
  split
  next h => rw [forward_eq (by omega)]
  next h =>
    rcases Int.lt_or_le n.toInt 0 with hneg | hpos
    · rw [Int.toNat_of_nonpos (by omega), moved_zero]
      rfl
    · obtain ⟨k, hk⟩ := Int.eq_ofNat_of_zero_le hpos
      rw [hk]
      exact congrArg _ (backward_eq (by omega))

/-- Whatever the ranges, both leave in the destination the bytes that the source had, and every other byte as it was;
    so for a length that is not negative as an `int` they do the same. -/
theorem memmove_overlap_safe (m : Bytes) (dst src : Nat) (n : BitVec 32) :
    kernelMemmove m dst src n = (dst, moved m dst src n.toNat) ∧
    userMemmove m dst src n = (dst, moved m dst src n.toInt.toNat) ∧
    (0 ≤ n.toInt → userMemmove m dst src n = kernelMemmove m dst src n) := by
  refine ⟨kernelMemmove_eq m dst src n, userMemmove_eq m dst src n, fun hn => ?_⟩
  have hlen : n.toInt.toNat = n.toNat := by
    have hlt := n.isLt
    have hint := BitVec.toInt_eq_toNat_cond n
    split at hint <;> omega
  rw [kernelMemmove_eq, userMemmove_eq, hlen]

end Xv6.Memmove
