/-
  Xv6.Lib.Numeral — numerals in a base, as digits and as bytes.
-/

import Mathlib.Data.Nat.Digits.Lemmas
import Mathlib.Algebra.Order.Ring.Nat

namespace Xv6.Numeral

/-- The digits of a number, the least significant first; 0 has one. -/
def digits (base n : Nat) : List Nat := if n = 0 then [0] else Nat.digits base n

/-- The numeral of a number, with the byte of each digit. -/
def text (digit : Nat → UInt8) (base n : Nat) : List UInt8 := ((digits base n).map digit).reverse

variable {base n k : Nat}

theorem digits_div (hb : 1 < base) : digits base n =
    n % base :: if n / base = 0 then [] else digits base (n / base) := by
  by_cases hn : n = 0
  · simp [digits, hn]
  · rw [digits, if_neg hn, Nat.digits_def' hb (Nat.pos_of_ne_zero hn)]
    by_cases hd : n / base = 0
    · rw [if_pos hd, hd, Nat.digits_zero]
    · rw [if_neg hd, digits, if_neg hd]

theorem digits_length_le (hb : 1 < base) (hk : 0 < k) : (digits base n).length ≤ k ↔ n < base ^ k := by
  by_cases hn : n = 0
  · rw [hn]
    exact iff_of_true hk (Nat.pow_pos (by omega))
  · rw [digits, if_neg hn, Nat.digits_length_le_iff hb]

end Xv6.Numeral
