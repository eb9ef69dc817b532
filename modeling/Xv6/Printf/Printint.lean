/-
  Xv6.Printf.Printint — the numbers that `printf` puts out (kernel/printf.c: `printint`; the user's printf.c has
  the same loop with other digits and a parameter of 32 bits).

  The digits go into a buffer of 16 bytes, the least significant first, and then out backwards. A byte that would
  be stored past the end of the buffer is `none`.

  Proved: `printint_eq`, `printint_in_buffer`, `unsigned_overruns`.
-/

import Xv6.Lib.Numeral

namespace Xv6.Printf

/-- `sizeof(buf)`. -/
def bufsize : Nat := 16

/-- The loop of `printint`: the digits of `x` into `buf`, which has `room` bytes left. -/
def store (digits : Nat → UInt8) (base : Nat) : Nat → Nat → Option (List UInt8)
  | 0, _ => none
  | room + 1, x =>
    if x / base = 0 then some [digits (x % base)]
    else (store digits base room (x / base)).map (digits (x % base) :: ·)

def minus : UInt8 := 45

/-- `printint`, once the sign and the magnitude `x` are known. -/
def printMagnitude (digits : Nat → UInt8) (base : Nat) (neg : Bool) (x : Nat) : Option (List UInt8) :=
  (store digits base bufsize x).bind fun buf =>
    if neg then if buf.length < bufsize then some (minus :: buf.reverse) else none else some buf.reverse

/-- `sign && (sign = (xx < 0))` -/
def negative {n : Nat} (xx : BitVec n) (sign : Bool) : Bool := sign && decide (xx.toInt < 0)

/-- `printint(xx, base, sign)`: in the kernel `xx` is a `long long`, in user space an `int`. -/
def printint (digits : Nat → UInt8) {n : Nat} (xx : BitVec n) (base : Nat) (sign : Bool) : Option (List UInt8) :=
  printMagnitude digits base (negative xx sign) (if negative xx sign then (-xx).toNat else xx.toNat)

/-- The number whose digits are stored. -/
def magnitude {n : Nat} (xx : BitVec n) (sign : Bool) : Nat := if sign then xx.toInt.natAbs else xx.toNat

variable {digits : Nat → UInt8} {base x room n : Nat}

theorem store_eq (hb : 1 < base) : store digits base room x =
    if (Numeral.digits base x).length ≤ room then some ((Numeral.digits base x).map digits) else none := by
  induction room generalizing x with
  | zero =>
    rw [store, if_neg]
    rw [Numeral.digits_div hb]
    simp
  | succ room ih =>
    rw [store, Numeral.digits_div hb]
    by_cases hx : x / base = 0
    · simp [hx]
    · simp only [if_neg hx, ih, List.length_cons, Nat.add_le_add_iff_right, List.map_cons]
      split <;> rfl

/-- The numeral fits in `buf`, the sign included, or a byte is written past its end. -/
theorem printMagnitude_eq (hb : 1 < base) (neg : Bool) : printMagnitude digits base neg x =
    if x < base ^ (if neg then 15 else 16) then
      some ((if neg then [minus] else []) ++ Numeral.text digits base x) else none := by
  have hlen : ∀ k, 0 < k → ((Numeral.digits base x).length ≤ k ↔ x < base ^ k) :=
    fun k hk => Numeral.digits_length_le hb hk
  rw [printMagnitude, store_eq hb]
  cases neg with
  | false =>
    simp only [bufsize, hlen 16 (by decide), Bool.false_eq_true, if_false]
    split <;> rfl
  | true =>
    have h15 := hlen 15 (by decide)
    by_cases h : x < base ^ 15
    · have h16 : (Numeral.digits base x).length ≤ 15 := h15.mpr h
      have hroom : (Numeral.digits base x).length < 16 := by omega
      simp [bufsize, hroom, hroom.le, h, Numeral.text]
    · have h16 : ¬ (Numeral.digits base x).length < 16 := by omega
      by_cases hfit : (Numeral.digits base x).length ≤ 16
      · simp [bufsize, hfit, h16, h]
      · simp [bufsize, hfit, h]

/-- The negation of the most negative number is read as an unsigned number, so it is right as well. -/
theorem magnitude_eq (xx : BitVec n) (sign : Bool) :
    (if negative xx sign then (-xx).toNat else xx.toNat) = magnitude xx sign := by
  cases sign with
  | false => rfl
  | true =>
    have hlt := xx.isLt
    have hint := BitVec.toInt_eq_toNat_cond xx
    rw [magnitude, negative, if_pos rfl, Bool.true_and, BitVec.toNat_neg]
    generalize 2 ^ n = N at hlt hint
    by_cases h : xx.toInt < 0
    · rw [if_pos (decide_eq_true h), Nat.mod_eq_of_lt (by split at hint <;> omega)]
      split at hint <;> omega
    · rw [if_neg (by simpa using h)]
      split at hint <;> omega

theorem printint_eq (xx : BitVec n) (hb : 1 < base) (sign : Bool) : printint digits xx base sign =
    if magnitude xx sign < base ^ (if negative xx sign then 15 else 16) then
      some ((if negative xx sign then [minus] else []) ++ Numeral.text digits base (magnitude xx sign))
    else none := by
  rw [printint, magnitude_eq, printMagnitude_eq hb]

/-! ## The kernel's calls -/

/-- "0123456789abcdef" -/
def kernelDigits (d : Nat) : UInt8 :=
  [48, 49, 50, 51, 52, 53, 54, 55, 56, 57, 97, 98, 99, 100, 101, 102].getD d 0

/-- `va_arg(ap, int)`, the lower half of the register, as the `long long` that `printint` takes. -/
def vaInt (w : BitVec 64) : BitVec 64 := (w.setWidth 32).signExtend 64

/-- `printint` stays in its buffer exactly when the number has at most 16 digits, or 15 after a sign. -/
theorem printint_in_buffer (xx : BitVec 64) (base : Nat) (hbase : base = 10 ∨ base = 16) (sign : Bool) :
    (printint kernelDigits xx base sign).isSome ↔ magnitude xx sign < base ^ (if negative xx sign then 15 else 16) := by
  rw [printint_eq xx (by omega), apply_ite Option.isSome]
  simp

theorem printint_in_buffer_max : (printint kernelDigits (0xFFFFFFFFFFFFFFFF : BitVec 64) 16 false).isSome ↔
    magnitude (0xFFFFFFFFFFFFFFFF : BitVec 64) false < 16 ^ 16 :=
  printint_in_buffer 0xFFFFFFFFFFFFFFFF 16 (.inr rfl) false

/-- `printf("%u", -1)`: the argument becomes 2⁶⁴ - 1, and its 20 digits do not fit. -/
theorem unsigned_overruns : printint kernelDigits (vaInt 0xFFFFFFFF) 10 false = none := by
  decide +kernel

end Xv6.Printf
