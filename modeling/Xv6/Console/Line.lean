/-
  Xv6.Console.Line — console input (kernel/console.c: `consputc`, `consoleintr`,
  `consoleread`).

  The input buffer is a ring of 128 characters with three 32-bit indices: characters from `r` to
  `w` are committed and wait for a reader, those from `w` to `e` are the line being edited.
  `consoleintr` and the loop of `consoleread` run under `cons.lock`, so one action here is a
  typed character, or what a reader does from the time it has the lock until it sleeps or
  returns. A reader asleep goes on when `consoleintr` wakes it or it is killed. The buffers of the
  readers are valid, so no copy to them fails.

  `keys` records what was typed, with the room in the buffer at that time, `taken` the
  characters that left the buffer and the calls that took them, and `results` the calls that
  have returned.
-/

import Xv6.Lib.Reach
import Xv6.Lib.Update

namespace Xv6.Console

open Lib (update)

def inputBufSize : Nat := 128

structure Cons where
  buf : Nat → UInt8
  r : Nat
  w : Nat
  e : Nat
  /-- What was sent to the uart. -/
  sent : List UInt8

/-- `a - b` on 32 bits. -/
def minus (a b : Nat) : Nat := if b ≤ a then a - b else a + 2 ^ 32 - b

/-- `C(x)`. -/
def ctrl (x : Char) : UInt8 := (x.toNat - '@'.toNat).toUInt8

def newline : UInt8 := '\n'.toNat.toUInt8
def carriageReturn : UInt8 := '\r'.toNat.toUInt8
def delete : UInt8 := 0x7f

/-- `consputc(c)`, or `consputc(BACKSPACE)` for `none`. -/
def consputc (c : Cons) (ch : Option UInt8) : Cons :=
  match ch with
  | none => { c with sent := c.sent ++ [8, 32, 8] }
  | some ch => { c with sent := c.sent ++ [ch] }

/-- `cons.buf[i % INPUT_BUF_SIZE]`. -/
def Cons.char (c : Cons) (i : Nat) : UInt8 := c.buf (i % inputBufSize)

/-- `cons.e--`, with its echo. -/
def Cons.backspace (c : Cons) : Cons := consputc { c with e := minus c.e 1 } none

/-- The loop of control-U; it makes at most `e - w` rounds. -/
def killLine : Nat → Cons → Cons
  | 0, c => c
  | k + 1, c => if c.e ≠ c.w ∧ c.char (minus c.e 1) ≠ newline then killLine k c.backspace else c

/-- `cons.buf[cons.e++ % INPUT_BUF_SIZE] = c`. -/
def Cons.store (c : Cons) (ch : UInt8) : Cons :=
  { c with buf := update c.buf (c.e % inputBufSize) ch, e := (c.e + 1) % 2 ^ 32 }

/-- The new input state, and whether readers are woken. -/
def consoleintr (c : Cons) (ch : UInt8) : Cons × Bool :=
  if ch = ctrl 'P' then (c, false)
  else if ch = ctrl 'U' then (killLine (minus c.e c.w) c, false)
  else if ch = ctrl 'H' ∨ ch = delete then (if c.e ≠ c.w then c.backspace else c, false)
  else if ch ≠ 0 ∧ minus c.e c.r < inputBufSize then
    let ch := if ch = carriageReturn then newline else ch
    let c := (consputc c (some ch)).store ch
    if ch = newline ∨ ch = ctrl 'D' ∨ minus c.e c.r = inputBufSize then ({ c with w := c.e }, true) else (c, false)
  else (c, false)

/-- Why the loop of `consoleread` is left. -/
inductive End
  /-- `n` has reached 0. -/
  | full
  | newline
  /-- A control-D, consumed. -/
  | eof
  /-- A control-D, left for the next call. -/
  | kept
  /-- No input: the reader sleeps, or returns -1 if it is killed. -/
  | empty
  deriving DecidableEq, Repr

structure Outcome where
  cons : Cons
  left : Nat
  got : List UInt8
  why : End

/-- The loop, `left` being the code's `n` and `got` what has been copied out. -/
def readLoop (target : Nat) : Nat → Cons → List UInt8 → Outcome
  | 0, c, got => ⟨c, 0, got, .full⟩
  | n + 1, c, got =>
    if c.r = c.w then ⟨c, n + 1, got, .empty⟩
    else
      let ch := c.char c.r
      let c := { c with r := (c.r + 1) % 2 ^ 32 }
      if ch = ctrl 'D' then
        if n + 1 < target then ⟨{ c with r := minus c.r 1 }, n + 1, got, .kept⟩ else ⟨c, n + 1, got, .eof⟩
      else if ch = newline then ⟨c, n, got ++ [ch], .newline⟩
      else readLoop target n c (got ++ [ch])

/-! ## Readers -/

/-- A call of `consoleread`. -/
structure Reader where
  id : Nat
  target : Nat
  left : Nat
  got : List UInt8

inductive Pc
  | out
  /-- About to take the lock. -/
  | ready (rd : Reader)
  | asleep (rd : Reader)

def Pc.reader : Pc → Option Reader
  | .out => none
  | .ready rd | .asleep rd => some rd

def Pc.wake : Pc → Pc
  | .asleep rd => .ready rd
  | pc => pc

structure Result where
  id : Nat
  n : Nat
  got : List UInt8
  ret : Int
  why : End
  /-- How many characters had left the buffer when the call returned. -/
  pos : Nat

structure St where
  cons : Cons
  pc : Nat → Pc
  killed : Nat → Bool
  calls : Nat
  keys : List (UInt8 × Nat)
  taken : List (Nat × UInt8)
  results : List Result

inductive Act
  | type (ch : UInt8)
  | read (p : Nat) (n : Int)
  | run (p : Nat)
  | kill (p : Nat)

/-- What leaves the buffer in the loop, given what the call had before. -/
def Outcome.consumed (o : Outcome) (got : List UInt8) : List UInt8 :=
  o.got.drop got.length ++ if o.why = .eof then [ctrl 'D'] else []

/-- The reader `rd` of process `p` has left the loop. -/
def leave (s : St) (p : Nat) (rd : Reader) (o : Outcome) : St :=
  let taken := s.taken ++ (o.consumed rd.got).map (rd.id, ·)
  if o.why = .empty ∧ s.killed p = false then
    { s with cons := o.cons, taken := taken, pc := update s.pc p (.asleep { rd with left := o.left, got := o.got }) }
  else
    -- the code returns `target - n`, or -1 for a killed process
    let ret : Int := if o.why = .empty then -1 else rd.target - o.left
    { s with
      cons := o.cons
      taken := taken
      pc := update s.pc p .out
      results := s.results ++ [⟨rd.id, rd.target, o.got, ret, o.why, taken.length⟩] }

def act (s : St) : Act → Option St
  | .type ch =>
    let r := consoleintr s.cons ch
    some { s with
      cons := r.1
      pc := if r.2 then fun p => (s.pc p).wake else s.pc
      keys := s.keys ++ [(ch, inputBufSize - minus s.cons.e s.cons.r)] }
  | .read p n =>
    match s.pc p with
    | .out =>
      -- a negative `n` is never greater than 0 in the loop's test
      some { s with pc := update s.pc p (.ready ⟨s.calls, n.toNat, n.toNat, []⟩), calls := s.calls + 1 }
    | _ => none
  | .run p =>
    match s.pc p with
    | .ready rd => some (leave s p rd (readLoop rd.target rd.left s.cons rd.got))
    | _ => none
  | .kill p => some { s with killed := update s.killed p true, pc := update s.pc p (s.pc p).wake }

/-- The state after `consoleinit`. -/
def initial : St :=
  ⟨⟨fun _ => 0, 0, 0, 0, []⟩, fun _ => .out, fun _ => false, 0, [], [], []⟩

abbrev Reached (s : St) : Prop := Lib.Reach act (fun _ _ => True) initial s

end Xv6.Console
