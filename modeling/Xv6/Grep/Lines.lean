/-
  Xv6.Grep.Lines — the lines that `grep` writes (user/grep.c: `grep`).

  The buffer is a list of bytes: what has been read and not dealt with, which `memmove` brings to the
  front after each round. A `read` may return any number of bytes from one up to what it was asked for,
  which `want` chooses; it returns 0 at the end of the input, and also when the buffer has no room.

  Proved: `grep_writes_matching`, and `long_line_lost` for a line that fills the buffer.
-/

import Xv6.Grep.Match

namespace Xv6.Grep

/-- `sizeof(buf)`. -/
def bufsize : Nat := 1024

def newline : UInt8 := 10

/-- The inner loop: each line that ends in the buffer is matched, and written if it matches. `p` is what lies
    between the start of the line and the byte that `strchr` has come to. What is written, and what is left. -/
def scan (re : List UInt8) : List UInt8 → List UInt8 → List UInt8 × List UInt8
  | p, [] => ([], p)
  | p, c :: buf =>
    if c = 0 then ([], p ++ c :: buf)
    else if c = newline then
      ((if match_ re p then p ++ [newline] else []) ++ (scan re [] buf).1, (scan re [] buf).2)
    else scan re (p ++ [c]) buf

/-- What `read` returns for at most `n` bytes, when it would like to return `want`. -/
def readCount (want n : Nat) (input : List UInt8) : Nat := min (max want 1) (min n input.length)

/-- What is written, what is left in the buffer, and what was not read. -/
structure Result where
  out : List UInt8
  buf : List UInt8
  input : List UInt8

/-- The loop of `grep`, with a bound on its rounds. `want k` is for the `k`-th `read`. -/
def grepLoop (re : List UInt8) (want : Nat → Nat) : Nat → Nat → List UInt8 → List UInt8 → Option Result
  | 0, _, _, _ => none
  | fuel + 1, k, buf, input =>
    let n := readCount (want k) (bufsize - buf.length - 1) input
    if n = 0 then some ⟨[], buf, input⟩
    else
      let r := scan re [] (buf ++ input.take n)
      (grepLoop re want fuel (k + 1) r.2 (input.drop n)).map fun t => { t with out := r.1 ++ t.out }

def grep (re : List UInt8) (want : Nat → Nat) (fuel : Nat) (input : List UInt8) : Option Result :=
  grepLoop re want fuel 0 [] input

/-! ## Lines -/

/-- The bytes of a line. -/
def IsLine (l : List UInt8) : Prop := newline ∉ l ∧ 0 ∉ l

def textOf (lines : List (List UInt8)) : List UInt8 := lines.flatMap (· ++ [newline])

/-- What should be written. -/
def matching (re : List UInt8) (lines : List (List UInt8)) : List UInt8 := textOf (lines.filter (match_ re))

variable {re p buf input l : List UInt8} {lines : List (List UInt8)} {want : Nat → Nat} {fuel k : Nat}

theorem matching_cons : matching re (l :: lines) = (if match_ re l then l ++ [newline] else []) ++ matching re lines := by
  unfold matching textOf
  cases h : match_ re l <;> simp [h]

/-- Bytes without a newline are added to the line. -/
theorem scan_open (hl : IsLine l) : scan re p (l ++ buf) = scan re (p ++ l) buf := by
  induction l generalizing p with
  | nil => rw [List.nil_append, List.append_nil]
  | cons c l ih =>
    obtain ⟨hn, h0⟩ := hl
    have hc0 : c ≠ 0 := fun e => h0 (e ▸ List.mem_cons_self)
    have hcn : c ≠ newline := fun e => hn (e ▸ List.mem_cons_self)
    rw [List.cons_append, scan, if_neg hc0, if_neg hcn,
      ih ⟨fun h => hn (List.mem_cons_of_mem _ h), fun h => h0 (List.mem_cons_of_mem _ h)⟩, List.append_assoc]
    rfl

theorem scan_line (hl : IsLine l) : scan re [] l = ([], l) := by
  have h : scan re [] (l ++ []) = scan re ([] ++ l) [] := scan_open hl
  rwa [List.append_nil] at h

theorem scan_newline : scan re p (newline :: buf) =
    ((if match_ re p then p ++ [newline] else []) ++ (scan re [] buf).1, (scan re [] buf).2) := by
  rw [scan, if_neg (by decide), if_pos rfl]

/-- A beginning of a line and its rest. -/
theorem IsLine.split {a b : List UInt8} (h : IsLine (a ++ b)) : IsLine a ∧ IsLine b := by
  obtain ⟨hn, h0⟩ := h
  simp only [List.mem_append, not_or] at hn h0
  exact ⟨⟨hn.1, h0.1⟩, hn.2, h0.2⟩

theorem textOf_cons : textOf (l :: lines) = l ++ newline :: textOf lines := by
  rw [textOf, List.flatMap_cons, List.append_assoc]
  rfl

/-- A buffer before the rest of the text: it ends in the first line, or it holds that line and its newline. -/
theorem buffer_cases (htext : buf ++ input = textOf (l :: lines)) :
    (∃ a, l = buf ++ a ∧ input = a ++ newline :: textOf lines) ∨
      ∃ a, buf = l ++ newline :: a ∧ a ++ input = textOf lines := by
  rw [textOf_cons] at htext
  rcases List.append_eq_append_iff.mp htext with ⟨a, hl, hin⟩ | ⟨a, hb, hin⟩
  · exact .inl ⟨a, hl, hin⟩
  · cases a with
    | nil => exact .inl ⟨[], by rw [hb, List.append_nil, List.append_nil], hin.symm⟩
    | cons c a =>
      obtain ⟨rfl, hrest⟩ := List.cons.inj hin
      exact .inr ⟨a, hb, hrest.symm⟩

/-- The lines that end in the buffer are dealt with; a beginning of the next stays. -/
theorem scan_lines (re : List UInt8) (hlines : ∀ l ∈ lines, IsLine l) (htext : buf ++ input = textOf lines) :
    ∃ done rest p, lines = done ++ rest ∧ scan re [] buf = (matching re done, p) ∧ p ++ input = textOf rest ∧
      IsLine p ∧ p.length ≤ buf.length ∧ ∀ l ∈ done, l.length < buf.length := by
  induction lines generalizing buf with
  | nil =>
    obtain ⟨rfl, rfl⟩ := List.append_eq_nil_iff.mp htext
    exact ⟨[], [], [], rfl, rfl, rfl, ⟨by simp, by simp⟩, le_rfl, by simp⟩
  | cons l lines ih =>
    have hl := hlines l List.mem_cons_self
    rcases buffer_cases htext with ⟨a, rfl, -⟩ | ⟨a, rfl, hrest⟩
    · obtain ⟨hbuf, -⟩ := hl.split
      exact ⟨[], (buf ++ a) :: lines, buf, rfl, scan_line hbuf, htext, hbuf, le_rfl, by simp⟩
    · obtain ⟨done, rest, p, rfl, hscan, hp, hline, hle, hshort⟩ :=
        ih (fun m hm => hlines m (List.mem_cons_of_mem _ hm)) hrest
      refine ⟨l :: done, rest, p, rfl, ?_, hp, hline, ?_, ?_⟩
      · rw [scan_open hl, scan_newline, hscan, matching_cons, List.nil_append]
      · simp only [List.length_append, List.length_cons]
        omega
      · intro m hm
        simp only [List.length_append, List.length_cons]
        rcases List.mem_cons.mp hm with rfl | hm
        · omega
        · have := hshort m hm
          omega

/-- A buffer with a beginning of a line is no longer than that line, which has not ended. -/
theorem held_le (htext : buf ++ input = textOf (l :: lines)) (hbuf : IsLine buf) :
    buf.length ≤ l.length ∧ input ≠ [] := by
  rcases buffer_cases htext with ⟨a, rfl, rfl⟩ | ⟨a, rfl, -⟩
  · exact ⟨by simp, by simp⟩
  · exact absurd (by simp) hbuf.1

/-- `read` returns 0 only when there is no room or no input. -/
theorem readCount_eq_zero {w n : Nat} (h : readCount w n input = 0) : n = 0 ∨ input = [] := by
  rw [← List.length_eq_zero_iff]
  unfold readCount at h
  omega

theorem readCount_le (w n : Nat) (input : List UInt8) : readCount w n input ≤ n ∧ readCount w n input ≤ input.length := by
  unfold readCount
  omega

/-- From a beginning of the first line in the buffer the loop ends, and it has dealt with all lines exactly when
    none is too long. -/
theorem grepLoop_lines (hlines : ∀ l ∈ lines, IsLine l) (htext : buf ++ input = textOf lines) (hbuf : IsLine buf)
    (hsize : buf.length < bufsize) (hfuel : input.length < fuel) :
    ∃ r, grepLoop re want fuel k buf input = some r ∧
      (r.out = matching re lines ∧ r.buf = [] ∧ r.input = [] ↔ ∀ l ∈ lines, l.length + 1 < bufsize) := by
  induction fuel generalizing k buf input lines with
  | zero => omega
  | succ fuel ih =>
    rw [grepLoop]
    dsimp only
    by_cases hn : readCount (want k) (bufsize - buf.length - 1) input = 0
    · refine ⟨_, if_pos hn, ?_⟩
      cases lines with
      | nil =>
        obtain ⟨rfl, rfl⟩ := List.append_eq_nil_iff.mp htext
        simp [matching, textOf]
      | cons l lines =>
        -- the buffer is full with the line not ended: nothing more is read
        obtain ⟨hle, hin⟩ := held_le htext hbuf
        refine ⟨fun h => absurd h.2.2 hin, fun h => ?_⟩
        have hroom := (readCount_eq_zero hn).resolve_right hin
        have := h l List.mem_cons_self
        omega
    · rw [if_neg hn]
      obtain ⟨hroom, hleft⟩ := readCount_le (want k) (bufsize - buf.length - 1) input
      generalize readCount (want k) (bufsize - buf.length - 1) input = n at hn hroom hleft
      have htext' : (buf ++ input.take n) ++ input.drop n = textOf lines := by
        rw [List.append_assoc, List.take_append_drop, htext]
      have hlen : (buf ++ input.take n).length < bufsize := by
        rw [List.length_append, List.length_take]
        omega
      obtain ⟨done, rest, p, rfl, hscan, hp, hline, hple, hshort⟩ := scan_lines re hlines htext'
      obtain ⟨r, hr, hiff⟩ := ih (k := k + 1) (fun m hm => hlines m (List.mem_append_right _ hm)) hp hline
        (by omega) (by rw [List.length_drop]; omega)
      rw [hscan, hr]
      refine ⟨_, rfl, ?_⟩
      have hout : matching re (done ++ rest) = matching re done ++ matching re rest := by
        simp [matching, textOf]
      have hdone : ∀ l ∈ done, l.length + 1 < bufsize := by
        intro m hm
        have := hshort m hm
        omega
      rw [hout, List.append_cancel_left_eq, hiff]
      simp only [List.mem_append]
      exact ⟨fun h m hm => hm.elim (hdone m) (h m), fun h m hm => h m (.inr hm)⟩

/-- `grep` on lines without a NUL, however `read` cuts them: it ends, and it has written the matching lines and
    read and examined the whole input exactly when every line and its newline leave a byte of the buffer free. -/
theorem grep_writes_matching (re : List UInt8) (lines : List (List UInt8)) (want : Nat → Nat) (fuel : Nat)
    (hlines : ∀ l ∈ lines, IsLine l) (hfuel : (textOf lines).length < fuel) :
    ∃ r, grep re want fuel (textOf lines) = some r ∧
      (r.out = matching re lines ∧ r.buf = [] ∧ r.input = [] ↔ ∀ l ∈ lines, l.length + 1 < bufsize) :=
  grepLoop_lines hlines rfl ⟨by simp, by simp⟩ (by decide) hfuel

/-- "b" in "ab" and "cd". -/
theorem grep_writes_matching_first : ∃ r, grep [98] (fun _ => 2) 7 (textOf [[97, 98], [99, 100]]) = some r ∧
    r.out = [97, 98, newline] ∧ r.buf = [] ∧ r.input = [] := by
  have hlines : ∀ l ∈ [[97, 98], [99, 100]], IsLine l := by
    unfold IsLine
    decide
  obtain ⟨r, hrun, hiff⟩ := grep_writes_matching [98] [[97, 98], [99, 100]] (fun _ => 2) 7 hlines (by decide)
  have hout : matching [98] [[97, 98], [99, 100]] = [97, 98, newline] := by decide
  rw [hout] at hiff
  exact ⟨r, hrun, hiff.mpr (by decide)⟩

/-- A line that fills the buffer before its newline is read: the next `read` is for 0 bytes, and the loop ends as
    at the end of the file. -/
theorem grep_full (hl : IsLine l) (hlen : l.length + 1 = bufsize) (hwant : bufsize ≤ want 0) :
    grep re want (fuel + 2) (textOf [l]) = some ⟨[], l, [newline]⟩ := by
  have htext : textOf [l] = l ++ [newline] := textOf_cons
  have hfirst : readCount (want 0) (bufsize - 0 - 1) (l ++ [newline]) = l.length := by
    rw [readCount, List.length_append]
    simp only [List.length_singleton]
    omega
  have hnext : readCount (want 1) (bufsize - l.length - 1) [newline] = 0 := by
    rw [readCount]
    omega
  have hne : l.length ≠ 0 := by
    unfold bufsize at hlen
    omega
  rw [grep, grepLoop, htext]
  simp only [List.length_nil, hfirst, if_neg hne, List.nil_append, List.take_left, List.drop_left, scan_line hl,
    grepLoop, hnext, if_pos, Option.map_some]

/-- A line of 1023 bytes is lost, though the empty pattern matches it. -/
theorem long_line_lost : grep [] (fun _ => bufsize) 1025 (textOf [List.replicate 1023 97]) =
      some ⟨[], List.replicate 1023 97, [newline]⟩ ∧ match_ [] (List.replicate 1023 97) = true := by
  have hline : IsLine (List.replicate 1023 97) := by
    constructor
    all_goals
      intro h
      exact absurd (List.eq_of_mem_replicate h) (by decide)
  exact ⟨grep_full hline (by rw [List.length_replicate]; rfl) le_rfl, by rw [List.replicate_succ]; rfl⟩

end Xv6.Grep
