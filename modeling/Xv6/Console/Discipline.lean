/-
  Xv6.Console.Discipline — the line discipline that console input follows.

  `edit` says what a typed character does to the committed stream and the line being edited,
  with no ring and no indices. `Holds` relates the ring to the committed characters that wait
  for a reader and that line. A typed character acts on the ring as `edit` says
  (`Holds.consoleintr`), and the loop of `consoleread` takes characters from the front
  (`Holds.readLoop`). Over runs (`console_discipline`): what has left the buffer, followed by
  what waits in it, is the edited stream, each character goes to one call, and calls end as the
  discipline says.
-/

import Xv6.Console.Line
import Xv6.Lib.Window

namespace Xv6.Console

open Lib (update update_self update_of_ne Window Reach)

/-- What a typed character does to the committed stream and the line. The second part of a key
is the room there was in the buffer: without room a character is dropped, and one that uses the
last of it commits the line. -/
def edit (t : List UInt8 × List UInt8) (key : UInt8 × Nat) : List UInt8 × List UInt8 :=
  if key.1 = ctrl 'P' then t
  else if key.1 = ctrl 'U' then (t.1, [])
  else if key.1 = ctrl 'H' ∨ key.1 = delete then (t.1, t.2.dropLast)
  else if key.1 = 0 ∨ key.2 = 0 then t
  else
    let ch := if key.1 = carriageReturn then newline else key.1
    if ch = newline ∨ ch = ctrl 'D' ∨ key.2 = 1 then (t.1 ++ (t.2 ++ [ch]), []) else (t.1, t.2 ++ [ch])

/-- What is committed stays so. -/
theorem edit_append (done line : List UInt8) (key : UInt8 × Nat) :
    edit (done, line) key = (done ++ (edit ([], line) key).1, (edit ([], line) key).2) := by
  simp only [edit]
  split_ifs <;> simp

/-! ## The ring -/

/-- The `n` characters from index `i` on. -/
def Cons.span (c : Cons) (i n : Nat) : List UInt8 := (List.range n).map fun k => c.char (i + k)

theorem minus_add {b d : Nat} (hb : b < 2 ^ 32) (hd : d < 2 ^ 32) : minus ((b + d) % 2 ^ 32) b = d := by
  unfold minus
  split <;> omega

theorem minus_succ (x : Nat) : minus ((x + 1) % 2 ^ 32) 1 = x % 2 ^ 32 := by
  unfold minus
  split <;> omega

/-- The ring holds the committed characters `Q` and after them the line `L`. -/
structure Holds (c : Cons) (Q L : List UInt8) : Prop where
  r : c.r < 2 ^ 32
  w : c.w = (c.r + Q.length) % 2 ^ 32
  e : c.e = (c.r + (Q ++ L).length) % 2 ^ 32
  window : Window inputBufSize c.buf c.r (Q ++ L)
  line : newline ∉ L ∧ ctrl 'D' ∉ L
  /-- A full buffer is committed. -/
  full : (Q ++ L).length = inputBufSize → L = []

variable {c : Cons} {Q L : List UInt8} {ch : UInt8}

section

variable (h : Holds c Q L)
include h

theorem Holds.length_le : Q.length + L.length ≤ 128 := by
  have := h.window.room
  rwa [List.length_append] at this

theorem Holds.used : minus c.e c.r = Q.length + L.length := by
  have hle := h.length_le
  rw [h.e, List.length_append]
  exact minus_add h.r (by omega)

theorem Holds.committed : minus c.w c.r = Q.length := by
  have hle := h.length_le
  rw [h.w]
  exact minus_add h.r (by omega)

theorem Holds.editing : minus c.e c.w = L.length := by
  have hle := h.length_le
  have he : c.e = (c.w + L.length) % 2 ^ 32 := by
    rw [h.e, h.w, List.length_append, Nat.mod_add_mod, Nat.add_assoc]
  rw [he]
  refine minus_add ?_ (by omega)
  rw [h.w]
  exact Nat.mod_lt _ (by decide)

/-- The committed characters and the line, read off the ring. -/
theorem Holds.spans :
    Q = c.span c.r (minus c.w c.r) ∧ L = c.span c.w (minus c.e c.w) := by
  constructor
  · rw [h.committed]
    exact h.window.of_append.eq_map
  · have hw := (Lib.window_mod (m := 2 ^ 32) (by decide)).mpr h.window.right
    rw [← h.w] at hw
    rw [h.editing]
    exact hw.eq_map

theorem Holds.e_eq_w : c.e = c.w ↔ L = [] := by
  have hr := h.r
  have hw := h.w
  have he := h.e
  have hle := h.length_le
  rw [List.length_append] at he
  rw [← List.length_eq_zero_iff]
  omega

theorem Holds.r_eq_w : c.r = c.w ↔ Q = [] := by
  have hr := h.r
  have hw := h.w
  have hle := h.length_le
  rw [← List.length_eq_zero_iff]
  omega

end

section fields

@[simp]
theorem Cons.backspace_r (c : Cons) : c.backspace.r = c.r := rfl

@[simp]
theorem Cons.backspace_w (c : Cons) : c.backspace.w = c.w := rfl

@[simp]
theorem Cons.backspace_e (c : Cons) : c.backspace.e = minus c.e 1 := rfl

@[simp]
theorem Cons.backspace_buf (c : Cons) : c.backspace.buf = c.buf := rfl

@[simp]
theorem Cons.store_r (c : Cons) (ch : UInt8) : (c.store ch).r = c.r := rfl

@[simp]
theorem Cons.store_w (c : Cons) (ch : UInt8) : (c.store ch).w = c.w := rfl

@[simp]
theorem Cons.store_e (c : Cons) (ch : UInt8) : (c.store ch).e = (c.e + 1) % 2 ^ 32 := rfl

@[simp]
theorem Cons.store_buf (c : Cons) (ch : UInt8) :
    (c.store ch).buf = update c.buf (c.e % inputBufSize) ch := rfl

end fields

theorem Holds.backspace {x : UInt8} (h : Holds c Q (L ++ [x])) : Holds c.backspace Q L where
  r := by simpa using h.r
  w := by simpa using h.w
  e := by
    have he := h.e
    rw [← List.append_assoc, List.length_append, List.length_singleton, ← Nat.add_assoc] at he
    rw [Cons.backspace_e, Cons.backspace_r, he, minus_succ]
  window := by
    have hw := h.window
    rw [← List.append_assoc] at hw
    simpa using hw.of_append
  line := by
    have hl := h.line
    simp only [List.mem_append, not_or] at hl
    exact ⟨hl.1.1, hl.2.1⟩
  full := by
    have hle := h.length_le
    simp only [List.length_append, List.length_singleton] at hle ⊢
    intro heq
    simp only [inputBufSize] at heq
    omega

theorem killLine_r (k : Nat) (c : Cons) : (killLine k c).r = c.r := by
  induction k generalizing c with
  | zero => rfl
  | succ k ih =>
    rw [killLine]
    split
    · exact (ih _).trans (Cons.backspace_r c)
    · rfl

section

variable (h : Holds c Q L)
include h

/-- Control-U erases the whole line: there is no newline in it to stop at. -/
theorem Holds.killLine {k : Nat} (hk : k = L.length) : Holds (killLine k c) Q [] := by
  induction k generalizing c L with
  | zero =>
    obtain rfl : L = [] := List.length_eq_zero_iff.mp hk.symm
    exact h
  | succ k ih =>
    obtain ⟨M, x, rfl⟩ : ∃ M x, L = M ++ [x] := by
      rcases List.eq_nil_or_concat L with rfl | ⟨M, x, rfl⟩
      · simp at hk
      · exact ⟨M, x, by simp⟩
    have hne : c.e ≠ c.w := fun heq => by simpa using h.e_eq_w.mp heq
    have hchar : c.char (minus c.e 1) = x := by
      have hlast : Window inputBufSize c.buf c.r ((Q ++ M) ++ [x]) := by
        rw [List.append_assoc]
        exact h.window
      have hidx : minus c.e 1 % inputBufSize = (c.r + (Q ++ M).length) % inputBufSize := by
        rw [h.e, ← List.append_assoc, List.length_append, List.length_singleton, ← Nat.add_assoc, minus_succ,
          Nat.mod_mod_of_dvd _ (by decide)]
      rw [Cons.char, hidx, hlast.last]
    have hx : x ≠ newline := fun heq => h.line.1 (by simp [heq])
    rw [Console.killLine, if_pos ⟨hne, by rwa [hchar]⟩]
    exact ih h.backspace (by simpa using hk)

theorem Holds.stored_window (hroom : Q.length + L.length < 128) (ch : UInt8) :
    Window inputBufSize (c.store ch).buf (c.store ch).r (Q ++ (L ++ [ch])) := by
  have hidx : c.e % inputBufSize = (c.r + (Q ++ L).length) % inputBufSize := by
    rw [h.e, Nat.mod_mod_of_dvd _ (by decide)]
  rw [Cons.store_buf, Cons.store_r, hidx, ← List.append_assoc]
  exact h.window.push (by simpa [inputBufSize] using hroom) ch

theorem Holds.stored_e (ch : UInt8) :
    (c.store ch).e = ((c.store ch).r + (Q ++ (L ++ [ch])).length) % 2 ^ 32 := by
  have hlen : (Q ++ (L ++ [ch])).length = (Q ++ L).length + 1 := by simp [Nat.add_assoc]
  rw [Cons.store_e, Cons.store_r, h.e, Nat.mod_add_mod, hlen, Nat.add_assoc]

/-- A character goes to the end of the line. -/
theorem Holds.store (hroom : Q.length + L.length + 1 < 128) (hch : ch ≠ newline) (hD : ch ≠ ctrl 'D') :
    Holds (c.store ch) Q (L ++ [ch]) where
  r := by simpa using h.r
  w := by simpa using h.w
  e := h.stored_e ch
  window := h.stored_window (by omega) ch
  line := by simp [h.line, hch.symm, hD.symm]
  full := by
    simp only [List.length_append, List.length_singleton, inputBufSize]
    intro heq
    omega

/-- A character goes to the end of the line, and the line is committed. -/
theorem Holds.commit (hroom : Q.length + L.length < 128) (ch : UInt8) :
    Holds { c.store ch with w := (c.store ch).e } (Q ++ (L ++ [ch])) [] where
  r := by simpa using h.r
  w := h.stored_e ch
  e := by
    rw [List.append_nil]
    exact h.stored_e ch
  window := by
    rw [List.append_nil]
    exact h.stored_window hroom ch
  line := by simp
  full := fun _ => rfl

theorem Holds.putc (ch : UInt8) : Holds (consputc c (some ch)) Q L :=
  ⟨h.r, h.w, h.e, h.window, h.line, h.full⟩

/-- A typed character acts on the ring as it does on the stream and the line. -/
theorem Holds.consoleintr (ch : UInt8) :
    (consoleintr c ch).1.r = c.r ∧
      Holds (consoleintr c ch).1 (Q ++ (edit ([], L) (ch, inputBufSize - minus c.e c.r)).1)
        (edit ([], L) (ch, inputBufSize - minus c.e c.r)).2 := by
  have hle := h.length_le
  rw [Console.consoleintr, edit, h.used]
  by_cases hP : ch = ctrl 'P'
  · rw [if_pos hP, if_pos hP]
    exact ⟨rfl, by simpa using h⟩
  by_cases hU : ch = ctrl 'U'
  · rw [if_neg hP, if_pos hU, if_neg hP, if_pos hU]
    exact ⟨killLine_r _ _, by simpa using h.killLine h.editing⟩
  by_cases hH : ch = ctrl 'H' ∨ ch = delete
  · rw [if_neg hP, if_neg hU, if_pos hH, if_neg hP, if_neg hU, if_pos hH]
    rcases List.eq_nil_or_concat L with rfl | ⟨M, x, rfl⟩
    · have heq : c.e = c.w := h.e_eq_w.mpr rfl
      exact ⟨by simp [heq], by simpa [heq] using h⟩
    · have hne : c.e ≠ c.w := fun heq => by simpa using h.e_eq_w.mp heq
      rw [List.concat_eq_append] at h ⊢
      exact ⟨by simp [hne], by simpa [hne] using h.backspace⟩
  rw [if_neg hP, if_neg hU, if_neg hH, if_neg hP, if_neg hU, if_neg hH]
  by_cases hroom : ch ≠ 0 ∧ Q.length + L.length < inputBufSize
  · have hkey : ¬(ch = 0 ∨ inputBufSize - (Q.length + L.length) = 0) := by
      have := hroom.2
      rintro (h0 | h0)
      · exact hroom.1 h0
      · omega
    rw [if_pos hroom, if_neg hkey]
    simp only
    generalize (if ch = carriageReturn then newline else ch) = x
    have hput := h.putc x
    -- the line is committed when it is complete or the buffer is full
    have hused : minus ((consputc c (some x)).store x).e ((consputc c (some x)).store x).r = Q.length + L.length + 1 := by
      rw [hput.stored_e x, Cons.store_r, minus_add hput.r]
      · simp [Nat.add_assoc]
      · simp only [List.length_append, List.length_singleton]
        omega
    have hlast : minus ((consputc c (some x)).store x).e ((consputc c (some x)).store x).r = inputBufSize ↔
        inputBufSize - (Q.length + L.length) = 1 := by
      rw [hused]
      simp only [inputBufSize] at hroom ⊢
      omega
    simp only [hlast]
    split
    next => exact ⟨rfl, by simpa using hput.commit hroom.2 x⟩
    next hopen =>
      simp only [not_or] at hopen
      refine ⟨rfl, ?_⟩
      have hlt : Q.length + L.length + 1 < 128 := by
        simp only [inputBufSize] at hroom hopen
        omega
      simpa using hput.store hlt hopen.1 hopen.2.1
  · have hkey : ch = 0 ∨ inputBufSize - (Q.length + L.length) = 0 := by
      by_cases h0 : ch = 0
      · exact .inl h0
      · have := mt (fun hlt => (⟨h0, hlt⟩ : ch ≠ 0 ∧ Q.length + L.length < inputBufSize)) hroom
        exact .inr (by omega)
    rw [if_neg hroom, if_pos hkey]
    exact ⟨rfl, by simpa using h⟩

end

/-! ## Reading -/

/-- What the loop of `consoleread` takes from the front of the committed characters. -/
structure Taking (target left : Nat) (got Q : List UInt8) (o : Outcome) (xs rest : List UInt8) : Prop where
  got : o.got = got ++ xs
  left : o.left + xs.length = left
  queue : Q = xs ++ (if o.why = .eof then [ctrl 'D'] else []) ++ rest
  noD : ctrl 'D' ∉ xs
  /-- A newline is the last character that a call takes. -/
  newline : if o.why = .newline then ∃ ys, xs = ys ++ [Console.newline] ∧ Console.newline ∉ ys else Console.newline ∉ xs
  full : o.why = .full → o.left = 0
  eof : o.why = .eof → target ≤ o.left ∧ 0 < o.left
  kept : o.why = .kept → 0 < o.left ∧ o.left < target ∧ rest.head? = some (ctrl 'D')
  empty : o.why = .empty → 0 < o.left ∧ rest = []

theorem Holds.next {x : UInt8} (h : Holds c (x :: Q) L) :
    c.r ≠ c.w ∧ c.char c.r = x ∧ Holds { c with r := (c.r + 1) % 2 ^ 32 } Q L := by
  refine ⟨fun heq => by simpa using h.r_eq_w.mp heq, h.window.head, ?_⟩
  have hle := h.length_le
  rw [List.length_cons] at hle
  exact
    { r := Nat.mod_lt _ (by decide)
      w := by
        have hw := h.w
        simp only [List.length_cons] at hw ⊢
        omega
      e := by
        have he := h.e
        simp only [List.cons_append, List.length_cons] at he ⊢
        omega
      window := (Lib.window_mod (by decide)).mpr h.window.tail
      line := h.line
      full := by
        intro hfull
        rw [List.length_append] at hfull
        simp only [inputBufSize] at hfull
        omega }

theorem Holds.readLoop (h : Holds c Q L) (target left : Nat) (got : List UInt8) :
    ∃ xs rest, Taking target left got Q (readLoop target left c got) xs rest ∧
      Holds (readLoop target left c got).cons rest L := by
  induction left generalizing c Q got with
  | zero =>
    exact ⟨[], Q, ⟨(List.append_nil _).symm, rfl, rfl, List.not_mem_nil, List.not_mem_nil, fun _ => rfl, nofun, nofun, nofun⟩, h⟩
  | succ n ih =>
    rw [Console.readLoop]
    cases Q with
    | nil =>
      rw [if_pos (h.r_eq_w.mpr rfl)]
      exact ⟨[], [], ⟨(List.append_nil _).symm, rfl, rfl, List.not_mem_nil, List.not_mem_nil, nofun, nofun, nofun,
        fun _ => ⟨Nat.succ_pos n, rfl⟩⟩, h⟩
    | cons x Q =>
      obtain ⟨hne, hchar, hnext⟩ := h.next
      rw [if_neg hne, hchar]
      by_cases hD : x = ctrl 'D'
      · simp only [if_pos hD]
        split
        next hlt =>
          -- the index goes back to where it was
          have hback : minus ((c.r + 1) % 2 ^ 32) 1 = c.r := by rw [minus_succ, Nat.mod_eq_of_lt h.r]
          refine ⟨[], x :: Q, ⟨(List.append_nil _).symm, rfl, rfl, List.not_mem_nil, List.not_mem_nil, nofun, nofun,
            fun _ => ⟨Nat.succ_pos n, hlt, congrArg some hD⟩, nofun⟩, ?_⟩
          simp only [hback]
          exact h
        next hge =>
          exact ⟨[], Q, ⟨(List.append_nil _).symm, rfl, by simp [hD], List.not_mem_nil, List.not_mem_nil, nofun,
            fun _ => ⟨Nat.le_of_not_lt hge, Nat.succ_pos n⟩, nofun, nofun⟩, hnext⟩
      · simp only [if_neg hD]
        by_cases hN : x = newline
        · simp only [if_pos hN]
          exact ⟨[x], Q, ⟨rfl, rfl, rfl, by simpa using Ne.symm hD, ⟨[], by simp [hN], List.not_mem_nil⟩, nofun, nofun, nofun,
            nofun⟩, hnext⟩
        · simp only [if_neg hN]
          obtain ⟨xs, rest, ht, hrest⟩ := ih hnext (got ++ [x])
          refine ⟨x :: xs, rest, ?_, hrest⟩
          exact
            { got := by rw [ht.got, List.append_assoc, List.singleton_append]
              left := by
                have := ht.left
                rw [List.length_cons]
                omega
              queue := by
                have := ht.queue
                rw [List.cons_append, List.cons_append, ← this]
              noD := by simpa using ⟨Ne.symm hD, ht.noD⟩
              newline := by
                have hnl := ht.newline
                split at hnl
                next hwhy =>
                  obtain ⟨ys, hys, hmem⟩ := hnl
                  rw [if_pos hwhy]
                  exact ⟨x :: ys, by rw [hys, List.cons_append], by simpa using ⟨Ne.symm hN, hmem⟩⟩
                next hwhy =>
                  rw [if_neg hwhy]
                  simpa using ⟨Ne.symm hN, hnl⟩
              full := ht.full
              eof := ht.eof
              kept := ht.kept
              empty := ht.empty }

end Xv6.Console
