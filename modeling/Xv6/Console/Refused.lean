/-
  Xv6.Console.Refused — `consoleread` when a copy to the reader's buffer fails.

  `readLoopTo` is the loop with a buffer that may refuse a byte; for a valid buffer it is the
  loop of `Xv6.Console.Line` (`readLoopTo_valid`). A call gets the lock at its start and after
  each sleep, and finds the console in a state that the keyboard and other readers have made:
  `consoleread` takes these states as they come. `cons.r` is advanced before the copy, so a
  refused byte has left the buffer (`consoleread_removes`). A copy fails exactly when the buffer
  refuses one of the characters that wait, up to a newline, a control-D or the count
  (`consoleread_refused_iff`).
-/

import Xv6.Console.Discipline

namespace Xv6.Console

/-- How the loop is left; `why` is `none` after a copy that failed. -/
structure OutcomeTo where
  cons : Cons
  left : Nat
  got : List UInt8
  why : Option End

/-- The loop; `dst k` says whether byte `k` of the buffer can be written. -/
def readLoopTo (dst : Nat → Bool) (target : Nat) : Nat → Cons → List UInt8 → OutcomeTo
  | 0, c, got => ⟨c, 0, got, some .full⟩
  | n + 1, c, got =>
    if c.r = c.w then ⟨c, n + 1, got, some .empty⟩
    else
      let ch := c.char c.r
      let c := { c with r := (c.r + 1) % 2 ^ 32 }
      if ch = ctrl 'D' then
        if n + 1 < target then ⟨{ c with r := minus c.r 1 }, n + 1, got, some .kept⟩ else ⟨c, n + 1, got, some .eof⟩
      else if dst got.length = false then ⟨c, n + 1, got, none⟩
      else if ch = newline then ⟨c, n, got ++ [ch], some .newline⟩
      else readLoopTo dst target n c (got ++ [ch])

/-- What a call has done when it returns. -/
structure Return where
  got : List UInt8
  /-- How far the call advanced `cons.r`. -/
  removed : Nat
  why : Option End
  ret : Int

/-- The call leaves the loop for good: it returns -1 if it is killed while it waits. -/
def OutcomeTo.ret (o : OutcomeTo) (target removed : Nat) : Return :=
  ⟨o.got, removed, o.why, if o.why = some .empty then -1 else target - o.left⟩

/-- A call that has copied `got`; it finds the console in state `c` and, each time it is woken, in
the next of `cs`. After these it is killed if it waits again. -/
def consoleread (dst : Nat → Bool) (target : Nat) : Nat → List UInt8 → Nat → Cons → List Cons → Return
  | left, got, removed, c, [] =>
    let o := readLoopTo dst target left c got
    o.ret target (removed + minus o.cons.r c.r)
  | left, got, removed, c, c' :: cs =>
    let o := readLoopTo dst target left c got
    let removed := removed + minus o.cons.r c.r
    if o.why = some .empty then consoleread dst target o.left o.got removed c' cs else o.ret target removed

/-- The characters that wait for a reader. -/
def Cons.waiting (c : Cons) : List UInt8 := (List.range (minus c.w c.r)).map fun k => c.char ((c.r + k) % 2 ^ 32)

/-- How many of the characters `l` a call for `n` is offered: those up to a newline, or before a control-D. -/
def offered : Nat → List UInt8 → Nat
  | 0, _ | _, [] => 0
  | n + 1, ch :: l => if ch = ctrl 'D' then 0 else if ch = newline then 1 else offered n l + 1

/-- The indices are `uint`s. -/
def Cons.Ranged (c : Cons) : Prop := c.r < 2 ^ 32 ∧ c.w < 2 ^ 32

variable {dst : Nat → Bool} {target n : Nat} {c : Cons} {got : List UInt8}

theorem readLoopTo_valid (hdst : ∀ k, dst k = true) :
    readLoopTo dst target n c got =
      let o := readLoop target n c got
      ⟨o.cons, o.left, o.got, some o.why⟩ := by
  induction n generalizing c got with
  | zero => rfl
  | succ n ih =>
    simp only [readLoopTo, readLoop, hdst, Bool.true_eq_false, if_false]
    split
    · rfl
    · split
      · split <;> rfl
      · split
        · rfl
        · exact ih

/-- How many characters more than those delivered leave the buffer. -/
def surplus : Option End → Nat
  | none | some .eof => 1
  | _ => 0

/-- What one pass through the loop does. -/
structure Pass (dst : Nat → Bool) (target n : Nat) (c : Cons) (got : List UInt8) (o : OutcomeTo) : Prop where
  left : o.left + o.got.length = n + got.length
  le : got.length ≤ o.got.length
  r : o.cons.r = (c.r + (o.got.length - got.length) + surplus o.why) % 2 ^ 32
  good : ∀ k, got.length ≤ k → k < o.got.length → dst k = true
  stop : o.why = none → o.left ≠ 0 ∧ dst o.got.length = false
  eof : o.why = some .eof → target ≤ o.left

theorem readLoopTo_pass (hr : c.r < 2 ^ 32) : Pass dst target n c got (readLoopTo dst target n c got) := by
  have hsame : c.r = c.r % 4294967296 := (Nat.mod_eq_of_lt hr).symm
  induction n generalizing c got with
  | zero => exact ⟨rfl, Nat.le_refl _, by simp [readLoopTo, surplus, ← hsame], fun k h1 h2 => absurd h1 (by
      simpa [readLoopTo] using h2), nofun, nofun⟩
  | succ n ih =>
    have hnone : ∀ k, got.length ≤ k → k < got.length → dst k = true := fun k h1 h2 => absurd h1 (Nat.not_le.mpr h2)
    rw [readLoopTo]
    split
    · exact ⟨rfl, Nat.le_refl _, by simp [surplus, ← hsame], hnone, nofun, nofun⟩
    · dsimp only
      split
      · split
        · refine ⟨rfl, Nat.le_refl _, ?_, hnone, nofun, nofun⟩
          rw [minus_succ]
          simp [surplus]
        · rename_i htarget
          exact ⟨rfl, Nat.le_refl _, by simp [surplus], hnone, nofun, fun _ => Nat.le_of_not_lt htarget⟩
      · split
        · rename_i hd
          exact ⟨rfl, Nat.le_refl _, by simp [surplus], hnone, fun _ => ⟨Nat.succ_ne_zero n, hd⟩, nofun⟩
        · rename_i hd
          have hone : dst got.length = true := by simpa using hd
          have hlen : ∀ ch : UInt8, (got ++ [ch]).length = got.length + 1 := by simp
          split
          · refine ⟨by dsimp only; rw [hlen]; omega, by rw [hlen]; omega, ?_, ?_, nofun, nofun⟩
            · rw [hlen, Nat.add_sub_cancel_left]
              rfl
            · intro k h1 h2
              rw [hlen] at h2
              rwa [show k = got.length by omega]
          · have hmod : (c.r + 1) % 2 ^ 32 < 2 ^ 32 := Nat.mod_lt _ (by decide)
            have hrest : Pass dst target n { c with r := (c.r + 1) % 2 ^ 32 } (got ++ [c.char c.r]) _ :=
              ih hmod (Nat.mod_eq_of_lt hmod).symm
            obtain ⟨hleft, hle, hr', hgood, hstop, heof⟩ := hrest
            rw [hlen] at hleft hle
            refine ⟨by omega, by omega, ?_, ?_, hstop, heof⟩
            · rw [hr', hlen]
              dsimp only
              omega
            · intro k h1 h2
              by_cases hk : k = got.length
              · rwa [hk]
              · exact hgood k (by rw [hlen]; omega) h2

/-- What a call that has delivered `got` has done. -/
structure Delivered (dst : Nat → Bool) (target : Nat) (res : Return) : Prop where
  ret : res.ret = if res.why = some .empty then -1 else (res.got.length : Int)
  removed : res.removed = res.got.length + surplus res.why
  le : res.got.length ≤ target
  good : ∀ k < res.got.length, dst k = true
  stop : res.why = none → res.got.length < target ∧ dst res.got.length = false
  eof : res.why = some .eof → res.got = []

variable {left removed : Nat} {cs : List Cons}

/-- The call after a pass that it does not sleep in. -/
theorem pass_delivered {o : OutcomeTo} (hr : c.r < 2 ^ 32) (htarget : target < 2 ^ 31)
    (hleft : left + got.length = target) (hremoved : removed = got.length) (hgood : ∀ k < got.length, dst k = true)
    (h : Pass dst target left c got o) :
    (∀ k < o.got.length, dst k = true) ∧ Delivered dst target (o.ret target (removed + minus o.cons.r c.r)) := by
  obtain ⟨hl, hle, hrr, hg, hstop, heof⟩ := h
  have hcount : minus o.cons.r c.r = o.got.length - got.length + surplus o.why := by
    have hsmall : surplus o.why ≤ 1 := by
      unfold surplus
      split <;> omega
    rw [hrr, Nat.add_assoc, minus_add hr (by omega)]
  have hall : ∀ k < o.got.length, dst k = true := by
    intro k hk
    rcases Nat.lt_or_ge k got.length with h | h
    · exact hgood k h
    · exact hg k h hk
  refine ⟨hall, ?_, ?_, ?_, hall, ?_, ?_⟩
  · unfold OutcomeTo.ret
    dsimp only
    split
    · rfl
    · omega
  · unfold OutcomeTo.ret
    dsimp only
    omega
  · unfold OutcomeTo.ret
    dsimp only
    omega
  · intro hwhy
    obtain ⟨hne, hd⟩ := hstop hwhy
    exact ⟨by unfold OutcomeTo.ret; dsimp only; omega, hd⟩
  · intro hwhy
    have := heof hwhy
    exact List.length_eq_zero_iff.mp (by unfold OutcomeTo.ret; dsimp only; omega)

/-- What a call removes is what it delivers, and one character more if that one was refused or is
a control-D that ends the file. -/
theorem consoleread_removes (hr : c.r < 2 ^ 32) (hcs : ∀ c ∈ cs, c.r < 2 ^ 32)
    (htarget : target < 2 ^ 31) (hleft : left + got.length = target) (hremoved : removed = got.length)
    (hgood : ∀ k < got.length, dst k = true) : Delivered dst target (consoleread dst target left got removed c cs) := by
  induction cs generalizing left got removed c with
  | nil =>
    obtain ⟨hall, hdone⟩ := pass_delivered hr htarget hleft hremoved hgood (readLoopTo_pass hr)
    exact hdone
  | cons c' cs ih =>
    obtain ⟨hall, hdone⟩ := pass_delivered hr htarget hleft hremoved hgood (readLoopTo_pass hr)
    rw [consoleread]
    split
    next hwhy =>
      have hcount := hdone.removed
      have hlen : Pass dst target left c got _ := readLoopTo_pass hr
      simp only [OutcomeTo.ret, hwhy, surplus, Nat.add_zero] at hcount
      exact ih (hcs c' List.mem_cons_self) (fun d hd => hcs d (List.mem_cons_of_mem _ hd)) (by have := hlen.left; omega)
        hcount hall
    next => exact hdone

theorem waiting_nil (h : c.r = c.w) : c.waiting = [] := by
  rw [Cons.waiting, h, minus, if_pos (Nat.le_refl _), Nat.sub_self]
  rfl

theorem waiting_cons (h : c.Ranged) (hne : c.r ≠ c.w) :
    c.waiting = c.char c.r :: Cons.waiting { c with r := (c.r + 1) % 2 ^ 32 } := by
  obtain ⟨hr, hw⟩ := h
  have hlen : minus c.w c.r = minus c.w ((c.r + 1) % 2 ^ 32) + 1 := by
    unfold minus
    split <;> split <;> omega
  rw [Cons.waiting, hlen, List.range_succ_eq_map, List.map_cons, List.map_map, Nat.add_zero, Nat.mod_eq_of_lt hr]
  congr 1
  refine List.map_congr_left fun k _ => congrArg c.char ?_
  dsimp only [Function.comp]
  omega

/-- How a pass ends that is offered the characters up to `k`, where `rest` is still to come: it goes on with `rest` if
it waits, and otherwise ends where the offer does, or before that at a copy that fails. -/
def OutcomeTo.Meets (o : OutcomeTo) (k : Nat) (rest : List UInt8) : Prop :=
  match o.why with
  | none => o.got.length < k
  | some .empty => k = o.got.length + offered o.left rest
  | some _ => k = o.got.length

theorem readLoopTo_meets (h : c.Ranged) (rest : List UInt8) :
    (readLoopTo dst target n c got).Meets (got.length + offered n (c.waiting ++ rest)) rest := by
  induction n generalizing c got with
  | zero => exact rfl
  | succ n ih =>
    rw [readLoopTo]
    split
    next he =>
      rw [waiting_nil he]
      exact rfl
    next hne =>
      rw [waiting_cons h hne, List.cons_append, offered]
      dsimp only
      split
      next => split <;> exact rfl
      next =>
        split
        next =>
          refine Nat.lt_add_of_pos_right ?_
          split <;> omega
        next =>
          split
          next => exact (List.length_append : (got ++ [c.char c.r]).length = _).symm
          next =>
            have hrest := @ih { c with r := (c.r + 1) % 2 ^ 32 } (got ++ [c.char c.r]) ⟨Nat.mod_lt _ (by decide), h.2⟩
            rwa [List.length_append, List.length_singleton, Nat.add_assoc, Nat.add_comm 1] at hrest

theorem readLoopTo_good (h : c.Ranged) (hgood : ∀ k < got.length, dst k = true) :
    ∀ k < (readLoopTo dst target n c got).got.length, dst k = true := by
  intro k hk
  rcases Nat.lt_or_ge k got.length with hlt | hge
  · exact hgood k hlt
  · exact (readLoopTo_pass h.1).good k hge hk

/-- A pass that nothing follows ends at a copy that fails exactly when a character on offer is refused. -/
theorem readLoopTo_refused_iff (h : c.Ranged) (hgood : ∀ k < got.length, dst k = true) {rest : List UInt8}
    (hlast : (readLoopTo dst target n c got).why = some .empty → offered (readLoopTo dst target n c got).left rest = 0) :
    (readLoopTo dst target n c got).why = none ↔
      ∃ k < got.length + offered n (c.waiting ++ rest), dst k = false := by
  have hmeets : (readLoopTo dst target n c got).Meets _ rest := readLoopTo_meets h rest
  cases hwhy : (readLoopTo dst target n c got).why with
  | none =>
    simp only [OutcomeTo.Meets, hwhy] at hmeets
    exact iff_of_true rfl ⟨_, hmeets, ((readLoopTo_pass h.1).stop hwhy).2⟩
  | some e =>
    have hk : got.length + offered n (c.waiting ++ rest) = (readLoopTo dst target n c got).got.length := by
      simp only [OutcomeTo.Meets, hwhy] at hmeets
      cases e with
      | empty => rw [hmeets, hlast hwhy, Nat.add_zero]
      | full | newline | eof | kept => exact hmeets
    refine iff_of_false (Option.some_ne_none e) ?_
    rintro ⟨k, hlt, hd⟩
    rw [readLoopTo_good h hgood k (hk ▸ hlt)] at hd
    cases hd

/-- A call ends at a copy that fails exactly when the buffer refuses a character that the console offers it. -/
theorem consoleread_refused_iff (h : c.Ranged) (hcs : ∀ c ∈ cs, c.Ranged) (hgood : ∀ k < got.length, dst k = true) :
    (consoleread dst target left got removed c cs).why = none ↔
      ∃ k < got.length + offered left (c.waiting ++ cs.flatMap Cons.waiting), dst k = false := by
  induction cs generalizing left got removed c with
  | nil => exact readLoopTo_refused_iff h hgood fun _ => by cases (readLoopTo dst target left c got).left <;> rfl
  | cons c' cs ih =>
    rw [consoleread]
    split
    next hwhy =>
      have hmeets : (readLoopTo dst target left c got).Meets _ ((c' :: cs).flatMap Cons.waiting) := readLoopTo_meets h _
      simp only [OutcomeTo.Meets, hwhy] at hmeets
      rw [hmeets]
      exact ih (hcs c' List.mem_cons_self) (fun d hd => hcs d (List.mem_cons_of_mem _ hd)) (readLoopTo_good h hgood)
    next hwhy => exact readLoopTo_refused_iff h hgood fun he => absurd he hwhy

end Xv6.Console
