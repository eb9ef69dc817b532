/-
  Xv6.Ipc.Refused — `piperead` when a copy to the reader's buffer fails.

  The copy loop of `piperead` holds `pi->lock` from its first byte to its last, so nothing but
  the loop changes the pipe meanwhile (`Step.others`). It advances `nread` before it copies: a
  byte that the buffer refuses has left the pipe. `piperead_copies` says what one call delivers
  and what it removes, for any state of the pipe and any buffer, whatever the other processes do.
-/

import Xv6.Ipc.Fifo

namespace Xv6.Ipc

open Xv6.Lib

variable {s0 s s' : St} {p i : Nat} {n : Int} {dst : Nat → Bool} {a : Act}

/-- While `p` holds the lock, no action but its own moves it or a byte. -/
theorem Step.others (h : Locked s) (hp : (s.pc p).holds = true) (hs : Step s a s') (ha : a ≠ .step p) :
    s'.pc p = s.pc p ∧ s'.taken = s.taken ∧ s'.delivered = s.delivered ∧ s'.accepted = s.accepted := by
  have hlock : s.lock = some p := (h.holder p).mp hp
  have hheld : ∀ {q x}, s.pc q = x → x.holds = true → q = p := by
    intro q x hq hx
    have hq' := (h.holder q).mp (hq ▸ hx)
    exact Option.some.inj (hq'.symm.trans hlock)
  have hidle : ∀ {q x}, s.idle q → (s.goto q x).pc p = s.pc p := by
    intro q x hq
    have hne : p ≠ q := by
      rintro rfl
      rw [St.pc, Pc.eq_out hq.2.2] at hp
      cases hp
    rw [pc_goto, update_of_ne hne]
  cases hs with
  | write q m src hq | read q m dst hq | close q w hq => exact ⟨hidle hq, rfl, rfl, rfl⟩
  | quiet q y _ hq hy =>
    refine ⟨?_, rfl, rfl, rfl⟩
    rw [pc_setProc, hy.pc]
    exact congrFun (update_eq_self _ _) p
  | wacq q i m src _ _ h0 | racq q m dst _ _ h0 | cacq q w _ _ h0 =>
    rw [h0] at hlock
    cases hlock
  | wstop q i m src _ hq | wfull q i m src _ hq | wput q i m src ch _ hq | wend q i m src _ hq | rstop q m dst _ hq
    | rsleep q m dst _ hq | rstart q m dst _ hq | rtake q i m dst _ hq | rlose q i m dst _ hq | rend q i m dst _ hq
    | wake q k next _ hq | wsleep q k i m src _ hq | ret q k next r _ hq =>
    exact absurd (congrArg Act.step (hheld hq rfl)) ha

/-- What the loop can take: the bytes in the pipe, at most `n`. -/
def Pipe.offered (pi : Pipe) (n : Int) : Nat := min n.toNat pi.contents.length

/-- Process `p` has copied `i` bytes of those it found in the pipe. -/
structure Copying (s0 : St) (p : Nat) (n : Int) (dst : Nat → Bool) (i : Nat) (s : St) : Prop where
  pc : s.pc p = .rcopy i n dst
  locked : Locked s
  books : Books s.pipe s.accepted s.taken
  le : i ≤ s0.pipe.offered n
  good : ∀ k < i, dst k = true
  taken : s.taken = s0.taken ++ s0.pipe.contents.take i
  delivered : s.delivered = s0.delivered ++ s0.pipe.contents.take i
  accepted : s.accepted = s0.taken ++ s0.pipe.contents

/-- Process `p` has left the loop with `i` bytes counted. -/
structure Left (s0 : St) (p : Nat) (n : Int) (dst : Nat → Bool) (i : Nat) (s : St) : Prop where
  le : i ≤ s0.pipe.offered n
  good : ∀ k < i, dst k = true
  stop : i < s0.pipe.offered n → dst i = false
  delivered : s.delivered = s0.delivered ++ s0.pipe.contents.take i
  /-- The byte that was refused is gone too. -/
  taken : s.taken = s0.taken ++ s0.pipe.contents.take (if i < s0.pipe.offered n then i + 1 else i)

theorem Books.contents_cons {pi : Pipe} {acc tk : List UInt8} (h : Books pi acc tk) (he : ¬ pi.Empty) :
    pi.contents = pi.head :: pi.drop.contents := by
  have hnow := h.accepted_eq
  rw [(h.drop he).accepted_eq, List.append_assoc] at hnow
  exact (List.append_cancel_left hnow).symm

theorem Books.contents_nil {pi : Pipe} {acc tk : List UInt8} (h : Books pi acc tk) (he : pi.Empty) : pi.contents = [] :=
  (h.queue.empty_iff (by decide)).mp he

/-- What is left in the pipe. -/
theorem Copying.contents (h : Copying s0 p n dst i s) : s.pipe.contents = s0.pipe.contents.drop i := by
  have hacc := h.books.accepted_eq
  rw [h.accepted, h.taken, List.append_assoc] at hacc
  have hsplit := (List.take_append_drop i s0.pipe.contents).trans (List.append_cancel_left hacc)
  exact (List.append_cancel_left hsplit).symm

/-- The loop goes on to a byte that is there. -/
theorem Copying.next (h : Copying s0 p n dst i s) (hn : (i : Int) < n) (he : ¬ s.pipe.Empty) :
    i < s0.pipe.offered n ∧ s0.pipe.contents.take (i + 1) = s0.pipe.contents.take i ++ [s.pipe.head] := by
  have hcons := h.books.contents_cons he
  rw [h.contents] at hcons
  have hlt : i < s0.pipe.contents.length := by
    by_contra hge
    rw [List.drop_eq_nil_of_le (by omega)] at hcons
    cases hcons
  refine ⟨?_, ?_⟩
  · unfold Pipe.offered
    omega
  · rw [List.take_add_one, List.getElem?_eq_getElem hlt]
    rw [List.drop_eq_getElem_cons hlt] at hcons
    rw [(List.cons.inj hcons).1]
    rfl

/-- A step of `p` itself: one more byte, or the end of the loop. -/
theorem Copying.step (h : Copying s0 p n dst i s) (hs : act s (.step p) = some s') :
    Copying s0 p n dst (i + 1) s' ∨ s'.pc p = .waking 0 (.rret i n) ∧ Left s0 p n dst i s' := by
  have hlocked := h.locked.step (step_of_act hs)
  have hbooks := h.books.step (step_of_act hs)
  have hadv := (Option.ite_none_right_eq_some.mp hs).2
  have hpc : (s.proc p).pc = .rcopy i n dst := h.pc
  have hle := h.le
  simp only [advance, hpc] at hadv
  split at hadv
  next hn =>
    split at hadv
    next he =>
      -- the pipe is empty
      obtain rfl := Option.some.inj hadv
      have hnil := h.books.contents_nil he
      rw [h.contents, List.drop_eq_nil_iff] at hnil
      have hall : ¬ i < s0.pipe.offered n := by
        unfold Pipe.offered
        omega
      refine .inr ⟨by rw [pc_goto, update_self], hle, h.good, fun hlt => absurd hlt hall, h.delivered, ?_⟩
      rw [if_neg hall]
      exact h.taken
    next he =>
      obtain ⟨hlt, htake⟩ := h.next hn he
      split at hadv
      next hd =>
        obtain rfl := Option.some.inj hadv
        refine .inl ⟨by rw [pc_goto, update_self], hlocked, hbooks, hlt, ?_, ?_, ?_, h.accepted⟩
        · intro k hk
          rcases Nat.lt_succ_iff_lt_or_eq.mp hk with hk | rfl
          · exact h.good k hk
          · exact hd
        · rw [htake, ← List.append_assoc, ← h.taken]
          rfl
        · rw [htake, ← List.append_assoc, ← h.delivered]
          rfl
      next hd =>
        obtain rfl := Option.some.inj hadv
        refine .inr ⟨by rw [pc_goto, update_self], hle, h.good, fun _ => by simpa using hd, h.delivered, ?_⟩
        rw [if_pos hlt, htake, ← List.append_assoc, ← h.taken]
        rfl
  next hn =>
    obtain rfl := Option.some.inj hadv
    have hall : ¬ i < s0.pipe.offered n := by
      unfold Pipe.offered
      omega
    refine .inr ⟨by rw [pc_goto, update_self], hle, h.good, fun hlt => absurd hlt hall, h.delivered, ?_⟩
    rw [if_neg hall]
    exact h.taken

/-- Process `p` is in the copy loop. -/
def InLoop (p : Nat) (n : Int) (dst : Nat → Bool) (s : St) (_ : Act) : Prop := ∃ i, s.pc p = .rcopy i n dst

/-- A call of `piperead` from its first byte to the end of its copy loop, among any other
actions: `i` bytes are counted, those before the first one that the buffer refuses. -/
theorem piperead_copies {ok : St → Act → Prop} (h0 : Reached ok s0) (hstart : s0.pc p = .rcopy 0 n dst)
    (hrun : Reach act (InLoop p n dst) s0 s) (hend : s.pc p = .waking 0 (.rret i n)) : Left s0 p n dst i s := by
  have hlocked : Locked s0 := h0.inv locked_init fun _ _ _ hl _ hs => hl.step (step_of_act hs)
  have hbooks := books_reached h0
  have hinv : (∃ j, Copying s0 p n dst j s) ∨ ∃ j, s.pc p = .waking 0 (.rret j n) ∧ Left s0 p n dst j s := by
    refine hrun.inv (I := fun s => (∃ j, Copying s0 p n dst j s) ∨
      ∃ j, s.pc p = .waking 0 (.rret j n) ∧ Left s0 p n dst j s) (.inl ⟨0, ?_⟩) ?_
    · exact ⟨hstart, hlocked, hbooks, Nat.zero_le _, nofun, by simp, by simp, hbooks.accepted_eq⟩
    · intro t a t' ht hok hs
      obtain ⟨k, hk⟩ := hok
      rcases ht with ⟨j, hc⟩ | ⟨j, hpc, -⟩
      · by_cases ha : a = .step p
        · subst ha
          rcases hc.step hs with hc' | hl
          · exact .inl ⟨j + 1, hc'⟩
          · exact .inr ⟨j, hl⟩
        · have hstep := step_of_act hs
          obtain ⟨hpc, ht, hd, hacc⟩ := hstep.others hc.locked (by rw [hc.pc]; rfl) ha
          refine .inl ⟨j, hpc.trans hc.pc, hc.locked.step hstep, hc.books.step hstep, hc.le, hc.good, ?_, ?_, ?_⟩
          · rw [ht, hc.taken]
          · rw [hd, hc.delivered]
          · rw [hacc, hc.accepted]
      · rw [hk] at hpc
        cases hpc
  rcases hinv with ⟨j, hc⟩ | ⟨j, hpc, hl⟩
  · rw [hc.pc] at hend
    cases hend
  · rw [hpc] at hend
    cases hend
    exact hl

end Xv6.Ipc
