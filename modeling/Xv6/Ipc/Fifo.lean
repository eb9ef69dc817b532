/-
  Xv6.Ipc.Fifo — a pipe is a bounded queue.

  The counters run freely modulo 2^32 and index the buffer modulo `pipesize`, which divides
  2^32; the bytes in the buffer are those accepted and not yet taken.

  Proved, over every run of any number of writers, readers, closers and killers:
  - `pipe_is_a_fifo`: with user buffers that can be copied, the bytes delivered are a
    prefix of the bytes accepted, and `piperead` returns 0 for a positive count only on an empty
    pipe with its write end closed.
-/

import Xv6.Ipc.Pipe
import Xv6.Lib.Window

namespace Xv6.Ipc

open Xv6.Lib

/-- The bytes in the buffer, oldest first. -/
def Pipe.contents (pi : Pipe) : List UInt8 :=
  (List.range ((pi.nwrite + 2 ^ 32 - pi.nread) % 2 ^ 32)).map fun j => pi.data ((pi.nread + j) % pipesize)

/-- The counters and the buffer, against the bytes stored and removed so far. -/
structure Books (pi : Pipe) (accepted taken : List UInt8) : Prop where
  /-- No byte is lost: what was accepted was taken or is in the buffer. -/
  accepted_eq : accepted = taken ++ pi.contents
  queue : Queue pipesize (2 ^ 32) pi.data pi.nread pi.nwrite pi.contents

theorem contents_of_queue {pi : Pipe} {l : List UInt8} (h : Queue pipesize (2 ^ 32) pi.data pi.nread pi.nwrite l) :
    pi.contents = l := by
  unfold Pipe.contents
  rw [h.length (by decide)]
  exact h.window.eq_map.symm

section

variable {pi : Pipe} {acc tk : List UInt8} (h : Books pi acc tk)
include h

/-- A byte stored in a pipe that is not full overwrites none that is still to be taken. -/
theorem Books.put (hf : ¬ pi.Full) (ch : UInt8) : Books (pi.put ch) (acc ++ [ch]) tk := by
  have hroom : pi.contents.length < pipesize := by
    refine Nat.lt_of_le_of_ne h.queue.window.room fun he => hf ?_
    rw [Pipe.Full, h.queue.stop, he]
  have hq : Queue pipesize (2 ^ 32) (pi.put ch).data (pi.put ch).nread (pi.put ch).nwrite (pi.contents ++ [ch]) :=
    h.queue.push (by decide) hroom ch
  have hc := contents_of_queue hq
  exact ⟨by rw [hc, h.accepted_eq, List.append_assoc], hc.symm ▸ hq⟩

/-- The byte removed from a pipe that is not empty is the oldest one there. -/
theorem Books.drop (he : ¬ pi.Empty) : Books pi.drop acc (tk ++ [pi.head]) := by
  have hq := h.queue
  cases hl : pi.contents with
  | nil => exact absurd ((hq.empty_iff (by decide)).mpr hl) he
  | cons c l =>
    rw [hl] at hq
    obtain ⟨hhead, hrest⟩ := hq.pop (by decide)
    have hc : pi.drop.contents = l := contents_of_queue hrest
    refine ⟨?_, hc.symm ▸ hrest⟩
    rw [h.accepted_eq, hl, hc, Pipe.head, hhead, List.append_assoc]
    rfl

theorem Books.shut (w : Bool) : Books (pi.shut w) acc tk := by
  cases w
  · exact ⟨h.accepted_eq, h.queue⟩
  · exact ⟨h.accepted_eq, h.queue⟩

end

/-- What an action does to the queue: nothing, a byte in, or a byte out. -/
inductive Flow (s s' : St) : Prop
  | none : (∃ w, s'.pipe = s.pipe.shut w) ∨ s'.pipe = s.pipe → s'.accepted = s.accepted → s'.taken = s.taken →
      s'.delivered = s.delivered → Flow s s'
  | put (ch : UInt8) : ¬ s.pipe.Full → s'.pipe = s.pipe.put ch → s'.accepted = s.accepted ++ [ch] →
      s'.taken = s.taken → s'.delivered = s.delivered → Flow s s'
  | drop (p i : Nat) (n : Int) (dst : Nat → Bool) : ¬ s.pipe.Empty → s'.pipe = s.pipe.drop → s'.accepted = s.accepted →
      s'.taken = s.taken ++ [s.pipe.head] → s.pc p = .rcopy i n dst →
      (s'.delivered = s.delivered ++ [s.pipe.head] ∨ dst i = false) → Flow s s'

variable {s s' : St} {a : Act} {pi : Pipe}

theorem Step.flow (h : Step s a s') : Flow s s' := by
  cases h with
  | wput p i n src ch hp hpc hf => exact .put ch hf rfl rfl rfl rfl
  | rtake p i n dst hp hpc he hd => exact .drop p i n dst he rfl rfl rfl hpc (Or.inl rfl)
  | rlose p i n dst hp hpc he hd => exact .drop p i n dst he rfl rfl rfl hpc (Or.inr hd)
  | cacq p w => exact .none (Or.inl ⟨w, rfl⟩) rfl rfl rfl
  | wake p k next =>
    have hw : ∀ q : St, q = s.wake p k next.chan → q.pipe = s.pipe ∧ q.accepted = s.accepted ∧ q.taken = s.taken ∧
        q.delivered = s.delivered := by
      rintro q rfl
      unfold St.wake
      split <;> exact ⟨rfl, rfl, rfl, rfl⟩
    obtain ⟨h1, h2, h3, h4⟩ := hw _ rfl
    exact .none (Or.inr h1) h2 h3 h4
  | _ => exact .none (Or.inr rfl) rfl rfl rfl

theorem Books.step (h : Books s.pipe s.accepted s.taken) (hs : Step s a s') :
    Books s'.pipe s'.accepted s'.taken := by
  cases hs.flow with
  | none hpi ha ht _ =>
    rw [ha, ht]
    rcases hpi with ⟨w, hw⟩ | hw
    · rw [hw]
      exact h.shut w
    · rw [hw]
      exact h
  | put ch hf hpi ha ht _ =>
    rw [hpi, ha, ht]
    exact h.put hf ch
  | drop p i n dst he hpi ha ht =>
    rw [hpi, ha, ht]
    exact h.drop he

/-- In every run, the buffer holds what was accepted and not taken, at most `pipesize` bytes. -/
theorem books_reached {ok : St → Act → Prop} (h : Reached ok s) : Books s.pipe s.accepted s.taken := by
  have hinit : init.pipe.contents = [] := rfl
  exact h.inv (I := fun s => Books s.pipe s.accepted s.taken) ⟨rfl, hinit.symm ▸ .empty _ _ (by decide)⟩
    fun s a s' hb _ hs => hb.step (step_of_act hs)

/-! ## Valid buffers -/

/-- Calls whose user memory can be copied. -/
def Valid : St → Act → Prop
  | _, .write _ _ src => ∀ j, src j ≠ none
  | _, .read _ _ dst => ∀ j, dst j = true
  | _, _ => True

/-- What a reader that holds the lock knows. -/
def Knows (pi : Pipe) : Pc → Prop
  | .racq _ dst | .rloop _ dst => ∀ j, dst j = true
  | .rcopy i _ dst => (∀ j, dst j = true) ∧ (i = 0 → ¬ (pi.Empty ∧ pi.writeopen = true))
  | .waking _ (.rret i n) => i = 0 → 0 < n → pi.Empty ∧ pi.writeopen = false
  | _ => True

/-- A place outside the lock says nothing about the pipe. -/
theorem knows_of_not_holds {pi' : Pipe} {x : Pc} (hx : x.holds = false) (h : Knows pi x) : Knows pi' x := by
  cases x with
  | waking k next => cases hx
  | rcopy i n dst => cases hx
  | _ => exact h

structure Fifo (s : St) : Prop where
  locked : Locked s
  knows : ∀ p, Knows s.pipe (s.pc p)
  delivered : s.delivered = s.taken

section

variable {s s' : St} {p : Nat} {x : Pc}

/-- The other processes know what they knew: they do not hold the lock, or the pipe is as it was. -/
theorem Fifo.knows_move (h : Fifo s) (hpc : s'.pc = update s.pc p x) (hx : Knows s'.pipe x)
    (hpi : s'.pipe = s.pipe ∨ s.lock = none ∨ s.lock = some p) (q : Nat) : Knows s'.pipe (s'.pc q) := by
  by_cases hq : q = p
  · rw [hpc, hq, update_self]
    exact hx
  · rw [hpc, update_of_ne hq]
    rcases hpi with hpi | hl
    · rw [hpi]
      exact h.knows q
    · refine knows_of_not_holds ?_ (h.knows q)
      rw [Bool.eq_false_iff]
      intro hh
      rw [(h.locked.holder q).mp hh] at hl
      rcases hl with hl | hl
      · cases hl
      · exact hq (Option.some.inj hl)

/-- The place where an action puts its process. -/
theorem Step.place (h : Fifo s) (hv : Valid s a) (hs : Step s a s') :
    ∃ p x, s'.pc = update s.pc p x ∧ Knows s'.pipe x ∧ (s'.pipe = s.pipe ∨ s.lock = none ∨ s.lock = some p) := by
  have hlock : ∀ {p x}, s.pc p = x → x.holds = true → s.lock = some p := fun hp hx =>
    (h.locked.holder _).mp (by rw [hp]; exact hx)
  cases hs with
  | write p n src | close p w | wfull p | wend p => exact ⟨p, _, pc_goto .., trivial, Or.inl rfl⟩
  | read p n dst => exact ⟨p, _, pc_goto .., hv, Or.inl rfl⟩
  | quiet p y a hp hq =>
    refine ⟨p, _, pc_setProc .., ?_, Or.inl rfl⟩
    rw [hq.pc]
    exact h.knows p
  | wacq p i n src => exact ⟨p, _, pc_acquire .., trivial, Or.inl rfl⟩
  | wstop p | rstop p | ret p => exact ⟨p, _, pc_leave .., trivial, Or.inl rfl⟩
  | wput p i n src ch hp hpc => exact ⟨p, _, pc_goto .., trivial, Or.inr (Or.inr (hlock hpc rfl))⟩
  | racq p n dst hp hpc =>
    have hk := h.knows p
    rw [hpc] at hk
    exact ⟨p, _, pc_acquire .., hk, Or.inl rfl⟩
  | rsleep p n dst hp hpc =>
    have hk := h.knows p
    rw [hpc] at hk
    exact ⟨p, _, pc_sleep .., hk, Or.inl rfl⟩
  | rstart p n dst hp hpc hne =>
    have hk := h.knows p
    rw [hpc] at hk
    exact ⟨p, _, pc_goto .., ⟨hk, fun _ => hne⟩, Or.inl rfl⟩
  | rtake p i n dst hp hpc =>
    have hk := h.knows p
    rw [hpc] at hk
    exact ⟨p, _, pc_goto .., ⟨hk.1, fun h0 => by cases h0⟩, Or.inr (Or.inr (hlock hpc rfl))⟩
  | rlose p i n dst hp hpc _ hd =>
    have hk := h.knows p
    rw [hpc] at hk
    rw [hk.1 i] at hd
    cases hd
  | rend p i n dst hp hpc hend =>
    have hk := h.knows p
    rw [hpc] at hk
    refine ⟨p, _, pc_goto .., fun h0 hn => ?_, Or.inl rfl⟩
    subst h0
    -- the loop ended at its first test, so the pipe is empty
    have he : s.pipe.Empty := hend.resolve_right (by omega)
    have hw : ¬ s.pipe.writeopen = true := fun hw => hk.2 rfl ⟨he, hw⟩
    exact ⟨he, Bool.not_eq_true _ ▸ hw⟩
  | cacq p w hp hpc h0 => exact ⟨p, _, pc_acquire .., by cases w <;> trivial, Or.inr (Or.inl h0)⟩
  | wake p k next hp hpc =>
    have hk := h.knows p
    rw [hpc] at hk
    refine ⟨p, .waking (k + 1) next, by rw [pc_goto, pc_wake], ?_, Or.inl (wake_pipe ..)⟩
    show Knows (s.wake p k next.chan).pipe _
    rw [wake_pipe]
    cases next <;> exact hk
  | wsleep p k i n src => exact ⟨p, _, pc_sleep .., trivial, Or.inl rfl⟩

theorem Fifo.step (h : Fifo s) (hv : Valid s a) (hs : Step s a s') : Fifo s' := by
  obtain ⟨p, x, hpc, hx, hpi⟩ := hs.place h hv
  refine ⟨h.locked.step hs, fun q => h.knows_move hpc hx hpi q, ?_⟩
  cases hs.flow with
  | none _ _ ht hd | put _ _ _ _ ht hd => rw [hd, ht, h.delivered]
  | drop q i n dst _ _ _ ht hq hd =>
    have hk := h.knows q
    rw [hq] at hk
    rcases hd with hd | hd
    · rw [hd, ht, h.delivered]
    · rw [hk.1 i] at hd
      cases hd

end

theorem fifo_reached (h : Reached Valid s) : Fifo s :=
  h.inv ⟨locked_init, fun _ => trivial, rfl⟩ fun _ _ _ hf hv hs => hf.step hv (step_of_act hs)

/-- The count of the `piperead` that a process is in. -/
def Pc.reading : Pc → Option Int
  | .racq n _ | .rloop n _ | .rcopy _ n _ | .waking _ (.rret _ n) => some n
  | _ => none

/-- `piperead` with a positive count returns 0 at the end of file only. -/
theorem Fifo.read_zero {p : Nat} {n : Int} (h : Fifo s) (hs : act s (.step p) = some s')
    (hread : (s.pc p).reading = some n) (hn : 0 < n) (hout : s'.pc p = .out) (hret : (s'.proc p).ret = 0) :
    s.pipe.Empty ∧ s.pipe.writeopen = false := by
  have hend : ∀ x, x ≠ Pc.out → s'.pc = update s.pc p x → s.pipe.Empty ∧ s.pipe.writeopen = false := by
    intro x hx hpc
    rw [hpc, update_self] at hout
    exact absurd hout hx
  cases step_of_act hs with
  | quiet p y a hp hq ha => exact absurd rfl (ha _)
  | rstop p n dst =>
    simp [St.leave, update] at hret
  | ret p k next r hp hpc hk hnext hr =>
    cases next with
    | rret i m =>
      have hkn := h.knows p
      rw [hpc] at hkn hread
      have hi : r = 0 := by simpa [St.leave, update] using hret
      rw [hr i m rfl] at hi
      cases hread
      exact hkn (by omega) hn
    | _ =>
      rw [hpc] at hread
      cases hread
  | wstop p i n src hp hpc =>
    rw [hpc] at hread
    cases hread
  | wake p k next => exact hend (.waking (k + 1) next) (by simp) (by rw [pc_goto, pc_wake])
  | wsleep p k i n src | rsleep p n dst => exact hend _ (by simp) (pc_sleep ..)
  | wacq | racq | cacq => exact hend _ (by simp) (pc_acquire ..)
  | _ => exact hend _ (by simp) (pc_goto ..)

/-- A pipe is a bounded first-in first-out queue. -/
theorem pipe_is_a_fifo (s : St) (h : Reached Valid s) :
    (s.pipe.nwrite + 2 ^ 32 - s.pipe.nread) % 2 ^ 32 ≤ pipesize ∧
    s.delivered <+: s.accepted ∧ s.accepted = s.delivered ++ s.pipe.contents ∧
    ∀ p n s', act s (.step p) = some s' → (s.pc p).reading = some n → 0 < n → s'.pc p = .out → (s'.proc p).ret = 0 →
      s.pipe.Empty ∧ s.pipe.writeopen = false := by
  have hb := books_reached h
  have hf := fifo_reached h
  refine ⟨?_, ?_, ?_, fun p n s' hs hread hn hout hret => hf.read_zero hs hread hn hout hret⟩
  · rw [hb.queue.length (by decide)]
    exact hb.queue.window.room
  · rw [hf.delivered, hb.accepted_eq]
    exact List.prefix_append _ _
  · rw [hf.delivered]
    exact hb.accepted_eq

/-- One writer and one reader, two bytes. -/
def twoBytes : List Act :=
  [.sched 0, .sched 1, .write 0 2 fun _ => some 7, .read 1 2 fun _ => true] ++ List.replicate 69 (.step 0) ++
    List.replicate 4 (.step 1)

theorem twoBytes_valid : ∀ a ∈ twoBytes, ∀ s, Valid s a := by
  intro a ha s
  simp only [twoBytes, List.mem_append, List.mem_cons, List.not_mem_nil, or_false, List.mem_replicate] at ha
  rcases ha with ((rfl | rfl | rfl | rfl) | ⟨-, rfl⟩) | ⟨-, rfl⟩ <;> simp [Valid]

theorem pipe_is_a_fifo_two : ∃ s, Reached Valid s ∧ s.delivered = [7, 7] ∧ s.delivered <+: s.accepted := by
  have hrun : (run act init twoBytes).map (·.delivered) = some [7, 7] := by decide +kernel
  obtain ⟨s, hs, hd⟩ := Option.map_eq_some_iff.mp hrun
  have hr : Reached Valid s := reach_of_run twoBytes_valid hs
  exact ⟨s, hr, hd, (pipe_is_a_fifo s hr).2.1⟩

end Xv6.Ipc
