/-
  Xv6.Log.Group — group commit (kernel/log.c: `begin_op`, `log_write`, `end_op`, `commit`),
  at the granularity of `log.lock`.

  Each of `N` processes runs `begin_op; log_write*; end_op` over and over. A critical
  section of `log.lock` is one event; `sleep(&log, &log.lock)` releases the lock and goes
  to sleep in it, and a sleeper that was woken (by `wakeup(&log)`, or by a kill) tests the
  conditions of `begin_op` again in a later event. `commit()` runs without the lock, in
  two events that others interleave with: the transaction is written and installed
  (`commitLog`), then `log.lh.n = 0` (`clearHead`); `finish` is the last critical section
  of `end_op`.

  Kept beside the source's fields: the block numbers passed to `log_write` since the last
  commit (`since`), the writes of each operation (in its process while it runs, in
  `finished` once it ended), and the committed transactions (`txs`).

  Proved: `group_commit`.
-/

import Xv6.Param
import Xv6.Lib.Count

namespace Xv6.Log.Group

open Xv6.Lib (countOf countOf_congr countOf_eq_zero countOf_pos countOf_update)
open Function (update)

inductive PSt where
  | idle
  /-- In `begin_op`, asleep on `&log`. -/
  | asleep
  /-- In `begin_op`, made runnable again. -/
  | woken
  /-- Between `begin_op` and `end_op`, with the blocks logged so far. -/
  | inOp (w : List Nat)
  /-- In `end_op` with `do_commit = 1`, before `commit()` has written anything. -/
  | committing
  | installed
  | cleared
  deriving DecidableEq, Repr

def PSt.isOp : PSt → Bool
  | .inOp _ => true
  | _ => false

def PSt.inCommit : PSt → Bool
  | .committing => true
  | .installed => true
  | .cleared => true
  | _ => false

/-- A committed transaction: its blocks, and the writes of each operation in it. -/
structure Tx where
  blocks : List Nat
  ops : List (List Nat)
  deriving DecidableEq, Repr

structure St (N : Nat) where
  outstanding : Nat
  committing : Bool
  lh : List Nat
  proc : Fin N → PSt
  since : List Nat
  finished : List (List Nat)
  txs : List Tx

inductive Panic where
  | tooBigATransaction
  | logWriteOutsideOfTrans
  | logCommitting
  deriving DecidableEq, Repr

inductive Ev (N : Nat) where
  | begin (p : Fin N)
  | logWrite (p : Fin N) (b : Nat)
  | endOp (p : Fin N)
  | commitLog (p : Fin N)
  | clearHead (p : Fin N)
  | finish (p : Fin N)
  | kill (p : Fin N)
  deriving DecidableEq, Repr

variable {N : Nat}

def init : St N := ⟨0, false, [], fun _ => .idle, [], [], []⟩

/-- `log_write`'s search: the block's entry if it is there (absorption), else a new one. -/
def absorb : List Nat → Nat → List Nat
  | [], b => [b]
  | x :: xs, b => if x = b then b :: xs else x :: absorb xs b

/-- `wakeup(&log)`. -/
def wakeup (proc : Fin N → PSt) : Fin N → PSt := fun q => if proc q = .asleep then .woken else proc q

/-- `none`: the process is not at this point of its code. -/
def step (size : Nat) (s : St N) : Ev N → Option (Except Panic (St N))
  | .begin p =>
    if s.proc p = .idle ∨ s.proc p = .woken then
      if s.committing then some (.ok { s with proc := update s.proc p .asleep })
      else if s.lh.length + (s.outstanding + 1) * maxopblocks > logsize then
        some (.ok { s with proc := update s.proc p .asleep })
      else some (.ok { s with proc := update s.proc p (.inOp []), outstanding := s.outstanding + 1 })
    else none
  | .logWrite p b =>
    match s.proc p with
    | .inOp w =>
      if s.lh.length ≥ logsize ∨ s.lh.length ≥ size - 1 then some (.error .tooBigATransaction)
      else if s.outstanding < 1 then some (.error .logWriteOutsideOfTrans)
      else some (.ok { s with proc := update s.proc p (.inOp (b :: w)), lh := absorb s.lh b, since := b :: s.since })
    | _ => none
  | .endOp p =>
    match s.proc p with
    | .inOp w =>
      if s.committing then some (.error .logCommitting)
      else if s.outstanding - 1 = 0 then
        some (.ok { s with proc := update s.proc p .committing, outstanding := 0, committing := true,
                           finished := s.finished ++ [w] })
      else
        some (.ok { s with outstanding := s.outstanding - 1, finished := s.finished ++ [w],
                           proc := wakeup (update s.proc p .idle) })
    | _ => none
  | .commitLog p =>
    if s.proc p = .committing then
      if s.lh.length > 0 then some (.ok { s with proc := update s.proc p .installed, txs := s.txs ++ [⟨s.lh, s.finished⟩] })
      else some (.ok { s with proc := update s.proc p .cleared, since := [], finished := [] })
    else none
  | .clearHead p =>
    if s.proc p = .installed then some (.ok { s with proc := update s.proc p .cleared, lh := [], since := [], finished := [] })
    else none
  | .finish p =>
    if s.proc p = .cleared then
      some (.ok { s with committing := false, proc := wakeup (update s.proc p .idle) })
    else none
  | .kill p => if s.proc p = .asleep then some (.ok { s with proc := update s.proc p .woken }) else none

inductive Reach (size : Nat) : St N → Prop
  | init : Reach size init
  | step {s s' : St N} (e : Ev N) : Reach size s → step size s e = some (.ok s') → Reach size s'

/-! ## What an event does -/

/-- The events that do not panic, with the tests that let them through. -/
inductive Step (size : Nat) (s : St N) : Ev N → St N → Prop
  | sleep (p : Fin N) : s.proc p = .idle ∨ s.proc p = .woken →
      s.committing = true ∨ logsize < s.lh.length + (s.outstanding + 1) * maxopblocks →
      Step size s (.begin p) { s with proc := update s.proc p .asleep }
  | enter (p : Fin N) : s.proc p = .idle ∨ s.proc p = .woken → s.committing = false →
      s.lh.length + (s.outstanding + 1) * maxopblocks ≤ logsize →
      Step size s (.begin p) { s with proc := update s.proc p (.inOp []), outstanding := s.outstanding + 1 }
  | logWrite (p : Fin N) (b : Nat) (w : List Nat) : s.proc p = .inOp w → s.lh.length < logsize →
      s.lh.length < size - 1 → 0 < s.outstanding →
      Step size s (.logWrite p b)
        { s with proc := update s.proc p (.inOp (b :: w)), lh := absorb s.lh b, since := b :: s.since }
  | last (p : Fin N) (w : List Nat) : s.proc p = .inOp w → s.committing = false → s.outstanding ≤ 1 →
      Step size s (.endOp p)
        { s with proc := update s.proc p .committing, outstanding := 0, committing := true,
                 finished := s.finished ++ [w] }
  | leave (p : Fin N) (w : List Nat) : s.proc p = .inOp w → s.committing = false → 1 < s.outstanding →
      Step size s (.endOp p) { s with outstanding := s.outstanding - 1, finished := s.finished ++ [w],
                                      proc := wakeup (update s.proc p .idle) }
  | commitLog (p : Fin N) : s.proc p = .committing → s.lh ≠ [] →
      Step size s (.commitLog p) { s with proc := update s.proc p .installed, txs := s.txs ++ [⟨s.lh, s.finished⟩] }
  | commitNothing (p : Fin N) : s.proc p = .committing → s.lh = [] →
      Step size s (.commitLog p) { s with proc := update s.proc p .cleared, since := [], finished := [] }
  | clearHead (p : Fin N) : s.proc p = .installed →
      Step size s (.clearHead p) { s with proc := update s.proc p .cleared, lh := [], since := [], finished := [] }
  | finish (p : Fin N) : s.proc p = .cleared →
      Step size s (.finish p) { s with committing := false, proc := wakeup (update s.proc p .idle) }
  | kill (p : Fin N) : s.proc p = .asleep → Step size s (.kill p) { s with proc := update s.proc p .woken }

variable {size b : Nat} {s s' : St N} {e : Ev N} {l w : List Nat} {f : Fin N → PSt} {q p : Fin N} {x y : PSt}

theorem step_ok (h : step size s e = some (.ok s')) : Step size s e s' := by
  cases e with simp only [step] at h
  | begin p =>
    split at h
    · rename_i hp
      split at h
      · cases h; exact .sleep p hp (Or.inl ‹_›)
      · rename_i hc
        split at h
        · cases h; exact .sleep p hp (Or.inr ‹_›)
        · cases h; exact .enter p hp (by simpa using hc) (by omega)
    · cases h
  | logWrite p b =>
    split at h
    · rename_i w hw
      split at h
      · cases h
      · rename_i hn
        split at h
        · cases h
        · cases h; exact .logWrite p b w hw (by omega) (by omega) (by omega)
    · cases h
  | endOp p =>
    split at h
    · rename_i w hw
      split at h
      · cases h
      · rename_i hc
        have hc' : s.committing = false := by simpa using hc
        split at h
        · cases h; exact .last p w hw hc' (by omega)
        · cases h; exact .leave p w hw hc' (by omega)
    · cases h
  | commitLog p =>
    split at h
    · rename_i hp
      split at h
      · rename_i hl; cases h; exact .commitLog p hp (List.length_pos_iff.mp hl)
      · rename_i hl; cases h; exact .commitNothing p hp (List.length_eq_zero_iff.mp (by omega))
    · cases h
  | clearHead p =>
    split at h
    · cases h; exact .clearHead p ‹_›
    · cases h
  | finish p =>
    split at h
    · cases h; exact .finish p ‹_›
    · cases h
  | kill p =>
    split at h
    · cases h; exact .kill p ‹_›
    · cases h

/-! ## Small facts -/

theorem mem_absorb {c : Nat} : c ∈ absorb l b ↔ c = b ∨ c ∈ l := by
  induction l with
  | nil => simp [absorb]
  | cons x xs ih =>
    simp only [absorb]
    split
    · rename_i e; subst e; simp
    · simp only [List.mem_cons, ih]
      exact or_left_comm

theorem absorb_nodup (h : l.Nodup) : (absorb l b).Nodup := by
  induction l with
  | nil => simp [absorb]
  | cons x xs ih =>
    obtain ⟨hx, hxs⟩ := List.nodup_cons.mp h
    simp only [absorb]
    split
    · rename_i e; subst e; exact h
    · rename_i hne
      refine List.nodup_cons.mpr ⟨fun hm => ?_, ih hxs⟩
      rcases mem_absorb.mp hm with h | h
      · exact hne h
      · exact hx h

theorem wakeup_eq (hx : x ≠ .asleep) (hw : x ≠ .woken) :
    wakeup f q = x ↔ f q = x := by
  unfold wakeup
  split
  · rename_i h; rw [h]; exact ⟨fun h => absurd h.symm hw, fun h => absurd h.symm hx⟩
  · exact Iff.rfl

theorem wakeup_not_asleep (f : Fin N → PSt) (q : Fin N) : wakeup f q ≠ .asleep := by
  unfold wakeup
  split
  · intro h; cases h
  · assumption

theorem countOf_wakeup (P : PSt → Bool) (h : P .asleep = P .woken) (f : Fin N → PSt) :
    countOf P (wakeup f) = countOf P f := by
  apply countOf_congr
  intro q
  unfold wakeup
  split
  · rename_i e; rw [e, h]
  · rfl

/-- Replacing a process's state changes the count by the old and the new share. -/
theorem countOf_set (P : PSt → Bool) (h : f p = x) :
    countOf P (update f p y) + (P x).toNat = countOf P f + (P y).toNat := by
  rw [← h]; exact countOf_update P f p y

theorem countOf_same (P : PSt → Bool) (h : P (f p) = P y) : countOf P (update f p y) = countOf P f := by
  have := countOf_update P f p y
  rw [h] at this
  omega

theorem isOp_pos (h : f p = .inOp w) : 0 < countOf PSt.isOp f :=
  (countOf_pos _).mpr ⟨p, by rw [h]; rfl⟩

theorem update_op_out (hx : x.isOp = false) (q : Fin N) (v : List Nat) :
    update f p x q = .inOp v ↔ q ≠ p ∧ f q = .inOp v := by
  by_cases e : q = p
  · subst e
    rw [Function.update_self]
    exact ⟨fun h => absurd (h ▸ hx) (by simp [PSt.isOp]), fun h => absurd rfl h.1⟩
  · rw [Function.update_of_ne e]; exact ⟨fun h => ⟨e, h⟩, fun h => h.2⟩

theorem update_inOp (hx : x.isOp = false) (hp : ∀ v, f p ≠ .inOp v) : update f p x q = .inOp w ↔ f q = .inOp w :=
  (update_op_out hx q w).trans (and_iff_right_of_imp fun h e => hp w (e ▸ h))

/-! ## The invariant -/

structure Inv (s : St N) : Prop where
  count : countOf PSt.isOp s.proc = s.outstanding
  comm : countOf PSt.inCommit s.proc = s.committing.toNat
  excl : s.committing = true → s.outstanding = 0
  nodup : s.lh.Nodup
  logged : ∀ b, b ∈ s.lh ↔ b ∈ s.since
  writes : ∀ b, b ∈ s.since ↔ (∃ w ∈ s.finished, b ∈ w) ∨ ∃ p w, s.proc p = .inOp w ∧ b ∈ w
  empty : s.outstanding = 0 → s.committing = false → s.lh = []
  cleared : ∀ p, s.proc p = .cleared → s.lh = []
  txs : ∀ t ∈ s.txs, ∀ b, b ∈ t.blocks ↔ ∃ w ∈ t.ops, b ∈ w
  asleep : ∀ p, s.proc p = .asleep → 0 < s.outstanding ∨ s.committing = true

theorem init_inv : Inv (init : St N) where
  count := (countOf_eq_zero _).mpr fun _ => rfl
  comm := (countOf_eq_zero _).mpr fun _ => rfl
  excl := fun h => by cases h
  nodup := List.nodup_nil
  logged := fun _ => Iff.rfl
  writes := fun b => by simp [init]
  empty := fun _ _ => rfl
  cleared := fun _ h => by cases h
  txs := fun _ h => by cases h
  asleep := fun _ h => by cases h

theorem Inv.committing_of (h : Inv s) (hp : (s.proc p).inCommit = true) :
    s.committing = true := by
  have := (countOf_pos PSt.inCommit).mpr ⟨p, hp⟩
  rw [h.comm] at this
  cases hc : s.committing
  · rw [hc] at this; cases this
  · rfl

theorem Inv.not_committing (h : Inv s) (h0 : 0 < s.outstanding) : s.committing = false := by
  cases hc : s.committing
  · rfl
  · have := h.excl hc
    omega

/-- A process that is not in `cleared` now moves to `x`. -/
theorem Inv.cleared_update (h : Inv s) (hx : x ≠ .cleared) (hq : update s.proc p x q = .cleared) : s.lh = [] := by
  by_cases e : q = p
  · rw [e, Function.update_self] at hq
    exact absurd hq hx
  · exact h.cleared q (by rwa [Function.update_of_ne e] at hq)

theorem Inv.no_op (h : Inv s) (h0 : s.outstanding = 0) (p : Fin N) (w : List Nat) : s.proc p ≠ .inOp w := by
  intro hp
  have := isOp_pos hp
  rw [h.count] at this; omega

/-- A change of one process's state that enters or leaves neither an operation nor a commit. -/
theorem Inv.set (h : Inv s) (hf : (s.proc p).isOp = false)
    (hf' : (s.proc p).inCommit = false) (hx : x.isOp = false) (hx' : x.inCommit = false)
    (ha : x = .asleep → 0 < s.outstanding ∨ s.committing = true) : Inv { s with proc := update s.proc p x } := by
  have hop : ∀ v, s.proc p ≠ .inOp v := fun v e => by rw [e] at hf; cases hf
  refine ⟨?_, ?_, h.excl, h.nodup, h.logged, fun b => ?_, h.empty, fun q hq => ?_, h.txs, fun q hq => ?_⟩
  · exact (countOf_same _ (hf.trans hx.symm)).trans h.count
  · exact (countOf_same _ (hf'.trans hx'.symm)).trans h.comm
  · simp only [update_inOp hx hop]
    exact h.writes b
  · exact h.cleared_update (fun e => by rw [e] at hx'; cases hx') hq
  · by_cases e : q = p
    · subst e; simp only [Function.update_self] at hq; exact ha hq
    · simp only [Function.update_of_ne e] at hq; exact h.asleep q hq

theorem out_of_begin (hp : f p = .idle ∨ f p = .woken) : (f p).isOp = false ∧ (f p).inCommit = false := by
  rcases hp with e | e <;> rw [e] <;> exact ⟨rfl, rfl⟩

section

variable (h : Inv s)
include h

theorem sleep_inv (hp : s.proc p = .idle ∨ s.proc p = .woken) (hc : s.committing = true ∨
      logsize < s.lh.length + (s.outstanding + 1) * maxopblocks) :
    Inv { s with proc := update s.proc p .asleep } := by
  obtain ⟨hf, hf'⟩ := out_of_begin hp
  refine h.set hf hf' rfl rfl fun _ => ?_
  rcases hc with hc | hc
  · exact Or.inr hc
  · -- with nothing outstanding and no commit running the log is empty, and one operation fits
    by_cases h0 : 0 < s.outstanding
    · exact Or.inl h0
    · cases hcm : s.committing
      · rw [h.empty (by omega) hcm] at hc
        simp only [logsize, maxopblocks, List.length_nil] at hc; omega
      · exact Or.inr rfl

theorem enter_inv (hp : s.proc p = .idle ∨ s.proc p = .woken) (hc : s.committing = false) :
    Inv { s with proc := update s.proc p (.inOp []), outstanding := s.outstanding + 1 } := by
  obtain ⟨hf, hf'⟩ := out_of_begin hp
  refine ⟨?_, ?_, fun h' => ?_, h.nodup, h.logged, fun b => ?_, fun h0 => absurd h0 (by simp), fun q hq => ?_, h.txs,
    fun _ _ => Or.inl (Nat.succ_pos _)⟩
  · have := countOf_update PSt.isOp s.proc p (.inOp [])
    rw [hf, h.count] at this
    simpa [PSt.isOp] using this
  · exact (countOf_same _ hf').trans h.comm
  · exact absurd (h' : s.committing = true) (by simp [hc])
  · refine (h.writes b).trans (or_congr Iff.rfl ⟨?_, ?_⟩)
    · rintro ⟨q, w, hq, hb⟩
      have : q ≠ p := fun e => by subst e; rw [hq] at hf; cases hf
      exact ⟨q, w, by simpa [Function.update_of_ne this] using hq, hb⟩
    · rintro ⟨q, w, hq, hb⟩
      by_cases e : q = p
      · subst e; simp at hq; subst hq; cases hb
      · exact ⟨q, w, by simpa [Function.update_of_ne e] using hq, hb⟩
  · exact h.cleared_update (by simp) hq

theorem logWrite_inv (hp : s.proc p = .inOp w) (h0 : 0 < s.outstanding) :
    Inv { s with proc := update s.proc p (.inOp (b :: w)), lh := absorb s.lh b, since := b :: s.since } := by
  have hc := h.not_committing h0
  refine ⟨?_, ?_, h.excl, absorb_nodup h.nodup, fun c => ?_, fun c => ?_, fun h' => ?_, fun q hq => ?_, h.txs,
    fun _ _ => Or.inl h0⟩
  · exact (countOf_same _ (by rw [hp]; rfl)).trans h.count
  · exact (countOf_same _ (by rw [hp]; rfl)).trans h.comm
  · rw [mem_absorb, List.mem_cons, h.logged c]
  · rw [List.mem_cons, h.writes c]
    constructor
    · rintro (rfl | hf | ⟨q, v, hq, hv⟩)
      · exact Or.inr ⟨p, c :: w, by simp, List.mem_cons_self⟩
      · exact Or.inl hf
      · by_cases e : q = p
        · subst e
          rw [hp] at hq; cases hq
          exact Or.inr ⟨q, b :: w, by simp, List.mem_cons_of_mem _ hv⟩
        · exact Or.inr ⟨q, v, by simpa [Function.update_of_ne e] using hq, hv⟩
    · rintro (hf | ⟨q, v, hq, hv⟩)
      · exact Or.inr (Or.inl hf)
      · by_cases e : q = p
        · subst e
          simp at hq; subst hq
          rcases List.mem_cons.mp hv with hv | hv
          · exact Or.inl hv
          · exact Or.inr (Or.inr ⟨q, w, hp, hv⟩)
        · exact Or.inr (Or.inr ⟨q, v, by simpa [Function.update_of_ne e] using hq, hv⟩)
  · have : s.outstanding = 0 := h'
    omega
  · by_cases e : q = p
    · subst e; simp at hq
    · have := h.committing_of (p := q) (by
        have : s.proc q = .cleared := by simpa [Function.update_of_ne e] using hq
        rw [this]; rfl)
      rw [hc] at this; cases this

/-- The writes of an operation move to `finished` when it ends. -/
theorem end_writes (hp : s.proc p = .inOp w) (hf : ∀ q v, f q = .inOp v ↔ q ≠ p ∧ s.proc q = .inOp v) (b : Nat) :
    b ∈ s.since ↔ (∃ v ∈ s.finished ++ [w], b ∈ v) ∨ ∃ q v, f q = .inOp v ∧ b ∈ v := by
  rw [h.writes b]
  constructor
  · rintro (⟨v, hv, hb⟩ | ⟨q, v, hq, hb⟩)
    · exact Or.inl ⟨v, List.mem_append_left _ hv, hb⟩
    · by_cases e : q = p
      · subst e; rw [hp] at hq; cases hq
        exact Or.inl ⟨w, List.mem_append_right _ (List.mem_singleton.mpr rfl), hb⟩
      · exact Or.inr ⟨q, v, (hf q v).mpr ⟨e, hq⟩, hb⟩
  · rintro (⟨v, hv, hb⟩ | ⟨q, v, hq, hb⟩)
    · rcases List.mem_append.mp hv with hv | hv
      · exact Or.inl ⟨v, hv, hb⟩
      · rw [List.mem_singleton] at hv; subst hv; exact Or.inr ⟨p, v, hp, hb⟩
    · exact Or.inr ⟨q, v, ((hf q v).mp hq).2, hb⟩

theorem last_inv (hp : s.proc p = .inOp w) (hc : s.committing = false) (ho : s.outstanding ≤ 1) :
    Inv { s with proc := update s.proc p .committing, outstanding := 0, committing := true,
                 finished := s.finished ++ [w] } := by
  refine ⟨?_, ?_, fun _ => rfl, h.nodup, h.logged, end_writes h hp (update_op_out rfl), fun _ h' => (by cases h'),
    fun q hq => ?_, h.txs, fun _ _ => Or.inr rfl⟩
  · have := countOf_set PSt.isOp (y := .committing) hp
    have h1 := isOp_pos hp
    simp only [PSt.isOp, Bool.toNat_true, Bool.toNat_false, h.count] at this h1 ⊢
    omega
  · have := countOf_set PSt.inCommit (y := .committing) hp
    simpa [PSt.inCommit, h.comm, hc] using this
  · exact h.cleared_update (by simp) hq

theorem leave_inv (hp : s.proc p = .inOp w) (hc : s.committing = false) (ho : 1 < s.outstanding) :
    Inv { s with outstanding := s.outstanding - 1, finished := s.finished ++ [w],
                 proc := wakeup (update s.proc p .idle) } := by
  refine ⟨?_, ?_, fun h' => ?_, h.nodup, h.logged, ?_, fun h' => ?_, fun q hq => ?_, h.txs, fun q hq => ?_⟩
  · rw [countOf_wakeup _ rfl]
    have := countOf_set PSt.isOp (y := .idle) hp
    simp only [PSt.isOp, Bool.toNat_true, Bool.toNat_false, h.count] at this ⊢
    omega
  · rw [countOf_wakeup _ rfl]
    exact (countOf_same _ (by rw [hp]; rfl)).trans h.comm
  · exact absurd (h' : s.committing = true) (by simp [hc])
  · refine end_writes h hp fun q v => ?_
    rw [wakeup_eq (by simp) (by simp)]
    exact update_op_out rfl q v
  · have : s.outstanding - 1 = 0 := h'
    omega
  · rw [wakeup_eq (by simp) (by simp)] at hq
    exact h.cleared_update (by simp) hq
  · exact absurd hq (wakeup_not_asleep _ q)

/-- A process moving on inside `commit()`: the counts and the sleepers are as before. -/
theorem Inv.commit_move (hp : (s.proc p).inCommit = true) (hx : x.inCommit = true) :
    countOf PSt.isOp (update s.proc p x) = s.outstanding ∧
      countOf PSt.inCommit (update s.proc p x) = s.committing.toNat ∧
      (∀ q v, update s.proc p x q ≠ .inOp v) ∧ s.outstanding = 0 ∧ s.committing = true := by
  have hc := h.committing_of hp
  have h0 := h.excl hc
  have hxo : x.isOp = false := by cases x <;> first | rfl | cases hx
  have hpo : (s.proc p).isOp = false := by
    cases hq : s.proc p <;> first | rfl | (rw [hq] at hp; cases hp)
  refine ⟨?_, ?_, fun q v hq => ?_, h0, hc⟩
  · exact (countOf_same _ (hpo.trans hxo.symm)).trans h.count
  · exact (countOf_same _ (hp.trans hx.symm)).trans h.comm
  · exact h.no_op h0 q v ((update_op_out hxo q v).mp hq).2

theorem commitLog_inv (hp : s.proc p = .committing) :
    Inv { s with proc := update s.proc p .installed, txs := s.txs ++ [⟨s.lh, s.finished⟩] } := by
  obtain ⟨h1, h2, h3, h0, hc⟩ := h.commit_move (p := p) (x := .installed) (by rw [hp]; rfl) rfl
  refine ⟨h1, h2, h.excl, h.nodup, h.logged, fun b => (h.writes b).trans (or_congr Iff.rfl ?_), h.empty, fun q hq => ?_,
    fun t ht => ?_, fun _ _ => Or.inr hc⟩
  · exact ⟨fun ⟨q, v, hq, _⟩ => absurd hq (h.no_op h0 q v), fun ⟨q, v, hq, _⟩ => absurd hq (h3 q v)⟩
  · exact h.cleared_update (by simp) hq
  · rcases List.mem_append.mp ht with ht | ht
    · exact h.txs t ht
    · rw [List.mem_singleton] at ht; subst ht
      intro b
      rw [h.logged b, h.writes b]
      exact ⟨fun hb => hb.elim id fun ⟨q, v, hq, _⟩ => absurd hq (h.no_op h0 q v), Or.inl⟩

/-- `commit()` ends with an empty log: nothing logged, no operation in the group. -/
theorem cleared_inv (hp : (s.proc p).inCommit = true) :
    Inv { s with proc := update s.proc p .cleared, lh := [], since := [], finished := [] } := by
  obtain ⟨h1, h2, h3, h0, hc⟩ := h.commit_move (p := p) (x := .cleared) hp rfl
  refine ⟨h1, h2, h.excl, List.nodup_nil, fun _ => Iff.rfl, fun b => ?_, fun _ _ => rfl, fun _ _ => rfl, h.txs,
    fun _ _ => Or.inr hc⟩
  constructor
  · intro hb; cases hb
  · rintro (⟨w, hw, _⟩ | ⟨q, v, hq, _⟩)
    · cases hw
    · exact absurd hq (h3 q v)

theorem finish_inv (hp : s.proc p = .cleared) :
    Inv { s with committing := false, proc := wakeup (update s.proc p .idle) } := by
  have hc := h.committing_of (p := p) (by rw [hp]; rfl)
  have h0 := h.excl hc
  have hl := h.cleared p hp
  refine ⟨?_, ?_, fun h' => (by cases h'), h.nodup, h.logged, fun b => ?_, fun _ _ => hl, fun _ _ => hl, h.txs,
    fun q hq => absurd hq (wakeup_not_asleep _ q)⟩
  · rw [countOf_wakeup _ rfl]
    exact (countOf_same _ (by rw [hp]; rfl)).trans h.count
  · rw [countOf_wakeup _ rfl]
    have := countOf_set PSt.inCommit (y := .idle) hp
    simp only [PSt.inCommit, Bool.toNat_true, Bool.toNat_false, h.comm, hc] at this ⊢
    omega
  · refine (h.writes b).trans (or_congr Iff.rfl ?_)
    constructor
    · rintro ⟨q, v, hq, _⟩; exact absurd hq (h.no_op h0 q v)
    · rintro ⟨q, v, hq, _⟩
      rw [wakeup_eq (by simp) (by simp), update_op_out rfl] at hq
      exact absurd hq.2 (h.no_op h0 q v)

end

theorem Step.inv (hs : Step size s e s') (h : Inv s) : Inv s' := by
  cases hs with
  | sleep p hp hc => exact sleep_inv h hp hc
  | enter p hp hc _ => exact enter_inv h hp hc
  | logWrite p b w hp _ _ h0 => exact logWrite_inv h hp h0
  | last p w hp hc ho => exact last_inv h hp hc ho
  | leave p w hp hc ho => exact leave_inv h hp hc ho
  | commitLog p hp _ => exact commitLog_inv h hp
  | commitNothing p hp hl =>
    have := cleared_inv h (p := p) (by rw [hp]; rfl)
    have e : { s with proc := update s.proc p .cleared, since := [], finished := [] } =
        { s with proc := update s.proc p .cleared, lh := [], since := [], finished := [] } := by rw [← hl]
    rw [e]; exact this
  | clearHead p hp => exact cleared_inv h (by rw [hp]; rfl)
  | finish p hp => exact finish_inv h hp
  | kill p hp => exact h.set (by rw [hp]; rfl) (by rw [hp]; rfl) rfl rfl fun h' => by cases h'

theorem inv (h : Reach size s) : Inv s := by
  induction h with
  | init => exact init_inv
  | step e _ hs ih => exact (step_ok hs).inv ih

/-! ## Who wakes a sleeper -/

/-- The rest of `q`'s `end_op`: its own events from the end of its operation, or from
    inside its commit, on. -/
def endEvents (q : Fin N) : PSt → List (List (Ev N))
  | .inOp _ => [[.endOp q], [.endOp q, .commitLog q, .clearHead q, .finish q], [.endOp q, .commitLog q, .finish q]]
  | .committing => [[.commitLog q, .clearHead q, .finish q], [.commitLog q, .finish q]]
  | .installed => [[.clearHead q, .finish q]]
  | .cleared => [[.finish q]]
  | _ => []

def exec (size : Nat) (s : St N) : List (Ev N) → Option (St N)
  | [] => some s
  | e :: es =>
    match step size s e with
    | some (.ok s') => exec size s' es
    | _ => none

theorem wakeup_wakes (hp : f p = .asleep) (hq : f q = x) (hx : x ≠ .asleep) :
    wakeup (update f q .idle) p = .woken := by
  have : p ≠ q := fun e => by subst e; rw [hp] at hq; exact hx hq.symm
  unfold wakeup
  rw [Function.update_of_ne this, if_pos hp]

theorem exec_cleared (size : Nat) (hp : s.proc p = .asleep) (hq : s.proc q = .cleared) :
    ∃ s', exec size s [.finish q] = some s' ∧ s'.proc p = .woken := by
  refine ⟨{ s with committing := false, proc := wakeup (update s.proc q .idle) }, ?_, wakeup_wakes hp hq (by simp)⟩
  simp only [exec, step, hq, if_true]

theorem update_asleep (hp : f p = .asleep) (hq : f q = x)
    (hx : x ≠ .asleep) : update f q y p = .asleep := by
  have : p ≠ q := fun e => by subst e; rw [hp] at hq; exact hx hq.symm
  rw [Function.update_of_ne this, hp]

theorem exec_installed (size : Nat) (hp : s.proc p = .asleep) (hq : s.proc q = .installed) :
    ∃ s', exec size s [.clearHead q, .finish q] = some s' ∧ s'.proc p = .woken := by
  obtain ⟨s', h1, h2⟩ := exec_cleared size
    (s := { s with proc := update s.proc q .cleared, lh := [], since := [], finished := [] })
    (update_asleep hp hq (by simp)) (by simp : update s.proc q PSt.cleared q = .cleared)
  exact ⟨s', by rw [exec]; simp only [step, hq, if_true]; exact h1, h2⟩

theorem exec_committing (size : Nat) (hp : s.proc p = .asleep) (hq : s.proc q = .committing) :
    ∃ es ∈ endEvents q .committing, ∃ s', exec size s es = some s' ∧ s'.proc p = .woken := by
  by_cases hl : s.lh.length > 0
  · obtain ⟨s', h1, h2⟩ := exec_installed size
      (s := { s with proc := update s.proc q .installed, txs := s.txs ++ [⟨s.lh, s.finished⟩] })
      (update_asleep hp hq (by simp)) (by simp : update s.proc q PSt.installed q = .installed)
    exact ⟨_, List.mem_cons_self, s', by rw [exec]; simp only [step, hq, if_true, hl]; exact h1, h2⟩
  · obtain ⟨s', h1, h2⟩ := exec_cleared size
      (s := { s with proc := update s.proc q .cleared, since := [], finished := [] })
      (update_asleep hp hq (by simp)) (by simp : update s.proc q PSt.cleared q = .cleared)
    exact ⟨_, List.mem_cons_of_mem _ List.mem_cons_self, s',
      by rw [exec]; simp only [step, hq, if_true, hl, if_false]; exact h1, h2⟩

/-- Any process in an operation or in a commit wakes every sleeper by finishing its own
    `end_op`, whatever else is asleep. -/
theorem exec_wakes (size : Nat) (h : Inv s) (hp : s.proc p = .asleep)
    (hq : (s.proc q).isOp = true ∨ (s.proc q).inCommit = true) :
    ∃ es ∈ endEvents q (s.proc q), ∃ s', exec size s es = some s' ∧ s'.proc p = .woken := by
  cases hx : s.proc q with
  | idle | asleep | woken => simp [hx, PSt.isOp, PSt.inCommit] at hq
  | installed =>
    obtain ⟨s', hs⟩ := exec_installed size hp hx
    exact ⟨_, List.mem_cons_self, s', hs⟩
  | cleared =>
    obtain ⟨s', hs⟩ := exec_cleared size hp hx
    exact ⟨_, List.mem_cons_self, s', hs⟩
  | committing => exact exec_committing size hp hx
  | inOp w =>
    have h0 : 0 < s.outstanding := by rw [← h.count]; exact isOp_pos hx
    have hc := h.not_committing h0
    by_cases ho : s.outstanding - 1 = 0
    · -- the last one out commits, and `finish` wakes everyone
      obtain ⟨es, hes, s', h1, h2⟩ := exec_committing size
        (s := { s with proc := update s.proc q .committing, outstanding := 0, committing := true,
                       finished := s.finished ++ [w] })
        (update_asleep hp hx (by simp)) (by simp : update s.proc q PSt.committing q = .committing)
      refine ⟨.endOp q :: es, ?_, s', ?_, h2⟩
      · simp only [endEvents, List.mem_cons, List.not_mem_nil, or_false] at hes ⊢
        rcases hes with rfl | rfl
        · exact Or.inr (Or.inl rfl)
        · exact Or.inr (Or.inr rfl)
      · rw [exec]; simp only [step, hx, hc, ho, if_true, Bool.false_eq_true, if_false]; exact h1
    · let s' := { s with outstanding := s.outstanding - 1, finished := s.finished ++ [w],
                         proc := wakeup (update s.proc q .idle) }
      refine ⟨[.endOp q], List.mem_cons_self, s', ?_, wakeup_wakes hp hx (by simp)⟩
      simp [exec, step, hx, hc, ho, s']

/-- Group commit never splits an operation: `commit()` runs alone, with no operation
    outstanding; the log holds what was logged since the last commit, and a committed
    transaction what its operations, all ended, logged; an empty system has an empty log,
    so a sleeper always has someone whose `end_op` wakes it. -/
theorem group_commit (size : Nat) (s : St N) (h : Reach size s) :
    (∀ p, (s.proc p).inCommit = true → s.committing = true ∧ s.outstanding = 0) ∧
    (s.committing = true → (∀ p s', step size s (.begin p) = some (.ok s') → s'.proc p = .asleep) ∧
      ∀ p b, step size s (.logWrite p b) = none) ∧
    s.lh.Nodup ∧ (∀ b, b ∈ s.lh ↔ b ∈ s.since) ∧
    (∀ p w, s.proc p = .inOp w → ∀ b ∈ w, b ∈ s.since) ∧
    (∀ t ∈ s.txs, ∀ b, b ∈ t.blocks ↔ ∃ w ∈ t.ops, b ∈ w) ∧
    (s.outstanding = 0 → s.committing = false → s.lh = []) ∧
    (∀ p, s.proc p = .asleep → ∃ q, ∃ es ∈ endEvents q (s.proc q), ∃ s',
      exec size s es = some s' ∧ s'.proc p = .woken) := by
  have hi := inv h
  refine ⟨fun p hp => ?_, fun hc => ⟨fun p s' hs => ?_, fun p b => ?_⟩, hi.nodup, hi.logged,
    fun p w hp b hb => (hi.writes b).mpr (Or.inr ⟨p, w, hp, hb⟩), hi.txs, hi.empty, fun p hp => ?_⟩
  · have hc := hi.committing_of hp
    exact ⟨hc, hi.excl hc⟩
  · cases step_ok hs with
    | sleep _ _ => simp
    | enter _ _ hc' => rw [hc] at hc'; cases hc'
  · cases hx : s.proc p with
    | inOp w => exact absurd hx (hi.no_op (hi.excl hc) p w)
    | _ => simp [step, hx]
  · rcases hi.asleep p hp with h0 | hc
    · rw [← hi.count, countOf_pos] at h0
      obtain ⟨q, hq⟩ := h0
      exact ⟨q, exec_wakes size hi hp (Or.inl hq)⟩
    · have : 0 < countOf PSt.inCommit s.proc := by rw [hi.comm, hc]; decide
      obtain ⟨q, hq⟩ := (countOf_pos _).mp this
      exact ⟨q, exec_wakes size hi hp (Or.inr hq)⟩

/-- The first process logged block 50 and is in `commit()`; the second went to sleep in
    `begin_op` behind it and is woken by the rest of the first one's `end_op`. -/
theorem group_commit_sleeper : ∃ s : St 2, Reach 30 s ∧ s.lh = [50] ∧ s.proc 1 = .asleep ∧
    ∃ q, ∃ es ∈ endEvents q (s.proc q), ∃ s', exec 30 s es = some s' ∧ s'.proc 1 = .woken := by
  have h1 := Reach.step (.begin 0) (Reach.init : Reach 30 (init : St 2)) rfl
  have h2 := Reach.step (.logWrite 0 50) h1 rfl
  have h3 := Reach.step (.endOp 0) h2 rfl
  have h4 := Reach.step (.begin 1) h3 rfl
  exact ⟨_, h4, rfl, rfl, (group_commit 30 _ h4).2.2.2.2.2.2.2 1 rfl⟩

end Xv6.Log.Group
