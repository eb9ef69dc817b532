/-
  Xv6.Log.Reserve — the space `begin_op` reserves against the space the log has
  (kernel/log.c `begin_op`, `log_write`; mkfs/mkfs.c `nlog`; kernel/param.h).

  `begin_op` admits an operation when `lh.n + (outstanding+1)*MAXOPBLOCKS <= LOGSIZE`;
  `log_write` panics when `lh.n >= LOGSIZE` or `lh.n >= log.size - 1`, before it looks for
  the block in the log. mkfs makes the log `LOGSIZE` blocks long, header included, so the
  second test trips at 29 blocks where `begin_op` counts on 30.

  Proved: `three_full_operations_panic`, `no_panic_iff`, and for a log of one block more
  `in_budget_panics_on_repeats`.
-/

import Xv6.Log.Group
import Mathlib.Data.Finset.Dedup

namespace Xv6.Log.Group

open Xv6.Lib (countOf sumOf sumOf_congr sumOf_le sumOf_update le_sumOf)
open Function (update)

variable {N size : Nat} {s : St N} {x : Panic} {e : Ev N}

/-- mkfs's `nlog`: the blocks of the log on disk, the header among them. -/
def nlog : Nat := logsize

/-- A schedule run from `s`; a panic stops the kernel, `none` is a schedule some process
    cannot follow. -/
def runEvs (size : Nat) : St N → List (Ev N) → Option (Except Panic (St N))
  | s, [] => some (.ok s)
  | s, e :: es =>
    match step size s e with
    | none => none
    | some (.error p) => some (.error p)
    | some (.ok s') => runEvs size s' es

/-- With this event the process's operation has logged at most `MAXOPBLOCKS` distinct blocks. -/
def opFits (s : St N) : Ev N → Bool
  | .logWrite p b =>
    match s.proc p with
    | .inOp w => decide ((b :: w).toFinset.card ≤ maxopblocks)
    | _ => true
  | _ => true

def inBudget (size : Nat) : St N → List (Ev N) → Bool
  | _, [] => true
  | s, e :: es => opFits s e && match step size s e with
    | some (.ok s') => inBudget size s' es
    | _ => true

/-- Every `log_write` of the schedule comes with fewer than `n` distinct block numbers
    passed to `log_write` since the last commit; `acc` are those passed so far. -/
def fewerThan (n : Nat) : List Nat → List (Ev N) → Prop
  | _, [] => True
  | acc, .logWrite _ b :: es => acc.toFinset.card < n ∧ fewerThan n (b :: acc) es
  | _, .clearHead _ :: es => fewerThan n [] es
  | acc, _ :: es => fewerThan n acc es

theorem Inv.lh_length (h : Inv s) : s.lh.length = s.since.toFinset.card := by
  rw [← List.toFinset_card_of_nodup h.nodup]
  congr 1
  ext b
  simp [h.logged b]

/-- The only panic left: `log_write` with the log as long as it may get. -/
theorem step_error (h : Inv s) (hs : step size s e = some (.error x)) :
    x = .tooBigATransaction ∧ ∃ p b, e = .logWrite p b ∧ (logsize ≤ s.lh.length ∨ size - 1 ≤ s.lh.length) := by
  cases e with
  | logWrite p b =>
    simp only [step] at hs
    split at hs
    · rename_i w hw
      split at hs
      · rename_i hfull
        cases hs
        exact ⟨rfl, p, b, rfl, hfull⟩
      · split at hs
        · -- the process itself is outstanding
          rename_i h0
          have := isOp_pos hw
          rw [h.count] at this; omega
        · cases hs
    · cases hs
  | endOp p =>
    simp only [step] at hs
    split at hs
    · rename_i w hw
      split at hs
      · rename_i hc
        exact absurd hw (h.no_op (h.excl hc) p w)
      · split at hs <;> cases hs
    · cases hs
  | begin p => simp only [step] at hs; repeat' split at hs
               all_goals cases hs
  | commitLog p => simp only [step] at hs; repeat' split at hs
                   all_goals cases hs
  | clearHead p | finish p | kill p => simp only [step] at hs; split at hs <;> cases hs

theorem fewerThan_congr {n : Nat} {acc acc' : List Nat} (h : acc.toFinset = acc'.toFinset) (es : List (Ev N)) :
    fewerThan n acc es ↔ fewerThan n acc' es := by
  induction es generalizing acc acc' with
  | nil => exact Iff.rfl
  | cons e es ih =>
    cases e with
    | logWrite p b =>
      simp only [fewerThan, h]
      have : (b :: acc).toFinset = (b :: acc').toFinset := by rw [List.toFinset_cons, List.toFinset_cons, h]
      rw [ih this]
    | clearHead p => exact Iff.rfl
    | _ => exact ih h

/-- What an event does to the blocks logged since the last commit. -/
theorem Step.since_iff {s' : St N} (h : Step size s e s') (hi : Inv s) (n : Nat) (hn : ∀ p b, e = .logWrite p b →
      s.since.toFinset.card < n) (es : List (Ev N)) :
    fewerThan n s.since (e :: es) ↔ fewerThan n s'.since es := by
  cases h with
  | logWrite p b w _ _ _ _ => exact ⟨fun h => h.2, fun h => ⟨hn p b rfl, h⟩⟩
  | commitNothing p hp hl =>
    -- nothing was logged, so nothing is forgotten
    have : s.since.toFinset = ([] : List Nat).toFinset := by
      ext b; simp [← hi.logged b, hl]
    exact fewerThan_congr this es
  | _ => exact Iff.rfl

theorem runEvs_no_panic (hi : Inv s) (es : List (Ev N)) (hr : runEvs nlog s es ≠ none) :
    runEvs nlog s es ≠ some (.error .tooBigATransaction) ↔ fewerThan (nlog - 1) s.since es := by
  induction es generalizing s with
  | nil => simp [runEvs, fewerThan]
  | cons e es ih =>
    rw [runEvs] at hr ⊢
    cases hst : step nlog s e with
    | none => rw [hst] at hr; exact absurd rfl hr
    | some r =>
      cases r with
      | error x =>
        obtain ⟨rfl, p, b, rfl, hfull⟩ := step_error hi hst
        have hlen := hi.lh_length
        refine ⟨fun h => absurd rfl h, fun h => ?_⟩
        have := h.1
        simp only [nlog, logsize, maxopblocks] at hfull this
        omega
      | ok s' =>
        rw [hst] at hr
        have hs := step_ok hst
        have hn : ∀ p b, e = .logWrite p b → s.since.toFinset.card < nlog - 1 := by
          rintro p b rfl
          cases hs with
          | logWrite _ _ _ _ hlt _ => rw [← hi.lh_length]; assumption
        rw [hs.since_iff hi _ hn es]
        exact ih (hs.inv hi) hr

/-- The exact condition: with the log mkfs makes, a schedule never reaches
    panic("too big a transaction") if and only if each `log_write` in it is called when
    fewer than `LOGSIZE - 1` distinct blocks have been logged since the last commit. -/
theorem no_panic_iff (N : Nat) (es : List (Ev N)) (hr : runEvs nlog (init : St N) es ≠ none) :
    runEvs nlog (init : St N) es ≠ some (.error .tooBigATransaction) ↔ fewerThan (logsize - 1) [] es :=
  runEvs_no_panic init_inv es hr

/-- Process `p`'s operation logging `n` blocks from `b` on. -/
def writesFrom (p : Fin N) (b : Nat) : Nat → List (Ev N)
  | 0 => []
  | n + 1 => .logWrite p b :: writesFrom p (b + 1) n

instance fewerThan_decidable (n : Nat) : (acc : List Nat) → (es : List (Ev N)) → Decidable (fewerThan n acc es)
  | _, [] => .isTrue trivial
  | acc, .logWrite _ b :: es => @instDecidableAnd _ _ _ (fewerThan_decidable n (b :: acc) es)
  | _, .clearHead _ :: es => fewerThan_decidable n [] es
  | acc, .begin _ :: es => fewerThan_decidable n acc es
  | acc, .endOp _ :: es => fewerThan_decidable n acc es
  | acc, .commitLog _ :: es => fewerThan_decidable n acc es
  | acc, .finish _ :: es => fewerThan_decidable n acc es
  | acc, .kill _ :: es => fewerThan_decidable n acc es

/-- Three operations log 29 blocks together, and the next one is in a transaction of its own. -/
theorem no_panic_iff_three_operations :
    let es : List (Ev 3) := [.begin 0, .begin 1, .begin 2] ++ writesFrom 0 100 10 ++ writesFrom 1 200 10 ++ writesFrom 2 300 9 ++
      [.endOp 0, .endOp 1, .endOp 2, .commitLog 2, .clearHead 2, .finish 2, .begin 0] ++ writesFrom 0 400 10
    runEvs nlog (init : St 3) es ≠ some (.error .tooBigATransaction) := by
  intro es
  have hrun : (runEvs nlog (init : St 3) es).isSome = true := by decide +kernel
  exact (no_panic_iff 3 es (Option.isSome_iff_ne_none.mp hrun)).mpr (by decide +kernel)

/-- Three operations are admitted together, the first two log ten blocks each, the third
    nine; its tenth, still within `MAXOPBLOCKS`, makes `log_write` panic. -/
theorem three_full_operations_panic :
    let es : List (Ev 3) := [.begin 0, .begin 1, .begin 2] ++ writesFrom 0 100 10 ++ writesFrom 1 200 10 ++
      writesFrom 2 300 10
    inBudget nlog (init : St 3) es = true ∧ runEvs nlog (init : St 3) es = some (.error .tooBigATransaction) := by
  intro es
  exact ⟨by decide +kernel, rfl⟩

/-! ## A log of one block more -/

/-- The blocks that the process's operation may still log. -/
def PSt.rest : PSt → Nat
  | .inOp w => maxopblocks - w.toFinset.card
  | _ => 0

/-- There is room in the log for what the operations may still log. -/
def Reserved (s : St N) : Prop := s.lh.length + sumOf PSt.rest s.proc ≤ logsize

section

variable {size : Nat} {s s' : St N} {e : Ev N} {es : List (Ev N)}

theorem rest_wakeup (f : Fin N → PSt) : sumOf PSt.rest (wakeup f) = sumOf PSt.rest f := by
  refine sumOf_congr _ fun q => ?_
  unfold wakeup
  split
  next h => rw [h]; rfl
  next => rfl

/-- `begin_op` admits an operation only when there is room for it, and `log_write` uses no more than was reserved. -/
theorem Step.reserved (hs : Step size s e s') (hi : Inv s) (hfits : opFits s e = true) (h : Reserved s) : Reserved s' := by
  have hset : ∀ p y, sumOf PSt.rest (update s.proc p y) + (s.proc p).rest = sumOf PSt.rest s.proc + y.rest := sumOf_update _ _
  have hlen := (hs.inv hi).lh_length
  unfold Reserved at h ⊢
  cases hs with
  | sleep p | commitLog p | commitNothing p | kill p =>
    have := hset p
    grind [PSt.rest]
  | clearHead p =>
    have := hset p .cleared
    simp only [PSt.rest, List.length_nil] at this ⊢
    omega
  | finish p | leave p =>
    have hidle := hset p .idle
    have hrest : PSt.idle.rest = 0 := rfl
    rw [rest_wakeup]
    dsimp only
    omega
  | last p =>
    have := hset p .committing
    simp only [PSt.rest] at this ⊢
    omega
  | enter p hp hc hroom =>
    have hin := hset p (.inOp [])
    have hall : sumOf PSt.rest s.proc ≤ countOf PSt.isOp s.proc * maxopblocks := by
      refine sumOf_le _ _ (fun x => ?_) _
      cases x with
      | inOp w => exact Nat.sub_le _ _
      | _ => exact Nat.zero_le _
    rw [hi.count] at hall
    rw [Nat.add_one_mul] at hroom
    have hrest : (PSt.inOp []).rest = maxopblocks := rfl
    dsimp only
    omega
  | logWrite p b w hp =>
    have hin := hset p (.inOp (b :: w))
    have hold := hi.lh_length
    simp only [opFits, hp, decide_eq_true_eq, List.toFinset_cons] at hfits
    simp only [hp, PSt.rest, List.toFinset_cons] at hin hlen ⊢
    by_cases hb : b ∈ w
    · -- absorbed: the operation has logged the block before
      have hsince : b ∈ s.since := (hi.writes b).mpr (.inr ⟨p, w, hp, hb⟩)
      rw [Finset.insert_eq_of_mem (List.mem_toFinset.mpr hb)] at hin
      rw [Finset.insert_eq_of_mem (List.mem_toFinset.mpr hsince)] at hlen
      omega
    · rw [Finset.card_insert_of_notMem (mt List.mem_toFinset.mp hb)] at hin hfits
      have := Finset.card_insert_le b s.since.toFinset
      omega

/-- Process `p` logs a block again that its operation has logged, when the log is full. -/
def Repeats (s : St N) (p : Fin N) (b : Nat) : Prop := (∃ w, s.proc p = .inOp w ∧ b ∈ w) ∧ s.lh.length = logsize

theorem step_repeats (hi : Inv s) (h : Reserved s) (hfits : opFits s e = true) (hs : step (logsize + 1) s e = some (.error x)) :
    ∃ p b, e = .logWrite p b ∧ Repeats s p b := by
  obtain ⟨-, p, b, rfl, hfull⟩ := step_error hi hs
  have hle := le_sumOf PSt.rest s.proc p
  unfold Reserved at h
  cases hp : s.proc p with
  | inOp w =>
    simp only [opFits, hp, decide_eq_true_eq, List.toFinset_cons] at hfits
    rw [hp, PSt.rest] at hle
    refine ⟨p, b, rfl, ⟨w, hp, by_contra fun hb => ?_⟩, by omega⟩
    rw [Finset.card_insert_of_notMem (mt List.mem_toFinset.mp hb)] at hfits
    omega
  | _ =>
    rw [step, hp] at hs
    cases hs

theorem runEvs_repeats (hi : Inv s) (h : Reserved s) (hb : inBudget (logsize + 1) s es = true)
    (hrun : runEvs (logsize + 1) s es = some (.error x)) : ∃ es1 es2 s1 p b, es = es1 ++ .logWrite p b :: es2 ∧
      runEvs (logsize + 1) s es1 = some (.ok s1) ∧ Repeats s1 p b := by
  induction es generalizing s with
  | nil => cases hrun
  | cons e es ih =>
    rw [inBudget, Bool.and_eq_true] at hb
    rw [runEvs] at hrun
    cases hst : step (logsize + 1) s e with
    | none =>
      rw [hst] at hrun
      cases hrun
    | some r =>
      rw [hst] at hrun hb
      cases r with
      | error y =>
        obtain ⟨p, b, rfl, hrep⟩ := step_repeats hi h hb.1 hst
        exact ⟨[], es, s, p, b, rfl, rfl, hrep⟩
      | ok s' =>
        obtain ⟨es1, es2, s1, p, b, rfl, hrun1, hrep⟩ := ih ((step_ok hst).inv hi) ((step_ok hst).reserved hi hb.1 h) hb.2 hrun
        refine ⟨e :: es1, es2, s1, p, b, rfl, ?_, hrep⟩
        rw [runEvs, hst]
        exact hrun1

/-- What `begin_op`'s test is worth: with a log of `LOGSIZE + 1` blocks, a schedule in which no operation logs more than
`MAXOPBLOCKS` blocks panics only when an operation logs one of its blocks again while the log is full, which the test
before the search for the block does not let through. -/
theorem in_budget_panics_on_repeats (hb : inBudget (logsize + 1) init es = true)
    (hrun : runEvs (logsize + 1) (init : St N) es = some (.error x)) : ∃ es1 es2 s1 p b, es = es1 ++ .logWrite p b :: es2 ∧
      runEvs (logsize + 1) init es1 = some (.ok s1) ∧ Repeats s1 p b := by
  have hempty : sumOf PSt.rest (init : St N).proc = 0 := Finset.sum_eq_zero fun _ _ => rfl
  have hres : Reserved (init : St N) := by
    rw [Reserved, hempty]
    exact Nat.zero_le _
  exact runEvs_repeats init_inv hres hb hrun

end

end Xv6.Log.Group
