/-
  Xv6.Sched.Sharing — interrupts across locks and switches (kernel/spinlock.c: `acquire`, `release`, `push_off`,
  `pop_off`; kernel/proc.c: `sched`, `scheduler`).

  Here a thread runs any code: on its CPU it acquires spinlocks, releases those that the CPU holds, whichever
  thread took them, and calls `push_off` and `pop_off`, in any order. A process gives up its CPU through `sched`. A
  scheduler that holds `p->lock` and nothing else switches to `p`, which goes on behind its `swtch`, on whichever
  CPU that is, or starts at `forkret`. What else turns interrupts on or off (`intr_on`, `intr_off`, a trap, the
  return from one) happens where `noff` is 0. `p->state` plays no part.

  `opens c` counts the open calls of `push_off` on CPU `c`, those inside `acquire` apart. `was c` belongs to the
  thread on CPU `c`: while it is in a section that it began, were interrupts on when it took `noff` from 0 to 1?
  The record goes with the thread; `saved p` has it while the thread of process `p` is behind its `swtch`.

  Proved: `interrupts_survive_switches`. A scheduler's thread leaves its record behind when it switches to a process:
  it does not put `intena` back after `swtch`, and calls `intr_on` instead.
-/

import Mathlib.Data.Finset.Card
import Xv6.Sched.Inv

namespace Xv6.Sched

open Xv6.Lib

inductive Op
  | acquire (c : Nat) (l : Lock)
  | release (c : Nat) (l : Lock)
  | pushOff (c : Nat)
  | popOff (c : Nat)
  | setIntr (c : Nat) (b : Bool)
  /-- By the process on `c`. -/
  | sched (c : Nat) (κ : After)
  /-- By the scheduler on `c`, to process `k`. -/
  | swtch (c k : Nat)

structure Share where
  m : St
  opens : Nat → Nat
  was : Nat → Option Bool
  saved : Nat → Option Bool

/-- The record when `noff` goes up. -/
def Share.enter (s : Share) (c : Nat) : Nat → Option Bool :=
  if s.m.noff c = 0 then update s.was c (some (s.m.intr c)) else s.was

/-- The record when `noff` goes down. -/
def Share.leave (s : Share) (c : Nat) : Nat → Option Bool := if s.m.noff c = 1 then update s.was c none else s.was

/-- The switch to process `k`: behind its `swtch`, its thread does `mycpu()->intena = intena`. -/
def resume (s : St) (c k : Nat) : Option St :=
  match (s.thr (.proc k)).pc with
  | .away _ _ intena => some ({ swtch s c (.proc k) with intena := update s.intena c intena }.goto c (.run []))
  | .forkret _ => some ((swtch s c (.proc k)).goto c (.run []))
  | _ => none

def Share.act (s : Share) : Op → Option Share
  | .acquire c l => (acquire s.m c l).toOption.map fun m => { s with m := m, was := s.enter c }
  | .release c l => (release s.m c l).toOption.map fun m => { s with m := m, was := s.leave c }
  | .pushOff c => some { s with m := pushOff s.m c, opens := update s.opens c (s.opens c + 1), was := s.enter c }
  | .popOff c =>
    if 0 < s.opens c then
      (popOff s.m c).toOption.map fun m => { s with m := m, opens := update s.opens c (s.opens c - 1), was := s.leave c }
    else none
  | .setIntr c b => if s.m.noff c = 0 then some { s with m := { s.m with intr := update s.m.intr c b } } else none
  | .sched c κ =>
    match s.m.on c with
    | .proc p => (sched s.m c p κ).toOption.map fun m =>
      { s with m := m, was := update s.was c none, saved := update s.saved p (s.was c) }
    | .cpu _ => none
  | .swtch c k =>
    if s.m.on c = .cpu c ∧ s.m.lock (.proc k) = some c ∧ s.m.noff c = 1 then
      (resume s.m c k).map fun m => { s with m := m, was := update s.was c (s.saved k), saved := update s.saved k none }
    else none

def Share.init : Share := ⟨Sched.init, fun _ => 0, fun _ => none, fun _ => none⟩

/-! ## What the lock functions do -/

section

variable {s s' : St} {c : Nat} {l : Lock}

theorem acquire_some (h : (acquire s c l).toOption = some s') :
    s.lock l = none ∧ s' = { pushOff s c with lock := update s.lock l (some c) } := by
  unfold acquire at h
  split at h
  · cases h
  · split at h
    · cases h
    · rename_i hfree
      exact ⟨not_not.mp hfree, (Option.some.inj h).symm⟩

theorem popOff_some (h : (popOff s c).toOption = some s') :
    0 < s.noff c ∧ s' = { s with
      noff := update s.noff c (s.noff c - 1)
      intr := update s.intr c (decide (s.noff c - 1 = 0) && s.intena c) } := by
  unfold popOff at h
  split at h
  · cases h
  · split at h
    · cases h
    · rename_i hpos
      exact ⟨by omega, (Option.some.inj h).symm⟩

theorem release_some (h : (release s c l).toOption = some s') :
    s.lock l = some c ∧ 0 < s.noff c ∧ s' = { s with
      lock := update s.lock l none
      noff := update s.noff c (s.noff c - 1)
      intr := update s.intr c (decide (s.noff c - 1 = 0) && s.intena c) } := by
  unfold release at h
  split at h
  · cases h
  · rename_i hl
    exact ⟨not_not.mp hl, popOff_some h⟩

theorem sched_some {p : Nat} {κ : After} (h : (sched s c p κ).toOption = some s') :
    s.noff c = 1 ∧ s' = swtch (s.goto c (.away p κ (s.intena c))) c (.cpu c) := by
  unfold sched at h
  split at h
  · cases h
  · split at h
    · cases h
    · rename_i hn
      split at h
      · cases h
      · split at h
        · cases h
        · exact ⟨not_not.mp hn, (Option.some.inj h).symm⟩

end

/-! ## intena -/

/-- In a section that a thread began, `intena` says how interrupts were: on its CPU, or in `sched`'s variable. -/
structure Kept (s : Share) : Prop where
  was : ∀ c b, s.was c = some b → 0 < s.m.noff c ∧ s.m.intena c = b
  saved : ∀ p b, s.saved p = some b → ∃ κ, (s.m.thr (.proc p)).pc = .away p κ b

section

variable {s : Share} {c : Nat} {lock : Lock → Option Nat} {opens : Nat → Nat}

theorem Kept.enter (h : Kept s) :
    Kept { s with m := { pushOff s.m c with lock := lock }, opens := opens, was := s.enter c } := by
  refine ⟨fun d b hw => ?_, h.saved⟩
  change 0 < update s.m.noff c (s.m.noff c + 1) d ∧
    update s.m.intena c (if s.m.noff c = 0 then s.m.intr c else s.m.intena c) d = b
  simp only [Share.enter] at hw
  by_cases hd : d = c
  · subst hd
    rw [update_self, update_self]
    refine ⟨Nat.succ_pos _, ?_⟩
    by_cases h0 : s.m.noff d = 0
    · rw [if_pos h0, update_self] at hw
      rw [if_pos h0]
      exact Option.some.inj hw
    · rw [if_neg h0] at hw ⊢
      exact (h.was d b hw).2
  · rw [update_of_ne hd, update_of_ne hd]
    refine h.was d b ?_
    split at hw
    · rwa [update_of_ne hd] at hw
    · exact hw

theorem Kept.leave (h : Kept s) {intr : Nat → Bool} :
    Kept { s with
      m := { s.m with lock := lock, noff := update s.m.noff c (s.m.noff c - 1), intr := intr }
      opens := opens, was := s.leave c } := by
  refine ⟨fun d b hw => ?_, h.saved⟩
  change 0 < update s.m.noff c (s.m.noff c - 1) d ∧ s.m.intena d = b
  have hold : s.was d = some b ∧ (d = c → s.m.noff c ≠ 1) := by
    simp only [Share.leave] at hw
    split at hw
    · obtain ⟨hd, hw⟩ := of_update_eq hw (by simp)
      exact ⟨hw, fun he => absurd he hd⟩
    · rename_i h1
      exact ⟨hw, fun _ => h1⟩
  obtain ⟨hpos, hb⟩ := h.was d b hold.1
  refine ⟨?_, hb⟩
  by_cases hd : d = c
  · subst hd
    have := hold.2 rfl
    rw [update_self]
    omega
  · rwa [update_of_ne hd]

theorem Kept.sched {p : Nat} {κ : After} (h : Kept s) (hon : s.m.on c = .proc p) :
    Kept { s with
      m := swtch (s.m.goto c (.away p κ (s.m.intena c))) c (.cpu c)
      was := update s.was c none, saved := update s.saved p (s.was c) } := by
  refine ⟨fun d b hw => h.was d b (of_update_eq hw (by simp)).2, fun q b hw => ?_⟩
  change ∃ κ', (update s.m.thr (s.m.on c) _ (.proc q)).pc = .away q κ' b
  rw [hon]
  change update s.saved p (s.was c) q = some b at hw
  rcases update_cases hw with ⟨rfl, hb⟩ | ⟨hq, hb⟩
  · rw [update_self, Thread.goto_pc, (h.was c b hb).2]
    exact ⟨κ, rfl⟩
  · rw [update_of_ne fun he => hq (Tid.proc.inj he)]
    exact h.saved q b hb

theorem Kept.resume {k : Nat} {m : St} (h : Kept s) (hc : 0 < s.m.noff c) (hm : resume s.m c k = some m) :
    Kept { s with m := m, was := update s.was c (s.saved k), saved := update s.saved k none } := by
  obtain ⟨i, rfl, hi, hk⟩ : ∃ i, m = { swtch s.m c (.proc k) with intena := i }.goto c (.run []) ∧
      (∀ d, d ≠ c → i d = s.m.intena d) ∧ ∀ κ b, (s.m.thr (.proc k)).pc = .away k κ b → i c = b := by
    unfold Sched.resume at hm
    split at hm
    · rename_i κ b hb
      cases hm
      refine ⟨_, rfl, fun d hd => update_of_ne hd _ _, fun κ' b' hb' => ?_⟩
      rw [hb] at hb'
      cases hb'
      exact update_self _ _ _
    · rename_i hb
      cases hm
      refine ⟨_, rfl, fun _ _ => rfl, fun κ' b' hb' => ?_⟩
      rw [hb] at hb'
      cases hb'
    · cases hm
  refine ⟨fun d b hw => ?_, fun q b hw => ?_⟩
  · change 0 < s.m.noff d ∧ i d = b
    change update s.was c (s.saved k) d = some b at hw
    rcases update_cases hw with ⟨rfl, hb⟩ | ⟨hd, hb⟩
    · obtain ⟨κ, haway⟩ := h.saved k b hb
      exact ⟨hc, hk κ b haway⟩
    · rw [hi d hd]
      exact h.was d b hb
  · obtain ⟨hq, hw⟩ := of_update_eq hw (by simp)
    change ∃ κ, (update s.m.thr (update s.m.on c (.proc k) c) _ (.proc q)).pc = .away q κ b
    rw [update_self, update_of_ne fun he => hq (Tid.proc.inj he)]
    exact h.saved q b hw

end

/-! ## Runs -/

structure Share.Inv (s : Share) : Prop extends Kept s where
  locks : ∃ L, Locks L s.m.lock s.m.noff s.m.intr s.opens

variable {s s' : Share}

theorem Share.Inv.act (h : s.Inv) {a : Op} (ha : s.act a = some s') : s'.Inv := by
  obtain ⟨L, hL⟩ := h.locks
  cases a with
  | acquire c l =>
    obtain ⟨m, hm, rfl⟩ := Option.map_eq_some_iff.mp ha
    obtain ⟨hfree, rfl⟩ := acquire_some hm
    exact ⟨h.toKept.enter, _, hL.acquire hfree⟩
  | release c l =>
    obtain ⟨m, hm, rfl⟩ := Option.map_eq_some_iff.mp ha
    obtain ⟨hheld, -, rfl⟩ := release_some hm
    exact ⟨h.toKept.leave, _, hL.release (List.perm_cons_erase ((hL.held c l).mp hheld)) _⟩
  | pushOff c =>
    cases ha
    exact ⟨h.toKept.enter, L, hL.open_close (by omega) fun _ => rfl⟩
  | popOff c =>
    obtain ⟨hopen, ha⟩ := Option.ite_none_right_eq_some.mp ha
    obtain ⟨m, hm, rfl⟩ := Option.map_eq_some_iff.mp ha
    obtain ⟨hpos, rfl⟩ := popOff_some hm
    refine ⟨h.toKept.leave, L, hL.open_close (by omega) fun hn => ?_⟩
    rw [decide_eq_false (by omega), Bool.false_and]
  | setIntr c b =>
    obtain ⟨h0, rfl⟩ := of_guard ha
    exact ⟨⟨h.was, h.saved⟩, L, hL.setIntr h0 b⟩
  | sched c κ =>
    simp only [Share.act] at ha
    split at ha
    · rename_i p hon
      obtain ⟨m, hm, rfl⟩ := Option.map_eq_some_iff.mp ha
      obtain ⟨-, rfl⟩ := sched_some hm
      exact ⟨h.toKept.sched hon, h.locks⟩
    · cases ha
  | swtch c k =>
    obtain ⟨⟨-, -, hnoff⟩, ha⟩ := Option.ite_none_right_eq_some.mp ha
    obtain ⟨m, hm, rfl⟩ := Option.map_eq_some_iff.mp ha
    have hsame : m.lock = s.m.lock ∧ m.noff = s.m.noff ∧ m.intr = s.m.intr := by
      unfold resume at hm
      split at hm <;> cases hm <;> exact ⟨rfl, rfl, rfl⟩
    refine ⟨h.toKept.resume (by omega) hm, L, ?_⟩
    rw [hsame.1, hsame.2.1, hsame.2.2]
    exact hL

theorem Share.inv_init : Share.init.Inv where
  was _ _ h := by cases h
  saved _ _ h := by cases h
  locks := ⟨fun _ => [], by simp [init, Sched.init], fun _ => .nil, fun _ => rfl, fun _ h => absurd h (Nat.lt_irrefl 0)⟩

/-- On every CPU and after any operations: interrupts are off while `noff` is positive; `noff` is the number of locks
    that the CPU holds and of its open `push_off`s; and the release with which a thread leaves a section that it began
    turns interrupts on exactly if they were on at the beginning, whichever CPU that was on. -/
theorem interrupts_survive_switches (h : Reach Share.act (fun _ _ => True) Share.init s) :
    (∀ c, 0 < s.m.noff c → s.m.intr c = false) ∧
    (∀ c, ∃ H : Finset Lock, (∀ l, l ∈ H ↔ s.m.lock l = some c) ∧ s.m.noff c = H.card + s.opens c) ∧
    ∀ c b l s', s.was c = some b → s.m.noff c = 1 → s.act (.release c l) = some s' → s'.m.intr c = b := by
  have hinv : s.Inv := h.inv Share.inv_init fun _ _ _ hi _ ha => hi.act ha
  obtain ⟨L, hL⟩ := hinv.locks
  refine ⟨hL.quiet, fun c => ⟨(L c).toFinset, by simp [hL.held], ?_⟩, fun c b l s' hw h1 ha => ?_⟩
  · rw [List.toFinset_card_of_nodup (hL.nodup c)]
    exact hL.noff c
  obtain ⟨m, hm, rfl⟩ := Option.map_eq_some_iff.mp ha
  obtain ⟨-, -, rfl⟩ := release_some hm
  change update s.m.intr c _ c = b
  rw [update_self, h1, (hinv.toKept.was c b hw).2]
  rfl

/-- Process 1 takes its `p->lock` on CPU 0 with interrupts on and gives up the CPU; CPU 1, where interrupts were off,
    takes it up. -/
def migrates : List Op :=
  [.setIntr 0 true, .acquire 0 (.proc 1), .swtch 0 1, .release 0 (.proc 1), .acquire 0 (.proc 1), .sched 0 .yield,
    .release 0 (.proc 1), .acquire 1 (.proc 1), .swtch 1 1]

theorem interrupts_survive_migration : ∃ s, run Share.act Share.init migrates = some s ∧ s.was 1 = some true ∧
    ∀ s', s.act (.release 1 (.proc 1)) = some s' → s'.m.intr 1 = true := by
  have hrun : (run Share.act Share.init migrates).map (fun s => (s.was 1, s.m.noff 1)) = some (some true, 1) := by
    decide
  obtain ⟨s, hs, hq⟩ := Option.map_eq_some_iff.mp hrun
  simp only [Prod.mk.injEq] at hq
  exact ⟨s, hs, hq.1, fun s' ha =>
    (interrupts_survive_switches (reach_of_run (fun _ _ _ => trivial) hs)).2.2 1 true _ s' hq.1 hq.2 ha⟩

end Xv6.Sched
