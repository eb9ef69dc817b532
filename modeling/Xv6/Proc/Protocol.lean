/-
  Xv6.Proc.Protocol — parents, children and `wait_lock`.

  What `exit` and `wait` rest on, without the rest of the table: where each process is, whether
  its slot is free, being set up, in use or a zombie, who is asleep in `wait`, and the parents.
  Every step of a process is one of the `Move`s here (`Step.move` in `Xv6.Proc.Wait`).

  `wait_lock` is held by whoever changes a parent or makes a zombie, and by a `wait` from its
  scan up to its sleep. So a scan that found no zombie is still right when the process goes
  to sleep (`scanned`), a process that has passed on its children gets no new ones (`given`),
  and a parent that was woken is awake until its child is a zombie (`told`). A zombie that is
  passed on to a sleeping `init` is announced before the lock is released (`settled`).

  Proved: `Orderly.move`, each move keeps all of this.
-/

import Xv6.Proc.Table

namespace Xv6.Proc

open Xv6.Lib

inductive Phase
  | unused
  | used
  | live
  | zombie
  deriving DecidableEq

@[ext] structure View where
  pc : Nat → Pc
  phase : Nat → Phase
  /-- Asleep in `wait`. -/
  waiting : Nat → Bool
  parent : Nat → Option Nat
  lock : Option Nat

/-! ## Places -/

/-- Neither in a locked part nor with a new process in hand. -/
def Pc.plain : Pc → Bool
  | .user | .forkScan .. | .exitAcq _ | .waitAcq _ | .killScan .. => true
  | _ => false

def Pc.exits : Pc → Bool
  | .exitAcq _ | .reparent .. | .rewake .. | .exitWake .. => true
  | _ => false

/-- In `fork`, with the new process `np`. -/
def Pc.forks (np : Nat) : Pc → Bool
  | .forkParent k _ | .forkReady k _ => k == np
  | _ => false

/-- In `exit`, past slot `q` of `reparent`. -/
def Pc.given (q : Nat) : Pc → Bool
  | .reparent k _ => q < k
  | .rewake k _ _ => q ≤ k
  | .exitWake .. => true
  | _ => false

/-- In `wait`, past slot `q` of the scan. -/
def Pc.scanned (q : Nat) : Pc → Bool
  | .waitScan k _ _ => q < k
  | .waitSleep _ => true
  | _ => false

section

variable {x : Pc} {q : Nat}

theorem Pc.holds_of_given (h : x.given q = true) : x.holds = true := by
  cases x <;> first | rfl | cases h

theorem Pc.holds_of_scanned (h : x.scanned q = true) : x.holds = true := by
  cases x <;> first | rfl | cases h

theorem Pc.plain_no_holds (h : x.plain = true) : x.holds = false := by
  cases x <;> first | rfl | cases h

theorem Pc.plain_no_forks (h : x.plain = true) : x.forks q = false := by
  cases x <;> first | rfl | cases h

end

/-! ## Moves -/

/-- Process `p` goes from one place to another and changes nothing else. -/
inductive Goes (v : View) (p : Nat) : Pc → Pc → Prop
  | plain (x y : Pc) : x.plain = true → y.plain = true → (y.exits = true → p ≠ initproc) → Goes v p x y
  | reparent (k : Nat) (status : Int) : v.parent k ≠ some p →
      Goes v p (.reparent k status) (.reparent (k + 1) status)
  | reparented (k : Nat) (status : Int) : nproc ≤ k → Goes v p (.reparent k status) (.exitWake 0 (v.parent p) status)
  | rewoken (k j : Nat) (status : Int) : nproc ≤ j → Goes v p (.rewake k j status) (.reparent (k + 1) status)
  | waitScan (k : Nat) (havekids havekids' : Bool) (copy : Option Bool) : (v.parent k = some p → v.phase k ≠ .zombie) →
      Goes v p (.waitScan k havekids copy) (.waitScan (k + 1) havekids' copy)
  | waitFail (k : Nat) (havekids : Bool) (copy : Option Bool) (r : Int) :
      Goes v p (.waitScan k havekids copy) (.waitRet r)
  | waitSleep (k : Nat) (havekids : Bool) (copy : Option Bool) : nproc ≤ k →
      Goes v p (.waitScan k havekids copy) (.waitSleep copy)

/-- Process `p` is running. -/
structure View.Runs (v : View) (p : Nat) : Prop where
  lt : p < nproc
  live : v.phase p = .live
  awake : v.waiting p = false

inductive Move (v : View) : View → Prop
  /-- Sleepers are woken, by `kill` or from outside. -/
  | stay (w : Nat → Bool) : (∀ q, w q = true → v.waiting q = true) → Move v { v with waiting := w }
  | go (p : Nat) (y : Pc) (w : Nat → Bool) : v.Runs p → Goes v p (v.pc p) y →
      (∀ q, w q = true → v.waiting q = true) → Move v { v with pc := update v.pc p y, waiting := w }
  | alloc (p k : Nat) (mem : Bool) (pid : Int) : v.Runs p → v.pc p = .forkScan k mem → k < nproc → v.phase k = .unused →
      Move v { v with pc := update v.pc p (.forkParent k pid), phase := update v.phase k .used }
  | forkParent (p np : Nat) (pid : Int) : v.Runs p → v.pc p = .forkParent np pid → v.lock = none →
      Move v { v with pc := update v.pc p (.forkReady np pid), parent := update v.parent np (some p) }
  | forkReady (p np : Nat) (pid : Int) : v.Runs p → v.pc p = .forkReady np pid →
      Move v { v with pc := update v.pc p .user, phase := update v.phase np .live }
  | exitAcq (p : Nat) (status : Int) : v.Runs p → v.pc p = .exitAcq status → v.lock = none →
      Move v { v with pc := update v.pc p (.reparent 0 status), lock := some p }
  | reparent (p k : Nat) (status : Int) : v.Runs p → v.pc p = .reparent k status → v.parent k = some p →
      Move v { v with pc := update v.pc p (.rewake k 0 status), parent := update v.parent k (some initproc) }
  | rewake (p k j : Nat) (status : Int) (w : Nat → Bool) : v.Runs p → v.pc p = .rewake k j status →
      (∀ q, w q = true → v.waiting q = true) → (j = initproc → w initproc = false) →
      Move v { v with pc := update v.pc p (.rewake k (j + 1) status), waiting := w }
  | exitWake (p j : Nat) (parent : Option Nat) (status : Int) (w : Nat → Bool) : v.Runs p →
      v.pc p = .exitWake j parent status → (∀ q, w q = true → v.waiting q = true) → (parent = some j → w j = false) →
      Move v { v with pc := update v.pc p (.exitWake (j + 1) parent status), waiting := w }
  | zombie (p j : Nat) (parent : Option Nat) (status : Int) : v.Runs p → v.pc p = .exitWake j parent status → nproc ≤ j →
      Move v { v with pc := update v.pc p .user, phase := update v.phase p .zombie, lock := none }
  | waitAcq (p : Nat) (copy : Option Bool) : v.Runs p → v.pc p = .waitAcq copy → v.lock = none →
      Move v { v with pc := update v.pc p (.waitScan 0 false copy), lock := some p }
  | reap (p k : Nat) (havekids : Bool) (copy : Option Bool) (r : Int) : v.Runs p → v.pc p = .waitScan k havekids copy →
      v.parent k = some p → v.phase k = .zombie →
      Move v { v with pc := update v.pc p (.waitRet r), phase := update v.phase k .unused,
                      parent := update v.parent k none }
  | sleep (p : Nat) (copy : Option Bool) : v.Runs p → v.pc p = .waitSleep copy →
      Move v { v with pc := update v.pc p (.waitAcq copy), waiting := update v.waiting p true, lock := none }
  | waitRet (p : Nat) (r : Int) : v.Runs p → v.pc p = .waitRet r →
      Move v { v with pc := update v.pc p .user, lock := none }

structure Orderly (v : View) : Prop where
  place : ∀ p, v.pc p ≠ .user → v.phase p = .live
  holder : ∀ p, (v.pc p).holds = true ↔ v.lock = some p
  waits : ∀ p, v.waiting p = true → ∃ copy, v.pc p = .waitAcq copy
  low : ∀ p, nproc ≤ p → v.phase p = .unused
  init : v.phase initproc = .live
  exits : ∀ p, (v.pc p).exits = true → p ≠ initproc
  -- fork
  forks : ∀ p np, (v.pc p).forks np = true → v.phase np = .used
  forkOnce : ∀ p q np, (v.pc p).forks np = true → (v.pc q).forks np = true → p = q
  ready : ∀ p np pid, v.pc p = .forkReady np pid → v.parent np ≠ none
  -- parents
  orphan : ∀ q, v.phase q = .unused → v.parent q = none
  parents : ∀ q r, v.parent q = some r → v.phase r = .live
  kin : ∀ q, q ≠ initproc → v.phase q = .live ∨ v.phase q = .zombie → v.parent q ≠ none
  given : ∀ p q, (v.pc p).given q = true → v.parent q ≠ some p
  -- wakeups
  scanned : ∀ p q, (v.pc p).scanned q = true → v.parent q = some p → v.phase q ≠ .zombie
  told : ∀ p j parent status, v.pc p = .exitWake j parent status →
    parent = v.parent p ∧ ∀ r, parent = some r → r < j → v.waiting r = false
  settled : ∀ q r, v.waiting r = true → v.parent q = some r → v.phase q = .zombie →
    r = initproc ∧ ∃ p k status, v.pc p = .rewake k 0 status

section

variable {v v' : View} {p q : Nat} {y x : Pc}

theorem Goes.holds (h : Goes v p x y) : y.holds = x.holds := by
  cases h with
  | plain x y hx hy => rw [Pc.plain_no_holds hx, Pc.plain_no_holds hy]
  | _ => rfl

theorem Goes.no_forks {np : Nat} (h : Goes v p x y) : y.forks np = false := by
  cases h with
  | plain x y hx hy => exact Pc.plain_no_forks hy
  | _ => rfl

theorem Goes.exits (h : Goes v p x y) (hy : y.exits = true) : x.exits = true ∨ p ≠ initproc := by
  cases h with
  | plain x y _ _ hp => exact Or.inr (hp hy)
  | waitScan | waitFail | waitSleep => cases hy
  | _ => exact Or.inl rfl

/-- Only the holder of the lock goes on in a locked part, and it alone. -/
theorem Orderly.holder_unique (h : Orderly v) (hp : (v.pc p).holds = true) (hq : (v.pc q).holds = true) :
    p = q := by
  have h1 := (h.holder p).mp hp
  rw [(h.holder q).mp hq] at h1
  exact (Option.some.inj h1).symm

section

variable (h : Orderly v) (hm : Move v v')

include h hm

theorem Orderly.place_move : ∀ p, v'.pc p ≠ .user → v'.phase p = .live := by
  have hplace := h.place
  cases hm with
  | go p y w hr =>
    have hlive := hr.live
    grind [update]
  | _ => grind [update]

theorem Orderly.holder_move : ∀ p, (v'.pc p).holds = true ↔ v'.lock = some p := by
  have hholder := h.holder
  cases hm with
  | go p y w _ hg =>
    have hsame := hg.holds
    grind [update]
  | _ => grind [update, Pc.holds]

theorem Orderly.waits_move : ∀ p, v'.waiting p = true → ∃ copy, v'.pc p = .waitAcq copy := by
  have hwaits := h.waits
  cases hm with
  | stay w hw => exact fun p hp => hwaits p (hw p hp)
  | sleep p copy =>
    intro q hq
    by_cases hqp : q = p
    · exact ⟨copy, by simp [update, hqp]⟩
    · simpa [update, hqp] using hwaits q (by simpa [update, hqp] using hq)
  | _ p =>
    have hawake : v.waiting p = false := View.Runs.awake (by assumption)
    grind [update]

theorem Orderly.low_move : ∀ p, nproc ≤ p → v'.phase p = .unused := by
  have hlow := h.low
  cases hm with
  | alloc p k => grind [update]
  | forkReady p np pid _ hpc =>
    have hused := h.forks p np (by simp [hpc, Pc.forks])
    grind [update]
  | zombie p j parent status hr =>
    have hlt := hr.lt
    grind [update]
  | reap p k => grind [update]
  | _ => exact hlow

theorem Orderly.init_move : v'.phase initproc = .live := by
  have hinit := h.init
  cases hm with
  | alloc p k => grind [update]
  | forkReady p np => grind [update]
  | zombie p j parent status _ hpc =>
    have hne := h.exits p (by rw [hpc]; rfl)
    grind [update]
  | reap p k => grind [update]
  | _ => exact hinit

theorem Orderly.exits_move : ∀ p, (v'.pc p).exits = true → p ≠ initproc := by
  have hexits := h.exits
  cases hm with
  | stay => exact hexits
  | go p y w _ hg =>
    have hy := hg.exits
    grind [update]
  | _ => grind [update, Pc.exits]

/-! ### fork -/

theorem Orderly.forks_move : ∀ p np, (v'.pc p).forks np = true → v'.phase np = .used := by
  have hforks := h.forks
  cases hm with
  | stay => exact hforks
  | go p y w _ hg =>
    have hy : ∀ np, y.forks np = false := fun _ => hg.no_forks
    grind [update]
  | forkReady p np pid _ hpc =>
    -- nobody else has the new process in hand
    have honce := fun q => h.forkOnce p q np (by simp [hpc, Pc.forks])
    grind [update, Pc.forks]
  | zombie p j parent status hr =>
    have hlive := hr.live
    grind [update, Pc.forks]
  | _ => grind [update, Pc.forks]

theorem Orderly.forkOnce_move : ∀ p q np, (v'.pc p).forks np = true → (v'.pc q).forks np = true → p = q := by
  have honce := h.forkOnce
  cases hm with
  | stay => exact honce
  | go p y w _ hg =>
    have hy : ∀ np, y.forks np = false := fun _ => hg.no_forks
    grind [update]
  | alloc p k mem pid _ _ _ hu =>
    have hforks := fun q => h.forks q k
    grind [update, Pc.forks]
  | _ => grind [update, Pc.forks]

theorem Orderly.ready_move : ∀ p np pid, v'.pc p = .forkReady np pid → v'.parent np ≠ none := by
  have hready := h.ready
  cases hm with
  | stay => exact hready
  | go p y w _ hg =>
    have hy : ∀ np pid, y ≠ .forkReady np pid := by
      rintro np pid rfl
      exact absurd (hg.no_forks : Pc.forks np _ = false) (by simp [Pc.forks])
    grind [update]
  | reap p k havekids copy r _ _ _ hz =>
    have hforks := fun q => h.forks q k
    grind [update, Pc.forks]
  | _ => grind [update]

/-! ### Parents -/

theorem Orderly.orphan_move : ∀ q, v'.phase q = .unused → v'.parent q = none := by
  have horphan := h.orphan
  cases hm with
  | forkParent p np pid _ hpc =>
    have hused := h.forks p np (by simp [hpc, Pc.forks])
    grind [update]
  | _ => grind [update]

theorem Orderly.parents_move : ∀ q r, v'.parent q = some r → v'.phase r = .live := by
  have hparents := h.parents
  cases hm with
  | forkParent p np pid hr =>
    have hlive := hr.live
    grind [update]
  | reparent p k =>
    have hinit := h.init
    grind [update]
  | zombie p j parent status _ hpc =>
    -- every child has been passed on
    have hgiven : ∀ q, v.parent q ≠ some p := fun q => h.given p q (by rw [hpc]; rfl)
    grind [update]
  | _ => grind [update]

theorem Orderly.kin_move : ∀ q, q ≠ initproc → v'.phase q = .live ∨ v'.phase q = .zombie → v'.parent q ≠ none := by
  have hkin := h.kin
  cases hm with
  | forkReady p np pid _ hpc =>
    have hready := h.ready p np pid hpc
    grind [update]
  | zombie p j parent status hr =>
    have hlive := hr.live
    grind [update]
  | _ => grind [update]

theorem Orderly.given_move : ∀ p q, (v'.pc p).given q = true → v'.parent q ≠ some p := by
  have hgiven := h.given
  cases hm with
  | stay => exact hgiven
  | go p y w _ hg =>
    intro r q hq
    by_cases hrp : r = p
    · subst hrp
      have hq : y.given q = true := by simpa [update] using hq
      have hold := hgiven r q
      generalize hx : v.pc r = x at hg
      rw [hx] at hold
      cases hg with
      | plain x y _ hy =>
        have := Pc.holds_of_given hq
        rw [Pc.plain_no_holds hy] at this
        cases this
      | reparent k status hk =>
        have hle : q ≤ k := by simpa [Pc.given, Nat.lt_succ_iff] using hq
        obtain hlt | rfl := Nat.lt_or_eq_of_le hle
        · exact hold (by simpa [Pc.given] using hlt)
        · exact hk
      | reparented k status hk =>
        by_cases hlt : q < nproc
        · exact hold (by simpa [Pc.given] using Nat.lt_of_lt_of_le hlt hk)
        · show v.parent q ≠ some r
          rw [h.orphan q (h.low q (Nat.le_of_not_lt hlt))]
          simp
      | rewoken k j status => exact hold (by simpa [Pc.given, Nat.lt_succ_iff] using hq)
      | waitScan | waitFail | waitSleep => cases hq
    · exact hgiven r q (by simpa [update, hrp] using hq)
  | reparent p k status hr hpc hk =>
    have hne := h.exits p (by rw [hpc]; rfl)
    -- only `p` holds the lock
    have honly : ∀ r q, (v.pc r).given q = true → r = p :=
      fun r q hq => h.holder_unique (Pc.holds_of_given hq) (by rw [hpc]; rfl)
    grind [update, Pc.given]
  | _ => grind [update, Pc.given]

/-! ### Wakeups -/

theorem Orderly.scanned_move : ∀ p q, (v'.pc p).scanned q = true → v'.parent q = some p → v'.phase q ≠ .zombie := by
  have hscanned := h.scanned
  cases hm with
  | stay => exact hscanned
  | go p y w _ hg =>
    intro r q hq hpar
    by_cases hrp : r = p
    · subst hrp
      have hq : y.scanned q = true := by simpa [update] using hq
      have hold := fun hs => hscanned r q hs hpar
      generalize hx : v.pc r = x at hg
      rw [hx] at hold
      cases hg with
      | plain x y _ hy =>
        have := Pc.holds_of_scanned hq
        rw [Pc.plain_no_holds hy] at this
        cases this
      | waitScan k havekids havekids' copy hk =>
        have hle : q ≤ k := by simpa [Pc.scanned, Nat.lt_succ_iff] using hq
        obtain hlt | rfl := Nat.lt_or_eq_of_le hle
        · exact hold (by simpa [Pc.scanned] using hlt)
        · exact hk hpar
      | waitSleep k havekids copy hk =>
        by_cases hlt : q < nproc
        · exact hold (by simpa [Pc.scanned] using Nat.lt_of_lt_of_le hlt hk)
        · show v.phase q ≠ .zombie
          rw [h.low q (Nat.le_of_not_lt hlt)]
          simp
      | reparent | reparented | rewoken | waitFail => cases hq
    · exact hscanned r q (by simpa [update, hrp] using hq) hpar
  | forkParent p np pid _ hpc =>
    have hused := h.forks p np (by simp [hpc, Pc.forks])
    grind [update, Pc.scanned]
  | reparent p k status _ hpc =>
    -- a scan holds the lock
    have honly : ∀ r q, (v.pc r).scanned q = true → r = p :=
      fun r q hq => h.holder_unique (Pc.holds_of_scanned hq) (by rw [hpc]; rfl)
    grind [update, Pc.scanned]
  | zombie p j parent status _ hpc =>
    have honly : ∀ r q, (v.pc r).scanned q = true → r = p :=
      fun r q hq => h.holder_unique (Pc.holds_of_scanned hq) (by rw [hpc]; rfl)
    grind [update, Pc.scanned]
  | _ => grind [update, Pc.scanned]

theorem Orderly.told_move : ∀ p j parent status, v'.pc p = .exitWake j parent status →
    parent = v'.parent p ∧ ∀ r, parent = some r → r < j → v'.waiting r = false := by
  have htold := h.told
  -- a process at this place holds the lock
  have honly : ∀ {p : Nat}, (v.pc p).holds = true → ∀ r j c status, v.pc r = .exitWake j c status → r = p :=
    fun hp r j c status hr => h.holder_unique (by rw [hr]; rfl) hp
  have hfree : v.lock = none → ∀ r j c status, v.pc r ≠ .exitWake j c status := by
    intro hl r j c status hr
    have := (h.holder r).mp (by rw [hr]; rfl)
    rw [hl] at this
    cases this
  cases hm with
  | stay w hw => grind
  | go p y w _ hg hw =>
    intro r j c status hr
    by_cases hrp : r = p
    · subst hrp
      have hy : y = .exitWake j c status := by simpa [update] using hr
      subst hy
      generalize hx : v.pc r = x at hg
      cases hg with
      | plain x y _ hy => cases hy
      | reparented k => exact ⟨rfl, fun _ _ hlt => absurd hlt (Nat.not_lt_zero _)⟩
    · have hold := htold r j c status (by simpa [update, hrp] using hr)
      refine ⟨hold.1, fun q hq hlt => Bool.eq_false_iff.mpr fun hwq => ?_⟩
      have := hw q hwq
      rw [hold.2 q hq hlt] at this
      cases this
  | forkParent p np pid _ _ hl =>
    have hnone := hfree hl
    grind [update]
  | reparent p k status _ hpc | reap p k havekids copy r _ hpc | sleep p copy _ hpc =>
    have hone := honly (p := p) (by rw [hpc]; rfl)
    grind [update]
  | _ => grind [update]

end

/-- A move of a process that owes `init` nothing, wakes at most and makes no zombie. -/
theorem Orderly.settled_frame (h : Orderly v) (hpc : v'.pc = update v.pc p y) (hp : ∀ k status, v.pc p ≠ .rewake k 0 status)
    (hw : ∀ q, v'.waiting q = true → v.waiting q = true) (hz : ∀ q r, v'.parent q = some r → v'.phase q = .zombie →
      v.parent q = some r ∧ v.phase q = .zombie) :
    ∀ q r, v'.waiting r = true → v'.parent q = some r → v'.phase q = .zombie →
      r = initproc ∧ ∃ p k status, v'.pc p = .rewake k 0 status := by
  intro q r hwr hpar hzq
  obtain ⟨hpar, hzq⟩ := hz q r hpar hzq
  obtain ⟨hr, o, k, status, ho⟩ := h.settled q r (hw r hwr) hpar hzq
  refine ⟨hr, o, k, status, ?_⟩
  rw [hpc, update_of_ne]
  · exact ho
  · rintro rfl
    exact hp k status ho

theorem Orderly.settled_move (h : Orderly v) (hm : Move v v') : ∀ q r, v'.waiting r = true → v'.parent q = some r →
    v'.phase q = .zombie → r = initproc ∧ ∃ p k status, v'.pc p = .rewake k 0 status := by
  have hsettled := h.settled
  -- who owes `init` a wakeup holds the lock
  have honly : ∀ {p : Nat}, (v.pc p).holds = true → ∀ r k j status, v.pc r = .rewake k j status → r = p :=
    fun hp r k j status hr => h.holder_unique (by rw [hr]; rfl) hp
  cases hm with
  | stay w hw => exact fun q r hwr => hsettled q r (hw r hwr)
  | go p y w _ hg hw =>
    refine h.settled_frame rfl (fun k status hx => ?_) hw fun _ _ hpar hz => ⟨hpar, hz⟩
    rw [hx] at hg
    cases hg with
    | plain x y hx => cases hx
    | rewoken k j status hj => exact absurd hj (by decide)
  | alloc p k mem pid _ hpc | forkReady p np pid _ hpc =>
    refine h.settled_frame rfl (by simp [hpc]) (fun _ hw => hw) fun q r hpar hz => ⟨hpar, ?_⟩
    grind [update]
  | forkParent p np pid _ hpc =>
    have hused := h.forks p np (by simp [hpc, Pc.forks])
    refine h.settled_frame rfl (by simp [hpc]) (fun _ hw => hw) fun q r hpar hz => ⟨?_, hz⟩
    grind [update]
  | exitAcq p status _ hpc | waitAcq p copy _ hpc | waitRet p r _ hpc =>
    exact h.settled_frame rfl (by simp [hpc]) (fun _ hw => hw) fun _ _ hpar hz => ⟨hpar, hz⟩
  | exitWake p j c status w _ hpc hw =>
    exact h.settled_frame rfl (by simp [hpc]) hw fun _ _ hpar hz => ⟨hpar, hz⟩
  | reap p k havekids copy r _ hpc =>
    refine h.settled_frame rfl (by simp [hpc]) (fun _ hw => hw) fun q r hpar hz => ?_
    grind [update]
  | reparent p k status _ hpc =>
    intro q r hwr hpar hz
    refine ⟨?_, p, k, status, by simp [update]⟩
    by_cases hq : q = k
    · simpa [update, hq, eq_comm] using hpar
    · exact (hsettled q r hwr (by simpa [update, hq] using hpar) hz).1
  | rewake p k j status w _ hpc hw hj =>
    intro q r hwr hpar hz
    obtain ⟨rfl, o, k', status', ho⟩ := hsettled q r (hw r hwr) hpar hz
    -- the wakeup has come to `init`'s slot
    obtain rfl := honly (p := p) (by rw [hpc]; rfl) o k' 0 status' ho
    rw [hpc] at ho
    cases ho
    have hwr : w initproc = true := hwr
    rw [hj rfl] at hwr
    cases hwr
  | zombie p j c status _ hpc hj =>
    intro q r hwr hpar hz
    have hwr : v.waiting r = true := hwr
    have hpar : v.parent q = some r := hpar
    by_cases hq : q = p
    · subst hq
      -- the parent was woken, and has not got the lock back
      obtain ⟨rfl, hwoken⟩ := h.told q j c status hpc
      have hlt : r < nproc := by
        by_contra hge
        have := h.parents q r hpar
        rw [h.low r (Nat.le_of_not_lt hge)] at this
        cases this
      rw [hwoken r hpar (Nat.lt_of_lt_of_le hlt hj)] at hwr
      cases hwr
    · obtain ⟨-, o, k, status', ho⟩ := hsettled q r hwr hpar (by simpa [update, hq] using hz)
      obtain rfl := honly (p := p) (by rw [hpc]; rfl) o k 0 status' ho
      rw [hpc] at ho
      cases ho
  | sleep p copy _ hpc =>
    intro q r hwr hpar hz
    have hpar : v.parent q = some r := hpar
    have hz : v.phase q = .zombie := hz
    by_cases hr : r = p
    · subst hr
      exact absurd hz (h.scanned r q (by rw [hpc]; rfl) hpar)
    · obtain ⟨-, o, k, status', ho⟩ := hsettled q r (by simpa [update, hr] using hwr) hpar hz
      obtain rfl := honly (p := p) (by rw [hpc]; rfl) o k 0 status' ho
      rw [hpc] at ho
      cases ho

theorem Orderly.move (h : Orderly v) (hm : Move v v') : Orderly v' where
  place := h.place_move hm
  holder := h.holder_move hm
  waits := h.waits_move hm
  low := h.low_move hm
  init := h.init_move hm
  exits := h.exits_move hm
  forks := h.forks_move hm
  forkOnce := h.forkOnce_move hm
  ready := h.ready_move hm
  orphan := h.orphan_move hm
  parents := h.parents_move hm
  kin := h.kin_move hm
  given := h.given_move hm
  scanned := h.scanned_move hm
  told := h.told_move hm
  settled := h.settled_move hm

/-- While the lock is free, nobody is asleep in `wait` with a zombie child. -/
theorem Orderly.no_lost_wakeup (h : Orderly v) (hl : v.lock = none) {r : Nat} (hw : v.waiting r = true)
    (hpar : v.parent q = some r) : v.phase q ≠ .zombie := by
  intro hz
  obtain ⟨-, p, k, status, hp⟩ := h.settled q r hw hpar hz
  have := (h.holder p).mp (by rw [hp]; rfl)
  rw [hl] at this
  cases this

end

end Xv6.Proc
