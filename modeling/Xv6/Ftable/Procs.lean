/-
  Xv6.Ftable.Procs — whose descriptors a process may change.

  A process changes its own descriptors only, and `fork` those of the process that it sets up:
  no other `fork` has the same one, and the descriptors that it has not yet come to are empty.
  A process that has exited has no descriptor left.
-/

import Xv6.Ftable.Calls

namespace Xv6.Ftable

open Xv6.Lib
open Xv6.Fs (nofile nfile)

/-! ## What an action of `p` leaves alone -/

structure Own (p : Nat) (s t : St) : Prop where
  others : ∀ q, q ≠ p → t.proc q = s.proc q
  life : (t.proc p).life = (s.proc p).life

section

variable {s t u : St} {p f fd np : Nat} {o : Option Nat}

theorem Own.refl (p : Nat) (s : St) : Own p s s := ⟨fun _ _ => rfl, rfl⟩

variable {y : Pc}

section

variable (h : Own p s t)
include h

theorem Own.setProc {x : Proc} (hx : x.life = (t.proc p).life) : Own p s (t.setProc p x) where
  others q hq := by simp only [St.setProc, update_of_ne hq, h.others q hq]
  life := by simp only [St.setProc, update_self, hx, h.life]

theorem Own.setFile {x : File} : Own p s (t.setFile f x) := ⟨h.others, h.life⟩

theorem Own.goto : Own p s (t.goto p y) := h.setProc rfl

theorem Own.ret {r : Int} : Own p s (t.ret p r) := h.setProc rfl

theorem Own.setFd : Own p s (t.setFd p fd o) := h.setProc rfl

theorem Own.filealloc (ha : filealloc t = some (f, u)) : Own p s u := by
  unfold Ftable.filealloc at ha
  split at ha
  · cases ha
    exact h.setFile
  · cases ha

theorem Own.fdalloc (ha : fdalloc t p f = some (fd, u)) : Own p s u := by
  unfold Ftable.fdalloc at ha
  split at ha
  · cases ha
    exact h.setFd
  · cases ha

end

theorem proc_filedup (s : St) (f : Nat) : (filedup s f).proc = s.proc := by
  unfold filedup
  split <;> rfl

theorem Own.filedup (h : Own p s t) : Own p s (filedup t f) where
  others := by simpa only [proc_filedup] using h.others
  life := by simpa only [proc_filedup] using h.life

/-! ## The processes -/

def Next.exitAt : Next → Option Nat
  | .exit fd => some fd
  | _ => none

/-- How far `exit` has come. -/
def Pc.exitAt : Pc → Option Nat
  | .next n | .pipeclose _ _ n => n.exitAt
  | _ => none

structure Procs (s : St) : Prop where
  quiet : ∀ p, (s.proc p).life ≠ .live → (s.proc p).pc = .idle
  dead : ∀ p, (s.proc p).life = .dead → ∀ fd < nofile, (s.proc p).ofile fd = none
  exit : ∀ p fd, (s.proc p).pc.exitAt = some fd → ∀ j < fd, j < nofile → (s.proc p).ofile j = none
  child : ∀ p np i, (s.proc p).pc = .fork np i → np < nproc ∧ (s.proc np).life = .setup ∧
    ∀ j, i ≤ j → j < nofile → (s.proc np).ofile j = none
  parent : ∀ p q np i j, (s.proc p).pc = .fork np i → (s.proc q).pc = .fork np j → p = q

theorem procs_init : Procs init where
  quiet _ _ := rfl
  dead _ _ _ _ := rfl
  exit _ _ h := by cases h
  child _ _ _ h := by cases h
  parent _ _ _ _ _ h := by cases h

theorem Procs.congr (h : Procs s) (ht : t.proc = s.proc) : Procs t := by
  obtain ⟨hquiet, hdead, hexit, hchild, hparent⟩ := h
  rw [← ht] at hquiet hdead hexit hchild hparent
  exact ⟨hquiet, hdead, hexit, hchild, hparent⟩

theorem Procs.live (h : Procs s) (hpc : (s.proc p).pc ≠ .idle) : (s.proc p).life = .live := by
  by_contra hlive
  exact hpc (h.quiet p hlive)

variable {n : Next}

section

variable (h : Procs s) (hlive : (s.proc p).life = .live)

include h hlive

/-- A live process is not the one that a `fork` sets up. -/
theorem Procs.not_child {q i : Nat} (hq : (s.proc q).pc = .fork np i) : np ≠ p := by
  rintro rfl
  have := (h.child q np i hq).2.1
  rw [hlive] at this
  cases this

/-- An action of a live process on itself, which is not a `fork`. -/
theorem Procs.own (ho : Own p s t) (hfork : ∀ np i, (t.proc p).pc ≠ .fork np i)
    (hexit : ∀ fd, (t.proc p).pc.exitAt = some fd → ∀ j < fd, j < nofile → (t.proc p).ofile j = none) : Procs t where
  quiet q hq := by
    by_cases hqp : q = p
    · subst hqp
      exact absurd (ho.life.trans hlive) hq
    · rw [ho.others q hqp] at hq ⊢
      exact h.quiet q hq
  dead q hq := by
    by_cases hqp : q = p
    · subst hqp
      rw [ho.life, hlive] at hq
      cases hq
    · rw [ho.others q hqp] at hq ⊢
      exact h.dead q hq
  exit q fd hq := by
    by_cases hqp : q = p
    · subst hqp
      exact hexit fd hq
    · rw [ho.others q hqp] at hq ⊢
      exact h.exit q fd hq
  child q np i hq := by
    by_cases hqp : q = p
    · subst hqp
      exact absurd hq (hfork np i)
    · rw [ho.others q hqp] at hq
      rw [ho.others np (h.not_child hlive hq)]
      exact h.child q np i hq
  parent q r np i j hq hr := by
    by_cases hqp : q = p
    · subst hqp
      exact absurd hq (hfork np i)
    by_cases hrp : r = p
    · subst hrp
      exact absurd hr (hfork np j)
    rw [ho.others q hqp] at hq
    rw [ho.others r hrp] at hr
    exact h.parent q r np i j hq hr

theorem Procs.goto (ho : Own p s t) (hfork : ∀ np i, y ≠ .fork np i) (hexit : ∀ fd, y.exitAt = some fd → ∀ j < fd, j < nofile →
      (t.proc p).ofile j = none) : Procs (t.goto p y) := by
  refine h.own hlive ho.goto ?_ ?_
  · simpa [St.goto, St.setProc, update] using hfork
  · simpa [St.goto, St.setProc, update] using hexit

theorem Procs.ret (ho : Own p s t) (r : Int) : Procs (t.ret p r) :=
  h.own hlive ho.ret (by simp [St.ret, St.setProc, update]) (by simp [St.ret, St.setProc, update, Pc.exitAt])

theorem Procs.close (ho : Own p s t) (fs : List Nat) (r : Int) : Procs (t.goto p (.next (.close fs r))) :=
  h.goto hlive ho (by simp) (by simp [Pc.exitAt, Next.exitAt])

/-! ## The calls -/

theorem Procs.sysOpen (target : Option FdType) (writable : Bool) : Procs (sysOpen s p target writable) := by
  unfold Ftable.sysOpen
  split
  · exact h.ret hlive (.refl p s) _
  · split
    · exact h.ret hlive (.refl p s) _
    · rename_i f s1 hf
      have ho := (Own.refl p s).filealloc hf
      split
      · exact h.close hlive ho _ _
      · rename_i fd s2 hfd
        exact h.ret hlive (ho.fdalloc hfd).setFile _

theorem Procs.pipeRest {f0 f1 : Nat} {page : Option Nat}
    {copyout : Bool} (ht : pipeRest s p f0 f1 page copyout = some t) : Procs t := by
  unfold Ftable.pipeRest at ht
  split at ht
  · cases ht
    exact h.close hlive (.refl p s) _ _
  · rename_i pi
    split at ht
    · have ho : Own p s (pipeEnds s pi f0 f1) := ⟨fun _ _ => rfl, rfl⟩
      split at ht
      · cases ht
        exact h.close hlive ho _ _
      · rename_i fd0 s1 hfd0
        have ho := ho.fdalloc hfd0
        split at ht
        · cases ht
          exact h.close hlive ho.setFd _ _
        · rename_i fd1 s2 hfd1
          have ho := ho.fdalloc hfd1
          split at ht
          · cases ht
            exact h.ret hlive ho _
          · cases ht
            exact h.close hlive ho.setFd.setFd _ _
    · cases ht

theorem Procs.sysDup (fd : Nat) : Procs (sysDup s p fd) := by
  unfold Ftable.sysDup
  split
  · exact h.ret hlive (.refl p s) _
  · split
    · exact h.ret hlive (.refl p s) _
    · rename_i fd' s1 hfd
      exact h.ret hlive ((Own.refl p s).fdalloc hfd).filedup _

theorem Procs.sysClose (fd : Nat) : Procs (sysClose s p fd) := by
  unfold Ftable.sysClose
  split
  · exact h.ret hlive (.refl p s) _
  · exact h.close hlive (Own.refl p s).setFd _ _

/-- What `fileclose` leaves: `p` is where it was, or it goes on at `n`. -/
theorem Procs.fileclose (ho : Own p s t) (hfork : ∀ np i, (t.proc p).pc ≠ .fork np i)
    (hexit : ∀ fd, (t.proc p).pc.exitAt = some fd → ∀ j < fd, j < nofile → (t.proc p).ofile j = none)
    (hn : ∀ fd, n.exitAt = some fd → ∀ j < fd, j < nofile → (t.proc p).ofile j = none) :
    Procs (fileclose t p f n) := by
  unfold Ftable.fileclose
  split
  · exact h.own (t := { t with panic := some .fileclose }) hlive ⟨ho.others, ho.life⟩ hfork hexit
  · split
    · exact h.goto hlive ho.setFile (by simp) hn
    · split
      · exact h.goto hlive ho.setFile (by simp) hn
      · exact h.goto hlive ho.setFile (by simp) hn

end

theorem Procs.pipeclose (h : Procs s) {pi : Nat} {w : Bool} (hpc : (s.proc p).pc = .pipeclose pi w n) :
    Procs (pipeclose s p pi w n) := by
  have hlive : (s.proc p).life = .live := h.live (by simp [hpc])
  have hn : ∀ fd, n.exitAt = some fd → ∀ j < fd, j < nofile → (s.proc p).ofile j = none :=
    fun fd hfd => h.exit p fd (by rw [hpc]; exact hfd)
  unfold Ftable.pipeclose
  split
  · exact h.own (t := { s with panic := some .badPipe }) hlive ⟨fun _ _ => rfl, rfl⟩ (by simp [hpc])
      (by simpa [hpc, Pc.exitAt] using hn)
  · split
    · refine h.goto hlive ?_ (by simp) hn
      exact ⟨fun _ _ => rfl, rfl⟩
    · refine h.goto hlive ?_ (by simp) hn
      exact ⟨fun _ _ => rfl, rfl⟩

/-! ### `fork` and `exit` -/

/-- `p` is in `fork`, at descriptor `i` of `np`. -/
theorem Procs.forks (h : Procs s) (np i : Nat) (hne : np ≠ p) (hnp : np < nproc)
    (hothers : ∀ q, q ≠ p → q ≠ np → t.proc q = s.proc q) (hlive : (t.proc p).life = .live)
    (hpc : (t.proc p).pc = .fork np i) (hsetup : (t.proc np).life = .setup) (hidle : (t.proc np).pc = .idle)
    (hempty : ∀ j, i ≤ j → j < nofile → (t.proc np).ofile j = none) (hlive' : (s.proc p).life = .live)
    (hnew : ∀ q, q ≠ p → ∀ i, (s.proc q).pc ≠ .fork np i) : Procs t where
  quiet q := by
    have := h.quiet q
    grind
  dead q := by
    have := h.dead q
    grind
  exit q fd := by
    have := h.exit q fd
    grind [Pc.exitAt]
  child q np' i' := by
    have := h.child q np' i'
    have : (s.proc q).pc = .fork np' i' → np' ≠ p := h.not_child hlive'
    grind
  parent q r np' j k := by
    have := h.parent q r np' j k
    grind

/-- `p` and `np` are in no call, and no `fork` sets them up. -/
theorem Procs.rest (h : Procs s) (p np : Nat) (hothers : ∀ q, q ≠ p → q ≠ np → t.proc q = s.proc q)
    (hidle : (t.proc p).pc = .idle) (hidle' : (t.proc np).pc = .idle)
    (hdead : (t.proc p).life = .dead → ∀ fd < nofile, (t.proc p).ofile fd = none)
    (hdead' : (t.proc np).life = .dead → ∀ fd < nofile, (t.proc np).ofile fd = none)
    (hnew : ∀ q, q ≠ p → ∀ i, (s.proc q).pc ≠ .fork p i ∧ (s.proc q).pc ≠ .fork np i) : Procs t where
  quiet q := by
    have := h.quiet q
    grind
  dead q := by
    have := h.dead q
    grind
  exit q fd := by
    have := h.exit q fd
    grind [Pc.exitAt]
  child q np' i' := by
    have := h.child q np' i'
    grind
  parent q r np' j k := by
    have := h.parent q r np' j k
    grind

theorem Procs.forkBegin (h : Procs s) (hlive : (s.proc p).life = .live) (hnp : np < nproc) (hdead : (s.proc np).life = .dead) :
    Procs ((s.setProc np { s.proc np with life := .setup }).goto p (.fork np 0)) := by
  have hne : np ≠ p := by
    rintro rfl
    rw [hlive] at hdead
    cases hdead
  refine h.forks np 0 hne hnp (fun q hqp hqn => ?_) ?_ ?_ ?_ ?_ ?_ hlive fun q _ i hq => ?_
  · simp [St.goto, St.setProc, update, hqp, hqn]
  · simp [St.goto, St.setProc, update, hne.symm, hlive]
  · simp [St.goto, St.setProc, update]
  · simp [St.goto, St.setProc, update, hne]
  · simpa [St.goto, St.setProc, update, hne] using h.quiet np (by simp [hdead])
  · simpa [St.goto, St.setProc, update, hne] using h.dead np hdead
  · have := (h.child q np i hq).2.1
    rw [hdead] at this
    cases this

section

variable {np i : Nat} (h : Procs s) (hpc : (s.proc p).pc = .fork np i)

include h hpc

theorem Procs.ne_child : np ≠ p := h.not_child (h.live (by simp [hpc])) hpc

theorem Procs.forkFd : Procs ((s.setFd np i o).goto p (.fork np (i + 1))) := by
  obtain ⟨hnp, hsetup, hempty⟩ := h.child p np i hpc
  have hne := h.ne_child hpc
  have hlive := h.live (p := p) (by simp [hpc])
  refine h.forks np (i + 1) hne hnp (fun q hqp hqn => ?_) ?_ ?_ ?_ ?_ (fun j hij hj => ?_) hlive fun q hqp j hq => ?_
  · simp [St.goto, St.setFd, St.setProc, update, hqp, hqn]
  · simp [St.goto, St.setFd, St.setProc, update, hne.symm, hlive]
  · simp [St.goto, St.setProc, update]
  · simpa [St.goto, St.setFd, St.setProc, update, hne] using hsetup
  · simpa [St.goto, St.setFd, St.setProc, update, hne] using h.quiet np (by simp [hsetup])
  · have hji : j ≠ i := by omega
    simpa [St.goto, St.setFd, St.setProc, update, hne, hji] using hempty j (by omega) hj
  · exact hqp (h.parent q p np j i hq hpc)

theorem Procs.forkEnd : Procs ((s.setProc np { s.proc np with life := .live }).ret p np) := by
  obtain ⟨hnp, hsetup, hempty⟩ := h.child p np i hpc
  have hne := h.ne_child hpc
  have hlive := h.live (p := p) (by simp [hpc])
  refine h.rest p np (fun q hqp hqn => ?_) ?_ ?_ ?_ ?_ fun q hqp j => ⟨fun hq => ?_, fun hq => ?_⟩
  · simp [St.ret, St.setProc, update, hqp, hqn]
  · simp [St.ret, St.setProc, update]
  · simpa [St.ret, St.setProc, update, hne] using h.quiet np (by simp [hsetup])
  · simp [St.ret, St.setProc, update, hne.symm, hlive]
  · simp [St.ret, St.setProc, update, hne]
  · exact h.not_child hlive hq rfl
  · exact hqp (h.parent q p np j i hq hpc)

end

section

variable (h : Procs s) (hpc : (s.proc p).pc = .next (.exit fd))
include h hpc

theorem Procs.exitEnd (hge : nofile ≤ fd) :
    Procs (s.setProc p { s.proc p with life := .dead, pc := .idle }) := by
  have hlive := h.live (p := p) (by simp [hpc])
  have hdead : ∀ j < nofile, (s.proc p).ofile j = none :=
    fun j hj => h.exit p fd (by rw [hpc]; rfl) j (by omega) hj
  refine h.rest p p (fun q hqp _ => ?_) ?_ ?_ ?_ ?_ fun q _ j => ?_
  · simp [St.setProc, update, hqp]
  · simp [St.setProc, update]
  · simp [St.setProc, update]
  · simpa [St.setProc, update] using hdead
  · simpa [St.setProc, update] using hdead
  · have : (s.proc q).pc ≠ .fork p j := fun hq => h.not_child hlive hq rfl
    exact ⟨this, this⟩

theorem Procs.exitFd (hnone : (s.proc p).ofile fd = none) :
    Procs (s.goto p (.next (.exit (fd + 1)))) := by
  refine h.goto (h.live (by simp [hpc])) (.refl p s) (by simp) fun fd' hfd' j hj hlt => ?_
  cases hfd'
  rcases Nat.lt_succ_iff_lt_or_eq.mp hj with hj | rfl
  · exact h.exit p fd (by rw [hpc]; rfl) j hj hlt
  · exact hnone

theorem Procs.exitClose :
    Procs (Ftable.fileclose (s.setFd p fd none) p f (.exit (fd + 1))) := by
  have hofile : ∀ j < fd + 1, j < nofile → ((s.setFd p fd none).proc p).ofile j = none := by
    intro j hj hlt
    simp only [St.setFd, St.setProc, update_self]
    by_cases hjf : j = fd
    · rw [hjf, update_self]
    · rw [update_of_ne hjf]
      exact h.exit p fd (by rw [hpc]; rfl) j (by omega) hlt
  have hpc' : ((s.setFd p fd none).proc p).pc = .next (.exit fd) := by simp [St.setFd, St.setProc, update, hpc]
  refine h.fileclose (h.live (by simp [hpc])) (Own.refl p s).setFd ?_ ?_ ?_
  · simp [hpc']
  · rw [hpc']
    intro fd' hfd' j hj hlt
    cases hfd'
    exact hofile j (by omega) hlt
  · intro fd' hfd' j hj hlt
    cases hfd'
    exact hofile j hj hlt

end

/-! ## Every step -/

theorem Procs.step (h : Procs s) (hstep : Step s t) : Procs t := by
  have hlive : ∀ {p y}, (s.proc p).pc = y → y ≠ .idle → (s.proc p).life = .live :=
    fun hpc hy => h.live (by rwa [hpc])
  cases hstep with
  | «open» writable hp => exact h.sysOpen hp.2.1 _ writable
  | pipeFull hp => exact h.ret hp.2.1 (.refl _ s) _
  | pipe page copyout hp hf => exact h.goto hp.2.1 ((Own.refl _ s).filealloc hf) (by simp) (by simp [Pc.exitAt])
  | dup fd hp => exact h.sysDup hp.2.1 fd
  | close fd hp => exact h.sysClose hp.2.1 fd
  | fork hp hnp hdead => exact h.forkBegin hp.2.1 hnp hdead
  | exit hp => exact h.goto hp.2.1 (.refl _ s) (by simp) (by simp [Pc.exitAt, Next.exitAt])
  | pipe1Full hp hpc => exact h.close (hlive hpc (by simp)) (.refl _ s) _ _
  | pipe1 hp hpc hf =>
    exact h.goto (hlive hpc (by simp)) ((Own.refl _ s).filealloc hf) (by simp) (by simp [Pc.exitAt])
  | pipe2 hp hpc ht => exact h.pipeRest (hlive hpc (by simp)) ht
  | closed hp hpc => exact h.ret (hlive hpc (by simp)) (.refl _ s) _
  | fileclose hp hpc =>
    exact h.fileclose (hlive hpc (by simp)) (.refl _ s) (by simp [hpc]) (h.exit _) (by simp [Next.exitAt])
  | exitFd hp hpc hfd hnone => exact h.exitFd hpc hnone
  | exitClose hp hpc => exact h.exitClose hpc
  | exitEnd hp hpc hfd => exact h.exitEnd hpc hfd
  | pipeclose hp hpc => exact h.pipeclose hpc
  | @forkFd p np i hp hpc hi hnone =>
    have hsame : s.setFd np i none = s := by
      have := (h.child p np i hpc).2.2 i le_rfl hi
      simp [St.setFd, St.setProc, update_same this, update_same]
    rw [← hsame]
    exact h.forkFd hpc
  | forkDup hp hpc hi hf => exact (h.congr (proc_filedup s _)).forkFd (by rw [proc_filedup, hpc])
  | forkEnd hp hpc => exact h.forkEnd hpc

end

end Xv6.Ftable
