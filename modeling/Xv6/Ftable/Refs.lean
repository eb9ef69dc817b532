/-
  Xv6.Ftable.Refs — reference counts of files and the ends of pipes.

  A reference is a descriptor, or it is with a process in the middle of a call: a file that
  `pipe` has allocated, or one that it is about to close. In the middle of an action some are
  in hand as well, and `Mid s hand toks` accounts for them; each operation says which it takes
  and which it gives.

  An end of a pipe is open while one file is that end, or while a process that has closed the
  file is on its way to `pipeclose`; in the middle of an action ends may be in hand too
  (`toks`).

  Proved: `reference_counts`, `nothing_leaks`.
-/

import Xv6.Ftable.Procs
import Xv6.Lib.Tally

namespace Xv6.Ftable

open Xv6.Lib
open Xv6.Fs (nofile nfile)

/-! ## References and ends -/

def Next.held : Next → List Nat
  | .close fs _ => fs
  | .exit _ => []

/-- The files whose reference is with the process. -/
def Pc.held : Pc → List Nat
  | .pipe1 f0 _ _ => [f0]
  | .pipe2 f0 f1 _ _ => [f0, f1]
  | .next n | .pipeclose _ _ n => n.held
  | _ => []

/-- The files that `pipe` has allocated and not yet made an end. -/
def Pc.fresh : Pc → List Nat
  | .pipe1 f0 _ _ => [f0]
  | .pipe2 f0 f1 _ _ => [f0, f1]
  | _ => []

/-- The end that the process is about to close. -/
def Pc.closing : Pc → List (Nat × Bool)
  | .pipeclose pi w _ => [(pi, w)]
  | _ => []

def isFile (f : Nat) (o : Option Nat) : Nat := if o = some f then 1 else 0

def Proc.refs (f : Nat) (x : Proc) : Nat := tally nofile (isFile f) x.ofile + x.pc.held.count f

/-- All references to file `f`. -/
def St.refs (s : St) (f : Nat) : Nat := tally nproc (Proc.refs f) s.proc

def File.isEnd (e : Nat × Bool) (x : File) : Nat :=
  if 0 < x.ref ∧ x.type = .pipe ∧ (x.pipe, x.writable) = e then 1 else 0

def Proc.closing (e : Nat × Bool) (x : Proc) : Nat := x.pc.closing.count e

/-- Who keeps an end of a pipe open. -/
def St.ends (s : St) (e : Nat × Bool) : Nat := tally nfile (File.isEnd e) s.file + tally nproc (Proc.closing e) s.proc

def Pipe.isOpen (x : Pipe) (w : Bool) : Bool := if w then x.writeopen else x.readopen

/-- The open ends of a page. -/
def opens (o : Option Pipe) (w : Bool) : Nat :=
  match o with
  | some x => (x.isOpen w).toNat
  | none => 0

def St.isOpen (s : St) (e : Nat × Bool) : Nat := opens (s.pipe e.1) e.2

/-- The state in the middle of an action, with references and ends in hand. -/
structure Mid (s : St) (hand : List Nat) (toks : List (Nat × Bool)) : Prop where
  calm : s.panic = none
  refs : ∀ f, (s.file f).ref = s.refs f + hand.count f
  none : ∀ f, (s.file f).ref = 0 → (s.file f).type = .none
  high : ∀ f, nfile ≤ f → (s.file f).ref = 0
  ends : ∀ e, s.ends e + toks.count e = s.isOpen e
  page : ∀ pi x, s.pipe pi = some x → x.readopen = true ∨ x.writeopen = true
  count : ∀ pi, s.allocs pi = s.frees pi + (s.pipe pi).isSome.toNat
  fresh : ∀ p f, p < nproc → f ∈ (s.proc p).pc.fresh → (s.file f).ref = 1 ∧ (s.file f).type = .none

variable {f0 f1 : Nat} {page : Option Nat} {copyout : Bool}

section

variable {s s1 : St} {hand hand' : List Nat} {toks toks' : List (Nat × Bool)} {p f fd q pi : Nat} {x : File} {n : Next}
  {w : Bool} {y : Pc}

theorem Pc.fresh_held {x : Pc} (h : f ∈ x.fresh) : f ∈ x.held := by
  cases x <;> first | exact h | cases h

theorem le_refs_of_ofile {x : Proc} (hfd : fd < nofile) (ho : x.ofile fd = some f) : 1 + x.pc.held.count f ≤ x.refs f := by
  have h1 : isFile f (x.ofile fd) ≤ tally nofile (isFile f) x.ofile := le_tally hfd
  have h2 : isFile f (x.ofile fd) = 1 := by rw [ho, isFile, if_pos rfl]
  unfold Proc.refs
  omega

/-- A reference in hand counts. -/
theorem Mid.ref_pos (h : Mid s (f :: hand) toks) : 0 < (s.file f).ref := by
  rw [h.refs f, List.count_cons_self]
  omega

theorem Mid.lt_nfile (h : Mid s hand toks) (hf : 0 < (s.file f).ref) : f < nfile := by
  by_contra hge
  rw [h.high f (Nat.le_of_not_lt hge)] at hf
  omega

/-- A file that somebody else has a reference to is not being set up. -/
theorem Mid.not_fresh (h : Mid s hand toks) (hf : f ∈ hand) (hq : q < nproc) : f ∉ (s.proc q).pc.fresh := by
  intro hfresh
  have h1 := (h.fresh q f hq hfresh).1
  have h2 : Proc.refs f (s.proc q) ≤ s.refs f := le_tally hq
  have h3 : 0 < (s.proc q).pc.held.count f := List.count_pos_iff.mpr (Pc.fresh_held hfresh)
  have h4 : (s.proc q).pc.held.count f ≤ (s.proc q).refs f := Nat.le_add_left _ _
  have h5 : 0 < hand.count f := List.count_pos_iff.mpr hf
  rw [h.refs f] at h1
  omega

theorem Mid.not_fresh_of_ofile (h : Mid s hand toks) (hp : p < nproc) (hfd : fd < nofile) (ho : (s.proc p).ofile fd = some f)
    (hq : q < nproc) : f ∉ (s.proc q).pc.fresh := by
  intro hf
  have h1 := (h.fresh q f hq hf).1
  have h2 := le_refs_of_ofile hfd ho
  have h3 : 0 < (s.proc q).pc.held.count f := List.count_pos_iff.mpr (Pc.fresh_held hf)
  have h4 : (s.proc q).pc.held.count f ≤ (s.proc q).refs f := Nat.le_add_left _ _
  rw [h.refs f] at h1
  by_cases hpq : p = q
  · subst hpq
    have h5 : Proc.refs f (s.proc p) ≤ s.refs f := le_tally hp
    omega
  · have h5 : Proc.refs f (s.proc p) + Proc.refs f (s.proc q) ≤ s.refs f := add_le_tally hp hq hpq
    omega

/-! ## Changes of one process and of one file -/

theorem Mid.setProc {x : Proc} (h : Mid s hand toks) (hp : p < nproc)
    (hrefs : ∀ g, x.refs g + hand'.count g = (s.proc p).refs g + hand.count g)
    (hclosing : ∀ e, x.closing e + toks'.count e = (s.proc p).closing e + toks.count e)
    (hfresh : ∀ g ∈ x.pc.fresh, (s.file g).ref = 1 ∧ (s.file g).type = .none) : Mid (s.setProc p x) hand' toks' where
  calm := h.calm
  refs g := by
    have h1 : (s.setProc p x).refs g + (s.proc p).refs g = s.refs g + x.refs g := tally_update hp
    have h2 := h.refs g
    have h3 := hrefs g
    show (s.file g).ref = _
    omega
  none := h.none
  high := h.high
  ends e := by
    have h1 : tally nproc (Proc.closing e) (s.setProc p x).proc + (s.proc p).closing e =
        tally nproc (Proc.closing e) s.proc + x.closing e := tally_update hp
    have h2 : tally nfile (File.isEnd e) s.file + tally nproc (Proc.closing e) s.proc + toks.count e = s.isOpen e :=
      h.ends e
    have h3 := hclosing e
    show tally nfile (File.isEnd e) s.file + tally nproc (Proc.closing e) (s.setProc p x).proc + _ = s.isOpen e
    omega
  page := h.page
  count := h.count
  fresh q g hq hg := by
    by_cases hqp : q = p
    · exact hfresh g (by simpa [St.setProc, update, hqp] using hg)
    · exact h.fresh q g hq (by simpa [St.setProc, update, hqp] using hg)

theorem Mid.setFile (h : Mid s hand toks) (hf : f < nfile) (href : x.ref + hand.count f = (s.file f).ref + hand'.count f)
    (hother : ∀ g, g ≠ f → hand'.count g = hand.count g) (hnone : x.ref = 0 → x.type = .none)
    (hend : ∀ e, x.isEnd e + toks'.count e = (s.file f).isEnd e + toks.count e) (hfresh : ∀ q < nproc, f ∉ (s.proc q).pc.fresh) :
    Mid (s.setFile f x) hand' toks' where
  calm := h.calm
  refs g := by
    show (update s.file f x g).ref = s.refs g + hand'.count g
    by_cases hg : g = f
    · subst hg
      have := h.refs g
      rw [update_self]
      omega
    · rw [update_of_ne hg, h.refs g, hother g hg]
  none g hg := by
    by_cases hgf : g = f
    · subst hgf
      simp only [St.setFile, update_self] at hg ⊢
      exact hnone hg
    · simp only [St.setFile, update_of_ne hgf] at hg ⊢
      exact h.none g hg
  high g hg := by
    have hgf : g ≠ f := by omega
    simp only [St.setFile, update_of_ne hgf]
    exact h.high g hg
  ends e := by
    have h1 : tally nfile (File.isEnd e) (s.setFile f x).file + (s.file f).isEnd e =
        tally nfile (File.isEnd e) s.file + x.isEnd e := tally_update hf
    have h2 : tally nfile (File.isEnd e) s.file + tally nproc (Proc.closing e) s.proc + toks.count e = s.isOpen e :=
      h.ends e
    have h3 := hend e
    show tally nfile (File.isEnd e) (s.setFile f x).file + tally nproc (Proc.closing e) s.proc + _ = s.isOpen e
    omega
  page := h.page
  count := h.count
  fresh q g hq hg := by
    have hgf : g ≠ f := by
      rintro rfl
      exact hfresh q hq hg
    simp only [St.setFile, update_of_ne hgf]
    exact h.fresh q g hq hg

/-! ## An action of process `p` -/

/-- In an action of `p`, what it holds is in hand. -/
def MidOf (s : St) (p : Nat) (hand : List Nat) (toks : List (Nat × Bool)) : Prop := Mid (s.goto p .idle) hand toks

@[simp] theorem file_goto (x : Pc) (g : Nat) : (s.goto p x).file g = s.file g := rfl

theorem proc_goto (x : Pc) (q : Nat) :
    (s.goto p x).proc q = if q = p then { s.proc p with pc := x } else s.proc q := rfl

theorem ofile_goto (x : Pc) (q : Nat) : ((s.goto p x).proc q).ofile = (s.proc q).ofile := by
  by_cases hq : q = p <;> simp [proc_goto, hq]

theorem goto_setFd (q : Nat) (o : Option Nat) : (s.setFd q fd o).goto p .idle = (s.goto p .idle).setFd q fd o := by
  by_cases hq : q = p
  · subst hq
    simp only [St.goto, St.setFd, St.setProc, update_idem, update_self]
  · simp only [St.goto, St.setFd, St.setProc, update_of_ne hq, update_of_ne (Ne.symm hq), update_comm hq]

/-- The action begins: what `p` has is taken in hand. -/
theorem Mid.begin (h : Mid s [] []) (hp : p < nproc) : MidOf s p (s.proc p).pc.held (s.proc p).pc.closing := by
  refine h.setProc hp (fun g => ?_) (fun e => ?_) (by simp [Pc.fresh])
  · simp [Proc.refs, Pc.held]
  · simp [Proc.closing, Pc.closing]

/-- The action ends: `p` goes to `y`, and has what was in hand. -/
theorem MidOf.finish (h : MidOf s p hand toks) (hp : p < nproc) (r : Int) (hheld : ∀ g, y.held.count g = hand.count g)
    (hclosing : ∀ e, y.closing.count e = toks.count e) (hfresh : ∀ g ∈ y.fresh, (s.file g).ref = 1 ∧ (s.file g).type = .none) :
    Mid (s.setProc p { s.proc p with pc := y, ret := r }) [] [] := by
  have hset : Mid ((s.goto p .idle).setProc p { s.proc p with pc := y, ret := r }) [] [] := by
    refine Mid.setProc h hp (fun g => ?_) (fun e => ?_) hfresh
    · rw [proc_goto, if_pos rfl]
      show tally nofile (isFile g) (s.proc p).ofile + y.held.count g + 0 =
        tally nofile (isFile g) (s.proc p).ofile + 0 + hand.count g
      rw [hheld g]
      omega
    · rw [proc_goto, if_pos rfl]
      show y.closing.count e + 0 = 0 + toks.count e
      rw [hclosing e]
      omega
  simpa [St.goto, St.setProc, update_idem] using hset

theorem MidOf.goto (h : MidOf s p hand toks) (hp : p < nproc) (hheld : ∀ g, y.held.count g = hand.count g)
    (hclosing : ∀ e, y.closing.count e = toks.count e) (hfresh : ∀ g ∈ y.fresh, (s.file g).ref = 1 ∧ (s.file g).type = .none) :
    Mid (s.goto p y) [] [] :=
  h.finish hp (s.proc p).ret hheld hclosing hfresh

theorem MidOf.ret (h : MidOf s p [] []) (hp : p < nproc) (r : Int) : Mid (s.ret p r) [] [] :=
  h.finish hp r (fun _ => rfl) (fun _ => rfl) (by simp [Pc.fresh])

theorem MidOf.next (h : MidOf s p hand []) (hp : p < nproc) (hn : n.held = hand) : Mid (s.goto p (.next n)) [] [] :=
  h.goto hp (fun g => by rw [← hn]; rfl) (fun _ => rfl) (by simp [Pc.fresh])

theorem MidOf.setFile (h : MidOf s p hand toks) (hf : f < nfile) (href : x.ref + hand.count f = (s.file f).ref + hand'.count f)
    (hother : ∀ g, g ≠ f → hand'.count g = hand.count g) (hnone : x.ref = 0 → x.type = .none)
    (hend : ∀ e, x.isEnd e + toks'.count e = (s.file f).isEnd e + toks.count e)
    (hfresh : ∀ q < nproc, f ∉ ((s.goto p .idle).proc q).pc.fresh) : MidOf (s.setFile f x) p hand' toks' :=
  Mid.setFile h hf href hother hnone hend hfresh

/-! ### What the operations take and give -/

theorem isEnd_of_ne (h : x.type ≠ .pipe) (e : Nat × Bool) : x.isEnd e = 0 := by simp [File.isEnd, h]

theorem count_cons_isFile (g : Nat) : (f :: hand).count g = hand.count g + isFile g (some f) := by
  by_cases hg : f = g <;> simp [isFile, hg]

theorem MidOf.filealloc (h : MidOf s p hand toks) (ha : filealloc s = some (f, s1)) :
    MidOf s1 p (f :: hand) toks ∧ (s1.file f).ref = 1 ∧ (s1.file f).type = .none ∧
      ∀ g, 0 < (s.file g).ref → s1.file g = s.file g := by
  unfold Ftable.filealloc at ha
  split at ha
  · rename_i f' hfirst
    cases ha
    obtain ⟨-, hlt, href⟩ := firstFrom_some hfirst
    have href : (s.file f).ref = 0 := by simpa using href
    have htype : (s.file f).type = .none := h.none f href
    refine ⟨?_, by simp [St.setFile, update], by simpa [St.setFile, update] using htype, fun g hg => ?_⟩
    swap
    · have hgf : g ≠ f := by
        rintro rfl
        omega
      exact update_of_ne hgf _ _
    refine h.setFile (by omega) ?_ (fun g hg => by simp [Ne.symm hg]) (by simp) (fun e => ?_) (fun q hq hf => ?_)
    · rw [href, List.count_cons_self]
      show 1 + _ = _
      omega
    · simp [File.isEnd, htype]
    · have := (h.fresh q f hq hf).1
      rw [file_goto, href] at this
      cases this
  · cases ha

/-- A descriptor is changed, and what is in hand with it. -/
theorem MidOf.setFd {o : Option Nat} (h : MidOf s p hand toks) (hq : q < nproc) (hfd : fd < nofile)
    (hhand : ∀ g, hand'.count g + isFile g o = hand.count g + isFile g ((s.proc q).ofile fd)) :
    MidOf (s.setFd q fd o) p hand' toks := by
  unfold MidOf
  rw [goto_setFd]
  refine Mid.setProc h hq (fun g => ?_) (fun e => rfl) fun g hg => h.fresh q g hq hg
  have htally : tally nofile (isFile g) (update (s.proc q).ofile fd o) + isFile g ((s.proc q).ofile fd) =
      tally nofile (isFile g) (s.proc q).ofile + isFile g o := tally_update hfd
  have hg := hhand g
  unfold Proc.refs
  rw [ofile_goto]
  show tally nofile (isFile g) (update (s.proc q).ofile fd o) + ((s.goto p .idle).proc q).pc.held.count g + _ = _
  omega

/-- A reference goes into a descriptor. -/
theorem MidOf.put (h : MidOf s p (f :: hand) toks) (hq : q < nproc) (hfd : fd < nofile) (ho : (s.proc q).ofile fd = none) :
    MidOf (s.setFd q fd (some f)) p hand toks := by
  refine h.setFd hq hfd fun g => ?_
  rw [count_cons_isFile, ho]
  rfl

/-- A descriptor is cleared. -/
theorem MidOf.take (h : MidOf s p hand toks) (hp : p < nproc) (hfd : fd < nofile) (ho : (s.proc p).ofile fd = some f) :
    MidOf (s.setFd p fd none) p (f :: hand) toks := by
  refine h.setFd hp hfd fun g => ?_
  rw [count_cons_isFile, ho]
  rfl

theorem MidOf.fdalloc (h : MidOf s p (f :: hand) toks) (hp : p < nproc) (ha : fdalloc s p f = some (fd, s1)) :
    MidOf s1 p hand toks ∧ s1.file = s.file ∧ fd < nofile ∧ (s.proc p).ofile fd = none ∧
      (s1.proc p).ofile = update (s.proc p).ofile fd (some f) := by
  unfold Ftable.fdalloc at ha
  split at ha
  · rename_i fd' hfirst
    cases ha
    obtain ⟨-, hlt, hnone⟩ := firstFrom_some hfirst
    have hnone : (s.proc p).ofile fd = none := by simpa using hnone
    exact ⟨h.put hp (by omega) hnone, rfl, by omega, hnone, by simp [St.setFd, St.setProc, update]⟩
  · cases ha

theorem filedup_eq (hpos : 0 < (s.file f).ref) :
    filedup s f = s.setFile f { s.file f with ref := (s.file f).ref + 1 } := by
  unfold filedup
  rw [if_neg (by omega)]

theorem Mid.ref_pos_of_ofile (h : Mid s hand toks) (hp : p < nproc) (hfd : fd < nofile)
    (ho : (s.proc p).ofile fd = some f) : 0 < (s.file f).ref := by
  have h1 := le_refs_of_ofile hfd ho
  have h2 : Proc.refs f (s.proc p) ≤ s.refs f := le_tally hp
  have h3 := h.refs f
  omega

/-- A descriptor of `p` is duplicated. -/
theorem MidOf.filedup (h : MidOf s p hand toks) (hp : p < nproc) (hfd : fd < nofile)
    (ho : (s.proc p).ofile fd = some f) : MidOf (filedup s f) p (f :: hand) toks ∧ 0 < (s.file f).ref := by
  have ho' : ((s.goto p .idle).proc p).ofile fd = some f := by rw [ofile_goto, ho]
  have hpos : 0 < (s.file f).ref := h.ref_pos_of_ofile hp hfd ho'
  refine ⟨?_, hpos⟩
  rw [filedup_eq hpos]
  refine h.setFile (h.lt_nfile hpos) ?_ (fun g hg => by simp [Ne.symm hg]) (by simp) (fun e => ?_)
    fun q hq => h.not_fresh_of_ofile hp hfd ho' hq
  · rw [List.count_cons_self]
    show (s.file f).ref + 1 + _ = _
    omega
  · simp [File.isEnd, hpos]

/-- `fileclose`: a reference is given up. -/
theorem MidOf.fileclose (h : MidOf s p (f :: n.held) []) (hp : p < nproc) :
    Mid (fileclose s p f n) [] [] := by
  have hpos : 0 < (s.file f).ref := h.ref_pos
  have hlt : f < nfile := h.lt_nfile hpos
  have hfresh : ∀ q < nproc, f ∉ ((s.goto p .idle).proc q).pc.fresh := fun q hq => h.not_fresh (by simp) hq
  have hother : ∀ g, g ≠ f → n.held.count g = (f :: n.held).count g := fun g hg => by simp [Ne.symm hg]
  unfold Ftable.fileclose
  rw [if_neg (by omega)]
  by_cases hlast : 1 < (s.file f).ref
  · rw [if_pos hlast]
    have hset : MidOf (s.setFile f { s.file f with ref := (s.file f).ref - 1 }) p n.held [] := by
      refine h.setFile hlt ?_ hother (fun h0 => ?_) (fun e => ?_) hfresh
      · rw [List.count_cons_self]
        show (s.file f).ref - 1 + _ = _
        omega
      · have h0 : (s.file f).ref - 1 = 0 := h0
        omega
      · have hpos' : 0 < (s.file f).ref - 1 := by omega
        simp [File.isEnd, hpos, hpos']
    exact hset.next hp rfl
  · rw [if_neg hlast]
    have href : (s.file f).ref = 1 := by omega
    have hzero : 0 + (f :: n.held).count f = (s.file f).ref + n.held.count f := by
      rw [List.count_cons_self, href]
      omega
    -- the end that a pipe's file was is still to be closed
    by_cases htype : (s.file f).type = .pipe
    · rw [if_pos htype]
      have hset : MidOf (s.setFile f { s.file f with ref := 0, type := .none }) p n.held
          [((s.file f).pipe, (s.file f).writable)] := by
        refine h.setFile hlt hzero hother (fun _ => rfl) (fun e => ?_) hfresh
        by_cases he : ((s.file f).pipe, (s.file f).writable) = e <;> simp [File.isEnd, htype, href, he]
      exact hset.goto hp (fun _ => rfl) (fun _ => rfl) (by simp [Pc.fresh])
    · rw [if_neg htype]
      have hset : MidOf (s.setFile f { s.file f with ref := 0, type := .none }) p n.held [] := by
        refine h.setFile hlt hzero hother (fun _ => rfl) (fun e => ?_) hfresh
        rw [isEnd_of_ne htype]
        simp [File.isEnd]
      exact hset.next hp rfl

/-- A page is changed, and the ends in hand with it. -/
theorem MidOf.setPipe {A C : Nat → Nat} {o : Option Pipe} (h : MidOf s p hand toks)
    (hopen : ∀ w, opens o w + toks.count (pi, w) = opens (s.pipe pi) w + toks'.count (pi, w))
    (hother : ∀ e : Nat × Bool, e.1 ≠ pi → toks'.count e = toks.count e) (hpage : ∀ x, o = some x → x.readopen = true ∨
      x.writeopen = true) (hcount : ∀ q, A q = C q + (update s.pipe pi o q).isSome.toNat) :
    MidOf { s with pipe := update s.pipe pi o, allocs := A, frees := C } p hand toks' where
  calm := h.calm
  refs := h.refs
  none := h.none
  high := h.high
  ends e := by
    have hends : (s.goto p .idle).ends e + toks.count e = opens (s.pipe e.1) e.2 := h.ends e
    show (s.goto p .idle).ends e + toks'.count e = opens (update s.pipe pi o e.1) e.2
    by_cases he : e.1 = pi
    · subst he
      have := hopen e.2
      rw [update_self]
      simp only [Prod.mk.eta] at this
      omega
    · rw [update_of_ne he, hother e he, hends]
  page q x hx := by
    by_cases hq : q = pi
    · subst hq
      exact hpage x (by simpa [St.goto, St.setProc, update] using hx)
    · exact h.page q x (by simpa [St.goto, St.setProc, update, hq] using hx)
  count := hcount
  fresh := h.fresh

theorem Pipe.opens_close {x : Pipe} (h : x.isOpen w = true) (pi : Nat) (v : Bool) :
    opens (some (x.close w)) v + [(pi, w)].count (pi, v) = opens (some x) v := by
  cases w <;> cases v <;> simp_all [opens, Pipe.isOpen, Pipe.close]

/-- `pipeclose`: an end is given up. -/
theorem MidOf.pipeclose (h : MidOf s p n.held [(pi, w)]) (hp : p < nproc) :
    Mid (pipeclose s p pi w n) [] [] := by
  have hends : (s.goto p .idle).ends (pi, w) + 1 = opens (s.pipe pi) w := by
    have := h.ends (pi, w)
    rwa [List.count_singleton_self] at this
  have hother : ∀ e : Nat × Bool, e.1 ≠ pi → [].count e = [(pi, w)].count e := by
    intro e he
    have : (pi, w) ≠ e := by
      rintro rfl
      exact he rfl
    simp [this]
  have hcount : ∀ q, s.allocs q = s.frees q + (s.pipe q).isSome.toNat := h.count
  unfold Ftable.pipeclose
  split
  · rename_i hnone
    rw [hnone] at hends
    cases hends
  · rename_i x hx
    have hopen : x.isOpen w = true := by
      rw [hx] at hends
      cases hw : x.isOpen w
      · simp [opens, hw] at hends
      · rfl
    split
    · rename_i hboth
      have hset : MidOf { s with pipe := update s.pipe pi none, frees := update s.frees pi (s.frees pi + 1) } p
          n.held [] := by
        refine h.setPipe (fun v => ?_) hother (by simp) fun q => ?_
        · have hgone : opens none v = opens (some (x.close w)) v := by cases v <;> simp [opens, Pipe.isOpen, hboth]
          rw [hgone, Pipe.opens_close hopen, hx]
          rfl
        · by_cases hq : q = pi
          · simp [hq, hcount pi, hx, update]
          · simp [hq, hcount q, update]
      exact hset.next hp rfl
    · rename_i hboth
      have hset : MidOf { s with pipe := update s.pipe pi (some (x.close w)) } p n.held [] := by
        refine h.setPipe (fun v => ?_) hother (fun y hy => ?_) fun q => ?_
        · rw [Pipe.opens_close hopen, hx]
          rfl
        · cases hy
          cases hr : (x.close w).readopen
          · simpa [hr] using hboth
          · exact .inl rfl
        · by_cases hq : q = pi
          · simp [hq, hcount pi, hx, update]
          · simp [hq, hcount q, update]
      exact hset.next hp rfl

/-- A file that is in hand becomes an end that is in hand. -/
theorem MidOf.makeEnd (h : MidOf s p hand ((pi, w) :: toks)) (hf : f ∈ hand) (htype : (s.file f).type = .none) :
    MidOf (s.setFile f { s.file f with type := .pipe, writable := w, pipe := pi }) p hand toks := by
  have hpos : 0 < (s.file f).ref := by
    have : 0 < hand.count f := List.count_pos_iff.mpr hf
    have href : (s.file f).ref = _ := h.refs f
    omega
  refine h.setFile (h.lt_nfile hpos) rfl (fun _ _ => rfl) (fun h0 => ?_) (fun e => ?_) fun q hq => h.not_fresh hf hq
  · have h0 : (s.file f).ref = 0 := h0
    omega
  · by_cases he : (pi, w) = e <;> simp [File.isEnd, htype, hpos, he, Nat.add_comm]

/-- `pipealloc`: both files become ends of the new pipe. -/
theorem MidOf.pipeEnds (h : MidOf s p [f0, f1] []) (hfree : s.pipe pi = none) (h0 : (s.file f0).ref = 1 ∧
      (s.file f0).type = .none) (h1 : (s.file f1).type = .none) :
    MidOf (pipeEnds s pi f0 f1) p [f0, f1] [] := by
  have hne : f1 ≠ f0 := by
    rintro rfl
    have href : (s.file f1).ref = _ := h.refs f1
    rw [h0.1, List.count_cons_self, List.count_singleton_self] at href
    omega
  have hcount : ∀ q, s.allocs q = s.frees q + (s.pipe q).isSome.toNat := h.count
  have hpage : MidOf { s with pipe := update s.pipe pi (some ⟨true, true⟩),
                              allocs := update s.allocs pi (s.allocs pi + 1) } p [f0, f1] [(pi, false), (pi, true)] := by
    refine h.setPipe (fun w => ?_) (fun e he => ?_) (by simp) fun q => ?_
    · cases w <;> simp [opens, hfree, Pipe.isOpen]
    · have hend : ∀ w, (pi, w) ≠ e := by
        rintro w rfl
        exact he rfl
      simp [hend]
    · by_cases hq : q = pi
      · simp [hq, hcount pi, hfree, update]
      · simp [hq, hcount q, update]
  refine (hpage.makeEnd (by simp) h0.2).makeEnd (by simp) ?_
  simpa [St.setFile, update, hne] using h1

/-! ### The calls -/

theorem MidOf.sysOpen (h : MidOf s p [] []) (hp : p < nproc) {target : Option FdType} (htarget : Target target)
    (writable : Bool) : Mid (sysOpen s p target writable) [] [] := by
  unfold Ftable.sysOpen
  split
  · exact h.ret hp _
  · rename_i type
    split
    · exact h.ret hp _
    · rename_i f s1 hf
      obtain ⟨h1, href, htype, -⟩ := h.filealloc hf
      split
      · exact h1.next hp rfl
      · rename_i fd s2 hfd
        obtain ⟨h2, hfile, hlt, -, hofile⟩ := h1.fdalloc hp hfd
        have ho : ((s2.goto p .idle).proc p).ofile fd = some f := by rw [ofile_goto, hofile, update_self]
        rw [← hfile] at href htype
        have htype' : type ≠ .pipe := by
          rcases htarget with h | h | h
          · cases h
          · cases h
            simp
          · cases h
            simp
        have hset : MidOf (s2.setFile f { s2.file f with type := type, writable := writable }) p [] [] := by
          refine h2.setFile (h2.lt_nfile (by simp [href])) rfl (fun _ _ => rfl) (fun h0 => ?_) (fun e => ?_)
            fun q hq => h2.not_fresh_of_ofile hp hlt ho hq
          · rw [href] at h0
            cases h0
          · simp [File.isEnd, htype, htype']
        exact hset.ret hp _

theorem MidOf.pipeRest {t : St} (h : MidOf s p [f0, f1] []) (hp : p < nproc) (h0 : (s.file f0).ref = 1 ∧
      (s.file f0).type = .none) (h1 : (s.file f1).type = .none) (ht : pipeRest s p f0 f1 page copyout = some t) : Mid t []
    [] := by
  unfold Ftable.pipeRest at ht
  split at ht
  · cases ht
    exact h.next hp rfl
  · rename_i pi
    split at ht
    · rename_i hfree
      have h3 := h.pipeEnds hfree h0 h1
      split at ht
      · cases ht
        exact h3.next hp rfl
      · rename_i fd0 s4 hfd0
        obtain ⟨h4, -, hlt0, -, hofile0⟩ := h3.fdalloc hp hfd0
        have ho0 : (s4.proc p).ofile fd0 = some f0 := by rw [hofile0, update_self]
        split at ht
        · cases ht
          exact (h4.take hp hlt0 ho0).next hp rfl
        · rename_i fd1 s5 hfd1
          obtain ⟨h5, -, hlt1, hnone1, hofile1⟩ := h4.fdalloc hp hfd1
          split at ht
          · cases ht
            exact h5.ret hp 0
          · cases ht
            have hne : fd0 ≠ fd1 := by
              rintro rfl
              rw [ho0] at hnone1
              cases hnone1
            have ho0' : (s5.proc p).ofile fd0 = some f0 := by rw [hofile1, update_of_ne hne, ho0]
            have ho1 : ((s5.setFd p fd0 none).proc p).ofile fd1 = some f1 := by
              simp [St.setFd, St.setProc, update, hne.symm, hofile1]
            refine ((h5.take hp hlt0 ho0').take hp hlt1 ho1).goto hp (fun g => ?_) (fun _ => rfl) (by simp [Pc.fresh])
            exact (List.Perm.swap f1 f0 []).count_eq g
    · cases ht

theorem argfd_some {s : St} (h : argfd s p fd = some f) : fd < nofile ∧ (s.proc p).ofile fd = some f := by
  unfold argfd at h
  split at h
  · exact ⟨‹_›, h⟩
  · cases h

theorem MidOf.sysDup (h : MidOf s p [] []) (hp : p < nproc) (fd : Nat) : Mid (sysDup s p fd) [] [] := by
  unfold Ftable.sysDup
  split
  · exact h.ret hp _
  · rename_i f hf
    obtain ⟨hlt, ho⟩ := argfd_some hf
    split
    · exact h.ret hp _
    · rename_i fd' s1 hfd'
      obtain ⟨hdup, hpos⟩ := h.filedup hp hlt ho
      unfold Ftable.fdalloc at hfd'
      split at hfd'
      · rename_i hfirst
        cases hfd'
        obtain ⟨-, hlt', hnone⟩ := firstFrom_some hfirst
        -- the descriptor is set first, and the count follows
        have hcomm : Ftable.filedup (s.setFd p fd' (some f)) f = (Ftable.filedup s f).setFd p fd' (some f) := by
          rw [filedup_eq hpos, filedup_eq (by exact hpos)]
          rfl
        rw [hcomm]
        refine (hdup.put hp (by omega) ?_).ret hp _
        rw [proc_filedup]
        simpa using hnone
      · cases hfd'

theorem MidOf.sysClose (h : MidOf s p [] []) (hp : p < nproc) (fd : Nat) : Mid (sysClose s p fd) [] [] := by
  unfold Ftable.sysClose
  split
  · exact h.ret hp _
  · rename_i f hf
    obtain ⟨hlt, ho⟩ := argfd_some hf
    exact (h.take hp hlt ho).next hp rfl

/-! ## Every step -/

theorem Mid.setLife (h : Mid s [] []) (hp : p < nproc) (x : Life) : Mid (s.setProc p { s.proc p with life := x }) [] [] :=
  h.setProc hp (fun _ => rfl) (fun _ => rfl) fun g hg => h.fresh p g hp hg

theorem Mid.step (h : Mid s [] []) (hprocs : Procs s) (hstep : Step s s1) : Mid s1 [] [] := by
  have hbegin : ∀ {p y}, p < nproc → (s.proc p).pc = y → MidOf s p y.held y.closing := by
    intro p y hp hpc
    subst hpc
    exact h.begin hp
  cases hstep with
  | «open» writable hp htarget => exact (hbegin hp.1 hp.2.2).sysOpen hp.1 htarget writable
  | pipeFull hp => exact (hbegin hp.1 hp.2.2).ret hp.1 _
  | pipe page copyout hp hf =>
    obtain ⟨h1, href, htype, -⟩ := (hbegin hp.1 hp.2.2).filealloc hf
    exact h1.goto hp.1 (fun _ => rfl) (fun _ => rfl) (by simpa [Pc.fresh] using ⟨href, htype⟩)
  | dup fd hp => exact (hbegin hp.1 hp.2.2).sysDup hp.1 fd
  | close fd hp => exact (hbegin hp.1 hp.2.2).sysClose hp.1 fd
  | @fork p np hp hnp hdead =>
    have h1 := (h.setLife hnp .setup).begin hp.1
    have hpc : ((s.setProc np { s.proc np with life := .setup }).proc p).pc = .idle := by
      by_cases hpn : p = np
      · subst hpn
        simpa [St.setProc, update] using hp.2.2
      · simpa [St.setProc, update, hpn] using hp.2.2
    rw [hpc] at h1
    exact h1.goto hp.1 (fun _ => rfl) (fun _ => rfl) (by simp [Pc.fresh])
  | exit hp => exact (hbegin hp.1 hp.2.2).next hp.1 rfl
  | pipe1Full hp hpc | exitFd hp hpc hfd hnone => exact (hbegin hp hpc).next hp rfl
  | @pipe1 p f0 f1 page copyout s1 hp hpc hf =>
    have hfresh := h.fresh p f0 hp (by simp [hpc, Pc.fresh])
    obtain ⟨h1, href, htype, hkeep⟩ := (hbegin hp hpc).filealloc hf
    refine h1.goto hp (fun g => ?_) (fun _ => rfl) fun g hg => ?_
    · exact (List.Perm.swap f1 f0 []).count_eq g
    · rcases List.mem_cons.mp hg with rfl | hg
      · rwa [hkeep g (by omega)]
      · rw [List.mem_singleton.mp hg]
        exact ⟨href, htype⟩
  | @pipe2 p f0 f1 page copyout s1 hp hpc ht =>
    have hfresh : ∀ g ∈ [f0, f1], (s.file g).ref = 1 ∧ (s.file g).type = .none :=
      fun g hg => h.fresh p g hp (by rw [hpc]; exact hg)
    exact (hbegin hp hpc).pipeRest hp (hfresh f0 (by simp)) (hfresh f1 (by simp)).2 ht
  | closed hp hpc => exact (hbegin hp hpc).ret hp _
  | fileclose hp hpc => exact (hbegin hp hpc).fileclose hp
  | exitClose hp hpc hfd hf => exact ((hbegin hp hpc).take hp hfd hf).fileclose hp
  | @exitEnd p fd hp hpc hfd =>
    have := ((hbegin hp hpc).ret hp (s.proc p).ret).setLife hp .dead
    simpa [St.ret, St.setProc, update_idem, update_self] using this
  | pipeclose hp hpc => exact (hbegin hp hpc).pipeclose hp
  | forkFd hp hpc hi hnone => exact (hbegin hp hpc).goto hp (fun _ => rfl) (fun _ => rfl) (by simp [Pc.fresh])
  | @forkDup p np i f hp hpc hi hf =>
    obtain ⟨hnp, -, hempty⟩ := hprocs.child p np i hpc
    obtain ⟨hdup, -⟩ := (hbegin hp hpc).filedup hp hi hf
    refine (hdup.put hnp hi ?_).goto hp (fun _ => rfl) (fun _ => rfl) (by simp [Pc.fresh])
    rw [proc_filedup]
    exact hempty i le_rfl hi
  | @forkEnd p np i hp hpc =>
    obtain ⟨hnp, -, -⟩ := hprocs.child p np i hpc
    have h1 := (h.setLife hnp .live).begin hp
    have hpc : ((s.setProc np { s.proc np with life := .live }).proc p).pc = .fork np i := by
      have hne : p ≠ np := (hprocs.ne_child hpc).symm
      simpa [St.setProc, update, hne] using hpc
    rw [hpc] at h1
    exact h1.ret hp _

theorem mid_init : Mid init [] [] where
  calm := rfl
  refs f := by
    have : init.refs f = 0 := tally_eq_zero.mpr fun p _ => by
      have : tally nofile (isFile f) (init.proc p).ofile = 0 := tally_eq_zero.mpr fun _ _ => rfl
      rw [Proc.refs, this]
      rfl
    rw [this]
    rfl
  none _ _ := rfl
  high _ _ := rfl
  ends e := by
    have h1 : tally nfile (File.isEnd e) init.file = 0 := tally_eq_zero.mpr fun _ _ => rfl
    have h2 : tally nproc (Proc.closing e) init.proc = 0 := tally_eq_zero.mpr fun _ _ => rfl
    rw [St.ends, h1, h2]
    rfl
  page _ _ h := by cases h
  count _ := rfl
  fresh _ _ _ h := by cases h

theorem mid_reached (hs : Reached s) : Procs s ∧ Mid s [] [] := by
  refine hs.inv (I := fun s => Procs s ∧ Mid s [] []) ⟨procs_init, mid_init⟩ fun _ _ _ hi _ ht => ?_
  have hstep := step_of_act ht
  exact ⟨hi.1.step hstep, hi.2.step hi.1 hstep⟩

end

/-! ## When a pipe is freed -/

section

variable {s t : St} {p f fd pi : Nat}

theorem pipe_filealloc (h : filealloc s = some (f, t)) : t.pipe = s.pipe := by
  unfold filealloc at h
  split at h <;> cases h
  rfl

theorem pipe_fdalloc (h : fdalloc s p f = some (fd, t)) : t.pipe = s.pipe := by
  unfold fdalloc at h
  split at h <;> cases h
  rfl

theorem pipe_filedup (s : St) (f : Nat) : (filedup s f).pipe = s.pipe := by
  unfold filedup
  split <;> rfl

theorem pipe_fileclose (s : St) (p f : Nat) (n : Next) : (fileclose s p f n).pipe = s.pipe := by
  unfold fileclose
  split
  · rfl
  · split <;> rfl

theorem pipe_sysOpen (s : St) (p : Nat) (target : Option FdType) (writable : Bool) :
    (sysOpen s p target writable).pipe = s.pipe := by
  unfold sysOpen
  split
  · rfl
  · split
    · rfl
    · rename_i f s1 hf
      have hpipe : s1.pipe = s.pipe := pipe_filealloc hf
      split
      · exact hpipe
      · rename_i hfd
        exact (pipe_fdalloc hfd).trans hpipe

theorem pipe_sysDup (s : St) (p fd : Nat) : (sysDup s p fd).pipe = s.pipe := by
  unfold sysDup
  split
  · rfl
  · split
    · rfl
    · rename_i hfd
      exact (pipe_filedup _ _).trans (pipe_fdalloc hfd)

theorem pipe_sysClose (s : St) (p fd : Nat) : (sysClose s p fd).pipe = s.pipe := by
  unfold sysClose
  split <;> rfl

/-- `sys_pipe` frees nothing. -/
theorem pipe_pipeRest (h : pipeRest s p f0 f1 page copyout = some t) (hnone : t.pipe pi = none) : s.pipe pi = none := by
  unfold pipeRest at h
  split at h
  · cases h
    exact hnone
  · rename_i pj
    split at h
    · rename_i hfree
      by_cases hpi : pi = pj
      · rwa [hpi]
      have hends : (pipeEnds s pj f0 f1).pipe pi = s.pipe pi := update_of_ne hpi _ _
      rw [← hends]
      split at h
      · cases h
        exact hnone
      · rename_i hfd0
        rw [← pipe_fdalloc hfd0]
        split at h
        · cases h
          exact hnone
        · rename_i hfd1
          rw [← pipe_fdalloc hfd1]
          split at h <;> cases h <;> exact hnone
    · cases h

/-- The last end of page `pi` is closed, and the page freed. -/
def LastClose (s t : St) (pi : Nat) (x : Pipe) : Prop :=
  ∃ p w n, (s.proc p).pc = .pipeclose pi w n ∧ (x.close w).readopen = false ∧ (x.close w).writeopen = false ∧
    t.frees pi = s.frees pi + 1

theorem Step.lastClose (h : Step s t) {x : Pipe} (hx : s.pipe pi = some x) (hnone : t.pipe pi = none) :
    LastClose s t pi x := by
  -- every other step leaves the page
  have hkeep : t.pipe pi ≠ s.pipe pi := by simp [hx, hnone]
  cases h with
  | «open» => exact absurd (congrFun (pipe_sysOpen _ _ _ _) pi) hkeep
  | pipe _ _ _ hf | pipe1 _ _ hf => exact absurd (congrFun (pipe_filealloc hf) pi) hkeep
  | dup => exact absurd (congrFun (pipe_sysDup _ _ _) pi) hkeep
  | close => exact absurd (congrFun (pipe_sysClose _ _ _) pi) hkeep
  | pipe2 _ _ ht =>
    rw [pipe_pipeRest ht hnone] at hx
    cases hx
  | fileclose | exitClose => exact absurd (congrFun (pipe_fileclose _ _ _ _) pi) hkeep
  | forkDup => exact absurd (congrFun (pipe_filedup _ _) pi) hkeep
  | @pipeclose p pj w n hp hpc =>
    unfold Ftable.pipeclose at hnone hkeep ⊢
    by_cases hpi : pi = pj
    · subst hpi
      rw [hx] at hnone hkeep ⊢
      simp only at hnone hkeep ⊢
      split
      · rename_i hboth
        exact ⟨p, w, n, hpc, hboth.1, hboth.2, update_self _ _ _⟩
      · rename_i hboth
        simp [hboth, St.goto, St.setProc, update] at hnone
    · exfalso
      apply hkeep
      split
      · rfl
      · split <;> exact update_of_ne hpi _ _
  | _ => exact absurd rfl hkeep

end

/-! ## The counts -/

/-- No process is in a call. -/
def St.AtRest (s : St) : Prop := ∀ p < nproc, (s.proc p).pc = .idle

/-- The descriptors of all processes that are file `f`. -/
def St.slots (s : St) (f : Nat) : Nat := tally nproc (fun x : Proc => tally nofile (isFile f) x.ofile) s.proc

/-- File `f` is the end `w` of the pipe on page `pi`. -/
def St.IsEnd (s : St) (f pi : Nat) (w : Bool) : Prop :=
  0 < (s.file f).ref ∧ (s.file f).type = .pipe ∧ (s.file f).pipe = pi ∧ (s.file f).writable = w

/-- What holds between calls. -/
structure Counted (s : St) : Prop where
  refs : ∀ f, (s.file f).ref = s.slots f
  ends : ∀ pi w, (∃ x, s.pipe pi = some x ∧ x.isOpen w = true) ↔ ∃ f < nfile, s.IsEnd f pi w

variable {s : St}

theorem counted_of_rest (h : Mid s [] []) (hrest : s.AtRest) : Counted s where
  refs f := by
    have : s.slots f = s.refs f := by
      refine tally_congr fun p hp => ?_
      rw [Proc.refs, hrest p hp]
      rfl
    rw [this]
    exact h.refs f
  ends pi w := by
    have hclosing : tally nproc (Proc.closing (pi, w)) s.proc = 0 := tally_eq_zero.mpr fun p hp => by
      rw [Proc.closing, hrest p hp]
      rfl
    have hends : tally nfile (File.isEnd (pi, w)) s.file + 0 = opens (s.pipe pi) w := by
      rw [← hclosing]
      exact h.ends (pi, w)
    have hopen : (∃ x, s.pipe pi = some x ∧ x.isOpen w = true) ↔ 0 < opens (s.pipe pi) w := by
      cases hx : s.pipe pi with
      | none => simp [opens]
      | some x => cases hw : x.isOpen w <;> simp [opens, hw]
    rw [hopen, ← hends, Nat.add_zero, tally_pos]
    simp only [File.isEnd, Prod.mk.injEq, St.IsEnd]
    refine exists_congr fun f => and_congr_right fun _ => ?_
    split <;> simp_all

/-- **References and pipes.** No panic is reached; a file without a reference has no type; a page is freed as often as
    its pipe has gone, at the close of its last open end; and between calls a file's count is that of the descriptors
    which are it, and an end of a pipe is open exactly when some file is that end. -/
theorem reference_counts (hs : Reached s) :
    s.panic = none ∧ (∀ f, (s.file f).ref = 0 → (s.file f).type = .none) ∧
    (∀ pi, s.allocs pi = s.frees pi + (s.pipe pi).isSome.toNat) ∧
    (∀ pi x, s.pipe pi = some x → x.readopen = true ∨ x.writeopen = true) ∧
    (∀ a t pi x, act s a = some t → s.pipe pi = some x → t.pipe pi = none → LastClose s t pi x) ∧
    (s.AtRest → Counted s) := by
  obtain ⟨-, h⟩ := mid_reached hs
  exact ⟨h.calm, h.none, h.count, h.page, fun _ _ _ _ ht => (step_of_act ht).lastClose, counted_of_rest h⟩

/-- A process makes a pipe, duplicates its read end, forks and closes its write end. -/
def pipeAndFork : List Act :=
  [.pipe 0 (some 7) true, .step 0, .step 0, .dup 0 0, .fork 0 1] ++ List.replicate 17 (.step 0) ++
    [.close 0 1, .step 0, .step 0]

theorem reference_counts_fork : ∃ s, Reached s ∧ s.AtRest ∧ s.panic = none ∧ s.slots 0 = 4 ∧ s.slots 1 = 1 ∧
    ∃ f < nfile, s.IsEnd f 7 true := by
  have hrun : (run act init pipeAndFork).map (fun s => (decide (∀ p < nproc, (s.proc p).pc = .idle), (s.file 0).ref,
      (s.file 1).ref, s.pipe 7)) = some (true, 4, 1, some ⟨true, true⟩) := by decide +kernel
  obtain ⟨s, hs, he⟩ := Option.map_eq_some_iff.mp hrun
  simp only [Prod.mk.injEq, decide_eq_true_eq] at he
  obtain ⟨hrest, h0, h1, h7⟩ := he
  have hr : Reached s := reach_of_run (fun _ _ _ => trivial) hs
  obtain ⟨hcalm, -, -, -, -, hcounted⟩ := reference_counts hr
  have hc := hcounted hrest
  exact ⟨s, hr, hrest, hcalm, (hc.refs 0).symm.trans h0, (hc.refs 1).symm.trans h1,
    (hc.ends 7 true).mp ⟨_, h7, rfl⟩⟩

/-- Every reference is with a process that has not exited. -/
theorem Mid.holder {f : Nat} (h : Mid s [] []) (hprocs : Procs s) (hf : 0 < (s.file f).ref) :
    ∃ p < nproc, (s.proc p).life ≠ .dead ∧ 0 < (s.proc p).refs f := by
  rw [h.refs f, List.count_nil, Nat.add_zero, St.refs, tally_pos] at hf
  obtain ⟨p, hp, hpos⟩ := hf
  refine ⟨p, hp, fun hdead => ?_, hpos⟩
  have hnone : tally nofile (isFile f) (s.proc p).ofile = 0 := tally_eq_zero.mpr fun fd hfd => by
    rw [hprocs.dead p hdead fd hfd]
    rfl
  rw [Proc.refs, hnone, hprocs.quiet p (by rw [hdead]; decide)] at hpos
  cases hpos

/-- **Nothing is leaked.** A file that is in use and a page that is still a pipe are with a process that has not exited:
    it has a descriptor for the file, or is in a call that will close it. -/
theorem nothing_leaks (hs : Reached s) :
    (∀ f, 0 < (s.file f).ref → ∃ p < nproc, (s.proc p).life ≠ .dead ∧ 0 < (s.proc p).refs f) ∧
    ∀ pi, s.frees pi < s.allocs pi → ∃ w, ∃ p < nproc, (s.proc p).life ≠ .dead ∧
      ((∃ f, s.IsEnd f pi w ∧ 0 < (s.proc p).refs f) ∨ (pi, w) ∈ (s.proc p).pc.closing) := by
  obtain ⟨hprocs, h⟩ := mid_reached hs
  refine ⟨fun f => h.holder hprocs, fun pi hpi => ?_⟩
  have hcount := h.count pi
  cases hx : s.pipe pi with
  | none =>
    rw [hx] at hcount
    exact absurd hcount (Nat.ne_of_gt hpi)
  | some x =>
    obtain ⟨w, hw⟩ : ∃ w, x.isOpen w = true := (h.page pi x hx).elim (fun hr => ⟨false, hr⟩) fun hw => ⟨true, hw⟩
    have hends : s.ends (pi, w) = 1 := (h.ends (pi, w)).trans (by simp [St.isOpen, opens, hx, hw])
    refine ⟨w, ?_⟩
    rcases Nat.eq_zero_or_pos (tally nfile (File.isEnd (pi, w)) s.file) with h0 | hpos
    · -- its last file is closed, and `pipeclose` is to come
      rw [St.ends, h0, Nat.zero_add] at hends
      obtain ⟨p, hp, hc⟩ := tally_pos.mp (Nat.lt_of_lt_of_eq Nat.one_pos hends.symm)
      have hmem := List.count_pos_iff.mp hc
      refine ⟨p, hp, fun hdead => ?_, .inr hmem⟩
      rw [hprocs.quiet p (by rw [hdead]; decide)] at hmem
      cases hmem
    · obtain ⟨f, -, hf⟩ := tally_pos.mp hpos
      have he : s.IsEnd f pi w := by
        unfold File.isEnd at hf
        split at hf
        · rename_i hend
          exact ⟨hend.1, hend.2.1, Prod.mk.inj hend.2.2⟩
        · cases hf
      obtain ⟨p, hp, hlive, hrefs⟩ := h.holder hprocs he.1
      exact ⟨p, hp, hlive, .inl ⟨f, he, hrefs⟩⟩

/-- Process 0 has made a pipe. -/
theorem nothing_leaks_pipe : ∃ s, Reached s ∧ s.frees 7 < s.allocs 7 ∧ ∃ p < nproc, (s.proc p).life ≠ .dead := by
  obtain ⟨s, hs, hpi⟩ : ∃ s, run act init [.pipe 0 (some 7) true, .step 0, .step 0] = some s ∧ s.frees 7 < s.allocs 7 :=
    ⟨_, rfl, by decide +kernel⟩
  have hr : Reached s := reach_of_run (fun _ _ _ => trivial) hs
  obtain ⟨-, p, hp, hlive, -⟩ := (nothing_leaks hr).2 7 hpi
  exact ⟨s, hr, hpi, p, hp, hlive⟩

end Xv6.Ftable
