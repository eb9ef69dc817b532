/-
  Xv6.Lib.Crash — programs over a volatile state with a durable part, cut at any durable step.

  A program takes a state `S` and returns a value, the state it ends in, and the durable
  images `D` left by its durable steps, in order. A crash loses the volatile state: what
  survives is the image before the first durable step or the one after some step
  (`crashPoints`). `Triple P p Q C` is the crash Hoare triple: from `P` the program ends in
  `Q`, and every image left on the way satisfies `C`. The rules follow the program's shape
  (`Triple.bind`, `Triple.loop`), so a crash argument is made once per durable step.
-/

import Mathlib.Algebra.Order.Ring.Nat

namespace Xv6.Lib.Crash

def Prog (S D α : Type) := S → α × S × List D

variable {S D α β : Type} {body : Nat → Prog S D Unit} {C : D → Prop}

namespace Prog

def ret (p : Prog S D α) (s : S) : α := (p s).1

def post (p : Prog S D α) (s : S) : S := (p s).2.1

/-- The durable image after each durable step of `p` from `s`. -/
def images (p : Prog S D α) (s : S) : List D := (p s).2.2

end Prog

instance : Monad (Prog S D) where
  pure a := fun s => (a, s, [])
  bind p f := fun s => ((f (p.ret s)).ret (p.post s), (f (p.ret s)).post (p.post s),
    p.images s ++ (f (p.ret s)).images (p.post s))

/-- Reads the volatile state. -/
def get : Prog S D S := fun s => (s, s, [])

/-- A step that changes nothing durable. -/
def modify (f : S → S) : Prog S D Unit := fun s => ((), f s, [])

/-- One durable step; `img` is what survives of a state. -/
def durable (img : S → D) (f : S → S) : Prog S D Unit := fun s => ((), f s, [img (f s)])

/-- `for i in 0..n-1`. -/
def loop : Nat → (Nat → Prog S D Unit) → Prog S D Unit
  | 0, _ => pure ()
  | n + 1, body => do loop n body; body n

/-- What a crash can leave: the image `p` starts on, or the one after any durable step. -/
def crashPoints (img : S → D) (p : Prog S D α) (s : S) : List D := img s :: p.images s

@[simp] theorem pure_ret (a : α) (s : S) : Prog.ret (pure a : Prog S D α) s = a := rfl
@[simp] theorem pure_post (a : α) (s : S) : Prog.post (pure a : Prog S D α) s = s := rfl
@[simp] theorem pure_images (a : α) (s : S) : Prog.images (pure a : Prog S D α) s = [] := rfl
@[simp] theorem bind_post (p : Prog S D α) (f : α → Prog S D β) (s : S) :
    (p >>= f).post s = (f (p.ret s)).post (p.post s) := rfl
@[simp] theorem bind_ret (p : Prog S D α) (f : α → Prog S D β) (s : S) :
    (p >>= f).ret s = (f (p.ret s)).ret (p.post s) := rfl
@[simp] theorem bind_images (p : Prog S D α) (f : α → Prog S D β) (s : S) :
    (p >>= f).images s = p.images s ++ (f (p.ret s)).images (p.post s) := rfl
@[simp] theorem get_ret (s : S) : Prog.ret (get : Prog S D S) s = s := rfl
@[simp] theorem get_post (s : S) : Prog.post (get : Prog S D S) s = s := rfl
@[simp] theorem get_images (s : S) : Prog.images (get : Prog S D S) s = [] := rfl
@[simp] theorem modify_post (f : S → S) (s : S) : Prog.post (modify f : Prog S D Unit) s = f s := rfl
@[simp] theorem modify_images (f : S → S) (s : S) : Prog.images (modify f : Prog S D Unit) s = [] := rfl
@[simp] theorem durable_post (img : S → D) (f : S → S) (s : S) : (durable img f).post s = f s := rfl
@[simp] theorem durable_images (img : S → D) (f : S → S) (s : S) : (durable img f).images s = [img (f s)] := rfl

theorem loop_images_length (h : ∀ i s, ((body i).images s).length = 1) :
    ∀ n s, ((loop n body).images s).length = n := by
  intro n
  induction n with
  | zero => intro s; rfl
  | succ n ih => intro s; simp only [loop, bind_images, List.length_append, ih, h]

def Triple (P : S → Prop) (p : Prog S D α) (Q : α → S → Prop) (C : D → Prop) : Prop :=
  ∀ s, P s → Q (p.ret s) (p.post s) ∧ ∀ d ∈ p.images s, C d

namespace Triple

variable {P P' : S → Prop} {C C' : D → Prop}

theorem bind {p : Prog S D α} {f : α → Prog S D β} {R : α → S → Prop} {Q : β → S → Prop}
    (hp : Triple P p R C) (hf : ∀ a, Triple (R a) (f a) Q C) : Triple P (p >>= f) Q C := by
  intro s hs
  obtain ⟨hr, hc⟩ := hp s hs
  obtain ⟨hq, hc'⟩ := hf _ _ hr
  refine ⟨hq, fun d hd => ?_⟩
  rcases List.mem_append.mp hd with hd | hd
  · exact hc d hd
  · exact hc' d hd

theorem conseq {p : Prog S D α} {Q Q' : α → S → Prop} (h : Triple P p Q C) (hP : ∀ s, P' s → P s)
    (hQ : ∀ a s, Q a s → Q' a s) (hC : ∀ d, C d → C' d) : Triple P' p Q' C' := by
  intro s hs
  obtain ⟨hq, hc⟩ := h s (hP s hs)
  exact ⟨hQ _ _ hq, fun d hd => hC d (hc d hd)⟩

theorem modify {f : S → S} {Q : Unit → S → Prop} (h : ∀ s, P s → Q () (f s)) :
    Triple P (modify f : Prog S D Unit) Q C :=
  fun s hs => ⟨h s hs, fun _ hd => absurd hd (by simp)⟩

/-- The loop rule: `I i` holds before the `i`-th turn. -/
theorem loop {I : Nat → S → Prop} :
    ∀ n, (∀ i, i < n → Triple (I i) (body i) (fun _ => I (i + 1)) C) →
      Triple (I 0) (loop n body) (fun _ => I n) C := by
  intro n
  induction n with
  | zero => exact fun _ s hs => ⟨hs, fun _ hd => absurd hd (by simp [Crash.loop])⟩
  | succ n ih =>
    intro h
    exact bind (ih fun i hi => h i (by omega)) fun _ => h n (by omega)

end Triple

theorem mem_crashPoints {img : S → D} {p : Prog S D α} {P : S → Prop} {Q : α → S → Prop} {s : S} (h : Triple P p Q C) (hs : P s)
    (h0 : C (img s)) : ∀ d ∈ crashPoints img p s, C d := by
  intro d hd
  rcases List.mem_cons.mp hd with rfl | hd
  · exact h0
  · exact (h s hs).2 d hd

/-! ## Recovery that may itself be cut -/

section Recovery

variable (boot : D → S) (img : S → D) (recover : Prog S D Unit)

/-- `Recovers d d'`: starting on image `d`, recovery is cut any number of times, each time
    at any point, starts over, and in the end completes, leaving `d'`. -/
inductive Recovers : D → D → Prop
  | done (d : D) : Recovers d (img (recover.post (boot d)))
  | crash {d d' d'' : D} : d' ∈ crashPoints img recover (boot d) → Recovers d' d'' → Recovers d d''

variable {boot img recover}

/-- A crash invariant of recovery that gives `Q` on completion. -/
theorem Recovers.sound {Q : D → Prop} (hstep : ∀ d, C d → Q (img (recover.post (boot d))) ∧
      ∀ d' ∈ crashPoints img recover (boot d), C d') {d d' : D} (h : Recovers boot img recover d d') (hd : C d) : Q d' := by
  induction h with
  | done d => exact (hstep d hd).1
  | crash hm _ ih => exact ih ((hstep _ hd).2 _ hm)

end Recovery

end Xv6.Lib.Crash
