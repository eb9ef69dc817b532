/-
  Xv6.Lib.Wp — weakest preconditions for programs with state that can stop with an error.

  A program is a `StateT σ (Except ε)` computation. `wp E m Q s` says that `m`, started in
  `s`, either finishes in a state and with a result that satisfy `Q`, or stops with an error
  in `E`: the set `E` says which errors are tolerated, so that a proof with `E := (· ≠ e)`
  shows that `e` is never raised.
-/

import Mathlib.Algebra.Order.Ring.Nat

namespace Xv6.Lib

variable {σ ε α β : Type}

def wp (E : ε → Prop) (m : StateT σ (Except ε) α) (Q : α → σ → Prop) (s : σ) : Prop :=
  match m s with
  | .ok (a, s') => Q a s'
  | .error e => E e

variable {E : ε → Prop} {m : StateT σ (Except ε) α} {f : α → StateT σ (Except ε) β}
  {Q R : α → σ → Prop} {T : β → σ → Prop} {s : σ}

theorem wp_mono (h : wp E m Q s) (hQ : ∀ a s', Q a s' → R a s') : wp E m R s := by
  unfold wp at h ⊢
  split at h
  · exact hQ _ _ h
  · exact h

/-- Programs with one run from `s`. -/
theorem wp_congr {m' : StateT σ (Except ε) α} (he : m s = m' s) (h : wp E m' Q s) : wp E m Q s := by
  unfold wp at h ⊢
  rwa [he]

variable {F : ε → Prop} {a : α} {g : σ → σ} {e : ε} {s' : σ}

theorem wp_error_mono (h : wp E m Q s) (hE : ∀ e, E e → F e) : wp F m Q s := by
  unfold wp at h ⊢
  split at h
  · exact h
  · exact hE _ h

/-- Two facts about one run. -/
theorem wp_and (h : wp E m Q s) (h' : wp F m R s) :
    wp (fun e => E e ∧ F e) m (fun a s' => Q a s' ∧ R a s') s := by
  unfold wp at *
  cases hm : m s with
  | ok p | error e => simp only [hm] at *; exact ⟨h, h'⟩

theorem wp_both (h : wp E m Q s) (h' : wp E m R s) : wp E m (fun a s' => Q a s' ∧ R a s') s :=
  wp_error_mono (wp_and h h') fun _ he => he.1

/-- A program with no tolerated stop finishes. -/
theorem wp_total (h : wp (fun _ => False) m Q s) : ∃ a s', m s = .ok (a, s') ∧ Q a s' := by
  unfold wp at h
  cases hm : m s with
  | ok p => rw [hm] at h; exact ⟨p.1, p.2, rfl, h⟩
  | error e => rw [hm] at h; exact h.elim

/-- The run itself, when the stops it can end in are tolerated. -/
theorem wp_run (h : ∀ e, m s = .error e → E e) : wp E m (fun a s' => m s = .ok (a, s')) s := by
  unfold wp
  split
  · rename_i a s' hm
    exact hm
  · rename_i e hm
    exact h e hm

theorem wp_any (m : StateT σ (Except ε) α) (s : σ) : wp (fun _ => True) m (fun _ _ => True) s := by
  unfold wp
  split <;> trivial

theorem wp_bind : wp E (m >>= f) T s ↔ wp E m (fun a s' => wp E (f a) T s') s := by
  change (match (m s >>= fun p => f p.1 p.2 : Except ε (β × σ)) with | .ok (a, s') => T a s' | .error e => E e) ↔ _
  unfold wp
  cases h : m s with
  | ok p => rfl
  | error e => rfl

/-- Run `m`, then the rest from whatever `m` establishes. -/
theorem wp_seq (h : wp E m Q s) (hf : ∀ a s', Q a s' → wp E (f a) T s') : wp E (m >>= f) T s :=
  wp_bind.mpr (wp_mono h hf)

@[simp] theorem wp_get {Q : σ → σ → Prop} : wp E (get : StateT σ (Except ε) σ) Q s ↔ Q s s := Iff.rfl

@[simp] theorem wp_set {t : σ} {Q : PUnit → σ → Prop} : wp E (set t : StateT σ (Except ε) PUnit) Q s ↔ Q ⟨⟩ t :=
  Iff.rfl

@[simp] theorem wp_modify {Q : PUnit → σ → Prop} :
    wp E (modify g : StateT σ (Except ε) PUnit) Q s ↔ Q ⟨⟩ (g s) := Iff.rfl

@[simp] theorem wp_throw : wp E (throw e : StateT σ (Except ε) α) Q s ↔ E e := Iff.rfl

theorem wp_get_bind {g : σ → StateT σ (Except ε) β} : wp E (get >>= g) T s ↔ wp E (g s) T s := Iff.rfl

theorem wp_modify_bind {k : PUnit → StateT σ (Except ε) β} :
    wp E (modify g >>= k) T s ↔ wp E (k ⟨⟩) T (g s) := Iff.rfl

theorem run_get_bind {k : σ → StateT σ (Except ε) β} : (get >>= k) s = k s s := rfl

theorem run_bind_ok (h : m s = .ok (a, s')) : (m >>= f) s = f a s' := by
  change (m s >>= fun p => f p.1 p.2 : Except ε (β × σ)) = _
  rw [h]
  rfl

/-- Run `m`, whose run is known, then the rest. -/
theorem wp_run_bind {s1 : σ} (h : m s = .ok (a, s1)) (hf : wp E (f a) T s1) : wp E (m >>= f) T s := by
  unfold wp at *
  rwa [run_bind_ok h]

theorem run_bind_error (h : m s = .error e) : (m >>= f) s = .error e := by
  change (m s >>= fun p => f p.1 p.2 : Except ε (β × σ)) = _
  rw [h]
  rfl

theorem wp.ok (h : wp E m Q s) (hm : m s = .ok (a, s')) : Q a s' := by
  unfold wp at h
  rw [hm] at h
  exact h

theorem wp.error (h : wp E m Q s) (hm : m s = .error e) : E e := by
  unfold wp at h
  rw [hm] at h
  exact h

/-- A run that has been evaluated, seen through `f`. -/
theorem exists_of_run {γ : Type} {x : Except ε α} {f : α → γ} {c : γ} (h : x.toOption.map f = some c) :
    ∃ a, x = .ok a ∧ f a = c := by
  cases x with
  | ok a => exact ⟨a, rfl, Option.some.inj h⟩
  | error e => cases h

/-- `for(k = 0; k < n; k++) body(k)`. -/
def forTo (body : Nat → StateT σ (Except ε) PUnit) : Nat → StateT σ (Except ε) PUnit
  | 0 => pure ⟨⟩
  | n + 1 => forTo body n >>= fun _ => body n

/-- The loop rule: the invariant `I k` holds before iteration `k`. -/
theorem wp_forTo {body : Nat → StateT σ (Except ε) PUnit} {I : Nat → σ → Prop} {n : Nat} (h0 : I 0 s)
    (hstep : ∀ k, k < n → ∀ t, I k t → wp E (body k) (fun _ t' => I (k + 1) t') t) :
    wp E (forTo body n) (fun _ t => I n t) s := by
  induction n with
  | zero => exact h0
  | succ n ih =>
    apply wp_seq (ih fun k hk => hstep k (Nat.lt_succ_of_lt hk))
    intro _ t ht
    exact hstep n (Nat.lt_succ_self n) t ht

-- a goal about a long loop must not be unrolled by unification
attribute [irreducible] forTo

end Xv6.Lib
